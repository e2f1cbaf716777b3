import Mathlib.Order.Bounds.Basic
import Mathlib.Algebra.Ring.Nat
import Mathlib.Tactic.Common

/-!
# Femu.Lib.Fields

Numbers put together from fields: digits in a mixed radix, and fields of bits.

* `isGreatest_digit` adds a lowest digit to a set of numbers of which the greatest is
  known;
* `greatest p w` is the greatest number of `w` bits with a property that every number
  keeps when bits are cleared (`BitClosed`), found bit by bit from the top.
-/

namespace Femu.Lib

/-! ## mixed radix -/

/-- The digits of a number in base `m` above the lowest one. -/
theorem mul_add_div_of_lt {m b : Nat} (a : Nat) (hb : b < m) : (a * m + b) / m = a := by
  rw [Nat.mul_comm, Nat.mul_add_div (by omega), Nat.div_eq_of_lt hb, Nat.add_zero]

/-- The digits of a number in base `m` are determined by the number. -/
theorem digits_unique {m a b c d : Nat} (hb : b < m) (hd : d < m) (h : a * m + b = c * m + d) :
    a = c ∧ b = d := by
  have hac : a = c := by rw [← mul_add_div_of_lt a hb, h, mul_add_div_of_lt c hd]
  subst hac
  exact ⟨rfl, by omega⟩

/-- The numbers below a bound. -/
theorem isGreatest_lt {a : Nat} (ha : 0 < a) : IsGreatest {x | x < a} (a - 1) := by
  constructor
  · simp only [Set.mem_ofPred_eq]
    omega
  · intro x hx
    simp only [Set.mem_ofPred_eq] at hx
    omega

/-- The numbers whose lowest digit in base `m` is below a bound, and whose other digits
are those of a given set. -/
theorem isGreatest_digit {p : Nat → Prop} {m a b : Nat} (ha : 0 < a) (ham : a ≤ m)
    (hb : IsGreatest {x | p x} b) :
    IsGreatest {x | x % m < a ∧ p (x / m)} (b * m + (a - 1)) := by
  constructor
  · have hmod : (b * m + (a - 1)) % m = a - 1 := Nat.mul_add_mod_of_lt (by omega)
    have hdiv : (b * m + (a - 1)) / m = b := mul_add_div_of_lt b (by omega)
    simp only [Set.mem_ofPred_eq, hmod, hdiv]
    exact ⟨by omega, hb.1⟩
  · rintro x ⟨hmod, hdiv⟩
    have hle : x / m * m ≤ b * m := Nat.mul_le_mul_right m (hb.2 hdiv)
    have hsplit := Nat.div_add_mod x m
    rw [Nat.mul_comm] at hsplit
    omega

/-! ## fields of bits -/

/-- The field of `len` bits at offset `o` is a digit of the number. -/
theorem field_eq (x len o : Nat) : (x &&& ((2 ^ len - 1) * 2 ^ o)) >>> o = x / 2 ^ o % 2 ^ len := by
  rw [Nat.shiftRight_and_distrib, ← Nat.shiftLeft_eq (2 ^ len - 1), Nat.shiftLeft_shiftRight,
    Nat.and_two_pow_sub_one_eq_mod, Nat.shiftRight_eq_div_pow]

/-- A digit of `k` bits above a number of `n` bits. -/
theorem digit_lt {x y n k : Nat} (hy : y < 2 ^ k) (hx : x < 2 ^ n) : y * 2 ^ n + x < 2 ^ (n + k) := by
  have hmul : (y + 1) * 2 ^ n ≤ 2 ^ k * 2 ^ n := Nat.mul_le_mul_right (2 ^ n) hy
  rw [Nat.succ_mul, ← Nat.pow_add, Nat.add_comm k] at hmul
  omega

/-- A field of bits put above a number. -/
theorem or_shiftLeft {x n : Nat} (y : Nat) (h : x < 2 ^ n) : x ||| y <<< n = y * 2 ^ n + x := by
  rw [Nat.or_comm, ← Nat.shiftLeft_add_eq_or_of_lt h, Nat.shiftLeft_eq]

/-- To clear bits keeps the property. -/
def BitClosed (p : Nat → Prop) : Prop := ∀ x y, x &&& y = x → p y → p x

theorem BitClosed.and {p q : Nat → Prop} (hp : BitClosed p) (hq : BitClosed q) :
    BitClosed fun x => p x ∧ q x :=
  fun x y hxy h => ⟨hp x y hxy h.1, hq x y hxy h.2⟩

theorem le_of_and_eq {x y : Nat} (h : x &&& y = x) : x ≤ y := by
  rw [← h]
  exact Nat.and_le_right

/-- A bound on a field. -/
theorem bitClosed_field (m o b : Nat) : BitClosed fun x => (x &&& m) >>> o < b := by
  intro x y hxy h
  have hsub : (x &&& m) &&& (y &&& m) = x &&& m := by
    have hperm : (x &&& m) &&& (y &&& m) = (x &&& y) &&& (m &&& m) := by ac_rfl
    rw [hperm, hxy, Nat.and_self]
  have hle : (x &&& m) >>> o ≤ (y &&& m) >>> o := by
    rw [Nat.shiftRight_eq_div_pow, Nat.shiftRight_eq_div_pow]
    exact Nat.div_le_div_right (le_of_and_eq hsub)
  omega

/-- A bound on the highest field. -/
theorem bitClosed_shiftRight (o b : Nat) : BitClosed fun x => x >>> o < b := by
  intro x y hxy h
  have hle : x >>> o ≤ y >>> o := by
    rw [Nat.shiftRight_eq_div_pow, Nat.shiftRight_eq_div_pow]
    exact Nat.div_le_div_right (le_of_and_eq hxy)
  omega

/-- The low bits of a number. -/
theorem mod_and_self (x w : Nat) : x % 2 ^ w &&& x = x % 2 ^ w := by
  refine Nat.eq_of_testBit_eq fun i => ?_
  simp [Nat.testBit_mod_two_pow]

/-- A multiple of `2^k` is what a number has above its lowest `k` bits. -/
theorem and_eq_of_block {a x k : Nat} (ha : 2 ^ k ∣ a) (hle : a ≤ x) (hlt : x < a + 2 ^ k) :
    a &&& x = a := by
  obtain ⟨c, rfl⟩ := ha
  obtain ⟨d, rfl⟩ : ∃ d, x = 2 ^ k * c + d := ⟨x - 2 ^ k * c, by omega⟩
  rw [Nat.two_pow_add_eq_or_of_lt (by omega)]
  refine Nat.eq_of_testBit_eq fun i => ?_
  simpa using Or.inl

/-- The greatest number with the property that agrees with `acc` above its lowest `k`
bits. -/
def greatestFrom (p : Nat → Prop) [DecidablePred p] : Nat → Nat → Nat
  | 0, acc => acc
  | k + 1, acc => greatestFrom p k (if p (acc + 2 ^ k) then acc + 2 ^ k else acc)

/-- The greatest number of `w` bits with the property. -/
def greatest (p : Nat → Prop) [DecidablePred p] (w : Nat) : Nat := greatestFrom p w 0

section Greatest

variable {p : Nat → Prop} [DecidablePred p]

theorem greatestFrom_isGreatest (hp : BitClosed p) {k acc : Nat} (hdvd : 2 ^ k ∣ acc)
    (hacc : p acc) :
    IsGreatest {x | acc ≤ x ∧ x < acc + 2 ^ k ∧ p x} (greatestFrom p k acc) := by
  induction k generalizing acc with
  | zero =>
      constructor
      · exact ⟨Nat.le_refl acc, by simp [greatestFrom], hacc⟩
      · rintro x ⟨hle, hlt, -⟩
        simp only [greatestFrom]
        omega
  | succ k ih =>
      have hhalf : 2 ^ (k + 1) = 2 ^ k + 2 ^ k := by rw [Nat.pow_succ]; omega
      have hdvd' : 2 ^ k ∣ acc := Nat.dvd_trans (Nat.pow_dvd_pow 2 (Nat.le_succ k)) hdvd
      simp only [greatestFrom]
      split
      case isTrue hset =>
        -- the bit can be set: nothing without it is greater
        obtain ⟨⟨hle, hlt, hpr⟩, hub⟩ := ih (Nat.dvd_add_self_right.mpr hdvd') hset
        refine ⟨⟨by omega, by omega, hpr⟩, ?_⟩
        rintro x ⟨hxle, hxlt, hpx⟩
        by_cases hx : acc + 2 ^ k ≤ x
        · exact hub ⟨hx, by omega, hpx⟩
        · omega
      case isFalse hclear =>
        -- the bit cannot be set: no number with it has the property
        obtain ⟨⟨hle, hlt, hpr⟩, hub⟩ := ih hdvd' hacc
        refine ⟨⟨hle, by omega, hpr⟩, ?_⟩
        rintro x ⟨hxle, hxlt, hpx⟩
        refine hub ⟨hxle, ?_, hpx⟩
        by_contra hx
        refine hclear (hp (acc + 2 ^ k) x ?_ hpx)
        exact and_eq_of_block (Nat.dvd_add_self_right.mpr hdvd') (by omega) (by omega)

/-- **The greatest number with a property** that bits may be cleared in. -/
theorem greatest_isGreatest (hp : BitClosed p) (h0 : p 0) (w : Nat) :
    IsGreatest {x | x < 2 ^ w ∧ p x} (greatest p w) := by
  have h := greatestFrom_isGreatest hp (Nat.dvd_zero (2 ^ w)) h0
  simpa [greatest] using h

end Greatest

end Femu.Lib

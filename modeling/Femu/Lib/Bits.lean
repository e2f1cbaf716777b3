import Mathlib.Logic.Function.Basic
import Mathlib.Data.Nat.Notation
import Mathlib.Tactic.Common

/-!
# Femu.Lib.Bits

Bits numbered across the words of an array, and the first index of a range at
which a predicate holds.

* `bitsOf w i` is bit `i % 64` of word `i / 64`;
* `IsFirst p size offset r` says that a scan of `[offset, size)` for `p` ends at
  `r`. It determines `r`, and it composes: a scan may skip a part of the range
  where `p` does not hold.
-/

namespace Femu.Lib

/-! ## bits of words -/

/-- An array of words. -/
abbrev Words : Type := Nat → BitVec 64

/-- Bit `i` of the array. -/
def bitsOf (w : Words) (i : Nat) : Bool := (w (i / 64)).getLsbD (i % 64)

theorem bitsOf_add (w : Words) (p : Nat) {j : Nat} (hj : j < 64) :
    bitsOf w (64 * p + j) = (w p).getLsbD j := by
  have hdiv : (64 * p + j) / 64 = p := by omega
  have hmod : (64 * p + j) % 64 = j := by omega
  rw [bitsOf, hdiv, hmod]

/-- The bits of an array after one word is replaced. -/
theorem bitsOf_update (w : Words) (p : Nat) (v : BitVec 64) (i : Nat) :
    bitsOf (Function.update w p v) i =
      if 64 * p ≤ i ∧ i < 64 * p + 64 then v.getLsbD (i - 64 * p) else bitsOf w i := by
  by_cases hp : i / 64 = p
  · have hin : 64 * p ≤ i ∧ i < 64 * p + 64 := by omega
    have hmod : i % 64 = i - 64 * p := by omega
    rw [if_pos hin, bitsOf, hp, Function.update_self, hmod]
  · have hout : ¬ (64 * p ≤ i ∧ i < 64 * p + 64) := by omega
    rw [if_neg hout, bitsOf, Function.update_of_ne hp, bitsOf]

/-- A word is zero when none of its bits is set. -/
theorem getLsbD_of_eq_zero {v : BitVec 64} (hv : v = 0#64) (j : Nat) : v.getLsbD j = false := by
  rw [hv, BitVec.getLsbD_zero]

/-! ## the first index -/

/-- `r` is the first index of `[offset, size)` at which `p` holds, and `size` if
there is none. -/
structure IsFirst (p : Nat → Bool) (size offset r : Nat) : Prop where
  le : r ≤ size
  before : ∀ i, offset ≤ i → i < r → p i = false
  hit : r < size → offset ≤ r ∧ p r = true

namespace IsFirst

variable {p : Nat → Bool} {size offset mid r r' : Nat}

/-- The result of a scan is determined. -/
theorem unique (h : IsFirst p size offset r) (h' : IsFirst p size offset r') : r = r' := by
  have hle : r ≤ r' := by
    by_contra hlt
    have hr' : r' < size := by have := h.le; omega
    obtain ⟨hoff, hp⟩ := h'.hit hr'
    have hfalse := h.before r' hoff (by omega)
    rw [hp] at hfalse
    cases hfalse
  have hge : r' ≤ r := by
    by_contra hlt
    have hr : r < size := by have := h'.le; omega
    obtain ⟨hoff, hp⟩ := h.hit hr
    have hfalse := h'.before r hoff (by omega)
    rw [hp] at hfalse
    cases hfalse
  exact Nat.le_antisymm hle hge

/-- A scan of an empty range. -/
theorem of_empty (h : size ≤ offset) : IsFirst p size offset size where
  le := Nat.le_refl size
  before := by
    intro i hoff hlt
    omega
  hit := fun hlt => absurd hlt (Nat.lt_irrefl size)

/-- A scan that finds nothing. -/
theorem of_none (h : ∀ i, offset ≤ i → i < size → p i = false) :
    IsFirst p size offset size where
  le := Nat.le_refl size
  before := h
  hit := fun hlt => absurd hlt (Nat.lt_irrefl size)

/-- A scan may skip a part of the range where `p` does not hold. -/
theorem skip (hskip : ∀ i, offset ≤ i → i < mid → p i = false) (hmid : offset ≤ mid)
    (h : IsFirst p size mid r) : IsFirst p size offset r where
  le := h.le
  before := by
    intro i hoff hlt
    by_cases hi : i < mid
    · exact hskip i hoff hi
    · exact h.before i (by omega) hlt
  hit := by
    intro hlt
    obtain ⟨hle, hp⟩ := h.hit hlt
    exact ⟨Nat.le_trans hmid hle, hp⟩

/-- A scan that does not reach the end of the range has found an index. -/
theorem lt_iff (h : IsFirst p size offset r) :
    r < size ↔ ∃ i, offset ≤ i ∧ i < size ∧ p i = true := by
  constructor
  · intro hlt
    obtain ⟨hoff, hp⟩ := h.hit hlt
    exact ⟨r, hoff, hlt, hp⟩
  · rintro ⟨i, hoff, hlt, hp⟩
    by_contra hr
    have hfalse := h.before i hoff (by omega)
    rw [hp] at hfalse
    cases hfalse

end IsFirst

/-! ## scanning one word -/

/-- The bits of the mask `~0 << j`. -/
theorem getLsbD_highMask (j i : Nat) :
    (BitVec.allOnes 64 <<< j).getLsbD i = decide (j ≤ i ∧ i < 64) := by
  rw [BitVec.getLsbD_shiftLeft, BitVec.getLsbD_allOnes]
  by_cases hj : i < j
  · simp [hj, Nat.not_le_of_lt hj]
  · simp [hj, Nat.le_of_not_lt hj]
    omega

/-- The bits of the mask `~0 >> (64 - n)`. -/
theorem getLsbD_lowMask {n : Nat} (hn : n ≤ 64) (i : Nat) :
    (BitVec.allOnes 64 >>> (64 - n)).getLsbD i = decide (i < n) := by
  rw [BitVec.getLsbD_ushiftRight, BitVec.getLsbD_allOnes]
  have hiff : 64 - n + i < 64 ↔ i < n := by omega
  simp [hiff]

section Word

variable {w : Words} {p j n : Nat} {v : BitVec 64}

/-- Nothing is set in a part of the array that a masked word shows to be empty. -/
theorem bitsOf_of_masked_zero (hv : v = 0#64) (hn : n ≤ 64)
    (hbits : ∀ i, v.getLsbD i = (decide (j ≤ i ∧ i < n) && (w p).getLsbD i)) :
    ∀ i, 64 * p + j ≤ i → i < 64 * p + n → bitsOf w i = false := by
  intro i hle hlt
  have hmask : j ≤ i - 64 * p ∧ i - 64 * p < n := by omega
  have hbit := hbits (i - 64 * p)
  rw [getLsbD_of_eq_zero hv, decide_eq_true hmask, Bool.true_and] at hbit
  have hword := bitsOf_add w p (show i - 64 * p < 64 by omega)
  rw [show 64 * p + (i - 64 * p) = i by omega] at hword
  rw [hword, ← hbit]

/-- The trailing zeroes of a masked word lead to the first bit that is set. -/
theorem isFirst_of_masked (hv : v ≠ 0#64) (hn : n ≤ 64) {size : Nat} (hsize : 64 * p + n ≤ size)
    (hbits : ∀ i, v.getLsbD i = (decide (j ≤ i ∧ i < n) && (w p).getLsbD i)) :
    IsFirst (bitsOf w) size (64 * p + j) (64 * p + v.ctz.toNat) := by
  have hset := BitVec.getLsbD_true_ctz_of_ne_zero hv
  rw [hbits, Bool.and_eq_true, decide_eq_true_eq] at hset
  obtain ⟨⟨hj, hlt⟩, hword⟩ := hset
  refine ⟨by omega, fun i hle hi => ?_, fun _ => ⟨by omega, ?_⟩⟩
  · have hmask : j ≤ i - 64 * p ∧ i - 64 * p < n := by omega
    have hbit := hbits (i - 64 * p)
    rw [BitVec.getLsbD_false_of_lt_ctz (show i - 64 * p < v.ctz.toNat by omega),
      decide_eq_true hmask, Bool.true_and] at hbit
    have hat := bitsOf_add w p (show i - 64 * p < 64 by omega)
    rw [show 64 * p + (i - 64 * p) = i by omega] at hat
    rw [hat, ← hbit]
  · rw [bitsOf_add w p (show v.ctz.toNat < 64 by omega)]
    exact hword

end Word

end Femu.Lib

import Femu.Lib.Fields
import Mathlib.Algebra.BigOperators.Group.List.Basic
import Mathlib.Data.Set.Function
import Mathlib.Order.Interval.Set.Defs

/-!
# Femu.Lib.Radix

Numbers in a mixed radix: a list of digits, the most significant first, each below its
own base.

* `number bs ds` — the number with the digits;
* `digits bs n` — the digits of a number;
* `number_bijOn` — the lists of digits number the naturals below the product of the bases,
  each once.
-/

namespace Femu.Lib

/-- The number with the digits `ds` in the bases `bs`. -/
def number : List Nat → List Nat → Nat
  | _ :: bs, d :: ds => d * bs.prod + number bs ds
  | _, _ => 0

/-- The digits of a number in the bases `bs`. -/
def digits : List Nat → Nat → List Nat
  | [], _ => []
  | _ :: bs, n => n / bs.prod :: digits bs (n % bs.prod)

/-- A digit for each base, and below it. -/
def Digits (bs ds : List Nat) : Prop := List.Forall₂ (· < ·) ds bs

/-- With numbers below it, a product has no base that is zero. -/
theorem prod_pos_of_lt {b n : Nat} {bs : List Nat} (h : n < (b :: bs).prod) : 0 < bs.prod := by
  rw [List.prod_cons] at h
  exact Nat.pos_of_mul_pos_left (Nat.lt_of_le_of_lt (Nat.zero_le n) h)

theorem number_lt {bs ds : List Nat} (h : Digits bs ds) : number bs ds < bs.prod := by
  induction h with
  | nil => simp [number]
  | @cons d b ds bs hd _ ih =>
      have hmul : (d + 1) * bs.prod ≤ b * bs.prod := Nat.mul_le_mul_right bs.prod hd
      rw [Nat.succ_mul] at hmul
      rw [number, List.prod_cons]
      omega

theorem digits_number {bs ds : List Nat} (h : Digits bs ds) : digits bs (number bs ds) = ds := by
  induction h with
  | nil => rfl
  | @cons d b ds bs hd hds ih =>
      have hlt := number_lt hds
      rw [number, digits, mul_add_div_of_lt d hlt, Nat.mul_add_mod_of_lt hlt, ih]

theorem digits_digits {bs : List Nat} {n : Nat} (h : n < bs.prod) : Digits bs (digits bs n) := by
  induction bs generalizing n with
  | nil => exact List.Forall₂.nil
  | cons b bs ih =>
      have hpos := prod_pos_of_lt h
      rw [List.prod_cons] at h
      exact List.Forall₂.cons ((Nat.div_lt_iff_lt_mul hpos).mpr h) (ih (Nat.mod_lt n hpos))

theorem number_digits {bs : List Nat} {n : Nat} (h : n < bs.prod) : number bs (digits bs n) = n := by
  induction bs generalizing n with
  | nil =>
      rw [List.prod_nil] at h
      simp [number]
      omega
  | cons b bs ih =>
      have hpos := prod_pos_of_lt h
      rw [digits, number, ih (Nat.mod_lt n hpos), Nat.div_add_mod']

/-- Every number below the product of the bases has exactly one list of digits. -/
theorem number_bijOn (bs : List Nat) :
    Set.BijOn (number bs) {ds | Digits bs ds} (Set.Iio bs.prod) :=
  Set.InvOn.bijOn ⟨fun _ hds => digits_number hds, fun _ hn => number_digits hn⟩
    (fun _ hds => number_lt hds) fun _ hn => digits_digits hn

end Femu.Lib

import Mathlib.Algebra.BigOperators.Group.Finset.Basic
import Mathlib.Algebra.BigOperators.Group.Finset.Sigma
import Mathlib.Algebra.Order.BigOperators.Group.Finset
import Mathlib.Algebra.BigOperators.Ring.Finset
import Mathlib.Data.Finset.Card
import Mathlib.Tactic.Ring

/-!
# Femu.Lib.Count

Counting the indices below a bound at which a table holds a value, and how the
count moves when one entry of the table changes.
-/

namespace Femu.Lib

variable {α β : Type} [DecidableEq β]

/-- Two sums that differ at one index differ by the two terms at that index. -/
theorem sum_eq_off {S : Finset α} [DecidableEq α] {f g : α → Nat} {a : α} (ha : a ∈ S)
    (h : ∀ x ∈ S, x ≠ a → f x = g x) :
    (∑ x ∈ S, f x) + g a = (∑ x ∈ S, g x) + f a := by
  have h1 := Finset.add_sum_erase S f ha
  have h2 := Finset.add_sum_erase S g ha
  have h3 : ∑ x ∈ S.erase a, f x = ∑ x ∈ S.erase a, g x :=
    Finset.sum_congr rfl fun x hx => h x (Finset.mem_of_mem_erase hx) (Finset.ne_of_mem_erase hx)
  omega

/-- The number of `i < n` with `f i = b`. -/
def countBelow (f : Nat → β) (b : β) (n : Nat) : Nat :=
  ((Finset.range n).filter fun i => f i = b).card

theorem countBelow_succ (f : Nat → β) (b : β) (n : Nat) :
    countBelow f b (n + 1) = countBelow f b n + if f n = b then 1 else 0 := by
  unfold countBelow
  rw [Finset.card_filter, Finset.card_filter, Finset.sum_range_succ]

theorem countBelow_mono (f : Nat → β) (b : β) {m n : Nat} (h : m ≤ n) :
    countBelow f b m ≤ countBelow f b n :=
  Finset.card_le_card (Finset.filter_subset_filter _ (Finset.range_mono h))

theorem countBelow_pos {f : Nat → β} {b : β} {n i : Nat} (hi : i < n) (h : f i = b) :
    0 < countBelow f b n :=
  Finset.card_pos.mpr ⟨i, Finset.mem_filter.mpr ⟨Finset.mem_range.mpr hi, h⟩⟩

theorem countBelow_eq_zero (f : Nat → β) (b : β) (n : Nat) (h : ∀ i < n, f i ≠ b) :
    countBelow f b n = 0 := by
  unfold countBelow
  rw [Finset.card_eq_zero, Finset.filter_eq_empty_iff]
  intro i hi
  exact h i (Finset.mem_range.mp hi)

/-- Only where the value is taken matters. -/
theorem countBelow_congr_iff {f g : Nat → β} {b : β} {n : Nat} (h : ∀ i < n, f i = b ↔ g i = b) :
    countBelow f b n = countBelow g b n := by
  unfold countBelow
  congr 1
  exact Finset.filter_congr fun i hi => h i (Finset.mem_range.mp hi)

/-- Changing one entry moves the count by that entry alone. -/
theorem countBelow_update (f : Nat → β) (b v : β) {n i : Nat} (hi : i < n) :
    countBelow (Function.update f i v) b n + (if f i = b then 1 else 0) =
      countBelow f b n + (if v = b then 1 else 0) := by
  unfold countBelow
  simp only [Finset.card_filter]
  have h := sum_eq_off (f := fun k => if Function.update f i v k = b then 1 else 0)
    (g := fun k => if f k = b then 1 else 0) (Finset.mem_range.mpr hi) fun k _ hk => by
      rw [Function.update_of_ne hk]
  simpa using h

end Femu.Lib

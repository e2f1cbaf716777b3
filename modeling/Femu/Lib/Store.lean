import Mathlib.Data.Fintype.Card
import Mathlib.Data.List.Basic
import Mathlib.Tactic.Common

/-!
# Femu.Lib.Store

Linear stores: a function from addresses to values, read and written a range at a
time.

* `slice m off len` — the values of the range;
* `overwrite m off xs` — the store with `xs` put at `off`;
* `overwriteList m ws` — the store after a list of such writes;
* `Apart a k b l` — the two ranges share no address.

Ranges compose (`slice_append`, `overwrite_append`), a range reads back what was
last written to it (`slice_overwrite`), and a write leaves the other ranges alone
(`slice_overwrite_apart`).
-/

namespace Femu.Lib

variable {α : Type}

/-! ## ranges -/

/-- The `len` values from `off` on. -/
def slice (m : Nat → α) (off len : Nat) : List α :=
  (List.range len).map fun i => m (off + i)

/-- The store with the list put at `off`. -/
def overwrite (m : Nat → α) (off : Nat) (xs : List α) : Nat → α := fun a =>
  if off ≤ a then (xs[a - off]?).getD (m a) else m a

/-- The ranges of length `k` at `a` and of length `l` at `b` share no address. -/
def Apart (a k b l : Nat) : Prop := k = 0 ∨ l = 0 ∨ a + k ≤ b ∨ b + l ≤ a

instance (a k b l : Nat) : Decidable (Apart a k b l) := inferInstanceAs (Decidable (_ ∨ _))

theorem Apart.symm {a k b l : Nat} (h : Apart a k b l) : Apart b l a k := by
  obtain h | h | h | h := h
  · exact .inr (.inl h)
  · exact .inl h
  · exact .inr (.inr (.inr h))
  · exact .inr (.inr (.inl h))

/-! ## slices -/

@[simp] theorem length_slice (m : Nat → α) (off len : Nat) : (slice m off len).length = len := by
  simp [slice]

@[simp] theorem slice_zero (m : Nat → α) (off : Nat) : slice m off 0 = [] := rfl

theorem getElem?_slice (m : Nat → α) (off : Nat) {len i : Nat} (h : i < len) :
    (slice m off len)[i]? = some (m (off + i)) := by
  simp [slice, h]

theorem slice_append (m : Nat → α) (off k l : Nat) :
    slice m off (k + l) = slice m off k ++ slice m (off + k) l := by
  simp [slice, List.range_add, Nat.add_assoc]

/-- Stores that agree on a range have the same slice there. -/
theorem slice_congr {m m' : Nat → α} {off len : Nat}
    (h : ∀ a, off ≤ a → a < off + len → m a = m' a) : slice m off len = slice m' off len := by
  refine List.map_congr_left fun i hi => h (off + i) (Nat.le_add_right off i) ?_
  have := List.mem_range.mp hi
  omega

/-- A value of a store, read from a slice. -/
theorem eq_of_slice_eq {m m' : Nat → α} {off len : Nat} (h : slice m off len = slice m' off len)
    {a : Nat} (hlo : off ≤ a) (hhi : a < off + len) : m a = m' a := by
  have hi : a - off < len := by omega
  have hm := getElem?_slice m off hi
  have hm' := getElem?_slice m' off hi
  rw [h, hm', Option.some.injEq] at hm
  rw [show a = off + (a - off) by omega]
  exact hm.symm

/-! ## writes -/

@[simp] theorem overwrite_nil (m : Nat → α) (off : Nat) : overwrite m off [] = m := by
  funext a
  simp [overwrite]

theorem overwrite_of_lt {m : Nat → α} {off a : Nat} {xs : List α} (h : a < off) :
    overwrite m off xs a = m a := by
  simp [overwrite, Nat.not_le.mpr h]

theorem overwrite_of_ge {m : Nat → α} {off a : Nat} {xs : List α} (h : off + xs.length ≤ a) :
    overwrite m off xs a = m a := by
  have : xs.length ≤ a - off := by omega
  simp [overwrite, List.getElem?_eq_none this]

theorem overwrite_add {m : Nat → α} {off i : Nat} {xs : List α} (h : i < xs.length) :
    overwrite m off xs (off + i) = xs[i] := by
  simp [overwrite, h]

theorem overwrite_append (m : Nat → α) (off : Nat) (xs ys : List α) :
    overwrite m off (xs ++ ys) = overwrite (overwrite m off xs) (off + xs.length) ys := by
  funext a
  by_cases hlo : a < off
  · rw [overwrite_of_lt hlo, overwrite_of_lt (by omega), overwrite_of_lt hlo]
  · obtain ⟨i, rfl⟩ : ∃ i, a = off + i := ⟨a - off, by omega⟩
    by_cases hi : i < xs.length
    · rw [overwrite_add (by simp; omega), overwrite_of_lt (by omega), overwrite_add hi,
        List.getElem_append_left hi]
    · obtain ⟨j, rfl⟩ : ∃ j, i = xs.length + j := ⟨i - xs.length, by omega⟩
      by_cases hj : j < ys.length
      · rw [overwrite_add (by simp; omega), ← Nat.add_assoc, overwrite_add hj]
        simp
      · rw [overwrite_of_ge (by simp; omega), overwrite_of_ge (by omega),
          overwrite_of_ge (by omega)]

/-- A range reads back what was written to it. -/
theorem slice_overwrite (m : Nat → α) (off : Nat) (xs : List α) :
    slice (overwrite m off xs) off xs.length = xs := by
  refine List.ext_getElem (by simp) fun i h₁ h₂ => ?_
  have hi := getElem?_slice (overwrite m off xs) off h₂
  rw [overwrite_add h₂, List.getElem?_eq_getElem h₁, Option.some.injEq] at hi
  exact hi

/-- A write leaves the ranges apart from it alone. -/
theorem slice_overwrite_apart {m : Nat → α} {off off' len : Nat} {xs : List α}
    (h : Apart off xs.length off' len) : slice (overwrite m off xs) off' len = slice m off' len := by
  refine slice_congr fun a hlo hhi => ?_
  by_cases ha : a < off
  · exact overwrite_of_lt ha
  · refine overwrite_of_ge ?_
    obtain h | h | h | h := h <;> omega

/-- Ranges of one length that share no address take as much room as they are long. -/
theorem card_mul_le_of_apart {ι : Type} [Fintype ι] {off : ι → Nat} {len total : Nat}
    (hlen : 0 < len) (hin : ∀ i, off i + len ≤ total)
    (hapart : ∀ i j, i ≠ j → Apart (off i) len (off j) len) : Fintype.card ι * len ≤ total := by
  have hlt : ∀ i, off i / len < total / len := by
    intro i
    have hdiv := Nat.div_le_div_right (c := len) (hin i)
    rw [Nat.add_div_right _ hlen] at hdiv
    exact hdiv
  -- two ranges that begin in the same multiple of the length overlap
  have hinj : Function.Injective fun i => (⟨off i / len, hlt i⟩ : Fin (total / len)) := by
    intro i j heq
    by_contra hne
    have hdiv : off i / len = off j / len := congrArg Fin.val heq
    have hi := Nat.div_add_mod (off i) len
    have hj := Nat.div_add_mod (off j) len
    have hmi := Nat.mod_lt (off i) hlen
    have hmj := Nat.mod_lt (off j) hlen
    rw [hdiv] at hi
    obtain h | h | h | h := hapart i j hne <;> omega
  have hcard := Fintype.card_le_of_injective _ hinj
  rw [Fintype.card_fin] at hcard
  calc
    Fintype.card ι * len ≤ total / len * len := Nat.mul_le_mul_right len hcard
    _ ≤ total := Nat.div_mul_le_self total len

/-- Overwriting a range with what it holds changes nothing. -/
theorem overwrite_slice (m : Nat → α) (off len : Nat) : overwrite m off (slice m off len) = m := by
  funext a
  by_cases hlo : a < off
  · exact overwrite_of_lt hlo
  · by_cases hhi : a < off + len
    · obtain ⟨i, rfl⟩ : ∃ i, a = off + i := ⟨a - off, by omega⟩
      rw [overwrite_add (by simp; omega)]
      simp [slice]
    · exact overwrite_of_ge (by simp; omega)

/-! ## a list of writes -/

/-- The store after the writes, first to last, each of a list of values at its address. -/
def overwriteList (m : Nat → α) : List (Nat × List α) → Nat → α
  | [] => m
  | w :: ws => overwriteList (overwrite m w.1 w.2) ws

theorem overwriteList_append (m : Nat → α) (ws vs : List (Nat × List α)) :
    overwriteList m (ws ++ vs) = overwriteList (overwriteList m ws) vs := by
  induction ws generalizing m with
  | nil => rfl
  | cons w ws ih => exact ih (overwrite m w.1 w.2)

theorem slice_overwriteList_apart {m : Nat → α} {ws : List (Nat × List α)} {off len : Nat}
    (h : ∀ w ∈ ws, Apart w.1 w.2.length off len) :
    slice (overwriteList m ws) off len = slice m off len := by
  induction ws generalizing m with
  | nil => rfl
  | cons w ws ih =>
      obtain ⟨hw, hws⟩ := List.forall_mem_cons.mp h
      rw [overwriteList, ih hws, slice_overwrite_apart hw]

/-- What is written to ranges that share no address stays there. -/
theorem slice_overwriteList {m : Nat → α} {ws : List (Nat × List α)}
    (h : ws.Pairwise fun w v => Apart w.1 w.2.length v.1 v.2.length) :
    ∀ w ∈ ws, slice (overwriteList m ws) w.1 w.2.length = w.2 := by
  induction ws generalizing m with
  | nil => simp
  | cons w ws ih =>
      obtain ⟨hw, hws⟩ := List.pairwise_cons.mp h
      refine List.forall_mem_cons.mpr ⟨?_, ih hws⟩
      rw [overwriteList, slice_overwriteList_apart fun v hv => (hw v hv).symm, slice_overwrite]

/-- What the writes leave at an address: a property of every value written there holds of
it, if the old value has it or the address is written at all. -/
theorem overwriteList_induction {P : α → Prop} {m : Nat → α} {ws : List (Nat × List α)} {a : Nat}
    (hm : P (m a) ∨ ∃ w ∈ ws, w.1 ≤ a ∧ a < w.1 + w.2.length)
    (hw : ∀ w ∈ ws, ∀ i x, w.2[i]? = some x → w.1 + i = a → P x) : P (overwriteList m ws a) := by
  induction ws generalizing m with
  | nil =>
      obtain hm | ⟨w, hmem, -⟩ := hm
      · exact hm
      · exact absurd hmem List.not_mem_nil
  | cons w ws ih =>
      refine ih ?_ fun v hv => hw v (List.mem_cons_of_mem w hv)
      by_cases hin : w.1 ≤ a ∧ a < w.1 + w.2.length
      · -- the write puts a value with the property there
        obtain ⟨i, rfl⟩ : ∃ i, a = w.1 + i := ⟨a - w.1, by omega⟩
        have hi : i < w.2.length := by omega
        rw [overwrite_add hi]
        exact .inl (hw w List.mem_cons_self i _ (List.getElem?_eq_getElem hi) rfl)
      · have hkeep : overwrite m w.1 w.2 a = m a := by
          by_cases hlo : a < w.1
          · exact overwrite_of_lt hlo
          · exact overwrite_of_ge (by omega)
        rw [hkeep]
        obtain hm | ⟨v, hmem, hv⟩ := hm
        · exact .inl hm
        · obtain rfl | hmem := List.mem_cons.mp hmem
          · exact absurd hv hin
          · exact .inr ⟨v, hmem, hv⟩

end Femu.Lib

import Femu.Lib.Store
import Femu.Lib.Transition

/-!
# Femu.Lib.Disk

What a disk is for: a store of which ranges are read and overwritten. A read gives, for
each of its addresses, what the last write to that address put there, or what
the store held at first (`run_read_last`). A range of the store may hold a log
(`HoldsLog`), which is extended where it ends.
-/

namespace Femu.Lib

variable {α : Type}

/-- What a user of a disk sees: the values that it writes to a range or reads from it. -/
inductive DiskOp (α : Type)
  | write (off : Nat) (xs : List α)
  | read (off : Nat) (xs : List α)

namespace DiskOp

/-- One operation. -/
def Step (m : Nat → α) : DiskOp α → (Nat → α) → Prop
  | .write off xs, m' => m' = overwrite m off xs
  | .read off xs, m' => m' = m ∧ xs = slice m off xs.length

/-- What an operation writes to an address. -/
def written (a : Nat) : DiskOp α → Option α
  | .write off xs => if off ≤ a then xs[a - off]? else none
  | .read _ _ => none

/-- What the last of the operations that write to an address puts there. -/
def lastWritten (a : Nat) : List (DiskOp α) → Option α
  | [] => none
  | op :: ops => (lastWritten a ops).or (op.written a)

/-- A step changes an address to what it writes there. -/
theorem Step.apply {m m' : Nat → α} {op : DiskOp α} (h : op.Step m m') (a : Nat) :
    m' a = (op.written a).getD (m a) := by
  cases op with
  | write off xs =>
      have hm : m' = overwrite m off xs := h
      rw [hm, overwrite, written]
      split <;> rfl
  | read off xs => rw [h.1]; rfl

/-- **The last write wins**. -/
theorem run_apply {m m' : Nat → α} {ops : List (DiskOp α)}
    (h : Run (fun m op m' => op.Step m m') m ops m') (a : Nat) :
    m' a = (lastWritten a ops).getD (m a) := by
  induction h with
  | nil => rfl
  | @cons m u m' op ops head tail ih =>
      rw [ih, head.apply a, lastWritten]
      cases lastWritten a ops with
      | none => rfl
      | some x => rfl

theorem lastWritten_append (a : Nat) (ops ops' : List (DiskOp α)) :
    lastWritten a (ops ++ ops') = (lastWritten a ops').or (lastWritten a ops) := by
  induction ops with
  | nil => exact (Option.or_none).symm
  | cons op ops ih => rw [List.cons_append, lastWritten, lastWritten, ih, Option.or_assoc]

/-- A write of one value. -/
theorem lastWritten_write (a b : Nat) (x : α) (ops : List (DiskOp α)) :
    lastWritten a (ops ++ [.write b [x]]) = if a = b then some x else lastWritten a ops := by
  rw [lastWritten_append]
  by_cases hab : a = b
  · rw [if_pos hab, hab]
    simp [lastWritten, written]
  · have hsub : b ≤ a → [x][a - b]? = none := fun hle =>
      List.getElem?_eq_none (by rw [List.length_singleton]; omega)
    rw [if_neg hab]
    simp only [lastWritten, written, Option.none_or]
    split
    · next hle => rw [hsub hle, Option.none_or]
    · rw [Option.none_or]

/-- **A read after a run** gives what the last write left at each address. -/
theorem run_read_last {m m' : Nat → α} {ops : List (DiskOp α)} {off : Nat} {xs : List α}
    (h : Run (fun m op m' => op.Step m m') m (ops ++ [.read off xs]) m') {i : Nat} {x : α}
    (hx : xs[i]? = some x) : x = (lastWritten (off + i) ops).getD (m (off + i)) := by
  obtain ⟨u, hops, hread⟩ := h.of_append
  cases hread with
  | cons head tail =>
      obtain ⟨hi, -⟩ := List.getElem?_eq_some_iff.mp hx
      have hslice := getElem?_slice u off hi
      rw [← head.2, hx] at hslice
      rw [← run_apply hops]
      exact Option.some.inj hslice

end DiskOp

/-! ## logs -/

/-- The store holds the log from `off` on. -/
def HoldsLog (m : Nat → α) (off : Nat) (log : List α) : Prop := slice m off log.length = log

namespace HoldsLog

variable {m : Nat → α} {off : Nat} {log : List α}

theorem nil (m : Nat → α) (off : Nat) : HoldsLog m off [] := rfl

/-- A write to the end of the log extends it. -/
theorem append (h : HoldsLog m off log) (xs : List α) :
    HoldsLog (overwrite m (off + log.length) xs) off (log ++ xs) := by
  have hkeep : slice (overwrite m (off + log.length) xs) off log.length = slice m off log.length :=
    slice_overwrite_apart (.inr (.inr (.inr (Nat.le_refl _))))
  rw [HoldsLog, List.length_append, slice_append, hkeep, slice_overwrite, h]

/-- A write apart from the log leaves it alone. -/
theorem apart (h : HoldsLog m off log) {off' : Nat} {xs : List α}
    (hapart : Apart off' xs.length off log.length) : HoldsLog (overwrite m off' xs) off log := by
  rw [HoldsLog, slice_overwrite_apart hapart, h]

/-- A range inside the log reads as that part of it. -/
theorem read (h : HoldsLog m off log) {k len : Nat} (hle : k + len ≤ log.length) :
    slice m (off + k) len = (log.drop k).take len := by
  obtain ⟨rest, hrest⟩ := Nat.exists_eq_add_of_le hle
  have hlog : log = slice m off k ++ (slice m (off + k) len ++ slice m (off + (k + len)) rest) := by
    rw [← Nat.add_assoc, ← slice_append, ← slice_append, ← Nat.add_assoc, ← hrest, h]
  rw [hlog, List.drop_left' (length_slice m off k), List.take_left' (length_slice m (off + k) len)]

end HoldsLog

end Femu.Lib

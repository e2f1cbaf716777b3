import Mathlib.Data.Multiset.AddSub
import Mathlib.Order.Basic
import Femu.Lib.Transition

/-!
# Femu.Lib.PriorityQueue

What a priority queue is for: entries with their priorities, of which the next one to be
taken is one of the lowest priority. Taking entries out one after the other sorts them
(`run_pops`).
-/

namespace Femu.Lib

variable {ν : Type}

/-- A call on the queue, with what it returns. -/
inductive PriorityOp (ν : Type)
  | insert (x : ν) (pri : Nat)
  | change (x : ν) (pri : Nat)
  | remove (x : ν)
  | peek (r : Option ν)
  | pop (r : Option ν)

/-- No entry has a lower priority. -/
def ComesFirst (entries : Multiset (ν × Nat)) (e : ν × Nat) : Prop :=
  e ∈ entries ∧ ∀ f ∈ entries, e.2 ≤ f.2

namespace PriorityOp

/-- What a call does to the entries. -/
def Step (entries : Multiset (ν × Nat)) : PriorityOp ν → Multiset (ν × Nat) → Prop
  | .insert x pri, entries' => entries' = (x, pri) ::ₘ entries
  | .change x pri, entries' =>
      ∃ old rest, entries = (x, old) ::ₘ rest ∧ entries' = (x, pri) ::ₘ rest
  | .remove x, entries' => ∃ pri, entries = (x, pri) ::ₘ entries'
  | .peek none, entries' => entries = 0 ∧ entries' = 0
  | .peek (some x), entries' => entries' = entries ∧ ∃ pri, ComesFirst entries (x, pri)
  | .pop none, entries' => entries = 0 ∧ entries' = 0
  | .pop (some x), entries' => ∃ pri, ComesFirst entries (x, pri) ∧ entries = (x, pri) ::ₘ entries'

/-- **Sorting**: the entries that are popped one after the other come in the order of their
priorities, and before the ones that stay. -/
theorem run_pops {entries entries' : Multiset (ν × Nat)} {xs : List ν}
    (h : Run Step entries (xs.map fun x => .pop (some x)) entries') :
    ∃ es : List (ν × Nat), es.map Prod.fst = xs ∧ entries = es + entries' ∧
      es.Pairwise (fun e f => e.2 ≤ f.2) ∧ ∀ e ∈ es, ∀ f ∈ entries', e.2 ≤ f.2 := by
  induction xs generalizing entries with
  | nil =>
      cases h
      exact ⟨[], rfl, by simp, .nil, fun e he => absurd he List.not_mem_nil⟩
  | cons x xs ih =>
      cases h with
      | @cons _ rest _ _ _ head tail =>
          obtain ⟨es, rfl, rfl, hsorted, hbefore⟩ := ih tail
          obtain ⟨pri, ⟨-, hfirst⟩, rfl⟩ := head
          refine ⟨(x, pri) :: es, rfl, ?_, List.pairwise_cons.mpr ⟨fun e he => ?_, hsorted⟩,
            fun e he f hf => ?_⟩
          · rw [← Multiset.cons_coe, Multiset.cons_add]
          · exact hfirst e (by simp [he])
          · obtain rfl | he := List.mem_cons.mp he
            · exact hfirst f (by simp [hf])
            · exact hbefore e he f hf

end PriorityOp

end Femu.Lib

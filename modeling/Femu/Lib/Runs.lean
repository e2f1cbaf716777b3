import Mathlib.Data.List.SplitBy

/-!
# Femu.Lib.Runs

The maximal runs of a list: what holds between neighbours of one run, and when two
ways to cut a list agree.
-/

namespace Femu.Lib

variable {α : Type} {r r' : α → α → Bool} {l : List α}

/-- The members of a run are members of the list. -/
theorem mem_of_mem_run {run : List α} {a : α} (hrun : run ∈ l.splitBy r) (ha : a ∈ run) :
    a ∈ l := by
  rw [← List.flatten_splitBy r l]
  exact List.mem_flatten.mpr ⟨run, hrun, ha⟩

/-- Every member of the list lies in a run. -/
theorem exists_run {a : α} (ha : a ∈ l) : ∃ run ∈ l.splitBy r, a ∈ run := by
  rw [← List.flatten_splitBy r l] at ha
  exact List.mem_flatten.mp ha

/-- A hypothesis that holds of all neighbours may be dropped. -/
theorem isChain_imp_iff {S : α → α → Prop} (hr : l.IsChain fun a b => r a b = true) :
    l.IsChain (fun a b => r a b = true → S a b) ↔ l.IsChain S := by
  constructor
  case mp =>
    intro h
    induction h with
    | nil => exact .nil
    | singleton a => exact .singleton a
    | cons_cons hab _ ih =>
        obtain ⟨hrab, hr⟩ := List.isChain_cons_cons.mp hr
        exact .cons_cons (hab hrab) (ih hr)
  case mpr => exact fun h => h.imp fun a b hS _ => hS

/-- Neighbours that belong to one run are related if and only if each run is a
chain. -/
theorem isChain_iff_runs {S : α → α → Prop} :
    l.IsChain (fun a b => r a b = true → S a b) ↔ ∀ run ∈ l.splitBy r, run.IsChain S := by
  have hflat := List.isChain_flatten (R := fun a b => r a b = true → S a b)
    (List.nil_notMem_splitBy r l)
  rw [List.flatten_splitBy] at hflat
  rw [hflat]
  constructor
  case mp =>
    intro h run hrun
    exact (isChain_imp_iff (List.isChain_of_mem_splitBy hrun)).mp (h.1 run hrun)
  case mpr =>
    intro h
    refine ⟨fun run hrun => (isChain_imp_iff (List.isChain_of_mem_splitBy hrun)).mpr (h run hrun),
      ?_⟩
    refine (List.isChain_getLast_head_splitBy r l).imp fun a b hab x hx y hy hr => ?_
    obtain ⟨ha, hb, hfalse⟩ := hab
    rw [List.getLast?_eq_some_getLast ha, Option.mem_some] at hx
    rw [List.head?_eq_some_head hb, Option.mem_some] at hy
    rw [hx, hy, hr] at hfalse
    cases hfalse

/-- Two relations that agree on a list cut it in the same way. -/
theorem splitBy_congr (h : ∀ a ∈ l, ∀ b ∈ l, r a b = r' a b) : l.splitBy r = l.splitBy r' := by
  have hmem : ∀ run ∈ l.splitBy r', ∀ a ∈ run, a ∈ l := fun run hrun a ha =>
    mem_of_mem_run hrun ha
  refine List.splitBy_eq_iff.mpr ⟨(List.flatten_splitBy r' l).symm, List.nil_notMem_splitBy r' l,
    fun run hrun => ?_, ?_⟩
  · refine (List.isChain_of_mem_splitBy hrun).imp_of_mem_imp fun a b ha hb hab => ?_
    rwa [h a (hmem run hrun a ha) b (hmem run hrun b hb)]
  · refine (List.isChain_getLast_head_splitBy r' l).imp_of_mem_imp fun a b ha hb hab => ?_
    obtain ⟨hna, hnb, hfalse⟩ := hab
    refine ⟨hna, hnb, ?_⟩
    rw [h _ (hmem a ha _ (List.getLast_mem hna)) _ (hmem b hb _ (List.head_mem hnb))]
    exact hfalse

end Femu.Lib

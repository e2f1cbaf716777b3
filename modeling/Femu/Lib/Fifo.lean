import Mathlib.Algebra.BigOperators.Group.List.Basic
import Mathlib.Algebra.Order.Monoid.Defs
import Mathlib.Algebra.Order.Monoid.Unbundled.MinMax
import Mathlib.Order.Bounds.Basic
import Mathlib.Tactic.GCongr

/-!
# Femu.Lib.Fifo

One server that takes jobs in the order of the list and never idles while a job
waits. Times are any ordered commutative monoid.

`drain_isGreatest` is the closed form of the time at which the last job is done:
the greatest load among the suffixes of the list, a suffix counting from the
arrival of its first job.
-/

namespace Femu.Lib.Fifo

variable {T : Type}

/-- A job: when it arrives, and how long it takes. -/
structure Job (T : Type) where
  arrival : T
  service : T
deriving DecidableEq

/-- A job with the times at which its service starts and ends. -/
structure Turn (T : Type) extends Job T where
  start : T
  finish : T
deriving DecidableEq

theorem isGreatest_insert_max {α : Type} [LinearOrder α] {x y m : α} {s : Set α}
    (h : IsGreatest (insert (max x y) s) m) : IsGreatest (insert x (insert y s)) m := by
  have hmax : max x y ≤ m := h.2 (Set.mem_insert _ _)
  constructor
  case left =>
    cases h.1 with
    | inl heq =>
      cases max_choice x y with
      | inl hx => exact Or.inl (heq.trans hx)
      | inr hy => exact Or.inr (Or.inl (heq.trans hy))
    | inr hs => exact Or.inr (Or.inr hs)
  case right =>
    intro z hz
    obtain rfl | rfl | hs := hz
    · exact (le_max_left _ _).trans hmax
    · exact (le_max_right _ _).trans hmax
    · exact h.2 (Or.inr hs)

/-! ## work and loads -/

section Loads

variable [AddCommMonoid T]

/-- The service that a list of jobs takes. -/
def work (jobs : List (Job T)) : T := (jobs.map (·.service)).sum

/-- The loads of the suffixes of a list of jobs. -/
def loads (jobs : List (Job T)) : Set T :=
  {x | ∃ j js, j :: js <:+ jobs ∧ x = j.arrival + work (j :: js)}

@[simp] theorem work_nil : work ([] : List (Job T)) = 0 := by simp [work]

@[simp] theorem work_cons (j : Job T) (js : List (Job T)) :
    work (j :: js) = j.service + work js := by simp [work]

@[simp] theorem loads_nil : loads ([] : List (Job T)) = ∅ := by simp [loads]

theorem loads_cons (j : Job T) (js : List (Job T)) :
    loads (j :: js) = insert (j.arrival + work (j :: js)) (loads js) := by
  ext x
  simp only [loads, List.suffix_cons_iff, Set.mem_insert_iff, Set.mem_ofPred_eq]
  constructor
  case mp =>
    intro h
    obtain ⟨i, is, heq | hsuf, hx⟩ := h
    · rw [heq] at hx
      obtain ⟨hi, -⟩ := List.cons.inj heq
      exact Or.inl (by rw [hx, hi])
    · exact Or.inr ⟨i, is, hsuf, hx⟩
  case mpr =>
    intro h
    cases h with
    | inl hx => exact ⟨j, js, Or.inl rfl, hx⟩
    | inr hrest =>
      obtain ⟨i, is, hsuf, hx⟩ := hrest
      exact ⟨i, is, Or.inr hsuf, hx⟩

end Loads

/-! ## schedules -/

variable [AddCommMonoid T] [LinearOrder T]

/-- The server is free from `avail` on. -/
def serve (avail : T) (j : Job T) : Turn T :=
  { j with start := max avail j.arrival, finish := max avail j.arrival + j.service }

def schedule (avail : T) : List (Job T) → List (Turn T)
  | [] => []
  | j :: js => serve avail j :: schedule (serve avail j).finish js

/-- When the last of the jobs is done. -/
def drain (avail : T) : List (Job T) → T
  | [] => avail
  | j :: js => drain (serve avail j).finish js

/-- A turn starts after its arrival and takes its service. -/
theorem turn_of_mem_schedule {avail : T} {js : List (Job T)} {t : Turn T}
    (h : t ∈ schedule avail js) : t.arrival ≤ t.start ∧ t.start + t.service = t.finish := by
  induction js generalizing avail with
  | nil => simp [schedule] at h
  | cons j js ih =>
    simp only [schedule, List.mem_cons] at h
    cases h with
    | inl heq => simp [heq, serve]
    | inr hmem => exact ih hmem

/-- A turn of a schedule ends when the jobs up to it are drained. -/
theorem finish_eq_drain {avail : T} {js : List (Job T)} {pre post : List (Turn T)} {t : Turn T}
    (h : schedule avail js = pre ++ t :: post) :
    t.finish = drain avail ((pre ++ [t]).map (·.toJob)) := by
  induction pre generalizing avail js with
  | nil =>
    cases js with
    | nil => simp [schedule] at h
    | cons j js =>
      obtain ⟨rfl, -⟩ := List.cons.inj h
      simp [drain, serve]
  | cons u pre ih =>
    cases js with
    | nil => simp [schedule] at h
    | cons j js =>
      obtain ⟨rfl, hrest⟩ := List.cons.inj h
      simp only [List.cons_append, List.map_cons, drain]
      exact ih hrest

/-! ## the closed form -/

variable [IsOrderedAddMonoid T]

/-- The server is done with the work it had at the start, or with the greatest load. -/
theorem drain_isGreatest_insert (avail : T) (jobs : List (Job T)) :
    IsGreatest (insert (avail + work jobs) (loads jobs)) (drain avail jobs) := by
  induction jobs generalizing avail with
  | nil => simp [drain]
  | cons j js ih =>
    have hmax : (serve avail j).finish + work js
        = max (avail + work (j :: js)) (j.arrival + work (j :: js)) := by
      simp only [serve, work_cons, ← add_assoc]
      rw [max_add_add_right, max_add_add_right]
    have hih := ih (serve avail j).finish
    rw [hmax] at hih
    rw [loads_cons]
    exact isGreatest_insert_max hih

/-- A server that is free before any job comes is done with the greatest load. -/
theorem drain_isGreatest {avail : T} {jobs : List (Job T)} (hne : jobs ≠ [])
    (h : ∀ j ∈ jobs, avail ≤ j.arrival) : IsGreatest (loads jobs) (drain avail jobs) := by
  obtain ⟨j, js, rfl⟩ := List.exists_cons_of_ne_nil hne
  have hj0 : avail ≤ j.arrival := h j List.mem_cons_self
  have hj : j.arrival + work (j :: js) ∈ loads (j :: js) := by
    rw [loads_cons]
    exact Set.mem_insert _ _
  have hle : avail + work (j :: js) ≤ j.arrival + work (j :: js) := by gcongr
  obtain ⟨hmem, hup⟩ := drain_isGreatest_insert avail (j :: js)
  constructor
  case left =>
    cases hmem with
    | inl heq =>
      have heq' : drain avail (j :: js) = j.arrival + work (j :: js) :=
        le_antisymm (heq.trans_le hle) (hup (Or.inr hj))
      rw [heq']
      exact hj
    | inr hmem => exact hmem
  case right =>
    intro x hx
    exact hup (Or.inr hx)

/-! ## one job at a time -/

theorem le_start_of_mem_schedule {avail : T} {jobs : List (Job T)}
    (hpos : ∀ j ∈ jobs, 0 ≤ j.service) {t : Turn T} (h : t ∈ schedule avail jobs) :
    avail ≤ t.start := by
  induction jobs generalizing avail with
  | nil => simp [schedule] at h
  | cons j js ih =>
    simp only [schedule, List.mem_cons] at h
    cases h with
    | inl heq =>
      rw [heq]
      exact le_max_left _ _
    | inr hmem =>
      calc avail ≤ max avail j.arrival := le_max_left _ _
        _ ≤ (serve avail j).finish := le_add_of_nonneg_right (hpos j List.mem_cons_self)
        _ ≤ t.start := ih (fun i hi => hpos i (List.mem_cons_of_mem _ hi)) hmem

/-- The turns of a schedule do not overlap and stand in its order. -/
theorem schedule_pairwise (avail : T) {jobs : List (Job T)} (hpos : ∀ j ∈ jobs, 0 ≤ j.service) :
    (schedule avail jobs).Pairwise fun t u => t.finish ≤ u.start := by
  induction jobs generalizing avail with
  | nil => simp [schedule]
  | cons j js ih =>
    have hpos' : ∀ i ∈ js, 0 ≤ i.service := fun i hi => hpos i (List.mem_cons_of_mem _ hi)
    rw [schedule, List.pairwise_cons]
    constructor
    case left =>
      intro u hu
      exact le_start_of_mem_schedule hpos' hu
    case right => exact ih _ hpos'

end Femu.Lib.Fifo

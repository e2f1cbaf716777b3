import Mathlib.Tactic.Common

/-!
# Femu.Lib.Transition

Runs of a system given by its steps, `step s c t` being a step from `s` to `t` with
the label `c`. Several actors that take turns are one system: the label says whose
step it is, and a run is any interleaving.
-/

namespace Femu.Lib

variable {σ γ : Type}

/-- A run from one state to another, with the labels of its steps. -/
inductive Run (step : σ → γ → σ → Prop) : σ → List γ → σ → Prop
  | nil (s : σ) : Run step s [] s
  | cons {s t u : σ} {c : γ} {cs : List γ} (head : step s c t) (tail : Run step t cs u) :
      Run step s (c :: cs) u

variable {step : σ → γ → σ → Prop} {s t u : σ} {c : γ} {cs ds : List γ}

/-- **Rule for runs**: what every step keeps holds after a run. -/
theorem Run.invariant {I : σ → Prop} (hstep : ∀ s c t, I s → step s c t → I t) (h0 : I s)
    (h : Run step s cs t) : I t := by
  induction h with
  | nil => exact h0
  | cons head tail ih => exact ih (hstep _ _ _ h0 head)

theorem Run.append (h₁ : Run step s cs t) (h₂ : Run step t ds u) : Run step s (cs ++ ds) u := by
  induction h₁ with
  | nil => exact h₂
  | cons head tail ih => exact .cons head (ih h₂)

/-- A run of two lists of labels passes through a state between them. -/
theorem Run.of_append (h : Run step s (cs ++ ds) u) : ∃ t, Run step s cs t ∧ Run step t ds u := by
  induction cs generalizing s with
  | nil => exact ⟨s, .nil s, h⟩
  | cons c cs ih =>
      cases h with
      | cons head tail =>
          obtain ⟨t, hcs, hds⟩ := ih tail
          exact ⟨t, .cons head hcs, hds⟩

/-- A run with one more step. -/
theorem Run.snoc (h : Run step s cs t) (hstep : step t c u) : Run step s (cs ++ [c]) u :=
  h.append (.cons hstep (.nil u))

/-- A run of a system with fewer steps. -/
theorem Run.mono {step' : σ → γ → σ → Prop} (hle : ∀ s c t, step s c t → step' s c t)
    (h : Run step s cs t) : Run step' s cs t := by
  induction h with
  | nil => exact .nil _
  | cons head tail ih => exact .cons (hle _ _ _ head) ih

/-- What every step says of its label. -/
theorem Run.labels {P : γ → Prop} (hstep : ∀ s c t, step s c t → P c) (h : Run step s cs t) :
    ∀ c ∈ cs, P c := by
  induction h with
  | nil => simp
  | cons head tail ih =>
      intro c hc
      rcases List.mem_cons.mp hc with rfl | hc
      · exact hstep _ _ _ head
      · exact ih c hc

/-! ## systems that compute their steps -/

/-- Take the steps of the labels one after the other, as long as they can be taken. -/
def exec (step? : σ → γ → Option σ) : List γ → σ → Option σ
  | [], s => some s
  | c :: cs, s => (step? s c).bind (exec step? cs)

theorem run_of_exec {step? : σ → γ → Option σ} (h : exec step? cs s = some t) :
    Run (fun s c t => step? s c = some t) s cs t := by
  induction cs generalizing s with
  | nil =>
      obtain rfl : s = t := Option.some.inj h
      exact .nil s
  | cons c cs ih =>
      obtain ⟨s', hs, hrest⟩ := Option.bind_eq_some_iff.mp h
      exact .cons hs (ih hrest)

/-- A system that computes its steps, each of them taken only where it is allowed. -/
def allowed (ok : σ → γ → Prop) [∀ s c, Decidable (ok s c)] (step? : σ → γ → Option σ) (s : σ)
    (c : γ) : Option σ :=
  if ok s c then step? s c else none

theorem of_allowed {ok : σ → γ → Prop} [∀ s c, Decidable (ok s c)]
    {step? : σ → γ → Option σ} (h : allowed ok step? s c = some t) :
    ok s c ∧ step? s c = some t := by
  unfold allowed at h
  split at h
  case isTrue hok => exact ⟨hok, h⟩
  case isFalse => cases h

theorem run_of_exec_allowed {ok : σ → γ → Prop} [∀ s c, Decidable (ok s c)]
    {step? : σ → γ → Option σ} (h : exec (allowed ok step?) cs s = some t) :
    Run (fun s c t => ok s c ∧ step? s c = some t) s cs t :=
  (run_of_exec h).mono fun _ _ _ => of_allowed

end Femu.Lib

import Mathlib.Tactic.Common

/-!
# Femu.Lib.Outcome

Programs that end with a value or with a fault, in the `Except` monad, and runs
of such programs over a list of commands.

`Safe A x P` says that `x` ends with a value that satisfies `P` or with one of
the faults in `A`. Its rules follow the structure of the program and are
equivalences: `simp` turns a statement about a program into the conditions at
its ends.
-/

namespace Femu.Lib

variable {φ α β σ γ : Type}

/-- `x` ends with a value that satisfies `P`, or with a fault in `A`. -/
def Safe (A : φ → Prop) (x : Except φ α) (P : α → Prop) : Prop :=
  match x with
  | .ok a => P a
  | .error f => A f

/-- `assert(c)`, with the fault of a failed assertion. -/
def require (c : Prop) [Decidable c] (f : φ) : Except φ Unit :=
  if c then pure () else throw f

variable {A : φ → Prop} {P : α → Prop}

@[simp] theorem safe_ok (a : α) : Safe A (.ok a) P ↔ P a := Iff.rfl

@[simp] theorem safe_error (f : φ) : Safe A (.error f : Except φ α) P ↔ A f := Iff.rfl

@[simp] theorem safe_pure (a : α) : Safe A (pure a) P ↔ P a := Iff.rfl

@[simp] theorem safe_throw (f : φ) : Safe A (throw f : Except φ α) P ↔ A f := Iff.rfl

@[simp] theorem safe_bind (x : Except φ α) (f : α → Except φ β) {P : β → Prop} :
    Safe A (x >>= f) P ↔ Safe A x fun a => Safe A (f a) P := by
  cases x with
  | ok a => rfl
  | error e => rfl

@[simp] theorem safe_require (c : Prop) [Decidable c] (f : φ) {P : Unit → Prop} :
    Safe A (require c f) P ↔ (c → P ()) ∧ (¬ c → A f) := by
  by_cases h : c
  · simp [require, h]
  · simp [require, h]

@[simp] theorem safe_ite {c : Prop} [Decidable c] (x y : Except φ α) :
    Safe A (if c then x else y) P ↔ (c → Safe A x P) ∧ (¬ c → Safe A y P) := by
  by_cases h : c
  · simp [h]
  · simp [h]

@[simp] theorem require_bind {c : Prop} [Decidable c] (h : c) (f : φ) (g : Unit → Except φ β) :
    require c f >>= g = g () := by
  simp only [require, h, if_true]
  rfl

@[simp] theorem ok_bind (a : α) (f : α → Except φ β) : (.ok a : Except φ α) >>= f = f a := rfl

@[simp] theorem pure_eq_ok (a : α) : (pure a : Except φ α) = .ok a := rfl

/-- **Consequence**: more may be allowed to happen. -/
theorem Safe.mono {A B : φ → Prop} {P Q : α → Prop} {x : Except φ α} (h : Safe A x P)
    (hA : ∀ f, A f → B f) (hP : ∀ a, P a → Q a) : Safe B x Q := by
  cases x with
  | ok a => exact hP a h
  | error f => exact hA f h

/-- Consequence for the value alone. -/
theorem Safe.imp {Q : α → Prop} {x : Except φ α} (h : Safe A x P) (hP : ∀ a, P a → Q a) :
    Safe A x Q :=
  h.mono (fun _ hf => hf) hP

/-- **Sequencing**: the second part is run on a value that the first part has
returned. -/
theorem Safe.bind_eq {x : Except φ α} {f : α → Except φ β} {Q : β → Prop} (hx : Safe A x P)
    (hf : ∀ a, x = .ok a → P a → Safe A (f a) Q) : Safe A (x >>= f) Q := by
  cases x with
  | ok a => exact hf a rfl hx
  | error e => exact hx

theorem Safe.of_ok {x : Except φ α} {a : α} (h : Safe A x P) (hx : x = .ok a) : P a := by
  subst hx
  exact h

theorem Safe.of_error {x : Except φ α} {f : φ} (h : Safe A x P) (hx : x = .error f) : A f := by
  subst hx
  exact h

/-- What holds of every value that `x` can return, no matter the faults. -/
theorem safe_of_ok {x : Except φ α} (h : ∀ a, x = .ok a → P a) : Safe (fun _ => True) x P := by
  cases x with
  | ok a => exact h a rfl
  | error f => trivial

@[simp] theorem safe_true (x : Except φ α) : Safe (fun _ => True) x fun _ => True :=
  safe_of_ok fun _ _ => trivial

/-! ## runs over a list of commands -/

/-- Apply `step` to each command in turn. -/
def runE (step : σ → γ → Except φ σ) : List γ → σ → Except φ σ
  | [], s => pure s
  | c :: cs, s => step s c >>= runE step cs

/-- Every command of a run meets `ok` in the state in which it is executed. -/
def Along (step : σ → γ → Except φ σ) (ok : σ → γ → Prop) : List γ → σ → Prop
  | [], _ => True
  | c :: cs, s => ok s c ∧ ∀ s', step s c = .ok s' → Along step ok cs s'

theorem along_of_forall {step : σ → γ → Except φ σ} {ok : σ → γ → Prop} (h : ∀ s c, ok s c)
    (cs : List γ) (s : σ) : Along step ok cs s := by
  induction cs generalizing s with
  | nil => trivial
  | cons c cs ih => exact ⟨h s c, fun s' _ => ih s'⟩

/-- **Rule for runs**: an invariant that every step keeps, up to the faults in
`A`, is kept by the run. -/
theorem runE_safe {step : σ → γ → Except φ σ} {ok : σ → γ → Prop} {I : σ → Prop}
    (hstep : ∀ s c, I s → ok s c → Safe A (step s c) I) {cs : List γ} {s : σ} (hs : I s)
    (hok : Along step ok cs s) : Safe A (runE step cs s) I := by
  induction cs generalizing s with
  | nil => exact hs
  | cons c cs ih =>
      obtain ⟨hc, hrest⟩ := hok
      rw [runE, safe_bind]
      have h := hstep s c hs hc
      cases hrun : step s c with
      | error f => simpa [hrun] using h
      | ok s' =>
          have hs' : I s' := h.of_ok hrun
          exact ih hs' (hrest s' hrun)

end Femu.Lib

import Mathlib.Data.Option.Basic

/-!
# Femu.Lib.Loop

Loops and runs in the `Option` monad, where `none` is a computation
that ended abnormally.

* `forLoop f n i s` is `for (j = i; j < i + n; j++) s = f(j, s)`;
* `whileLoop c f fuel i s` is `while (c(s)) s = f(i++, s)` within `fuel` turns;
* `runAll step cs s` applies `step` to the commands `cs` in turn.

Each has a partial rule (an invariant holds whenever a result is returned) and
a total rule (a result is returned, and the invariant holds of it).
-/

namespace Femu.Lib

variable {σ γ : Type}

/-! ## counted loops -/

/-- Run the body on `i`, `i + 1`, …, `i + n - 1`. -/
def forLoop (f : Nat → σ → Option σ) : Nat → Nat → σ → Option σ
  | 0, _, s => some s
  | n + 1, i, s => (f i s).bind (forLoop f n (i + 1))

@[simp] theorem forLoop_zero (f : Nat → σ → Option σ) (i : Nat) (s : σ) :
    forLoop f 0 i s = some s := rfl

theorem forLoop_succ (f : Nat → σ → Option σ) (n i : Nat) (s : σ) :
    forLoop f (n + 1) i s = (f i s).bind (forLoop f n (i + 1)) := rfl

/-- The last turn of a loop. -/
theorem forLoop_snoc (f : Nat → σ → Option σ) (n i : Nat) (s : σ) :
    forLoop f (n + 1) i s = (forLoop f n i s).bind (f (i + n)) := by
  induction n generalizing i s with
  | zero => simp [forLoop]
  | succ n ih =>
      rw [forLoop_succ, forLoop_succ, Option.bind_assoc]
      refine congrArg _ (funext fun t => ?_)
      rw [ih, show i + 1 + n = i + (n + 1) by omega]

/-- **Partial rule**: an invariant of the body, indexed by the counter, holds of
whatever the loop returns. -/
theorem forLoop_partial {f : Nat → σ → Option σ} {I : Nat → σ → Prop} {n i : Nat} {s s' : σ}
    (step : ∀ j t t', i ≤ j → j < i + n → I j t → f j t = some t' → I (j + 1) t')
    (h0 : I i s) (hr : forLoop f n i s = some s') : I (i + n) s' := by
  induction n generalizing i s with
  | zero =>
      cases hr
      exact h0
  | succ n ih =>
      obtain ⟨t, ht, hrest⟩ := Option.bind_eq_some_iff.mp hr
      have h1 : I (i + 1) t := step i s t (Nat.le_refl i) (by omega) h0 ht
      have := ih (fun j t t' hj hlt => step j t t' (by omega) (by omega)) h1 hrest
      rwa [show i + (n + 1) = i + 1 + n by omega]

/-- **Total rule**: if the body always returns and keeps the invariant, so does
the loop. -/
theorem forLoop_total {f : Nat → σ → Option σ} {I : Nat → σ → Prop} {n i : Nat} {s : σ}
    (step : ∀ j t, i ≤ j → j < i + n → I j t → ∃ t', f j t = some t' ∧ I (j + 1) t')
    (h0 : I i s) : ∃ s', forLoop f n i s = some s' ∧ I (i + n) s' := by
  induction n generalizing i s with
  | zero => exact ⟨s, rfl, h0⟩
  | succ n ih =>
      obtain ⟨t, ht, h1⟩ := step i s (Nat.le_refl i) (by omega) h0
      obtain ⟨s', hs', hI⟩ := ih (fun j t hj hlt => step j t (by omega) (by omega)) h1
      refine ⟨s', ?_, by rwa [show i + (n + 1) = i + 1 + n by omega]⟩
      rw [forLoop_succ, ht]
      exact hs'

/-- A loop on the image of the states is the image of the loop, if the bodies are. -/
theorem forLoop_map {τ : Type} {f : Nat → σ → Option σ} {g : Nat → τ → Option τ} {r : σ → τ}
    (h : ∀ i s, g i (r s) = (f i s).map r) (n i : Nat) (s : σ) :
    forLoop g n i (r s) = (forLoop f n i s).map r := by
  induction n generalizing i s with
  | zero => rfl
  | succ n ih =>
      rw [forLoop_succ, forLoop_succ, h, Option.bind_map, Option.map_bind]
      exact congrArg _ (funext fun t => ih (i + 1) t)

/-! ## loops with a condition -/

/-- Run the body on `i`, `i + 1`, … while the condition holds, and count. -/
def whileLoop (c : σ → Bool) (f : Nat → σ → Option σ) : (fuel i : Nat) → σ → Option (Nat × σ)
  | 0, i, s => if c s then none else some (i, s)
  | fuel + 1, i, s => if c s then (f i s).bind (whileLoop c f fuel (i + 1)) else some (i, s)

section While

variable {c : σ → Bool} {f : Nat → σ → Option σ} {fuel i : Nat} {s : σ}

theorem whileLoop_of_not (h : c s = false) : whileLoop c f fuel i s = some (i, s) := by
  cases fuel <;> simp [whileLoop, h]

/-- **Total rule**: a loop whose turns are all carried out and bring `μ` down to zero one by
one ends after `μ` turns. -/
theorem whileLoop_total {I : σ → Prop} {μ : σ → Nat}
    (step : ∀ j t, I t → c t = true → ∃ t', f j t = some t' ∧ I t' ∧ μ t' + 1 = μ t)
    (hdone : ∀ t, I t → c t = false → μ t = 0) (h0 : I s) :
    ∃ t, whileLoop c f (μ s) i s = some (i + μ s, t) ∧ I t ∧ c t = false := by
  induction hμ : μ s generalizing i s with
  | zero =>
      cases hc : c s with
      | false => exact ⟨s, whileLoop_of_not hc, h0, hc⟩
      | true =>
          obtain ⟨t, -, -, ht⟩ := step i s h0 hc
          omega
  | succ m ih =>
      cases hc : c s with
      | false =>
          have := hdone s h0 hc
          omega
      | true =>
          obtain ⟨t, ht, hI, hm⟩ := step i s h0 hc
          obtain ⟨u, hu, hdone'⟩ := ih (i := i + 1) hI (by omega)
          refine ⟨u, ?_, hdone'⟩
          rw [whileLoop, if_pos hc, ht, Option.bind_some, hu]
          congr 2
          omega

/-- **Partial rule**: an invariant of the body holds of whatever the loop returns, and the
condition does not. -/
theorem whileLoop_partial {I : σ → Prop} {j : Nat} {t : σ}
    (step : ∀ j t t', I t → c t = true → f j t = some t' → I t') (h0 : I s)
    (hr : whileLoop c f fuel i s = some (j, t)) : I t ∧ c t = false := by
  induction fuel generalizing i s with
  | zero =>
      cases hc : c s with
      | false =>
          cases (whileLoop_of_not hc).symm.trans hr
          exact ⟨h0, hc⟩
      | true => simp [whileLoop, hc] at hr
  | succ fuel ih =>
      cases hc : c s with
      | false =>
          cases (whileLoop_of_not hc).symm.trans hr
          exact ⟨h0, hc⟩
      | true =>
          rw [whileLoop, if_pos hc] at hr
          obtain ⟨u, hu, hrest⟩ := Option.bind_eq_some_iff.mp hr
          exact ih (step i s u h0 hc hu) hrest

/-- **Total rule**: a loop whose turns are all carried out and make `μ` smaller ends with any
fuel from `μ` on. -/
theorem whileLoop_bounded {I : σ → Prop} {μ : σ → Nat}
    (step : ∀ j t, I t → c t = true → ∃ t', f j t = some t' ∧ I t' ∧ μ t' < μ t) (h0 : I s)
    (hfuel : μ s ≤ fuel) :
    ∃ j t, whileLoop c f fuel i s = some (j, t) ∧ I t ∧ c t = false := by
  induction fuel generalizing i s with
  | zero =>
      cases hc : c s with
      | false => exact ⟨i, s, whileLoop_of_not hc, h0, hc⟩
      | true =>
          obtain ⟨t, -, -, ht⟩ := step i s h0 hc
          omega
  | succ fuel ih =>
      cases hc : c s with
      | false => exact ⟨i, s, whileLoop_of_not hc, h0, hc⟩
      | true =>
          obtain ⟨t, ht, hI, hm⟩ := step i s h0 hc
          rw [whileLoop, if_pos hc, ht, Option.bind_some]
          exact ih hI (by omega)

/-- **Divergence rule**: a loop that keeps its condition does not end with any fuel. -/
theorem whileLoop_eq_none {I : σ → Prop} (hc : ∀ t, I t → c t = true)
    (step : ∀ j t t', I t → f j t = some t' → I t') (h0 : I s) :
    whileLoop c f fuel i s = none := by
  induction fuel generalizing i s with
  | zero => exact if_pos (hc s h0)
  | succ fuel ih =>
      rw [whileLoop, if_pos (hc s h0), Option.bind_eq_none_iff]
      exact fun t ht => ih (step i s t h0 ht)

end While

/-! ## runs over a list of commands -/

/-- Apply `step` to each command in turn. -/
def runAll (step : σ → γ → Option σ) : List γ → σ → Option σ
  | [], s => some s
  | c :: cs, s => (step s c).bind (runAll step cs)

@[simp] theorem runAll_nil (step : σ → γ → Option σ) (s : σ) : runAll step [] s = some s := rfl

theorem runAll_cons (step : σ → γ → Option σ) (c : γ) (cs : List γ) (s : σ) :
    runAll step (c :: cs) s = (step s c).bind (runAll step cs) := rfl

/-- A run is a run of its first part followed by a run of the rest. -/
theorem runAll_append (step : σ → γ → Option σ) (cs ds : List γ) (s : σ) :
    runAll step (cs ++ ds) s = (runAll step cs s).bind (runAll step ds) := by
  induction cs generalizing s with
  | nil => rfl
  | cons c cs ih =>
      rw [List.cons_append, runAll_cons, runAll_cons, Option.bind_assoc]
      exact congrArg _ (funext ih)

/-- **Partial rule**: an invariant of every step holds of whatever the run returns. -/
theorem runAll_partial {step : σ → γ → Option σ} (I : σ → Prop) (ok : γ → Prop)
    (hstep : ∀ s c s', ok c → I s → step s c = some s' → I s') {cs : List γ} {s s' : σ}
    (hok : ∀ c ∈ cs, ok c) (h0 : I s) (hr : runAll step cs s = some s') : I s' := by
  induction cs generalizing s with
  | nil =>
      cases hr
      exact h0
  | cons c cs ih =>
      obtain ⟨t, ht, hrest⟩ := Option.bind_eq_some_iff.mp hr
      exact ih (fun d hd => hok d (List.mem_cons_of_mem c hd))
        (hstep s c t (hok c List.mem_cons_self) h0 ht) hrest

/-- **Total rule**: if every step is carried out and keeps the invariant, so is the run. -/
theorem runAll_total {step : σ → γ → Option σ} (I : σ → Prop) (ok : γ → Prop)
    (hstep : ∀ s c, ok c → I s → ∃ s', step s c = some s' ∧ I s') {cs : List γ} {s : σ}
    (hok : ∀ c ∈ cs, ok c) (h0 : I s) : ∃ s', runAll step cs s = some s' ∧ I s' := by
  induction cs generalizing s with
  | nil => exact ⟨s, rfl, h0⟩
  | cons c cs ih =>
      obtain ⟨t, ht, h1⟩ := hstep s c (hok c List.mem_cons_self) h0
      obtain ⟨s', hs', hI⟩ := ih (fun d hd => hok d (List.mem_cons_of_mem c hd)) h1
      refine ⟨s', ?_, hI⟩
      rw [runAll_cons, ht]
      exact hs'

end Femu.Lib

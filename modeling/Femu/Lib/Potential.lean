import Femu.Lib.Transition

/-!
# Femu.Lib.Potential

Systems with a potential, a number for each state. Some steps lower it and others raise it by a
constant; so in a run there are no more of the first kind than the potential and the steps of
the second kind allow. Where some step lowers the potential as long as there is any, a run uses
it up.
-/

namespace Femu.Lib

variable {σ γ : Type} {step : σ → γ → σ → Prop} {s t : σ} {cs : List γ} {I : σ → Prop} {φ : σ → Nat}

/-- **Rule for costs**: what a step of the kind `P` takes from the potential was there at the
start, or has been put there by a step of the kind `Q`. -/
theorem Run.countP_le {P Q : γ → Bool} {k : Nat}
    (hstep : ∀ s c t, I s → step s c t → I t ∧ φ t + (P c).toNat ≤ φ s + k * (Q c).toNat)
    (h0 : I s) (h : Run step s cs t) : φ t + cs.countP P ≤ φ s + k * cs.countP Q := by
  induction h with
  | nil => simp
  | @cons s t u c cs head tail ih =>
      obtain ⟨ht, hle⟩ := hstep s c t h0 head
      have hrest := ih ht
      rw [List.countP_cons, List.countP_cons, Nat.mul_add]
      cases hP : P c <;> cases hQ : Q c <;> simp [hP, hQ] at hle ⊢ <;> omega

/-- **Rule for exhaustion**: with a step that lowers the potential wherever there is some, there
is a run after which there is none. -/
theorem exists_run_exhausted
    (hstep : ∀ s, I s → φ s ≠ 0 → ∃ c t, step s c t ∧ I t ∧ φ t < φ s) (h0 : I s) :
    ∃ cs t, Run step s cs t ∧ I t ∧ φ t = 0 := by
  induction hk : φ s using Nat.strongRecOn generalizing s with
  | ind k ih =>
      subst hk
      by_cases hzero : φ s = 0
      case pos => exact ⟨[], s, .nil s, h0, hzero⟩
      case neg =>
        obtain ⟨c, t, hst, ht, hlt⟩ := hstep s h0 hzero
        obtain ⟨cs, u, hrun, hu, hend⟩ := ih _ hlt ht rfl
        exact ⟨c :: cs, u, .cons hst hrun, hu, hend⟩

end Femu.Lib

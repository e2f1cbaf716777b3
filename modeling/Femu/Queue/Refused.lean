import Femu.Queue.Flow

/-!
# Femu.Queue.Refused

What a queue command that is refused leaves behind. Two handlers change the tables before
their last check: `nvme_del_cq` clears `is_active` before it looks at the list of submission
queues, and `nvme_create_cq` frees the queue in the place before `nvme_setup_discontig` reads
the list of pages.
-/

namespace Femu.Queue

open Nvme Lib

variable {n : QueueCfg} {s t : QueueCtrl} {now : Nat} {cmd : QueueCmd} {st : Status}

/-- The command fails at a check that comes after its first change of the tables. -/
def FailsLate (n : QueueCfg) (s : QueueCtrl) : QueueCmd → Prop
  | .createSq _ _ => False
  | .createCq d prpList =>
      (CqChecks n s d true ∧ ¬ CqChecks n s d prpList) ∧ (s.cq d.cqid.toNat).isSome
  | .delSq _ => False
  | .delCq qid => qid ≠ 0 ∧ qid.toNat ≤ n.numIoQueues ∧ ∃ e ∈ s.cq qid.toNat, e.sqList ≠ []

instance (n : QueueCfg) (s : QueueCtrl) : (cmd : QueueCmd) → Decidable (FailsLate n s cmd)
  | .createSq _ _ => inferInstanceAs (Decidable False)
  | .createCq _ _ => inferInstanceAs (Decidable (_ ∧ _))
  | .delSq _ => inferInstanceAs (Decidable False)
  | .delCq _ => inferInstanceAs (Decidable (_ ∧ _))

/-- **Step**: a command that fails leaves the tables alone unless it fails late. -/
theorem Inv.sameTables_iff (h : Inv n s) (hcmd : queueCmd n s now cmd = some (st, t))
    (hst : st ≠ nvmeSuccess) : SameTables s t ↔ ¬ FailsLate n s cmd := by
  cases cmd with
  | createSq c prpList =>
      cases h.effect hcmd with
      | refused => simp [SameTables, FailsLate]
      | createSq => exact absurd rfl hst
  | createCq d prpList =>
      by_cases hok : CqChecks n s d prpList
      case pos =>
        cases hcmd.symm.trans (createCq_of_checks (h.cqs.cqid_eq _) hok)
        exact absurd rfl hst
      case neg =>
        obtain ⟨st', -, heq⟩ := createCq_refused (h.cqs.cqid_eq _) hok
        cases hcmd.symm.trans heq
        simp only [SameTables, FailsLate, hok, not_false_eq_true, and_true]
        split
        case isFalse hearly => simp [hearly]
        case isTrue hlate =>
          simp only [hlate, true_and, QueueCtrl.setCq_sq, QueueCtrl.setCq_cq,
            Function.update_eq_self_iff, Option.not_isSome_iff_eq_none]
          exact eq_comm
  | delSq qid =>
      cases h.effect hcmd with
      | refused => simp [SameTables, FailsLate]
      | delSq => exact absurd rfl hst
  | delCq qid =>
      rcases delCq_cases h.cqs.cqid_eq hcmd with
        ⟨-, rfl⟩ | ⟨e, hne, hle, he, hact, ⟨hused, -, rfl⟩ | ⟨-, rfl, -⟩⟩
      · refine iff_of_true ⟨rfl, rfl⟩ ?_
        rintro ⟨hne, hle, e, he, hused⟩
        rw [Option.mem_def] at he
        rw [queueCmd, delCq, if_neg (by simp [hne, checkCqid, hle, he]), he] at hcmd
        grind
      · have hchanged : ¬ SameTables s (s.setCq qid.toNat (some { e with isActive := false })) := by
          intro hsame
          have hcq := congrFun hsame.2 qid.toNat
          rw [QueueCtrl.setCq_cq, Function.update_self, he, Option.some.injEq] at hcq
          have := congrArg NvmeCQueue.isActive hcq
          simp [hact] at this
        simp [hchanged, FailsLate, hne, hle, he, hused]
      · exact absurd rfl hst

/-- **Commands that fail**: in every state that queue commands reach from a controller that
has just been started, a command that fails leaves the tables alone if and only if it does
not fail late. -/
theorem fails_unchanged_iff {s₀ : QueueCtrl} {asqs acqs : Nat} {cmds : List (Nat × QueueCmd)}
    (hstart : startCtrl .reset asqs acqs = some s₀)
    (hrun : Run (fun s x t => queueStep n s x = some t) s₀ cmds s) :
    ∀ now cmd st t, queueCmd n s now cmd = some (st, t) → st ≠ nvmeSuccess →
      (SameTables s t ↔ ¬ FailsLate n s cmd) := by
  have hinv₀ : Inv n s₀ := step_inv (a := .enable asqs acqs) reset_inv hstart
  have hinv : Inv n s := by
    refine hrun.invariant (I := Inv n) ?_ hinv₀
    intro s x t hs hstep
    obtain ⟨⟨st, u⟩, hcmd, rfl⟩ := Option.map_eq_some_iff.mp hstep
    exact queueCmd_inv hs hcmd
  exact fun now cmd st t hcmd hst => hinv.sameTables_iff hcmd hst

theorem fails_unchanged_small :
    ∃ s₀ s t, startCtrl .reset 31 31 = some s₀ ∧
      Run (fun s x t => queueStep onePair s x = some t) s₀ [(0, makeCq 1 7)] s ∧
      queueCmd onePair s 1 (makeCq 1 3) = some (nvmeInvalidCqid ||| nvmeDnr, t) ∧
      SameTables s t := by
  have hends : ((startCtrl .reset 31 31).bind fun s₀ =>
      (exec (queueStep onePair) [(0, makeCq 1 7)] s₀).bind fun s =>
        (queueCmd onePair s 1 (makeCq 1 3)).map fun r =>
          (r.1, decide (FailsLate onePair s (makeCq 1 3)))) =
      some (nvmeInvalidCqid ||| nvmeDnr, false) := by decide +kernel
  obtain ⟨s₀, hstart, hends⟩ := Option.bind_eq_some_iff.mp hends
  obtain ⟨s, hs, hends⟩ := Option.bind_eq_some_iff.mp hends
  obtain ⟨⟨st, t⟩, hcmd, heq⟩ := Option.map_eq_some_iff.mp hends
  simp only [Prod.mk.injEq, decide_eq_false_iff_not] at heq
  obtain ⟨rfl, hearly⟩ := heq
  have hrun := run_of_exec hs
  exact ⟨s₀, s, t, hstart, hrun, hcmd,
    (fails_unchanged_iff hstart hrun _ _ _ _ hcmd (by decide)).mpr hearly⟩

/-- A completion queue is in use, its deletion is refused, and once its submission queue is
deleted the deletion fails an assertion. -/
theorem deletion_not_retried :
    ∃ s₀ s t u, startCtrl .reset 31 31 = some s₀ ∧
      Run (fun s x t => queueStep onePair s x = some t) s₀
        [(0, makeCq 1 7), (1, makeSq 1 1 3)] s ∧
      queueCmd onePair s 2 (.delCq 1) = some (nvmeInvalidQueueDel, t) ∧ ¬ SameTables s t ∧
      queueStep onePair t (3, .delSq 1) = some u ∧ queueCmd onePair u 4 (.delCq 1) = none := by
  have hends : ((startCtrl .reset 31 31).bind fun s₀ =>
      (exec (queueStep onePair) [(0, makeCq 1 7), (1, makeSq 1 1 3)] s₀).bind fun s =>
        (queueCmd onePair s 2 (.delCq 1)).bind fun r =>
          (queueStep onePair r.2 (3, .delSq 1)).map fun u =>
            (r.1, (s.cq 1).map (·.isActive), (r.2.cq 1).map (·.isActive),
              (queueCmd onePair u 4 (.delCq 1)).isNone)) =
      some (nvmeInvalidQueueDel, some true, some false, true) := by decide +kernel
  obtain ⟨s₀, hstart, hends⟩ := Option.bind_eq_some_iff.mp hends
  obtain ⟨s, hs, hends⟩ := Option.bind_eq_some_iff.mp hends
  obtain ⟨⟨st, t⟩, hcmd, hends⟩ := Option.bind_eq_some_iff.mp hends
  obtain ⟨u, hu, heq⟩ := Option.map_eq_some_iff.mp hends
  simp only [Prod.mk.injEq, Option.isNone_iff_eq_none] at heq
  obtain ⟨rfl, hactive, hretired, hnone⟩ := heq
  refine ⟨s₀, s, t, u, hstart, run_of_exec hs, hcmd, ?_, hu, hnone⟩
  intro hsame
  rw [hsame.2, hactive] at hretired
  cases hretired

end Femu.Queue

import Femu.Queue.Account

/-!
# Femu.Queue.Routing

The completion queue of a completion. `nvme_process_cq_cpl` takes the completion queue and the
interrupt by the number of the submission queue, `n->cq[req->sq->sqid]`, while
`nvme_create_sq` lets the host pair a submission queue with any completion queue; an admin
command is completed through the `cqid` of its queue.
-/

namespace Femu.Queue

open Nvme Lib

variable {n : QueueCfg} {s t : QueueCtrl} {a : Act}

/-- A completion of a submission queue whose number is that of its completion queue. -/
def Paired (s : QueueCtrl) : Act → Prop
  | .complete _ r _ => (s.sq r.sqid).all fun q => q.cqid = q.sqid
  | _ => True

instance (s : QueueCtrl) : (a : Act) → Decidable (Paired s a)
  | .complete _ _ _ => inferInstanceAs (Decidable (_ = true))
  | .hostSqe .. | .hostTail .. | .hostHead .. | .enable .. | .disable | .admin .. | .enter ..
  | .fetch .. | .leave .. | .ftl .. | .collect .. | .notify .. => isTrue trivial

/-- Each entry is in the completion queue that the submission queue was created with, and each
pass has notified the completion queues of its completions and no others. -/
structure Routed (s : QueueCtrl) : Prop where
  posted : ∀ e ∈ s.posted, e.cq = e.cqid
  notified : ∀ x ∈ s.notified, ∀ j, j ∈ x.cqs ↔ j ∈ x.due

/-- What the running passes have still to notify. -/
structure DueInv (n : QueueCfg) (s : QueueCtrl) : Prop where
  range : ∀ p, ∀ j ∈ s.due p, (1 ≤ j ∧ j ≤ n.numIoQueues) ∧ p = n.poller j
  shouldIsr : n.multipollerEnabled = false → ∀ j, 1 ≤ j ∧ j ≤ n.numIoQueues →
    (s.shouldIsr j ↔ j ∈ s.due 1)

/-- The fields that routing looks at. -/
structure SameRoutes (s t : QueueCtrl) : Prop where
  posted : t.posted = s.posted
  notified : t.notified = s.notified
  due : t.due = s.due
  shouldIsr : t.shouldIsr = s.shouldIsr

theorem SameRoutes.routed (h : SameRoutes s t) (hs : Routed s) : Routed t :=
  ⟨h.posted ▸ hs.posted, h.notified ▸ hs.notified⟩

theorem SameRoutes.dueInv (h : SameRoutes s t) (hs : DueInv n s) : DueInv n t := by
  constructor
  · rw [h.due]
    exact hs.range
  · rw [h.due, h.shouldIsr]
    exact hs.shouldIsr

/-- At the end of a pass the completion queues notified are those that are due. -/
theorem DueInv.toNotify (h : DueInv n s) {p : Nat} (hdue : s.due p ≠ []) (j : Nat) :
    j ∈ toNotify n s p ↔ j ∈ s.due p := by
  obtain ⟨k, hk⟩ := List.exists_mem_of_ne_nil _ hdue
  unfold Queue.toNotify
  split
  case isTrue hmulti =>
    have hall : ∀ j ∈ s.due p, j = p := by
      intro j hj
      obtain ⟨-, hp⟩ := h.range p j hj
      rw [hp, QueueCfg.poller, if_pos hmulti]
    rw [List.mem_singleton]
    constructor
    · rintro rfl
      exact hall k hk ▸ hk
    · exact hall j
  case isFalse hmulti =>
    have hp : p = 1 := by
      rw [(h.range p k hk).2, QueueCfg.poller, if_neg hmulti]
    subst hp
    simp only [List.mem_filter, List.mem_range'_1]
    constructor
    · rintro ⟨hrange, hisr⟩
      exact (h.shouldIsr (by simpa using hmulti) j (by omega)).mp hisr
    · intro hj
      have hrange := (h.range 1 j hj).1
      exact ⟨by omega, (h.shouldIsr (by simpa using hmulti) j hrange).mpr hj⟩

/-- A completion of a poller is put down for the completion queue of its submission queue. -/
theorem DueInv.complete {r : ReqId} {q : NvmeSQueue} {p : Nat} (h : DueInv n s) (hinv : Inv n s)
    (hr : r ∈ s.pq p) (hq : s.sq r.sqid = some q) (hpair : q.cqid = q.sqid)
    (hdue : t.due = Function.update s.due p (s.due p ++ [q.cqid]))
    (hisr : t.shouldIsr = Function.update s.shouldIsr q.sqid true) : DueInv n t := by
  have hin : r ∈ inflight s p := Multiset.mem_add.mpr (.inr hr)
  have hrange := hinv.flow.flight_range p r hin
  have hp := hinv.flow.flight_poller p r hin
  have hsqid := hinv.flow.sqid_eq _ q hq
  constructor
  · intro p' j hj
    rw [hdue, Function.update_apply] at hj
    split at hj
    case isFalse => exact h.range p' j hj
    case isTrue heq =>
      rcases List.mem_append.mp hj with hj | hj
      · exact heq ▸ h.range p j hj
      · rw [List.mem_singleton.mp hj, hpair, hsqid]
        exact ⟨hrange, heq.trans hp⟩
  · intro hmulti j hj
    have hp1 : p = 1 := by
      rw [hp, QueueCfg.poller, hmulti]
      rfl
    subst hp1
    have hold := h.shouldIsr hmulti j hj
    rw [hdue, hisr, Function.update_self, Function.update_apply, List.mem_append,
      List.mem_singleton, hpair]
    split
    case isTrue heq => simp [heq]
    case isFalse hne => simp [hne, hold]

/-- Nothing is due after the end of a pass. -/
theorem DueInv.notify {p : Nat} (h : DueInv n s) (hdue : s.due p ≠ [])
    (hdue' : t.due = Function.update s.due p [])
    (hisr : t.shouldIsr = if n.multipollerEnabled then s.shouldIsr
      else fun j => s.shouldIsr j && !(1 ≤ j && j ≤ n.numIoQueues)) : DueInv n t := by
  constructor
  · intro p' j hj
    rw [hdue', Function.update_apply] at hj
    split at hj
    case isTrue => cases hj
    case isFalse => exact h.range p' j hj
  · intro hmulti j hj
    obtain ⟨k, hk⟩ := List.exists_mem_of_ne_nil _ hdue
    have hp : p = 1 := by
      rw [(h.range p k hk).2, QueueCfg.poller, hmulti]
      rfl
    subst hp
    simp [hdue', hisr, hmulti, hj.1, hj.2]

/-- A step other than an admin command, a completion and the end of a pass posts nothing and
notifies no one. -/
theorem step_sameRoutes (hstep : step? n s a = some t) (hadmin : ∀ cmd now, a ≠ .admin cmd now)
    (hcomplete : ∀ p r now, a ≠ .complete p r now) (hnotify : ∀ p, a ≠ .notify p) :
    SameRoutes s t := by
  cases a with
  | hostSqe addr slot e =>
      cases hstep
      exact ⟨rfl, rfl, rfl, rfl⟩
  | hostTail sqid tail =>
      obtain ⟨q, -, rfl⟩ := Option.map_eq_some_iff.mp hstep
      exact ⟨rfl, rfl, rfl, rfl⟩
  | hostHead cqid head =>
      obtain ⟨c, -, rfl⟩ := Option.map_eq_some_iff.mp hstep
      exact ⟨rfl, rfl, rfl, rfl⟩
  | enable asqs acqs =>
      rcases startCtrl_cases hstep with rfl | ⟨-, -, -, rfl⟩ <;> exact ⟨rfl, rfl, rfl, rfl⟩
  | disable =>
      cases hstep
      exact ⟨rfl, rfl, rfl, rfl⟩
  | admin cmd now => exact absurd rfl (hadmin cmd now)
  | enter i =>
      obtain ⟨q, c, -, -, -, rfl⟩ := enterSq_cases hstep
      exact ⟨rfl, rfl, rfl, rfl⟩
  | fetch i now status =>
      obtain ⟨q, idx, rest, hq, -, -, -, rfl⟩ := processSqIo_cases hstep
      unfold enqueueFtl
      split
      · split <;> exact ⟨rfl, rfl, rfl, rfl⟩
      · exact ⟨rfl, rfl, rfl, rfl⟩
  | leave i =>
      obtain rfl := leaveSq_cases hstep
      exact ⟨rfl, rfl, rfl, rfl⟩
  | ftl p lat =>
      obtain ⟨r, rest, q, -, -, -, -, rfl⟩ := ftlThread_cases hstep
      unfold enqueuePoller
      split <;> exact ⟨rfl, rfl, rfl, rfl⟩
  | collect p =>
      obtain ⟨r, rest, -, rfl⟩ := collectCpl_cases hstep
      exact ⟨rfl, rfl, rfl, rfl⟩
  | complete p r now => exact absurd rfl (hcomplete p r now)
  | notify p => exact absurd rfl (hnotify p)

/-- **Step**: what is posted and notified goes where it belongs exactly when the completion is
one of a paired queue. -/
theorem step_routed_iff (hinv : Inv n s) (hdue : DueInv n s) (hs : Routed s)
    (hstep : step? n s a = some t) : Routed t ↔ Paired s a := by
  by_cases hadmin : ∃ cmd now, a = .admin cmd now
  · obtain ⟨cmd, now, rfl⟩ := hadmin
    obtain ⟨q, st, u, c, e, hq, -, hcmd, -, he, rfl⟩ := processSqAdmin_cases hstep
    have hrest := adminCmd_rest (incSqHead_inv hinv hq) hcmd
    refine iff_of_true ⟨?_, fun x hx => hs.notified x (hrest.notified ▸ hx)⟩ trivial
    have hposted : u.posted = s.posted := hrest.posted
    rw [hposted, List.forall_mem_append, List.forall_mem_singleton]
    exact ⟨hs.posted, by rw [he]⟩
  by_cases hcomplete : ∃ p r now, a = .complete p r now
  · obtain ⟨p, r, now, rfl⟩ := hcomplete
    obtain ⟨q, c, e, hq, -, hr, -, -, he, rfl⟩ := postCpl_cases hstep
    have hiff : e.cq = e.cqid ↔ Paired s (.complete p r now) := by
      rw [he]
      simp only [Paired, hq, Option.all_some, decide_eq_true_eq]
      exact eq_comm
    constructor
    · intro ht
      exact hiff.mp (ht.posted e (by simp))
    · intro hpair
      refine ⟨?_, hs.notified⟩
      exact List.forall_mem_append.mpr ⟨hs.posted, List.forall_mem_singleton.mpr (hiff.mpr hpair)⟩
  by_cases hnotify : ∃ p, a = .notify p
  · obtain ⟨p, rfl⟩ := hnotify
    obtain ⟨hne, rfl⟩ := notifyIo_cases hstep
    refine iff_of_true ⟨hs.posted, List.forall_mem_append.mpr ⟨hs.notified, ?_⟩⟩ trivial
    exact List.forall_mem_singleton.mpr (hdue.toNotify hne)
  · have hsame := step_sameRoutes hstep (fun cmd now h => hadmin ⟨cmd, now, h⟩)
      (fun p r now h => hcomplete ⟨p, r, now, h⟩) fun p h => hnotify ⟨p, h⟩
    refine iff_of_true (hsame.routed hs) ?_
    unfold Paired
    split
    case h_1 p r now => exact absurd ⟨p, r, now, rfl⟩ hcomplete
    case h_2 => trivial

theorem step_dueInv (hinv : Inv n s) (hdue : DueInv n s) (hstep : step? n s a = some t)
    (hpair : Paired s a) : DueInv n t := by
  by_cases hadmin : ∃ cmd now, a = .admin cmd now
  · obtain ⟨cmd, now, rfl⟩ := hadmin
    obtain ⟨q, st, u, c, e, hq, -, hcmd, -, -, rfl⟩ := processSqAdmin_cases hstep
    have hrest := adminCmd_rest (incSqHead_inv hinv hq) hcmd
    refine ⟨?_, ?_⟩
    · exact hrest.due.symm ▸ hdue.range
    · exact hrest.due.symm ▸ hrest.shouldIsr.symm ▸ hdue.shouldIsr
  by_cases hcomplete : ∃ p r now, a = .complete p r now
  · obtain ⟨p, r, now, rfl⟩ := hcomplete
    obtain ⟨q, c, e, hq, -, hr, -, -, -, rfl⟩ := postCpl_cases hstep
    simp only [Paired, hq, Option.all_some, decide_eq_true_eq] at hpair
    exact hdue.complete hinv hr hq hpair rfl rfl
  by_cases hnotify : ∃ p, a = .notify p
  · obtain ⟨p, rfl⟩ := hnotify
    obtain ⟨hne, rfl⟩ := notifyIo_cases hstep
    exact hdue.notify hne rfl rfl
  · exact (step_sameRoutes hstep (fun cmd now h => hadmin ⟨cmd, now, h⟩)
      (fun p r now h => hcomplete ⟨p, r, now, h⟩) fun p h => hnotify ⟨p, h⟩).dueInv hdue

/-- **Routing**: in a run that completes commands of paired queues only, every completion is in
the completion queue of its submission queue, and that queue is notified; and a step keeps this
exactly when it does so too. -/
theorem completions_routed {acts : List Act}
    (hrun : Run (fun s a t => Paired s a ∧ step? n s a = some t) .reset acts s) :
    Routed s ∧ ∀ a t, step? n s a = some t → (Routed t ↔ Paired s a) := by
  have hall : Inv n s ∧ DueInv n s ∧ Routed s := by
    refine hrun.invariant (I := fun s => Inv n s ∧ DueInv n s ∧ Routed s) ?_ ⟨reset_inv, ?_, ?_⟩
    · rintro s a t ⟨hinv, hdue, hs⟩ ⟨hpair, hstep⟩
      exact ⟨step_inv hinv hstep, step_dueInv hinv hdue hstep hpair,
        (step_routed_iff hinv hdue hs hstep).mpr hpair⟩
    · constructor <;> simp [QueueCtrl.reset]
    · constructor <;> simp [QueueCtrl.reset]
  obtain ⟨hinv, hdue, hs⟩ := hall
  exact ⟨hs, fun a t hstep => step_routed_iff hinv hdue hs hstep⟩

/-- A command of a queue with the completion queue of the same number. -/
theorem completions_routed_small :
    ∃ s, Run (fun s a t => Paired s a ∧ step? onePair s a = some t) .reset
      (startUp ++ submit nvmeSuccess ++ [.ftl 1 10, .collect 1, .complete 1 ⟨3, 1, 0⟩ 20, .notify 1])
      s ∧ s.posted.map (·.cq) = [0, 0, 0, 1] ∧ Routed s := by
  have hends : (exec (allowed Paired (step? onePair))
      (startUp ++ submit nvmeSuccess ++ [.ftl 1 10, .collect 1, .complete 1 ⟨3, 1, 0⟩ 20, .notify 1])
      .reset).map (fun s => s.posted.map (·.cq)) = some [0, 0, 0, 1] := by decide +kernel
  obtain ⟨s, hs, hposted⟩ := Option.map_eq_some_iff.mp hends
  have hrun := run_of_exec_allowed hs
  exact ⟨s, hrun, hposted, (completions_routed hrun).1⟩

/-- A controller with two pairs of I/O queues. -/
def twoPairs : QueueCfg := { onePair with numIoQueues := 2 }

/-- Submission queue 1 is created with completion queue 2. -/
theorem completion_misrouted :
    ∃ s, Run (fun s a t => step? twoPairs s a = some t) .reset
      ([.enable 31 31, .hostTail 0 4, .admin (.queue (makeCq 1 7)) 0, .admin (.queue (makeCq 2 7)) 0,
        .admin (.queue (makeSq 1 2 3)) 0, .admin (.setDbMemory true) 0, .hostSqe 4 0 ⟨1, 42⟩,
        .hostTail 1 1, .enter 1, .fetch 1 5 nvmeSuccess, .ftl 1 10, .collect 1,
        .complete 1 ⟨4, 1, 0⟩ 20, .notify 1]) s ∧
      s.posted.map (fun e => (e.cid, e.cq, e.cqid)) = [(0, 0, 0), (0, 0, 0), (0, 0, 0), (0, 0, 0),
        (42, 1, 2)] ∧
      s.notified = [⟨[1], [2]⟩] ∧ ¬ Routed s := by
  have hends : (exec (step? twoPairs)
      ([.enable 31 31, .hostTail 0 4, .admin (.queue (makeCq 1 7)) 0, .admin (.queue (makeCq 2 7)) 0,
        .admin (.queue (makeSq 1 2 3)) 0, .admin (.setDbMemory true) 0, .hostSqe 4 0 ⟨1, 42⟩,
        .hostTail 1 1, .enter 1, .fetch 1 5 nvmeSuccess, .ftl 1 10, .collect 1,
        .complete 1 ⟨4, 1, 0⟩ 20, .notify 1]) .reset).map (fun s =>
          decide (s.posted.map (fun e => (e.cid, e.cq, e.cqid)) =
              [(0, 0, 0), (0, 0, 0), (0, 0, 0), (0, 0, 0), (42, 1, 2)] ∧
            s.notified = [⟨[1], [2]⟩])) = some true := by decide +kernel
  obtain ⟨s, hs, heq⟩ := Option.map_eq_some_iff.mp hends
  obtain ⟨hposted, hnotified⟩ := of_decide_eq_true heq
  refine ⟨s, run_of_exec hs, hposted, hnotified, fun hrouted => ?_⟩
  have hwrong := hrouted.notified ⟨[1], [2]⟩ (by simp [hnotified]) 1
  simp at hwrong

end Femu.Queue

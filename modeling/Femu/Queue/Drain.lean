import Mathlib.Algebra.Order.BigOperators.Group.Finset
import Femu.Lib.Potential
import Femu.Queue.Completion

/-!
# Femu.Queue.Drain

The way of the requests through the rings and the priority queue of their poller. A request is
taken by `ftl_thread`, collected and completed, and a pass that has completed something
notifies. Each of these turns takes the requests further, whatever the other threads, the host
and the admin commands do between them, and only a new command gives them more to do. As long
as something is left there is a turn that can be taken; so the pollers and `ftl_thread` can
complete every command, and without loss.
-/

namespace Femu.Queue

open Nvme Lib

variable {n : QueueCfg} {s t : QueueCtrl} {i p p' now : Nat} {q : NvmeSQueue} {r : ReqId} {a : Act}

/-- A turn of `ftl_thread` or of `nvme_process_cq_cpl` for the requests of the poller `p`. -/
def turns (p : Nat) : Act → Bool
  | .ftl p' _ | .collect p' | .complete p' _ _ | .notify p' => p' = p
  | _ => false

/-- A command taken from a submission queue that the poller `p` serves. -/
def feeds (n : QueueCfg) (p : Nat) : Act → Bool
  | .fetch i _ _ => n.poller i = p
  | _ => false

/-- The turns that the requests of a poller can still take. -/
def work (s : QueueCtrl) (p : Nat) : Nat :=
  4 * (s.toFtl p).length + 3 * (s.toPoller p).length + 2 * (s.pq p).length +
    min 1 (s.due p).length

@[simp] theorem turns_ftl (lat : Nat) : turns p (.ftl p lat) = true := decide_eq_true rfl

@[simp] theorem turns_collect : turns p (.collect p) = true := decide_eq_true rfl

@[simp] theorem turns_complete : turns p (.complete p r now) = true := decide_eq_true rfl

@[simp] theorem turns_notify : turns p (.notify p) = true := decide_eq_true rfl

/-! ## the work of a step -/

theorem work_congr (hftl : t.toFtl p = s.toFtl p) (hpoller : t.toPoller p = s.toPoller p)
    (hpq : t.pq p = s.pq p) (hdue : t.due p = s.due p) : work t p = work s p := by
  rw [work, hftl, hpoller, hpq, hdue, work]

theorem work_eq_zero : work s p = 0 ↔ inflight s p = 0 ∧ s.due p = [] := by
  have hflight : inflight s p = 0 ↔ s.toFtl p = [] ∧ s.toPoller p = [] ∧ s.pq p = [] := by
    simp only [inflight, add_eq_zero, Multiset.coe_eq_zero, and_assoc]
  simp only [hflight, work, ← List.length_eq_zero_iff]
  omega

theorem processSqIo_work {status : Status} (hstep : processSqIo n s i now status = some t) :
    work t p ≤ work s p + 4 * (feeds n p (.fetch i now status)).toNat := by
  obtain ⟨q, idx, rest, hq, -, -, -, rfl⟩ := processSqIo_cases hstep
  have hdrop (u : QueueCtrl) (r : ReqId) : work (dropReq u r) p = work u p := rfl
  have htake : work (takeReq s i now status q idx rest) p = work s p := rfl
  split
  case isFalse =>
    rw [hdrop, htake]
    exact Nat.le_add_right _ _
  case isTrue =>
    unfold enqueueFtl
    split
    case isFalse =>
      rw [hdrop, htake]
      exact Nat.le_add_right _ _
    case isTrue =>
      by_cases hp : n.poller i = p
      case pos =>
        subst hp
        simp only [feeds, work, pushFtl, takeReq, Function.update_self, List.length_append,
          List.length_singleton, decide_true, Bool.toNat_true]
        omega
      case neg =>
        refine Nat.le_add_right_of_le (le_of_eq ?_)
        exact work_congr (Function.update_of_ne (Ne.symm hp) ..) rfl rfl rfl

theorem ftlThread_work {lat : Nat} (hstep : ftlThread n s p' lat = some t) :
    work t p + (turns p (.ftl p' lat)).toNat ≤ work s p := by
  obtain ⟨r, rest, q, hring, -, -, -, rfl⟩ := ftlThread_cases hstep
  by_cases hp : p' = p
  case pos =>
    subst hp
    have hlen : (s.toFtl p').length = rest.length + 1 := congrArg List.length hring
    unfold enqueuePoller
    split
    case isTrue =>
      simp only [turns, work, pushPoller, Function.update_self, List.length_append,
        List.length_singleton, hlen, decide_true, Bool.toNat_true]
      omega
    case isFalse =>
      simp only [turns, work, dropReq, Function.update_self, hlen, decide_true, Bool.toNat_true]
      omega
  case neg =>
    have hne : p ≠ p' := Ne.symm hp
    rw [turns, decide_eq_false hp, Bool.toNat_false]
    unfold enqueuePoller
    split
    case isTrue =>
      exact le_of_eq (work_congr (Function.update_of_ne hne ..) (Function.update_of_ne hne ..)
        rfl rfl)
    case isFalse => exact le_of_eq (work_congr (Function.update_of_ne hne ..) rfl rfl rfl)

theorem collectCpl_work (hstep : collectCpl n s p' = some t) :
    work t p + (turns p (.collect p')).toNat ≤ work s p := by
  obtain ⟨r, rest, hring, rfl⟩ := collectCpl_cases hstep
  by_cases hp : p' = p
  case pos =>
    subst hp
    have hlen := congrArg List.length hring
    rw [List.length_cons] at hlen
    cases hbb : n.bbssd <;> simp only [hbb, if_true, if_false, Bool.false_eq_true] at hlen <;>
      simp only [turns, work, Function.update_self, List.length_append, List.length_singleton,
        hlen, decide_true, Bool.toNat_true, if_true, if_false, Bool.false_eq_true] <;> omega
  case neg =>
    have hne : p ≠ p' := Ne.symm hp
    rw [turns, decide_eq_false hp, Bool.toNat_false]
    refine le_of_eq (work_congr ?_ ?_ (Function.update_of_ne hne ..) rfl)
    · dsimp only
      split
      · rfl
      · exact Function.update_of_ne hne ..
    · dsimp only
      split
      · exact Function.update_of_ne hne ..
      · rfl

theorem postCpl_work (hstep : postCpl s p' r now = some t) :
    work t p + (turns p (.complete p' r now)).toNat ≤ work s p := by
  obtain ⟨q, c, e, -, -, hmem, -, -, -, rfl⟩ := postCpl_cases hstep
  by_cases hp : p' = p
  case pos =>
    subst hp
    have hlen := List.length_erase_of_mem hmem
    have hpos := List.length_pos_of_mem hmem
    simp only [turns, work, Function.update_self, hlen, List.length_append, List.length_singleton,
      decide_true, Bool.toNat_true]
    omega
  case neg =>
    have hne : p ≠ p' := Ne.symm hp
    rw [turns, decide_eq_false hp, Bool.toNat_false]
    exact le_of_eq (work_congr rfl rfl (Function.update_of_ne hne ..)
      (Function.update_of_ne hne ..))

theorem notifyIo_work (hstep : notifyIo n s p' = some t) :
    work t p + (turns p (.notify p')).toNat ≤ work s p := by
  obtain ⟨hdue, rfl⟩ := notifyIo_cases hstep
  by_cases hp : p' = p
  case pos =>
    subst hp
    have hpos := List.length_pos_iff.mpr hdue
    simp only [turns, work, Function.update_self, List.length_nil, decide_true, Bool.toNat_true]
    omega
  case neg =>
    rw [turns, decide_eq_false hp, Bool.toNat_false]
    exact le_of_eq (work_congr rfl rfl rfl (Function.update_of_ne (Ne.symm hp) ..))

/-- **Step**: a turn of the poller takes its requests further, a new command gives them at most
four turns more, and all other steps leave them alone. -/
theorem step_work (h : Inv n s) (hstep : step? n s a = some t) (p : Nat) :
    work t p + (turns p a).toNat ≤ work s p + 4 * (feeds n p a).toNat := by
  cases a with
  | hostSqe addr slot e =>
      cases hstep
      exact le_rfl
  | hostTail sqid tail =>
      obtain ⟨q, -, rfl⟩ := Option.map_eq_some_iff.mp hstep
      exact le_rfl
  | hostHead cqid head =>
      obtain ⟨c, -, rfl⟩ := Option.map_eq_some_iff.mp hstep
      exact le_rfl
  | enable asqs acqs =>
      rcases startCtrl_cases hstep with rfl | ⟨-, -, -, rfl⟩ <;> exact le_rfl
  | disable =>
      cases hstep
      exact le_rfl
  | admin cmd now =>
      obtain ⟨q, st, u, c, e, hq, -, hcmd, -, -, rfl⟩ := processSqAdmin_cases hstep
      have hrest := adminCmd_rest (incSqHead_inv h hq) hcmd
      exact le_of_eq (work_congr (congrFun hrest.toFtl p) (congrFun hrest.toPoller p)
        (congrFun hrest.pq p) (congrFun hrest.due p))
  | enter i =>
      obtain ⟨q, c, -, -, -, rfl⟩ := enterSq_cases hstep
      exact le_rfl
  | fetch i now status => exact processSqIo_work hstep
  | leave i =>
      obtain rfl := leaveSq_cases hstep
      exact le_rfl
  | ftl p' lat => exact ftlThread_work hstep
  | collect p' => exact collectCpl_work hstep
  | complete p' r now => exact postCpl_work hstep
  | notify p' => exact notifyIo_work hstep

/-! ## a turn that can be taken -/

/-- Without an FTL nothing comes to `to_poller`. -/
def PollerRing (n : QueueCfg) (s : QueueCtrl) : Prop := n.bbssd = false → ∀ p, s.toPoller p = []

theorem step_pollerRing (h : Inv n s) (hring : PollerRing n s) (hstep : step? n s a = some t) :
    PollerRing n t := by
  intro hbb p
  have hold := hring hbb p
  cases a with
  | hostSqe addr slot e =>
      cases hstep
      exact hold
  | hostTail sqid tail =>
      obtain ⟨q, -, rfl⟩ := Option.map_eq_some_iff.mp hstep
      exact hold
  | hostHead cqid head =>
      obtain ⟨c, -, rfl⟩ := Option.map_eq_some_iff.mp hstep
      exact hold
  | enable asqs acqs =>
      rcases startCtrl_cases hstep with rfl | ⟨-, -, -, rfl⟩ <;> exact hold
  | disable =>
      cases hstep
      exact hold
  | admin cmd now =>
      obtain ⟨q, st, u, c, e, hq, -, hcmd, -, -, rfl⟩ := processSqAdmin_cases hstep
      exact (congrFun (adminCmd_rest (incSqHead_inv h hq) hcmd).toPoller p).trans hold
  | enter i =>
      obtain ⟨q, c, -, -, -, rfl⟩ := enterSq_cases hstep
      exact hold
  | fetch i now status =>
      obtain ⟨q, idx, rest, hq, -, -, -, rfl⟩ := processSqIo_cases hstep
      unfold enqueueFtl
      split
      · split <;> exact hold
      · exact hold
  | leave i =>
      obtain rfl := leaveSq_cases hstep
      exact hold
  | ftl p' lat =>
      obtain ⟨r, rest, q, -, hyes, -⟩ := ftlThread_cases hstep
      rw [hbb] at hyes
      cases hyes
  | collect p' =>
      obtain ⟨r, rest, -, rfl⟩ := collectCpl_cases hstep
      simpa [hbb] using hold
  | complete p' r now =>
      obtain ⟨q, c, e, -, -, -, -, -, -, rfl⟩ := postCpl_cases hstep
      exact hold
  | notify p' =>
      obtain ⟨-, rfl⟩ := notifyIo_cases hstep
      exact hold

/-- What is known of the controller while the host and the pollers wait before a queue goes. -/
structure Working (n : QueueCfg) (s : QueueCtrl) : Prop where
  inv : Inv n s
  flags : PassInv n s
  served : AllServed n s
  ring : PollerRing n s

theorem reset_working : Working n .reset :=
  ⟨reset_inv, reset_passInv, reset_allServed, fun _ _ => rfl⟩

theorem Working.step (h : Working n s) (hawaits : Awaits n s a) (hstep : step? n s a = some t) :
    Working n t :=
  ⟨step_inv h.inv hstep, step_passInv h.inv h.flags hstep,
    step_allServed h.inv h.flags h.served hstep hawaits, step_pollerRing h.inv h.ring hstep⟩

theorem turns_awaits (hturns : turns p a) : Awaits n s a := by
  cases a <;> first | exact ⟨trivial, trivial⟩ | cases hturns

/-- A request that waits for its completion is collected. -/
theorem exists_collect (h : Working n s) (hring : cplRing n s p ≠ []) :
    ∃ t, step? n s (.collect p) = some t ∧ t.dropped = s.dropped := by
  have hready : PassReady n p s := ⟨h.inv, h.flags, h.served.passServed p⟩
  obtain ⟨t, hstep, -⟩ := hready.collect hring
  refine ⟨t, hstep, ?_⟩
  obtain ⟨r, rest, -, rfl⟩ := collectCpl_cases hstep
  rfl

/-- With an empty `to_poller` there is room for what `ftl_thread` takes. -/
theorem exists_ftl (h : Working n s) (hbb : n.bbssd = true) (hempty : s.toPoller p = [])
    (hring : s.toFtl p ≠ []) : ∃ t, step? n s (.ftl p 0) = some t ∧ t.dropped = s.dropped := by
  obtain ⟨r, rest, hcons⟩ := List.exists_cons_of_ne_nil hring
  have hin : r ∈ inflight s p := mem_inflight.mpr (.inl (hcons ▸ List.mem_cons_self))
  have hlive : r.queue? s ≠ none := queue?_ne_none.mpr (h.served.served p r hin).live
  have hroom : hasRoom (s.toPoller p) = true := by rw [hempty]; rfl
  simp [step?, ftlThread, hcons, hbb, hlive, enqueuePoller, hroom, pushPoller]

/-- The first request of the priority queue is completed once its time has come. -/
theorem exists_complete (h : Working n s) (hpq : s.pq p ≠ []) :
    ∃ r now t, step? n s (.complete p r now) = some t ∧ t.dropped = s.dropped := by
  have hsome : firstPeek.first s p ≠ none := fun hnone => hpq (firstPeek.pq_nil s p hnone)
  obtain ⟨r, hr⟩ := Option.ne_none_iff_exists'.mp hsome
  have hpeek := firstPeek.isPeek s p r hr
  have hin : r ∈ inflight s p := mem_inflight.mpr (.inr (.inr (isPeek_mem hpeek)))
  rcases cplTurn_of_served (s.req r).expireTime h.inv (h.served.served p r hin) hpeek with
    ⟨hlate, -⟩ | ⟨t, hstep, -⟩
  · exact absurd hlate (Nat.lt_irrefl _)
  · refine ⟨r, _, t, hstep, ?_⟩
    obtain ⟨q, c, e, -, -, -, -, -, -, rfl⟩ := postCpl_cases hstep
    rfl

/-- A pass that has completed something can notify. -/
theorem exists_notify (h : Working n s) (hdue : s.due p ≠ []) :
    ∃ t, step? n s (.notify p) = some t ∧ t.dropped = s.dropped := by
  have hok : ¬ (s.due p = [] ∨ (toNotify n s p).any (fun j => (s.cq j).isNone)) := by
    rintro (hnil | hnull)
    · exact hdue hnil
    · obtain ⟨j, hj, hnone⟩ := List.any_eq_true.mp hnull
      exact h.served.notify p hdue j hj (by simpa [cqFlag] using hnone)
  rw [step?, notifyIo, if_neg hok]
  exact ⟨_, rfl, rfl⟩

/-- **Progress**: as long as a poller has something left there is a turn that loses nothing. -/
theorem exists_turn (h : Working n s) (hwork : work s p ≠ 0) :
    ∃ a t, turns p a ∧ step? n s a = some t ∧ t.dropped = s.dropped := by
  by_cases hring : cplRing n s p = []
  case neg =>
    obtain ⟨t, ht⟩ := exists_collect h hring
    exact ⟨_, t, turns_collect, ht⟩
  by_cases hpq : s.pq p = []
  case neg =>
    obtain ⟨r, now, t, ht⟩ := exists_complete h hpq
    exact ⟨_, t, turns_complete, ht⟩
  by_cases hdue : s.due p = []
  case neg =>
    obtain ⟨t, ht⟩ := exists_notify h hdue
    exact ⟨_, t, turns_notify, ht⟩
  -- only `ftl_thread` has something to do
  cases hbb : n.bbssd with
  | false =>
      have hpoller := h.ring hbb p
      rw [cplRing, if_neg (by rw [hbb]; decide)] at hring
      simp [work, hring, hpoller, hpq, hdue] at hwork
  | true =>
      rw [cplRing, if_pos hbb] at hring
      have hftl : s.toFtl p ≠ [] := fun hnil => by
        simp [work, hring, hnil, hpq, hdue] at hwork
      obtain ⟨t, ht⟩ := exists_ftl h hbb hring hftl
      exact ⟨_, t, turns_ftl 0, ht⟩

/-! ## all pollers -/

/-- What is left to do for all pollers. -/
def totalWork (n : QueueCfg) (s : QueueCtrl) : Nat :=
  ∑ p ∈ Finset.range (n.numIoQueues + 1), work s p

theorem poller_lt (hi : 1 ≤ i ∧ i ≤ n.numIoQueues) : n.poller i < n.numIoQueues + 1 := by
  unfold QueueCfg.poller
  split <;> omega

/-- A poller that serves no queue has nothing to do. -/
theorem work_eq_zero_of_le (h : Working n s) (hp : n.numIoQueues + 1 ≤ p) : work s p = 0 := by
  rw [work_eq_zero]
  constructor
  · refine Multiset.eq_zero_of_forall_notMem fun r hr => ?_
    have hlt := poller_lt (h.inv.flow.flight_range p r hr)
    rw [← h.inv.flow.flight_poller p r hr] at hlt
    omega
  · by_contra hdue
    obtain ⟨j, hj, hpj⟩ := h.flags.due p hdue
    have hlt := poller_lt hj
    omega

theorem totalWork_lt (h : Inv n s) (hstep : step? n s a = some t) (hturns : turns p a)
    (hp : p < n.numIoQueues + 1) : totalWork n t < totalWork n s := by
  have hfeeds : ∀ p', feeds n p' a = false := by
    cases a <;> first | exact fun _ => rfl | cases hturns
  refine Finset.sum_lt_sum (fun p' _ => ?_) ⟨p, Finset.mem_range.mpr hp, ?_⟩
  · have hle := step_work h hstep p'
    rw [hfeeds, Bool.toNat_false] at hle
    omega
  · have hle := step_work h hstep p
    rw [hfeeds, hturns, Bool.toNat_false, Bool.toNat_true] at hle
    omega

/-- What is true of the requests on their way in a state. -/
structure Drains (n : QueueCfg) (s : QueueCtrl) : Prop where
  /-- In any run the requests of a poller take four turns for each command that is taken, and
  those that were left. -/
  bounded : ∀ p acts t, Run (fun s a t => step? n s a = some t) s acts t →
    work t p + acts.countP (turns p) ≤ work s p + 4 * acts.countP (feeds n p)
  /-- As long as something is left, there is a turn that can be taken. -/
  enabled : ∀ p, inflight s p ≠ 0 ∨ s.due p ≠ [] →
    ∃ a t, turns p a ∧ step? n s a = some t ∧ t.dropped = s.dropped
  /-- Turns of the pollers and of `ftl_thread` complete every command that was taken from a
  queue, but for those that had been lost before. -/
  drained : ∃ acts t, Run (fun s a t => step? n s a = some t) s acts t ∧
    (∀ a ∈ acts, ∃ p, turns p a) ∧ t.dropped = s.dropped ∧
    (∀ p, inflight t p = 0 ∧ t.due p = []) ∧
    ∀ i q, i ≠ 0 → t.sq i = some q →
      ((t.fetched.filter (·.addr = q.addr)).map Fetched.cid : Multiset UInt16) =
        ((t.posted.filter (·.addr = q.addr)).map Posted.cid : Multiset UInt16) +
          ((t.dropped.filter (·.addr = q.addr)).map Dropped.cid : Multiset UInt16)

theorem Working.drained (h : Working n s) :
    ∃ acts t, Run (fun s a t => (∃ p, turns p a) ∧ step? n s a = some t) s acts t ∧
      (Working n t ∧ t.dropped = s.dropped) ∧ totalWork n t = 0 := by
  refine exists_run_exhausted (I := fun t => Working n t ∧ t.dropped = s.dropped) ?_ ⟨h, rfl⟩
  rintro t ⟨ht, hdropped⟩ hwork
  obtain ⟨p, hp, hne⟩ := Finset.exists_ne_zero_of_sum_ne_zero hwork
  obtain ⟨a, u, hturns, hstep, hkeep⟩ := exists_turn ht hne
  exact ⟨a, u, ⟨⟨p, hturns⟩, hstep⟩, ⟨ht.step (turns_awaits hturns) hstep, hkeep.trans hdropped⟩,
    totalWork_lt ht.inv hstep hturns (Finset.mem_range.mp hp)⟩

/-- With nothing on its way, the commands taken from a queue are those completed and those
lost. -/
theorem tags_of_idle (h : Inv n s) (hidle : ∀ p, inflight s p = 0) (hi : i ≠ 0)
    (hq : s.sq i = some q) :
    ((s.fetched.filter (·.addr = q.addr)).map Fetched.cid : Multiset UInt16) =
      ((s.posted.filter (·.addr = q.addr)).map Posted.cid : Multiset UInt16) +
        ((s.dropped.filter (·.addr = q.addr)).map Dropped.cid : Multiset UInt16) := by
  have htags := (h.flow.balanced i q hi hq).tags
  simpa [ledger, outstanding, hidle, Function.comp_def] using htags

end Femu.Queue

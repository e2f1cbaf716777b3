import Femu.Queue.Pass

/-!
# Femu.Queue.Completion

The host and the completion queues that the pollers still need. A pass of
`nvme_process_cq_cpl` ends in every state of a run whose host deletes queues and disables the
controller only when their commands have ended and no pass has still to notify them, and
whose pollers take commands while the completion queue with the number of the submission
queue is active.
-/

namespace Femu.Queue

open Nvme Lib

variable {n : QueueCfg} {s t : QueueCtrl} {i j p now : Nat} {q : NvmeSQueue} {r : ReqId} {a : Act}

/-! ## what becomes of a completion queue -/

/-- What a step leaves of the flag of the completion queue `c` in place `j`. -/
def flagAfter (c : NvmeCQueue) (j : Nat) : Act → Option Bool
  | .admin (.queue (.delCq qid)) _ =>
      if qid.toNat = j then if c.sqList = [] then none else some false else some c.isActive
  | .disable => none
  | _ => some c.isActive

section flags

variable {c : NvmeCQueue} {st : Status}

theorem cqFlag_of_eq (hc : s.cq j = some c) (hcq : t.cq j = s.cq j) :
    cqFlag t j = some c.isActive := by
  rw [cqFlag, hcq, hc, Option.map_some]

theorem delCq_cqFlag {qid : UInt16} (h : Inv n s) (hj : 1 ≤ j ∧ j ≤ n.numIoQueues)
    (hc : s.cq j = some c) (hcmd : delCq n s qid = some (st, t)) :
    cqFlag t j = flagAfter c j (.admin (.queue (.delCq qid)) now) := by
  rw [flagAfter]
  by_cases hqid : qid.toNat = j
  case pos =>
    subst hqid
    have hne : qid ≠ 0 := by
      rintro rfl
      exact absurd hj.1 (by decide)
    rw [if_pos rfl, cqFlag]
    rcases delCq_cases h.cqs.cqid_eq hcmd with
      ⟨hst, rfl⟩ | ⟨c', -, -, hc', -, ⟨hused, -, rfl⟩ | ⟨hnone, -, rfl⟩⟩
    · -- only a queue that is not there is refused without a change
      rw [delCq, if_neg (by simp [hne, checkCqid, hj.2, hc]), hc] at hcmd
      grind
    · cases hc.symm.trans hc'
      rw [if_neg hused, QueueCtrl.setCq_cq, Function.update_self, Option.map_some]
    · cases hc.symm.trans hc'
      rw [if_pos hnone, QueueCtrl.setCq_cq, Function.update_self, Option.map_none]
  case neg =>
    rw [if_neg hqid]
    refine cqFlag_of_eq hc ?_
    rcases delCq_cases h.cqs.cqid_eq hcmd with
      ⟨-, rfl⟩ | ⟨c', -, -, -, -, ⟨-, -, rfl⟩ | ⟨-, -, rfl⟩⟩
    · rfl
    · exact Function.update_of_ne (Ne.symm hqid) ..
    · exact Function.update_of_ne (Ne.symm hqid) ..

theorem queueCmd_cqFlag {cmd : QueueCmd} (h : Inv n s) (hj : 1 ≤ j ∧ j ≤ n.numIoQueues)
    (hc : s.cq j = some c) (hcmd : queueCmd n s now cmd = some (st, t)) :
    cqFlag t j = flagAfter c j (.admin (.queue cmd) now) := by
  cases cmd with
  | delCq qid => exact delCq_cqFlag h hj hc hcmd
  | createSq d prpList =>
      cases h.effect hcmd with
      | refused => exact cqFlag_of_eq hc rfl
      | createSq d prpList e hok he =>
          rw [cqFlag, addSq_cq]
          split
          case isTrue hd =>
            rw [← hd, hc] at he
            cases he
            rfl
          case isFalse => exact cqFlag_of_eq hc rfl
  | createCq d prpList =>
      cases h.effect hcmd with
      | refused => exact cqFlag_of_eq hc rfl
      | createCq d prpList hok =>
          have hd : j ≠ d.cqid.toNat := by
            rintro rfl
            rw [hok.free hj.2] at hc
            cases hc
          exact cqFlag_of_eq hc (by rw [addCq_cq, if_neg hd])
      | lostCq d prpList st hst hout =>
          exact cqFlag_of_eq hc (Function.update_of_ne (by omega) ..)
  | delSq qid =>
      cases h.effect hcmd with
      | refused => exact cqFlag_of_eq hc rfl
      | delSq qid q hne hle hq =>
          rw [cqFlag, removeSq_cq, detached]
          split
          case isTrue => rw [hc, Option.map_some, Option.map_some]; rfl
          case isFalse => exact cqFlag_of_eq hc rfl

theorem processSqAdmin_cqFlag {cmd : AdminCmd} (h : Inv n s) (hj : 1 ≤ j ∧ j ≤ n.numIoQueues)
    (hc : s.cq j = some c) (hstep : processSqAdmin n s cmd now = some t) :
    cqFlag t j = flagAfter c j (.admin cmd now) := by
  obtain ⟨q, st, u, c', e, hq, -, hcmd, hc', -, rfl⟩ := processSqAdmin_cases hstep
  have hinv := incSqHead_inv h hq
  have hflag : cqFlag { u.setCq q.cqid (some (incCqTail c')) with posted := u.posted ++ [e] } =
      cqFlag u := cqFlag_incCqTail hc' rfl
  rw [hflag]
  cases cmd with
  | queue cmd => exact queueCmd_cqFlag hinv hj hc hcmd
  | abort sqid cid =>
      rcases abortReq_cases hcmd with ⟨-, rfl⟩ | ⟨-, q, slot, idx, rest, -, -, rfl⟩
      · exact cqFlag_of_eq hc rfl
      · exact cqFlag_of_eq hc rfl
  | setDbMemory valid =>
      rcases setDbMemory_cases hcmd with rfl | rfl <;> exact cqFlag_of_eq hc rfl
  | other st =>
      cases hcmd
      exact cqFlag_of_eq hc rfl

theorem processSqIo_cq {status : Status} (hstep : processSqIo n s i now status = some t) :
    t.cq = s.cq := by
  obtain ⟨q, idx, rest, hq, -, -, -, rfl⟩ := processSqIo_cases hstep
  split
  · exact enqueueFtl_cq ..
  · rfl

/-- **Step**: of the completion queues in use, only a deletion and the end of the controller
change the flag; and a deletion changes it whether it is refused or not. -/
theorem step_cqFlag (h : Inv n s) (hstep : step? n s a = some t)
    (hj : 1 ≤ j ∧ j ≤ n.numIoQueues) (hc : s.cq j = some c) :
    cqFlag t j = flagAfter c j a := by
  cases a with
  | hostSqe addr slot e =>
      cases hstep
      exact cqFlag_of_eq hc rfl
  | hostTail sqid tail =>
      obtain ⟨q, -, rfl⟩ := Option.map_eq_some_iff.mp hstep
      exact cqFlag_of_eq hc rfl
  | hostHead cqid head =>
      obtain ⟨c', hc', rfl⟩ := Option.map_eq_some_iff.mp hstep
      rw [cqFlag, QueueCtrl.setCq_cq, Function.update_apply]
      split
      case isTrue hcqid =>
        rw [← hcqid, hc] at hc'
        cases hc'
        rfl
      case isFalse => exact cqFlag_of_eq hc rfl
  | enable asqs acqs =>
      rcases startCtrl_cases hstep with rfl | ⟨-, -, -, rfl⟩
      · exact cqFlag_of_eq hc rfl
      · exact cqFlag_of_eq hc (by rw [addAdmin_cq, if_neg (by omega)])
  | disable =>
      cases hstep
      simp [cqFlag, clearCtrl, flagAfter, hj.2]
  | admin cmd now => exact processSqAdmin_cqFlag h hj hc hstep
  | enter i =>
      obtain ⟨q, c, -, -, -, rfl⟩ := enterSq_cases hstep
      exact cqFlag_of_eq hc rfl
  | fetch i now status =>
      exact cqFlag_of_eq hc (by rw [processSqIo_cq hstep])
  | leave i =>
      obtain rfl := leaveSq_cases hstep
      exact cqFlag_of_eq hc rfl
  | ftl p lat =>
      obtain ⟨r, rest, q, -, -, -, -, rfl⟩ := ftlThread_cases hstep
      exact cqFlag_of_eq hc (by rw [enqueuePoller_cq])
  | collect p =>
      rw [(collectCpl_kin hstep).flag]
      exact cqFlag_of_eq hc rfl
  | complete p r now =>
      rw [(postCpl_kin hstep).flag]
      exact cqFlag_of_eq hc rfl
  | notify p =>
      obtain ⟨-, rfl⟩ := notifyIo_cases hstep
      exact cqFlag_of_eq hc rfl

end flags

/-! ## what the host waits for -/

/-- Every request on its way can be completed, and no pass has to notify a completion queue that
is not there. -/
structure AllServed (n : QueueCfg) (s : QueueCtrl) : Prop where
  served : ∀ p, ∀ r ∈ inflight s p, Served s r
  notify : ∀ p, CanNotify n s p

theorem AllServed.passServed (h : AllServed n s) (p : Nat) : PassServed n s p where
  served r hr := by
    refine h.served p r (mem_inflight.mpr ?_)
    rcases hr with hring | hpq
    · rw [cplRing] at hring
      split at hring
      case isTrue => exact .inr (.inl hring)
      case isFalse => exact .inl hring
    · exact .inr (.inr hpq)
  notify := h.notify p

/-- A pass that has posted something has still to notify the completion queue in place `j`. -/
def Notifies (n : QueueCfg) (s : QueueCtrl) (j : Nat) : Prop :=
  s.due (n.poller j) ≠ [] ∧ j ∈ toNotify n s (n.poller j)

instance (n : QueueCfg) (s : QueueCtrl) (j : Nat) : Decidable (Notifies n s j) :=
  inferInstanceAs (Decidable (_ ∧ _))

/-- Where the step takes a completion queue away or marks it, the commands of the submission
queue with its number have ended, and no pass has still to notify a queue that goes; and a
command is taken while that completion queue is active. -/
def CqReady (n : QueueCfg) (s : QueueCtrl) : Act → Prop
  | .admin (.queue (.delCq qid)) _ =>
      qid ≠ 0 → qid.toNat ≤ n.numIoQueues → ∀ c ∈ s.cq qid.toNat,
        (s.sq qid.toNat).all (fun q => settled s q.addr) ∧
          (c.sqList = [] → ¬ Notifies n s qid.toNat)
  | .disable => ∀ j ≤ n.numIoQueues, j ≠ 0 → ¬ Notifies n s j
  | .fetch i _ status =>
      status = nvmeSuccess → hasRoom (s.toFtl (n.poller i)) → cqFlag s i = some true
  | _ => True

instance (n : QueueCfg) (s : QueueCtrl) : (a : Act) → Decidable (CqReady n s a)
  | .admin (.queue (.delCq qid)) _ =>
      inferInstanceAs (Decidable (qid ≠ 0 → qid.toNat ≤ n.numIoQueues → ∀ c ∈ s.cq qid.toNat,
        (s.sq qid.toNat).all (fun q => settled s q.addr) ∧
          (c.sqList = [] → ¬ Notifies n s qid.toNat)))
  | .disable => inferInstanceAs (Decidable (∀ j ≤ n.numIoQueues, j ≠ 0 → ¬ Notifies n s j))
  | .fetch i _ status =>
      inferInstanceAs (Decidable
        (status = nvmeSuccess → hasRoom (s.toFtl (n.poller i)) → cqFlag s i = some true))
  | .admin (.queue (.createSq _ _)) _ | .admin (.queue (.createCq _ _)) _
  | .admin (.queue (.delSq _)) _ | .admin (.abort _ _) _ | .admin (.setDbMemory _) _
  | .admin (.other _) _ | .hostSqe _ _ _ | .hostTail _ _ | .hostHead _ _ | .enable _ _ | .enter _
  | .leave _ | .ftl _ _ | .collect _ | .complete _ _ _ | .notify _ => instDecidableTrue

/-- The host and the pollers wait before a queue goes. -/
def Awaits (n : QueueCfg) (s : QueueCtrl) (a : Act) : Prop := Drained n s a ∧ CqReady n s a

instance (n : QueueCfg) (s : QueueCtrl) (a : Act) : Decidable (Awaits n s a) :=
  inferInstanceAs (Decidable (_ ∧ _))

/-! ## the requests of a step -/

/-- A command that succeeds puts its request into the ring, if there is room. -/
theorem processSqIo_inflight {status : Status} (h : Inv n s)
    (hstep : processSqIo n s i now status = some t) :
    (status = nvmeSuccess → hasRoom (s.toFtl (n.poller i)) →
        ∃ r ∈ inflight t (n.poller i), r.sqid = i) ∧
      ∀ p, ∀ r ∈ inflight t p, r ∈ inflight s p ∨
        r.sqid = i ∧ status = nvmeSuccess ∧ hasRoom (s.toFtl (n.poller i)) := by
  obtain ⟨q, idx, rest, hq, -, -, -, rfl⟩ := processSqIo_cases hstep
  have hsqid := h.flow.sqid_eq i q hq
  by_cases hok : status = nvmeSuccess ∧ hasRoom (s.toFtl (n.poller i))
  case pos =>
    obtain ⟨hst, hroom⟩ := hok
    have hring : hasRoom ((takeReq s i now status q idx rest).toFtl (n.poller i)) := hroom
    rw [if_pos hst, enqueueFtl, if_pos hring]
    constructor
    · intro _ _
      refine ⟨⟨q.addr, q.sqid, idx⟩, ?_, hsqid⟩
      rw [inflight_pushFtl, if_pos rfl]
      exact Multiset.mem_cons_self _ _
    · intro p r hr
      rw [inflight_pushFtl] at hr
      split at hr
      case isTrue =>
        rcases Multiset.mem_cons.mp hr with rfl | hr
        · exact .inr ⟨hsqid, hst, hroom⟩
        · exact .inl hr
      case isFalse => exact .inl hr
  case neg =>
    refine ⟨fun hst hroom => absurd ⟨hst, hroom⟩ hok, fun p r hr => .inl ?_⟩
    split at hr
    case isTrue hst =>
      have hring : ¬ hasRoom ((takeReq s i now status q idx rest).toFtl (n.poller i)) :=
        fun hroom => hok ⟨hst, hroom⟩
      rw [enqueueFtl, if_neg hring] at hr
      exact hr
    case isFalse => exact hr

theorem toNotify_congr (h : t.shouldIsr = s.shouldIsr) : toNotify n t p = toNotify n s p := by
  rw [toNotify, toNotify, h]

/-! ## every step -/

/-- A flag changes with a deletion of the queue or with the end of the controller. -/
theorem flagAfter_cases (c : NvmeCQueue) (j : Nat) (a : Act) :
    flagAfter c j a = some c.isActive ∨
      (∃ qid now, a = .admin (.queue (.delCq qid)) now ∧ qid.toNat = j ∧
        (c.sqList = [] ∨ flagAfter c j a ≠ none)) ∨
      a = .disable := by
  unfold flagAfter
  split
  case h_1 qid now =>
    split
    case isTrue hqid =>
      refine .inr (.inl ⟨qid, now, rfl, hqid, ?_⟩)
      split <;> simp_all
    case isFalse => exact .inl rfl
  case h_2 => exact .inr (.inr rfl)
  case h_3 => exact .inl rfl

theorem step_served (h : Inv n s) (hs : AllServed n s) (hstep : step? n s a = some t)
    (hawaits : Awaits n s a) (hr : r ∈ inflight t p) : Served t r := by
  obtain ⟨hdrained, hready⟩ := hawaits
  have hlive : RequestsLive s := fun p r hr => queue?_ne_none.mpr (hs.served p r hr).live
  have hhold : Holds t r.sqid r.addr :=
    queue?_ne_none.mp (step_requestsLive h hlive hstep hdrained p r hr)
  have hrange := (step_inv h hstep).flow.flight_range p r hr
  refine ⟨hhold, ?_⟩
  -- the completion queue before the step
  have hbefore : cqFlag s r.sqid = some true ∧
      ∀ qid now, a = .admin (.queue (.delCq qid)) now → r ∈ inflight s p := by
    by_cases hfetch : ∃ i now status, a = .fetch i now status
    case pos =>
      obtain ⟨i, now, status, rfl⟩ := hfetch
      refine ⟨?_, fun qid now ha => by cases ha⟩
      rcases (processSqIo_inflight h hstep).2 p r hr with hin | ⟨rfl, hst, hroom⟩
      · exact (hs.served p r hin).active
      · exact hready hst hroom
    case neg =>
      have hin := Multiset.mem_of_le (step_inflight_le h hstep hfetch p) hr
      exact ⟨(hs.served p r hin).active, fun _ _ _ => hin⟩
  obtain ⟨hactive, hold⟩ := hbefore
  obtain ⟨c, hc, hact⟩ := cqFlag_eq_some.mp hactive
  have hflag := step_cqFlag h hstep hrange hc
  rcases flagAfter_cases c r.sqid a with hsame | ⟨qid, now, rfl, hqid, -⟩ | rfl
  · rw [hflag, hsame, hact]
  · -- the submission queue has no request on its way
    exfalso
    have hin := hold qid now rfl
    obtain ⟨q, hq, haddr⟩ := (hs.served p r hin).live
    have hne : qid ≠ 0 := by
      rintro rfl
      exact absurd (hqid ▸ hrange.1) (by decide)
    have hsettled := (hready hne (hqid ▸ hrange.2) c (hqid ▸ hc)).1
    rw [hqid, hq, Option.all_some] at hsettled
    exact (settled_iff h (by omega) hq).mp hsettled p r hin haddr.symm
  · -- no submission queue is left
    exfalso
    obtain ⟨q, hq, -⟩ := hhold
    cases hstep
    simp [clearCtrl, hrange.2] at hq

theorem step_canNotify (h : Inv n s) (hflags : PassInv n s) (hs : AllServed n s)
    (hstep : step? n s a = some t) (hready : CqReady n s a) : CanNotify n t p := by
  have ht := step_passInv h hflags hstep
  by_cases hcomplete : ∃ p r now, a = .complete p r now
  · obtain ⟨p', r, now, rfl⟩ := hcomplete
    obtain ⟨hmem, -⟩ := postCpl_lists (n := n) hstep
    exact postCpl_canNotify h hflags (hs.served p' r (mem_inflight.mpr (.inr (.inr hmem))))
      (hs.notify p) hstep
  intro hdue j hj
  obtain ⟨hrange, hp⟩ := ht.toNotify hdue hj
  by_cases hnotify : ∃ p, a = .notify p
  · obtain ⟨p', rfl⟩ := hnotify
    obtain ⟨hdue', rfl⟩ := notifyIo_cases hstep
    have hne : p ≠ p' := by
      rintro rfl
      simp at hdue
    refine hs.notify p (by simpa [Function.update_of_ne hne] using hdue) j ?_
    rw [mem_toNotify] at hj ⊢
    split at hj
    case isTrue hmulti => rwa [if_pos hmulti]
    case isFalse =>
      -- the one poller has no flag left
      simp [hrange.1, hrange.2] at hj
  · obtain ⟨hdue', hisr⟩ := step_due h hstep (fun p r now ha => hcomplete ⟨p, r, now, ha⟩)
      fun p ha => hnotify ⟨p, ha⟩
    rw [hdue'] at hdue
    rw [toNotify_congr hisr] at hj
    have hnotifies : Notifies n s j := ⟨hp ▸ hdue, hp ▸ hj⟩
    obtain ⟨b, hb⟩ := Option.ne_none_iff_exists'.mp (hs.notify p hdue j hj)
    obtain ⟨c, hc, -⟩ := cqFlag_eq_some.mp hb
    rw [step_cqFlag h hstep hrange hc]
    rcases flagAfter_cases c j a with hsame | ⟨qid, now, rfl, rfl, hnone | hstays⟩ | rfl
    · rw [hsame]
      exact Option.some_ne_none _
    · have hne : qid ≠ 0 := by
        rintro rfl
        exact absurd hrange.1 (by decide)
      exact absurd hnotifies ((hready hne hrange.2 c hc).2 hnone)
    · exact hstays
    · exact absurd hnotifies (hready j hrange.2 (by omega))

theorem step_allServed (h : Inv n s) (hflags : PassInv n s) (hs : AllServed n s)
    (hstep : step? n s a = some t) (hawaits : Awaits n s a) : AllServed n t where
  served _ _ hr := step_served h hs hstep hawaits hr
  notify _ := step_canNotify h hflags hs hstep hawaits.2

/-- What is served after the step keeps the requests of each queue that goes from being on
their way. -/
theorem freesIdle_of_allServed (h : Inv n s)
    (hin : ∀ p, inflight t p = inflight s p) (ht : AllServed n t) : FreesIdle s t := by
  rintro i addr ⟨q, hq, rfl⟩ hgone p r hr haddr
  have hi := h.flow.flight_sqid p r hr i q hq haddr.symm
  have hlive := (ht.served p r (hin p ▸ hr)).live
  rw [hi, haddr] at hlive
  exact hgone hlive

theorem delCq_ready {qid : UInt16} (h : Inv n s)
    (hstep : step? n s (.admin (.queue (.delCq qid)) now) = some t) (ht : AllServed n t) :
    CqReady n s (.admin (.queue (.delCq qid)) now) := by
  intro hne hle c hc
  obtain ⟨hin, hdue, hisr⟩ := processSqAdmin_rest h hstep
  have hpos : qid.toNat ≠ 0 := fun h0 => hne (UInt16.toNat_inj.mp h0)
  have hflag := step_cqFlag h hstep ⟨Nat.pos_of_ne_zero hpos, hle⟩ hc
  rw [flagAfter, if_pos rfl] at hflag
  constructor
  · rw [Option.all_eq_true]
    intro q hq
    refine (settled_iff h hpos hq).mpr fun p r hr haddr => ?_
    have hsqid := h.flow.flight_sqid p r hr _ q hq haddr.symm
    have hactive := (ht.served p r (hin p ▸ hr)).active
    rw [hsqid, hflag] at hactive
    split at hactive <;> cases hactive
  · rintro hnone ⟨hd, hj⟩
    rw [if_pos hnone] at hflag
    refine ht.notify _ (hdue ▸ hd) _ ?_ hflag
    rwa [toNotify_congr hisr]

theorem awaits_of_allServed (h : Inv n s)
    (hstep : step? n s a = some t) (ht : AllServed n t) : Awaits n s a := by
  cases a with
  | admin cmd now =>
      have hin := (processSqAdmin_rest h hstep).1
      refine ⟨(freesIdle_iff h hstep).mp (freesIdle_of_allServed h hin ht), ?_⟩
      cases cmd with
      | queue cmd =>
          cases cmd with
          | delCq qid => exact delCq_ready h hstep ht
          | _ => trivial
      | _ => trivial
  | disable =>
      have hclear : t = clearCtrl n s := (Option.some.inj hstep).symm
      have hin : ∀ p, inflight t p = inflight s p := fun p => by rw [hclear]; rfl
      refine ⟨(freesIdle_iff h hstep).mp (freesIdle_of_allServed h hin ht), ?_⟩
      rintro j hle - ⟨hdue, hj⟩
      subst hclear
      exact ht.notify _ hdue j hj (by simp [cqFlag, clearCtrl, hle])
  | fetch i now status =>
      refine ⟨trivial, fun hst hroom => ?_⟩
      obtain ⟨r, hr, rfl⟩ := (processSqIo_inflight h hstep).1 hst hroom
      have hactive := (ht.served _ r hr).active
      rwa [cqFlag, processSqIo_cq hstep] at hactive
  | _ => exact ⟨trivial, trivial⟩

/-- **Step**: what is served stays so exactly when the step waits. -/
theorem step_allServed_iff (h : Inv n s) (hflags : PassInv n s) (hs : AllServed n s)
    (hstep : step? n s a = some t) : AllServed n t ↔ Awaits n s a :=
  ⟨awaits_of_allServed h hstep, step_allServed h hflags hs hstep⟩

/-! ## every run -/

theorem reset_allServed : AllServed n .reset := by
  constructor
  case served => simp [inflight, QueueCtrl.reset]
  case notify =>
    intro p hdue
    exact absurd rfl hdue

end Femu.Queue

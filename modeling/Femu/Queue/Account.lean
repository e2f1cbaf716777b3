import Femu.Queue.Flow

/-!
# Femu.Queue.Account

One completion for each command. A command whose request is not lost on the way has its
completion posted once, and the request goes back to the free list. Three branches of the
code lose the request: a command that `nvme_io_cmd` fails is not completed at all, a
request that does not fit into a ring is left to itself, and `nvme_abort_req` moves a free
request to `out_req_list`, which nothing takes it from.
-/

namespace Femu.Queue

open Nvme Lib

variable {n : QueueCfg} {s t : QueueCtrl} {i now : Nat} {q q' : NvmeSQueue} {r : ReqId} {a : Act}

/-- Every request of the queue is in one place, and the ids of the commands taken from the
queue are those completed and those on their way. -/
structure Accounted (n : QueueCfg) (s : QueueCtrl) (q : NvmeSQueue) : Prop where
  once : ∀ idx < q.size,
    q.reqList.count idx + (s.toFtl (n.poller q.sqid)).count ⟨q.addr, q.sqid, idx⟩ +
      (s.toPoller (n.poller q.sqid)).count ⟨q.addr, q.sqid, idx⟩ +
      (s.pq (n.poller q.sqid)).count ⟨q.addr, q.sqid, idx⟩ = 1
  elsewhere : ∀ p, p ≠ n.poller q.sqid → ∀ r ∈ inflight s p, r.addr ≠ q.addr
  ids : ((s.fetched.filter (·.addr = q.addr)).map Fetched.cid : Multiset UInt16) =
    ((s.posted.filter (·.addr = q.addr)).map Posted.cid : Multiset UInt16) +
      (outstanding n s q.addr q.sqid).map fun r => (s.req r).cid

/-- The requests on their way are told apart by their index. -/
theorem count_flight (h : Inv n s) (hq : s.sq i = some q) (idx : Nat) :
    ((ledger n s q).flight.map Prod.fst).count idx =
      (s.toFtl (n.poller q.sqid)).count ⟨q.addr, q.sqid, idx⟩ +
        (s.toPoller (n.poller q.sqid)).count ⟨q.addr, q.sqid, idx⟩ +
        (s.pq (n.poller q.sqid)).count ⟨q.addr, q.sqid, idx⟩ := by
  have hsqid := h.flow.sqid_eq i q hq
  have hsame : ∀ r ∈ inflight s (n.poller q.sqid),
      idx = r.idx ∧ r.addr = q.addr ↔ ReqId.mk q.addr q.sqid idx = r := by
    intro r hr
    constructor
    · rintro ⟨rfl, haddr⟩
      have hr' := h.flow.flight_sqid _ r hr i q hq haddr.symm
      rw [hsqid, ← hr', ← haddr]
    · rintro rfl
      exact ⟨rfl, rfl⟩
  calc ((ledger n s q).flight.map Prod.fst).count idx
      = ((outstanding n s q.addr q.sqid).map ReqId.idx).count idx := by
        simp only [ledger, Multiset.map_map]
        rfl
    _ = (inflight s (n.poller q.sqid)).count ⟨q.addr, q.sqid, idx⟩ := by
        rw [Multiset.count_map, outstanding, Multiset.filter_filter,
          Multiset.count_eq_card_filter_eq, Multiset.filter_congr hsame]
    _ = _ := by
        simp only [inflight, Multiset.count_add, Multiset.coe_count]

/-- The requests of a queue are accounted for as long as none was set aside or lost. -/
theorem accounted_iff (h : Inv n s) (hi : i ≠ 0) (hq : s.sq i = some q) :
    Accounted n s q ↔ q.outReqList = [] ∧ s.dropped.filter (·.addr = q.addr) = [] := by
  have hbal := h.flow.balanced i q hi hq
  have hcount : ∀ idx < q.size, q.reqList.count idx + q.outReqList.count idx +
      ((ledger n s q).flight.map Prod.fst).count idx +
      ((ledger n s q).lost.map Prod.fst).count idx = 1 := by
    intro idx hidx
    have htokens := congrArg (Multiset.count idx) hbal.tokens
    rw [Multiset.count_eq_one_of_mem (Multiset.nodup_range _) (Multiset.mem_range.mpr hidx)]
      at htokens
    simpa only [Multiset.count_add, ledger, Multiset.coe_count] using htokens
  have hids : (ledger n s q).taken = (ledger n s q).given + (ledger n s q).flight.map Prod.snd ↔
      ((s.fetched.filter (·.addr = q.addr)).map Fetched.cid : Multiset UInt16) =
        ((s.posted.filter (·.addr = q.addr)).map Posted.cid : Multiset UInt16) +
          (outstanding n s q.addr q.sqid).map fun r => (s.req r).cid := by
    simp only [ledger, Multiset.map_map, Function.comp_def]
  have haside : (ledger n s q).aside = 0 ↔ q.outReqList = [] := Multiset.coe_eq_zero q.outReqList
  have hlost : (ledger n s q).lost = 0 ↔ s.dropped.filter (·.addr = q.addr) = [] := by
    simp only [ledger, Multiset.coe_eq_zero, List.map_eq_nil_iff]
  constructor
  · rintro ⟨honce, -, htags⟩
    have hcard := congrArg Multiset.card (hbal.tags.symm.trans (hids.mpr htags))
    simp only [Multiset.card_add, Multiset.card_map] at hcard
    have hlost0 : (ledger n s q).lost = 0 := Multiset.card_eq_zero.mp (by omega)
    refine ⟨?_, hlost.mp hlost0⟩
    by_contra hne
    obtain ⟨idx, hidx⟩ := List.exists_mem_of_ne_nil _ hne
    have hlt : idx < q.size := by
      rw [← Multiset.mem_range, ← hbal.tokens]
      simp [ledger, hidx]
    have hpos : 0 < q.outReqList.count idx := List.count_pos_iff.mpr hidx
    have hsum := hcount idx hlt
    have hone := honce idx hlt
    rw [count_flight h hq] at hsum
    omega
  · rintro ⟨hout, hdrop⟩
    obtain ⟨-, htags⟩ := hbal.exact_iff.mpr ⟨haside.mpr hout, hlost.mpr hdrop⟩
    refine ⟨fun idx hidx => ?_, fun p hp r hr haddr => ?_, hids.mp htags⟩
    · have hsum := hcount idx hidx
      rw [hout, hlost.mpr hdrop, count_flight h hq] at hsum
      simp only [List.count_nil, Multiset.map_zero, Multiset.count_zero] at hsum
      omega
    · have hsqid := h.flow.sqid_eq i q hq
      have hr' := h.flow.flight_sqid p r hr i q hq haddr.symm
      exact hp (by rw [h.flow.flight_poller p r hr, hr', hsqid])

/-! ## runs that lose nothing -/

/-- A step that leaves a request to itself: the command taken fails, or the ring is full. -/
def Drops (n : QueueCfg) (s : QueueCtrl) : Act → Prop
  | .fetch i _ status => ¬ (status = nvmeSuccess ∧ hasRoom (s.toFtl (n.poller i)))
  | .ftl p _ => ¬ hasRoom (s.toPoller p)
  | _ => False

/-- A step that loses no request of an I/O queue: each command that is taken succeeds, the
rings have room, and no abort finds its command. -/
def Kept (n : QueueCfg) (s : QueueCtrl) : Act → Prop
  | .fetch i _ status => status = nvmeSuccess ∧ hasRoom (s.toFtl (n.poller i))
  | .ftl p _ => hasRoom (s.toPoller p)
  | .admin (.abort sqid cid) _ => sqid ≠ 0 → ¬ abortFinds n s sqid cid
  | _ => True

instance (n : QueueCfg) (s : QueueCtrl) (a : Act) : Decidable (Kept n s a) := by
  unfold Kept
  split <;> infer_instance

theorem kept_iff : Kept n s a ↔ ¬ Drops n s a ∧ ∀ i, i ≠ 0 → ¬ Aborts n s i a := by
  cases a with
  | admin cmd now =>
      cases cmd with
      | abort sqid cid =>
          have hzero : sqid = 0 ↔ sqid.toNat = 0 := UInt16.toNat_inj.symm
          simp only [Kept, Drops, Aborts, not_false_eq_true, true_and, not_and, Ne, hzero]
          grind
      | queue cmd => simp [Kept, Drops, Aborts]
      | setDbMemory valid => simp [Kept, Drops, Aborts]
      | other st => simp [Kept, Drops, Aborts]
  | _ => simp [Kept, Drops, Aborts]

/-- A dropped request is one of a live I/O queue. -/
theorem step_dropped (h : Inv n s) (hstep : step? n s a = some t) :
    (¬ Drops n s a ∧ t.dropped = s.dropped) ∨
      Drops n s a ∧ ∃ i q d, i ≠ 0 ∧ t.sq i = some q ∧ d.addr = q.addr ∧
        t.dropped = s.dropped ++ [d] := by
  cases a with
  | hostSqe addr slot e =>
      cases hstep
      exact .inl ⟨id, rfl⟩
  | hostTail sqid tail =>
      obtain ⟨q, -, rfl⟩ := Option.map_eq_some_iff.mp hstep
      exact .inl ⟨id, rfl⟩
  | hostHead cqid head =>
      obtain ⟨c, -, rfl⟩ := Option.map_eq_some_iff.mp hstep
      exact .inl ⟨id, rfl⟩
  | enable asqs acqs =>
      rcases startCtrl_cases hstep with rfl | ⟨-, -, -, rfl⟩ <;> exact .inl ⟨id, rfl⟩
  | disable =>
      cases hstep
      exact .inl ⟨id, rfl⟩
  | admin cmd now =>
      obtain ⟨q, st, u, c, e, hq, -, hcmd, -, -, rfl⟩ := processSqAdmin_cases hstep
      exact .inl ⟨id, (adminCmd_rest (incSqHead_inv h hq) hcmd).dropped⟩
  | enter i =>
      obtain ⟨q, c, -, -, -, rfl⟩ := enterSq_cases hstep
      exact .inl ⟨id, rfl⟩
  | fetch i now status =>
      obtain ⟨q, idx, rest, hq, hserving, -, -, rfl⟩ := processSqIo_cases hstep
      have hrange := h.flow.serving_range i _ hserving
      have hdrop : ∃ j q' d, j ≠ 0 ∧
          (dropReq (takeReq s i now status q idx rest) ⟨q.addr, q.sqid, idx⟩).sq j = some q' ∧
          d.addr = q'.addr ∧
          (dropReq (takeReq s i now status q idx rest) ⟨q.addr, q.sqid, idx⟩).dropped =
            s.dropped ++ [d] :=
        ⟨i, { incSqHead q with reqList := rest }, _, by omega, Function.update_self .., rfl, rfl⟩
      simp only [Drops, enqueueFtl]
      split
      case isTrue hok =>
        split
        case isTrue hroom => exact .inl ⟨not_not.mpr ⟨hok, hroom⟩, rfl⟩
        case isFalse hroom => exact .inr ⟨fun hboth => hroom hboth.2, hdrop⟩
      case isFalse hok => exact .inr ⟨fun hboth => hok hboth.1, hdrop⟩
  | leave i =>
      obtain rfl := leaveSq_cases hstep
      exact .inl ⟨id, rfl⟩
  | ftl p lat =>
      obtain ⟨r, rest, q, hring, -, hq, haddr, rfl⟩ := ftlThread_cases hstep
      have hin : r ∈ inflight s p := by
        simp [inflight, hring]
      have hrange := h.flow.flight_range p r hin
      simp only [Drops, enqueuePoller]
      split
      case isTrue hroom => exact .inl ⟨not_not.mpr hroom, rfl⟩
      case isFalse hroom =>
        exact .inr ⟨hroom, r.sqid, q, _, by omega, hq, haddr.symm, rfl⟩
  | collect p =>
      obtain ⟨r, rest, -, rfl⟩ := collectCpl_cases hstep
      exact .inl ⟨id, rfl⟩
  | complete p r now =>
      obtain ⟨q, c, e, -, -, -, -, -, -, rfl⟩ := postCpl_cases hstep
      exact .inl ⟨id, rfl⟩
  | notify p =>
      obtain ⟨-, rfl⟩ := notifyIo_cases hstep
      exact .inl ⟨id, rfl⟩

/-- No request of an I/O queue has been lost or set aside. -/
structure NoLoss (s : QueueCtrl) : Prop where
  dropped : s.dropped = []
  outReqList : ∀ i q, i ≠ 0 → s.sq i = some q → q.outReqList = []

theorem step_noLoss (h : Inv n s) (hno : NoLoss s) (hstep : step? n s a = some t)
    (hkept : Kept n s a) : NoLoss t := by
  obtain ⟨hdrops, haborts⟩ := kept_iff.mp hkept
  constructor
  · rcases step_dropped h hstep with ⟨-, heq⟩ | ⟨hyes, -⟩
    · rw [heq, hno.dropped]
    · exact absurd hyes hdrops
  · intro i q' hi hq'
    rcases step_sq h hstep hi hq' with ⟨q, hq, -, ⟨heq, -⟩ | ⟨-, hyes⟩⟩ | hnew
    · rw [heq, hno.outReqList i q hi hq]
    · exact absurd hyes (haborts i hi)
    · unfold Creates at hnew
      split at hnew
      · rw [hnew.2]
        rfl
      · cases hnew

theorem accounted_of_noLoss (h : Inv n s) (hno : NoLoss s) (hi : i ≠ 0) (hq : s.sq i = some q) :
    Accounted n s q :=
  (accounted_iff h hi hq).mpr ⟨hno.outReqList i q hi hq, by rw [hno.dropped]; rfl⟩

/-- An abort that finds its command leaves the submission queue live. -/
theorem aborts_live (hstep : step? n s a = some t) (habort : Aborts n s i a) (hi : i ≠ 0) :
    ∃ q, t.sq i = some q := by
  unfold Aborts at habort
  split at habort
  case h_2 => cases habort
  case h_1 sqid cid now =>
    obtain ⟨rfl, hfinds⟩ := habort
    obtain ⟨q₀, st, u, c, e, hq₀, -, hcmd, -, -, rfl⟩ := processSqAdmin_cases hstep
    have heq : abortFinds n (s.setSq 0 (some (incSqHead q₀))) sqid cid = abortFinds n s sqid cid :=
      abortFinds_congr rfl (Function.update_of_ne hi ..)
    rcases abortReq_cases hcmd with ⟨hno, -⟩ | ⟨-, q, slot, idx, rest, -, -, rfl⟩
    · exact absurd (heq.trans hfinds) hno
    · exact ⟨_, by rw [QueueCtrl.setCq_sq, setAsideReq_sq, if_pos rfl]⟩

/-- A step that loses a request breaks the account of a live queue. -/
theorem not_accounted (h : Inv n s) (hstep : step? n s a = some t) (hkept : ¬ Kept n s a) :
    ∃ i q, i ≠ 0 ∧ t.sq i = some q ∧ ¬ Accounted n t q := by
  have ht := step_inv h hstep
  by_cases hdrops : Drops n s a
  case pos =>
    rcases step_dropped h hstep with ⟨hno, -⟩ | ⟨-, i, q, d, hi, hq, hd, heq⟩
    · exact absurd hdrops hno
    · refine ⟨i, q, hi, hq, fun hacc => ?_⟩
      have hnil := ((accounted_iff ht hi hq).mp hacc).2
      rw [heq, List.filter_append, List.filter_cons_of_pos (by simp [hd])] at hnil
      simp at hnil
  case neg =>
    have haborts : ∃ i, i ≠ 0 ∧ Aborts n s i a := by
      by_contra hno
      exact hkept (kept_iff.mpr ⟨hdrops, fun i hi habort => hno ⟨i, hi, habort⟩⟩)
    obtain ⟨i, hi, habort⟩ := haborts
    obtain ⟨q', hq'⟩ := aborts_live hstep habort hi
    refine ⟨i, q', hi, hq', fun hacc => ?_⟩
    have hnil := ((accounted_iff ht hi hq').mp hacc).1
    rcases step_sq h hstep hi hq' with ⟨q, -, -, ⟨-, hno⟩ | ⟨hout, -⟩⟩ | hnew
    · exact hno habort
    · exact hout hnil
    · unfold Aborts at habort
      split at habort
      · exact hnew
      · exact habort

/-- **Exactly one completion**: in a run whose steps lose no request, every request of a live
I/O queue is in one place, and the commands taken from the queue are those completed and
those on their way; and a step breaks this for a live queue exactly when it loses a
request. -/
theorem exactly_once {acts : List Act}
    (hrun : Run (fun s a t => Kept n s a ∧ step? n s a = some t) .reset acts s) :
    (∀ i q, i ≠ 0 → s.sq i = some q → Accounted n s q) ∧
      ∀ a t, step? n s a = some t →
        ((∀ i q, i ≠ 0 → t.sq i = some q → Accounted n t q) ↔ Kept n s a) := by
  have hinv : Inv n s := run_inv (fun s a t ha => ha.2) hrun
  have hno : NoLoss s := by
    have hboth : Inv n s ∧ NoLoss s := by
      refine hrun.invariant (I := fun s => Inv n s ∧ NoLoss s) ?_ ⟨reset_inv, ⟨rfl, ?_⟩⟩
      · rintro s a t ⟨hs, hno⟩ ⟨hkept, hstep⟩
        exact ⟨step_inv hs hstep, step_noLoss hs hno hstep hkept⟩
      · rintro i q - hq
        cases hq
    exact hboth.2
  refine ⟨fun i q => accounted_of_noLoss hinv hno, fun a t hstep => ⟨fun hall => ?_, fun hkept => ?_⟩⟩
  · by_contra hkept
    obtain ⟨i, q, hi, hq, hnot⟩ := not_accounted hinv hstep hkept
    exact hnot (hall i q hi hq)
  · exact fun i q => accounted_of_noLoss (step_inv hinv hstep) (step_noLoss hinv hno hstep hkept)

/-- The host starts the controller, makes a pair of I/O queues and starts the pollers. -/
def startUp : List Act :=
  [.enable 31 31, .hostTail 0 3, .admin (.queue (makeCq 1 7)) 0, .admin (.queue (makeSq 1 1 3)) 0,
    .admin (.setDbMemory true) 0]

/-- The host submits a command, and a poller takes it. -/
def submit (status : Status) : List Act :=
  [.hostSqe 3 0 ⟨1, 42⟩, .hostTail 1 1, .enter 1, .fetch 1 5 status]

theorem exactly_once_small :
    ∃ s q, Run (fun s a t => Kept onePair s a ∧ step? onePair s a = some t) .reset
      (startUp ++ submit nvmeSuccess ++ [.ftl 1 10, .collect 1, .complete 1 ⟨3, 1, 0⟩ 20, .notify 1]) s ∧
      s.posted.map (·.cid) = [0, 0, 0, 42] ∧ s.sq 1 = some q ∧ Accounted onePair s q := by
  have hends : (exec (allowed (Kept onePair) (step? onePair))
      (startUp ++ submit nvmeSuccess ++ [.ftl 1 10, .collect 1, .complete 1 ⟨3, 1, 0⟩ 20, .notify 1])
      .reset).map (fun s => (s.posted.map (·.cid), (s.sq 1).isSome)) =
        some ([0, 0, 0, 42], true) := by decide +kernel
  obtain ⟨s, hs, heq⟩ := Option.map_eq_some_iff.mp hends
  simp only [Prod.mk.injEq] at heq
  obtain ⟨hposted, hlive⟩ := heq
  obtain ⟨q, hq⟩ := Option.isSome_iff_exists.mp hlive
  have hrun := run_of_exec_allowed hs
  exact ⟨s, q, hrun, hposted, hq, (exactly_once hrun).1 1 q (by decide) hq⟩

/-- A command that fails is not completed, and its request is gone. -/
theorem failed_not_completed :
    ∃ s q, Run (fun s a t => step? onePair s a = some t) .reset
      (startUp ++ submit (nvmeLbaRange ||| nvmeDnr) ++ [.leave 1]) s ∧
      s.sq 1 = some q ∧ q.reqList = [1, 2, 3] ∧ inflight s 1 = 0 ∧ ¬ Accounted onePair s q := by
  have hends : (exec (step? onePair) (startUp ++ submit (nvmeLbaRange ||| nvmeDnr) ++ [.leave 1])
      .reset).map (fun s => decide ((s.sq 1).map (·.reqList) = some [1, 2, 3] ∧
        (s.sq 1).map (·.addr) = some 3 ∧ s.dropped = [⟨3, 0, 42⟩] ∧
        s.toFtl 1 = [] ∧ s.toPoller 1 = [] ∧ s.pq 1 = [])) = some true := by decide +kernel
  obtain ⟨s, hs, heq⟩ := Option.map_eq_some_iff.mp hends
  obtain ⟨hlist, haddr, hdropped, hftl, hpoller, hpq⟩ := of_decide_eq_true heq
  obtain ⟨q, hq, hreq⟩ := Option.map_eq_some_iff.mp hlist
  have hqaddr : q.addr = 3 := by simpa [hq] using haddr
  have hrun := run_of_exec hs
  have hinv : Inv onePair s := run_inv (fun s a t ha => ha) hrun
  refine ⟨s, q, hrun, hq, hreq, by simp [inflight, hftl, hpoller, hpq], fun hacc => ?_⟩
  have hnil := ((accounted_iff hinv (by decide) hq).mp hacc).2
  simp [hdropped, hqaddr] at hnil

end Femu.Queue

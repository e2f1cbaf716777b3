import Femu.Queue.Account

/-!
# Femu.Queue.Lifetime

Requests and the submission queues they belong to. `nvme_free_sq` frees the requests of a
queue with it. Before that `nvme_del_sq` takes back the requests in the list of the
completion queue, which is always empty, and `nvme_clear_ctrl` takes back none; the rings
and the priority queues of the pollers keep what they hold. So the requests outlive their
queue unless the host lets every command end before it deletes the queue or disables the
controller.
-/

namespace Femu.Queue

open Nvme Lib

variable {n : QueueCfg} {s t : QueueCtrl} {i p p' now : Nat} {q : NvmeSQueue} {r r' : ReqId} {a : Act}

/-- No request of the submission queue at `addr` is in a ring or a priority queue. -/
def Idle (s : QueueCtrl) (addr : Nat) : Prop := ∀ p, ∀ r ∈ inflight s p, r.addr ≠ addr

/-- Every command taken from the submission queue at `addr` has been completed, or its
request was lost. -/
def settled (s : QueueCtrl) (addr : Nat) : Bool :=
  s.fetched.countP (·.addr = addr) =
    s.posted.countP (·.addr = addr) + s.dropped.countP (·.addr = addr)

theorem idle_iff_outstanding (h : Inv n s) (hq : s.sq i = some q) :
    Idle s q.addr ↔ outstanding n s q.addr q.sqid = 0 := by
  rw [outstanding, Multiset.filter_eq_nil]
  constructor
  · intro hidle r hr
    exact hidle _ r hr
  · intro hnone p r hr haddr
    have hsqid : r.sqid = q.sqid :=
      (h.flow.flight_sqid p r hr i q hq haddr.symm).trans (h.flow.sqid_eq i q hq).symm
    have hp := h.flow.flight_poller p r hr
    rw [hp, hsqid] at hr
    exact hnone r hr haddr

/-- The logs tell whether a queue is idle. -/
theorem settled_iff (h : Inv n s) (hi : i ≠ 0) (hq : s.sq i = some q) :
    settled s q.addr ↔ Idle s q.addr := by
  have hbal := (h.flow.balanced i q hi hq).flight_eq_zero_iff
  simp only [ledger, Multiset.coe_card, List.length_map, ← List.countP_eq_length_filter,
    Multiset.map_eq_zero] at hbal
  rw [idle_iff_outstanding h hq, hbal, settled, decide_eq_true_iff]

/-- A number that no request has. -/
theorem idle_of_range (h : Inv n s) (hq : s.sq i = some q) (hi : i = 0 ∨ n.numIoQueues < i) :
    Idle s q.addr := by
  intro p r hr haddr
  have hsqid := h.flow.flight_sqid p r hr i q hq haddr.symm
  have hrange := h.flow.flight_range p r hr
  omega

/-! ## what frees a queue -/

/-- A step that takes the submission queue out of place `i`. -/
def Removes (n : QueueCfg) (i : Nat) : Act → Prop
  | .admin (.queue (.delSq qid)) _ => qid ≠ 0 ∧ qid.toNat = i ∧ i ≤ n.numIoQueues
  | .admin (.queue (.createSq c _)) _ => c.sqid.toNat = i ∧ n.numIoQueues < i
  | .disable => i ≤ n.numIoQueues
  | _ => False

/-- The submission queue in place `i` is the object at `addr`. -/
def Holds (s : QueueCtrl) (i addr : Nat) : Prop := ∃ q, s.sq i = some q ∧ q.addr = addr

theorem Holds.put {addr j : Nat} {q₀ q₁ : NvmeSQueue} (h : Holds s i addr) (hq₀ : s.sq j = some q₀)
    (ht : t.sq = Function.update s.sq j (some q₁)) (haddr : q₁.addr = q₀.addr) :
    Holds t i addr := by
  obtain ⟨q, hq, rfl⟩ := h
  by_cases hij : i = j
  · subst hij
    rw [hq] at hq₀
    cases hq₀
    exact ⟨q₁, by rw [ht, Function.update_self], haddr⟩
  · exact ⟨q, by rw [ht, Function.update_of_ne hij, hq], rfl⟩

theorem Holds.same {addr : Nat} (h : Holds s i addr) (ht : t.sq = s.sq) : Holds t i addr := by
  obtain ⟨q, hq, rfl⟩ := h
  exact ⟨q, by rw [ht, hq], rfl⟩

theorem queueCmd_holds {cmd : QueueCmd} {st : Status} {addr : Nat} (h : Inv n s)
    (hcmd : queueCmd n s now cmd = some (st, t)) (hold : Holds s i addr) :
    Holds t i addr ∨ Removes n i (.admin (.queue cmd) now) := by
  obtain ⟨q, hq, rfl⟩ := id hold
  cases h.effect hcmd with
  | refused | createCq | lostCq | retireCq | delCq => exact .inl hold
  | createSq c prpList e hok he =>
      by_cases hi : i = c.sqid.toNat
      · subst hi
        -- the check of a number in range finds the queue
        refine .inr ⟨rfl, Nat.lt_of_not_le fun hle => ?_⟩
        rw [hok.free hle] at hq
        cases hq
      · exact .inl ⟨q, by rw [addSq_sq, if_neg hi, hq], rfl⟩
  | delSq qid q₀ hne hle hq₀ =>
      have hsqid := h.flow.sqid_eq _ _ hq₀
      by_cases hi : i = qid.toNat
      · exact .inr ⟨hne, hi.symm, hi ▸ hle⟩
      · exact .inl ⟨q, by rw [removeSq_sq, hsqid, if_neg hi, hq], rfl⟩

/-- A submission queue stays in its place until a step takes it out. -/
theorem step_holds {addr : Nat} (h : Inv n s) (hstep : step? n s a = some t)
    (hold : Holds s i addr) : Holds t i addr ∨ Removes n i a := by
  cases a with
  | hostSqe addr slot e =>
      cases hstep
      exact .inl hold
  | hostTail sqid tail =>
      obtain ⟨q, hq, rfl⟩ := Option.map_eq_some_iff.mp hstep
      exact .inl (hold.put hq rfl rfl)
  | hostHead cqid head =>
      obtain ⟨c, -, rfl⟩ := Option.map_eq_some_iff.mp hstep
      exact .inl hold
  | enable asqs acqs =>
      rcases startCtrl_cases hstep with rfl | ⟨-, hnone, -, rfl⟩
      · exact .inl hold
      · obtain ⟨q, hq, rfl⟩ := hold
        have hi : i ≠ 0 := by
          rintro rfl
          rw [hnone] at hq
          cases hq
        exact .inl ⟨q, by rw [addAdmin_sq, if_neg hi, hq], rfl⟩
  | disable =>
      cases hstep
      obtain ⟨q, hq, rfl⟩ := hold
      by_cases hi : i ≤ n.numIoQueues
      · exact .inr hi
      · exact .inl ⟨q, by simp only [clearCtrl, if_neg hi, hq], rfl⟩
  | admin cmd now =>
      obtain ⟨q₀, st, u, c, e, hq₀, -, hcmd, -, -, rfl⟩ := processSqAdmin_cases hstep
      have hinv := incSqHead_inv h hq₀
      have hold' : Holds (s.setSq 0 (some (incSqHead q₀))) i addr := hold.put hq₀ rfl rfl
      cases cmd with
      | queue cmd =>
          have hu : Holds u i addr ∨ Removes n i (.admin (.queue cmd) now) :=
            queueCmd_holds hinv hcmd hold'
          exact hu
      | abort sqid cid =>
          rcases abortReq_cases hcmd with ⟨-, rfl⟩ | ⟨-, q₁, slot, idx, rest, hq₁, -, rfl⟩
          · exact .inl hold'
          · exact .inl (hold'.put hq₁ rfl rfl)
      | setDbMemory valid =>
          rcases setDbMemory_cases hcmd with rfl | rfl <;> exact .inl hold'
      | other st =>
          cases hcmd
          exact .inl hold'
  | enter i =>
      obtain ⟨q, c, -, -, -, rfl⟩ := enterSq_cases hstep
      exact .inl hold
  | fetch i now status =>
      obtain ⟨q, idx, rest, hq, -, -, -, rfl⟩ := processSqIo_cases hstep
      refine .inl (hold.put hq (?_ : _ = Function.update s.sq _
        (some { incSqHead q with reqList := rest })) rfl)
      split
      · exact enqueueFtl_sq ..
      · rfl
  | leave i =>
      obtain rfl := leaveSq_cases hstep
      exact .inl hold
  | ftl p lat =>
      obtain ⟨r, rest, q, -, -, -, -, rfl⟩ := ftlThread_cases hstep
      exact .inl (hold.same (enqueuePoller_sq ..))
  | collect p =>
      obtain ⟨r, rest, -, rfl⟩ := collectCpl_cases hstep
      exact .inl hold
  | complete p r now =>
      obtain ⟨q, c, e, hq, -, -, -, -, -, rfl⟩ := postCpl_cases hstep
      exact .inl (hold.put hq rfl rfl)
  | notify p =>
      obtain ⟨-, rfl⟩ := notifyIo_cases hstep
      exact .inl hold

/-- A command that deletes a live submission queue empties its place, and so does disabling
the controller. -/
theorem step_removed {qid : UInt16} (h : Inv n s)
    (hstep : step? n s (.admin (.queue (.delSq qid)) now) = some t) (hne : qid ≠ 0)
    (hle : qid.toNat ≤ n.numIoQueues) (hq : s.sq qid.toNat = some q) : t.sq qid.toNat = none := by
  obtain ⟨q₀, st, u, c, e, hq₀, -, hcmd, -, -, rfl⟩ := processSqAdmin_cases hstep
  have hinv := incSqHead_inv h hq₀
  have hpos : qid.toNat ≠ 0 := fun h0 => hne (UInt16.toNat_inj.mp h0)
  have hq' : (s.setSq 0 (some (incSqHead q₀))).sq qid.toNat = some q := by
    rw [QueueCtrl.setSq_sq, Function.update_of_ne hpos, hq]
  have hsqid := hinv.flow.sqid_eq _ _ hq'
  have hu : u.sq qid.toNat = none := by
    by_cases hact : q.isActive
    case pos =>
      rw [adminCmd, queueCmd, delSq_of_live hne hle hq' hsqid hact
        fun c => hinv.cqs.reqList_nil _ c] at hcmd
      cases hcmd
      rw [removeSq_sq, if_pos hsqid.symm]
    case neg =>
      rw [adminCmd, queueCmd, delSq, if_neg (by simp [hne, checkSqid, hle, hq']), hq'] at hcmd
      simp [hact] at hcmd
  exact hu

/-! ## no request outlives its queue -/

/-- Where the step deletes a submission queue or disables the controller, every command taken
from the queues that go has come to its end. -/
def Drained (n : QueueCfg) (s : QueueCtrl) : Act → Prop
  | .admin (.queue (.delSq qid)) _ =>
      qid ≠ 0 → qid.toNat ≤ n.numIoQueues → (s.sq qid.toNat).all fun q => settled s q.addr
  | .disable => ∀ i ≤ n.numIoQueues, i ≠ 0 → (s.sq i).all fun q => settled s q.addr
  | _ => True

instance (n : QueueCfg) (s : QueueCtrl) (a : Act) : Decidable (Drained n s a) := by
  unfold Drained
  split <;> infer_instance

/-- The submission queues that go from `s` to `t` are idle. -/
def FreesIdle (s t : QueueCtrl) : Prop :=
  ∀ i addr, Holds s i addr → ¬ Holds t i addr → Idle s addr

/-- Every request in a ring or a priority queue is one of a live submission queue. -/
def RequestsLive (s : QueueCtrl) : Prop := ∀ p, ∀ r ∈ inflight s p, r.queue? s ≠ none

theorem queue?_ne_none : r.queue? s ≠ none ↔ Holds s r.sqid r.addr := by
  simp only [Option.ne_none_iff_exists', ReqId.queue?_eq_some, Holds]

theorem freesIdle_iff (h : Inv n s) (hstep : step? n s a = some t) :
    FreesIdle s t ↔ Drained n s a := by
  constructor
  · intro hidle
    unfold Drained
    split
    case h_1 qid now =>
      intro hne hle
      rw [Option.all_eq_true]
      intro q hq
      have hpos : qid.toNat ≠ 0 := fun h0 => hne (UInt16.toNat_inj.mp h0)
      have hnone := step_removed h hstep hne hle hq
      exact (settled_iff h hpos hq).mpr (hidle _ _ ⟨q, hq, rfl⟩ (by simp [Holds, hnone]))
    case h_2 =>
      intro i hle hpos
      rw [Option.all_eq_true]
      intro q hq
      cases hstep
      exact (settled_iff h hpos hq).mpr
        (hidle _ _ ⟨q, hq, rfl⟩ (by simp [Holds, clearCtrl, hle]))
    case h_3 => trivial
  · rintro hdrained i addr hold hgone
    rcases step_holds h hstep hold with hstill | hremoves
    · exact absurd hstill hgone
    obtain ⟨q, hq, rfl⟩ := hold
    by_cases hrange : i = 0 ∨ n.numIoQueues < i
    · exact idle_of_range h hq hrange
    have hpos : i ≠ 0 := fun h0 => hrange (.inl h0)
    rw [← settled_iff h hpos hq]
    unfold Removes at hremoves
    split at hremoves
    case h_1 qid now =>
      obtain ⟨hne, rfl, hle⟩ := hremoves
      exact Option.all_eq_true _ _ |>.mp (hdrained hne hle) q hq
    case h_2 => exact absurd (.inr hremoves.2) hrange
    case h_3 => exact Option.all_eq_true _ _ |>.mp (hdrained i hremoves hpos) q hq
    case h_4 => exact hremoves.elim

theorem mem_inflight : r ∈ inflight s p ↔ r ∈ s.toFtl p ∨ r ∈ s.toPoller p ∨ r ∈ s.pq p := by
  simp only [inflight, Multiset.mem_add, Multiset.mem_coe, or_assoc]

/-- A request in a ring or a priority queue was there before, or its queue is live. -/
theorem step_inflight (h : Inv n s) (hstep : step? n s a = some t) (hr : r ∈ inflight t p) :
    r ∈ inflight s p ∨ Holds t r.sqid r.addr := by
  by_cases hfetch : ∃ i now status, a = .fetch i now status
  case neg => exact .inl (Multiset.mem_of_le (step_inflight_le h hstep hfetch p) hr)
  case pos =>
    obtain ⟨i, now, status, rfl⟩ := hfetch
    obtain ⟨q, idx, rest, hq, -, -, -, rfl⟩ := processSqIo_cases hstep
    rcases Multiset.mem_cons.mp (Multiset.mem_of_le (inflight_fetch _ p) hr) with rfl | hr
    · refine .inr ⟨{ incSqHead q with reqList := rest }, ?_, rfl⟩
      rw [h.flow.sqid_eq i q hq]
      split
      · rw [enqueueFtl_sq]
        exact Function.update_self ..
      · exact Function.update_self ..
    · exact .inl hr

theorem step_requestsLive (h : Inv n s) (hlive : RequestsLive s) (hstep : step? n s a = some t)
    (hdrained : Drained n s a) : RequestsLive t := by
  intro p r hr
  rw [queue?_ne_none]
  rcases step_inflight h hstep hr with hin | hnew
  · by_contra hgone
    have hidle := (freesIdle_iff h hstep).mpr hdrained
    exact hidle _ _ (queue?_ne_none.mp (hlive p r hin)) hgone p r hin rfl
  · exact hnew

/-- **Lifetime of requests**: in a run that drains the queues before it deletes them, every
request in a ring or a priority queue is one of a live queue; and a step frees no queue with
such a request exactly when it drains. -/
theorem requests_live {acts : List Act}
    (hrun : Run (fun s a t => Drained n s a ∧ step? n s a = some t) .reset acts s) :
    RequestsLive s ∧ ∀ a t, step? n s a = some t → (FreesIdle s t ↔ Drained n s a) := by
  have hboth : Inv n s ∧ RequestsLive s := by
    refine hrun.invariant (I := fun s => Inv n s ∧ RequestsLive s) ?_ ⟨reset_inv, ?_⟩
    · rintro s a t ⟨hs, hlive⟩ ⟨hdrained, hstep⟩
      exact ⟨step_inv hs hstep, step_requestsLive hs hlive hstep hdrained⟩
    · intro p r hr
      simp [inflight, QueueCtrl.reset] at hr
  exact ⟨hboth.2, fun a t hstep => freesIdle_iff hboth.1 hstep⟩

/-- The host deletes the submission queue after its command has been completed. -/
theorem requests_live_small :
    ∃ s, Run (fun s a t => Drained onePair s a ∧ step? onePair s a = some t) .reset
      (startUp ++ submit nvmeSuccess ++
        [.ftl 1 10, .collect 1, .complete 1 ⟨3, 1, 0⟩ 20, .notify 1, .leave 1, .hostTail 0 4,
          .admin (.queue (.delSq 1)) 30]) s ∧
      s.sq 1 = none ∧ RequestsLive s := by
  have hends : (exec (allowed (Drained onePair) (step? onePair))
      (startUp ++ submit nvmeSuccess ++
        [.ftl 1 10, .collect 1, .complete 1 ⟨3, 1, 0⟩ 20, .notify 1, .leave 1, .hostTail 0 4,
          .admin (.queue (.delSq 1)) 30]) .reset).map (fun s => (s.sq 1).isNone) = some true := by
    decide +kernel
  obtain ⟨s, hs, hnone⟩ := Option.map_eq_some_iff.mp hends
  have hrun := run_of_exec_allowed hs
  exact ⟨s, hrun, Option.isNone_iff_eq_none.mp hnone, (requests_live hrun).1⟩

/-- The submission queue is deleted while `to_ftl` holds its request. -/
theorem freed_in_flight :
    ∃ s t, Run (fun s a t => step? onePair s a = some t) .reset
      (startUp ++ submit nvmeSuccess ++ [.leave 1, .hostTail 0 4]) s ∧
      step? onePair s (.admin (.queue (.delSq 1)) 30) = some t ∧
      t.sq 1 = none ∧ t.toFtl 1 = [⟨3, 1, 0⟩] ∧ ¬ FreesIdle s t := by
  have hends : ((exec (step? onePair)
      (startUp ++ submit nvmeSuccess ++ [.leave 1, .hostTail 0 4]) .reset).bind fun s =>
        (step? onePair s (.admin (.queue (.delSq 1)) 30)).map fun t =>
          decide ((s.sq 1).map (·.addr) = some 3 ∧ s.toFtl 1 = [⟨3, 1, 0⟩] ∧
            (t.sq 1).map (·.addr) = none ∧ t.toFtl 1 = [⟨3, 1, 0⟩])) = some true := by
    decide +kernel
  obtain ⟨s, hs, hstep⟩ := Option.bind_eq_some_iff.mp hends
  obtain ⟨t, ht, heq⟩ := Option.map_eq_some_iff.mp hstep
  obtain ⟨hq, hring, hnone, hring'⟩ := of_decide_eq_true heq
  have hgone : t.sq 1 = none := Option.map_eq_none_iff.mp hnone
  obtain ⟨q, hq, haddr⟩ := Option.map_eq_some_iff.mp hq
  refine ⟨s, t, run_of_exec hs, ht, hgone, hring', fun hidle => ?_⟩
  have hin : ReqId.mk 3 1 0 ∈ inflight s 1 := mem_inflight.mpr (.inl (by simp [hring]))
  exact hidle 1 3 ⟨q, hq, haddr⟩ (by simp [Holds, hgone]) 1 _ hin rfl

end Femu.Queue

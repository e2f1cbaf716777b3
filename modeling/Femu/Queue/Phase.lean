import Mathlib.Data.List.Basic
import Femu.Lib.PhaseRing
import Femu.Queue.Flow

/-!
# Femu.Queue.Phase

The entries of a completion queue in the memory of the host, and the host that takes them by
their phase (`nvme_post_cqe`, the entry that `nvme_process_sq_admin` writes,
`nvme_inc_cq_tail`). The slots are the ones of the queue, contiguous or by its list of pages.
What the controller does to a queue over a run is posts to its link (`run_link`).
-/

namespace Femu.Queue

open Nvme Lib

/-- What a completion entry says. -/
structure Completion where
  result : UInt64
  sqHead : UInt16
  sqId : UInt16
  cid : UInt16
  status : Status
deriving DecidableEq

/-- `NvmeCqe`. -/
structure NvmeCqe where
  res64 : UInt64
  sqHead : UInt16
  sqId : UInt16
  cid : UInt16
  status : UInt16
deriving DecidableEq

/-- The status word of an entry: `cpu_to_le16((req->status << 1) | phase)`. -/
def statusWord (status : Status) (phase : Bool) : UInt16 :=
  status <<< 1 ||| if phase then 1 else 0

def Completion.cqe (e : Completion) (phase : Bool) : NvmeCqe where
  res64 := e.result
  sqHead := e.sqHead
  sqId := e.sqId
  cid := e.cid
  status := statusWord e.status phase

/-- The lowest bit of the status word, as the host reads it. -/
def NvmeCqe.phase (e : NvmeCqe) : Bool := e.status % 2 = 1

/-- The rest of the entry, as the host reads it. -/
def NvmeCqe.completion (e : NvmeCqe) : Completion where
  result := e.res64
  sqHead := e.sqHead
  sqId := e.sqId
  cid := e.cid
  status := e.status >>> 1

/-- What is left of a completion in an entry, where the status has 15 bits. -/
def Completion.field (e : Completion) : Completion := { e with status := e.status % 0x8000 }

theorem statusWord_toNat (status : Status) (phase : Bool) :
    (statusWord status phase).toNat = 2 * (status.toNat % 2 ^ 15) + if phase then 1 else 0 := by
  have hshift : (status <<< 1).toNat = 2 ^ 1 * (status.toNat % 2 ^ 15) := by
    rw [UInt16.toNat_shiftLeft, Nat.shiftLeft_eq]
    change status.toNat * 2 ^ 1 % 2 ^ 16 = _
    omega
  have hbit : (if phase then (1 : UInt16) else 0).toNat = if phase then 1 else 0 := by
    split <;> rfl
  rw [statusWord, UInt16.toNat_or, hshift, hbit, ← Nat.two_pow_add_eq_or_of_lt]
  split <;> omega

theorem phase_cqe (e : Completion) (phase : Bool) : (e.cqe phase).phase = phase := by
  have hword := statusWord_toNat e.status phase
  have hphase : (e.cqe phase).phase = decide ((statusWord e.status phase).toNat % 2 = 1) :=
    decide_eq_decide.mpr (by rw [← UInt16.toNat_inj, UInt16.toNat_mod]; rfl)
  rw [hphase, hword, Nat.mul_add_mod]
  cases phase <;> rfl

theorem completion_cqe (e : Completion) (phase : Bool) : (e.cqe phase).completion = e.field := by
  have hword := statusWord_toNat e.status phase
  have hstatus : statusWord e.status phase >>> 1 = e.status % 0x8000 := by
    rw [← UInt16.toNat_inj, UInt16.toNat_shiftRight, hword, UInt16.toNat_mod]
    change _ >>> 1 = e.status.toNat % 2 ^ 15
    rw [Nat.shiftRight_eq_div_pow]
    split <;> omega
  rw [NvmeCqe.completion, Completion.field, ← hstatus]
  rfl

theorem Completion.field_eq {e : Completion} (h : e.status < 0x8000) : e.field = e := by
  have hstatus : e.status % 0x8000 = e.status := by
    rw [← UInt16.toNat_inj, UInt16.toNat_mod]
    exact Nat.mod_eq_of_lt h
  rw [Completion.field, hstatus]

/-! ## a queue and its host -/

/-- A completion queue, its slots in the memory of the host, and the host, which knows where the
next entry comes. `posted` and `consumed` are what has happened. -/
structure CqLink where
  cq : NvmeCQueue
  mem : Nat → NvmeCqe
  host : Cursor
  posted : List Completion
  consumed : List Completion

/-- The host expects phase 1 at the start. -/
def CqLink.init (c : NvmeCQueue) (mem : Nat → NvmeCqe) : CqLink where
  cq := c
  mem := mem
  host := ⟨0, true⟩
  posted := []
  consumed := []

/-- `nvme_post_cqe`. -/
def postEntry (l : CqLink) (e : Completion) : CqLink :=
  { l with
    mem := Function.update l.mem l.cq.tail (e.cqe l.cq.phase)
    cq := incCqTail l.cq
    posted := l.posted ++ [e] }

/-- The host consumes the entry at its head, if the entry has the phase it expects. -/
def consumeEntry (l : CqLink) : Option CqLink :=
  let e := l.mem l.host.pos
  if e.phase = l.host.phase then
    some { l with host := l.host.next l.cq.size, consumed := l.consumed ++ [e.completion] }
  else none

inductive LinkAct
  | post (e : Completion)
  | consume

def linkStep (l : CqLink) : LinkAct → Option CqLink
  | .post e => some (postEntry l e)
  | .consume => consumeEntry l

/-- There are less than `size` entries that are not consumed, one posted now included. -/
def SlotLeft (l : CqLink) : LinkAct → Prop
  | .post _ => l.posted.length + 1 ≤ l.consumed.length + (l.cq.size - 1)
  | .consume => True

instance (l : CqLink) (a : LinkAct) : Decidable (SlotLeft l a) := by
  unfold SlotLeft
  split <;> infer_instance

/-! ## what the controller posts -/

section posts

variable {n : QueueCfg} {s t : QueueCtrl} {l : CqLink} {i : Nat} {a : Act}

def Posted.completion (e : Posted) (result : UInt64) : Completion where
  result := result
  sqHead := .ofNat e.sqHead
  sqId := .ofNat e.sqid
  cid := e.cid
  status := e.status

/-- Queue `i` of the controller is where the link is, whatever head the host has written. -/
def AtLink (s : QueueCtrl) (i : Nat) (l : CqLink) : Prop :=
  ∃ head, s.cq i = some { l.cq with head := head }

/-- An action that neither creates nor deletes a queue. -/
def KeepsQueues : Act → Prop
  | .enable _ _ | .disable | .admin (.queue _) _ => False
  | _ => True

/-- What an action does to a link: it posts nothing to it, or one entry in the slot and with the
phase of the link. -/
inductive LinkMoves (s t : QueueCtrl) (i : Nat) (l : CqLink) : Prop
  | kept (hposted : t.posted.filter (·.cq = i) = s.posted.filter (·.cq = i)) (hlink : AtLink t i l)
  | posts (e : Posted) (hposted : t.posted = s.posted ++ [e]) (hcq : e.cq = i)
      (hslot : e.slot = l.cq.tail) (hphase : e.phase = l.cq.phase)
      (hlink : ∀ result, AtLink t i (postEntry l (e.completion result)))

theorem incCqTail_withHead (c : NvmeCQueue) (head : Nat) :
    incCqTail { c with head := head } = { incCqTail c with head := head } := by
  unfold incCqTail
  split <;> rfl

/-- An entry goes to one queue, in its slot. -/
theorem AtLink.posts (h : AtLink s i l) {c : NvmeCQueue} {e : Posted} (hc : s.cq e.cq = some c)
    (hslot : e.slot = c.tail) (hphase : e.phase = c.phase)
    (hcq : t.cq = Function.update s.cq e.cq (some (incCqTail c)))
    (hposted : t.posted = s.posted ++ [e]) : LinkMoves s t i l := by
  obtain ⟨head, hi⟩ := h
  by_cases heq : e.cq = i
  · subst heq
    obtain rfl := Option.some.inj (hc.symm.trans hi)
    refine .posts e hposted rfl hslot hphase fun result => ⟨head, ?_⟩
    rw [hcq, Function.update_self, incCqTail_withHead]
    rfl
  · refine .kept ?_ ⟨head, ?_⟩
    · rw [hposted, List.filter_append, List.filter_singleton, decide_eq_false heq, cond_false,
        List.append_nil]
    · rw [hcq, Function.update_of_ne (Ne.symm heq)]
      exact hi

/-- An admin command that is not for the queues leaves the completion queues alone. -/
theorem adminCmd_keeps {now : Nat} {cmd : AdminCmd} {st : Status}
    (hcmd : adminCmd n s now cmd = some (st, t)) (hkeeps : KeepsQueues (.admin cmd now)) :
    t.cq = s.cq ∧ t.posted = s.posted := by
  cases cmd with
  | queue => exact hkeeps.elim
  | abort sqid cid =>
      obtain ⟨-, rfl⟩ | ⟨-, q, slot, idx, rest, -, -, rfl⟩ := abortReq_cases hcmd
      · exact ⟨rfl, rfl⟩
      · exact ⟨rfl, rfl⟩
  | setDbMemory valid =>
      obtain rfl | rfl := setDbMemory_cases hcmd
      · exact ⟨rfl, rfl⟩
      · exact ⟨rfl, rfl⟩
  | other status =>
      cases hcmd
      exact ⟨rfl, rfl⟩

/-- **Step**: while the queues stay, what the controller does to one is a post to its link. -/
theorem step_link (hstep : step? n s a = some t) (hkeeps : KeepsQueues a) (h : AtLink s i l) :
    LinkMoves s t i l := by
  have hkept : t.cq = s.cq → t.posted = s.posted → LinkMoves s t i l := by
    intro hcq hposted
    obtain ⟨head, hi⟩ := h
    exact .kept (by rw [hposted]) ⟨head, by rw [hcq, hi]⟩
  cases a with
  | enable | disable => exact hkeeps.elim
  | hostSqe =>
      cases hstep
      exact hkept rfl rfl
  | hostTail =>
      obtain ⟨q, -, rfl⟩ := Option.map_eq_some_iff.mp hstep
      exact hkept rfl rfl
  | hostHead cqid head =>
      obtain ⟨c, hc, rfl⟩ := Option.map_eq_some_iff.mp hstep
      obtain ⟨old, hi⟩ := h
      by_cases heq : cqid = i
      · subst heq
        obtain rfl := Option.some.inj (hc.symm.trans hi)
        exact .kept rfl ⟨head, Function.update_self ..⟩
      · exact .kept rfl ⟨old, (Function.update_of_ne (Ne.symm heq) ..).trans hi⟩
  | admin cmd now =>
      obtain ⟨q, st, u, c, e, -, -, hcmd, hc, he, rfl⟩ := processSqAdmin_cases hstep
      obtain ⟨hcq, hposted⟩ := adminCmd_keeps hcmd hkeeps
      have hecq : e.cq = q.cqid := by rw [he]
      rw [hcq] at hc
      refine h.posts (hecq ▸ hc) (by rw [he]) (by rw [he]) ?_ ?_
      · show Function.update u.cq q.cqid _ = _
        rw [hecq, hcq]
        rfl
      · show u.posted ++ [e] = _
        rw [hposted]
        rfl
  | enter =>
      obtain ⟨q, c, -, -, -, rfl⟩ := enterSq_cases hstep
      exact hkept rfl rfl
  | fetch =>
      obtain ⟨q, idx, rest, -, -, -, -, rfl⟩ := processSqIo_cases hstep
      refine hkept ?_ ?_
      · split
        · exact enqueueFtl_cq ..
        · rfl
      · split
        · exact enqueueFtl_posted ..
        · rfl
  | leave =>
      obtain rfl := leaveSq_cases hstep
      exact hkept rfl rfl
  | ftl =>
      obtain ⟨r, rest, q, -, -, -, -, rfl⟩ := ftlThread_cases hstep
      exact hkept (enqueuePoller_cq ..) (enqueuePoller_posted ..)
  | collect =>
      obtain ⟨r, rest, -, rfl⟩ := collectCpl_cases hstep
      exact hkept rfl rfl
  | complete =>
      obtain ⟨q, c, e, -, -, -, hc, -, he, rfl⟩ := postCpl_cases hstep
      have hecq : e.cq = q.sqid := by rw [he]
      exact h.posts (hecq ▸ hc) (by rw [he]) (by rw [he]) (by rw [hecq]) rfl
  | notify =>
      obtain ⟨-, rfl⟩ := notifyIo_cases hstep
      exact hkept rfl rfl

/-- **Run**: while the queues stay, the entries that the controller posts to one are posts to its
link, in their order. -/
theorem run_link {acts : List Act} (hrun : Run (fun s a t => step? n s a = some t) s acts t)
    (hacts : ∀ a ∈ acts, KeepsQueues a) (h : AtLink s i l) (result : Posted → UInt64) :
    ∃ es, t.posted.filter (·.cq = i) = s.posted.filter (·.cq = i) ++ es ∧
      AtLink t i (es.foldl (fun l e => postEntry l (e.completion (result e))) l) := by
  induction hrun generalizing l with
  | nil s => exact ⟨[], (List.append_nil _).symm, h⟩
  | @cons s u t a acts head tail ih =>
      rw [List.forall_mem_cons] at hacts
      cases step_link head hacts.1 h with
      | kept hposted hlink =>
          obtain ⟨es, hes, hend⟩ := ih hacts.2 hlink
          exact ⟨es, hposted ▸ hes, hend⟩
      | posts e hposted hcq hslot hphase hlink =>
          obtain ⟨es, hes, hend⟩ := ih hacts.2 (hlink (result e))
          refine ⟨e :: es, ?_, hend⟩
          rw [hes, hposted, List.filter_append, List.filter_singleton, decide_eq_true hcq, cond_true,
            List.append_assoc, List.singleton_append]

end posts

/-! ## the protocol -/

section protocol

variable {n : Nat} {c : NvmeCQueue} {l l' : CqLink} {e : Completion} {a : LinkAct}

/-- The cursors stand where the entries posted and consumed bring them, and the slots hold the
entries that are not consumed, with their phases. -/
structure LinkInv (n : Nat) (l : CqLink) : Prop where
  size : l.cq.size = n
  tail : Cursor.mk l.cq.tail l.cq.phase = cursorAt n l.posted.length
  head : l.host = cursorAt n l.consumed.length
  sent : ∃ sent, Tagged n NvmeCqe.phase l.mem sent l.consumed.length ∧
    sent.map NvmeCqe.completion = l.posted.map Completion.field ∧
    l.consumed = (sent.map NvmeCqe.completion).take l.consumed.length

theorem incCqTail_next (c : NvmeCQueue) :
    Cursor.mk (incCqTail c).tail (incCqTail c).phase = (Cursor.mk c.tail c.phase).next c.size := by
  unfold incCqTail Cursor.next
  split <;> rfl

theorem incCqTail_size (c : NvmeCQueue) : (incCqTail c).size = c.size := by
  unfold incCqTail
  split <;> rfl

theorem LinkInv.post (h : LinkInv n l) (hn : 0 < n)
    (hroom : l.posted.length < l.consumed.length + n) : LinkInv n (postEntry l e) := by
  obtain ⟨sent, htag, hposted, hconsumed⟩ := h.sent
  have hlen : sent.length = l.posted.length := by simpa using congrArg List.length hposted
  have hcursor := h.tail
  have hpos : l.cq.tail = sent.length % n := by
    rw [hlen]
    exact congrArg Cursor.pos hcursor
  have hphase : (e.cqe l.cq.phase).phase = (cursorAt n sent.length).phase := by
    rw [phase_cqe, hlen]
    exact congrArg Cursor.phase hcursor
  constructor
  case size => exact (incCqTail_size l.cq).trans h.size
  case tail =>
    have hnext := incCqTail_next l.cq
    rw [hcursor, h.size] at hnext
    rw [postEntry, List.length_append, List.length_singleton, cursorAt_succ hn]
    exact hnext
  case head => exact h.head
  case sent =>
    refine ⟨sent ++ [e.cqe l.cq.phase], ?_, ?_, ?_⟩
    · rw [postEntry, hpos]
      exact htag.post hn (by omega) hphase
    · rw [postEntry, List.map_append, List.map_append, hposted, List.map_singleton,
        List.map_singleton, completion_cqe]
    · rw [List.map_append, List.take_append_of_le_length]
      · exact hconsumed
      · rw [List.length_map]
        exact htag.le

/-- The entry at the head of the host has the phase it expects exactly when it has been posted and
not consumed. -/
theorem LinkInv.phase_iff (h : LinkInv n l) (hn : 0 < n) :
    (l.mem l.host.pos).phase = l.host.phase ↔ l.consumed.length < l.posted.length := by
  obtain ⟨sent, htag, hposted, -⟩ := h.sent
  have hlen : sent.length = l.posted.length := by simpa using congrArg List.length hposted
  rw [h.head, ← hlen]
  exact htag.phase_iff hn

theorem LinkInv.consume (h : LinkInv n l) (hn : 0 < n) (hstep : consumeEntry l = some l') :
    LinkInv n l' := by
  unfold consumeEntry at hstep
  dsimp only at hstep
  split at hstep
  case isFalse => cases hstep
  case isTrue hphase =>
    cases hstep
    have hlt := (h.phase_iff hn).mp hphase
    obtain ⟨sent, htag, hposted, hconsumed⟩ := h.sent
    have hlen : sent.length = l.posted.length := by simpa using congrArg List.length hposted
    obtain ⟨hget, htag'⟩ := htag.consume (hlen ▸ hlt)
    constructor
    case size => exact h.size
    case tail => exact h.tail
    case head =>
      dsimp only
      rw [h.size, h.head, List.length_append, List.length_singleton, cursorAt_succ hn]
    case sent =>
      refine ⟨sent, ?_, hposted, ?_⟩
      · dsimp only
        rw [List.length_append, List.length_singleton]
        exact htag'
      · dsimp only
        rw [List.length_append, List.length_singleton, List.take_add_one, ← hconsumed,
          List.getElem?_map, hget, h.head]
        rfl

/-- **Step** -/
theorem linkStep_inv (h : LinkInv n l) (hn : 0 < n) (hroom : SlotLeft l a)
    (hstep : linkStep l a = some l') : LinkInv n l' := by
  cases a with
  | post e =>
      cases hstep
      refine h.post hn ?_
      have hleft : l.posted.length + 1 ≤ l.consumed.length + (l.cq.size - 1) := hroom
      rw [h.size] at hleft
      omega
  | consume => exact h.consume hn hstep

theorem init_linkInv {mem : Nat → NvmeCqe} (hsize : c.size = n) (htail : c.tail = 0)
    (hphase : c.phase = true) (hzero : ∀ i < n, (mem i).phase = false) :
    LinkInv n (.init c mem) where
  size := hsize
  tail := by
    rw [CqLink.init, htail, hphase]
    exact cursorAt_zero.symm
  head := cursorAt_zero.symm
  sent := ⟨[], .empty hzero, rfl, rfl⟩

end protocol

end Femu.Queue

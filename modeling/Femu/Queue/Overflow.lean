import Femu.Lib.Ring
import Femu.Queue.Account

/-!
# Femu.Queue.Overflow

Entries of a completion queue that the host has not consumed. `nvme_cq_full` is called only by
`nvme_post_cqes_io`, whose list of requests is always empty; `nvme_process_cq_cpl` and
`nvme_process_sq_admin` post without a look at the head. So it is up to the host to leave a
slot for each command that it submits.
-/

namespace Femu.Queue

open Nvme Lib

variable {n : QueueCfg} {s t u : QueueCtrl} {i j p now k k' : Nat} {q q' : NvmeSQueue}
  {c c' : NvmeCQueue} {r : ReqId} {a : Act}

/-! ## what the host keeps in mind -/

/-- The commands in a submission queue. -/
def pending (q : NvmeSQueue) : Nat := gap q.size q.head q.tail

/-- The entries of a completion queue that the host has not consumed. -/
def unconsumed (c : NvmeCQueue) : Nat := gap c.size c.head c.tail

/-- The commands of a submission queue that are still to be completed. -/
def load (n : QueueCfg) (s : QueueCtrl) (q : NvmeSQueue) : Nat :=
  pending q + (outstanding n s q.addr q.sqid).card

/-- A completion queue of `size` slots has one for each of `load` commands besides those of
`used` entries, and one to spare. -/
def Fits (load size used : Nat) : Prop := load = 0 ∨ load + used < size

instance (load size used : Nat) : Decidable (Fits load size used) :=
  inferInstanceAs (Decidable (_ ∨ _))

theorem Fits.mono {load load' size used used' : Nat} (h : Fits load size used) (hle : load' ≤ load)
    (hsum : load' + used' ≤ load + used) : Fits load' size used' := by
  unfold Fits at h ⊢
  omega

/-- The host moves a tail within the queue and leaves room for the completions, moves a head over
entries that it was given, and makes no completion queue that is too small for the commands
of the submission queue with its number. -/
def Paced (n : QueueCfg) (s : QueueCtrl) : Act → Prop
  | .hostTail i tail =>
      (s.sq i).all fun q => tail < q.size ∧ (s.cq i).all fun c =>
        Fits (load n s { q with tail := tail }) c.size (unconsumed c)
  | .hostHead j head =>
      (s.cq j).all fun c => head < c.size ∧ unconsumed { c with head := head } ≤ unconsumed c
  | .admin (.queue (.createCq c _)) _ =>
      (s.sq c.cqid.toNat).all fun q => Fits (load n s q) (u16 (c.qsize.toNat + 1)) 0
  | _ => True

instance (n : QueueCfg) (s : QueueCtrl) (a : Act) : Decidable (Paced n s a) := by
  unfold Paced
  split <;> infer_instance

/-- No entry was written to the slot before the head. -/
def NoOverflow (s : QueueCtrl) : Prop := ∀ e ∈ s.posted, (e.slot + 1) % e.size ≠ e.head

/-! ## the invariant -/

/-- Cursors of a ring; one of no slots has them at 0. -/
def InRing (size head tail : Nat) : Prop := head < max size 1 ∧ tail < max size 1

theorem InRing.lt {size head tail : Nat} (h : InRing size head tail) (hsize : size ≠ 0) :
    head < size ∧ tail < size := by
  unfold InRing at h
  omega

theorem inRing_zero (size : Nat) : InRing size 0 0 := by
  unfold InRing
  omega

/-- There is room for the commands of each submission queue in the completion queue with its
number. Of an admin command that has been taken, the completion is owed (`k`). -/
structure RoomInv (n : QueueCfg) (k : Nat) (s : QueueCtrl) : Prop where
  admin : ∀ q, s.sq 0 = some q → q.cqid = 0
  sqs : ∀ i q, s.sq i = some q → InRing q.size q.head q.tail
  cqs : ∀ j c, s.cq j = some c → InRing c.size c.head c.tail
  fits : ∀ i q c, s.sq i = some q → s.cq i = some c →
    Fits (load n s q + if i = 0 then k else 0) c.size (unconsumed c)

theorem load_le (hring : pending q' ≤ pending q) (hsame : q'.addr = q.addr ∧ q'.sqid = q.sqid)
    (hin : ∀ p, inflight t p ≤ inflight s p) : load n t q' ≤ load n s q := by
  obtain ⟨haddr, hsqid⟩ := hsame
  have hcard : (outstanding n t q.addr q.sqid).card ≤ (outstanding n s q.addr q.sqid).card :=
    Multiset.card_le_card (Multiset.filter_le_filter _ (hin _))
  unfold load
  rw [haddr, hsqid]
  omega

/-- Steps after which the load of each queue and the entries in each queue are no more. -/
theorem RoomInv.refine (h : RoomInv n k s)
    (hsq : ∀ i q', t.sq i = some q' → ∃ q, s.sq i = some q ∧ q'.cqid = q.cqid ∧
      InRing q'.size q'.head q'.tail ∧
      load n t q' + (if i = 0 then k' else 0) ≤ load n s q + if i = 0 then k else 0)
    (hcq : ∀ j c', t.cq j = some c' → ∃ c, s.cq j = some c ∧ InRing c'.size c'.head c'.tail ∧
      c'.size = c.size ∧ unconsumed c' ≤ unconsumed c) : RoomInv n k' t where
  admin q' hq' := by
    obtain ⟨q, hq, hcqid, -⟩ := hsq 0 q' hq'
    rw [hcqid, h.admin q hq]
  sqs i q' hq' := (hsq i q' hq').elim fun _ hq => hq.2.2.1
  cqs j c' hc' := (hcq j c' hc').elim fun _ hc => hc.2.1
  fits i q' c' hq' hc' := by
    obtain ⟨q, hq, -, -, hload⟩ := hsq i q' hq'
    obtain ⟨c, hc, -, hsize, hused⟩ := hcq i c' hc'
    rw [hsize]
    exact (h.fits i q c hq hc).mono hload (by omega)

theorem RoomInv.sameCqs (h : RoomInv n k s) (hcq : t.cq = s.cq) :
    ∀ j c', t.cq j = some c' → ∃ c, s.cq j = some c ∧ InRing c'.size c'.head c'.tail ∧
      c'.size = c.size ∧ unconsumed c' ≤ unconsumed c :=
  fun j c' hc' => ⟨c', hcq ▸ hc', h.cqs j c' (hcq ▸ hc'), rfl, le_rfl⟩

/-- Steps that leave the queues alone. -/
theorem RoomInv.same (h : RoomInv n k s) (hsq : t.sq = s.sq) (hcq : t.cq = s.cq)
    (hin : ∀ p, inflight t p ≤ inflight s p) : RoomInv n k t :=
  h.refine (fun i q' hq' => ⟨q', hsq ▸ hq', rfl, h.sqs i q' (hsq ▸ hq'),
    Nat.add_le_add_right (load_le le_rfl ⟨rfl, rfl⟩ hin) _⟩) (h.sameCqs hcq)

/-- A completion is posted for submission queue `i`, whose load is one less then. -/
theorem RoomInv.post (h : RoomInv n k s) (hc : s.cq i = some c)
    (hcq : t.cq = Function.update s.cq i (some (incCqTail c)))
    (hsq : ∀ j q', t.sq j = some q' → ∃ q, s.sq j = some q ∧ q'.cqid = q.cqid ∧
      InRing q'.size q'.head q'.tail ∧
      load n t q' + (if j = 0 then k' else 0) + (if j = i then 1 else 0) ≤
        load n s q + if j = 0 then k else 0)
    (hroom : unconsumed c + 1 < c.size) : RoomInv n k' t := by
  have hring := h.cqs i c hc
  have hlt := hring.lt (by omega)
  have hinc : (incCqTail c).size = c.size ∧ (incCqTail c).head = c.head ∧
      (incCqTail c).tail = (c.tail + 1) % c.size := by
    unfold incCqTail
    rw [succ_mod_eq hlt.2]
    split <;> exact ⟨rfl, rfl, rfl⟩
  obtain ⟨hsize, hhead, htail⟩ := hinc
  have hused : unconsumed (incCqTail c) = unconsumed c + 1 := by
    unfold unconsumed at hroom ⊢
    rw [hsize, hhead, htail]
    exact gap_succ_tail hlt.1 hlt.2 hroom
  have hcq' : ∀ j c', t.cq j = some c' → j = i ∧ c' = incCqTail c ∨ j ≠ i ∧ s.cq j = some c' := by
    intro j c' hc'
    rw [hcq, Function.update_apply] at hc'
    grind
  constructor
  case admin =>
    intro q' hq'
    obtain ⟨q, hq, hcqid, -⟩ := hsq 0 q' hq'
    rw [hcqid, h.admin q hq]
  case sqs => exact fun j q' hq' => (hsq j q' hq').elim fun _ hq => hq.2.2.1
  case cqs =>
    intro j c' hc'
    rcases hcq' j c' hc' with ⟨rfl, rfl⟩ | ⟨-, hold⟩
    · rw [hsize, hhead, htail]
      have hmod := Nat.mod_lt (c.tail + 1) (show 0 < c.size by omega)
      exact ⟨hring.1, by omega⟩
    · exact h.cqs j c' hold
  case fits =>
    intro j q' c' hq' hc'
    obtain ⟨q, hq, -, -, hload⟩ := hsq j q' hq'
    rcases hcq' j c' hc' with ⟨rfl, rfl⟩ | ⟨hne, hold⟩
    · rw [if_pos rfl] at hload
      rw [hsize]
      exact (h.fits j q c hq hc).mono (by omega) (by omega)
    · rw [if_neg hne] at hload
      exact (h.fits j q c' hq hold).mono (by omega) (by omega)

/-- Where there is a command to complete there is room for its completion. -/
theorem RoomInv.room (h : RoomInv n k s) (hq : s.sq i = some q) (hc : s.cq i = some c)
    (hload : 0 < load n s q + if i = 0 then k else 0) :
    unconsumed c + 1 < c.size ∧ (c.tail + 1) % c.size ≠ c.head := by
  have hroom : unconsumed c + 1 < c.size := by
    have hfits := h.fits i q c hq hc
    unfold Fits at hfits
    omega
  have hlt := (h.cqs i c hc).lt (by omega)
  exact ⟨hroom, succ_tail_ne_head hlt.1 hlt.2 hroom⟩

/-! ## the steps of a request -/

/-- A request more is one more command of its queue that is to be completed. -/
theorem outstanding_le_of_cons {b : Nat} (hin : ∀ p, inflight t p ≤ r ::ₘ inflight s p) :
    (outstanding n t b j).card ≤ (outstanding n s b j).card + if r.addr = b then 1 else 0 := by
  have hle := Multiset.card_le_card (Multiset.filter_le_filter (·.addr = b) (hin (n.poller j)))
  rw [Multiset.filter_cons, Multiset.card_add] at hle
  rw [outstanding, outstanding]
  split at hle
  case isTrue heq =>
    rw [if_pos heq]
    rw [Multiset.card_singleton] at hle
    omega
  case isFalse hne =>
    rw [if_neg hne]
    rw [Multiset.card_zero] at hle
    omega

/-- What a step may leave of a submission queue: it has no more to complete than before. -/
structure LoadKept (n : QueueCfg) (s t : QueueCtrl) (q q' : NvmeSQueue) : Prop where
  cqid : q'.cqid = q.cqid
  size : q'.size = q.size
  ring : InRing q.size q.head q.tail → InRing q'.size q'.head q'.tail
  load : load n t q' ≤ load n s q

/-- The submission queues after a command was taken from queue `i`. -/
theorem loadKept_take (hinv : FlowInv n s) (hq : s.sq i = some q)
    (hring : InRing q.size q.head q.tail) (hne : q.head ≠ q.tail) {rest : List Nat}
    (hsq : t.sq = Function.update s.sq i (some { incSqHead q with reqList := rest }))
    (hr : r.addr = q.addr) (hin : ∀ p, inflight t p ≤ r ::ₘ inflight s p) (hq' : t.sq j = some q') :
    ∃ q₁, s.sq j = some q₁ ∧ LoadKept n s t q₁ q' := by
  have hlt : q.head < q.size ∧ q.tail < q.size := by
    unfold InRing at hring
    omega
  rw [hsq, Function.update_apply] at hq'
  split at hq'
  case isTrue hj =>
    cases hq'
    have hpend : pending { incSqHead q with reqList := rest } + 1 = pending q :=
      gap_succ_head hlt.1 hlt.2 hne
    have hout : (outstanding n t q.addr q.sqid).card ≤ (outstanding n s q.addr q.sqid).card + 1 := by
      have hle := outstanding_le_of_cons (n := n) (b := q.addr) (j := q.sqid) hin
      rwa [if_pos hr] at hle
    refine ⟨q, hj ▸ hq, rfl, rfl, fun _ => ?_, ?_⟩
    · have hmod := Nat.mod_lt (q.head + 1) (show 0 < q.size by omega)
      exact ⟨lt_max_of_lt_left hmod, hring.2⟩
    · simp only [Queue.load, incSqHead_addr, incSqHead_sqid] at hpend ⊢
      omega
  case isFalse hj =>
    have hne' : r.addr ≠ q'.addr := fun heq =>
      hj (hinv.addr_inj j i q' q hq' hq (by rw [← heq, hr]))
    have hout := outstanding_le_of_cons (n := n) (b := q'.addr) (j := q'.sqid) hin
    rw [if_neg hne'] at hout
    refine ⟨q', hq', rfl, rfl, id, ?_⟩
    unfold Queue.load
    omega

/-- A command is taken from submission queue `i`. -/
theorem RoomInv.take (h : RoomInv n k s) (hinv : FlowInv n s) (hq : s.sq i = some q)
    (hne : q.head ≠ q.tail) {rest : List Nat}
    (hsq : t.sq = Function.update s.sq i (some { incSqHead q with reqList := rest }))
    (hcq : t.cq = s.cq) (hr : r.addr = q.addr) (hin : ∀ p, inflight t p ≤ r ::ₘ inflight s p) :
    RoomInv n k t := by
  refine h.refine (fun j q' hq' => ?_) (h.sameCqs hcq)
  obtain ⟨q₁, hq₁, hkept⟩ := loadKept_take hinv hq (h.sqs i q hq) hne hsq hr hin hq'
  exact ⟨q₁, hq₁, hkept.cqid, hkept.ring (h.sqs j q₁ hq₁), Nat.add_le_add_right hkept.load _⟩

/-- The completion of a request is posted. -/
theorem RoomInv.complete (h : RoomInv n 0 s) (hinv : FlowInv n s) (hq : s.sq r.sqid = some q)
    (haddr : q.addr = r.addr) (hc : s.cq r.sqid = some c)
    (hsq : t.sq = Function.update s.sq r.sqid (some { q with reqList := q.reqList ++ [r.idx] }))
    (hcq : t.cq = Function.update s.cq r.sqid (some (incCqTail c)))
    (hin : inflight s p = r ::ₘ inflight t p) (hne : ∀ p', p' ≠ p → inflight t p' = inflight s p') :
    RoomInv n 0 t ∧ (c.tail + 1) % c.size ≠ c.head := by
  have hmem : r ∈ inflight s p := by
    rw [hin]
    exact Multiset.mem_cons_self _ _
  have hp := hinv.flight_poller p r hmem
  have hrange := hinv.flight_range p r hmem
  have hle : ∀ p', inflight t p' ≤ inflight s p' := inflight_le_of_cons hin hne
  have hload : load n t { q with reqList := q.reqList ++ [r.idx] } + 1 = load n s q := by
    have hout := outstanding_of_cons (n := n) (hp ▸ hin)
    simp only [load, haddr, hinv.sqid_eq _ q hq, hout, Multiset.card_cons]
    rfl
  have hpos : r.sqid ≠ 0 := by omega
  obtain ⟨hroom, hslot⟩ := h.room hq hc (by omega)
  refine ⟨h.post hc hcq (fun j q' hq' => ?_) hroom, hslot⟩
  rw [hsq, Function.update_apply] at hq'
  split at hq'
  case isTrue hj =>
    cases hq'
    refine ⟨q, hj ▸ hq, rfl, h.sqs _ q hq, ?_⟩
    rw [if_pos hj, ite_self]
    exact hload.le
  case isFalse hj =>
    refine ⟨q', hq', rfl, h.sqs j q' hq', ?_⟩
    rw [if_neg hj]
    exact Nat.add_le_add_right (load_le le_rfl ⟨rfl, rfl⟩ hle) _

/-! ## the admin commands -/

/-- There is nothing to complete for a queue that has not been made yet. -/
theorem load_fresh (hinv : FlowInv n s) (hfresh : s.nextAddr ≤ q.addr) (hempty : q.head = q.tail)
    (hin : ∀ p, inflight t p ≤ inflight s p) : load n t q = 0 := by
  have hout : outstanding n t q.addr q.sqid = 0 := by
    rw [outstanding, Multiset.filter_eq_nil]
    intro r hr heq
    have hlt := hinv.flight_lt _ r (Multiset.mem_of_le (hin _) hr)
    omega
  rw [load, pending, hempty, gap_self, hout]
  rfl

theorem queueCmd_roomInv {cmd : QueueCmd} {st : Status} (h : RoomInv n k s) (hinv : Inv n s)
    (hcmd : queueCmd n s now cmd = some (st, t))
    (hnew : ∀ d prpList q, cmd = .createCq d prpList → d.cqid.toNat ≠ 0 →
      s.sq d.cqid.toNat = some q → Fits (load n s q) (u16 (d.qsize.toNat + 1)) 0) :
    RoomInv n k t := by
  obtain ⟨hrest, -, hzero⟩ := queueCmd_rest hinv hcmd
  have hin : ∀ p, inflight t p = inflight s p := by
    intro p
    rw [hrest]
    rfl
  constructor
  case admin => exact hzero ▸ h.admin
  case sqs =>
    intro i q hq
    rcases queueCmd_sq hinv hcmd hq with hq | ⟨d, prpList, -, -, -, rfl⟩
    · exact h.sqs i q hq
    · exact inRing_zero _
  case cqs =>
    intro j c' hc'
    rcases queueCmd_cq hinv hcmd hc' with ⟨c, hc, -, -, -, hsize, hhead, htail⟩ | ⟨d, prpList, -, -, -, rfl⟩
    · rw [hsize, hhead, htail]
      exact h.cqs j c hc
    · exact inRing_zero _
  case fits =>
    intro i q c' hq hc'
    rcases queueCmd_sq hinv hcmd hq with hq | ⟨d, prpList, -, hok, rfl, rfl⟩
    · have hload : load n t q = load n s q := by
        simp only [load, outstanding, hin]
      rw [hload]
      rcases queueCmd_cq hinv hcmd hc' with ⟨c, hc, -, -, -, hsize, hhead, htail⟩ | ⟨d, prpList, rfl, hok, rfl, rfl⟩
      · rw [unconsumed, hsize, hhead, htail]
        exact h.fits i q c hq hc
      · have hfits := hnew d prpList q rfl hok.1.1 hq
        rw [if_neg hok.1.1]
        simpa [unconsumed, newCq] using hfits
    · rw [load_fresh hinv.flow le_rfl rfl fun p => (hin p).le, if_neg hok.2.1.1]
      exact .inl rfl

theorem adminCmd_roomInv {cmd : AdminCmd} {st : Status} (h : RoomInv n k s) (hinv : Inv n s)
    (hcmd : adminCmd n s now cmd = some (st, t))
    (hnew : ∀ d prpList q, cmd = .queue (.createCq d prpList) → d.cqid.toNat ≠ 0 →
      s.sq d.cqid.toNat = some q → Fits (load n s q) (u16 (d.qsize.toNat + 1)) 0) :
    RoomInv n k t := by
  cases cmd with
  | queue cmd =>
      exact queueCmd_roomInv h hinv hcmd fun d prpList q hd => hnew d prpList q (congrArg _ hd)
  | abort sqid cid =>
      rcases abortReq_cases hcmd with ⟨-, rfl⟩ | ⟨-, q, slot, idx, rest, hq, -, rfl⟩
      · exact h
      · refine h.refine (fun i q' hq' => ?_) (h.sameCqs rfl)
        rw [setAsideReq_sq] at hq'
        split at hq'
        case isTrue hi =>
          cases hq'
          exact ⟨q, hi ▸ hq, rfl, h.sqs _ q hq, le_rfl⟩
        case isFalse => exact ⟨q', hq', rfl, h.sqs i q' hq', le_rfl⟩
  | setDbMemory valid =>
      rcases setDbMemory_cases hcmd with rfl | rfl
      · exact h
      · exact h.same rfl rfl fun _ => le_rfl
  | other st =>
      cases hcmd
      exact h

theorem processSqAdmin_roomInv {cmd : AdminCmd} (h : RoomInv n 0 s) (hinv : Inv n s)
    (hstep : processSqAdmin n s cmd now = some t) (hpaced : Paced n s (.admin cmd now)) :
    RoomInv n 0 t ∧ ∃ e, t.posted = s.posted ++ [e] ∧ (e.slot + 1) % e.size ≠ e.head := by
  obtain ⟨q, st, u, c, e, hq, ⟨hne, hsize⟩, hcmd, hc, he, rfl⟩ := processSqAdmin_cases hstep
  have hinv' := incSqHead_inv hinv hq
  have hlt := (h.sqs 0 q hq).lt hsize
  -- the command that has been taken is owed its completion
  have howed : RoomInv n 1 (s.setSq 0 (some (incSqHead q))) := by
    refine h.refine (fun i q' hq' => ?_) (h.sameCqs rfl)
    rw [QueueCtrl.setSq_sq, Function.update_apply] at hq'
    split at hq'
    case isTrue hi =>
      cases hq'
      subst hi
      have hpend : pending (incSqHead q) + 1 = pending q := gap_succ_head hlt.1 hlt.2 hne
      have hmod := Nat.mod_lt (q.head + 1) (Nat.pos_of_ne_zero hsize)
      refine ⟨q, hq, rfl, ⟨lt_max_of_lt_left hmod, (h.sqs 0 q hq).2⟩, ?_⟩
      have hload : load n (s.setSq 0 (some (incSqHead q))) (incSqHead q) + 1 = load n s q := by
        simp only [load, ← hpend, incSqHead_addr, incSqHead_sqid]
        exact Nat.add_right_comm _ _ _
      rw [if_pos rfl, if_pos rfl]
      omega
    case isFalse hi =>
      refine ⟨q', hq', rfl, h.sqs i q' hq', ?_⟩
      rw [if_neg hi, if_neg hi]
      exact le_rfl
  have hu : RoomInv n 1 u := by
    refine adminCmd_roomInv howed hinv' hcmd fun d prpList q₁ hd hpos hq₁ => ?_
    subst hd
    rw [QueueCtrl.setSq_sq, Function.update_of_ne hpos] at hq₁
    have hfits : Fits (load n s q₁) (u16 (d.qsize.toNat + 1)) 0 := by
      simpa only [Paced, hq₁, Option.all_some, decide_eq_true_eq] using hpaced
    exact hfits
  have hrest := adminCmd_rest hinv' hcmd
  obtain ⟨q', hq', haddr⟩ := adminCmd_sq_zero hinv' hcmd (q := incSqHead q) (by simp)
  have hcqid : q.cqid = 0 := h.admin q hq
  rw [hcqid] at hc
  obtain ⟨hroom, hslot⟩ := hu.room hq' hc (by rw [if_pos rfl]; omega)
  refine ⟨hu.post hc (by rw [hcqid]; rfl) (fun j q₁ hq₁ => ?_) hroom, e, ?_, ?_⟩
  · refine ⟨q₁, hq₁, rfl, hu.sqs j q₁ hq₁, ?_⟩
    have hload : load n { u.setCq q.cqid (some (incCqTail c)) with posted := u.posted ++ [e] } q₁ =
        load n u q₁ := rfl
    rw [hload]
    split <;> omega
  · have hposted : u.posted = s.posted := hrest.posted
    rw [← hposted]
  · rw [he]
    exact hslot

/-! ## every step -/

theorem fetch_roomInv {status : Status} {idx : Nat} {rest : List Nat} (h : RoomInv n 0 s)
    (hinv : FlowInv n s) (hq : s.sq i = some q) (hne : q.head ≠ q.tail) :
    RoomInv n 0 (if status = nvmeSuccess then
        enqueueFtl (takeReq s i now status q idx rest) p ⟨q.addr, q.sqid, idx⟩
      else dropReq (takeReq s i now status q idx rest) ⟨q.addr, q.sqid, idx⟩) := by
  refine h.take hinv hq hne
    (?_ : _ = Function.update s.sq i (some { incSqHead q with reqList := rest })) ?_ rfl
    (inflight_fetch ⟨q.addr, q.sqid, idx⟩)
  · split
    · exact enqueueFtl_sq ..
    · rfl
  · split
    · exact enqueueFtl_cq ..
    · rfl

theorem RoomInv.hostTail {tail : Nat} (h : RoomInv n 0 s) (hq : s.sq i = some q)
    (hpaced : Paced n s (.hostTail i tail)) :
    RoomInv n 0 (s.setSq i (some { q with tail := tail })) := by
  simp only [Paced, hq, Option.all_some, Bool.decide_and, Bool.and_eq_true, decide_eq_true_eq,
    Option.all_eq_true] at hpaced
  obtain ⟨htail, hfits⟩ := hpaced
  have hring := (h.sqs i q hq).lt (by omega)
  have hsq : ∀ j q', (s.setSq i (some { q with tail := tail })).sq j = some q' →
      j = i ∧ q' = { q with tail := tail } ∨ s.sq j = some q' := by
    intro j q' hq'
    rw [QueueCtrl.setSq_sq, Function.update_apply] at hq'
    grind
  constructor
  case admin =>
    intro q' hq'
    rcases hsq 0 q' hq' with ⟨rfl, rfl⟩ | hold
    · exact h.admin q hq
    · exact h.admin q' hold
  case sqs =>
    intro j q' hq'
    rcases hsq j q' hq' with ⟨rfl, rfl⟩ | hold
    · exact ⟨lt_max_of_lt_left hring.1, lt_max_of_lt_left htail⟩
    · exact h.sqs j q' hold
  case cqs => exact h.cqs
  case fits =>
    intro j q' c hq' hc
    rcases hsq j q' hq' with ⟨rfl, rfl⟩ | hold
    · rw [ite_self]
      exact hfits c hc
    · exact h.fits j q' c hold hc

theorem RoomInv.hostHead {head : Nat} (h : RoomInv n 0 s) (hc : s.cq j = some c)
    (hpaced : Paced n s (.hostHead j head)) :
    RoomInv n 0 (s.setCq j (some { c with head := head })) := by
  simp only [Paced, hc, Option.all_some, Bool.decide_and, Bool.and_eq_true,
    decide_eq_true_eq] at hpaced
  obtain ⟨hhead, hused⟩ := hpaced
  have hring := (h.cqs j c hc).lt (by omega)
  refine h.refine (fun i q hq => ⟨q, hq, rfl, h.sqs i q hq, le_rfl⟩) fun i c' hc' => ?_
  rw [QueueCtrl.setCq_cq, Function.update_apply] at hc'
  split at hc'
  case isTrue hj =>
    cases hc'
    exact ⟨c, hj ▸ hc, ⟨lt_max_of_lt_left hhead, lt_max_of_lt_left hring.2⟩, rfl, hused⟩
  case isFalse => exact ⟨c', hc', h.cqs i c' hc', rfl, le_rfl⟩

theorem RoomInv.addAdmin {asqs acqs : Nat} (h : RoomInv n 0 s) (hinv : FlowInv n s) :
    RoomInv n 0 (addAdmin s asqs acqs) := by
  constructor
  case admin =>
    intro q hq
    rw [addAdmin_sq, if_pos rfl] at hq
    cases hq
    rfl
  case sqs =>
    intro i q hq
    rw [addAdmin_sq] at hq
    split at hq
    case isTrue =>
      cases hq
      exact inRing_zero _
    case isFalse => exact h.sqs i q hq
  case cqs =>
    intro j c hc
    rw [addAdmin_cq] at hc
    split at hc
    case isTrue =>
      cases hc
      exact inRing_zero _
    case isFalse => exact h.cqs j c hc
  case fits =>
    intro i q c hq hc
    rw [addAdmin_sq] at hq
    rw [addAdmin_cq] at hc
    split at hq
    case isTrue =>
      cases hq
      have hload : load n (Queue.addAdmin s asqs acqs) (adminSq asqs (s.nextAddr + 1)) = 0 :=
        load_fresh hinv (Nat.le_succ _) rfl fun _ => le_rfl
      rw [hload, ite_self]
      exact .inl rfl
    case isFalse hi =>
      rw [if_neg hi] at hc
      exact h.fits i q c hq hc

/-- What a step posts. -/
def PostsRoom (s t : QueueCtrl) : Prop :=
  t.posted = s.posted ∨ ∃ e, t.posted = s.posted ++ [e] ∧ (e.slot + 1) % e.size ≠ e.head

/-- **Step**: there stays room for the completions, and one is posted in this room. -/
theorem step_roomInv (h : RoomInv n 0 s) (hinv : Inv n s) (hstep : step? n s a = some t)
    (hpaced : Paced n s a) : RoomInv n 0 t ∧ PostsRoom s t := by
  have hle := step_inflight_le hinv hstep
  cases a with
  | hostSqe addr slot e =>
      cases hstep
      exact ⟨h.same rfl rfl (hle (by simp)), .inl rfl⟩
  | hostTail i tail =>
      obtain ⟨q, hq, rfl⟩ := Option.map_eq_some_iff.mp hstep
      exact ⟨h.hostTail hq hpaced, .inl rfl⟩
  | hostHead j head =>
      obtain ⟨c, hc, rfl⟩ := Option.map_eq_some_iff.mp hstep
      exact ⟨h.hostHead hc hpaced, .inl rfl⟩
  | enable asqs acqs =>
      rcases startCtrl_cases hstep with rfl | ⟨-, -, -, rfl⟩
      · exact ⟨h, .inl rfl⟩
      · exact ⟨h.addAdmin hinv.flow, .inl rfl⟩
  | disable =>
      cases hstep
      refine ⟨h.refine (fun i q' hq' => ?_) (fun j c' hc' => ?_), .inl rfl⟩
      · have hq : s.sq i = some q' := by
          simp only [clearCtrl] at hq'
          grind
        exact ⟨q', hq, rfl, h.sqs i q' hq, le_rfl⟩
      · have hc : s.cq j = some c' := by
          simp only [clearCtrl] at hc'
          grind
        exact ⟨c', hc, h.cqs j c' hc, rfl, le_rfl⟩
  | admin cmd now =>
      obtain ⟨hroom, e, hposted, hslot⟩ := processSqAdmin_roomInv h hinv hstep hpaced
      exact ⟨hroom, .inr ⟨e, hposted, hslot⟩⟩
  | enter i =>
      obtain ⟨q, c, -, -, -, rfl⟩ := enterSq_cases hstep
      exact ⟨h.same rfl rfl (hle (by simp)), .inl rfl⟩
  | fetch i now status =>
      obtain ⟨q, idx, rest, hq, -, ⟨hne, -⟩, -, rfl⟩ := processSqIo_cases hstep
      refine ⟨fetch_roomInv h hinv.flow hq hne, .inl ?_⟩
      unfold enqueueFtl
      split
      · split <;> rfl
      · rfl
  | leave i =>
      obtain rfl := leaveSq_cases hstep
      exact ⟨h.same rfl rfl (hle (by simp)), .inl rfl⟩
  | ftl p lat =>
      obtain ⟨r, rest, q, -, -, -, -, rfl⟩ := ftlThread_cases hstep
      refine ⟨h.same (enqueuePoller_sq ..) (enqueuePoller_cq ..) (hle (by simp)), .inl ?_⟩
      unfold enqueuePoller
      split
      · rfl
      · rfl
  | collect p =>
      obtain ⟨r, rest, -, rfl⟩ := collectCpl_cases hstep
      exact ⟨h.same rfl rfl (hle (by simp)), .inl rfl⟩
  | complete p r now =>
      obtain ⟨q, c, e, hq, haddr, hmem, hc, -, he, rfl⟩ := postCpl_cases hstep
      have hsqid := hinv.flow.sqid_eq _ q hq
      obtain ⟨hin, hne⟩ := inflight_postCpl hmem q c e
      obtain ⟨hroom, hslot⟩ := h.complete hinv.flow hq haddr (hsqid ▸ hc) rfl (by rw [hsqid]) hin hne
      exact ⟨hroom, .inr ⟨e, rfl, by rw [he]; exact hslot⟩⟩
  | notify p =>
      obtain ⟨-, rfl⟩ := notifyIo_cases hstep
      exact ⟨h.same rfl rfl (hle (by simp)), .inl rfl⟩

/-- **No overflow**: in a run where the host leaves a slot of the completion queue for each
command that it submits, no entry is written to a slot that holds one the host has not
consumed. -/
theorem cq_never_overflows {acts : List Act}
    (hrun : Run (fun s a t => Paced n s a ∧ step? n s a = some t) .reset acts s) :
    NoOverflow s := by
  have hall : Inv n s ∧ RoomInv n 0 s ∧ NoOverflow s := by
    refine hrun.invariant (I := fun s => Inv n s ∧ RoomInv n 0 s ∧ NoOverflow s) ?_
      ⟨reset_inv, ?_, ?_⟩
    · rintro s a t ⟨hinv, hroom, hno⟩ ⟨hpaced, hstep⟩
      obtain ⟨hroom', hposted | ⟨e, hposted, hslot⟩⟩ := step_roomInv hroom hinv hstep hpaced
      · refine ⟨step_inv hinv hstep, hroom', ?_⟩
        rw [NoOverflow, hposted]
        exact hno
      · refine ⟨step_inv hinv hstep, hroom', ?_⟩
        rw [NoOverflow, hposted]
        exact List.forall_mem_append.mpr ⟨hno, List.forall_mem_singleton.mpr hslot⟩
    · constructor <;> simp [QueueCtrl.reset]
    · simp [NoOverflow, QueueCtrl.reset]
  exact hall.2.2

/-- The host submits two commands to a queue with a completion queue of eight slots. -/
theorem cq_never_overflows_small :
    ∃ s, Run (fun s a t => Paced onePair s a ∧ step? onePair s a = some t) .reset
      (startUp ++ submit nvmeSuccess ++ [.ftl 1 10, .collect 1, .complete 1 ⟨3, 1, 0⟩ 20,
        .hostTail 1 2, .fetch 1 30 nvmeSuccess, .hostHead 1 1, .ftl 1 10, .collect 1,
        .complete 1 ⟨3, 1, 1⟩ 40]) s ∧
      s.posted.map (fun e => (e.cq, e.slot, e.head)) =
        [(0, 0, 0), (0, 1, 0), (0, 2, 0), (1, 0, 0), (1, 1, 1)] ∧ NoOverflow s := by
  have hends : (exec (allowed (Paced onePair) (step? onePair))
      (startUp ++ submit nvmeSuccess ++ [.ftl 1 10, .collect 1, .complete 1 ⟨3, 1, 0⟩ 20,
        .hostTail 1 2, .fetch 1 30 nvmeSuccess, .hostHead 1 1, .ftl 1 10, .collect 1,
        .complete 1 ⟨3, 1, 1⟩ 40]) .reset).map
        (fun s => s.posted.map (fun e => (e.cq, e.slot, e.head))) =
      some [(0, 0, 0), (0, 1, 0), (0, 2, 0), (1, 0, 0), (1, 1, 1)] := by decide +kernel
  obtain ⟨s, hs, hposted⟩ := Option.map_eq_some_iff.mp hends
  have hrun := run_of_exec_allowed hs
  exact ⟨s, hrun, hposted, cq_never_overflows hrun⟩

/-- A completion queue of two slots is given two completions while its head is at 0. -/
theorem cq_overflows :
    ∃ s, Run (fun s a t => step? onePair s a = some t) .reset
      [.enable 31 31, .hostTail 0 3, .admin (.queue (makeCq 1 1)) 0,
        .admin (.queue (makeSq 1 1 3)) 0, .admin (.setDbMemory true) 0, .hostSqe 3 0 ⟨1, 42⟩,
        .hostSqe 3 1 ⟨1, 43⟩, .hostTail 1 2, .enter 1, .fetch 1 5 nvmeSuccess,
        .fetch 1 5 nvmeSuccess, .ftl 1 10, .ftl 1 10, .collect 1, .collect 1,
        .complete 1 ⟨3, 1, 0⟩ 20, .complete 1 ⟨3, 1, 1⟩ 20] s ∧
      (s.posted.drop 3).map (fun e => (e.cq, e.cid, e.slot, e.head, e.size)) =
        [(1, 42, 0, 0, 2), (1, 43, 1, 0, 2)] ∧ ¬ NoOverflow s := by
  have hends : (exec (step? onePair)
      [.enable 31 31, .hostTail 0 3, .admin (.queue (makeCq 1 1)) 0,
        .admin (.queue (makeSq 1 1 3)) 0, .admin (.setDbMemory true) 0, .hostSqe 3 0 ⟨1, 42⟩,
        .hostSqe 3 1 ⟨1, 43⟩, .hostTail 1 2, .enter 1, .fetch 1 5 nvmeSuccess,
        .fetch 1 5 nvmeSuccess, .ftl 1 10, .ftl 1 10, .collect 1, .collect 1,
        .complete 1 ⟨3, 1, 0⟩ 20, .complete 1 ⟨3, 1, 1⟩ 20] .reset).map (fun s =>
      decide ((s.posted.drop 3).map (fun e => (e.cq, e.cid, e.slot, e.head, e.size)) =
          [(1, 42, 0, 0, 2), (1, 43, 1, 0, 2)] ∧
        ∃ e ∈ s.posted, (e.slot + 1) % e.size = e.head)) = some true := by decide +kernel
  obtain ⟨s, hs, heq⟩ := Option.map_eq_some_iff.mp hends
  obtain ⟨hposted, e, he, hslot⟩ := of_decide_eq_true heq
  exact ⟨s, run_of_exec hs, hposted, fun hno => hno e he hslot⟩

end Femu.Queue

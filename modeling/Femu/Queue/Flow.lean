import Mathlib.Data.Multiset.Range
import Femu.Lib.Ledger
import Femu.Queue.Io

/-!
# Femu.Queue.Flow

The requests of a submission queue as a `Ledger`: the entries of `io_req` are the tokens
and the ids of the commands are the tags. Every step of the controller is a step of the
ledger of each live I/O queue, or makes a new queue with a new ledger; so every ledger is
balanced in every run, whatever the steps and their order.
-/

namespace Femu.Queue

open Nvme Lib

variable {n : QueueCfg} {s t : QueueCtrl} {i j p p' a now : Nat} {q q' : NvmeSQueue} {r r' : ReqId}

/-! ## ledgers -/

/-- The requests in the rings and in the priority queue of a poller. -/
def inflight (s : QueueCtrl) (p : Nat) : Multiset ReqId :=
  (s.toFtl p : Multiset ReqId) + (s.toPoller p : Multiset ReqId) + (s.pq p : Multiset ReqId)

/-- The requests on their way of the submission queue at `a` with the number `i`. -/
def outstanding (n : QueueCfg) (s : QueueCtrl) (a i : Nat) : Multiset ReqId :=
  (inflight s (n.poller i)).filter (·.addr = a)

def ledger (n : QueueCfg) (s : QueueCtrl) (q : NvmeSQueue) : Ledger Nat UInt16 where
  free := q.reqList
  aside := q.outReqList
  flight := (outstanding n s q.addr q.sqid).map fun r => (r.idx, (s.req r).cid)
  lost := ((s.dropped.filter (·.addr = q.addr)).map fun d => (d.idx, d.cid) : List _)
  taken := ((s.fetched.filter (·.addr = q.addr)).map Fetched.cid : List _)
  given := ((s.posted.filter (·.addr = q.addr)).map Posted.cid : List _)

/-- What is known of the requests in every run. -/
structure FlowInv (n : QueueCfg) (s : QueueCtrl) : Prop where
  sqid_eq : ∀ i q, s.sq i = some q → q.sqid = i
  addr_lt : ∀ i q, s.sq i = some q → q.addr < s.nextAddr
  addr_inj : ∀ i j q q', s.sq i = some q → s.sq j = some q' → q.addr = q'.addr → i = j
  serving_range : ∀ i a, s.serving i = some a → 1 ≤ i ∧ i ≤ n.numIoQueues
  flight_lt : ∀ p, ∀ r ∈ inflight s p, r.addr < s.nextAddr
  flight_range : ∀ p, ∀ r ∈ inflight s p, 1 ≤ r.sqid ∧ r.sqid ≤ n.numIoQueues
  flight_poller : ∀ p, ∀ r ∈ inflight s p, p = n.poller r.sqid
  flight_sqid : ∀ p, ∀ r ∈ inflight s p, ∀ i q, s.sq i = some q → q.addr = r.addr → r.sqid = i
  fetched_lt : ∀ e ∈ s.fetched, e.addr < s.nextAddr
  dropped_lt : ∀ e ∈ s.dropped, e.addr < s.nextAddr
  posted_lt : ∀ e ∈ s.posted, e.addr < s.nextAddr
  balanced : ∀ i q, i ≠ 0 → s.sq i = some q → (ledger n s q).Balanced (Multiset.range q.size)

theorem reset_flowInv : FlowInv n .reset := by
  constructor <;> simp [QueueCtrl.reset, inflight]

/-! ## how the invariant moves -/

/-- The fields that a ledger is made of, apart from the lists of the queue. -/
structure SameFlow (s t : QueueCtrl) : Prop where
  toFtl : t.toFtl = s.toFtl
  toPoller : t.toPoller = s.toPoller
  pq : t.pq = s.pq
  req : t.req = s.req
  fetched : t.fetched = s.fetched
  dropped : t.dropped = s.dropped
  posted : t.posted = s.posted

/-- The same queue as far as requests go. -/
structure SameReqs (q q' : NvmeSQueue) : Prop where
  addr : q'.addr = q.addr
  sqid : q'.sqid = q.sqid
  size : q'.size = q.size
  reqList : q'.reqList = q.reqList
  outReqList : q'.outReqList = q.outReqList

theorem SameFlow.inflight (h : SameFlow s t) : inflight t p = inflight s p := by
  simp only [Queue.inflight, h.toFtl, h.toPoller, h.pq]

theorem SameFlow.ledger (h : SameFlow s t) (hq : SameReqs q q') : ledger n t q' = ledger n s q := by
  simp only [Queue.ledger, outstanding, h.inflight, h.req, h.fetched, h.dropped, h.posted,
    hq.addr, hq.sqid, hq.reqList, hq.outReqList]

/-- Steps that make a step of each ledger. -/
theorem FlowInv.refine (h : FlowInv n s) (haddr : s.nextAddr ≤ t.nextAddr)
    (hserving : ∀ i a, t.serving i = some a → 1 ≤ i ∧ i ≤ n.numIoQueues)
    (hsq : ∀ i q', t.sq i = some q' → ∃ q, s.sq i = some q ∧
      (q'.addr = q.addr ∧ q'.sqid = q.sqid ∧ q'.size = q.size) ∧
      (i ≠ 0 → (ledger n s q).Step (ledger n t q')))
    (hflight : ∀ p, ∀ r ∈ inflight t p, r ∈ inflight s p ∨
      (∃ q, s.sq r.sqid = some q ∧ r.addr = q.addr) ∧
        (1 ≤ r.sqid ∧ r.sqid ≤ n.numIoQueues) ∧ p = n.poller r.sqid)
    (hfetched : ∀ e ∈ t.fetched, e.addr < t.nextAddr)
    (hdropped : ∀ e ∈ t.dropped, e.addr < t.nextAddr)
    (hposted : ∀ e ∈ t.posted, e.addr < t.nextAddr) : FlowInv n t where
  sqid_eq i q' hq' := by
    obtain ⟨q, hq, ⟨-, hsqid, -⟩, -⟩ := hsq i q' hq'
    rw [hsqid, h.sqid_eq i q hq]
  addr_lt i q' hq' := by
    obtain ⟨q, hq, ⟨haddr', -⟩, -⟩ := hsq i q' hq'
    rw [haddr']
    exact (h.addr_lt i q hq).trans_le haddr
  addr_inj i j q₁' q₂' hq₁' hq₂' heq := by
    obtain ⟨q₁, hq₁, ⟨ha₁, -⟩, -⟩ := hsq i q₁' hq₁'
    obtain ⟨q₂, hq₂, ⟨ha₂, -⟩, -⟩ := hsq j q₂' hq₂'
    exact h.addr_inj i j q₁ q₂ hq₁ hq₂ (by rw [← ha₁, ← ha₂, heq])
  serving_range := hserving
  flight_lt p r hr := by
    rcases hflight p r hr with hr | ⟨⟨q, hq, heq⟩, -⟩
    · exact (h.flight_lt p r hr).trans_le haddr
    · rw [heq]
      exact (h.addr_lt _ q hq).trans_le haddr
  flight_range p r hr := by
    rcases hflight p r hr with hr | ⟨-, hrange, -⟩
    · exact h.flight_range p r hr
    · exact hrange
  flight_poller p r hr := by
    rcases hflight p r hr with hr | ⟨-, -, hp⟩
    · exact h.flight_poller p r hr
    · exact hp
  flight_sqid p r hr i q' hq' heq' := by
    obtain ⟨q, hq, ⟨haddr', -⟩, -⟩ := hsq i q' hq'
    rcases hflight p r hr with hr | ⟨⟨q₀, hq₀, heq⟩, -⟩
    · exact h.flight_sqid p r hr i q hq (by rw [← haddr', heq'])
    · exact h.addr_inj _ _ q₀ q hq₀ hq (by rw [← heq, ← heq', haddr'])
  fetched_lt := hfetched
  dropped_lt := hdropped
  posted_lt := hposted
  balanced i q' hi hq' := by
    obtain ⟨q, hq, ⟨-, -, hsize⟩, hstep⟩ := hsq i q' hq'
    rw [hsize]
    exact (hstep hi).balanced (h.balanced i q hi hq)

/-- Steps that leave the requests alone. -/
theorem FlowInv.frame (h : FlowInv n s) (hflow : SameFlow s t) (haddr : s.nextAddr ≤ t.nextAddr)
    (hserving : ∀ i a, t.serving i = some a → 1 ≤ i ∧ i ≤ n.numIoQueues)
    (hsq : ∀ i q', t.sq i = some q' → ∃ q, s.sq i = some q ∧ SameReqs q q') : FlowInv n t := by
  refine h.refine haddr hserving ?_ (fun p r hr => .inl (hflow.inflight ▸ hr)) ?_ ?_ ?_
  · intro i q' hq'
    obtain ⟨q, hq, hsame⟩ := hsq i q' hq'
    refine ⟨q, hq, ⟨hsame.addr, hsame.sqid, hsame.size⟩, fun _ => ?_⟩
    rw [hflow.ledger hsame]
    exact .stay _
  · exact fun e he => (h.fetched_lt e (hflow.fetched ▸ he)).trans_le haddr
  · exact fun e he => (h.dropped_lt e (hflow.dropped ▸ he)).trans_le haddr
  · exact fun e he => (h.posted_lt e (hflow.posted ▸ he)).trans_le haddr

/-- No trace of an object that has not been made yet. -/
theorem FlowInv.ledger_fresh (h : FlowInv n s) (hflow : SameFlow s t) (hfresh : s.nextAddr ≤ q.addr)
    (hlist : q.reqList = List.range q.size) (hout : q.outReqList = []) :
    ledger n t q = .new (Multiset.range q.size) := by
  have hflight : outstanding n t q.addr q.sqid = 0 := by
    rw [outstanding, hflow.inflight, Multiset.filter_eq_nil]
    intro r hr heq
    have hlt := h.flight_lt _ r hr
    omega
  have hlost : t.dropped.filter (·.addr = q.addr) = [] := by
    rw [hflow.dropped, List.filter_eq_nil_iff]
    intro e he heq
    have hlt := h.dropped_lt e he
    have heq' : e.addr = q.addr := by simpa using heq
    omega
  have htaken : t.fetched.filter (·.addr = q.addr) = [] := by
    rw [hflow.fetched, List.filter_eq_nil_iff]
    intro e he heq
    have hlt := h.fetched_lt e he
    have heq' : e.addr = q.addr := by simpa using heq
    omega
  have hgiven : t.posted.filter (·.addr = q.addr) = [] := by
    rw [hflow.posted, List.filter_eq_nil_iff]
    intro e he heq
    have hlt := h.posted_lt e he
    have heq' : e.addr = q.addr := by simpa using heq
    omega
  simp only [ledger, hlist, hout, hflight, hlost, htaken, hgiven]
  rfl

/-- A new submission queue, in the place of another or in an empty one. -/
theorem FlowInv.newSq (h : FlowInv n s) (hflow : SameFlow s t) (hfresh : s.nextAddr ≤ q.addr)
    (haddr : q.addr < t.nextAddr) (hserving : t.serving = s.serving)
    (hsq : t.sq = Function.update s.sq q.sqid (some q)) (hlist : q.reqList = List.range q.size)
    (hout : q.outReqList = []) : FlowInv n t := by
  have hsq' : ∀ i q', t.sq i = some q' → i = q.sqid ∧ q' = q ∨ s.sq i = some q' := by
    intro i q' hq'
    rw [hsq, Function.update_apply] at hq'
    grind
  have hold : ∀ {i q'}, s.sq i = some q' → q'.addr ≠ q.addr := by
    intro i q' hq' heq
    have hlt := h.addr_lt i q' hq'
    omega
  constructor
  case balanced =>
    intro i q' hi hq'
    rcases hsq' i q' hq' with ⟨rfl, rfl⟩ | hq
    · rw [h.ledger_fresh hflow hfresh hlist hout]
      exact Ledger.new_balanced
    · rw [hflow.ledger ⟨rfl, rfl, rfl, rfl, rfl⟩]
      exact h.balanced i q' hi hq
  case flight_sqid =>
    intro p r hr i q' hq' heq
    rw [hflow.inflight] at hr
    rcases hsq' i q' hq' with ⟨rfl, rfl⟩ | hq
    · have hlt := h.flight_lt p r hr
      omega
    · exact h.flight_sqid p r hr i q' hq heq
  case sqid_eq =>
    intro i q' hq'
    rcases hsq' i q' hq' with ⟨rfl, rfl⟩ | hq
    · rfl
    · exact h.sqid_eq i q' hq
  case addr_lt =>
    intro i q' hq'
    rcases hsq' i q' hq' with ⟨rfl, rfl⟩ | hq
    · exact haddr
    · exact (h.addr_lt i q' hq).trans (hfresh.trans_lt haddr)
  case addr_inj =>
    intro i j q₁ q₂ hq₁ hq₂ heq
    have hinj := h.addr_inj i j q₁ q₂
    grind
  case serving_range => exact hserving ▸ h.serving_range
  case flight_lt =>
    intro p r hr
    exact (h.flight_lt p r (hflow.inflight ▸ hr)).trans (hfresh.trans_lt haddr)
  case flight_range => exact fun p r hr => h.flight_range p r (hflow.inflight ▸ hr)
  case flight_poller => exact fun p r hr => h.flight_poller p r (hflow.inflight ▸ hr)
  case fetched_lt =>
    exact fun e he => (h.fetched_lt e (hflow.fetched ▸ he)).trans (hfresh.trans_lt haddr)
  case dropped_lt =>
    exact fun e he => (h.dropped_lt e (hflow.dropped ▸ he)).trans (hfresh.trans_lt haddr)
  case posted_lt =>
    exact fun e he => (h.posted_lt e (hflow.posted ▸ he)).trans (hfresh.trans_lt haddr)

/-- Nothing has changed but for the requests of the submission queue at `a`. -/
structure SameElse (a : Nat) (s t : QueueCtrl) : Prop where
  flight : ∀ p b, b ≠ a →
    (inflight t p).filter (·.addr = b) = (inflight s p).filter (·.addr = b)
  cid : ∀ r, r.addr ≠ a → (t.req r).cid = (s.req r).cid
  fetched : ∀ b, b ≠ a → t.fetched.filter (·.addr = b) = s.fetched.filter (·.addr = b)
  dropped : ∀ b, b ≠ a → t.dropped.filter (·.addr = b) = s.dropped.filter (·.addr = b)
  posted : ∀ b, b ≠ a → t.posted.filter (·.addr = b) = s.posted.filter (·.addr = b)

theorem SameElse.outstanding (h : SameElse a s t) {b : Nat} (hb : b ≠ a) :
    (outstanding n t b i).map (fun r => (r.idx, (t.req r).cid)) =
      (outstanding n s b i).map fun r => (r.idx, (s.req r).cid) := by
  rw [Queue.outstanding, h.flight _ b hb, ← Queue.outstanding]
  refine Multiset.map_congr rfl fun r hr => ?_
  have hr' : r.addr = b := (Multiset.mem_filter.mp hr).2
  rw [h.cid r (hr' ▸ hb)]

theorem SameElse.ledger (h : SameElse a s t) (hq : q.addr ≠ a) : ledger n t q = ledger n s q := by
  simp only [Queue.ledger, h.outstanding hq, h.fetched _ hq, h.dropped _ hq, h.posted _ hq]

/-- Steps that concern the submission queue in place `i`. -/
theorem FlowInv.own (h : FlowInv n s) (hq : s.sq i = some q)
    (hsq : t.sq = Function.update s.sq i (some q'))
    (hsame : q'.addr = q.addr ∧ q'.sqid = q.sqid ∧ q'.size = q.size)
    (helse : SameElse q.addr s t) (haddr : t.nextAddr = s.nextAddr)
    (hserving : t.serving = s.serving)
    (hstep : i ≠ 0 → (Queue.ledger n s q).Step (Queue.ledger n t q'))
    (hown : ∀ p, ∀ r ∈ inflight t p, r.addr = q.addr → r ∈ inflight s p ∨
      r.sqid = i ∧ (1 ≤ i ∧ i ≤ n.numIoQueues) ∧ p = n.poller i) : FlowInv n t := by
  have hq_lt := h.addr_lt i q hq
  refine h.refine haddr.ge (hserving ▸ h.serving_range) ?_ ?_ ?_ ?_ ?_
  · intro j q₀ hq₀
    rw [hsq, Function.update_apply] at hq₀
    split at hq₀
    case isTrue hj =>
      cases hq₀
      exact ⟨q, hj ▸ hq, hsame, hj ▸ hstep⟩
    case isFalse hj =>
      have hne : q₀.addr ≠ q.addr := fun heq => hj (h.addr_inj j i q₀ q hq₀ hq heq)
      refine ⟨q₀, hq₀, ⟨rfl, rfl, rfl⟩, fun _ => ?_⟩
      rw [helse.ledger hne]
      exact .stay _
  · intro p r hr
    by_cases hr' : r.addr = q.addr
    · rcases hown p r hr hr' with hin | ⟨hi, hrange, hp⟩
      · exact .inl hin
      · exact .inr ⟨⟨q, hi ▸ hq, hr'⟩, hi ▸ hrange, hi ▸ hp⟩
    · have hin : r ∈ (inflight t p).filter (·.addr = r.addr) := Multiset.mem_filter.mpr ⟨hr, rfl⟩
      rw [helse.flight p _ hr'] at hin
      exact .inl (Multiset.mem_filter.mp hin).1
  · intro e he
    by_cases he' : e.addr = q.addr
    · omega
    · have hin : e ∈ t.fetched.filter (·.addr = e.addr) := by simpa using he
      rw [helse.fetched _ he'] at hin
      exact haddr ▸ h.fetched_lt e (List.mem_filter.mp hin).1
  · intro e he
    by_cases he' : e.addr = q.addr
    · omega
    · have hin : e ∈ t.dropped.filter (·.addr = e.addr) := by simpa using he
      rw [helse.dropped _ he'] at hin
      exact haddr ▸ h.dropped_lt e (List.mem_filter.mp hin).1
  · intro e he
    by_cases he' : e.addr = q.addr
    · omega
    · have hin : e ∈ t.posted.filter (·.addr = e.addr) := by simpa using he
      rw [helse.posted _ he'] at hin
      exact haddr ▸ h.posted_lt e (List.mem_filter.mp hin).1

/-! ## the steps of a request -/

theorem coe_concat {α : Type} (l : List α) (x : α) :
    ((l ++ [x] : List α) : Multiset α) = x ::ₘ (l : Multiset α) :=
  Multiset.coe_eq_coe.mpr (List.perm_append_singleton x l)

/-- One more entry of a log. -/
theorem coe_log_concat {α β : Type} (l : List α) {x : α} {P : α → Bool} (f : α → β) (hx : P x) :
    (((l ++ [x]).filter P).map f : Multiset β) = f x ::ₘ ((l.filter P).map f : Multiset β) := by
  rw [List.filter_append, List.filter_cons_of_pos hx, List.filter_nil, List.map_append]
  exact coe_concat _ _

section requests

variable {idx lat : Nat} {rest : List Nat} {status : Status} {u : QueueCtrl}

/-- A free request is not on its way. -/
theorem FlowInv.not_inflight (h : FlowInv n s) (hq : s.sq i = some q) (hi : i ≠ 0)
    (hidx : idx ∈ q.reqList) : ReqId.mk q.addr q.sqid idx ∉ inflight s p := by
  intro hin
  have hpoller : p = n.poller q.sqid := h.flight_poller p _ hin
  have hout : ReqId.mk q.addr q.sqid idx ∈ outstanding n s q.addr q.sqid :=
    Multiset.mem_filter.mpr ⟨hpoller ▸ hin, rfl⟩
  have hflight := Multiset.mem_map_of_mem (fun r => (r.idx, (s.req r).cid)) hout
  exact (h.balanced i q hi hq).disjoint (Multiset.nodup_range _) hidx hflight

theorem outstanding_map_congr (hin : inflight t (n.poller i) = inflight s (n.poller i))
    (hcid : ∀ r ∈ inflight s (n.poller i), (t.req r).cid = (s.req r).cid) :
    (outstanding n t a i).map (fun r => (r.idx, (t.req r).cid)) =
      (outstanding n s a i).map fun r => (r.idx, (s.req r).cid) := by
  rw [outstanding, hin, ← outstanding]
  refine Multiset.map_congr rfl fun r hr => ?_
  rw [hcid r (Multiset.mem_filter.mp hr).1]

theorem FlowInv.refuse (h : FlowInv n s) (hq : s.sq i = some q) (hlist : q.reqList = idx :: rest)
    (hi : i ≠ 0) :
    FlowInv n (dropReq (takeReq s i now status q idx rest) ⟨q.addr, q.sqid, idx⟩) := by
  refine h.own hq rfl ⟨rfl, rfl, rfl⟩ ?_ rfl rfl (fun _ => ?_) fun p r hr _ => .inl hr
  · constructor
    case flight => exact fun p b _ => rfl
    case cid =>
      intro r hr
      have hne : r ≠ ⟨q.addr, q.sqid, idx⟩ := fun heq => hr (by rw [heq])
      simp [dropReq, takeReq, hne]
    case fetched =>
      intro b hb
      simp [dropReq, takeReq, List.filter_append, Ne.symm hb]
    case dropped =>
      intro b hb
      simp [dropReq, takeReq, List.filter_append, Ne.symm hb]
    case posted => exact fun b _ => rfl
  · have hfree : (ledger n s q).free = idx ::ₘ (rest : Multiset Nat) := by
      simp [ledger, hlist]
    convert Ledger.Step.refuse (s.sqes q.addr q.head).cid hfree using 1
    ext1
    case free => rfl
    case aside => rfl
    case flight =>
      refine outstanding_map_congr rfl fun r hr => ?_
      have hne : r ≠ ⟨q.addr, q.sqid, idx⟩ := fun heq =>
        h.not_inflight hq hi (by simp [hlist]) (heq ▸ hr)
      simp [dropReq, takeReq, hne]
    case lost =>
      refine (coe_log_concat s.dropped _ (by simp)).trans ?_
      simp only [takeReq, Function.update_self]
      rfl
    case taken => exact coe_log_concat s.fetched _ (by simp)
    case given => rfl

@[simp] theorem inflight_takeReq :
    inflight (takeReq s i now status q idx rest) p = inflight s p := rfl

theorem inflight_pushFtl :
    inflight (pushFtl s p r) p' = if p' = p then r ::ₘ inflight s p' else inflight s p' := by
  unfold inflight pushFtl
  split
  case isTrue hp =>
    subst hp
    simp only [Function.update_self, coe_concat, Multiset.cons_add]
  case isFalse hp => simp [hp]

theorem FlowInv.take (h : FlowInv n s) (hq : s.sq i = some q) (hlist : q.reqList = idx :: rest)
    (hi : 1 ≤ i ∧ i ≤ n.numIoQueues) :
    FlowInv n (pushFtl (takeReq s i now status q idx rest) (n.poller i)
      ⟨q.addr, q.sqid, idx⟩) := by
  have hpos : i ≠ 0 := by omega
  have hsqid := h.sqid_eq i q hq
  refine h.own hq rfl ⟨rfl, rfl, rfl⟩ ?_ rfl rfl (fun _ => ?_) fun p r hr _ => ?_
  · constructor
    case flight =>
      intro p b hb
      rw [inflight_pushFtl]
      split
      · exact Multiset.filter_cons_of_neg _ (Ne.symm hb)
      · rfl
    case cid =>
      intro r hr
      have hne : r ≠ ⟨q.addr, q.sqid, idx⟩ := fun heq => hr (by rw [heq])
      simp [pushFtl, takeReq, hne]
    case fetched =>
      intro b hb
      simp [pushFtl, takeReq, List.filter_append, Ne.symm hb]
    case dropped => exact fun b _ => rfl
    case posted => exact fun b _ => rfl
  · have hfree : (ledger n s q).free = idx ::ₘ (rest : Multiset Nat) := by
      simp [ledger, hlist]
    convert Ledger.Step.take (s.sqes q.addr q.head).cid hfree using 1
    ext1
    case free => rfl
    case aside => rfl
    case flight =>
      have hout : outstanding n (pushFtl (takeReq s i now status q idx rest) (n.poller i)
          ⟨q.addr, q.sqid, idx⟩) q.addr q.sqid =
            ⟨q.addr, q.sqid, idx⟩ ::ₘ outstanding n s q.addr q.sqid := by
        rw [outstanding, inflight_pushFtl, if_pos (by rw [hsqid])]
        exact Multiset.filter_cons_of_pos _ rfl
      have hrest : (outstanding n s q.addr q.sqid).map
          (fun r => (r.idx, ((takeReq s i now status q idx rest).req r).cid)) =
            (ledger n s q).flight := by
        refine Multiset.map_congr rfl fun r hr => ?_
        have hne : r ≠ ⟨q.addr, q.sqid, idx⟩ := fun heq =>
          h.not_inflight hq hpos (by simp [hlist]) (heq ▸ (Multiset.mem_filter.mp hr).1)
        simp [takeReq, hne]
      calc (ledger n _ _).flight
          = (⟨q.addr, q.sqid, idx⟩ ::ₘ outstanding n s q.addr q.sqid).map
              (fun r => (r.idx, ((takeReq s i now status q idx rest).req r).cid)) := by
            rw [← hout]
            rfl
        _ = _ := by
            rw [Multiset.map_cons, hrest]
            simp [takeReq]
    case lost => rfl
    case taken => exact coe_log_concat s.fetched _ (by simp)
    case given => rfl
  · rw [inflight_pushFtl] at hr
    split at hr
    case isFalse => exact .inl hr
    case isTrue hp =>
      rcases Multiset.mem_cons.mp hr with rfl | hr
      · exact .inr ⟨hsqid, hi, hp⟩
      · exact .inl hr

theorem inflight_pushPoller :
    inflight (pushPoller s p r) p' = if p' = p then r ::ₘ inflight s p' else inflight s p' := by
  unfold inflight pushPoller
  split
  case isTrue hp =>
    subst hp
    simp only [Function.update_self, coe_concat, Multiset.add_cons, Multiset.cons_add]
  case isFalse hp => simp [hp]

/-- A request that moves on within a poller. -/
theorem FlowInv.moved (h : FlowInv n s) (hin : ∀ p, inflight t p = inflight s p)
    (hcid : ∀ r, (t.req r).cid = (s.req r).cid) (haddr : t.nextAddr = s.nextAddr)
    (hserving : t.serving = s.serving) (hsq : t.sq = s.sq) (hfetched : t.fetched = s.fetched)
    (hdropped : t.dropped = s.dropped) (hposted : t.posted = s.posted) : FlowInv n t := by
  refine h.refine haddr.ge (hserving ▸ h.serving_range) ?_ (fun p r hr => .inl (hin p ▸ hr)) ?_ ?_ ?_
  · intro i q hq
    refine ⟨q, hsq ▸ hq, ⟨rfl, rfl, rfl⟩, fun _ => ?_⟩
    have hledger : ledger n t q = ledger n s q := by
      simp only [ledger, outstanding, hin, hcid, hfetched, hdropped, hposted]
    rw [hledger]
    exact .stay _
  · rw [haddr, hfetched]
    exact h.fetched_lt
  · rw [haddr, hdropped]
    exact h.dropped_lt
  · rw [haddr, hposted]
    exact h.posted_lt

/-- A request leaves its ring or queue. -/
theorem SameElse.flight_of_cons (hin : inflight s p = r ::ₘ inflight t p)
    (hne : ∀ p', p' ≠ p → inflight t p' = inflight s p') (hr : r.addr = a) {b : Nat} (hb : b ≠ a) :
    (inflight t p').filter (·.addr = b) = (inflight s p').filter (·.addr = b) := by
  by_cases hp : p' = p
  · subst hp
    rw [hin, Multiset.filter_cons_of_neg _ (by rw [hr]; exact Ne.symm hb)]
  · rw [hne p' hp]

theorem outstanding_of_cons (hin : inflight s (n.poller i) = r ::ₘ inflight t (n.poller i)) :
    outstanding n s r.addr i = r ::ₘ outstanding n t r.addr i := by
  rw [outstanding, hin]
  exact Multiset.filter_cons_of_pos _ rfl

/-- A request is lost on its way to the poller. -/
theorem FlowInv.lose (h : FlowInv n s) (hq : s.sq r.sqid = some q) (haddr : q.addr = r.addr)
    (hin : inflight s p = r ::ₘ inflight t p) (hne : ∀ p', p' ≠ p → inflight t p' = inflight s p')
    (hcid : ∀ r, (t.req r).cid = (s.req r).cid) (haddr' : t.nextAddr = s.nextAddr)
    (hserving : t.serving = s.serving) (hsq : t.sq = s.sq) (hfetched : t.fetched = s.fetched)
    (hposted : t.posted = s.posted)
    (hdropped : t.dropped = s.dropped ++ [⟨r.addr, r.idx, (t.req r).cid⟩]) : FlowInv n t := by
  have hp : p = n.poller r.sqid := h.flight_poller p r (by rw [hin]; exact Multiset.mem_cons_self _ _)
  refine h.own hq (by rw [hsq, ← hq, Function.update_eq_self]) ⟨rfl, rfl, rfl⟩ ?_ haddr' hserving
    (fun _ => ?_) fun p' r' hr' _ => .inl ?_
  · constructor
    case flight => exact fun p' b hb => SameElse.flight_of_cons hin hne haddr.symm hb
    case cid => exact fun r _ => hcid r
    case fetched => exact fun b _ => by rw [hfetched]
    case dropped =>
      intro b hb
      simp [hdropped, List.filter_append, ← haddr, Ne.symm hb]
    case posted => exact fun b _ => by rw [hposted]
  · have hout := outstanding_of_cons (n := n) (hp ▸ hin)
    have hflight : (ledger n s q).flight = (r.idx, (t.req r).cid) ::ₘ (ledger n t q).flight := by
      simp only [ledger, haddr, h.sqid_eq _ _ hq, hout, Multiset.map_cons, hcid]
    convert Ledger.Step.lose hflight using 1
    ext1
    case free => rfl
    case aside => rfl
    case flight => rfl
    case lost =>
      simp only [ledger, hdropped]
      exact coe_log_concat s.dropped _ (by simp [haddr])
    case taken => simp only [ledger, hfetched]
    case given => simp only [ledger, hposted]
  · by_cases hp' : p' = p
    · subst hp'
      rw [hin]
      exact Multiset.mem_cons_of_mem hr'
    · rwa [hne p' hp'] at hr'

/-- The completion of a request is posted. -/
theorem FlowInv.give (h : FlowInv n s) {e : Posted} (hq : s.sq r.sqid = some q)
    (haddr : q.addr = r.addr) (hin : inflight s p = r ::ₘ inflight t p)
    (hne : ∀ p', p' ≠ p → inflight t p' = inflight s p') (hreq : t.req = s.req)
    (haddr' : t.nextAddr = s.nextAddr) (hserving : t.serving = s.serving)
    (hsq : t.sq = Function.update s.sq r.sqid (some { q with reqList := q.reqList ++ [r.idx] }))
    (hfetched : t.fetched = s.fetched) (hdropped : t.dropped = s.dropped)
    (hposted : t.posted = s.posted ++ [e]) (he : e.addr = r.addr) (hecid : e.cid = (s.req r).cid) :
    FlowInv n t := by
  have hp : p = n.poller r.sqid := h.flight_poller p r (by rw [hin]; exact Multiset.mem_cons_self _ _)
  refine h.own hq hsq ⟨rfl, rfl, rfl⟩ ?_ haddr' hserving (fun _ => ?_) fun p' r' hr' _ => .inl ?_
  · constructor
    case flight => exact fun p' b hb => SameElse.flight_of_cons hin hne haddr.symm hb
    case cid => exact fun r _ => by rw [hreq]
    case fetched => exact fun b _ => by rw [hfetched]
    case dropped => exact fun b _ => by rw [hdropped]
    case posted =>
      intro b hb
      simp [hposted, List.filter_append, he, ← haddr, Ne.symm hb]
  · have hout := outstanding_of_cons (n := n) (hp ▸ hin)
    have hflight : (ledger n s q).flight = (r.idx, (s.req r).cid) ::ₘ
        (outstanding n t r.addr r.sqid).map fun r => (r.idx, (s.req r).cid) := by
      simp only [ledger, haddr, h.sqid_eq _ _ hq, hout, Multiset.map_cons]
    convert Ledger.Step.give hflight using 1
    ext1
    case free => exact coe_concat _ _
    case aside => rfl
    case flight => simp only [ledger, haddr, h.sqid_eq _ _ hq, hreq]
    case lost => simp only [ledger, hdropped]
    case taken => simp only [ledger, hfetched]
    case given =>
      simp only [ledger, hposted, ← hecid]
      exact coe_log_concat s.posted _ (by simp [he, haddr])
  · by_cases hp' : p' = p
    · subst hp'
      rw [hin]
      exact Multiset.mem_cons_of_mem hr'
    · rwa [hne p' hp'] at hr'

/-- A request is set aside for an aborted command. -/
theorem FlowInv.setAside (h : FlowInv n s) (hq : s.sq i = some q) (hlist : q.reqList = idx :: rest)
    {req : NvmeRequest}
    (hsq : t.sq = Function.update s.sq i (some { q with
      reqList := rest
      outReqList := q.outReqList ++ [idx] }))
    (hreq : t.req = Function.update s.req ⟨q.addr, q.sqid, idx⟩ req)
    (hin : ∀ p, inflight t p = inflight s p) (haddr : t.nextAddr = s.nextAddr)
    (hserving : t.serving = s.serving) (hfetched : t.fetched = s.fetched)
    (hdropped : t.dropped = s.dropped) (hposted : t.posted = s.posted) : FlowInv n t := by
  refine h.own hq hsq ⟨rfl, rfl, rfl⟩ ?_ haddr hserving (fun hi => ?_)
    fun p r hr _ => .inl (hin p ▸ hr)
  · constructor
    case flight => exact fun p b _ => by rw [hin]
    case cid =>
      intro r hr
      have hne : r ≠ ⟨q.addr, q.sqid, idx⟩ := fun heq => hr (by rw [heq])
      simp [hreq, hne]
    case fetched => exact fun b _ => by rw [hfetched]
    case dropped => exact fun b _ => by rw [hdropped]
    case posted => exact fun b _ => by rw [hposted]
  · have hfree : (ledger n s q).free = idx ::ₘ (rest : Multiset Nat) := by
      simp [ledger, hlist]
    convert Ledger.Step.setAside hfree using 1
    ext1
    case free => rfl
    case aside => exact coe_concat _ _
    case flight =>
      refine outstanding_map_congr (hin _) fun r hr => ?_
      have hne : r ≠ ⟨q.addr, q.sqid, idx⟩ := fun heq =>
        h.not_inflight hq hi (by simp [hlist]) (heq ▸ hr)
      simp [hreq, hne]
    case lost => simp only [ledger, hdropped]
    case taken => simp only [ledger, hfetched]
    case given => simp only [ledger, hposted]

/-- An admin command is completed. -/
theorem FlowInv.postAdmin (h : FlowInv n s) {e : Posted} (hq : s.sq 0 = some q)
    (he : e.addr = q.addr) (hin : ∀ p, inflight t p = inflight s p) (hreq : t.req = s.req)
    (haddr : t.nextAddr = s.nextAddr) (hserving : t.serving = s.serving) (hsq : t.sq = s.sq)
    (hfetched : t.fetched = s.fetched) (hdropped : t.dropped = s.dropped)
    (hposted : t.posted = s.posted ++ [e]) : FlowInv n t := by
  refine h.own hq (by rw [hsq, ← hq, Function.update_eq_self]) ⟨rfl, rfl, rfl⟩ ?_ haddr hserving
    (fun hi => absurd rfl hi) fun p r hr _ => .inl (hin p ▸ hr)
  constructor
  case flight => exact fun p b _ => by rw [hin]
  case cid => exact fun r _ => by rw [hreq]
  case fetched => exact fun b _ => by rw [hfetched]
  case dropped => exact fun b _ => by rw [hdropped]
  case posted =>
    intro b hb
    simp [hposted, List.filter_append, he, Ne.symm hb]

end requests

/-! ## every step -/

/-- A completion queue is in its place, and no request waits in it. -/
structure CqInv (s : QueueCtrl) : Prop where
  cqid_eq : ∀ j c, s.cq j = some c → c.cqid = j
  reqList_nil : ∀ j c, s.cq j = some c → c.reqList = []

theorem CqInv.update {c : NvmeCQueue} (h : CqInv s)
    (hcq : t.cq = Function.update s.cq j (some c)) (hid : c.cqid = j) (hnil : c.reqList = []) :
    CqInv t := by
  have hcq' : ∀ k, t.cq k = if k = j then some c else s.cq k := by
    intro k
    rw [hcq, Function.update_apply]
  obtain ⟨hid', hnil'⟩ := h
  constructor <;> grind

/-- A completion queue has changed in fields that are not looked at here. -/
theorem CqInv.modify {c c' : NvmeCQueue} (h : CqInv s) (hc : s.cq j = some c)
    (hcq : t.cq = Function.update s.cq j (some c')) (hid : c'.cqid = c.cqid)
    (hnil : c'.reqList = c.reqList) : CqInv t :=
  h.update hcq (hid.trans (h.cqid_eq j c hc)) (hnil.trans (h.reqList_nil j c hc))

theorem CqInv.subset (h : CqInv s)
    (hcq : ∀ j c', t.cq j = some c' → ∃ c, s.cq j = some c ∧ c'.cqid = c.cqid ∧
      c'.reqList = c.reqList) : CqInv t := by
  obtain ⟨hid', hnil'⟩ := h
  constructor <;> grind

theorem CqInv.same (h : CqInv s) (hcq : t.cq = s.cq) : CqInv t :=
  h.subset fun _ c' hc' => ⟨c', hcq ▸ hc', rfl, rfl⟩

theorem incCqTail_cqid (c : NvmeCQueue) : (incCqTail c).cqid = c.cqid := by
  unfold incCqTail
  split <;> rfl

theorem incCqTail_reqList (c : NvmeCQueue) : (incCqTail c).reqList = c.reqList := by
  unfold incCqTail
  split <;> rfl

/-- What holds in every run. -/
structure Inv (n : QueueCfg) (s : QueueCtrl) : Prop where
  flow : FlowInv n s
  cqs : CqInv s

theorem reset_inv : Inv n .reset where
  flow := reset_flowInv
  cqs := by constructor <;> simp [QueueCtrl.reset]

theorem SameReqs.rfl (q : NvmeSQueue) : SameReqs q q := ⟨.refl _, .refl _, .refl _, .refl _, .refl _⟩

/-- The submission queue in place `i` has changed in fields that requests do not use. -/
theorem FlowInv.modify (h : FlowInv n s) (hflow : SameFlow s t) (haddr : s.nextAddr ≤ t.nextAddr)
    (hserving : t.serving = s.serving) (hq : s.sq i = some q)
    (hsq : t.sq = Function.update s.sq i (some q')) (hsame : SameReqs q q') : FlowInv n t := by
  refine h.frame hflow haddr (hserving ▸ h.serving_range) fun j q₀ hq₀ => ?_
  rw [hsq, Function.update_apply] at hq₀
  split at hq₀
  case isTrue hj =>
    cases hq₀
    exact ⟨q, hj ▸ hq, hsame⟩
  case isFalse => exact ⟨q₀, hq₀, .rfl q₀⟩

theorem FlowInv.same (h : FlowInv n s) (hflow : SameFlow s t) (haddr : s.nextAddr ≤ t.nextAddr)
    (hserving : t.serving = s.serving) (hsq : t.sq = s.sq) : FlowInv n t :=
  h.frame hflow haddr (hserving ▸ h.serving_range) fun _ q' hq' => ⟨q', hsq ▸ hq', .rfl q'⟩

theorem Inv.effect {cmd : QueueCmd} {st : Status} (h : Inv n s)
    (hcmd : queueCmd n s now cmd = some (st, t)) : QueueEffect n s cmd st t :=
  queueCmd_effect h.flow.sqid_eq h.cqs.cqid_eq h.cqs.reqList_nil hcmd

/-- A queue command changes the tables only. -/
theorem queueCmd_rest {cmd : QueueCmd} {st : Status} (h : Inv n s)
    (hcmd : queueCmd n s now cmd = some (st, t)) :
    t = { s with sq := t.sq, cq := t.cq, nextAddr := t.nextAddr } ∧ s.nextAddr ≤ t.nextAddr ∧
      t.sq 0 = s.sq 0 := by
  cases h.effect hcmd with
  | refused | lostCq | retireCq | delCq => exact ⟨rfl, le_rfl, rfl⟩
  | createSq c prpList e hok he =>
      exact ⟨rfl, Nat.le_succ _, by rw [addSq_sq, if_neg (Ne.symm hok.2.1.1)]⟩
  | createCq d prpList hok => exact ⟨rfl, Nat.le_succ _, rfl⟩
  | delSq qid q hne hle hq =>
      have hsqid := h.flow.sqid_eq _ _ hq
      have hpos : 0 ≠ q.sqid := fun h0 => hne (UInt16.toNat_inj.mp (hsqid ▸ h0.symm))
      exact ⟨rfl, le_rfl, by rw [removeSq_sq, if_neg hpos]⟩

/-- A live submission queue after a queue command has just been made or was live before. -/
theorem queueCmd_sq {cmd : QueueCmd} {st : Status} (h : Inv n s)
    (hcmd : queueCmd n s now cmd = some (st, t)) (hq : t.sq i = some q) :
    s.sq i = some q ∨ ∃ c prpList, cmd = .createSq c prpList ∧ SqChecks n s c prpList ∧
      i = c.sqid.toNat ∧ q = newSq c s.nextAddr := by
  cases h.effect hcmd with
  | refused | lostCq | retireCq | delCq | createCq => exact .inl hq
  | createSq c prpList e hok he =>
      rw [addSq_sq] at hq
      split at hq
      case isTrue hi => exact .inr ⟨c, prpList, rfl, hok, hi, (Option.some.inj hq).symm⟩
      case isFalse => exact .inl hq
  | delSq qid q₀ hne hle hq₀ =>
      rw [removeSq_sq] at hq
      grind

/-- What a queue command never changes of a completion queue. -/
structure CqKin (c c' : NvmeCQueue) : Prop where
  addr : c'.addr = c.addr
  vector : c'.vector = c.vector
  irqEnabled : c'.irqEnabled = c.irqEnabled
  size : c'.size = c.size
  head : c'.head = c.head
  tail : c'.tail = c.tail

theorem CqKin.rfl (c : NvmeCQueue) : CqKin c c :=
  ⟨.refl _, .refl _, .refl _, .refl _, .refl _, .refl _⟩

/-- A completion queue after a queue command has just been made or was there before. -/
theorem queueCmd_cq {cmd : QueueCmd} {st : Status} {c' : NvmeCQueue} (h : Inv n s)
    (hcmd : queueCmd n s now cmd = some (st, t)) (hc : t.cq j = some c') :
    (∃ c, s.cq j = some c ∧ CqKin c c') ∨
      ∃ d prpList, cmd = .createCq d prpList ∧ CqChecks n s d prpList ∧ j = d.cqid.toNat ∧
        c' = newCq d s.nextAddr := by
  cases h.effect hcmd with
  | refused => exact .inl ⟨c', hc, .rfl c'⟩
  | createSq d prpList e hok he =>
      rw [addSq_cq] at hc
      split at hc
      case isTrue hj =>
        cases hc
        exact .inl ⟨e, hj ▸ he, rfl, rfl, rfl, rfl, rfl, rfl⟩
      case isFalse => exact .inl ⟨c', hc, .rfl c'⟩
  | createCq d prpList hok =>
      rw [addCq_cq] at hc
      split at hc
      case isTrue hj => exact .inr ⟨d, prpList, rfl, hok, hj, (Option.some.inj hc).symm⟩
      case isFalse => exact .inl ⟨c', hc, .rfl c'⟩
  | delSq qid q hne hle hq =>
      obtain ⟨c, l, hold, rfl⟩ := detached_eq_some hc
      exact .inl ⟨c, hold, rfl, rfl, rfl, rfl, rfl, rfl⟩
  | retireCq qid st e hst hne he hused =>
      rw [QueueCtrl.setCq_cq, Function.update_apply] at hc
      split at hc
      case isTrue hj =>
        cases hc
        exact .inl ⟨e, hj ▸ he, rfl, rfl, rfl, rfl, rfl, rfl⟩
      case isFalse => exact .inl ⟨c', hc, .rfl c'⟩
  | lostCq | delCq =>
      rw [QueueCtrl.setCq_cq, Function.update_apply] at hc
      split at hc
      case isTrue => cases hc
      case isFalse => exact .inl ⟨c', hc, .rfl c'⟩

theorem queueCmd_inv {cmd : QueueCmd} {st : Status} (h : Inv n s)
    (hcmd : queueCmd n s now cmd = some (st, t)) : Inv n t := by
  have heffect := h.effect hcmd
  obtain ⟨hflow, hcqs⟩ := h
  cases heffect with
  | refused => exact ⟨hflow, hcqs⟩
  | createSq c prpList e hok he =>
      exact ⟨hflow.newSq (q := newSq c s.nextAddr) ⟨rfl, rfl, rfl, rfl, rfl, rfl, rfl⟩ le_rfl
        (Nat.lt_succ_self _) rfl rfl rfl rfl, hcqs.modify he rfl rfl rfl⟩
  | createCq d prpList hok =>
      exact ⟨hflow.same ⟨rfl, rfl, rfl, rfl, rfl, rfl, rfl⟩ (Nat.le_succ _) rfl rfl,
        hcqs.update rfl rfl rfl⟩
  | delSq qid q hne hle hq =>
      exact ⟨hflow.frame ⟨rfl, rfl, rfl, rfl, rfl, rfl, rfl⟩ le_rfl hflow.serving_range
          fun i q' hq' => ⟨q', by grind, .rfl q'⟩,
        hcqs.subset fun j c' hc' => by
          obtain ⟨c, l, hc, rfl⟩ := detached_eq_some hc'
          exact ⟨c, hc, rfl, rfl⟩⟩
  | retireCq qid st e hst hne he hused =>
      exact ⟨hflow.same ⟨rfl, rfl, rfl, rfl, rfl, rfl, rfl⟩ le_rfl rfl rfl,
        hcqs.modify he rfl rfl rfl⟩
  | lostCq | delCq =>
      exact ⟨hflow.same ⟨rfl, rfl, rfl, rfl, rfl, rfl, rfl⟩ le_rfl rfl rfl,
        hcqs.subset fun j c' hc' => by grind⟩

theorem abortReq_inv {sqid cid : UInt16} {st : Status} (h : Inv n s)
    (habort : abortReq n s sqid cid = some (st, t)) : Inv n t := by
  rcases abortReq_cases habort with ⟨-, rfl⟩ | ⟨-, q, slot, idx, rest, hq, hlist, rfl⟩
  · exact h
  · exact ⟨h.flow.setAside hq hlist rfl rfl (fun _ => rfl) rfl rfl rfl rfl rfl, h.cqs.same rfl⟩

theorem adminCmd_inv {cmd : AdminCmd} {st : Status} (h : Inv n s)
    (hcmd : adminCmd n s now cmd = some (st, t)) : Inv n t := by
  cases cmd with
  | queue cmd => exact queueCmd_inv h hcmd
  | abort sqid cid => exact abortReq_inv h hcmd
  | setDbMemory valid =>
      rcases setDbMemory_cases hcmd with rfl | rfl
      · exact h
      · exact ⟨h.flow.same ⟨rfl, rfl, rfl, rfl, rfl, rfl, rfl⟩ le_rfl rfl rfl,
          h.cqs.same rfl⟩
  | other st =>
      cases hcmd
      exact h

/-- The state before an admin command is executed. -/
theorem incSqHead_inv (h : Inv n s) (hq : s.sq i = some q) :
    Inv n (s.setSq i (some (incSqHead q))) :=
  ⟨h.flow.modify ⟨rfl, rfl, rfl, rfl, rfl, rfl, rfl⟩ le_rfl rfl hq rfl ⟨rfl, rfl, rfl, rfl, rfl⟩,
    h.cqs.same rfl⟩

/-- An admin command leaves the admin queue in its place. -/
theorem adminCmd_sq_zero {cmd : AdminCmd} {st : Status} (h : Inv n s)
    (hcmd : adminCmd n s now cmd = some (st, t)) (hq : s.sq 0 = some q) :
    ∃ q', t.sq 0 = some q' ∧ q'.addr = q.addr := by
  cases cmd with
  | queue cmd =>
      obtain ⟨-, -, hzero⟩ := queueCmd_rest h hcmd
      exact ⟨q, hzero.trans hq, rfl⟩
  | abort sqid cid =>
      rcases abortReq_cases hcmd with ⟨-, rfl⟩ | ⟨-, q₀, slot, idx, rest, hq₀, -, rfl⟩
      · exact ⟨q, hq, rfl⟩
      · rw [setAsideReq_sq]
        split
        case isTrue h0 =>
          have heq : q₀ = q := Option.some.inj (hq₀.symm.trans (h0 ▸ hq))
          exact ⟨_, rfl, by rw [← heq]⟩
        case isFalse => exact ⟨q, hq, rfl⟩
  | setDbMemory valid =>
      rcases setDbMemory_cases hcmd with rfl | rfl
      · exact ⟨q, hq, rfl⟩
      · exact ⟨q, hq, rfl⟩
  | other st =>
      cases hcmd
      exact ⟨q, hq, rfl⟩

theorem processSqAdmin_inv {cmd : AdminCmd} (h : Inv n s)
    (hstep : processSqAdmin n s cmd now = some t) : Inv n t := by
  obtain ⟨q, st, u, c, e, hq, -, hcmd, hc, he, rfl⟩ := processSqAdmin_cases hstep
  have hu := adminCmd_inv (incSqHead_inv h hq) hcmd
  obtain ⟨q', hq', haddr⟩ := adminCmd_sq_zero (incSqHead_inv h hq) hcmd (q := incSqHead q)
    (by simp)
  have heq : e.addr = q'.addr := by rw [he, haddr, incSqHead_addr]
  exact ⟨hu.flow.postAdmin hq' heq (fun _ => rfl) rfl rfl rfl rfl rfl rfl rfl,
    hu.cqs.modify hc rfl (incCqTail_cqid c) (incCqTail_reqList c)⟩

/-- Setting the expiry of a request leaves the ids alone. -/
theorem update_expireTime_cid {x : Nat} :
    (Function.update s.req r { s.req r with expireTime := x } r').cid = (s.req r').cid := by
  rw [Function.update_apply]
  split
  case isTrue heq => rw [heq]
  case isFalse => rfl

/-- A request that goes from `to_ftl` to `to_poller`. -/
theorem inflight_ftlToPoller {rest : List ReqId} (hring : s.toFtl p = r :: rest)
    (req : ReqId → NvmeRequest) :
    inflight (pushPoller { s with toFtl := Function.update s.toFtl p rest, req := req } p r) p' =
      inflight s p' := by
  rw [inflight_pushPoller]
  split
  case isTrue hp =>
    subst hp
    simp only [inflight, Function.update_self, hring, ← Multiset.cons_coe, Multiset.cons_add]
  case isFalse hp => simp [inflight, hp]

/-- A request that is taken from `to_ftl`. -/
theorem inflight_fromFtl {rest : List ReqId} (hring : s.toFtl p = r :: rest)
    (hftl : t.toFtl = Function.update s.toFtl p rest) (hpoller : t.toPoller = s.toPoller)
    (hpq : t.pq = s.pq) :
    inflight s p = r ::ₘ inflight t p ∧ ∀ p', p' ≠ p → inflight t p' = inflight s p' := by
  refine ⟨?_, fun p' hp => ?_⟩
  · simp only [inflight, hftl, hpoller, hpq, Function.update_self, hring, ← Multiset.cons_coe,
      Multiset.cons_add]
  · simp only [inflight, hftl, hpoller, hpq, Function.update_of_ne hp]

/-- A request that goes from a ring to the priority queue. -/
theorem inflight_collect {rest : List ReqId}
    (hring : (if n.bbssd then s.toPoller p else s.toFtl p) = r :: rest) :
    inflight { s with
      toPoller := if n.bbssd then Function.update s.toPoller p rest else s.toPoller
      toFtl := if n.bbssd then s.toFtl else Function.update s.toFtl p rest
      pq := Function.update s.pq p (s.pq p ++ [r]) } p' = inflight s p' := by
  by_cases hp : p' = p
  · subst hp
    cases hbb : n.bbssd <;> rw [hbb] at hring <;>
      simp_all [inflight, coe_concat, ← Multiset.cons_coe]
  · cases n.bbssd <;> simp [inflight, hp]

/-- A request that is taken from the priority queue. -/
theorem inflight_erase (hmem : r ∈ s.pq p) (hftl : t.toFtl = s.toFtl)
    (hpoller : t.toPoller = s.toPoller) (hpq : t.pq = Function.update s.pq p ((s.pq p).erase r)) :
    inflight s p = r ::ₘ inflight t p ∧ ∀ p', p' ≠ p → inflight t p' = inflight s p' := by
  refine ⟨?_, fun p' hp => ?_⟩
  · have hperm : (s.pq p : Multiset ReqId) = r ::ₘ ((s.pq p).erase r : Multiset ReqId) :=
      Multiset.coe_eq_coe.mpr (List.perm_cons_erase hmem)
    simp only [inflight, hftl, hpoller, hpq, Function.update_self, hperm, Multiset.add_cons]
  · simp only [inflight, hftl, hpoller, hpq, Function.update_of_ne hp]

/-- A request that the poller completes. -/
theorem inflight_postCpl (hmem : r ∈ s.pq p) (q : NvmeSQueue) (c : NvmeCQueue) (e : Posted) :
    inflight s p = r ::ₘ inflight { s with
        sq := Function.update s.sq r.sqid (some { q with reqList := q.reqList ++ [r.idx] })
        cq := Function.update s.cq q.sqid (some (incCqTail c))
        pq := Function.update s.pq p ((s.pq p).erase r)
        shouldIsr := Function.update s.shouldIsr q.sqid true
        due := Function.update s.due p (s.due p ++ [q.cqid])
        posted := s.posted ++ [e] } p ∧
      ∀ p', p' ≠ p → inflight { s with
        sq := Function.update s.sq r.sqid (some { q with reqList := q.reqList ++ [r.idx] })
        cq := Function.update s.cq q.sqid (some (incCqTail c))
        pq := Function.update s.pq p ((s.pq p).erase r)
        shouldIsr := Function.update s.shouldIsr q.sqid true
        due := Function.update s.due p (s.due p ++ [q.cqid])
        posted := s.posted ++ [e] } p' = inflight s p' :=
  inflight_erase hmem rfl rfl rfl

theorem ftlThread_flowInv {lat : Nat} {rest : List ReqId} (h : FlowInv n s)
    (hring : s.toFtl p = r :: rest) (hq : s.sq r.sqid = some q) (haddr : q.addr = r.addr) :
    FlowInv n (enqueuePoller
      { s with
        toFtl := Function.update s.toFtl p rest
        req := Function.update s.req r
          { s.req r with expireTime := (s.req r).expireTime + lat } } p r) := by
  unfold enqueuePoller
  split
  case isTrue =>
    exact h.moved (fun _ => inflight_ftlToPoller hring _) (fun r' => update_expireTime_cid)
      rfl rfl rfl rfl rfl rfl
  case isFalse =>
    obtain ⟨hin, hne⟩ := inflight_fromFtl hring (t := dropReq { s with
      toFtl := Function.update s.toFtl p rest
      req := Function.update s.req r
        { s.req r with expireTime := (s.req r).expireTime + lat } } r) rfl rfl rfl
    exact h.lose hq haddr hin hne (fun r' => update_expireTime_cid) rfl rfl rfl rfl rfl rfl

theorem collectCpl_flowInv {rest : List ReqId} (h : FlowInv n s)
    (hring : (if n.bbssd then s.toPoller p else s.toFtl p) = r :: rest) :
    FlowInv n { s with
      toPoller := if n.bbssd then Function.update s.toPoller p rest else s.toPoller
      toFtl := if n.bbssd then s.toFtl else Function.update s.toFtl p rest
      pq := Function.update s.pq p (s.pq p ++ [r]) } :=
  h.moved (fun _ => inflight_collect hring) (fun _ => rfl) rfl rfl rfl rfl rfl rfl

theorem postCpl_flowInv {c : NvmeCQueue} {e : Posted} (h : FlowInv n s) (hq : s.sq r.sqid = some q)
    (haddr : q.addr = r.addr) (hmem : r ∈ s.pq p)
    (he : e.addr = r.addr) (hecid : e.cid = (s.req r).cid) :
    FlowInv n { s with
      sq := Function.update s.sq r.sqid (some { q with reqList := q.reqList ++ [r.idx] })
      cq := Function.update s.cq q.sqid (some (incCqTail c))
      pq := Function.update s.pq p ((s.pq p).erase r)
      shouldIsr := Function.update s.shouldIsr q.sqid true
      due := Function.update s.due p (s.due p ++ [q.cqid])
      posted := s.posted ++ [e] } := by
  obtain ⟨hin, hne⟩ := inflight_postCpl hmem q c e
  exact h.give hq haddr hin hne rfl rfl rfl rfl rfl rfl rfl he hecid

/-- **Step**: what holds in every run. -/
theorem step_inv {a : Act} (h : Inv n s) (hstep : step? n s a = some t) : Inv n t := by
  obtain ⟨hflow, hcqs⟩ := id h
  cases a with
  | hostSqe addr slot e =>
      cases hstep
      exact ⟨hflow.same ⟨rfl, rfl, rfl, rfl, rfl, rfl, rfl⟩ le_rfl rfl rfl, hcqs.same rfl⟩
  | hostTail sqid tail =>
      obtain ⟨q, hq, rfl⟩ := Option.map_eq_some_iff.mp hstep
      exact ⟨hflow.modify ⟨rfl, rfl, rfl, rfl, rfl, rfl, rfl⟩ le_rfl rfl hq rfl
        ⟨rfl, rfl, rfl, rfl, rfl⟩, hcqs.same rfl⟩
  | hostHead cqid head =>
      obtain ⟨c, hc, rfl⟩ := Option.map_eq_some_iff.mp hstep
      exact ⟨hflow.same ⟨rfl, rfl, rfl, rfl, rfl, rfl, rfl⟩ le_rfl rfl rfl,
        hcqs.modify hc rfl rfl rfl⟩
  | enable asqs acqs =>
      rcases startCtrl_cases hstep with rfl | ⟨-, -, -, rfl⟩
      · exact h
      · exact ⟨hflow.newSq (q := adminSq asqs (s.nextAddr + 1))
          ⟨rfl, rfl, rfl, rfl, rfl, rfl, rfl⟩ (Nat.le_succ _) (Nat.lt_succ_self _) rfl rfl rfl rfl,
          hcqs.update rfl rfl rfl⟩
  | disable =>
      cases hstep
      refine ⟨hflow.frame ⟨rfl, rfl, rfl, rfl, rfl, rfl, rfl⟩ le_rfl hflow.serving_range
        fun i q' hq' => ⟨q', ?_, .rfl q'⟩, hcqs.subset fun j c' hc' => ⟨c', ?_, rfl, rfl⟩⟩
      · simp only [clearCtrl] at hq'
        grind
      · simp only [clearCtrl] at hc'
        grind
  | admin cmd now => exact processSqAdmin_inv h hstep
  | enter i =>
      obtain ⟨q, c, hq, hc, hrange, rfl⟩ := enterSq_cases hstep
      refine ⟨hflow.frame ⟨rfl, rfl, rfl, rfl, rfl, rfl, rfl⟩ le_rfl (fun j a hj => ?_)
        fun i q' hq' => ⟨q', hq', .rfl q'⟩, hcqs.same rfl⟩
      have hserving := hflow.serving_range j a
      grind
  | fetch i now status =>
      obtain ⟨q, idx, rest, hq, hserving, -, hlist, rfl⟩ := processSqIo_cases hstep
      have hi := hflow.serving_range i _ hserving
      have hpos : i ≠ 0 := by omega
      unfold enqueueFtl
      split
      case isTrue =>
        split
        case isTrue => exact ⟨hflow.take hq hlist hi, hcqs.same rfl⟩
        case isFalse => exact ⟨hflow.refuse hq hlist hpos, hcqs.same rfl⟩
      case isFalse => exact ⟨hflow.refuse hq hlist hpos, hcqs.same rfl⟩
  | leave i =>
      obtain rfl := leaveSq_cases hstep
      refine ⟨hflow.frame ⟨rfl, rfl, rfl, rfl, rfl, rfl, rfl⟩ le_rfl (fun j a hj => ?_)
        fun i q' hq' => ⟨q', hq', .rfl q'⟩, hcqs.same rfl⟩
      have hserving := hflow.serving_range j a
      grind
  | ftl p lat =>
      obtain ⟨r, rest, q, hring, -, hq, haddr, rfl⟩ := ftlThread_cases hstep
      exact ⟨ftlThread_flowInv hflow hring hq haddr, hcqs.same (enqueuePoller_cq ..)⟩
  | collect p =>
      obtain ⟨r, rest, hring, rfl⟩ := collectCpl_cases hstep
      exact ⟨collectCpl_flowInv hflow hring, hcqs.same rfl⟩
  | complete p r now =>
      obtain ⟨q, c, e, hq, haddr, hmem, hc, -, he, rfl⟩ := postCpl_cases hstep
      exact ⟨postCpl_flowInv hflow hq haddr hmem (by rw [he]) (by rw [he]),
        hcqs.modify hc rfl (incCqTail_cqid c) (incCqTail_reqList c)⟩
  | notify p =>
      obtain ⟨-, rfl⟩ := notifyIo_cases hstep
      exact ⟨hflow.same ⟨rfl, rfl, rfl, rfl, rfl, rfl, rfl⟩ le_rfl rfl rfl, hcqs.same rfl⟩

/-- **Reachable states**: what holds in every run from a controller that has not been
started. -/
theorem run_inv {step : QueueCtrl → Act → QueueCtrl → Prop} {acts : List Act}
    (hstep : ∀ s a t, step s a t → step? n s a = some t) (hrun : Run step .reset acts s) : Inv n s :=
  hrun.invariant (fun s a t hs ha => step_inv hs (hstep s a t ha)) reset_inv

/-! ## the submission queues from one step to the next -/

/-- What never changes of a submission queue. -/
structure Kin (q q' : NvmeSQueue) : Prop where
  addr : q'.addr = q.addr
  sqid : q'.sqid = q.sqid
  cqid : q'.cqid = q.cqid
  size : q'.size = q.size

/-- An abort that finds its command in the submission queue `i`. -/
def Aborts (n : QueueCfg) (s : QueueCtrl) (i : Nat) : Act → Prop
  | .admin (.abort sqid cid) _ => sqid.toNat = i ∧ abortFinds n s sqid cid
  | _ => False

/-- A command that makes the submission queue `q` in place `i`. -/
def Creates (s : QueueCtrl) (i : Nat) (q : NvmeSQueue) : Act → Prop
  | .admin (.queue (.createSq c _)) _ => i = c.sqid.toNat ∧ q = newSq c s.nextAddr
  | _ => False

/-- A live I/O submission queue after an admin command. -/
theorem processSqAdmin_sq {cmd : AdminCmd} (h : Inv n s)
    (hstep : processSqAdmin n s cmd now = some t) (hi : i ≠ 0) (hq' : t.sq i = some q') :
    (s.sq i = some q' ∧ ¬ Aborts n s i (.admin cmd now)) ∨
      (Aborts n s i (.admin cmd now) ∧ ∃ q, s.sq i = some q ∧ Kin q q' ∧ q'.head = q.head ∧
        q'.tail = q.tail ∧ q'.outReqList ≠ []) ∨
      Creates s i q' (.admin cmd now) := by
  obtain ⟨q₀, st, u, c, e, hq₀, -, hcmd, hc, he, rfl⟩ := processSqAdmin_cases hstep
  have hold : ∀ q, (s.setSq 0 (some (incSqHead q₀))).sq i = some q → s.sq i = some q := by
    intro q hq
    rwa [QueueCtrl.setSq_sq, Function.update_of_ne hi] at hq
  cases cmd with
  | queue cmd =>
      rcases queueCmd_sq (incSqHead_inv h hq₀) hcmd hq' with hq | ⟨c, prpList, rfl, -, hic, hnew⟩
      · exact .inl ⟨hold q' hq, id⟩
      · exact .inr (.inr ⟨hic, hnew⟩)
  | abort sqid cid =>
      -- what the search sees of an I/O queue is not changed by the head of the admin queue
      have hfinds : sqid.toNat = i → abortFinds n (s.setSq 0 (some (incSqHead q₀))) sqid cid =
          abortFinds n s sqid cid := by
        rintro rfl
        exact abortFinds_congr rfl (Function.update_of_ne hi ..)
      rcases abortReq_cases hcmd with ⟨hno, rfl⟩ | ⟨hyes, q, slot, idx, rest, hq, -, rfl⟩
      · exact .inl ⟨hold q' hq', fun habort => hno (hfinds habort.1 ▸ habort.2)⟩
      · rw [QueueCtrl.setCq_sq, setAsideReq_sq] at hq'
        split at hq'
        case isTrue hsqid =>
          cases hq'
          subst hsqid
          exact .inr (.inl ⟨⟨rfl, hfinds rfl ▸ hyes⟩, q, hold q hq, ⟨rfl, rfl, rfl, rfl⟩, rfl, rfl,
            by simp⟩)
        case isFalse hne => exact .inl ⟨hold q' hq', fun habort => hne habort.1.symm⟩
  | setDbMemory valid =>
      rcases setDbMemory_cases hcmd with rfl | rfl <;> exact .inl ⟨hold q' hq', id⟩
  | other st =>
      cases hcmd
      exact .inl ⟨hold q' hq', id⟩

/-- What an admin command leaves alone. -/
structure AdminRest (s t : QueueCtrl) : Prop where
  toFtl : t.toFtl = s.toFtl
  toPoller : t.toPoller = s.toPoller
  pq : t.pq = s.pq
  shouldIsr : t.shouldIsr = s.shouldIsr
  due : t.due = s.due
  fetched : t.fetched = s.fetched
  dropped : t.dropped = s.dropped
  posted : t.posted = s.posted
  notified : t.notified = s.notified

theorem adminCmd_rest {cmd : AdminCmd} {st : Status} (h : Inv n s)
    (hcmd : adminCmd n s now cmd = some (st, t)) : AdminRest s t := by
  cases cmd with
  | queue cmd =>
      obtain ⟨heq, -, -⟩ := queueCmd_rest h hcmd
      rw [heq]
      exact ⟨rfl, rfl, rfl, rfl, rfl, rfl, rfl, rfl, rfl⟩
  | abort sqid cid =>
      rcases abortReq_cases hcmd with ⟨-, rfl⟩ | ⟨-, q, slot, idx, rest, -, -, rfl⟩ <;>
        exact ⟨rfl, rfl, rfl, rfl, rfl, rfl, rfl, rfl, rfl⟩
  | setDbMemory valid =>
      rcases setDbMemory_cases hcmd with rfl | rfl <;>
        exact ⟨rfl, rfl, rfl, rfl, rfl, rfl, rfl, rfl, rfl⟩
  | other st =>
      cases hcmd
      exact ⟨rfl, rfl, rfl, rfl, rfl, rfl, rfl, rfl, rfl⟩

/-- A request has left its ring or queue. -/
theorem inflight_le_of_cons (hin : inflight s p = r ::ₘ inflight t p)
    (hne : ∀ p', p' ≠ p → inflight t p' = inflight s p') (p' : Nat) :
    inflight t p' ≤ inflight s p' := by
  by_cases hp' : p' = p
  · rw [hp', hin]
    exact Multiset.le_cons_self _ _
  · rw [hne p' hp']

/-- A command that is taken puts its request on its way, or none. -/
theorem inflight_fetch (r : ReqId) (p' : Nat) :
    inflight (if status = nvmeSuccess then enqueueFtl (takeReq s i now status q idx rest) p r
      else dropReq (takeReq s i now status q idx rest) r) p' ≤ r ::ₘ inflight s p' := by
  split
  case isFalse => exact Multiset.le_cons_self _ _
  case isTrue =>
    unfold enqueueFtl
    split
    case isFalse => exact Multiset.le_cons_self _ _
    case isTrue =>
      rw [inflight_pushFtl, inflight_takeReq]
      split
      · exact le_rfl
      · exact Multiset.le_cons_self _ _

/-- **Step**: only a command that is taken puts a request on its way. -/
theorem step_inflight_le {a : Act} (h : Inv n s) (hstep : step? n s a = some t)
    (hfetch : ¬ ∃ i now status, a = .fetch i now status) (p : Nat) :
    inflight t p ≤ inflight s p := by
  cases a with
  | hostSqe addr slot e =>
      cases hstep
      exact le_rfl
  | hostTail sqid tail =>
      obtain ⟨q, -, rfl⟩ := Option.map_eq_some_iff.mp hstep
      exact le_rfl
  | hostHead cqid head =>
      obtain ⟨c, -, rfl⟩ := Option.map_eq_some_iff.mp hstep
      exact le_rfl
  | enable asqs acqs =>
      rcases startCtrl_cases hstep with rfl | ⟨-, -, -, rfl⟩
      · exact le_rfl
      · exact le_rfl
  | disable =>
      cases hstep
      exact le_rfl
  | admin cmd now =>
      obtain ⟨q₀, st, u, c, e, hq₀, -, hcmd, -, -, rfl⟩ := processSqAdmin_cases hstep
      have hrest := adminCmd_rest (incSqHead_inv h hq₀) hcmd
      show inflight u p ≤ inflight s p
      simp only [inflight, hrest.toFtl, hrest.toPoller, hrest.pq, QueueCtrl.setSq]
      exact le_rfl
  | enter i =>
      obtain ⟨q, c, -, -, -, rfl⟩ := enterSq_cases hstep
      exact le_rfl
  | fetch i now status => exact absurd ⟨i, now, status, rfl⟩ hfetch
  | leave i =>
      obtain rfl := leaveSq_cases hstep
      exact le_rfl
  | ftl p' lat =>
      obtain ⟨r, rest, q, hring, -, -, -, rfl⟩ := ftlThread_cases hstep
      unfold enqueuePoller
      split
      case isTrue => exact (inflight_ftlToPoller hring _).le
      case isFalse =>
        obtain ⟨hin, hne⟩ := inflight_fromFtl hring (t := dropReq { s with
          toFtl := Function.update s.toFtl p' rest
          req := Function.update s.req r
            { s.req r with expireTime := (s.req r).expireTime + lat } } r) rfl rfl rfl
        exact inflight_le_of_cons hin hne p
  | collect p' =>
      obtain ⟨r, rest, hring, rfl⟩ := collectCpl_cases hstep
      exact (inflight_collect hring).le
  | complete p' r now =>
      obtain ⟨q, c, e, -, -, hmem, -, -, -, rfl⟩ := postCpl_cases hstep
      obtain ⟨hin, hne⟩ := inflight_postCpl hmem q c e
      exact inflight_le_of_cons hin hne p
  | notify p' =>
      obtain ⟨-, rfl⟩ := notifyIo_cases hstep
      exact le_rfl

/-- A live I/O submission queue after a step was live before it, or has just been made. -/
theorem step_sq {a : Act} (h : Inv n s) (hstep : step? n s a = some t) (hi : i ≠ 0)
    (hq' : t.sq i = some q') :
    (∃ q, s.sq i = some q ∧ Kin q q' ∧
      (q'.outReqList = q.outReqList ∧ ¬ Aborts n s i a ∨
        q'.outReqList ≠ [] ∧ Aborts n s i a)) ∨
      Creates s i q' a := by
  have hsame : s.sq i = some q' → ¬ Aborts n s i a →
      ∃ q, s.sq i = some q ∧ Kin q q' ∧
        (q'.outReqList = q.outReqList ∧ ¬ Aborts n s i a ∨
          q'.outReqList ≠ [] ∧ Aborts n s i a) :=
    fun hq hno => ⟨q', hq, ⟨rfl, rfl, rfl, rfl⟩, .inl ⟨rfl, hno⟩⟩
  -- the step has put `q₁` in the place of `q₀`
  have hput : ∀ {j q₀ q₁}, s.sq j = some q₀ → t.sq = Function.update s.sq j (some q₁) →
      Kin q₀ q₁ → q₁.outReqList = q₀.outReqList → ¬ Aborts n s i a →
      ∃ q, s.sq i = some q ∧ Kin q q' ∧
        (q'.outReqList = q.outReqList ∧ ¬ Aborts n s i a ∨
          q'.outReqList ≠ [] ∧ Aborts n s i a) := by
    intro j q₀ q₁ hq₀ ht hkin hout hno
    rw [ht, Function.update_apply] at hq'
    split at hq'
    case isTrue hj =>
      cases hq'
      exact ⟨q₀, hj ▸ hq₀, hkin, .inl ⟨hout, hno⟩⟩
    case isFalse => exact hsame hq' hno
  cases a with
  | hostSqe addr slot e =>
      cases hstep
      exact .inl (hsame hq' id)
  | hostTail sqid tail =>
      obtain ⟨q, hq, rfl⟩ := Option.map_eq_some_iff.mp hstep
      exact .inl (hput hq rfl ⟨rfl, rfl, rfl, rfl⟩ rfl id)
  | hostHead cqid head =>
      obtain ⟨c, hc, rfl⟩ := Option.map_eq_some_iff.mp hstep
      exact .inl (hsame hq' id)
  | enable asqs acqs =>
      rcases startCtrl_cases hstep with rfl | ⟨-, -, -, rfl⟩
      · exact .inl (hsame hq' id)
      · exact .inl (hsame (by rwa [addAdmin_sq, if_neg hi] at hq') id)
  | disable =>
      cases hstep
      simp only [clearCtrl] at hq'
      exact .inl (hsame (by grind) id)
  | admin cmd now =>
      rcases processSqAdmin_sq h hstep hi hq' with
        ⟨hq, hno⟩ | ⟨habort, q, hq, hkin, -, -, hout⟩ | hnew
      · exact .inl (hsame hq hno)
      · exact .inl ⟨q, hq, hkin, .inr ⟨hout, habort⟩⟩
      · exact .inr hnew
  | enter i =>
      obtain ⟨q, c, -, -, -, rfl⟩ := enterSq_cases hstep
      exact .inl (hsame hq' id)
  | fetch i now status =>
      obtain ⟨q, idx, rest, hq, -, -, -, rfl⟩ := processSqIo_cases hstep
      refine .inl (hput hq (?_ : _ = Function.update s.sq _
        (some { incSqHead q with reqList := rest })) ⟨rfl, rfl, rfl, rfl⟩ rfl id)
      split
      · exact enqueueFtl_sq ..
      · rfl
  | leave i =>
      obtain rfl := leaveSq_cases hstep
      exact .inl (hsame hq' id)
  | ftl p lat =>
      obtain ⟨r, rest, q, -, -, -, -, rfl⟩ := ftlThread_cases hstep
      exact .inl (hsame (by simpa using hq') id)
  | collect p =>
      obtain ⟨r, rest, -, rfl⟩ := collectCpl_cases hstep
      exact .inl (hsame hq' id)
  | complete p r now =>
      obtain ⟨q, c, e, hq, -, -, -, -, -, rfl⟩ := postCpl_cases hstep
      exact .inl (hput hq rfl ⟨rfl, rfl, rfl, rfl⟩ rfl id)
  | notify p =>
      obtain ⟨-, rfl⟩ := notifyIo_cases hstep
      exact .inl (hsame hq' id)

end Femu.Queue

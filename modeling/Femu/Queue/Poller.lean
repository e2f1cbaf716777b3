import Mathlib.Data.Multiset.MapFold
import Femu.Pqueue.Order
import Femu.Queue.Io

/-!
# Femu.Queue.Poller

A poller with its priority queue (`nvme_process_cq_cpl`, the callbacks of `pqueue_init` in
`nvme-io.c`). `expire_time` is an `int64_t`, which the callbacks and the comparison with the
clock take for an unsigned number (`priority`).

A pass collects the requests of the ring, then posts those that are due; requests arrive and
time passes in between.
-/

namespace Femu.Queue

open Lib

/-! ## the callbacks -/

/-- The fields `expire_time` and `pos` of the requests. -/
structure ReqStore where
  expireTime : ReqId → Int64
  pos : ReqId → Nat

/-- An `expire_time` as `pqueue_pri_t`, and as compared with the `uint64_t` clock. -/
def priority (t : Int64) : Nat := t.toUInt64.toNat

def cmpPri (next curr : Nat) : Bool := next > curr

def reqOps : PqueueOps ReqStore ReqId where
  cmppri := cmpPri
  getpri m r := priority (m.expireTime r)
  setpri m r pri := { m with expireTime := Function.update m.expireTime r (.ofNat pri) }
  getpos m r := m.pos r
  setpos m r pos := { m with pos := Function.update m.pos r pos }

theorem reqOps_lawful : reqOps.Lawful where
  getpos_setpos _ _ _ := Function.update_self ..
  getpos_setpos_ne _ _ _ _ hne := Function.update_of_ne hne ..
  getpri_setpos _ _ _ _ := rfl
  getpos_setpri _ _ _ _ := rfl

theorem reqOps_lowestFirst : Pqueue.LowestFirst reqOps := fun _ _ => rfl

/-- A time that is not negative is its own priority. -/
theorem priority_eq {t : Int64} (h : priority t < 2 ^ 63) : t.toInt = priority t := by
  have hcond : t.toInt = if 2 * priority t < 2 ^ 64 then (priority t : Int)
      else priority t - (2 ^ 64 : Nat) := BitVec.toInt_eq_toNat_cond t.toBitVec
  rw [hcond, if_pos (by omega)]

theorem priority_of_nonneg {t : Int64} (h : 0 ≤ t.toInt) : t.toInt = priority t := by
  have hcond : t.toInt = if 2 * priority t < 2 ^ 64 then (priority t : Int)
      else priority t - (2 ^ 64 : Nat) := BitVec.toInt_eq_toNat_cond t.toBitVec
  have hlt : priority t < 2 ^ 64 := t.toUInt64.toNat_lt
  rw [hcond] at h ⊢
  split at h
  case isTrue hsmall => rw [if_pos hsmall]
  case isFalse => omega

/-! ## the poller -/

instance : Inhabited ReqId := ⟨⟨0, 0, 0⟩⟩

/-- A completion entry, with the pass that posted it. -/
structure Post where
  req : ReqId
  expireTime : Int64
  now : Nat
  pass : Nat
deriving DecidableEq

/-- The end of a pass: the clock it has read last, and the times of the requests left. -/
structure Stop where
  now : Nat
  left : Multiset Int64
deriving DecidableEq

/-- Where the thread of the poller is. -/
inductive PollPc
  | away
  | collecting
  | posting
deriving DecidableEq

/-- `cqActive` is `is_active` of the completion queues. `arrived`, `posted` and `stops` are what
has happened. -/
structure Poller where
  ring : List ReqId
  pq : Pqueue ReqId
  reqs : ReqStore
  cqActive : Nat → Bool
  clock : Nat
  pc : PollPc
  pass : Nat
  arrived : List (ReqId × Int64)
  posted : List Post
  stops : List Stop

def Poller.init (cqActive : Nat → Bool) (expireTime : ReqId → Int64) (pos : ReqId → Nat) :
    Poller where
  ring := []
  pq := .init
  reqs := ⟨expireTime, pos⟩
  cqActive := cqActive
  clock := 0
  pc := .away
  pass := 0
  arrived := []
  posted := []
  stops := []

inductive PollAct
  /-- the clock, which is never negative as an `int64_t` -/
  | tick (now : Nat)
  /-- a request that is not on its way is put into the ring -/
  | arrive (r : ReqId) (t : Int64)
  /-- `nvme_process_cq_cpl` is called -/
  | enter
  /-- a turn of the first loop -/
  | collect
  /-- a turn of the second loop -/
  | turn

def pushRing (s : Poller) (r : ReqId) (t : Int64) : Poller :=
  { s with
    ring := s.ring ++ [r]
    reqs := { s.reqs with expireTime := Function.update s.reqs.expireTime r t }
    arrived := s.arrived ++ [(r, t)] }

def collectReq (s : Poller) : Poller :=
  match s.ring with
  | [] => { s with pc := .posting }
  | r :: rest =>
      let (pq, reqs) := s.pq.insert reqOps s.reqs r
      { s with ring := rest, pq := pq, reqs := reqs }

/-- The loop ends. -/
def stopPass (s : Poller) : Poller :=
  { s with
    pc := .away
    stops := s.stops ++ [⟨s.clock, s.pq.nodes.map s.reqs.expireTime⟩] }

/-- `nvme_post_cqe` and `pqueue_pop`. -/
def postReq (s : Poller) (r : ReqId) : Poller :=
  let (_, pq, reqs) := s.pq.pop reqOps s.reqs
  { s with
    pq := pq
    reqs := reqs
    posted := s.posted ++ [⟨r, s.reqs.expireTime r, s.clock, s.pass⟩] }

/-- While the completion queue is not active the loop goes round. -/
def postTurn (s : Poller) : Poller :=
  match s.pq.peek with
  | none => stopPass s
  | some r =>
      if s.clock < priority (s.reqs.expireTime r) then stopPass s
      else if !s.cqActive r.sqid then s
      else postReq s r

def pollStep (s : Poller) : PollAct → Option Poller
  | .tick now => if s.clock ≤ now ∧ now < 2 ^ 63 then some { s with clock := now } else none
  | .arrive r t => if r ∈ s.ring ∨ r ∈ s.pq.nodes then none else some (pushRing s r t)
  | .enter => if s.pc = .away then some { s with pc := .collecting, pass := s.pass + 1 } else none
  | .collect => if s.pc = .collecting then some (collectReq s) else none
  | .turn => if s.pc = .posting then some (postTurn s) else none

/-! ## statement -/

/-- The requests in the ring and in the queue. -/
def Poller.queued (s : Poller) : Multiset ReqId := (s.ring : Multiset ReqId) + s.pq.nodes

/-- No completion is posted before its time, each pass posts in the order of the times and stops
only when no request is due, and each request that has arrived is posted once or still there. -/
structure Delayed (s : Poller) : Prop where
  due : ∀ p ∈ s.posted, p.expireTime.toInt ≤ p.now
  sorted : s.posted.Pairwise fun a b => a.pass = b.pass → a.expireTime.toInt ≤ b.expireTime.toInt
  stops : ∀ e ∈ s.stops, ∀ t ∈ e.left, e.now < priority t
  stops_of_nonneg : ∀ e ∈ s.stops, (∀ t ∈ e.left, 0 ≤ t.toInt) → ∀ t ∈ e.left, e.now < t.toInt
  once : (s.arrived : Multiset (ReqId × Int64)) =
    (s.posted.map fun p => (p.req, p.expireTime) : List (ReqId × Int64)) +
      s.queued.map fun r => (r, s.reqs.expireTime r)

/-! ## invariant -/

section invariant

variable {s t : Poller} {r : ReqId} {a : PollAct}

structure PollInv (s : Poller) : Prop where
  ordered : Pqueue.Ordered reqOps s.pq s.reqs
  nodup : s.queued.Nodup
  clock : s.clock < 2 ^ 63
  post : ∀ p ∈ s.posted, priority p.expireTime ≤ p.now ∧ p.now < 2 ^ 63 ∧ p.pass ≤ s.pass
  sorted : s.posted.Pairwise fun a b =>
    a.pass = b.pass → priority a.expireTime ≤ priority b.expireTime
  fresh : s.pc = .collecting → ∀ p ∈ s.posted, p.pass < s.pass
  waiting : s.pc = .posting → ∀ p ∈ s.posted, p.pass = s.pass → ∀ r ∈ s.pq.nodes,
    priority p.expireTime ≤ priority (s.reqs.expireTime r)
  stops : ∀ e ∈ s.stops, ∀ t ∈ e.left, e.now < priority t
  once : (s.arrived : Multiset (ReqId × Int64)) =
    (s.posted.map fun p => (p.req, p.expireTime) : List (ReqId × Int64)) +
      s.queued.map fun r => (r, s.reqs.expireTime r)

theorem PollInv.delayed (h : PollInv s) : Delayed s where
  due p hp := by
    obtain ⟨hdue, hnow, -⟩ := h.post p hp
    rw [priority_eq (by omega)]
    exact_mod_cast hdue
  sorted := by
    refine h.sorted.imp_of_mem fun {a b} ha hb hle hpass => ?_
    obtain ⟨hdue, hnow, -⟩ := h.post a ha
    obtain ⟨hdue', hnow', -⟩ := h.post b hb
    rw [priority_eq (by omega), priority_eq (by omega)]
    exact_mod_cast hle hpass
  stops := h.stops
  stops_of_nonneg e he hnonneg t ht := by
    rw [priority_of_nonneg (hnonneg t ht)]
    exact_mod_cast h.stops e he t ht
  once := h.once

theorem init_pollInv (cqActive : Nat → Bool) (expireTime : ReqId → Int64) (pos : ReqId → Nat) :
    PollInv (.init cqActive expireTime pos) where
  ordered := Pqueue.init_ordered
  nodup := by simp [Poller.queued, Poller.init]
  clock := by simp [Poller.init]
  post := by simp [Poller.init]
  sorted := by simp [Poller.init]
  fresh := by simp [Poller.init]
  waiting := by simp [Poller.init]
  stops := by simp [Poller.init]
  once := by simp [Poller.queued, Poller.init]

theorem queued_pushRing {x : Int64} : (pushRing s r x).queued = r ::ₘ s.queued := by
  simp only [Poller.queued, pushRing, ← Multiset.coe_add, Multiset.coe_singleton]
  rw [← Multiset.singleton_add, Multiset.add_comm (s.ring : Multiset ReqId), Multiset.add_assoc]

theorem PollInv.arrive {x : Int64} (h : PollInv s) (hring : r ∉ s.ring) (hpq : r ∉ s.pq.nodes) :
    PollInv (pushRing s r x) := by
  have hnew : r ∉ s.queued := by simp [Poller.queued, hring, hpq]
  have hold : ∀ r' ∈ s.queued, Function.update s.reqs.expireTime r x r' = s.reqs.expireTime r' :=
    fun r' hr' => Function.update_of_ne (ne_of_mem_of_not_mem hr' hnew) ..
  have hnodes : ∀ r' ∈ s.pq.nodes, Function.update s.reqs.expireTime r x r' = s.reqs.expireTime r' :=
    fun r' hr' => hold r' (Multiset.mem_add.mpr (.inr hr'))
  constructor
  case ordered =>
    refine h.ordered.congr (fun _ _ => rfl) fun r' hr' => ?_
    exact congrArg priority (hnodes r' (Pqueue.mem_nodes.mpr hr'))
  case nodup =>
    rw [queued_pushRing]
    exact Multiset.nodup_cons.mpr ⟨hnew, h.nodup⟩
  case clock => exact h.clock
  case post => exact h.post
  case sorted => exact h.sorted
  case fresh => exact h.fresh
  case waiting =>
    intro hpc p hp hpass r' hr'
    dsimp only [pushRing] at hr' ⊢
    rw [hnodes r' hr']
    exact h.waiting hpc p hp hpass r' hr'
  case stops => exact h.stops
  case once =>
    have hmap : s.queued.map (fun r' => (r', Function.update s.reqs.expireTime r x r')) =
        s.queued.map fun r' => (r', s.reqs.expireTime r') :=
      Multiset.map_congr rfl fun r' hr' => by rw [hold r' hr']
    rw [queued_pushRing, Multiset.map_cons]
    dsimp only [pushRing]
    rw [Function.update_self, hmap, ← Multiset.coe_add, h.once, Multiset.coe_singleton,
      ← Multiset.singleton_add, Multiset.add_assoc, Multiset.add_comm (s.queued.map _)]

theorem insert_expireTime (h : Pqueue.Ordered reqOps s.pq s.reqs) :
    (s.pq.insert reqOps s.reqs r).2.expireTime = s.reqs.expireTime :=
  Pqueue.insert_frame (R := fun m : ReqStore => m.expireTime = s.reqs.expireTime) h.size
    (fun _ _ _ _ heq => heq) rfl

theorem pop_expireTime (hsize : 1 < s.pq.size) :
    (s.pq.pop reqOps s.reqs).2.2.expireTime = s.reqs.expireTime :=
  Pqueue.pop_frame (R := fun m : ReqStore => m.expireTime = s.reqs.expireTime) hsize
    (fun _ _ _ _ heq => heq) rfl

theorem PollInv.collect (h : PollInv s) (hpc : s.pc = .collecting) : PollInv (collectReq s) := by
  unfold collectReq
  split
  case h_1 =>
    refine { h with
      fresh := fun hpc' => nomatch hpc'
      waiting := fun _ p hp hpass => ?_ }
    have hlt := h.fresh hpc p hp
    dsimp only at hpass
    omega
  case h_2 r rest hring =>
    have hnew : ¬ s.pq.Mem r := by
      intro hmem
      have hnodup := h.nodup
      rw [Poller.queued, hring, ← Multiset.cons_coe, Multiset.cons_add] at hnodup
      exact (Multiset.nodup_cons.mp hnodup).1
        (Multiset.mem_add.mpr (.inr (Pqueue.mem_nodes.mpr hmem)))
    obtain ⟨hordered, hnodes⟩ := h.ordered.insert reqOps_lawful reqOps_lowestFirst hnew
    have hexpire := insert_expireTime (r := r) h.ordered
    have hqueued : (rest : Multiset ReqId) + (s.pq.insert reqOps s.reqs r).1.nodes = s.queued := by
      rw [hnodes, Poller.queued, hring, Multiset.add_cons, ← Multiset.cons_coe, Multiset.cons_add]
    constructor
    case ordered => exact hordered
    case nodup =>
      change ((rest : Multiset ReqId) + _).Nodup
      rw [hqueued]
      exact h.nodup
    case clock => exact h.clock
    case post => exact h.post
    case sorted => exact h.sorted
    case fresh => exact h.fresh
    case waiting => exact fun hpc' => nomatch hpc.symm.trans hpc'
    case stops => exact h.stops
    case once =>
      refine h.once.trans ?_
      dsimp only
      rw [hexpire]
      exact congrArg (_ + Multiset.map _ ·) hqueued.symm

/-- The pass ends with no request that is due. -/
theorem PollInv.stop (h : PollInv s)
    (hleft : ∀ r ∈ s.pq.nodes, s.clock < priority (s.reqs.expireTime r)) :
    PollInv (stopPass s) := by
  refine { h with
    fresh := fun hpc => nomatch hpc
    waiting := fun hpc => nomatch hpc
    stops := fun e he t ht => ?_ }
  rcases List.mem_append.mp he with hold | hnew
  · exact h.stops e hold t ht
  · rw [List.mem_singleton] at hnew
    subst hnew
    dsimp only at ht ⊢
    obtain ⟨r, hr, rfl⟩ := Multiset.mem_map.mp ht
    exact hleft r hr

theorem PollInv.postReq (h : PollInv s) (hpc : s.pc = .posting) (hsize : 1 < s.pq.size)
    (hdue : priority (s.reqs.expireTime (s.pq.d 1)) ≤ s.clock) : PollInv (postReq s (s.pq.d 1)) := by
  obtain ⟨hordered, hnodes⟩ := h.ordered.pop reqOps_lawful reqOps_lowestFirst hsize
  have hexpire := pop_expireTime hsize
  have hfirst : s.pq.d 1 ∈ s.pq.nodes := Pqueue.mem_nodes.mpr ⟨1, le_rfl, hsize, rfl⟩
  have hle : ∀ r ∈ s.pq.nodes,
      priority (s.reqs.expireTime (s.pq.d 1)) ≤ priority (s.reqs.expireTime r) :=
    fun r hr => h.ordered.heap.first_le (Pqueue.mem_nodes.mp hr)
  have hqueued : s.queued = s.pq.d 1 ::ₘ (Femu.Queue.postReq s (s.pq.d 1)).queued := by
    rw [Poller.queued, hnodes, Multiset.add_cons]
    rfl
  constructor
  case ordered => exact hordered
  case nodup =>
    have hnodup := h.nodup
    rw [hqueued] at hnodup
    exact (Multiset.nodup_cons.mp hnodup).2
  case clock => exact h.clock
  case post =>
    intro p hp
    rcases List.mem_append.mp hp with hold | hnew
    · exact h.post p hold
    · rw [List.mem_singleton] at hnew
      subst hnew
      exact ⟨hdue, h.clock, le_rfl⟩
  case sorted =>
    refine List.pairwise_append.mpr ⟨h.sorted, List.pairwise_singleton .., fun a ha b hb hpass => ?_⟩
    rw [List.mem_singleton] at hb
    subst hb
    exact h.waiting hpc a ha hpass _ hfirst
  case fresh => exact fun hpc' => nomatch hpc.symm.trans hpc'
  case waiting =>
    intro _ p hp hpass r hr
    have hr' : r ∈ s.pq.nodes := by
      rw [hnodes]
      exact Multiset.mem_cons_of_mem hr
    dsimp only [Femu.Queue.postReq]
    rw [hexpire]
    rcases List.mem_append.mp hp with hold | hnew
    · exact h.waiting hpc p hold hpass r hr'
    · rw [List.mem_singleton] at hnew
      subst hnew
      exact hle r hr'
  case stops => exact h.stops
  case once =>
    have honce := h.once
    rw [hqueued, Multiset.map_cons] at honce
    dsimp only [Femu.Queue.postReq] at honce ⊢
    rw [hexpire, honce, List.map_append, ← Multiset.coe_add, List.map_singleton,
      Multiset.coe_singleton, Multiset.add_assoc, Multiset.singleton_add]

theorem PollInv.turn (h : PollInv s) (hpc : s.pc = .posting) : PollInv (postTurn s) := by
  unfold postTurn
  split
  case h_1 hpeek =>
    refine h.stop fun r hr => ?_
    have hsize : s.pq.size = 1 := by
      unfold Pqueue.peek at hpeek
      split at hpeek
      case isTrue hone => exact hone
      case isFalse => cases hpeek
    obtain ⟨k, hk1, hk, -⟩ := Pqueue.mem_nodes.mp hr
    omega
  case h_2 r hpeek =>
    obtain ⟨hsize, rfl, -⟩ := Pqueue.peek_eq_some h.ordered.size hpeek
    split
    case isTrue hlate =>
      exact h.stop fun r hr => Nat.lt_of_lt_of_le hlate
        (h.ordered.heap.first_le (Pqueue.mem_nodes.mp hr))
    case isFalse hdue =>
      split
      case isTrue => exact h
      case isFalse => exact h.postReq hpc hsize (Nat.not_lt.mp hdue)

/-- **Step** -/
theorem pollStep_inv (h : PollInv s) (hstep : pollStep s a = some t) : PollInv t := by
  unfold pollStep at hstep
  cases a with
  | tick now =>
      dsimp only at hstep
      split at hstep
      case isTrue hnow =>
        cases hstep
        exact { h with clock := hnow.2 }
      case isFalse => cases hstep
  | arrive r x =>
      dsimp only at hstep
      split at hstep
      case isTrue => cases hstep
      case isFalse hnew =>
        cases hstep
        rw [not_or] at hnew
        exact h.arrive hnew.1 hnew.2
  | enter =>
      dsimp only at hstep
      split at hstep
      case isTrue =>
        cases hstep
        refine { h with
          post := fun p hp => ?_
          fresh := fun _ p hp => Nat.lt_succ_of_le (h.post p hp).2.2
          waiting := fun hpc => nomatch hpc }
        obtain ⟨hdue, hnow, hpass⟩ := h.post p hp
        exact ⟨hdue, hnow, Nat.le_succ_of_le hpass⟩
      case isFalse => cases hstep
  | collect =>
      dsimp only at hstep
      split at hstep
      case isTrue hpc =>
        cases hstep
        exact h.collect hpc
      case isFalse => cases hstep
  | turn =>
      dsimp only at hstep
      split at hstep
      case isTrue hpc =>
        cases hstep
        exact h.turn hpc
      case isFalse => cases hstep

end invariant

/-- **Delay emulation**: in every state of a poller what its passes have posted keeps the order of
the times. -/
theorem poller_delayed {cqActive : Nat → Bool} {expireTime : ReqId → Int64} {pos : ReqId → Nat}
    {s : Poller} {acts : List PollAct}
    (hrun : Run (fun s a t => pollStep s a = some t) (.init cqActive expireTime pos) acts s) :
    Delayed s := by
  have hinv : PollInv s :=
    hrun.invariant (fun s a t hs hstep => pollStep_inv hs hstep) (init_pollInv ..)
  exact hinv.delayed

/-- Two requests that arrive in the wrong order, and one that is not due in the first pass. -/
theorem poller_delayed_small :
    ∃ s, Run (fun s a t => pollStep s a = some t) (.init (fun _ => true) (fun _ => 0) fun _ => 0)
      [.arrive ⟨3, 1, 0⟩ 20, .arrive ⟨3, 1, 1⟩ 10, .arrive ⟨3, 1, 2⟩ 50, .tick 30, .enter, .collect,
        .collect, .collect, .collect, .turn, .turn, .turn, .tick 60, .enter, .collect, .turn,
        .turn] s ∧
      s.posted = [⟨⟨3, 1, 1⟩, 10, 30, 1⟩, ⟨⟨3, 1, 0⟩, 20, 30, 1⟩, ⟨⟨3, 1, 2⟩, 50, 60, 2⟩] ∧
      Delayed s := by
  have hends : (exec pollStep
      [.arrive ⟨3, 1, 0⟩ 20, .arrive ⟨3, 1, 1⟩ 10, .arrive ⟨3, 1, 2⟩ 50, .tick 30, .enter, .collect,
        .collect, .collect, .collect, .turn, .turn, .turn, .tick 60, .enter, .collect, .turn, .turn]
      (.init (fun _ => true) (fun _ => 0) fun _ => 0)).map (·.posted) =
      some [⟨⟨3, 1, 1⟩, 10, 30, 1⟩, ⟨⟨3, 1, 0⟩, 20, 30, 1⟩, ⟨⟨3, 1, 2⟩, 50, 60, 2⟩] := by
    decide +kernel
  obtain ⟨s, hs, heq⟩ := Option.map_eq_some_iff.mp hends
  exact ⟨s, run_of_exec hs, heq, poller_delayed (run_of_exec hs)⟩

/-- A pass stops at a request with a negative `expire_time`, which is not above the clock. -/
theorem negative_time_stops :
    ∃ s, Run (fun s a t => pollStep s a = some t) (.init (fun _ => true) (fun _ => 0) fun _ => 0)
      [.arrive ⟨3, 1, 0⟩ (-1), .tick 30, .enter, .collect, .collect, .turn] s ∧
      ∃ e ∈ s.stops, ∃ t ∈ e.left, t.toInt ≤ e.now := by
  have hends : (exec pollStep
      [.arrive ⟨3, 1, 0⟩ (-1), .tick 30, .enter, .collect, .collect, .turn]
      (.init (fun _ => true) (fun _ => 0) fun _ => 0)).map (·.stops) = some [⟨30, {-1}⟩] := by
    decide +kernel
  obtain ⟨s, hs, hstops⟩ := Option.map_eq_some_iff.mp hends
  refine ⟨s, run_of_exec hs, ⟨30, {-1}⟩, ?_, -1, Multiset.mem_singleton_self _, by decide⟩
  rw [hstops]
  exact List.mem_singleton_self _

end Femu.Queue

import Mathlib.Data.Fintype.Defs
import Mathlib.Data.Finset.Insert
import Femu.Rte.Steps

/-!
# Femu.Rte.Queue

The ring as a queue. Seen from outside, an enqueue takes effect when it stores the tail and a
dequeue when it moves the head, and then every run of the threads is a run of a bounded
queue (`ring_linearizable`): whatever the interleaving, a dequeue returns the pointers that
the queue gave to it at that moment, so that every pointer comes out once and in order.
-/

namespace Femu.Rte

open Lib

/-- `rte_ring_count`, of a ring that nobody uses in between. -/
def rteRingCount {α : Type} (r : RteRing α) : UInt32 :=
  let count := (r.prod.tail - r.cons.tail) &&& r.mask
  if count > r.capacity then r.capacity else count

/-- `rte_ring_free_count`. -/
def rteRingFreeCount {α : Type} (r : RteRing α) : UInt32 := r.capacity - rteRingCount r

/-- `rte_ring_full`. -/
def rteRingFull {α : Type} (r : RteRing α) : Bool := rteRingFreeCount r == 0

/-- `rte_ring_empty`. -/
def rteRingEmpty {α : Type} (r : RteRing α) : Bool := rteRingCount r == 0

/-- What a call has done to the queue when it returns. -/
def RingMove.event {T α : Type} (m : RingMove α) (t : T) (got : List α) : QueueEvent T α :=
  match m.call with
  | .enqueue objTable _ => .put t (objTable.take m.n.toNat)
  | .dequeue _ _ => .get t got

/-- The last event of an actor. -/
def lastOf {T α : Type} [DecidableEq T] (t : T) (es : List (QueueEvent T α)) :
    Option (QueueEvent T α) :=
  (es.filter fun e => e.actor = t).getLast?

/-- Whose step it is. -/
def RingAct.actor {T α : Type} : RingAct T α → T
  | .call t _ | .readHead t | .readTail t | .moveHead t | .copy t | .seeTail t | .storeTail t
  | .ret t | .count t | .readConsTail t => t

namespace RingSys

variable {T α : Type}

/-- The pointers that can be dequeued. -/
def queue (s : RingSys T α) : List α := (s.sent.take s.published).drop s.claimed

/-- The queue and the ring, when `s` has been reached from a fresh ring `r`. -/
structure Linearizable [DecidableEq T] (s : RingSys T α) (r : RteRing α) : Prop where
  /-- The calls are those of a queue with the capacity of the ring. -/
  run : Run (QueueStep r.capacity.toNat) [] s.history s.queue
  /-- A call that returns has done what the queue says, as its last event. -/
  answers : ∀ t m got, s.pc t = .returned m got → lastOf t s.history = some (m.event t got)
  /-- At rest the counts are those of the queue. -/
  atRest : (∀ t, s.pc t = .idle) → (rteRingCount s.r).toNat = s.queue.length ∧
    (rteRingFreeCount s.r).toNat = r.capacity.toNat - s.queue.length ∧
    (rteRingFull s.r = true ↔ s.queue.length = r.capacity.toNat) ∧
    (rteRingEmpty s.r = true ↔ s.queue = [])

/-! ## the queue of a state -/

theorem length_queue {s : RingSys T α} (h : s.RingInv) :
    s.queue.length = s.published - s.claimed := by
  obtain ⟨h1, h2, h3, h4⟩ := h.ordered
  rw [queue, List.length_drop, List.length_take_of_le h3]

/-- The pointers that a dequeue claims are the first of the queue. -/
theorem queue_split {s : RingSys T α} {n : Nat} (hroom : s.claimed + n ≤ s.published) :
    s.queue = (s.sent.drop s.claimed).take n ++
      (s.sent.take s.published).drop (s.claimed + n) := by
  rw [queue, ← List.drop_drop]
  conv_lhs => rw [← List.take_append_drop n ((s.sent.take s.published).drop s.claimed)]
  congr 1
  rw [List.drop_take, List.take_take, Nat.min_eq_left (Nat.le_sub_of_add_le' hroom)]

/-- The pointers that an enqueue publishes go to the end of the queue. -/
theorem queue_publish {s : RingSys T α} (h : s.RingInv) (n : Nat) :
    (s.sent.take (s.published + n)).drop s.claimed =
      s.queue ++ (s.sent.drop s.published).take n := by
  obtain ⟨h1, h2, h3, h4⟩ := h.ordered
  rw [queue, List.take_add, List.drop_append_of_le_length]
  rw [List.length_take_of_le h3]
  exact h2

variable [DecidableEq T] {s s' : RingSys T α} {t : T}

/-! ## steps -/

/-- What a step does to the queue: an event, or nothing that can be seen. -/
theorem ProperStep.queue {act : RingAct T α} (hstep : s.ProperStep act s') (h : s.RingInv) :
    s'.history = s.history ∧ s'.queue = s.queue ∨
      ∃ e, s'.history = s.history ++ [e] ∧ QueueStep s.r.capacity.toNat s.queue e s'.queue := by
  obtain ⟨⟨htime, halone⟩, hstep⟩ := hstep
  cases act with
  | moveHead t =>
      obtain ⟨m, hpc, ⟨hcas, rfl⟩ | rfl⟩ := hstep.moveHead
      · have htime := htime _ (by rw [hpc]; rfl)
        have hhead := h.ticket_eq hpc htime hcas
        have hok := h.pcOk t
        rw [hpc] at hok
        obtain ⟨hread, hsized, hroom⟩ := hok
        unfold takeSlots
        cases hcall : m.call with
        | enqueue objTable b =>
            refine .inl ⟨rfl, ?_⟩
            show ((s.sent ++ objTable.take m.n.toNat).take s.published).drop s.claimed = s.queue
            rw [List.take_append_of_le_length h.ordered.2.2.1]
            rfl
        | dequeue n b =>
            rw [hcall] at hhead hroom
            have hclaimed : m.ticket = s.claimed := hhead
            rw [hclaimed] at hroom
            exact .inr ⟨_, rfl, queue_split hroom⟩
      · exact .inl ⟨rfl, rfl⟩
  | storeTail t =>
      obtain ⟨m, got, hpc, rfl⟩ := hstep.storeTail
      have hok := h.pcOk t
      rw [hpc] at hok
      obtain ⟨hcopied, htail⟩ := hok
      unfold giveSlots
      cases hcall : m.call with
      | enqueue objTable b =>
          rw [hcall] at htail
          have hpub : s.published = m.ticket := htail
          have hsent := hcopied.le_sent
          have htable := (hcopied.put objTable b hcall).1
          rw [← hpub] at hsent htable
          have hqueue := queue_publish h m.n.toNat
          refine .inr ⟨_, rfl, ?_, ?_⟩
          · rw [← htable]
            exact hqueue
          · show ((s.sent.take (s.published + m.n.toNat)).drop s.claimed).length ≤ _
            obtain ⟨h1, h2, h3, h4⟩ := h.ordered
            rw [List.length_drop, List.length_take_of_le hsent]
            omega
      | dequeue n b => exact .inl ⟨rfl, rfl⟩
  | copy t =>
      obtain ⟨m, i, got, p, hpc, hp, ⟨objTable, b, a, hcall, ha, rfl⟩ | ⟨n, b, hcall, rfl⟩⟩ :=
        hstep.copy <;> exact .inl ⟨rfl, rfl⟩
  | call t c =>
      obtain ⟨hpc, rfl⟩ := hstep.call
      exact .inl ⟨rfl, rfl⟩
  | readHead t =>
      obtain ⟨c, hpc, rfl⟩ := hstep.readHead
      exact .inl ⟨rfl, rfl⟩
  | readTail t =>
      obtain ⟨c, oldHead, ticket, hpc, ⟨h0, rfl⟩ | ⟨hn, rfl⟩⟩ := hstep.readTail <;>
        exact .inl ⟨rfl, rfl⟩
  | seeTail t =>
      obtain ⟨m, i, got, hpc, hi, hseen, rfl⟩ := hstep.seeTail
      exact .inl ⟨rfl, rfl⟩
  | ret t =>
      obtain ⟨hpc, rfl⟩ := hstep.ret
      exact .inl ⟨rfl, rfl⟩
  | count t =>
      obtain ⟨hpc, rfl⟩ := hstep.count
      exact .inl ⟨rfl, rfl⟩
  | readConsTail t =>
      obtain ⟨prodTail, hpc, rfl⟩ := hstep.readConsTail
      exact .inl ⟨rfl, rfl⟩

/-! ## answers -/

theorem lastOf_snoc (u : T) (es : List (QueueEvent T α)) (e : QueueEvent T α) :
    lastOf u (es ++ [e]) = if e.actor = u then some e else lastOf u es := by
  unfold lastOf
  rw [List.filter_append]
  split
  case isTrue heq => simp [heq]
  case isFalse hne => simp [hne]

/-- A step of one thread, seen by the others. -/
structure Frame (s : RingSys T α) (t : T) (s' : RingSys T α) : Prop where
  pc : ∀ u, u ≠ t → s'.pc u = s.pc u
  last : ∀ u, u ≠ t → lastOf u s'.history = lastOf u s.history
  sent : s.sent <+: s'.sent
  capacity : s'.r.capacity = s.r.capacity

theorem goto_frame {p : RingPc α} : Frame s t (s.goto t p) where
  pc u hu := by rw [goto_pc, if_neg hu]
  last u _ := rfl
  sent := List.prefix_refl _
  capacity := rfl

theorem takeSlots_frame {m : RingMove α} : Frame s t (s.takeSlots t m) where
  pc u hu := by rw [takeSlots_pc, if_neg hu]
  last u hu := by
    unfold takeSlots
    cases m.call with
    | enqueue => rfl
    | dequeue => exact (lastOf_snoc ..).trans (if_neg (Ne.symm hu))
  sent := takeSlots_sent_prefix
  capacity := by rw [takeSlots_r, RteRing.setHead_capacity]

theorem giveSlots_frame {m : RingMove α} {got : List α} : Frame s t (s.giveSlots t m got) where
  pc u hu := by rw [giveSlots_pc, if_neg hu]
  last u hu := by
    unfold giveSlots
    cases m.call with
    | enqueue => exact (lastOf_snoc ..).trans (if_neg (Ne.symm hu))
    | dequeue => rfl
  sent := by rw [giveSlots_sent]
  capacity := by rw [giveSlots_r, RteRing.setTail_capacity]

theorem Step.frame {act : RingAct T α} (h : s.Step act s') : Frame s act.actor s' := by
  cases act with
  | call t c => exact h.call.2 ▸ goto_frame
  | readHead t =>
      obtain ⟨c, -, rfl⟩ := h.readHead
      exact goto_frame
  | readTail t =>
      obtain ⟨c, oldHead, ticket, -, ⟨-, rfl⟩ | ⟨-, rfl⟩⟩ := h.readTail <;> exact goto_frame
  | moveHead t =>
      obtain ⟨m, -, ⟨-, rfl⟩ | rfl⟩ := h.moveHead
      · exact takeSlots_frame
      · exact goto_frame
  | copy t =>
      obtain ⟨m, i, got, p, -, -, ⟨objTable, b, a, -, -, rfl⟩ | ⟨n, b, -, rfl⟩⟩ := h.copy
      · exact ⟨goto_frame.pc, fun _ _ => rfl, List.prefix_refl _, rfl⟩
      · exact goto_frame
  | seeTail t =>
      obtain ⟨m, i, got, -, -, -, rfl⟩ := h.seeTail
      exact goto_frame
  | storeTail t =>
      obtain ⟨m, got, -, rfl⟩ := h.storeTail
      exact giveSlots_frame
  | ret t => exact h.ret.2 ▸ goto_frame
  | count t => exact h.count.2 ▸ goto_frame
  | readConsTail t =>
      obtain ⟨prodTail, -, rfl⟩ := h.readConsTail
      exact goto_frame

/-- What is known of the last event of a thread that is at `p`. -/
def Answered (s : RingSys T α) (t : T) : RingPc α → Prop
  | .copying m _ _ | .waited m _ => ∀ n b, m.call = .dequeue n b →
      lastOf t s.history = some (.get t ((s.sent.drop m.ticket).take m.n.toNat))
  | .returned m got => lastOf t s.history = some (m.event t got)
  | _ => True

theorem Answered.frame {act : T} {p : RingPc α} (h : s.Answered t p) (hok : s.PcOk p)
    (hf : Frame s act s') (hlast : lastOf t s'.history = lastOf t s.history) :
    s'.Answered t p := by
  have hslice : ∀ k n, k + n ≤ s.sent.length →
      (s'.sent.drop k).take n = (s.sent.drop k).take n := by
    intro k n hle
    obtain ⟨rest, hrest⟩ := hf.sent
    rw [← hrest, List.drop_append_of_le_length (by omega),
      List.take_append_of_le_length (by simp; omega)]
  cases p with
  | idle | entering | headRead | moving | refused | counting | counted => trivial
  | copying m i got =>
      intro n b hcall
      rw [hlast, hslice _ _ hok.2.le_sent]
      exact h n b hcall
  | waited m got =>
      intro n b hcall
      rw [hlast, hslice _ _ hok.1.le_sent]
      exact h n b hcall
  | returned m got => exact hlast.trans h

/-- **Step lemma** of the answers. -/
theorem ProperStep.answered {act : RingAct T α} (hstep : s.ProperStep act s') (h : s.RingInv)
    (ha : ∀ t, s.Answered t (s.pc t)) (t : T) : s'.Answered t (s'.pc t) := by
  obtain ⟨⟨htime, halone⟩, hstep⟩ := hstep
  have hf := hstep.frame
  by_cases hne : t ≠ act.actor
  · rw [hf.pc t hne]
    exact (ha t).frame (h.pcOk t) hf (hf.last t hne)
  obtain rfl := not_not.mp hne
  have hmine := ha act.actor
  have hok := h.pcOk act.actor
  cases act with
  | call t c =>
      obtain ⟨-, rfl⟩ := hstep.call
      rw [RingAct.actor, goto_pc, if_pos rfl]
      trivial
  | readHead t =>
      obtain ⟨c, -, rfl⟩ := hstep.readHead
      rw [RingAct.actor, goto_pc, if_pos rfl]
      trivial
  | readTail t =>
      obtain ⟨c, oldHead, ticket, -, ⟨-, rfl⟩ | ⟨-, rfl⟩⟩ := hstep.readTail <;>
        rw [RingAct.actor, goto_pc, if_pos rfl] <;> trivial
  | moveHead t =>
      obtain ⟨m, hpc, ⟨hcas, rfl⟩ | rfl⟩ := hstep.moveHead
      · rw [RingAct.actor, takeSlots_pc, if_pos rfl]
        intro n b hcall
        have htime := htime _ (by rw [hpc]; rfl)
        have hhead := h.ticket_eq hpc htime hcas
        unfold takeSlots
        rw [hcall] at hhead ⊢
        have hclaimed : m.ticket = s.claimed := hhead
        rw [hclaimed]
        exact (lastOf_snoc ..).trans (if_pos rfl)
      · rw [RingAct.actor, goto_pc, if_pos rfl]
        trivial
  | copy t =>
      obtain ⟨m, i, got, p, hpc, -, ⟨objTable, b, a, hcall, -, rfl⟩ | ⟨n, b, -, rfl⟩⟩ := hstep.copy
      · rw [RingAct.actor, goto_pc, if_pos rfl]
        intro n' b' hcall'
        rw [hcall] at hcall'
        cases hcall'
      · rw [RingAct.actor, hpc] at hmine
        rw [RingAct.actor, goto_pc, if_pos rfl]
        exact hmine
  | seeTail t =>
      obtain ⟨m, i, got, hpc, -, -, rfl⟩ := hstep.seeTail
      rw [RingAct.actor, hpc] at hmine
      rw [RingAct.actor, goto_pc, if_pos rfl]
      exact hmine
  | storeTail t =>
      obtain ⟨m, got, hpc, rfl⟩ := hstep.storeTail
      rw [RingAct.actor, hpc] at hmine hok
      rw [RingAct.actor, giveSlots_pc, if_pos rfl]
      unfold giveSlots
      cases hcall : m.call with
      | enqueue objTable b =>
          refine (lastOf_snoc ..).trans ((if_pos rfl).trans ?_)
          rw [RingMove.event, hcall]
      | dequeue n b =>
          show lastOf t s.history = _
          rw [RingMove.event, hcall, hmine n b hcall, hok.1.get n b hcall]
  | ret t =>
      obtain ⟨-, rfl⟩ := hstep.ret
      rw [RingAct.actor, goto_pc, if_pos rfl]
      trivial
  | count t =>
      obtain ⟨-, rfl⟩ := hstep.count
      rw [RingAct.actor, goto_pc, if_pos rfl]
      trivial
  | readConsTail t =>
      obtain ⟨prodTail, -, rfl⟩ := hstep.readConsTail
      rw [RingAct.actor, goto_pc, if_pos rfl]
      trivial

/-! ## runs -/

omit [DecidableEq T] in
/-- At rest the tails tell how many pointers the queue holds. -/
theorem RingInv.count_eq (h : s.RingInv) (hrest : ∀ t, s.pc t = .idle) :
    (rteRingCount s.r).toNat = s.queue.length := by
  have hnone : ∀ d t, (s.pc t).claim d = none := fun d t => by rw [hrest t]; rfl
  have hcons : s.released = s.claimed := (h.claims .cons).eq_of_none (hnone .cons)
  obtain ⟨h1, h2, h3, h4⟩ := h.ordered
  have hcap := h.wf.capacity_lt
  have hsize := s.r.size.toNat_lt
  have hprodTail : s.r.prod.tail = .ofNat s.published := h.tail .prod
  have hconsTail : s.r.cons.tail = .ofNat s.released := h.tail .cons
  have hdist : (s.r.prod.tail - s.r.cons.tail).toNat = s.published - s.released := by
    rw [hprodTail, hconsTail]
    exact toNat_ofNat_sub (by omega) (by omega)
  have hmask : ((s.r.prod.tail - s.r.cons.tail) &&& s.r.mask).toNat = s.published - s.released := by
    have hof : s.r.prod.tail - s.r.cons.tail = .ofNat (s.published - s.released) := by
      rw [← hdist, UInt32.ofNat_toNat]
    rw [hof, h.wf.mask, Nat.mod_eq_of_lt (by omega)]
  have hle : ¬ (s.r.prod.tail - s.r.cons.tail) &&& s.r.mask > s.r.capacity := by
    rw [gt_iff_lt, UInt32.lt_iff_toNat_lt, hmask]
    omega
  show (if _ > _ then _ else _ : UInt32).toNat = _
  rw [if_neg hle, hmask, length_queue h, hcons]

omit [DecidableEq T] in
theorem RingInv.queue_le (h : s.RingInv) : s.queue.length ≤ s.r.capacity.toNat := by
  obtain ⟨h1, h2, h3, h4⟩ := h.ordered
  rw [length_queue h]
  omega

/-- What holds after every step, of a ring with the capacity `cap`. -/
structure Served (cap : UInt32) (s : RingSys T α) : Prop where
  inv : s.RingInv
  capacity : s.r.capacity = cap
  run : Run (QueueStep cap.toNat) [] s.history s.queue
  answered : ∀ t, s.Answered t (s.pc t)

theorem ProperStep.served {cap : UInt32} {act : RingAct T α} (h : s.Served cap)
    (hstep : s.ProperStep act s') : s'.Served cap where
  inv := hstep.inv h.inv
  capacity := hstep.2.frame.capacity.trans h.capacity
  run := by
    rcases hstep.queue h.inv with ⟨hhist, hqueue⟩ | ⟨e, hhist, hqueue⟩
    · rw [hhist, hqueue]
      exact h.run
    · rw [h.capacity] at hqueue
      rw [hhist]
      exact h.run.snoc hqueue
  answered := hstep.answered h.inv h.answered

theorem run_served {r : RteRing α} {count flags : UInt32} (hr : r.Fresh count flags)
    {acts : List (RingAct T α)} (hrun : Run ProperStep (start r) acts s) : s.Served r.capacity :=
  Run.invariant (fun _ _ _ hs hstep => hstep.served hs)
    ⟨start_inv hr, rfl, .nil _, fun _ => trivial⟩ hrun

/-- **The ring is a queue**, however many threads use it and however their steps interleave. -/
theorem ring_linearizable {r : RteRing α} {count flags : UInt32} (hr : r.Fresh count flags)
    {acts : List (RingAct T α)} (hrun : Run ProperStep (start r) acts s) :
    s.Linearizable r := by
  have h := run_served hr hrun
  refine ⟨h.run, fun t m got hpc => ?_, fun hrest => ?_⟩
  · have ha := h.answered t
    rwa [hpc] at ha
  · have hcount := h.inv.count_eq hrest
    have hle := h.inv.queue_le
    rw [h.capacity] at hle
    have hfree : (rteRingFreeCount s.r).toNat = r.capacity.toNat - s.queue.length := by
      have hin : rteRingCount s.r ≤ s.r.capacity := by
        rw [UInt32.le_iff_toNat_le, h.capacity, hcount]
        exact hle
      rw [rteRingFreeCount, UInt32.toNat_sub_of_le _ _ hin, h.capacity, hcount]
    refine ⟨hcount, hfree, ?_, ?_⟩
    · rw [rteRingFull, beq_iff_eq, ← UInt32.toNat_inj, hfree, UInt32.toNat_zero]
      omega
    · rw [rteRingEmpty, beq_iff_eq, ← UInt32.toNat_inj, hcount, UInt32.toNat_zero,
        List.length_eq_zero_iff]

/-- The threads of two pollers and of the FTL. -/
inductive RingUser
  | poller1
  | poller2
  | ftl
deriving DecidableEq

instance : Fintype RingUser where
  elems := {.poller1, .poller2, .ftl}
  complete u := by cases u <;> simp

/-- A poller enqueues two pointers and another one a third; `ftl_thread` dequeues all three.
The second poller's compare-and-set fails once, and it waits for the first one's tail. -/
def pollersAndFtl : List (RingAct RingUser Nat) :=
  [.call .poller1 (.enqueue [10, 11] .queueFixed), .readHead .poller1,
    .call .poller2 (.enqueue [20] .queueFixed), .readHead .poller2, .readTail .poller1,
    .readTail .poller2, .moveHead .poller1, .moveHead .poller2, .readHead .poller2,
    .readTail .poller2, .moveHead .poller2, .copy .poller2, .copy .poller1, .copy .poller1,
    .seeTail .poller1, .storeTail .poller1, .seeTail .poller2, .storeTail .poller2,
    .call .ftl (.dequeue 5 .queueVariable), .readHead .ftl, .readTail .ftl, .moveHead .ftl,
    .copy .ftl, .copy .ftl, .copy .ftl, .seeTail .ftl, .storeTail .ftl]

theorem ring_linearizable_small :
    ∃ r s, femuRingCreate (fun _ => 0) .mpSc femuMaxInfReqs = some r ∧
      Run ProperStep (start r) pollersAndFtl s ∧
      s.history = [.put .poller1 [10, 11], .put .poller2 [20], .get .ftl [10, 11, 20]] ∧
      s.Linearizable r := by
  have hends : ((femuRingCreate (fun _ => 0) .mpSc femuMaxInfReqs).bind fun r =>
      (exec (allowed (fun s a => s.InTime a ∧ s.Alone a) step?) pollersAndFtl (start r)).map
        (·.history)) =
      some [.put .poller1 [10, 11], .put .poller2 [20], .get .ftl [10, 11, 20]] := by
    decide +kernel
  obtain ⟨r, hr, hends⟩ := Option.bind_eq_some_iff.mp hends
  obtain ⟨s, hs, hhist⟩ := Option.map_eq_some_iff.mp hends
  obtain ⟨r', hr', hfresh⟩ := femuRing_fresh (fun _ => 0) .mpSc
  obtain rfl : r' = r := Option.some.inj (hr'.symm.trans hr)
  have hrun : Run ProperStep (start r') pollersAndFtl s := run_of_exec_allowed hs
  exact ⟨r', s, hr, hrun, hhist, ring_linearizable hfresh hrun⟩

end RingSys

end Femu.Rte

import Mathlib.Data.UInt
import Femu.Lib.BoundedQueue

/-!
# Femu.Rte.Ring

The ring of pointers between the pollers and `ftl_thread` (`inc/rte_ring.h`,
`lib/rte_ring.c`). Each end of the ring has a head, which a call moves to claim slots, and
a tail, which it moves behind them when it has filled or emptied them. Both count modulo
`2^32` and are masked where the slots are accessed.

Any number of threads call `__rte_ring_do_enqueue` and `__rte_ring_do_dequeue`. A step is one
access to the ring: a read of a head or a tail, a compare-and-set, one pointer
copied, a store of a tail.
-/

namespace Femu.Rte

open Lib

/-- `enum rte_ring_queue_behavior`. -/
inductive QueueBehavior
  | queueFixed
  | queueVariable
deriving DecidableEq

/-- `struct rte_ring_headtail`. -/
structure HeadTail where
  head : UInt32
  tail : UInt32
  single : Bool

/-- `struct rte_ring`, with the pointers behind it. -/
structure RteRing (α : Type) where
  size : UInt32
  mask : UInt32
  capacity : UInt32
  prod : HeadTail
  cons : HeadTail
  ring : Nat → α

/-- The two ends of a ring. -/
inductive Side
  | prod
  | cons
deriving DecidableEq

namespace RteRing

variable {α : Type}

/-- The head and the tail of one end. -/
def ht (r : RteRing α) : Side → HeadTail
  | .prod => r.prod
  | .cons => r.cons

def setHead (r : RteRing α) (d : Side) (v : UInt32) : RteRing α :=
  match d with
  | .prod => { r with prod := { r.prod with head := v } }
  | .cons => { r with cons := { r.cons with head := v } }

def setTail (r : RteRing α) (d : Side) (v : UInt32) : RteRing α :=
  match d with
  | .prod => { r with prod := { r.prod with tail := v } }
  | .cons => { r with cons := { r.cons with tail := v } }

/-- `ring[p] = a`. -/
def setSlot (r : RteRing α) (p : Nat) (a : α) : RteRing α :=
  { r with ring := Function.update r.ring p a }

/-- `*free_entries` of `__rte_ring_move_prod_head`, `*entries` of
`__rte_ring_move_cons_head`. -/
def entries (r : RteRing α) (d : Side) (oldHead : UInt32) : UInt32 :=
  match d with
  | .prod => r.capacity + r.cons.tail - oldHead
  | .cons => r.prod.tail - oldHead

end RteRing

/-- The number of pointers that a call moves, of the `n` that it is asked for. -/
def QueueBehavior.clamp (b : QueueBehavior) (n entries : UInt32) : UInt32 :=
  if n > entries then
    match b with
    | .queueFixed => 0
    | .queueVariable => entries
  else
    n

/-! ## ENQUEUE_PTRS and DEQUEUE_PTRS -/

/-- The slots of `k` rounds of the unrolled loop, four in each. -/
def foursFrom (idx : Nat) : Nat → List Nat
  | 0 => []
  | k + 1 => idx :: (idx + 1) :: (idx + 2) :: (idx + 3) :: foursFrom (idx + 4) k

/-- The slots of the `switch` after it. -/
def restFrom (idx n : Nat) : List Nat :=
  match n % 4 with
  | 3 => [idx, idx + 1, idx + 2]
  | 2 => [idx, idx + 1]
  | 1 => [idx]
  | _ => []

/-- The slots that `ENQUEUE_PTRS` and `DEQUEUE_PTRS` access, in order. -/
def RteRing.slots {α : Type} (r : RteRing α) (head n : UInt32) : List Nat :=
  let idx := head &&& r.mask
  if idx + n < r.size then
    foursFrom idx.toNat (n.toNat / 4) ++ restFrom (idx.toNat + 4 * (n.toNat / 4)) n.toNat
  else
    List.range' idx.toNat (r.size.toNat - idx.toNat) ++
      List.range' 0 (n.toNat - (r.size.toNat - idx.toNat))

/-! ## the threads -/

/-- A call of `__rte_ring_do_enqueue`, with its `obj_table`, or of
`__rte_ring_do_dequeue`. -/
inductive RingCall (α : Type)
  | enqueue (objTable : List α) (behavior : QueueBehavior)
  | dequeue (n : UInt32) (behavior : QueueBehavior)
deriving DecidableEq

namespace RingCall

variable {α : Type}

def side : RingCall α → Side
  | .enqueue _ _ => .prod
  | .dequeue _ _ => .cons

def n : RingCall α → UInt32
  | .enqueue objTable _ => .ofNat objTable.length
  | .dequeue n _ => n

def behavior : RingCall α → QueueBehavior
  | .enqueue _ b | .dequeue _ b => b

end RingCall

/-- The local variables of a call that moves `n` pointers. `ticket` is the number of the
first of them, counted from the start of the ring. -/
structure RingMove (α : Type) where
  call : RingCall α
  oldHead : UInt32
  entries : UInt32
  n : UInt32
  ticket : Nat
deriving DecidableEq

/-- Where a thread is. -/
inductive RingPc (α : Type)
  | idle
  /-- at the top of the `do` loop of `__rte_ring_move_prod_head` or
  `__rte_ring_move_cons_head` -/
  | entering (c : RingCall α)
  | headRead (c : RingCall α) (oldHead : UInt32) (ticket : Nat)
  | moving (m : RingMove α)
  /-- `i` pointers are copied; `got` are those of a dequeue -/
  | copying (m : RingMove α) (i : Nat) (got : List α)
  /-- past the `while` loop of `update_tail` -/
  | waited (m : RingMove α) (got : List α)
  | returned (m : RingMove α) (got : List α)
  /-- the call returns 0 -/
  | refused (c : RingCall α) (entries : UInt32)
  /-- in `rte_ring_count` -/
  | counting (prodTail : UInt32)
  | counted (count : UInt32)
deriving DecidableEq

/-- A ring with the threads that use it. The other fields record what a ring does not
keep: the pointers in the order in which slots were claimed for them, how many of them
have been handed to the consumers, claimed by them and given back, and the
calls in the order in which they took effect. -/
structure RingSys (T α : Type) where
  r : RteRing α
  pc : T → RingPc α
  sent : List α
  published : Nat
  claimed : Nat
  released : Nat
  history : List (QueueEvent T α)

inductive RingAct (T α : Type)
  | call (t : T) (c : RingCall α)
  | readHead (t : T)
  | readTail (t : T)
  /-- the store of the head, or the `rte_atomic32_cmpset` -/
  | moveHead (t : T)
  | copy (t : T)
  /-- `while (ht->tail != old_val)` is left -/
  | seeTail (t : T)
  | storeTail (t : T)
  | ret (t : T)
  /-- `rte_ring_count` -/
  | count (t : T)
  | readConsTail (t : T)

namespace RingSys

variable {T α : Type}

/-- The pointers for which slots of an end were claimed. -/
def headCount (s : RingSys T α) : Side → Nat
  | .prod => s.sent.length
  | .cons => s.claimed

/-- Those of them that the calls are done with. -/
def tailCount (s : RingSys T α) : Side → Nat
  | .prod => s.published
  | .cons => s.released

variable [DecidableEq T]

/-- A pointer is stored in a slot. -/
def store (s : RingSys T α) (p : Nat) (a : α) : RingSys T α := { s with r := s.r.setSlot p a }

def goto (s : RingSys T α) (t : T) (p : RingPc α) : RingSys T α :=
  { s with pc := Function.update s.pc t p }

/-- The head is moved. A dequeue takes effect here. -/
def takeSlots (s : RingSys T α) (t : T) (m : RingMove α) : RingSys T α :=
  let s := { s with r := s.r.setHead m.call.side (m.oldHead + m.n) }
  match m.call with
  | .enqueue objTable _ =>
      ({ s with sent := s.sent ++ objTable.take m.n.toNat } : RingSys T α).goto t (.copying m 0 [])
  | .dequeue _ _ =>
      ({ s with
        claimed := s.claimed + m.n.toNat
        history := s.history ++ [.get t ((s.sent.drop s.claimed).take m.n.toNat)] } :
        RingSys T α).goto t (.copying m 0 [])

/-- The tail is moved. An enqueue takes effect here. -/
def giveSlots (s : RingSys T α) (t : T) (m : RingMove α) (got : List α) : RingSys T α :=
  let s := { s with r := s.r.setTail m.call.side (m.oldHead + m.n) }
  match m.call with
  | .enqueue objTable _ =>
      ({ s with
        published := s.published + m.n.toNat
        history := s.history ++ [.put t (objTable.take m.n.toNat)] } :
        RingSys T α).goto t (.returned m got)
  | .dequeue _ _ =>
      ({ s with released := s.released + m.n.toNat } : RingSys T α).goto t (.returned m got)

/-- The next step of a thread, `none` where it cannot be taken. -/
def step? (s : RingSys T α) : RingAct T α → Option (RingSys T α)
  | .call t c =>
      match s.pc t with
      | .idle | .counted _ => some (s.goto t (.entering c))
      | _ => none
  | .readHead t =>
      match s.pc t with
      | .entering c => some (s.goto t (.headRead c (s.r.ht c.side).head (s.headCount c.side)))
      | _ => none
  | .readTail t =>
      match s.pc t with
      | .headRead c oldHead ticket =>
          let entries := s.r.entries c.side oldHead
          let n := c.behavior.clamp c.n entries
          if n = 0 then some (s.goto t (.refused c entries))
          else some (s.goto t (.moving ⟨c, oldHead, entries, n, ticket⟩))
      | _ => none
  | .moveHead t =>
      match s.pc t with
      | .moving m =>
          if (s.r.ht m.call.side).single ∨ (s.r.ht m.call.side).head = m.oldHead then
            some (s.takeSlots t m)
          else
            some (s.goto t (.entering m.call))
      | _ => none
  | .copy t =>
      match s.pc t with
      | .copying m i got =>
          match (s.r.slots m.oldHead m.n)[i]?, m.call with
          | some p, .enqueue objTable _ =>
              objTable[i]?.map fun a => (s.store p a).goto t (.copying m (i + 1) got)
          | some p, .dequeue _ _ => some (s.goto t (.copying m (i + 1) (got ++ [s.r.ring p])))
          | none, _ => none
      | _ => none
  | .seeTail t =>
      match s.pc t with
      | .copying m i got =>
          if (s.r.slots m.oldHead m.n).length ≤ i ∧
              ((s.r.ht m.call.side).single ∨ (s.r.ht m.call.side).tail = m.oldHead) then
            some (s.goto t (.waited m got))
          else none
      | _ => none
  | .storeTail t =>
      match s.pc t with
      | .waited m got => some (s.giveSlots t m got)
      | _ => none
  | .ret t =>
      match s.pc t with
      | .returned _ _ | .refused _ _ | .counted _ => some (s.goto t .idle)
      | _ => none
  | .count t =>
      match s.pc t with
      | .idle | .counted _ => some (s.goto t (.counting s.r.prod.tail))
      | _ => none
  | .readConsTail t =>
      match s.pc t with
      | .counting prodTail =>
          let count := (prodTail - s.r.cons.tail) &&& s.r.mask
          some (s.goto t (.counted (if count > s.r.capacity then s.r.capacity else count)))
      | _ => none

def Step (s : RingSys T α) (a : RingAct T α) (s' : RingSys T α) : Prop := s.step? a = some s'

/-! ## what a step can do -/

section Inversion

variable {s s' : RingSys T α} {t : T}

theorem Step.call {c : RingCall α} (h : s.Step (.call t c) s') :
    (s.pc t = .idle ∨ ∃ k, s.pc t = .counted k) ∧ s' = s.goto t (.entering c) := by
  unfold Step step? at h
  simp only at h
  split at h
  case h_1 hpc => exact ⟨.inl hpc, (Option.some.inj h).symm⟩
  case h_2 k hpc => exact ⟨.inr ⟨k, hpc⟩, (Option.some.inj h).symm⟩
  case h_3 => cases h

theorem Step.readHead (h : s.Step (.readHead t) s') : ∃ c, s.pc t = .entering c ∧
    s' = s.goto t (.headRead c (s.r.ht c.side).head (s.headCount c.side)) := by
  unfold Step step? at h
  simp only at h
  split at h
  case h_1 c hpc => exact ⟨c, hpc, (Option.some.inj h).symm⟩
  case h_2 => cases h

/-- A call is refused, or it goes on with a number of pointers. -/
theorem Step.readTail (h : s.Step (.readTail t) s') : ∃ c oldHead ticket,
    s.pc t = .headRead c oldHead ticket ∧
    (c.behavior.clamp c.n (s.r.entries c.side oldHead) = 0 ∧
        s' = s.goto t (.refused c (s.r.entries c.side oldHead)) ∨
      c.behavior.clamp c.n (s.r.entries c.side oldHead) ≠ 0 ∧
        s' = s.goto t (.moving ⟨c, oldHead, s.r.entries c.side oldHead,
          c.behavior.clamp c.n (s.r.entries c.side oldHead), ticket⟩)) := by
  unfold Step step? at h
  simp only at h
  split at h
  case h_1 c oldHead ticket hpc =>
    refine ⟨c, oldHead, ticket, hpc, ?_⟩
    split at h
    case isTrue h0 => exact .inl ⟨h0, (Option.some.inj h).symm⟩
    case isFalse h0 => exact .inr ⟨h0, (Option.some.inj h).symm⟩
  case h_2 => cases h

theorem Step.moveHead (h : s.Step (.moveHead t) s') : ∃ m, s.pc t = .moving m ∧
    (((s.r.ht m.call.side).single = true ∨ (s.r.ht m.call.side).head = m.oldHead) ∧
        s' = s.takeSlots t m ∨
      s' = s.goto t (.entering m.call)) := by
  unfold Step step? at h
  simp only at h
  split at h
  case h_1 m hpc =>
    refine ⟨m, hpc, ?_⟩
    split at h
    case isTrue hcas => exact .inl ⟨hcas, (Option.some.inj h).symm⟩
    case isFalse => exact .inr (Option.some.inj h).symm
  case h_2 => cases h

theorem Step.copy (h : s.Step (.copy t) s') : ∃ m i got p, s.pc t = .copying m i got ∧
    (s.r.slots m.oldHead m.n)[i]? = some p ∧
    ((∃ objTable b a, m.call = .enqueue objTable b ∧ objTable[i]? = some a ∧
        s' = (s.store p a).goto t (.copying m (i + 1) got)) ∨
      (∃ n b, m.call = .dequeue n b ∧
        s' = s.goto t (.copying m (i + 1) (got ++ [s.r.ring p])))) := by
  unfold Step step? at h
  simp only at h
  split at h
  case h_1 m i got hpc =>
    split at h
    case h_1 p objTable b hp hcall =>
      obtain ⟨a, ha, heq⟩ := Option.map_eq_some_iff.mp h
      exact ⟨m, i, got, p, hpc, hp, .inl ⟨objTable, b, a, hcall, ha, heq.symm⟩⟩
    case h_2 p n b hp hcall =>
      exact ⟨m, i, got, p, hpc, hp, .inr ⟨n, b, hcall, (Option.some.inj h).symm⟩⟩
    case h_3 => cases h
  case h_2 => cases h

theorem Step.seeTail (h : s.Step (.seeTail t) s') : ∃ m i got, s.pc t = .copying m i got ∧
    (s.r.slots m.oldHead m.n).length ≤ i ∧
    ((s.r.ht m.call.side).single = true ∨ (s.r.ht m.call.side).tail = m.oldHead) ∧
    s' = s.goto t (.waited m got) := by
  unfold Step step? at h
  simp only at h
  split at h
  case h_1 m i got hpc =>
    split at h
    case isTrue hc => exact ⟨m, i, got, hpc, hc.1, hc.2, (Option.some.inj h).symm⟩
    case isFalse => cases h
  case h_2 => cases h

theorem Step.storeTail (h : s.Step (.storeTail t) s') : ∃ m got, s.pc t = .waited m got ∧
    s' = s.giveSlots t m got := by
  unfold Step step? at h
  simp only at h
  split at h
  case h_1 m got hpc => exact ⟨m, got, hpc, (Option.some.inj h).symm⟩
  case h_2 => cases h

theorem Step.ret (h : s.Step (.ret t) s') :
    ((∃ m got, s.pc t = .returned m got) ∨ (∃ c k, s.pc t = .refused c k) ∨
      ∃ k, s.pc t = .counted k) ∧ s' = s.goto t .idle := by
  unfold Step step? at h
  simp only at h
  split at h
  case h_1 m got hpc => exact ⟨.inl ⟨m, got, hpc⟩, (Option.some.inj h).symm⟩
  case h_2 c k hpc => exact ⟨.inr (.inl ⟨c, k, hpc⟩), (Option.some.inj h).symm⟩
  case h_3 k hpc => exact ⟨.inr (.inr ⟨k, hpc⟩), (Option.some.inj h).symm⟩
  case h_4 => cases h

theorem Step.count (h : s.Step (.count t) s') :
    (s.pc t = .idle ∨ ∃ k, s.pc t = .counted k) ∧ s' = s.goto t (.counting s.r.prod.tail) := by
  unfold Step step? at h
  simp only at h
  split at h
  case h_1 hpc => exact ⟨.inl hpc, (Option.some.inj h).symm⟩
  case h_2 k hpc => exact ⟨.inr ⟨k, hpc⟩, (Option.some.inj h).symm⟩
  case h_3 => cases h

theorem Step.readConsTail (h : s.Step (.readConsTail t) s') : ∃ prodTail,
    s.pc t = .counting prodTail ∧
    s' = s.goto t (.counted (if (prodTail - s.r.cons.tail) &&& s.r.mask > s.r.capacity then
      s.r.capacity else (prodTail - s.r.cons.tail) &&& s.r.mask)) := by
  unfold Step step? at h
  simp only at h
  split at h
  case h_1 prodTail hpc => exact ⟨prodTail, hpc, (Option.some.inj h).symm⟩
  case h_2 => cases h

end Inversion

end RingSys

end Femu.Rte

import Femu.Simbricks.Adapter

/-!
# Femu.Simbricks.Notify

Completion entries and the interrupts for them on their way to the host: `pci_dma_write` and
its kin in the threads of the device, the notifiers that the pollers set and `qemu_main_thread`
looks at, and the second half of the loop of `simbricks_thread`, which copies a message out of
its slot, raises `op->ready`, and only then sends it.

The slots are those of `Q2sb`, but here the two stores of a message, into the union and to
`type`, are steps of their own, so that the messages of two producers in one slot may be mixed.
Each interrupt that the main thread sends for a notifier carries the writes that had returned
in the threads that set it.
-/

namespace Femu.Simbricks

open Lib

/-- `struct dma_op` without `ready`, numbered by the call that it is made for. -/
structure DmaOp where
  id : Nat
  hwaddr : Nat
  data : List UInt8
deriving DecidableEq

/-- `SIMBRICKS_PROTO_PCIE_INT_LEGACY_HI` and its kin. -/
inductive IntType
  | legacyHi
  | legacyLo
  | msi
  | msix
deriving DecidableEq

/-- `enum qemu2sb_type`. -/
inductive Qemu2SbType
  | mmioReadComp
  | dmaWrite
  | dmaRead
  | int
deriving DecidableEq

/-- The union of `struct qemu2sb`. -/
inductive SlotBody (P : Type)
  | mmioReadCompl (data reqId : Nat)
  | dma (op : Thread P)
  | intr (vector : Nat) (inttype : IntType) (vouched : List DmaOp)
deriving DecidableEq

/-- A call of a function that sends a message: `mmio_read`, `pci_dma_read`, `pci_dma_write`, or
one that sends an interrupt. -/
inductive Outgoing
  | mmioReadCompl (data reqId : Nat)
  | dmaRead (op : DmaOp)
  | dmaWrite (op : DmaOp)
  | int (vector : Nat) (inttype : IntType) (vouched : List DmaOp)
deriving DecidableEq

namespace Outgoing

variable {P : Type}

def type : Outgoing → Qemu2SbType
  | .mmioReadCompl _ _ => .mmioReadComp
  | .dmaRead _ => .dmaRead
  | .dmaWrite _ => .dmaWrite
  | .int _ _ _ => .int

def body (t : Thread P) : Outgoing → SlotBody P
  | .mmioReadCompl data reqId => .mmioReadCompl data reqId
  | .dmaRead _ | .dmaWrite _ => .dma t
  | .int vector inttype vouched => .intr vector inttype vouched

/-- The message as `Q2sb` has it. -/
def msg (t : Thread P) : Outgoing → Qemu2Sb (Thread P)
  | .mmioReadCompl data reqId => .mmioReadCompl data reqId
  | .dmaRead _ => .dmaRead t
  | .dmaWrite _ => .dmaWrite t
  | .int vector inttype _ => .int vector inttype.ctorIdx

/-- The `dma_op` that the function waits for. -/
def op? : Outgoing → Option DmaOp
  | .dmaRead op | .dmaWrite op => some op
  | .mmioReadCompl _ _ | .int _ _ _ => none

/-- The write that is done when the function returns. -/
def write? : Outgoing → Option DmaOp
  | .dmaWrite op => some op
  | .dmaRead _ | .mmioReadCompl _ _ | .int _ _ _ => none

def vouched : Outgoing → List DmaOp
  | .int _ _ vouched => vouched
  | .mmioReadCompl _ _ | .dmaRead _ | .dmaWrite _ => []

/-- The `n`-th call, which is not for a notifier. -/
def Fresh (n : Nat) (m : Outgoing) : Prop := (∀ op ∈ m.op?, op.id = n) ∧ m.vouched = []

instance {n : Nat} {m : Outgoing} : Decidable (m.Fresh n) := inferInstanceAs (Decidable (_ ∧ _))

end Outgoing

/-- A message to the host. The request of a DMA read names its operation. -/
inductive D2H (P : Type)
  | readcomp (reqId data : Nat)
  | writecomp (reqId : Nat)
  | read (op : Thread P) (hwaddr len : Nat)
  | write (op : DmaOp)
  | interrupt (vector : Nat) (inttype : IntType) (vouched : List DmaOp)
deriving DecidableEq

/-- The DMA read that the message asks of the host. -/
def D2H.reads {P : Type} : D2H P → List (Thread P)
  | .read t _ _ => [t]
  | .readcomp _ _ | .writecomp _ | .write _ | .interrupt _ _ _ => []

def D2H.isWrite {P : Type} : D2H P → Bool
  | .write _ => true
  | .readcomp _ _ | .writecomp _ | .read _ _ _ | .interrupt _ _ _ => false

/-- What a thread of the device is doing. -/
inductive DevCall
  | running
  /-- in `sb_op_alloc`, or before it has stored into the union -/
  | sending (m : Outgoing)
  | stored (m : Outgoing)
  /-- in `while (!op.ready)` -/
  | dmaWait (m : Outgoing)
deriving DecidableEq

structure Notify (P : Type) where
  /-- the flags and cursors, with the messages as `Q2sb` has them -/
  ring : Q2sb (Thread P)
  slotBody : Nat → SlotBody P
  slotType : Nat → Qemu2SbType
  call : Thread P → DevCall
  /-- the calls made so far -/
  calls : Nat
  op : Thread P → DmaOp
  opReady : Thread P → Bool
  /-- the DMA reads that the host has not answered yet -/
  reads : List (Thread P)
  /-- the message that `simbricks_thread` has filled in and not sent -/
  hand : Option (D2H P)
  d2h : List (D2H P)
  eventSet : Nat → Bool
  /-- the writes that were done when the notifier was set, since it was last cleared -/
  vouched : Nat → List DmaOp
  /-- the writes that have returned -/
  done : Thread P → List DmaOp

inductive NotifyAct (P : Type)
  /-- a thread enters a function that sends `m` -/
  | call (t : Thread P) (m : Outgoing)
  | alloc (t : Thread P)
  | seeClear (t : Thread P)
  | storeBody (t : Thread P)
  | storeType (t : Thread P)
  | publish (t : Thread P)
  | dmaDone (t : Thread P)
  /-- `event_notifier_set` -/
  | setEvent (t : Thread P) (en : Nat)
  /-- `qemu_main_thread` finds the notifier of an entry of `vints` set and clears it -/
  | findSet (en vector : Nat)
  /-- `dma_read_comp` -/
  | dmaReadComp (t : Thread P) (data : List UInt8)
  /-- the completion that `mmio_write` sends -/
  | writecomp (reqId : Nat)
  | seeReady
  | copy
  | send
  | clear
  | advanceHead

namespace Notify

variable {P : Type}

/-- `op.ready = false` and the rest of the `dma_op` on the stack of the thread. -/
def initOp [DecidableEq P] (s : Notify P) (t : Thread P) (m : Outgoing) : Notify P :=
  { s with
    op := m.op?.elim s.op (Function.update s.op t)
    opReady := m.op?.elim s.opReady fun _ => Function.update s.opReady t false }

/-- The call after the message has been published. -/
def afterPublish (m : Outgoing) : DevCall :=
  match m.op? with
  | some _ => .dmaWait m
  | none => .running

/-- The message that `simbricks_thread` fills in for the slot at the head. Where `type` does not
go with what is in the union, C leaves open what happens, and there is no step. -/
def fetch (s : Notify P) : Option (D2H P) :=
  match s.slotType s.ring.q2sbHead, s.slotBody s.ring.q2sbHead with
  | .mmioReadComp, .mmioReadCompl data reqId => some (.readcomp reqId data)
  | .dmaRead, .dma t => some (.read t (s.op t).hwaddr (s.op t).data.length)
  | .dmaWrite, .dma t => some (.write (s.op t))
  | .int, .intr vector inttype vouched => some (.interrupt vector inttype vouched)
  | _, _ => none

/-- `op->ready = true`, for a DMA write at the head. -/
def raise [DecidableEq P] (s : Notify P) : Thread P → Bool :=
  match s.slotType s.ring.q2sbHead, s.slotBody s.ring.q2sbHead with
  | .dmaWrite, .dma t => Function.update s.opReady t true
  | _, _ => s.opReady

section Steps

variable [DecidableEq P]

/-- Take a step on `q2sb_q`. -/
def onRing (s : Notify P) (a : Q2sbAct (Thread P)) : Option (Notify P) :=
  (s.ring.step? a).map fun q => { s with ring := q }

/-- The next step of one of the actors, `none` where it cannot be taken. -/
def step? (s : Notify P) : NotifyAct P → Option (Notify P)
  | .call t m =>
      match s.call t with
      | .running =>
          if m.Fresh s.calls then some { s with
            call := Function.update s.call t (.sending m)
            calls := s.calls + 1 }
          else none
      | _ => none
  | .alloc t =>
      match s.call t with
      | .sending _ => s.onRing (.alloc t)
      | _ => none
  | .seeClear t => s.onRing (.seeClear t)
  | .storeBody t =>
      match s.call t, s.ring.producer t with
      | .sending m, .owning i _ => some { s.initOp t m with
          slotBody := Function.update s.slotBody i (m.body t)
          call := Function.update s.call t (.stored m) }
      | _, _ => none
  | .storeType t =>
      match s.call t, s.ring.producer t with
      | .stored m, .owning i _ =>
          { s with slotType := Function.update s.slotType i m.type }.onRing (.fill t (m.msg t))
      | _, _ => none
  | .publish t =>
      match s.call t with
      | .stored m =>
          { s with call := Function.update s.call t (afterPublish m) }.onRing (.publish t)
      | _ => none
  | .dmaDone t =>
      match s.call t with
      | .dmaWait m =>
          if s.opReady t then some { s with
            call := Function.update s.call t .running
            done := Function.update s.done t (s.done t ++ m.write?.toList) }
          else none
      | _ => none
  | .setEvent t en =>
      match s.call t with
      | .running => some { s with
          eventSet := Function.update s.eventSet en true
          vouched := Function.update s.vouched en (s.vouched en ++ s.done t) }
      | _ => none
  | .findSet en vector =>
      match s.call .main with
      | .running =>
          if s.eventSet en then some { s with
            eventSet := Function.update s.eventSet en false
            vouched := Function.update s.vouched en []
            call := Function.update s.call .main (.sending (.int vector .msix (s.vouched en))) }
          else none
      | _ => none
  | .dmaReadComp t data =>
      match s.ring.consumer with
      | .polling =>
          if s.reads.contains t then some { s with
            reads := s.reads.erase t
            op := Function.update s.op t { s.op t with data := data }
            opReady := Function.update s.opReady t true }
          else none
      | _ => none
  | .writecomp reqId =>
      match s.ring.consumer with
      | .polling => some { s with d2h := s.d2h ++ [.writecomp reqId] }
      | _ => none
  | .seeReady => s.onRing .seeReady
  | .copy =>
      match s.fetch with
      | some m => { s with hand := some m, opReady := s.raise }.onRing .consume
      | none => none
  | .send =>
      match s.hand with
      | some m => some { s with
          d2h := s.d2h ++ [m]
          hand := none
          reads := s.reads ++ m.reads }
      | none => none
  | .clear =>
      match s.hand with
      | some _ => none
      | none => s.onRing .clear
  | .advanceHead => s.onRing .advanceHead

def Step (s : Notify P) (a : NotifyAct P) (s' : Notify P) : Prop := s.step? a = some s'

end Steps

/-- The device before its threads start. -/
structure Init (s : Notify P) : Prop where
  ring : s.ring.Init
  body : ∀ i vector inttype vouched, s.slotBody i = .intr vector inttype vouched → vouched = []
  call : ∀ t, s.call t = .running
  reads : s.reads = []
  hand : s.hand = none
  d2h : s.d2h = []
  vouched : ∀ en, s.vouched en = []
  done : ∀ t, s.done t = []

/-! ## statement -/

/-- Every interrupt comes after the writes that it carries. -/
def InOrder (d2h : List (D2H P)) : Prop :=
  ∀ before vector inttype vouched after,
    d2h = before ++ .interrupt vector inttype vouched :: after → ∀ op ∈ vouched, .write op ∈ before

/-- Every interrupt that was sent for a notifier comes after the DMA writes that were done when
the notifier was set. -/
def NotOvertaken (s : Notify P) : Prop := InOrder s.d2h

/-- Slots are allocated while every producer is in time. -/
def AllocInTime (s : Notify P) : NotifyAct P → Prop
  | .alloc _ => s.ring.InTime
  | _ => True

/-- A step in which a slot is allocated in time. -/
def StepInTime [DecidableEq P] (s : Notify P) (a : NotifyAct P) (s' : Notify P) : Prop :=
  s.AllocInTime a ∧ s.Step a s'

section Steps

variable [DecidableEq P] {s s' : Notify P} {t : Thread P} {op : DmaOp}

theorem onRing_eq_some {b : Q2sbAct (Thread P)} :
    s.onRing b = some s' ↔ ∃ q, s.ring.Step b q ∧ s' = { s with ring := q } := by
  simp only [onRing, Q2sb.Step, Option.map_eq_some_iff]
  exact exists_congr fun q => and_congr_right fun _ => eq_comm

/-! ## what a step can do -/

theorem Step.call {m : Outgoing} (h : s.Step (.call t m) s') : s.call t = .running ∧
    m.Fresh s.calls ∧
    s' = { s with
      call := Function.update s.call t (.sending m)
      calls := s.calls + 1 } := by
  unfold Step step? at h
  simp only at h
  split at h
  case h_1 hcall =>
    split at h
    case isTrue hfresh => exact ⟨hcall, hfresh, (Option.some.inj h).symm⟩
    case isFalse => cases h
  case h_2 => cases h

theorem Step.alloc (h : s.Step (.alloc t) s') : ∃ m q, s.call t = .sending m ∧
    s.ring.Step (.alloc t) q ∧ s' = { s with ring := q } := by
  unfold Step step? at h
  simp only at h
  split at h
  case h_1 m hcall =>
    obtain ⟨q, hq, rfl⟩ := onRing_eq_some.mp h
    exact ⟨m, q, hcall, hq, rfl⟩
  case h_2 => cases h

theorem Step.storeBody (h : s.Step (.storeBody t) s') : ∃ m i k, s.call t = .sending m ∧
    s.ring.producer t = .owning i k ∧
    s' = { s.initOp t m with
      slotBody := Function.update s.slotBody i (m.body t)
      call := Function.update s.call t (.stored m) } := by
  unfold Step step? at h
  simp only at h
  split at h
  case h_1 m i k hcall hpc => exact ⟨m, i, k, hcall, hpc, (Option.some.inj h).symm⟩
  case h_2 => cases h

theorem Step.storeType (h : s.Step (.storeType t) s') : ∃ m i k, s.call t = .stored m ∧
    s.ring.producer t = .owning i k ∧
    s' = { s with
      slotType := Function.update s.slotType i m.type
      ring := { s.ring with
        slots := fillSlot s.ring.slots i (m.msg t)
        producer := Function.update s.ring.producer t (.filled i k (m.msg t)) } } := by
  unfold Step step? at h
  simp only at h
  split at h
  case h_1 m i k hcall hpc =>
    obtain ⟨q, hq, rfl⟩ := onRing_eq_some.mp h
    obtain ⟨i', k', hpc', rfl⟩ := hq.fill
    obtain ⟨rfl, rfl⟩ : i = i' ∧ k = k' := by simpa using hpc.symm.trans hpc'
    exact ⟨m, i, k, hcall, hpc, rfl⟩
  case h_2 => cases h

theorem Step.publish (h : s.Step (.publish t) s') : ∃ m q, s.call t = .stored m ∧
    s.ring.Step (.publish t) q ∧
    s' = { s with
      call := Function.update s.call t (afterPublish m)
      ring := q } := by
  unfold Step step? at h
  simp only at h
  split at h
  case h_1 m hcall =>
    obtain ⟨q, hq, rfl⟩ := onRing_eq_some.mp h
    exact ⟨m, q, hcall, hq, rfl⟩
  case h_2 => cases h

theorem Step.dmaDone (h : s.Step (.dmaDone t) s') : ∃ m, s.call t = .dmaWait m ∧
    s.opReady t = true ∧
    s' = { s with
      call := Function.update s.call t .running
      done := Function.update s.done t (s.done t ++ m.write?.toList) } := by
  unfold Step step? at h
  simp only at h
  split at h
  case h_1 m hcall =>
    split at h
    case isTrue hready => exact ⟨m, hcall, hready, (Option.some.inj h).symm⟩
    case isFalse => cases h
  case h_2 => cases h

theorem Step.setEvent {en : Nat} (h : s.Step (.setEvent t en) s') :
    s' = { s with
      eventSet := Function.update s.eventSet en true
      vouched := Function.update s.vouched en (s.vouched en ++ s.done t) } := by
  unfold Step step? at h
  simp only at h
  split at h
  case h_1 => exact (Option.some.inj h).symm
  case h_2 => cases h

theorem Step.findSet {en vector : Nat} (h : s.Step (.findSet en vector) s') :
    s.call .main = .running ∧
    s' = { s with
      eventSet := Function.update s.eventSet en false
      vouched := Function.update s.vouched en []
      call := Function.update s.call .main (.sending (.int vector .msix (s.vouched en))) } := by
  unfold Step step? at h
  simp only at h
  split at h
  case h_1 hcall =>
    split at h
    case isTrue => exact ⟨hcall, (Option.some.inj h).symm⟩
    case isFalse => cases h
  case h_2 => cases h

theorem Step.dmaReadComp {data : List UInt8} (h : s.Step (.dmaReadComp t data) s') :
    t ∈ s.reads ∧
    s' = { s with
      reads := s.reads.erase t
      op := Function.update s.op t { s.op t with data := data }
      opReady := Function.update s.opReady t true } := by
  unfold Step step? at h
  simp only at h
  split at h
  case h_1 =>
    split at h
    case isTrue hmem => exact ⟨List.contains_iff_mem.mp hmem, (Option.some.inj h).symm⟩
    case isFalse => cases h
  case h_2 => cases h

theorem Step.writecomp {reqId : Nat} (h : s.Step (.writecomp reqId) s') :
    s' = { s with d2h := s.d2h ++ [.writecomp reqId] } := by
  unfold Step step? at h
  simp only at h
  split at h
  case h_1 => exact (Option.some.inj h).symm
  case h_2 => cases h

theorem Step.copy (h : s.Step .copy s') : ∃ m, s.fetch = some m ∧ s.ring.consumer = .seen ∧
    s' = { s with
      hand := some m
      opReady := s.raise
      ring := { s.ring with
        consumer := .consumed
        consumed := s.ring.consumed ++ [(s.ring.slots s.ring.q2sbHead).val] } } := by
  unfold Step step? at h
  simp only at h
  split at h
  case h_1 m hfetch =>
    obtain ⟨q, hq, rfl⟩ := onRing_eq_some.mp h
    obtain ⟨hseen, rfl⟩ := hq.consume
    exact ⟨m, hfetch, hseen, rfl⟩
  case h_2 => cases h

theorem Step.send (h : s.Step .send s') : ∃ m, s.hand = some m ∧
    s' = { s with
      d2h := s.d2h ++ [m]
      hand := none
      reads := s.reads ++ m.reads } := by
  unfold Step step? at h
  simp only at h
  split at h
  case h_1 m hhand => exact ⟨m, hhand, (Option.some.inj h).symm⟩
  case h_2 => cases h

theorem Step.clear (h : s.Step .clear s') : s.hand = none ∧ s.ring.consumer = .consumed ∧
    s' = { s with ring := { s.ring with
      consumer := .cleared
      slots := setReady s.ring.slots s.ring.q2sbHead false } } := by
  unfold Step step? at h
  simp only at h
  split at h
  case h_1 => cases h
  case h_2 hhand =>
    obtain ⟨q, hq, rfl⟩ := onRing_eq_some.mp h
    obtain ⟨hcons, rfl⟩ := hq.clear
    exact ⟨hhand, hcons, rfl⟩

end Steps

/-- The device at the start. -/
def start (P : Type) : Notify P :=
  { ring := .start (Thread P)
    slotBody := fun _ => .mmioReadCompl 0 0
    slotType := fun _ => .mmioReadComp
    call := fun _ => .running
    calls := 0
    op := fun _ => ⟨0, 0, []⟩
    opReady := fun _ => false
    reads := []
    hand := none
    d2h := []
    eventSet := fun _ => false
    vouched := fun _ => []
    done := fun _ => [] }

theorem start_init : (start P).Init :=
  ⟨Q2sb.start_init, fun _ _ _ _ h => (by cases h), fun _ => rfl, rfl, rfl, rfl, fun _ => rfl,
    fun _ => rfl⟩

end Notify

end Femu.Simbricks

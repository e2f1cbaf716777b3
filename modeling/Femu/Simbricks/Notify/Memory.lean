import Femu.Lib.Disk
import Femu.Simbricks.Notify.Order

/-!
# Femu.Simbricks.Notify.Memory

DMA as the device sees it: the host at the other end of the channel takes the messages of
`simbricks_thread` in order, makes the accesses to its memory that they ask for, and answers
the reads; in between it writes to its memory itself.

`pci_dma_write` returns as soon as its message is copied, which may be long before the host
has made the access. But the messages are taken in the order in which they were copied, so
that every access that is asked for afterwards, by any thread, comes after it.
-/

namespace Femu.Simbricks

open Lib

/-! ## the device and the host -/

/-- An access to the memory of the host: one of its own, or for a call of the device. -/
structure Access where
  call : Option Nat
  op : DiskOp UInt8

/-- The device and the host. -/
structure DmaSys (P : Type) where
  dev : Notify P
  mem : Nat → UInt8
  /-- the messages of the device that the host has taken -/
  handled : Nat
  /-- the answers on their way to the device -/
  answers : List (Thread P × List UInt8)
  /-- the calls of the device, each at its number -/
  made : List Outgoing
  /-- the calls whose DMA has been copied, in order -/
  order : List Nat
  trace : List Access

inductive DmaAct (P : Type)
  /-- a step of the device, other than to take an answer -/
  | dev (a : NotifyAct P)
  /-- the host writes to its memory -/
  | store (off : Nat) (xs : List UInt8)
  /-- the host takes the next message -/
  | handle
  /-- `simbricks_thread` takes the next answer -/
  | answer

/-- The access that the call asks for. -/
def Outgoing.Asks : Outgoing → DiskOp UInt8 → Prop
  | .dmaWrite op, .write off xs => off = op.hwaddr ∧ xs = op.data
  | .dmaRead op, .read off xs => off = op.hwaddr ∧ xs.length = op.data.length
  | _, _ => False

/-- The calls that a step of the device makes. -/
def NotifyAct.made {P : Type} : NotifyAct P → List Outgoing
  | .call _ m => [m]
  | _ => []

def NotifyAct.takesAnswer {P : Type} : NotifyAct P → Bool
  | .dmaReadComp _ _ => true
  | _ => false

namespace Notify

variable {P : Type}

/-- The call that the message was sent for, if it asks for an access. -/
def callOf (s : Notify P) : D2H P → Option Nat
  | .write op => some op.id
  | .read t _ _ => some (s.op t).id
  | .readcomp _ _ | .writecomp _ | .interrupt _ _ _ => none

/-- The call whose DMA has just been copied. -/
def copied (s : Notify P) : NotifyAct P → List Nat
  | .copy => (s.hand.bind s.callOf).toList
  | _ => []

end Notify

namespace DmaSys

variable {P : Type}

/-- The host takes a message. -/
def take (s : DmaSys P) : D2H P → DmaSys P
  | .write op => { s with
      mem := overwrite s.mem op.hwaddr op.data
      handled := s.handled + 1
      trace := s.trace ++ [⟨some op.id, .write op.hwaddr op.data⟩] }
  | .read t hwaddr len =>
      let data := slice s.mem hwaddr len
      { s with
        handled := s.handled + 1
        answers := s.answers ++ [(t, data)]
        trace := s.trace ++ [⟨some (s.dev.op t).id, .read hwaddr data⟩] }
  | .readcomp _ _ | .writecomp _ | .interrupt _ _ _ => { s with handled := s.handled + 1 }

/-- The messages that the host has not taken, sent or about to be. -/
def pending (s : DmaSys P) : List (D2H P) := s.dev.d2h.drop s.handled ++ s.dev.hand.toList

section Steps

variable [DecidableEq P]

/-- The next step of the device or of the host, `none` where it cannot be taken. -/
def step? (s : DmaSys P) : DmaAct P → Option (DmaSys P)
  | .dev a =>
      if a.takesAnswer then none
      else (s.dev.step? a).map fun d => { s with
        dev := d
        made := s.made ++ a.made
        order := s.order ++ d.copied a }
  | .store off xs => some { s with
      mem := overwrite s.mem off xs
      trace := s.trace ++ [⟨none, .write off xs⟩] }
  | .handle => s.dev.d2h[s.handled]?.map s.take
  | .answer =>
      match s.answers with
      | [] => none
      | (t, data) :: rest =>
          (s.dev.step? (.dmaReadComp t data)).map fun d => { s with dev := d, answers := rest }

def Step (s : DmaSys P) (a : DmaAct P) (s' : DmaSys P) : Prop := s.step? a = some s'

/-- Slots are allocated while every producer is in time. -/
def InTime (s : DmaSys P) : DmaAct P → Prop
  | .dev a => s.dev.AllocInTime a
  | .store _ _ | .handle | .answer => True

/-- A step in which a slot is allocated in time. -/
def StepInTime (s : DmaSys P) (a : DmaAct P) (s' : DmaSys P) : Prop := s.InTime a ∧ s.Step a s'

end Steps

/-- The device before its threads start, and the host with what its memory holds. -/
structure Init (s : DmaSys P) : Prop where
  dev : s.dev.Init
  calls : s.dev.calls = 0
  handled : s.handled = 0
  answers : s.answers = []
  made : s.made = []
  order : s.order = []
  trace : s.trace = []

/-! ## statement -/

/-- The accesses of the device and of the host are those of one memory, which held `mem` at
first. -/
structure Coherent (mem : Nat → UInt8) (s : DmaSys P) : Prop where
  /-- A read gives what was written last. -/
  run : Run (fun m a m' => DiskOp.Step m a.op m') mem s.trace s.mem
  /-- Every access of the device is the one that its call asks for, -/
  asked : ∀ k op, ⟨some k, op⟩ ∈ s.trace → ∃ m, s.made[k]? = some m ∧ m.Asks op
  /-- made in the order in which they were copied, and once. -/
  order : s.trace.filterMap Access.call <+: s.order
  once : s.order.Nodup
  /-- The access of a write that returns has been made or is on its way. -/
  write : ∀ t op, s.dev.call t = .dmaWait (.dmaWrite op) → s.dev.opReady t = true →
    s.made[op.id]? = some (.dmaWrite op) ∧ op.id ∈ s.order
  /-- The access of a read that returns has been made, and gave what the read returns. -/
  read : ∀ t op, s.dev.call t = .dmaWait (.dmaRead op) → s.dev.opReady t = true →
    s.made[op.id]? = some (.dmaRead op) ∧
      ⟨some op.id, .read op.hwaddr (s.dev.op t).data⟩ ∈ s.trace
  /-- When the host has taken all the messages, every access has been made. -/
  settled : s.handled = s.dev.d2h.length → s.dev.hand = none →
    s.trace.filterMap Access.call = s.order

/-! ## invariant -/

end DmaSys

namespace Notify

variable {P : Type}

/-- The call that the thread is in. -/
def inCall (s : Notify P) (t : Thread P) : Option Outgoing :=
  match s.call t with
  | .running => none
  | .sending m | .stored m | .dmaWait m => some m

/-- The DMA that the thread has asked for has not been copied. -/
def Uncopied (s : Notify P) (t : Thread P) : Prop :=
  match s.call t with
  | .running => False
  | .sending _ | .stored _ => True
  | .dmaWait _ => s.opReady t = false ∧ t ∉ s.reads ∧ ∀ hwaddr len, s.hand ≠ some (.read t hwaddr len)

theorem Uncopied.of_call {s d : Notify P} {t : Thread P} (h : d.Uncopied t)
    (hcall : d.call t = s.call t)
    (hwait : d.opReady t = false → t ∉ d.reads → (∀ hwaddr len, d.hand ≠ some (.read t hwaddr len)) →
      s.opReady t = false ∧ t ∉ s.reads ∧ ∀ hwaddr len, s.hand ≠ some (.read t hwaddr len)) :
    s.Uncopied t := by
  unfold Uncopied at h ⊢
  rw [hcall] at h
  cases hc : s.call t <;> simp only [hc] at h ⊢
  exact hwait h.1 h.2.1 h.2.2

end Notify

namespace DmaSys

variable {P : Type} {s s' : DmaSys P} {mem : Nat → UInt8} {t t' : Thread P} {op : DmaOp}

/-- A message on its way asks for the access of the call that it was sent for. -/
def Proper (s : DmaSys P) : D2H P → Prop
  | .write op => s.made[op.id]? = some (.dmaWrite op)
  | .read t hwaddr len => ∃ op, s.dev.call t = .dmaWait (.dmaRead op) ∧ hwaddr = op.hwaddr ∧
      len = op.data.length
  | .readcomp _ _ | .writecomp _ | .interrupt _ _ _ => True

/-- The calls that are going on, and how far they have got. -/
structure CallsInv (s : DmaSys P) : Prop where
  length : s.made.length = s.dev.calls
  made : ∀ t m op, s.dev.inCall t = some m → m.op? = some op → s.made[op.id]? = some m
  distinct : ∀ t t' m m' op op', s.dev.inCall t = some m → s.dev.inCall t' = some m' →
    m.op? = some op → m'.op? = some op' → op.id = op'.id → t = t'
  reading : ∀ t op, s.dev.call t = .dmaWait (.dmaRead op) →
    ∃ data, s.dev.op t = { op with data := data } ∧ data.length = op.data.length
  uncopied : ∀ t m op, s.dev.inCall t = some m → m.op? = some op → s.dev.Uncopied t →
    op.id ∉ s.order

/-- Where the accesses of the calls are. -/
structure AccessInv (mem : Nat → UInt8) (s : DmaSys P) : Prop where
  run : Run (fun m a m' => DiskOp.Step m a.op m') mem s.trace s.mem
  handled : s.handled ≤ s.dev.d2h.length
  reads : s.dev.reads = s.answers.map Prod.fst ++ (s.dev.d2h.drop s.handled).flatMap D2H.reads
  order : s.order = s.trace.filterMap Access.call ++ s.pending.filterMap s.dev.callOf
  nodup : s.order.Nodup
  lt : ∀ k ∈ s.order, k < s.dev.calls
  pending : ∀ m ∈ s.pending, s.Proper m
  answered : ∀ a ∈ s.answers, ∀ op, s.dev.call a.1 = .dmaWait (.dmaRead op) →
    ⟨some op.id, .read op.hwaddr a.2⟩ ∈ s.trace ∧ a.2.length = op.data.length
  asked : ∀ k op, ⟨some k, op⟩ ∈ s.trace → ∃ m, s.made[k]? = some m ∧ m.Asks op
  write : ∀ t op, s.dev.call t = .dmaWait (.dmaWrite op) → s.dev.opReady t = true →
    op.id ∈ s.order
  read : ∀ t op, s.dev.call t = .dmaWait (.dmaRead op) → s.dev.opReady t = true →
    ⟨some op.id, .read op.hwaddr (s.dev.op t).data⟩ ∈ s.trace

structure DmaInv (mem : Nat → UInt8) (s : DmaSys P) : Prop where
  dev : s.dev.Inv
  calls : s.CallsInv
  access : s.AccessInv mem

theorem Init.inv (h : s.Init) : s.DmaInv s.mem := by
  have hcall : ∀ t, s.dev.inCall t = none := fun t => by simp [Notify.inCall, h.dev.call t]
  have hpending : s.pending = [] := by simp [pending, h.dev.d2h, h.dev.hand]
  refine ⟨h.dev.inv, ?_, ?_⟩
  · exact
      { length := by rw [h.made, h.calls]; rfl
        made := fun t m op hm => by simp [hcall] at hm
        distinct := fun t t' m m' op op' hm => by simp [hcall] at hm
        reading := fun t op hop => by simp [h.dev.call t] at hop
        uncopied := fun t m op hm => by simp [hcall] at hm }
  · exact
      { run := by rw [h.trace]; exact .nil _
        handled := by rw [h.handled]; exact Nat.zero_le _
        reads := by simp [h.dev.reads, h.answers, h.dev.d2h]
        order := by simp [h.order, h.trace, hpending]
        nodup := by simp [h.order]
        lt := by simp [h.order]
        pending := by simp [hpending]
        answered := by simp [h.answers]
        asked := by simp [h.trace]
        write := fun t op hop => by simp [h.dev.call t] at hop
        read := fun t op hop => by simp [h.dev.call t] at hop }

/-- The invariant says that the accesses are those of one memory. -/
theorem DmaInv.coherent (h : s.DmaInv mem) : s.Coherent mem where
  run := h.access.run
  asked := h.access.asked
  order := by
    rw [h.access.order]
    exact List.prefix_append _ _
  once := h.access.nodup
  write t op hcall hready :=
    ⟨h.calls.made t _ op (by simp [Notify.inCall, hcall]) rfl, h.access.write t op hcall hready⟩
  read t op hcall hready :=
    ⟨h.calls.made t _ op (by simp [Notify.inCall, hcall]) rfl, h.access.read t op hcall hready⟩
  settled hall hhand := by
    have hpending : s.pending = [] := by simp [DmaSys.pending, hall, hhand]
    rw [h.access.order, hpending, List.filterMap_nil, List.append_nil]

/-- The calls that have been made have the numbers up to that of the next. -/
theorem CallsInv.lt (h : s.CallsInv) {k : Nat} {m : Outgoing} (hk : s.made[k]? = some m) :
    k < s.dev.calls := by
  obtain ⟨hlt, -⟩ := List.getElem?_eq_some_iff.mp hk
  rwa [h.length] at hlt

/-! ## what is on its way -/

/-- A read that the host has not taken refers to the operation of its thread. -/
theorem AccessInv.at_of_pending (h : s.AccessInv mem) {hwaddr len : Nat}
    (hm : .read t hwaddr len ∈ s.pending) : ∃ p, s.dev.At t p := by
  rcases List.mem_append.mp hm with hsent | hhand
  · refine ⟨.host, ?_⟩
    change t ∈ s.dev.reads
    rw [h.reads]
    exact List.mem_append_right _ (List.mem_flatMap.mpr ⟨_, hsent, List.mem_singleton_self t⟩)
  · exact ⟨.hand, hwaddr, len, Option.mem_toList.mp hhand⟩

theorem AccessInv.at_of_answer (h : s.AccessInv mem) {a : Thread P × List UInt8}
    (ha : a ∈ s.answers) : s.dev.At a.1 .host := by
  change a.1 ∈ s.dev.reads
  rw [h.reads]
  exact List.mem_append_left _ (List.mem_map_of_mem ha)

/-- The calls of the messages on their way are known by the operations they refer to. -/
theorem AccessInv.callOf_congr (h : s.AccessInv mem) {d : Notify P}
    (hop : ∀ t p, s.dev.At t p → (d.op t).id = (s.dev.op t).id) :
    s.pending.filterMap d.callOf = s.pending.filterMap s.dev.callOf := by
  refine List.filterMap_congr fun m hm => ?_
  cases m with
  | read t hwaddr len =>
      obtain ⟨p, hp⟩ := h.at_of_pending hm
      exact congrArg some (hop t p hp)
  | readcomp reqId data => rfl
  | writecomp reqId => rfl
  | write op => rfl
  | interrupt vector inttype vouched => rfl

/-! ## steps of the host -/

theorem DmaInv.store (h : s.DmaInv mem) (off : Nat) (xs : List UInt8) :
    DmaInv mem { s with
      mem := overwrite s.mem off xs
      trace := s.trace ++ [⟨none, .write off xs⟩] } where
  dev := h.dev
  calls := { h.calls with }
  access := { h.access with
    run := h.access.run.snoc rfl
    order := by
      rw [List.filterMap_append]
      simpa [DmaSys.pending] using h.access.order
    answered := fun a ha op hcall => (h.access.answered a ha op hcall).imp_left
      (List.mem_append_left _)
    asked := fun k op hmem => by
      rcases List.mem_append.mp hmem with hold | hnew
      · exact h.access.asked k op hold
      · simp at hnew
    read := fun t op hcall hready => List.mem_append_left _ (h.access.read t op hcall hready) }

/-- The host takes a message. The access that its call asks for is made, and a read is answered. -/
theorem DmaInv.taken {m : D2H P} {mem' : Nat → UInt8} (h : s.DmaInv mem)
    (hm : s.dev.d2h[s.handled]? = some m) (answers : List (Thread P × List UInt8))
    (trace : List Access)
    (hrun : Run (fun m a m' => DiskOp.Step m a.op m') s.mem trace mem')
    (hreads : answers.map Prod.fst = m.reads)
    (htrace : trace.filterMap Access.call = (s.dev.callOf m).toList)
    (hasked : ∀ k op, ⟨some k, op⟩ ∈ trace → ∃ m, s.made[k]? = some m ∧ m.Asks op)
    (hanswered : ∀ a ∈ answers, ∀ op, s.dev.call a.1 = .dmaWait (.dmaRead op) →
      ⟨some op.id, .read op.hwaddr a.2⟩ ∈ trace ∧ a.2.length = op.data.length) :
    DmaInv mem { s with
      mem := mem'
      handled := s.handled + 1
      answers := s.answers ++ answers
      trace := s.trace ++ trace } := by
  obtain ⟨hlt, hget⟩ := List.getElem?_eq_some_iff.mp hm
  have hdrop : s.dev.d2h.drop s.handled = m :: s.dev.d2h.drop (s.handled + 1) := by
    rw [List.drop_eq_getElem_cons hlt, hget]
  refine ⟨h.dev, { h.calls with }, { h.access with
    run := h.access.run.append hrun
    handled := hlt
    reads := ?_
    order := ?_
    pending := fun m' hm' => ?_
    answered := fun a ha op hcall => ?_
    asked := fun k op hmem => ?_
    read := fun t op hcall hready => List.mem_append_left _ (h.access.read t op hcall hready) }⟩
  · dsimp only
    rw [h.access.reads, hdrop, List.flatMap_cons, List.map_append, hreads, List.append_assoc]
  · have horder := h.access.order
    simp only [DmaSys.pending, hdrop, List.cons_append, List.filterMap_cons] at horder
    rw [List.filterMap_append, htrace, horder, List.append_assoc]
    cases hof : s.dev.callOf m <;> rfl
  · refine h.access.pending m' ?_
    simp only [DmaSys.pending, hdrop, List.cons_append]
    exact List.mem_cons_of_mem _ hm'
  · rcases List.mem_append.mp ha with hold | hnew
    · exact (h.access.answered a hold op hcall).imp_left (List.mem_append_left _)
    · exact (hanswered a hnew op hcall).imp_left (List.mem_append_right _)
  · rcases List.mem_append.mp hmem with hold | hnew
    · exact h.access.asked k op hold
    · exact hasked k op hnew

/-- **The host takes a message**, and makes the access that its call asks for. -/
theorem DmaInv.handle {m : D2H P} (h : s.DmaInv mem) (hm : s.dev.d2h[s.handled]? = some m) :
    DmaInv mem (s.take m) := by
  have hproper : s.Proper m := by
    obtain ⟨hlt, hget⟩ := List.getElem?_eq_some_iff.mp hm
    refine h.access.pending m (List.mem_append_left _ ?_)
    rw [List.drop_eq_getElem_cons hlt, hget]
    exact List.mem_cons_self
  have hquiet : s.dev.callOf m = none → m.reads = [] →
      DmaInv mem { s with handled := s.handled + 1 } := by
    intro hof hreads
    simpa using h.taken hm [] [] (.nil _) hreads.symm (by rw [hof]; rfl) (by simp) (by simp)
  cases m with
  | write op =>
      have hrun : Run (fun m (a : Access) m' => DiskOp.Step m a.op m') s.mem
          [⟨some op.id, .write op.hwaddr op.data⟩] (overwrite s.mem op.hwaddr op.data) :=
        .cons rfl (.nil _)
      have hasked : ∀ k op', ⟨some k, op'⟩ ∈ [Access.mk (some op.id) (.write op.hwaddr op.data)] →
          ∃ m, s.made[k]? = some m ∧ m.Asks op' := by
        intro k op' hmem
        simp only [List.mem_singleton, Access.mk.injEq, Option.some.injEq] at hmem
        obtain ⟨rfl, rfl⟩ := hmem
        exact ⟨_, hproper, rfl, rfl⟩
      have htaken := h.taken hm [] _ hrun rfl rfl hasked (by simp)
      rw [List.append_nil] at htaken
      exact htaken
  | read t hwaddr len =>
      obtain ⟨op, hcall, rfl, rfl⟩ := hproper
      obtain ⟨data, hop, -⟩ := h.calls.reading t op hcall
      have hid : (s.dev.op t).id = op.id := by rw [hop]
      have hlen : (slice s.mem op.hwaddr op.data.length).length = op.data.length :=
        length_slice _ _ _
      have hrun : Run (fun m (a : Access) m' => DiskOp.Step m a.op m') s.mem
          [⟨some (s.dev.op t).id, .read op.hwaddr (slice s.mem op.hwaddr op.data.length)⟩] s.mem :=
        .cons ⟨rfl, by rw [hlen]⟩ (.nil _)
      refine h.taken hm [(t, slice s.mem op.hwaddr op.data.length)] _ hrun rfl rfl ?_ ?_
      · intro k op' hmem
        simp only [List.mem_singleton, Access.mk.injEq, Option.some.injEq] at hmem
        obtain ⟨rfl, rfl⟩ := hmem
        refine ⟨.dmaRead op, ?_, rfl, hlen⟩
        rw [hid]
        exact h.calls.made t _ op (by simp [Notify.inCall, hcall]) rfl
      · intro a ha op' hcall'
        obtain rfl := List.mem_singleton.mp ha
        obtain rfl : op = op' := by simpa using hcall.symm.trans hcall'
        rw [hid]
        exact ⟨List.mem_singleton_self _, hlen⟩
  | readcomp reqId data => exact hquiet rfl rfl
  | writecomp reqId => exact hquiet rfl rfl
  | interrupt vector inttype vouched => exact hquiet rfl rfl

end DmaSys

end Femu.Simbricks

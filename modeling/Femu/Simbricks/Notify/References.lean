import Femu.Simbricks.Notify

/-!
# Femu.Simbricks.Notify.References

Who refers to a `dma_op`, the stack frame of a thread: the slot of its message, the message that
`simbricks_thread` is sending, or the host. While every producer is in time there is one
reference at most, and only while the thread waits, so that `op->ready` is raised for the
operation that the thread waits for; and memory holds the messages that `Q2sb` has.
-/

namespace Femu.Simbricks.Notify

open Lib

variable {P : Type}

/-! ## references to an operation -/

/-- Where a `dma_op` is known besides the thread that waits for it: in a slot that has been
published and not copied, in the message that is being sent, or with the host. -/
inductive Place
  | slot (i : Nat)
  | hand
  | host

/-- The message in the slot has been copied. -/
def Taken (s : Notify P) (i : Nat) : Prop := s.ring.consumer = .consumed ∧ i = s.ring.q2sbHead

def At (s : Notify P) (t : Thread P) : Place → Prop
  | .slot i => (s.ring.slots i).ready = true ∧ ¬ s.Taken i ∧ s.slotBody i = .dma t
  | .hand => ∃ hwaddr len, s.hand = some (.read t hwaddr len)
  | .host => t ∈ s.reads

/-- The message of the place is the one that `m` sends. -/
def Fits (s : Notify P) (m : Outgoing) : Place → Prop
  | .slot i => s.slotType i = m.type
  | .hand | .host => m.type = .dmaRead

/-- Nothing refers to an operation but on behalf of a thread that still waits for it, and in
one place only. -/
structure Refs (s : Notify P) : Prop where
  awaits : ∀ t p, s.At t p → ∃ m, s.call t = .dmaWait m ∧ s.opReady t = false ∧ s.Fits m p
  unique : ∀ t p q, s.At t p → s.At t q → p = q
  nodup : s.reads.Nodup

variable {s s' : Notify P} {t t' : Thread P} {op : DmaOp} {p : Place}

/-- Steps that add no reference, and leave the threads that wait alone. -/
theorem Refs.frame (h : s.Refs) (hat : ∀ t p, s'.At t p → s.At t p)
    (hwait : ∀ t p, s'.At t p → s'.call t = s.call t ∧ s'.opReady t = s.opReady t)
    (htype : ∀ i, (s'.ring.slots i).ready = true → s'.slotType i = s.slotType i)
    (hreads : s'.reads.Nodup) : s'.Refs where
  awaits t p hp := by
    obtain ⟨m, hcall, hready, hfits⟩ := h.awaits t p (hat t p hp)
    obtain ⟨hcall', hready'⟩ := hwait t p hp
    refine ⟨m, hcall'.trans hcall, hready'.trans hready, ?_⟩
    cases p with
    | slot i => exact (htype i hp.1).trans hfits
    | hand => exact hfits
    | host => exact hfits
  unique t p q hp hq := h.unique t p q (hat t p hp) (hat t q hq)
  nodup := hreads

/-- Where references only move from one place to another, each stays the only one. -/
theorem Refs.unique_of_move (h : s.Refs) (p₀ p₁ : Place)
    (hold : ∀ t p, s'.At t p → s.At t p ∧ p ≠ p₀ ∨ p = p₁ ∧ s.At t p₀) (t : Thread P)
    (p q : Place) (hp : s'.At t p) (hq : s'.At t q) : p = q := by
  rcases hold t p hp with ⟨hp', hpne⟩ | ⟨rfl, hp'⟩ <;>
    rcases hold t q hq with ⟨hq', hqne⟩ | ⟨rfl, hq'⟩
  · exact h.unique t p q hp' hq'
  · exact absurd (h.unique t p p₀ hp' hq') hpne
  · exact absurd (h.unique t q p₀ hq' hp') hqne
  · rfl

/-- Nothing refers to the operation of a thread that does not wait. -/
theorem Refs.ne_of_call (h : s.Refs) (hp : s.At t' p) (hcall : ∀ m, s.call t ≠ .dmaWait m) :
    t' ≠ t := by
  rintro rfl
  obtain ⟨m, hm, -⟩ := h.awaits t' p hp
  exact hcall m hm

/-! ## invariant -/

/-- What is known of a thread: it owns a slot only while it sends a message, and what it has
stored is still there. -/
def ThreadInv (s : Notify P) (t : Thread P) : Prop :=
  match s.call t with
  | .running => s.ring.producer t = .running
  | .sending _ => ∀ i k m, s.ring.producer t ≠ .filled i k m
  | .stored m => (∀ op ∈ m.op?, s.op t = op ∧ s.opReady t = false) ∧
      ((∃ i k, s.ring.producer t = .owning i k ∧ s.slotBody i = m.body t) ∨
        ∃ i k, s.ring.producer t = .filled i k (m.msg t) ∧ s.slotBody i = m.body t ∧
          s.slotType i = m.type)
  | .dmaWait m => s.ring.producer t = .running ∧ ∀ op, m = .dmaWrite op → s.op t = op

/-- What memory holds of the message of a slot. -/
def Agrees (s : Notify P) (i : Nat) : Prop :=
  ∃ t m, (s.ring.slots i).val = Outgoing.msg t m ∧ s.slotType i = m.type ∧
    s.slotBody i = m.body t

structure Inv (s : Notify P) : Prop where
  ring : ∃ c, s.ring.Inv c
  thread : ∀ t, s.ThreadInv t
  refs : s.Refs
  agrees : ∀ i, (s.ring.slots i).ready = true → s.Agrees i
  idle : s.ring.consumer ≠ .consumed → s.hand = none

theorem Init.inv (h : Init s) : Inv s where
  ring := ⟨0, h.ring.inv⟩
  thread t := by simp [ThreadInv, h.call t, h.ring.producer t]
  refs :=
    { awaits := fun t p hp => by
        cases p with
        | slot i => simp [At, h.ring.slots i] at hp
        | hand => simp [At, h.hand] at hp
        | host => simp [At, h.reads] at hp
      unique := fun t p q hp => by
        cases p with
        | slot i => simp [At, h.ring.slots i] at hp
        | hand => simp [At, h.hand] at hp
        | host => simp [At, h.reads] at hp
      nodup := by simp [h.reads] }
  agrees i hi := by simp [h.ring.slots i] at hi
  idle _ := h.hand

/-- A thread is not affected by steps of others. -/
theorem ThreadInv.frame (h : s.ThreadInv t) (hcall : s'.call t = s.call t)
    (hpc : s'.ring.producer t = s.ring.producer t) (hop : s'.op t = s.op t)
    (hready : (∀ m, s.call t ≠ .dmaWait m) → s'.opReady t = s.opReady t)
    (hslot : ∀ i, (s.ring.producer t).owned? = some i →
      s'.slotBody i = s.slotBody i ∧ s'.slotType i = s.slotType i) : s'.ThreadInv t := by
  unfold ThreadInv at h ⊢
  rw [hcall, hpc, hop]
  cases hc : s.call t with
  | running => simpa [hc] using h
  | sending m => simpa [hc] using h
  | dmaWait m => simpa [hc] using h
  | stored m =>
      simp only [hc] at h ⊢
      rw [hready (by simp [hc])]
      refine ⟨h.1, h.2.imp ?_ ?_⟩
      · rintro ⟨i, k, hown, hbody⟩
        exact ⟨i, k, hown, (hslot i (by rw [hown]; rfl)).1.trans hbody⟩
      · rintro ⟨i, k, hfill, hbody, htype⟩
        obtain ⟨hbody', htype'⟩ := hslot i (by rw [hfill]; rfl)
        exact ⟨i, k, hfill, hbody'.trans hbody, htype'.trans htype⟩

/-- The slot of a producer has its flag down and is no other producer's. -/
theorem Inv.owned (hi : Inv s) {i : Nat} (hown : (s.ring.producer t).owned? = some i) :
    (s.ring.slots i).ready = false ∧
      ∀ t' j, t' ≠ t → (s.ring.producer t').owned? = some j → j ≠ i := by
  obtain ⟨c, hring⟩ := hi.ring
  have howned := hring.slotsOwned
  refine ⟨howned.reserved t i hown, fun t' j hne hj => ?_⟩
  rintro rfl
  exact howned.exclusive t' t j hne (Q2sb.ProducerPc.slot_of_owned hj)
    (Q2sb.ProducerPc.slot_of_owned hown)

/-! ## copying a message -/

section Copy

variable [DecidableEq P] {m : D2H P}

/-- What `simbricks_thread` can make of the slot at the head. -/
theorem fetch_cases (h : s.fetch = some m) :
    (∃ t, s.slotBody s.ring.q2sbHead = .dma t ∧
      (s.slotType s.ring.q2sbHead = .dmaRead ∧ s.raise = s.opReady ∧
          m = .read t (s.op t).hwaddr (s.op t).data.length ∨
        s.slotType s.ring.q2sbHead = .dmaWrite ∧ s.raise = Function.update s.opReady t true ∧
          m = .write (s.op t))) ∨
    s.raise = s.opReady ∧
      ((∃ data reqId, m = .readcomp reqId data) ∨
        ∃ vector inttype vouched, s.slotBody s.ring.q2sbHead = .intr vector inttype vouched ∧
          m = .interrupt vector inttype vouched) := by
  unfold fetch at h
  unfold raise
  split at h <;> cases h
  case h_1 htype hbody => exact .inr ⟨by simp [htype], .inl ⟨_, _, rfl⟩⟩
  case h_2 t htype hbody => exact .inl ⟨t, hbody, .inl ⟨htype, by simp [htype], rfl⟩⟩
  case h_3 t htype hbody => exact .inl ⟨t, hbody, .inr ⟨htype, by simp [htype, hbody], rfl⟩⟩
  case h_4 htype hbody => exact .inr ⟨by simp [htype], .inr ⟨_, _, _, hbody, rfl⟩⟩

end Copy

theorem body_eq_dma {m : Outgoing} (h : m.body t = .dma t') : t' = t ∧ ∃ op, m.op? = some op := by
  cases m with
  | mmioReadCompl data reqId => cases h
  | dmaRead op => exact ⟨(SlotBody.dma.inj h).symm, op, rfl⟩
  | dmaWrite op => exact ⟨(SlotBody.dma.inj h).symm, op, rfl⟩
  | int vector inttype vouched => cases h

section Preserved

variable [DecidableEq P]

/-- The ring takes its step in time. -/
theorem Inv.ring_step (hi : Inv s) {a : Q2sbAct (Thread P)} {q : Q2sb (Thread P)}
    (hin : s.ring.AllocInTime a) (h : s.ring.Step a q) : ∃ c, q.Inv c :=
  Q2sb.StepInTime.inv ⟨hin, h⟩ hi.ring

/-- What a thread is doing changes, with no reference to it. -/
theorem Inv.frame_call (hi : Inv s) (hne : ∀ t' p, s.At t' p → t' ≠ t)
    (hsame : s'.ring = s.ring ∧ s'.slotBody = s.slotBody ∧ s'.slotType = s.slotType ∧
      s'.op = s.op ∧ s'.opReady = s.opReady ∧ s'.reads = s.reads ∧ s'.hand = s.hand)
    (hcall : ∀ t', t' ≠ t → s'.call t' = s.call t') (ht : s'.ThreadInv t) : Inv s' := by
  obtain ⟨ring, slotBody, slotType, call, calls, op, opReady, reads, hand, _, _, _, _⟩ := s'
  obtain ⟨rfl, rfl, rfl, rfl, rfl, rfl, rfl⟩ := hsame
  refine { hi with
    thread := fun t' => ?_
    refs := hi.refs.frame (fun _ p hp => by cases p <;> exact hp)
      (fun t' p hp => ⟨hcall t' (hne t' p (by cases p <;> exact hp)), rfl⟩) (fun _ _ => rfl)
      hi.refs.nodup }
  by_cases htt : t' = t
  · rw [htt]
    exact ht
  · exact (hi.thread t').frame (hcall t' htt) rfl rfl (fun _ => rfl) fun _ _ => ⟨rfl, rfl⟩

theorem Inv.call {m : Outgoing} (hi : Inv s) (h : s.Step (.call t m) s') : Inv s' := by
  obtain ⟨hcall, -, rfl⟩ := h.call
  have hne : ∀ t' p, s.At t' p → t' ≠ t := fun t' p hp =>
    hi.refs.ne_of_call hp fun m => by simp [hcall]
  have hpc := hi.thread t
  simp only [ThreadInv, hcall] at hpc
  refine hi.frame_call hne ⟨rfl, rfl, rfl, rfl, rfl, rfl, rfl⟩
    (fun t' ht => Function.update_of_ne ht _ _) ?_
  simp [ThreadInv, hpc]

/-- A thread goes on in the ring, with the slots as they are. -/
theorem Inv.frame_ring (hi : Inv s) {q : Q2sb (Thread P)} (hring : ∃ c, q.Inv c)
    (hsame : q.slots = s.ring.slots ∧ q.consumer = s.ring.consumer ∧ q.q2sbHead = s.ring.q2sbHead)
    (hpc : ∀ t', t' ≠ t → q.producer t' = s.ring.producer t')
    (ht : ThreadInv { s with ring := q } t) : Inv { s with ring := q } := by
  obtain ⟨hslots, hcons, hhead⟩ := hsame
  have hat : ∀ t' p, At { s with ring := q } t' p → s.At t' p := by
    intro t' p hp
    cases p with
    | slot i => simpa [At, Taken, hslots, hcons, hhead] using hp
    | hand => exact hp
    | host => exact hp
  refine { hi with
    ring := hring
    thread := fun t' => ?_
    refs := hi.refs.frame hat (fun _ _ _ => ⟨rfl, rfl⟩) (fun _ _ => rfl) hi.refs.nodup
    agrees := ?_
    idle := ?_ }
  · by_cases htt : t' = t
    · rw [htt]
      exact ht
    · exact (hi.thread t').frame rfl (hpc t' htt) rfl (fun _ => rfl) fun _ _ => ⟨rfl, rfl⟩
  · intro i hready
    simp only [hslots] at hready
    simpa [Agrees, hslots] using hi.agrees i hready
  · intro hidle
    exact hi.idle (hcons ▸ hidle)

theorem Inv.alloc (hi : Inv s) (hin : s.ring.InTime) (h : s.Step (.alloc t) s') : Inv s' := by
  obtain ⟨m, q, hcall, hq, rfl⟩ := h.alloc
  have hring := hi.ring_step (a := .alloc t) hin hq
  obtain ⟨hpc, rfl⟩ := hq.alloc
  refine hi.frame_ring hring ⟨rfl, rfl, rfl⟩ (fun t' ht => Function.update_of_ne ht _ _) ?_
  simp [ThreadInv, hcall]

theorem Inv.seeClear (hi : Inv s) (h : s.Step (.seeClear t) s') : Inv s' := by
  obtain ⟨q, hq, rfl⟩ := onRing_eq_some.mp h
  have hring := hi.ring_step (a := .seeClear t) trivial hq
  obtain ⟨i, k, hpc, -, rfl⟩ := hq.seeClear
  refine hi.frame_ring hring ⟨rfl, rfl, rfl⟩ (fun t' ht => Function.update_of_ne ht _ _) ?_
  have hold := hi.thread t
  -- only a thread that has not stored anything waits for its slot
  cases hc : s.call t <;> simp [ThreadInv, hc, hpc] at hold ⊢

/-- The stores into a slot disturb no other thread. -/
theorem Inv.storeBody (hi : Inv s) (h : s.Step (.storeBody t) s') : Inv s' := by
  obtain ⟨m, i, k, hcall, hpc, rfl⟩ := h.storeBody
  obtain ⟨hfree, hother⟩ := hi.owned (i := i) (by rw [hpc]; rfl)
  have hbody : ∀ j, (s.ring.slots j).ready = true →
      Function.update s.slotBody i (m.body t) j = s.slotBody j := by
    intro j hj
    exact Function.update_of_ne (fun heq => by simp [heq, hfree] at hj) _ _
  have hop : ∀ t', t' ≠ t → (s.initOp t m).op t' = s.op t' ∧
      (s.initOp t m).opReady t' = s.opReady t' := by
    intro t' ht
    cases hm : m.op? <;> simp [initOp, hm, ht]
  have hat : ∀ t' p, At { s.initOp t m with
      slotBody := Function.update s.slotBody i (m.body t)
      call := Function.update s.call t (.stored m) } t' p → s.At t' p := by
    intro t' p hp
    cases p with
    | slot j => exact ⟨hp.1, hp.2.1, (hbody j hp.1).symm.trans hp.2.2⟩
    | hand => exact hp
    | host => exact hp
  have hne : ∀ t' p, s.At t' p → t' ≠ t := fun t' p hp =>
    hi.refs.ne_of_call hp fun m => by simp [hcall]
  refine { hi with
    thread := fun t' => ?_
    refs := hi.refs.frame hat (fun t' p hp => ?_) (fun _ _ => rfl) hi.refs.nodup
    agrees := fun j hj => ?_ }
  · by_cases ht : t' = t
    · subst ht
      simp only [ThreadInv, Function.update_self]
      refine ⟨fun op hop => ?_, .inl ⟨i, k, hpc, Function.update_self _ _ _⟩⟩
      simp [initOp, Option.mem_def.mp hop]
    · exact (hi.thread t').frame (Function.update_of_ne ht _ _) rfl (hop t' ht).1
        (fun _ => (hop t' ht).2)
        fun j hj => ⟨Function.update_of_ne (hother t' j ht hj) _ _, rfl⟩
  · have ht := hne t' p (hat t' p hp)
    exact ⟨Function.update_of_ne ht _ _, (hop t' ht).2⟩
  · obtain ⟨t', m', hval, htype, hold⟩ := hi.agrees j hj
    exact ⟨t', m', hval, htype, (hbody j hj).trans hold⟩

theorem Inv.storeType (hi : Inv s) (h : s.Step (.storeType t) s') : Inv s' := by
  have hring : ∃ c, s'.ring.Inv c := by
    obtain ⟨m, i, k, hcall, hpc, rfl⟩ := h.storeType
    exact hi.ring_step (a := .fill t (m.msg t)) trivial (by simp [Q2sb.Step, Q2sb.step?, hpc])
  obtain ⟨m, i, k, hcall, hpc, rfl⟩ := h.storeType
  obtain ⟨hfree, hother⟩ := hi.owned (i := i) (by rw [hpc]; rfl)
  have hne : ∀ j, (s.ring.slots j).ready = true → j ≠ i := by
    rintro j hj rfl
    simp [hfree] at hj
  refine { hi with
    ring := hring
    thread := fun t' => ?_
    refs := hi.refs.frame (fun t' p hp => ?_) (fun _ _ _ => ⟨rfl, rfl⟩) (fun j hj => ?_)
      hi.refs.nodup
    agrees := fun j hj => ?_ }
  · by_cases ht : t' = t
    · subst ht
      have hold := hi.thread t'
      simp only [ThreadInv, hcall, hpc] at hold
      simp only [ThreadInv, hcall, Function.update_self]
      obtain ⟨hinit, ⟨i', k', heq, hbody⟩ | ⟨i', k', heq, -⟩⟩ := hold
      · cases heq
        exact ⟨hinit, .inr ⟨i, k, rfl, hbody, Function.update_self _ _ _⟩⟩
      · cases heq
    · exact (hi.thread t').frame rfl (Function.update_of_ne ht _ _) rfl (fun _ => rfl)
        fun j hj => ⟨rfl, Function.update_of_ne (hother t' j ht hj) _ _⟩
  · cases p with
    | slot j => exact ⟨by simpa using hp.1, hp.2⟩
    | hand => exact hp
    | host => exact hp
  · rw [fillSlot_ready] at hj
    exact Function.update_of_ne (hne j hj) _ _
  · rw [fillSlot_ready] at hj
    obtain ⟨t', m', hval, htype, hbody⟩ := hi.agrees j hj
    refine ⟨t', m', ?_, (Function.update_of_ne (hne j hj) _ _).trans htype, hbody⟩
    rw [fillSlot_val, if_neg (hne j hj), hval]

/-- **Publication** makes the slot the one reference to the operation. -/
theorem Inv.publish (hi : Inv s) (h : s.Step (.publish t) s') : Inv s' := by
  obtain ⟨m, q, hcall, hq, rfl⟩ := h.publish
  have hring := hi.ring_step (a := .publish t) trivial hq
  obtain ⟨i, k, m', hpc, rfl⟩ := hq.publish
  have hold := hi.thread t
  simp only [ThreadInv, hcall, hpc] at hold
  obtain ⟨hinit, ⟨i', k', heq, -⟩ | ⟨i', k', heq, hbody, htype⟩⟩ := hold
  case inl => cases heq
  case inr =>
    obtain ⟨rfl, rfl, rfl⟩ : i = i' ∧ k = k' ∧ m' = m.msg t := by simpa using heq
    have hready : ∀ j, (setReady s.ring.slots i true j).ready = true →
        j = i ∨ (s.ring.slots j).ready = true := by
      intro j hj
      rw [setReady_ready] at hj
      split at hj
      case isTrue hji => exact .inl hji
      case isFalse => exact .inr hj
    have hne : ∀ t' p, s.At t' p → t' ≠ t := fun t' p hp =>
      hi.refs.ne_of_call hp fun m => by simp [hcall]
    have hnew : ∀ t' p, At { s with
        call := Function.update s.call t (afterPublish m)
        ring := { s.ring with
          slots := setReady s.ring.slots i true
          producer := Function.update s.ring.producer t .running
          log := s.ring.log.set k (some (m.msg t)) } } t' p →
        s.At t' p ∨ t' = t ∧ p = .slot i ∧ ∃ op, m.op? = some op := by
      intro t' p hp
      cases p with
      | slot j =>
          rcases hready j hp.1 with rfl | hj
          · obtain ⟨rfl, hop⟩ := body_eq_dma (hbody.symm.trans hp.2.2)
            exact .inr ⟨rfl, rfl, hop⟩
          · exact .inl ⟨hj, hp.2⟩
      | hand => exact .inl hp
      | host => exact .inl hp
    refine { hi with
      ring := hring
      thread := fun t' => ?_
      refs :=
        { awaits := fun t' p hp => ?_
          unique := fun t' p q hp hq => ?_
          nodup := hi.refs.nodup }
      agrees := fun j hj => ?_ }
    · by_cases ht : t' = t
      · subst ht
        cases hm : m.op? with
        | none => simp [ThreadInv, afterPublish, hm]
        | some op =>
            simp only [ThreadInv, afterPublish, hm, Function.update_self, true_and]
            intro op' hop
            subst hop
            exact (hinit op' rfl).1
      · exact (hi.thread t').frame (Function.update_of_ne ht _ _) (Function.update_of_ne ht _ _) rfl
          (fun _ => rfl) fun _ _ => ⟨rfl, rfl⟩
    · rcases hnew t' p hp with hp' | ⟨rfl, rfl, op, hop⟩
      · obtain ⟨m', hm', hwait, hfits⟩ := hi.refs.awaits t' p hp'
        refine ⟨m', (Function.update_of_ne (hne t' p hp') _ _).trans hm', hwait, ?_⟩
        cases p <;> exact hfits
      · refine ⟨m, ?_, (hinit op hop).2, htype⟩
        simp [afterPublish, hop]
    · rcases hnew t' p hp with hp' | ⟨rfl, rfl, -⟩ <;> rcases hnew t' q hq with hq' | ⟨heq, rfl, -⟩
      · exact hi.refs.unique t' p q hp' hq'
      · exact absurd heq (hne t' p hp')
      · exact absurd rfl (hne t' q hq')
      · rfl
    · have hagrees : s.Agrees j := by
        rcases hready j hj with rfl | hj
        · obtain ⟨c, hinv⟩ := hi.ring
          have hprod := hinv.producer t
          rw [hpc] at hprod
          exact ⟨t, m, hprod.2.2.2.2, htype, hbody⟩
        · exact hi.agrees j hj
      obtain ⟨t', m', hval, hrest⟩ := hagrees
      exact ⟨t', m', (setReady_val _ _ _ _).trans hval, hrest⟩

theorem Inv.dmaDone (hi : Inv s) (h : s.Step (.dmaDone t) s') : Inv s' := by
  obtain ⟨m, hcall, hready, rfl⟩ := h.dmaDone
  have hne : ∀ t' p, s.At t' p → t' ≠ t := by
    rintro t' p hp rfl
    obtain ⟨m', -, hwait, -⟩ := hi.refs.awaits t' p hp
    simp [hready] at hwait
  have hold := hi.thread t
  simp only [ThreadInv, hcall] at hold
  refine hi.frame_call hne ⟨rfl, rfl, rfl, rfl, rfl, rfl, rfl⟩
    (fun t' ht => Function.update_of_ne ht _ _) ?_
  simp [ThreadInv, hold.1]

theorem Inv.setEvent {en : Nat} (hi : Inv s) (h : s.Step (.setEvent t en) s') : Inv s' := by
  obtain rfl := h.setEvent
  exact { hi with
    thread := fun t' => (hi.thread t').frame rfl rfl rfl (fun _ => rfl) fun _ _ => ⟨rfl, rfl⟩
    refs := hi.refs.frame (fun _ p hp => by cases p <;> exact hp) (fun _ _ _ => ⟨rfl, rfl⟩)
      (fun _ _ => rfl) hi.refs.nodup }

theorem Inv.findSet {en vector : Nat} (hi : Inv s) (h : s.Step (.findSet en vector) s') :
    Inv s' := by
  obtain ⟨hcall, rfl⟩ := h.findSet
  have hne : ∀ t' p, s.At t' p → t' ≠ .main := fun t' p hp =>
    hi.refs.ne_of_call hp fun m => by simp [hcall]
  have hpc := hi.thread .main
  simp only [ThreadInv, hcall] at hpc
  refine hi.frame_call hne ⟨rfl, rfl, rfl, rfl, rfl, rfl, rfl⟩
    (fun t' ht => Function.update_of_ne ht _ _) ?_
  simp [ThreadInv, hpc]

theorem Inv.writecomp {reqId : Nat} (hi : Inv s) (h : s.Step (.writecomp reqId) s') : Inv s' := by
  obtain rfl := h.writecomp
  exact { hi with
    thread := fun t' => (hi.thread t').frame rfl rfl rfl (fun _ => rfl) fun _ _ => ⟨rfl, rfl⟩
    refs := hi.refs.frame (fun _ p hp => by cases p <;> exact hp) (fun _ _ _ => ⟨rfl, rfl⟩)
      (fun _ _ => rfl) hi.refs.nodup }

/-- The answer of the host is the last that is known of the operation. -/
theorem Inv.dmaReadComp {data : List UInt8} (hi : Inv s) (h : s.Step (.dmaReadComp t data) s') :
    Inv s' := by
  obtain ⟨hmem, rfl⟩ := h.dmaReadComp
  have hhost : s.At t .host := hmem
  obtain ⟨m, hcall, -, hread⟩ := hi.refs.awaits t .host hhost
  have hat : ∀ t' p, At { s with
      reads := s.reads.erase t
      op := Function.update s.op t { s.op t with data := data }
      opReady := Function.update s.opReady t true } t' p → s.At t' p ∧ t' ≠ t := by
    intro t' p hp
    cases p with
    | slot j => exact ⟨hp, by rintro rfl; cases hi.refs.unique t' (.slot j) .host hp hhost⟩
    | hand => exact ⟨hp, by rintro rfl; cases hi.refs.unique t' .hand .host hp hhost⟩
    | host => exact ⟨List.mem_of_mem_erase hp, (hi.refs.nodup.mem_erase_iff.mp hp).1⟩
  refine { hi with
    thread := fun t' => ?_
    refs := hi.refs.frame (fun t' p hp => (hat t' p hp).1)
      (fun t' p hp => ⟨rfl, Function.update_of_ne (hat t' p hp).2 _ _⟩) (fun _ _ => rfl)
      (hi.refs.nodup.erase t) }
  by_cases ht : t' = t
  · subst ht
    have hold := hi.thread t'
    simp only [ThreadInv, hcall] at hold ⊢
    refine ⟨hold.1, fun op hop => ?_⟩
    rw [hop] at hread
    cases hread
  · exact (hi.thread t').frame rfl rfl (Function.update_of_ne ht _ _)
      (fun _ => Function.update_of_ne ht _ _) fun _ _ => ⟨rfl, rfl⟩

theorem Inv.seeReady (hi : Inv s) (h : s.Step .seeReady s') : Inv s' := by
  obtain ⟨q, hq, rfl⟩ := onRing_eq_some.mp h
  have hring := hi.ring_step (a := .seeReady) trivial hq
  obtain ⟨hpoll, -, rfl⟩ := hq.seeReady
  have hat : ∀ t p, At { s with ring := { s.ring with consumer := .seen } } t p → s.At t p := by
    intro t p hp
    cases p with
    | slot j => exact ⟨hp.1, by simp [Taken, hpoll], hp.2.2⟩
    | hand => exact hp
    | host => exact hp
  exact { hi with
    ring := hring
    thread := fun t' => (hi.thread t').frame rfl rfl rfl (fun _ => rfl) fun _ _ => ⟨rfl, rfl⟩
    refs := hi.refs.frame hat (fun _ _ _ => ⟨rfl, rfl⟩) (fun _ _ => rfl) hi.refs.nodup
    idle := fun _ => hi.idle (by simp [hpoll]) }

theorem Inv.clear (hi : Inv s) (h : s.Step .clear s') : Inv s' := by
  obtain ⟨hhand, hcons, rfl⟩ := h.clear
  have hring := hi.ring_step (a := .clear) trivial
    (show s.ring.Step .clear _ by simp [Q2sb.Step, Q2sb.step?, hcons]; rfl)
  have hready : ∀ j, (setReady s.ring.slots s.ring.q2sbHead false j).ready = true →
      (s.ring.slots j).ready = true ∧ j ≠ s.ring.q2sbHead := by
    intro j hj
    rw [setReady_ready] at hj
    split at hj
    case isTrue => cases hj
    case isFalse hne => exact ⟨hj, hne⟩
  have hat : ∀ t p, At { s with ring := { s.ring with
      consumer := .cleared
      slots := setReady s.ring.slots s.ring.q2sbHead false } } t p → s.At t p := by
    intro t p hp
    cases p with
    | slot j =>
        obtain ⟨hj, hne⟩ := hready j hp.1
        exact ⟨hj, fun htaken => hne htaken.2, hp.2.2⟩
    | hand => exact hp
    | host => exact hp
  refine { hi with
    ring := hring
    thread := fun t' => (hi.thread t').frame rfl rfl rfl (fun _ => rfl) fun _ _ => ⟨rfl, rfl⟩
    refs := hi.refs.frame hat (fun _ _ _ => ⟨rfl, rfl⟩) (fun _ _ => rfl) hi.refs.nodup
    agrees := fun j hj => ?_
    idle := fun _ => hhand }
  obtain ⟨t', m', hval, hrest⟩ := hi.agrees j (hready j hj).1
  exact ⟨t', m', (setReady_val _ _ _ _).trans hval, hrest⟩

theorem Inv.advanceHead (hi : Inv s) (h : s.Step .advanceHead s') : Inv s' := by
  obtain ⟨q, hq, rfl⟩ := onRing_eq_some.mp h
  have hring := hi.ring_step (a := .advanceHead) trivial hq
  obtain ⟨hcons, rfl⟩ := hq.advanceHead
  have hat : ∀ t p, At { s with ring := { s.ring with
      consumer := .polling
      q2sbHead := (s.ring.q2sbHead + 1) % q2sbSz } } t p → s.At t p := by
    intro t p hp
    cases p with
    | slot j => exact ⟨hp.1, by simp [Taken, hcons], hp.2.2⟩
    | hand => exact hp
    | host => exact hp
  exact { hi with
    ring := hring
    thread := fun t' => (hi.thread t').frame rfl rfl rfl (fun _ => rfl) fun _ _ => ⟨rfl, rfl⟩
    refs := hi.refs.frame hat (fun _ _ _ => ⟨rfl, rfl⟩) (fun _ _ => rfl) hi.refs.nodup
    idle := fun _ => hi.idle (by simp [hcons]) }

/-- **The copy** of a DMA write raises its operation, that of a DMA read hands it on. -/
theorem Inv.copy (hi : Inv s) (h : s.Step .copy s') : Inv s' := by
  have hring : ∃ c, s'.ring.Inv c := by
    obtain ⟨m, -, hseen, rfl⟩ := h.copy
    exact hi.ring_step (a := .consume) trivial (by simp [Q2sb.Step, Q2sb.step?, hseen])
  obtain ⟨m, hfetch, hseen, rfl⟩ := h.copy
  obtain ⟨c, hinv⟩ := hi.ring
  have hready := hinv.seen_ready hseen
  have hhand : s.hand = none := hi.idle (by simp [hseen])
  -- the slot at the head is the one reference to the operation in it
  have hhead : ∀ t, s.slotBody s.ring.q2sbHead = .dma t → s.At t (.slot s.ring.q2sbHead) :=
    fun t hbody => ⟨hready, by simp [Taken, hseen], hbody⟩
  have hslot : ∀ t j, At { s with
      hand := some m
      opReady := s.raise
      ring := { s.ring with
        consumer := .consumed
        consumed := s.ring.consumed ++ [(s.ring.slots s.ring.q2sbHead).val] } } t (.slot j) →
      s.At t (.slot j) ∧ j ≠ s.ring.q2sbHead := fun t j hp =>
    ⟨⟨hp.1, by simp [Taken, hseen], hp.2.2⟩, fun heq => hp.2.1 ⟨rfl, heq⟩⟩
  have hmoved : ∀ t p, s.At t p → p ≠ .slot s.ring.q2sbHead → s.raise t = s.opReady t := by
    intro t p hp hne
    rcases fetch_cases hfetch with ⟨t', hbody, ⟨-, hraise, -⟩ | ⟨-, hraise, -⟩⟩ | ⟨hraise, -⟩
    · rw [hraise]
    · rw [hraise]
      refine Function.update_of_ne ?_ _ _
      rintro rfl
      exact hne (hi.refs.unique t p _ hp (hhead t hbody))
    · rw [hraise]
  have hnew : ∀ t, (∃ hwaddr len, some m = some (.read t hwaddr len)) →
      s.At t (.slot s.ring.q2sbHead) ∧ s.slotType s.ring.q2sbHead = .dmaRead ∧
        s.raise = s.opReady := by
    rintro t ⟨hwaddr, len, heq⟩
    cases heq
    rcases fetch_cases hfetch with ⟨t', hbody, ⟨htype, hraise, hm⟩ | ⟨-, -, hm⟩⟩ |
      ⟨-, ⟨_, _, hm⟩ | ⟨_, _, _, -, hm⟩⟩ <;> cases hm
    exact ⟨hhead _ hbody, htype, hraise⟩
  refine { hi with
    ring := hring
    thread := fun t => ?_
    refs :=
      { awaits := fun t p hp => ?_
        unique := fun t p q hp hq => ?_
        nodup := hi.refs.nodup }
    idle := fun hne => absurd rfl hne }
  · refine (hi.thread t).frame rfl rfl rfl (fun hcall => ?_) fun _ _ => ⟨rfl, rfl⟩
    rcases fetch_cases hfetch with ⟨t', hbody, ⟨-, hraise, -⟩ | ⟨-, hraise, -⟩⟩ | ⟨hraise, -⟩
    · exact congrFun hraise t
    · refine (congrFun hraise t).trans (Function.update_of_ne ?_ _ _)
      rintro rfl
      obtain ⟨m', hm', -⟩ := hi.refs.awaits t _ (hhead t hbody)
      exact hcall m' hm'
    · exact congrFun hraise t
  · cases p with
    | slot j =>
        obtain ⟨hp', hne⟩ := hslot t j hp
        obtain ⟨m', hm', hwait, hfits⟩ := hi.refs.awaits t _ hp'
        exact ⟨m', hm', (hmoved t _ hp' (by simpa using hne)).trans hwait, hfits⟩
    | hand =>
        obtain ⟨hp', htype, hraise⟩ := hnew t hp
        obtain ⟨m', hm', hwait, hfits⟩ := hi.refs.awaits t _ hp'
        exact ⟨m', hm', (congrFun hraise t).trans hwait, hfits.symm.trans htype⟩
    | host =>
        obtain ⟨m', hm', hwait, hfits⟩ := hi.refs.awaits t .host hp
        exact ⟨m', hm', (hmoved t .host hp (by simp)).trans hwait, hfits⟩
  · refine hi.refs.unique_of_move (.slot s.ring.q2sbHead) .hand (fun t p hp => ?_) t p q hp hq
    cases p with
    | slot j => exact .inl ⟨(hslot t j hp).1, by simpa using (hslot t j hp).2⟩
    | hand => exact .inr ⟨rfl, (hnew t hp).1⟩
    | host => exact .inl ⟨hp, by simp⟩

/-- **Sending** a DMA read hands its operation to the host. -/
theorem Inv.send (hi : Inv s) (h : s.Step .send s') : Inv s' := by
  obtain ⟨m, hhand, rfl⟩ := h.send
  have hmem : ∀ t, t ∈ m.reads → s.At t .hand := by
    intro t ht
    cases m <;> simp only [D2H.reads, List.mem_cons, List.not_mem_nil, or_false] at ht
    subst ht
    exact ⟨_, _, hhand⟩
  have hold : ∀ t p, At { s with
      d2h := s.d2h ++ [m]
      hand := none
      reads := s.reads ++ m.reads } t p →
      s.At t p ∧ p ≠ .hand ∨ p = .host ∧ s.At t .hand := by
    intro t p hp
    cases p with
    | slot j => exact .inl ⟨hp, by simp⟩
    | hand =>
        obtain ⟨_, _, heq⟩ := hp
        cases heq
    | host => exact (List.mem_append.mp hp).imp (fun hm => ⟨hm, by simp⟩) fun hm => ⟨rfl, hmem t hm⟩
  refine { hi with
    thread := fun t => (hi.thread t).frame rfl rfl rfl (fun _ => rfl) fun _ _ => ⟨rfl, rfl⟩
    refs :=
      { awaits := fun t p hp => ?_
        unique := fun t p q hp hq => ?_
        nodup := List.nodup_append.mpr ⟨hi.refs.nodup, ?_, fun t ht t' ht' => ?_⟩ }
    idle := fun _ => rfl }
  · rcases hold t p hp with ⟨hp', -⟩ | ⟨rfl, hp'⟩
    · obtain ⟨m', hm', hwait, hfits⟩ := hi.refs.awaits t p hp'
      refine ⟨m', hm', hwait, ?_⟩
      cases p <;> exact hfits
    · exact hi.refs.awaits t .hand hp'
  · exact hi.refs.unique_of_move .hand .host hold t p q hp hq
  · cases m <;> simp [D2H.reads]
  · rintro rfl
    cases hi.refs.unique t .host .hand ht (hmem t ht')

/-- **Step lemma**: a step in time keeps the invariant. -/
theorem StepInTime.inv {a : NotifyAct P} (h : s.StepInTime a s') (hi : Inv s) : Inv s' := by
  obtain ⟨hin, h⟩ := h
  cases a with
  | call t m => exact hi.call h
  | alloc t => exact hi.alloc hin h
  | seeClear t => exact hi.seeClear h
  | storeBody t => exact hi.storeBody h
  | storeType t => exact hi.storeType h
  | publish t => exact hi.publish h
  | dmaDone t => exact hi.dmaDone h
  | setEvent t en => exact hi.setEvent h
  | findSet en vector => exact hi.findSet h
  | dmaReadComp t data => exact hi.dmaReadComp h
  | writecomp reqId => exact hi.writecomp h
  | seeReady => exact hi.seeReady h
  | copy => exact hi.copy h
  | send => exact hi.send h
  | clear => exact hi.clear h
  | advanceHead => exact hi.advanceHead h

end Preserved

end Femu.Simbricks.Notify

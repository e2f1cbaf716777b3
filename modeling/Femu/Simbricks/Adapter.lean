import Femu.Simbricks.Q2sb
import Femu.Simbricks.Sb2q

/-!
# Femu.Simbricks.Adapter

The whole adapter: `simbricks_thread`, `qemu_main_thread`, the threads of the pollers
and the host, over the two rings, the messages of the host that have not been taken yet
and the `dma_op` of each thread. The steps on a ring are those of `Sb2q` and `Q2sb`,
taken where the code of the thread comes to them; a spin-wait is a step that can be
taken once its condition clears.

What the handlers of the device do is left open: while a write is being executed the
main thread may start any number of DMA operations and interrupts, and a poller may
start them at any time.
-/

namespace Femu.Simbricks

open Lib

/-- A thread of the device. -/
inductive Thread (P : Type)
  | main
  | poller (p : P)
deriving DecidableEq

/-- A message of the host. Completions of DMA writes, device control and messages of
unknown type hold up no thread. -/
inductive H2D (P : Type)
  | mmio (m : H2DMmio)
  | readcomp (op : Thread P)
  | other

/-- The two halves of the loop of `simbricks_thread`. -/
inductive Half
  | incoming
  | outgoing
deriving DecidableEq

/-- What a thread of the device is doing. -/
inductive Call (P : Type)
  | running
  /-- in a function that sends a message through `q2sb_q` -/
  | sending (m : Qemu2Sb (Thread P))
  /-- in `while (!op.ready)` -/
  | dmaWait
deriving DecidableEq

structure Adapter (P : Type) where
  sb2q : Sb2q
  q2sb : Q2sb (Thread P)
  inbox : List (H2D P)
  /-- the DMA reads that the host has not answered yet -/
  reads : List (Thread P)
  half : Half
  call : Thread P → Call P
  opReady : Thread P → Bool
  /-- an assertion has ended the process -/
  aborted : Bool

inductive AdapterAct (P : Type)
  /-- the host sends a message that answers no DMA read -/
  | sendMmio (m : H2DMmio)
  | sendOther
  | answer (t : Thread P)
  /-- `SimbricksPcieIfH2DInPoll`, and the message it returns if there is one -/
  | poll
  /-- a step of `mmio_read` or `mmio_write` of `wrapper-main.c` -/
  | seeFree
  | fillSb2q
  | raise
  | advanceTail
  /-- the second half of the loop finds no message at the head -/
  | pass
  | seeQ2sb
  | consume
  | clearQ2sb
  | advanceQ2sb
  /-- a turn of `qemu_main_thread` that finds no operation -/
  | idle
  | seeSb2q
  | execute
  | clearSb2q
  | advanceHead
  /-- a thread enters a function that sends `m` -/
  | call (t : Thread P) (m : Qemu2Sb (Thread P))
  | alloc (t : Thread P)
  | seeClear (t : Thread P)
  | fillQ2sb (t : Thread P)
  | publish (t : Thread P)
  | dmaDone (t : Thread P)

/-- The step is one of the host. -/
def AdapterAct.ofHost {P : Type} : AdapterAct P → Bool
  | .sendMmio _ | .sendOther | .answer _ => true
  | _ => false

/-- The thread of the device that sends a message. -/
def AdapterAct.thread? {P : Type} : AdapterAct P → Option (Thread P)
  | .call t _ | .alloc t | .seeClear t | .fillQ2sb t | .publish t | .dmaDone t => some t
  | _ => none

namespace Adapter

variable {P : Type}

/-- Take a step on `sb2q_q`. -/
def onSb2q (s : Adapter P) (a : Sb2qAct) : Option (Adapter P) :=
  (s.sb2q.step? a).map fun q => { s with sb2q := q }

theorem onSb2q_eq_some {s s' : Adapter P} {b : Sb2qAct} :
    s.onSb2q b = some s' ↔ ∃ q, s.sb2q.Step b q ∧ s' = { s with sb2q := q } := by
  simp only [onSb2q, Sb2q.Step, Option.map_eq_some_iff]
  exact exists_congr fun q => and_congr_right fun _ => eq_comm

section Steps

variable [DecidableEq P]

/-- Take a step on `q2sb_q`. -/
def onQ2sb (s : Adapter P) (a : Q2sbAct (Thread P)) : Option (Adapter P) :=
  (s.q2sb.step? a).map fun q => { s with q2sb := q }

/-- A turn of the first half of the loop of `simbricks_thread`. -/
def poll (s : Adapter P) : Option (Adapter P) :=
  match s.inbox with
  | [] => some { s with half := .outgoing }
  | .mmio m :: rest => { s with inbox := rest }.onSb2q (.receive m)
  | .readcomp t :: rest => some { s with
      inbox := rest
      opReady := Function.update s.opReady t true
      half := .outgoing }
  | .other :: rest => some { s with inbox := rest, half := .outgoing }

/-- What the consumption of a message does apart from sending it to the host. -/
def deliver (s : Adapter P) : Qemu2Sb (Thread P) → Adapter P
  | .dmaRead t => { s with reads := s.reads ++ [t] }
  | .dmaWrite t => { s with opReady := Function.update s.opReady t true }
  | .mmioReadCompl _ _ | .int _ _ => s

/-- The functions that a thread may enter. The main thread is in a handler while it
executes an operation; a read only sends its completion. -/
def mayCall (s : Adapter P) (t : Thread P) (m : Qemu2Sb (Thread P)) : Bool :=
  match t, s.sb2q.main, (s.sb2q.slots s.sb2q.sb2qHead).val, m with
  | .main, .polling, _, .int _ _ => true
  | .main, .executing, .mmioWrite _ _ _ _, .int _ _ => true
  | .main, .executing, .mmioWrite _ _ _ _, .dmaRead op => op = .main
  | .main, .executing, .mmioWrite _ _ _ _, .dmaWrite op => op = .main
  | .main, .executing, .mmioRead _ _ _ reqId, .mmioReadCompl _ id => id = reqId
  | .poller _, _, _, .int _ _ => true
  | .poller p, _, _, .dmaRead op => op = .poller p
  | .poller p, _, _, .dmaWrite op => op = .poller p
  | _, _, _, _ => false

/-- The handler of the operation can end: a write when its calls have returned, a read
between the allocation for its completion and the completion itself. -/
def mayExecute (s : Adapter P) : Bool :=
  match (s.sb2q.slots s.sb2q.sb2qHead).val, s.call .main, s.q2sb.producer .main with
  | .mmioWrite _ _ _ _, .running, _ => true
  | .mmioRead _ _ _ _, .sending _, .owning _ _ => true
  | _, _, _ => false

/-- The completion of a read is filled in after its handler has returned. -/
def mayFill (s : Adapter P) (t : Thread P) : Qemu2Sb (Thread P) → Bool
  | .mmioReadCompl _ _ => t = .main ∧ s.sb2q.main = .executed
  | _ => true

/-- The next step of one of the actors, `none` where it cannot be taken. -/
def step? (s : Adapter P) (a : AdapterAct P) : Option (Adapter P) :=
  if s.aborted then none
  else match a with
  | .sendMmio m => some { s with inbox := s.inbox ++ [.mmio m] }
  | .sendOther => some { s with inbox := s.inbox ++ [.other] }
  | .answer t =>
      if t ∈ s.reads then
        some { s with reads := s.reads.erase t, inbox := s.inbox ++ [.readcomp t] }
      else none
  | .poll =>
      match s.half, s.sb2q.sb with
      | .incoming, .polling => s.poll
      | _, _ => none
  | .seeFree => s.onSb2q .seeFree
  | .fillSb2q =>
      match s.sb2q.sb with
      | .filling m =>
          -- `assert(w->len <= sizeof(sb2q->mmio_write.data))`
          if m.slot.isSome then s.onSb2q .fill else some { s with aborted := true }
      | _ => none
  | .raise => s.onSb2q .raise
  | .advanceTail => { s with half := .outgoing }.onSb2q .advanceTail
  | .pass =>
      match s.half, s.q2sb.consumer with
      | .outgoing, .polling =>
          if (s.q2sb.slots s.q2sb.q2sbHead).ready then none else some { s with half := .incoming }
      | _, _ => none
  | .seeQ2sb =>
      match s.half with
      | .outgoing => s.onQ2sb .seeReady
      | .incoming => none
  | .consume => (s.deliver (s.q2sb.slots s.q2sb.q2sbHead).val).onQ2sb .consume
  | .clearQ2sb => s.onQ2sb .clear
  | .advanceQ2sb => { s with half := .incoming }.onQ2sb .advanceHead
  | .idle =>
      match s.call .main, s.sb2q.main with
      | .running, .polling => if (s.sb2q.slots s.sb2q.sb2qHead).ready then none else some s
      | _, _ => none
  | .seeSb2q =>
      match s.call .main with
      | .running => s.onSb2q .seeReady
      | _ => none
  | .execute => if s.mayExecute then s.onSb2q .execute else none
  | .clearSb2q =>
      match s.call .main with
      | .running => s.onSb2q .clear
      | _ => none
  | .advanceHead => s.onSb2q .advanceHead
  | .call t m =>
      match s.call t with
      | .running =>
          if s.mayCall t m then some { s with call := Function.update s.call t (.sending m) }
          else none
      | _ => none
  | .alloc t =>
      match s.call t with
      | .sending _ => s.onQ2sb (.alloc t)
      | _ => none
  | .seeClear t => s.onQ2sb (.seeClear t)
  | .fillQ2sb t =>
      match s.call t with
      | .sending m =>
          -- `op.ready = false`
          if s.mayFill t m then
            { s with opReady := Function.update s.opReady t false }.onQ2sb (.fill t m)
          else none
      | _ => none
  | .publish t =>
      match s.call t with
      | .sending (.dmaRead _) | .sending (.dmaWrite _) =>
          { s with call := Function.update s.call t .dmaWait }.onQ2sb (.publish t)
      | .sending _ => { s with call := Function.update s.call t .running }.onQ2sb (.publish t)
      | _ => none
  | .dmaDone t =>
      match s.call t with
      | .dmaWait =>
          if s.opReady t then some { s with call := Function.update s.call t .running } else none
      | _ => none

def Step (s : Adapter P) (a : AdapterAct P) (s' : Adapter P) : Prop := s.step? a = some s'

/-- The adapter before its threads start; the host may have sent messages. -/
structure Init (s : Adapter P) : Prop where
  sb2q : s.sb2q.Init
  q2sb : s.q2sb.Init
  reads : s.reads = []
  half : s.half = .incoming
  call : ∀ t, s.call t = .running
  aborted : s.aborted = false

/-! ## statement -/

/-- `simbricks_thread` is in `while (sb2q->ready)` of a full ring. -/
def SbSpins (s : Adapter P) : Prop :=
  (∃ m, s.sb2q.sb = .waiting m) ∧ (s.sb2q.slots s.sb2q.sb2qTail).ready = true

/-- The main thread waits for the completion of a DMA operation or for a slot. -/
def MainSpins (s : Adapter P) : Prop :=
  (∃ i k, s.q2sb.producer .main = .waiting i k ∧ (s.q2sb.slots i).ready = true) ∨
    s.call .main = .dmaWait ∧ s.opReady .main = false

/-- Some thread of the adapter can take a step, and not both of the threads that serve
each other spin. -/
def Live (s : Adapter P) : Prop :=
  s.aborted = true ∨
    (∃ a s', AdapterAct.ofHost a = false ∧ s.Step a s') ∧ ¬ (s.SbSpins ∧ s.MainSpins)

/-- The step takes an MMIO message of the host. -/
def takesMmio (s : Adapter P) : AdapterAct P → Bool
  | .poll =>
      match s.inbox with
      | .mmio _ :: _ => true
      | _ => false
  | _ => false

/-- An MMIO message is taken while `sb2q_q` has a free slot for it. -/
def TakesFree (s : Adapter P) (a : AdapterAct P) : Prop :=
  s.takesMmio a = true → (s.sb2q.slots s.sb2q.sb2qTail).ready = false

def StepFree (s : Adapter P) (a : AdapterAct P) (s' : Adapter P) : Prop :=
  s.TakesFree a ∧ s.Step a s'

/-! ## the rings inside the adapter -/

variable {s s' : Adapter P} {a : AdapterAct P}

theorem onQ2sb_eq_some {b : Q2sbAct (Thread P)} :
    s.onQ2sb b = some s' ↔ ∃ q, s.q2sb.Step b q ∧ s' = { s with q2sb := q } := by
  simp only [onQ2sb, Q2sb.Step, Option.map_eq_some_iff]
  exact exists_congr fun q => and_congr_right fun _ => eq_comm

@[simp] theorem deliver_sb2q (m : Qemu2Sb (Thread P)) : (s.deliver m).sb2q = s.sb2q := by
  cases m <;> rfl

@[simp] theorem deliver_q2sb (m : Qemu2Sb (Thread P)) : (s.deliver m).q2sb = s.q2sb := by
  cases m <;> rfl

@[simp] theorem deliver_call (m : Qemu2Sb (Thread P)) : (s.deliver m).call = s.call := by
  cases m <;> rfl

/-- What a step of the adapter does to `sb2q_q`. -/
theorem Step.sb2q (h : s.Step a s') :
    s'.sb2q = s.sb2q ∨ ∃ b, s.sb2q.Step b s'.sb2q ∧
      ∀ m, b = .receive m → a = .poll ∧ ∃ rest, s.inbox = .mmio m :: rest := by
  unfold Step step? at h
  cases a <;> grind [onSb2q_eq_some, onQ2sb_eq_some, poll, deliver_sb2q, deliver_q2sb]

/-- What a step of the adapter does to `q2sb_q`. -/
theorem Step.q2sb (h : s.Step a s') :
    s'.q2sb = s.q2sb ∨ ∃ b, s.q2sb.Step b s'.q2sb ∧ b.thread? = a.thread? := by
  unfold Step step? at h
  cases a <;> grind [onSb2q_eq_some, onQ2sb_eq_some, poll, deliver_sb2q, deliver_q2sb,
    AdapterAct.thread?, Q2sbAct.thread?]

/-! ## invariants -/

/-- When `simbricks_thread` waits for a slot, the slot is free. -/
def SlotFree (s : Adapter P) : Prop :=
  ∀ m, s.sb2q.sb = .waiting m → (s.sb2q.slots s.sb2q.sb2qTail).ready = false

/-- A thread has a slot only while it is sending a message. -/
def CallsOwn (s : Adapter P) : Prop :=
  ∀ t, (∀ m, s.call t ≠ .sending m) → s.q2sb.producer t = .running

theorem StepFree.slotFree (h : s.StepFree a s') (hs : s.SlotFree) : s'.SlotFree := by
  obtain ⟨hfree, h⟩ := h
  intro m hw
  rcases h.sb2q with heq | ⟨b, hb, hrec⟩
  · rw [heq] at hw ⊢
    exact hs m hw
  · obtain ⟨-, hkeep, rfl | hold⟩ := hb.waiting hw
    · obtain ⟨rfl, rest, hin⟩ := hrec m rfl
      exact hkeep (hfree (by simp [takesMmio, hin]))
    · exact hkeep (hs m hold)

/-- A thread changes what it does by its own steps alone. -/
theorem Step.call_eq (h : s.Step a s') {t : Thread P} (ha : a.thread? ≠ some t) :
    s'.call t = s.call t := by
  have hother : ∀ t' (c : Call P), t' ≠ t → Function.update s.call t' c t = s.call t :=
    fun t' c hne => Function.update_of_ne hne.symm c s.call
  unfold Step step? at h
  cases a
  case call t' m =>
    have hne : t' ≠ t := fun heq => ha (congrArg some heq)
    simp only at h
    split at h <;> [skip; split at h] <;> try split at h
    all_goals cases h
    exact hother t' _ hne
  case publish t' =>
    have hne : t' ≠ t := fun heq => ha (congrArg some heq)
    simp only at h
    split at h <;> [skip; split at h]
    case isTrue | h_4 => cases h
    all_goals
      obtain ⟨q, -, rfl⟩ := onQ2sb_eq_some.mp h
      exact hother t' _ hne
  case dmaDone t' =>
    have hne : t' ≠ t := fun heq => ha (congrArg some heq)
    simp only at h
    split at h <;> [skip; split at h] <;> try split at h
    all_goals cases h
    exact hother t' _ hne
  all_goals grind [onSb2q_eq_some, onQ2sb_eq_some, poll, deliver_call]

theorem Step.producer_eq (h : s.Step a s') {t : Thread P} (ha : a.thread? ≠ some t) :
    s'.q2sb.producer t = s.q2sb.producer t := by
  rcases h.q2sb with heq | ⟨b, hb, hthread⟩
  · rw [heq]
  · exact hb.producer_eq (hthread ▸ ha)

/-- A producer runs on after it has published. -/
theorem publish_running {q q' : Q2sb (Thread P)} {t : Thread P} (h : q.Step (.publish t) q') :
    q'.producer t = .running := by
  obtain ⟨i, k, m, -, rfl⟩ := h.publish
  exact Function.update_self _ _ _

theorem Step.callsOwn (h : s.Step a s') (hs : s.CallsOwn) : s'.CallsOwn := by
  intro t hcall
  by_cases ha : a.thread? = some t
  case neg =>
    rw [h.producer_eq ha]
    exact hs t fun m => h.call_eq ha ▸ hcall m
  case pos =>
    unfold Step step? at h
    cases a <;> simp only [AdapterAct.thread?, reduceCtorEq, Option.some.injEq] at ha <;> subst ha
    case call t m =>
      simp only at h
      split at h <;> [skip; split at h] <;> try split at h
      all_goals cases h
      exact absurd (Function.update_self _ _ _) (hcall m)
    case alloc t =>
      simp only at h
      split at h <;> [skip; split at h]
      case isTrue | h_2 => cases h
      case h_1 m heq =>
        obtain ⟨q, -, rfl⟩ := onQ2sb_eq_some.mp h
        exact absurd heq (hcall m)
    case seeClear t =>
      simp only at h
      split at h
      case isTrue => cases h
      case isFalse =>
        obtain ⟨q, hq, rfl⟩ := onQ2sb_eq_some.mp h
        simp [Q2sb.Step, Q2sb.step?, hs t hcall] at hq
    case fillQ2sb t =>
      simp only at h
      split at h <;> [skip; split at h] <;> try split at h
      case isTrue | h_2 | isFalse => cases h
      case h_1 m heq _ =>
        obtain ⟨q, -, rfl⟩ := onQ2sb_eq_some.mp h
        exact absurd heq (hcall m)
    case publish t =>
      simp only at h
      split at h <;> [skip; split at h]
      case isTrue | h_4 => cases h
      all_goals
        obtain ⟨q, hq, rfl⟩ := onQ2sb_eq_some.mp h
        exact publish_running hq
    case dmaDone t =>
      simp only at h
      split at h <;> [skip; split at h] <;> try split at h
      case isTrue | h_2 | isFalse => cases h
      case h_1 heq _ =>
        cases h
        exact hs t fun m hm => by simp [heq] at hm

/-! ## no deadlock while the ring has room -/

theorem exists_step (h : (s.step? a).isSome) (ha : a.ofHost = false) :
    ∃ a s', AdapterAct.ofHost a = false ∧ s.Step a s' :=
  let ⟨s', hs'⟩ := Option.isSome_iff_exists.mp h
  ⟨a, s', ha, hs'⟩

/-- `simbricks_thread` can take a step whenever it does not spin. -/
theorem SlotFree.sb_steps (hs : s.SlotFree) (hab : s.aborted = false) :
    ∃ a s', AdapterAct.ofHost a = false ∧ s.Step a s' := by
  cases hhalf : s.half with
  | incoming =>
      cases hsb : s.sb2q.sb with
      | polling =>
          refine exists_step (a := .poll) ?_ rfl
          cases hin : s.inbox with
          | nil => simp [step?, hab, hhalf, hsb, poll, hin]
          | cons m rest =>
              cases m <;> simp [step?, hab, hhalf, hsb, poll, hin, onSb2q, Sb2q.step?]
      | waiting m =>
          refine exists_step (a := .seeFree) ?_ rfl
          simp [step?, hab, onSb2q, Sb2q.step?, hsb, hs m hsb]
      | filling m =>
          refine exists_step (a := .fillSb2q) ?_ rfl
          cases hm : m.slot <;> simp [step?, hab, onSb2q, Sb2q.step?, hsb, hm]
      | filled =>
          refine exists_step (a := .raise) ?_ rfl
          simp [step?, hab, onSb2q, Sb2q.step?, hsb]
      | published =>
          refine exists_step (a := .advanceTail) ?_ rfl
          simp [step?, hab, onSb2q, Sb2q.step?, hsb]
  | outgoing =>
      cases hcons : s.q2sb.consumer with
      | polling =>
          cases hready : (s.q2sb.slots s.q2sb.q2sbHead).ready with
          | false =>
              refine exists_step (a := .pass) ?_ rfl
              simp [step?, hab, hhalf, hcons, hready]
          | true =>
              refine exists_step (a := .seeQ2sb) ?_ rfl
              simp [step?, hab, hhalf, onQ2sb, Q2sb.step?, hcons, hready]
      | seen =>
          refine exists_step (a := .consume) ?_ rfl
          simp [step?, hab, onQ2sb, Q2sb.step?, hcons]
      | consumed =>
          refine exists_step (a := .clearQ2sb) ?_ rfl
          simp [step?, hab, onQ2sb, Q2sb.step?, hcons]
      | cleared =>
          refine exists_step (a := .advanceQ2sb) ?_ rfl
          simp [step?, hab, onQ2sb, Q2sb.step?, hcons]

theorem SlotFree.live (hs : s.SlotFree) : s.Live := by
  cases hab : s.aborted with
  | true => exact .inl hab
  | false =>
      refine .inr ⟨hs.sb_steps hab, fun ⟨⟨⟨m, hm⟩, hfull⟩, _⟩ => ?_⟩
      rw [hs m hm] at hfull
      exact Bool.false_ne_true hfull

/-- The main thread is in the handler of a write. -/
structure InWrite (s : Adapter P) : Prop where
  call : s.call .main = .running
  main : s.sb2q.main = .executing
  write : ∃ bar len addr data, (s.sb2q.slots s.sb2q.sb2qHead).val = .mmioWrite bar len addr data

theorem not_live (hab : s.aborted = false) (hsb : s.SbSpins) (hmain : s.MainSpins) : ¬ s.Live := by
  rintro (h | ⟨-, h⟩)
  · rw [hab] at h
    exact Bool.false_ne_true h
  · exact h ⟨hsb, hmain⟩

/-- **A DMA read of the handler ends in a deadlock** when `simbricks_thread` waits for a
slot of a full ring. -/
theorem InWrite.deadlock (hw : s.InWrite) (hown : s.CallsOwn) (hab : s.aborted = false)
    (hspin : s.SbSpins) : ∃ acts s', Run Step s acts s' ∧ ¬ s'.Live := by
  have hidle : s.q2sb.producer .main = .running := hown .main fun m => by simp [hw.call]
  obtain ⟨bar, len, addr, data, hval⟩ := hw.write
  have hcall : s.mayCall .main (.dmaRead .main) = true := by simp [mayCall, hw.main, hval]
  let q := s.q2sb
  let s₁ : Adapter P := { s with call := Function.update s.call .main (.sending (.dmaRead .main)) }
  have h₁ : s.Step (.call .main (.dmaRead .main)) s₁ := by
    simp [Step, step?, hab, hw.call, hcall, s₁]
  let q₂ : Q2sb (Thread P) := { q with
    q2sbTail := (q.q2sbTail + 1) % q2sbSz
    producer := Function.update q.producer .main (.waiting q.q2sbTail q.log.length)
    log := q.log ++ [none] }
  have h₂ : s₁.Step (.alloc .main) { s₁ with q2sb := q₂ } := by
    simp [Step, step?, hab, s₁, onQ2sb, Q2sb.step?, hidle, q₂, q]
  cases hready : (q.slots q.q2sbTail).ready with
  | true =>
      -- no slot is free: the main thread spins in `sb_op_alloc`
      refine ⟨_, _, .cons h₁ (.cons h₂ (.nil _)), not_live hab hspin (.inl ?_)⟩
      exact ⟨q.q2sbTail, q.log.length, by simp [q₂], hready⟩
  | false =>
      -- the message is sent, and nobody takes it or its answer
      let q₃ : Q2sb (Thread P) := { q₂ with
        producer := Function.update q₂.producer .main (.owning q.q2sbTail q.log.length) }
      have h₃ : Step { s₁ with q2sb := q₂ } (.seeClear .main) { s₁ with q2sb := q₃ } := by
        simp [Step, step?, hab, s₁, onQ2sb, Q2sb.step?, q₂, q₃, hready]
      let q₄ : Q2sb (Thread P) := { q₃ with
        slots := fillSlot q₃.slots q.q2sbTail (.dmaRead .main)
        producer := Function.update q₃.producer .main
          (.filled q.q2sbTail q.log.length (.dmaRead .main)) }
      let s₄ : Adapter P := { s₁ with
        opReady := Function.update s₁.opReady .main false
        q2sb := q₄ }
      have h₄ : Step { s₁ with q2sb := q₃ } (.fillQ2sb .main) s₄ := by
        simp [Step, step?, hab, s₁, onQ2sb, Q2sb.step?, q₃, q₄, s₄, mayFill]
      let q₅ : Q2sb (Thread P) := { q₄ with
        slots := setReady q₄.slots q.q2sbTail true
        producer := Function.update q₄.producer .main .running
        log := q₄.log.set q.log.length (some (.dmaRead .main)) }
      let s₅ : Adapter P := { s₄ with
        call := Function.update s₄.call .main .dmaWait
        q2sb := q₅ }
      have h₅ : s₄.Step (.publish .main) s₅ := by
        simp [Step, step?, hab, s₁, s₄, s₅, onQ2sb, Q2sb.step?, q₄, q₅]
      refine ⟨_, _, .cons h₁ (.cons h₂ (.cons h₃ (.cons h₄ (.cons h₅ (.nil _))))),
        not_live hab hspin (.inr ?_)⟩
      simp [s₅, s₄]

/-- Taking a message for which there is no slot makes `simbricks_thread` spin. -/
theorem Step.spins (h : s.Step .poll s') (hfull : ¬ s.TakesFree .poll) :
    s'.SbSpins ∧ s'.aborted = false ∧ (s.InWrite → s'.InWrite) := by
  simp only [TakesFree, Classical.not_imp, Bool.not_eq_false] at hfull
  obtain ⟨htakes, hready⟩ := hfull
  obtain ⟨m, rest, hin⟩ : ∃ m rest, s.inbox = .mmio m :: rest := by
    simp only [takesMmio] at htakes
    grind
  unfold Step step? at h
  split at h
  case isTrue => cases h
  case isFalse hab =>
    simp only at h
    split at h
    case h_2 => cases h
    case h_1 hhalf hsb =>
      simp only [poll, hin] at h
      obtain ⟨q, hq, rfl⟩ := onSb2q_eq_some.mp h
      simp only [Sb2q.Step, Sb2q.step?, hsb, Option.some.injEq] at hq
      subst hq
      exact ⟨⟨⟨m, rfl⟩, hready⟩, by simpa using hab, fun hw => ⟨hw.call, hw.main, hw.write⟩⟩

/-- **No deadlock** in any run in which every MMIO message is taken while `sb2q_q` has a
free slot: some thread can take a step, and `simbricks_thread` does not spin on a full
ring while the main thread waits for it. A message that is taken while the ring is full
and the main thread is in the handler of a write leads to a deadlock. -/
theorem deadlock_free {s₀ : Adapter P} {acts : List (AdapterAct P)} (h0 : s₀.Init)
    (hrun : Run StepFree s₀ acts s) :
    s.Live ∧ ∀ s', ¬ s.TakesFree .poll → s.Step .poll s' → s.InWrite →
      ∃ acts s'', Run Step s' acts s'' ∧ ¬ s''.Live := by
  obtain ⟨hfree, hown⟩ := hrun.invariant (I := fun s => s.SlotFree ∧ s.CallsOwn)
    (fun _ _ _ ⟨hfree, hown⟩ h => ⟨h.slotFree hfree, h.2.callsOwn hown⟩)
    ⟨fun m hm => by simp [h0.sb2q.sb] at hm, fun t _ => h0.q2sb.producer t⟩
  refine ⟨hfree.live, fun s' hfull hpoll hw => ?_⟩
  obtain ⟨hspin, hab, hkeep⟩ := hpoll.spins hfull
  exact (hkeep hw).deadlock (hpoll.callsOwn hown) hab hspin

end Steps

/-- The adapter at the start. -/
def start (P : Type) : Adapter P :=
  { sb2q := .start
    q2sb := .start (Thread P)
    inbox := []
    reads := []
    half := .incoming
    call := fun _ => .running
    opReady := fun _ => false
    aborted := false }

theorem start_init : (start P).Init :=
  ⟨Sb2q.start_init, Q2sb.start_init, rfl, rfl, fun _ => rfl, rfl⟩

instance [DecidableEq P] (s : Adapter P) (a : AdapterAct P) : Decidable (s.TakesFree a) :=
  inferInstanceAs (Decidable (_ → _))

/-- The delivery of the next MMIO message. -/
def deliverNext : List (AdapterAct Empty) :=
  [.poll, .seeFree, .fillSb2q, .raise, .advanceTail]

/-- The main thread starts the next operation, a write, with a DMA read. -/
def startDma : List (AdapterAct Empty) :=
  [.seeSb2q, .call .main (.dmaRead .main), .alloc .main, .seeClear .main, .fillQ2sb .main,
    .publish .main]

/-- The DMA read is sent to the host, and answered. -/
def answerDma : List (AdapterAct Empty) :=
  [.seeQ2sb, .consume, .clearQ2sb, .advanceQ2sb, .answer .main]

/-- A write whose handler reads memory. -/
def oneWrite : List (AdapterAct Empty) :=
  [.sendMmio (.write 0 0 4096 4 [1, 0, 0, 0])] ++ deliverNext ++ startDma ++ answerDma ++
    [.poll, .dmaDone .main, .execute, .clearSb2q, .advanceHead]

theorem deadlock_free_small :
    ∃ s, Run StepFree (start Empty) oneWrite s ∧ s.sb2q.executed.length = 1 ∧ s.Live := by
  have hends : (exec (allowed TakesFree step?) oneWrite (start Empty)).map
      (·.sb2q.executed.length) = some 1 := by decide +kernel
  obtain ⟨s, hs, hlen⟩ := Option.map_eq_some_iff.mp hends
  have hrun : Run StepFree (start Empty) oneWrite s := run_of_exec_allowed hs
  exact ⟨s, hrun, hlen, (deadlock_free start_init hrun).1⟩

/-- More writes than the ring holds, the first of which reads memory: the answer is
behind the write that finds no slot. -/
def crowded : List (AdapterAct Empty) :=
  List.replicate 129 (.sendMmio (.write 0 0 4096 4 [1, 0, 0, 0])) ++ deliverNext ++ startDma ++
    answerDma ++ (List.replicate 127 (deliverNext ++ [.pass])).flatten ++ [.poll]

/-- Without pollers nothing is left to move when both threads spin. -/
theorem stuck {s : Adapter Empty} {m : H2DMmio} (hsb : s.sb2q.sb = .waiting m)
    (hfull : (s.sb2q.slots s.sb2q.sb2qTail).ready = true) (hhalf : s.half = .incoming)
    (hcons : s.q2sb.consumer = .polling) (hmain : s.sb2q.main = .executing)
    (hcall : s.call .main = .dmaWait) (hprod : s.q2sb.producer .main = .running)
    (hop : s.opReady .main = false) (a : AdapterAct Empty) (s' : Adapter Empty)
    (ha : a.ofHost = false) : ¬ s.Step a s' := by
  have hexec : s.mayExecute = false := by
    unfold mayExecute
    rw [hcall]
    cases (s.sb2q.slots s.sb2q.sb2qHead).val <;> rfl
  have hthreads : ∀ t : Thread Empty, t = .main := fun t => by
    cases t with
    | main => rfl
    | poller p => exact p.elim
  cases a <;> simp only [AdapterAct.ofHost, Bool.true_eq_false] at ha <;>
    simp [Step, step?, onSb2q, onQ2sb, Sb2q.step?, Q2sb.step?, hsb, hfull, hhalf, hcons, hmain,
      hexec, hthreads, hcall, hprod, hop]

theorem deadlock_reachable :
    ∃ s, Run Step (start Empty) crowded s ∧ s.SbSpins ∧ s.MainSpins ∧
      ∀ a s', AdapterAct.ofHost a = false → ¬ s.Step a s' := by
  have hends : (exec step? crowded (start Empty)).map (fun s => decide
      (s.sb2q.sb = .waiting (.write 0 0 4096 4 [1, 0, 0, 0]) ∧
        (s.sb2q.slots s.sb2q.sb2qTail).ready = true ∧ s.half = .incoming ∧
        s.q2sb.consumer = .polling ∧ s.sb2q.main = .executing ∧ s.call .main = .dmaWait ∧
        s.q2sb.producer .main = .running ∧ s.opReady .main = false)) = some true := by
    decide +kernel
  obtain ⟨s, hs, heq⟩ := Option.map_eq_some_iff.mp hends
  obtain ⟨hsb, hfull, hhalf, hcons, hmain, hcall, hprod, hop⟩ := of_decide_eq_true heq
  exact ⟨s, run_of_exec hs, ⟨⟨_, hsb⟩, hfull⟩, .inr ⟨hcall, hop⟩,
    stuck hsb hfull hhalf hcons hmain hcall hprod hop⟩

end Adapter

end Femu.Simbricks

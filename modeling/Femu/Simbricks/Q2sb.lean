import Femu.Lib.Ring
import Femu.Lib.Transition

/-!
# Femu.Simbricks.Q2sb

Messages on their way from the threads of the device to `simbricks_thread`
(`sb_op_alloc` and its callers in `wrapper-qemu.c`, the second half of
`simbricks_thread` in `wrapper-main.c`). A producer takes the slot at the tail under
the lock, waits for its flag to be down, fills it and raises the flag. Nothing marks
the slot in between, so a producer that is late may be overtaken by a whole ring.
-/

namespace Femu.Simbricks

open Lib

/-- `Q2SB_SZ`. -/
def q2sbSz : Nat := 128

/-- `struct qemu2sb`: the type with its member of the union. A `dma_op` is on the stack
of the thread that waits for it, and is named by that thread. -/
inductive Qemu2Sb (T : Type)
  | mmioReadCompl (data reqId : Nat)
  | dmaWrite (op : T)
  | dmaRead (op : T)
  | int (vector inttype : Nat)
deriving DecidableEq

/-- Where a producer is. The last number is that of its allocation, and a message that
has been filled in is kept until it is published. -/
inductive ProducerPc (T : Type)
  | running
  /-- in `while (q2sb->ready)` of `sb_op_alloc` -/
  | waiting (slot ticket : Nat)
  | owning (slot ticket : Nat)
  | filled (slot ticket : Nat) (m : Qemu2Sb T)
deriving DecidableEq

namespace ProducerPc

variable {T : Type}

/-- The slot taken by a producer that has not published yet. -/
def slot? : ProducerPc T → Option Nat
  | .running => none
  | .waiting i _ | .owning i _ | .filled i _ _ => some i

/-- The number of an allocation that has not been published yet. -/
def ticket? : ProducerPc T → Option Nat
  | .running => none
  | .waiting _ k | .owning _ k | .filled _ k _ => some k

/-- The slot that a producer takes to be its own. -/
def owned? : ProducerPc T → Option Nat
  | .running | .waiting _ _ => none
  | .owning i _ | .filled i _ _ => some i

end ProducerPc

/-- Where `simbricks_thread` is with the slot at the head. -/
inductive ConsumerPc
  | polling
  | seen
  | consumed
  | cleared
deriving DecidableEq

/-- `q2sb_q` with its tail, and the head of `simbricks_thread`. The last two fields
record what each allocation has published, and what has been consumed. -/
structure Q2sb (T : Type) where
  slots : Nat → Slot (Qemu2Sb T)
  q2sbTail : Nat
  q2sbHead : Nat
  producer : T → ProducerPc T
  consumer : ConsumerPc
  log : List (Option (Qemu2Sb T))
  consumed : List (Qemu2Sb T)

inductive Q2sbAct (T : Type)
  | alloc (t : T)
  | seeClear (t : T)
  | fill (t : T) (m : Qemu2Sb T)
  | publish (t : T)
  /-- `simbricks_thread` finds `q2sb->ready` -/
  | seeReady
  | consume
  | clear
  | advanceHead

/-- The producer whose step it is. -/
def Q2sbAct.thread? {T : Type} : Q2sbAct T → Option T
  | .alloc t | .seeClear t | .fill t _ | .publish t => some t
  | .seeReady | .consume | .clear | .advanceHead => none

namespace Q2sb

variable {T : Type}

/-- The next step of one of the threads, `none` where it cannot be taken. -/
def step? [DecidableEq T] (s : Q2sb T) : Q2sbAct T → Option (Q2sb T)
  | .alloc t =>
      match s.producer t with
      | .running => some { s with
          q2sbTail := (s.q2sbTail + 1) % q2sbSz
          producer := Function.update s.producer t (.waiting s.q2sbTail s.log.length)
          log := s.log ++ [none] }
      | _ => none
  | .seeClear t =>
      match s.producer t with
      | .waiting i k =>
          if (s.slots i).ready then none
          else some { s with producer := Function.update s.producer t (.owning i k) }
      | _ => none
  | .fill t m =>
      match s.producer t with
      | .owning i k => some { s with
          slots := fillSlot s.slots i m
          producer := Function.update s.producer t (.filled i k m) }
      | _ => none
  | .publish t =>
      match s.producer t with
      | .filled i k m => some { s with
          slots := setReady s.slots i true
          producer := Function.update s.producer t .running
          log := s.log.set k (some m) }
      | _ => none
  | .seeReady =>
      match s.consumer with
      | .polling => if (s.slots s.q2sbHead).ready then some { s with consumer := .seen } else none
      | _ => none
  | .consume =>
      match s.consumer with
      | .seen => some { s with
          consumer := .consumed
          consumed := s.consumed ++ [(s.slots s.q2sbHead).val] }
      | _ => none
  | .clear =>
      match s.consumer with
      | .consumed => some { s with
          consumer := .cleared
          slots := setReady s.slots s.q2sbHead false }
      | _ => none
  | .advanceHead =>
      match s.consumer with
      | .cleared => some { s with
          consumer := .polling
          q2sbHead := (s.q2sbHead + 1) % q2sbSz }
      | _ => none

def Step [DecidableEq T] (s : Q2sb T) (a : Q2sbAct T) (s' : Q2sb T) : Prop := s.step? a = some s'

/-- A producer moves by its own steps alone. -/
theorem Step.producer_eq [DecidableEq T] {s s' : Q2sb T} {a : Q2sbAct T} {t : T} (h : s.Step a s')
    (ha : a.thread? ≠ some t) : s'.producer t = s.producer t := by
  unfold Step step? at h
  cases a <;> simp only [Q2sbAct.thread?, ne_eq, Option.some.injEq] at h ha <;> split at h <;>
    (try split at h) <;> cases h <;> first | rfl | exact Function.update_of_ne (Ne.symm ha) _ _

/-! ## what a step can do -/

section Inversion

variable [DecidableEq T] {s s' : Q2sb T} {t : T}

theorem Step.alloc (h : s.Step (.alloc t) s') : s.producer t = .running ∧
    s' = { s with
      q2sbTail := (s.q2sbTail + 1) % q2sbSz
      producer := Function.update s.producer t (.waiting s.q2sbTail s.log.length)
      log := s.log ++ [none] } := by
  unfold Step step? at h
  simp only at h
  split at h
  case h_1 hpc => exact ⟨hpc, (Option.some.inj h).symm⟩
  case h_2 => cases h

theorem Step.seeClear (h : s.Step (.seeClear t) s') : ∃ i k, s.producer t = .waiting i k ∧
    (s.slots i).ready = false ∧
    s' = { s with producer := Function.update s.producer t (.owning i k) } := by
  unfold Step step? at h
  simp only at h
  split at h
  case h_1 i k hpc =>
    split at h
    case isTrue => cases h
    case isFalse hfree => exact ⟨i, k, hpc, by simpa using hfree, (Option.some.inj h).symm⟩
  case h_2 => cases h

theorem Step.fill {m : Qemu2Sb T} (h : s.Step (.fill t m) s') : ∃ i k, s.producer t = .owning i k ∧
    s' = { s with
      slots := fillSlot s.slots i m
      producer := Function.update s.producer t (.filled i k m) } := by
  unfold Step step? at h
  simp only at h
  split at h
  case h_1 i k hpc => exact ⟨i, k, hpc, (Option.some.inj h).symm⟩
  case h_2 => cases h

theorem Step.publish (h : s.Step (.publish t) s') : ∃ i k m, s.producer t = .filled i k m ∧
    s' = { s with
      slots := setReady s.slots i true
      producer := Function.update s.producer t .running
      log := s.log.set k (some m) } := by
  unfold Step step? at h
  simp only at h
  split at h
  case h_1 i k m hpc => exact ⟨i, k, m, hpc, (Option.some.inj h).symm⟩
  case h_2 => cases h

theorem Step.seeReady (h : s.Step .seeReady s') : s.consumer = .polling ∧
    (s.slots s.q2sbHead).ready = true ∧ s' = { s with consumer := .seen } := by
  unfold Step step? at h
  simp only at h
  split at h
  case h_1 hpc =>
    split at h
    case isTrue hready => exact ⟨hpc, hready, (Option.some.inj h).symm⟩
    case isFalse => cases h
  case h_2 => cases h

theorem Step.consume (h : s.Step .consume s') : s.consumer = .seen ∧
    s' = { s with
      consumer := .consumed
      consumed := s.consumed ++ [(s.slots s.q2sbHead).val] } := by
  unfold Step step? at h
  simp only at h
  split at h
  case h_1 hpc => exact ⟨hpc, (Option.some.inj h).symm⟩
  case h_2 => cases h

theorem Step.clear (h : s.Step .clear s') : s.consumer = .consumed ∧
    s' = { s with
      consumer := .cleared
      slots := setReady s.slots s.q2sbHead false } := by
  unfold Step step? at h
  simp only at h
  split at h
  case h_1 hpc => exact ⟨hpc, (Option.some.inj h).symm⟩
  case h_2 => cases h

theorem Step.advanceHead (h : s.Step .advanceHead s') : s.consumer = .cleared ∧
    s' = { s with
      consumer := .polling
      q2sbHead := (s.q2sbHead + 1) % q2sbSz } := by
  unfold Step step? at h
  simp only at h
  split at h
  case h_1 hpc => exact ⟨hpc, (Option.some.inj h).symm⟩
  case h_2 => cases h

end Inversion

/-- The ring before the threads start: every flag is down. -/
structure Init (s : Q2sb T) : Prop where
  slots : ∀ i, (s.slots i).ready = false
  tail : s.q2sbTail = 0
  head : s.q2sbHead = 0
  producer : ∀ t, s.producer t = .running
  consumer : s.consumer = .polling
  log : s.log = []
  consumed : s.consumed = []

/-! ## statement -/

/-- Every slot has one owner, and every message is consumed once, in the order of the
allocations. -/
structure SlotsOwned (s : Q2sb T) : Prop where
  /-- two producers that have not published yet are in different slots -/
  exclusive : ∀ t t' i, t ≠ t' → (s.producer t).slot? = some i → (s.producer t').slot? ≠ some i
  /-- no producer writes a slot whose message has not been cleared -/
  reserved : ∀ t i, (s.producer t).owned? = some i → (s.slots i).ready = false
  inOrder : s.consumed.map some <+: s.log
  intact : ∀ k m, s.log[k]? = some (some m) → s.consumed.length ≤ k →
    (s.slots (k % q2sbSz)).ready = true ∧ (s.slots (k % q2sbSz)).val = m

/-- Every producer that has not published yet took its slot less than a ring ago. -/
def InTime (s : Q2sb T) : Prop :=
  ∀ t, ∀ k ∈ (s.producer t).ticket?, s.log.length < k + q2sbSz

/-- Slots are allocated while every producer is in time. -/
def AllocInTime (s : Q2sb T) : Q2sbAct T → Prop
  | .alloc _ => s.InTime
  | _ => True

/-- A step in which a slot is allocated in time. -/
def StepInTime [DecidableEq T] (s : Q2sb T) (a : Q2sbAct T) (s' : Q2sb T) : Prop :=
  s.AllocInTime a ∧ s.Step a s'

/-! ## invariant -/

/-- What is known of a producer. -/
def ProducerInv (slots : Nat → Slot (Qemu2Sb T)) (log : List (Option (Qemu2Sb T))) :
    ProducerPc T → Prop
  | .running => True
  | .waiting i k => i = k % q2sbSz ∧ log[k]? = some none ∧ log.length ≤ k + q2sbSz
  | .owning i k => i = k % q2sbSz ∧ log[k]? = some none ∧ log.length ≤ k + q2sbSz ∧
      (slots i).ready = false
  | .filled i k m => i = k % q2sbSz ∧ log[k]? = some none ∧ log.length ≤ k + q2sbSz ∧
      (slots i).ready = false ∧ (slots i).val = m

/-- What is known of the consumer when the first `c` messages have been cleared. -/
def ConsumerInv (head : Nat) (consumed : List (Qemu2Sb T)) (log : List (Option (Qemu2Sb T)))
    (c : Nat) : ConsumerPc → Prop
  | .polling => consumed.map some = log.take c ∧ head = c % q2sbSz
  | .seen => consumed.map some = log.take c ∧ head = c % q2sbSz ∧ ∃ m, log[c]? = some (some m)
  | .consumed => consumed.map some = log.take (c + 1) ∧ head = c % q2sbSz ∧
      ∃ m, log[c]? = some (some m)
  | .cleared => consumed.map some = log.take c ∧ ∃ h, c = h + 1 ∧ head = h % q2sbSz

/-- The entries that are in the ring when the first `c` have been cleared. -/
def Live (log : List (Option (Qemu2Sb T))) (c k : Nat) : Prop :=
  c ≤ k ∧ ∃ m, log[k]? = some (some m)

structure Inv (s : Q2sb T) (c : Nat) : Prop where
  holds : Holds q2sbSz s.slots (Live s.log c) fun k m => s.log[k]? = some (some m)
  le : c ≤ s.log.length
  tail : s.q2sbTail = s.log.length % q2sbSz
  producer : ∀ t, ProducerInv s.slots s.log (s.producer t)
  distinct : ∀ t t' k, t ≠ t' → (s.producer t).ticket? = some k → (s.producer t').ticket? ≠ some k
  pending : ∀ k, s.log[k]? = some none → ∃ t, (s.producer t).ticket? = some k
  consumer : ConsumerInv s.q2sbHead s.consumed s.log c s.consumer

variable {s s' : Q2sb T} {c : Nat} {t t' : T}

theorem q2sbSz_pos : 0 < q2sbSz := by decide

theorem Init.inv (h : Init s) : Inv s 0 where
  holds := .empty h.slots fun k ⟨_, m, hm⟩ => by simp [h.log] at hm
  le := Nat.zero_le _
  tail := by simp [h.tail, h.log]
  producer t := by simp [h.producer t, ProducerInv]
  distinct t t' k _ ht := by simp [h.producer t, ProducerPc.ticket?] at ht
  pending k hk := by simp [h.log] at hk
  consumer := by simp [h.consumer, ConsumerInv, h.consumed, h.log, h.head]

/-- A pending allocation: its slot, and the window it is in. -/
theorem ProducerInv.pending {slots : Nat → Slot (Qemu2Sb T)} {log : List (Option (Qemu2Sb T))}
    {pc : ProducerPc T} (h : ProducerInv slots log pc) {k : Nat} (hk : pc.ticket? = some k) :
    pc.slot? = some (k % q2sbSz) ∧ log[k]? = some none ∧ log.length ≤ k + q2sbSz := by
  cases pc <;> simp only [ProducerPc.ticket?, reduceCtorEq, Option.some.injEq] at hk <;> subst hk
  case waiting => exact ⟨by rw [ProducerPc.slot?, h.1], h.2⟩
  case owning => exact ⟨by rw [ProducerPc.slot?, h.1], h.2.1, h.2.2.1⟩
  case filled => exact ⟨by rw [ProducerPc.slot?, h.1], h.2.1, h.2.2.1⟩

theorem ProducerPc.exists_ticket {pc : ProducerPc T} {i : Nat} (h : pc.slot? = some i) :
    ∃ k, pc.ticket? = some k := by
  cases pc with
  | running => cases h
  | waiting i k => exact ⟨k, rfl⟩
  | owning i k => exact ⟨k, rfl⟩
  | filled i k m => exact ⟨k, rfl⟩

/-- **Two pending allocations are in different slots**, being less than a ring apart. -/
theorem Inv.slot_ne (h : Inv s c) (hne : t ≠ t') {k k' : Nat}
    (hk : (s.producer t).ticket? = some k) (hk' : (s.producer t').ticket? = some k') :
    k % q2sbSz ≠ k' % q2sbSz := by
  obtain ⟨-, hlog, hlen⟩ := (h.producer t).pending hk
  obtain ⟨-, hlog', hlen'⟩ := (h.producer t').pending hk'
  have hlt : k < s.log.length := (List.getElem?_eq_some_iff.mp hlog).1
  have hlt' : k' < s.log.length := (List.getElem?_eq_some_iff.mp hlog').1
  have hkk : k ≠ k' := fun heq => h.distinct t t' k hne hk (heq ▸ hk')
  rcases Nat.lt_or_gt_of_ne hkk with hless | hless
  · exact mod_ne_of_lt hless (by omega)
  · exact (mod_ne_of_lt hless (by omega)).symm

theorem ProducerPc.slot_of_owned {pc : ProducerPc T} {i : Nat} (h : pc.owned? = some i) :
    pc.slot? = some i := by
  cases pc with
  | running => cases h
  | waiting i k => cases h
  | owning i k => exact h
  | filled i k m => exact h

/-- A slot that one producer owns is not the slot of another pending allocation. -/
theorem Inv.owned_ne (h : Inv s c) (hne : t ≠ t') {i k' : Nat}
    (hi : (s.producer t).owned? = some i) (hk' : (s.producer t').ticket? = some k') :
    i ≠ k' % q2sbSz := by
  have hslot := ProducerPc.slot_of_owned hi
  obtain ⟨k, hk⟩ := ProducerPc.exists_ticket hslot
  obtain rfl : i = k % q2sbSz :=
    Option.some.inj (hslot.symm.trans ((h.producer t).pending hk).1)
  exact h.slot_ne hne hk hk'

/-- A producer is not affected by steps that leave its slot and its allocation alone. -/
theorem ProducerInv.frame {slots slots' : Nat → Slot (Qemu2Sb T)}
    {log log' : List (Option (Qemu2Sb T))} {pc : ProducerPc T} (h : ProducerInv slots log pc)
    (hslot : ∀ i, pc.owned? = some i → (slots i).ready = false →
      (slots' i).ready = false ∧ (slots' i).val = (slots i).val)
    (hlog : ∀ k, pc.ticket? = some k → log[k]? = some none →
      log'[k]? = some none ∧ log'.length ≤ k + q2sbSz) : ProducerInv slots' log' pc := by
  cases pc with
  | running => trivial
  | waiting i k =>
      obtain ⟨rfl, hk, hlen⟩ := h
      exact ⟨rfl, hlog k rfl hk⟩
  | owning i k =>
      obtain ⟨rfl, hk, hlen, hfree⟩ := h
      obtain ⟨hk', hlen'⟩ := hlog k rfl hk
      exact ⟨rfl, hk', hlen', (hslot _ rfl hfree).1⟩
  | filled i k m =>
      obtain ⟨rfl, hk, hlen, hfree, hval⟩ := h
      obtain ⟨hk', hlen'⟩ := hlog k rfl hk
      obtain ⟨hfree', hval'⟩ := hslot _ rfl hfree
      exact ⟨rfl, hk', hlen', hfree', hval'.trans hval⟩

/-- The entries before `c` have been published. -/
theorem ConsumerInv.published {head : Nat} {consumed : List (Qemu2Sb T)}
    {log : List (Option (Qemu2Sb T))} {pc : ConsumerPc} (h : ConsumerInv head consumed log c pc)
    {k : Nat} (hk : k < c) : log[k]? ≠ some none := by
  have htake : ∀ n, k < n → consumed.map some = log.take n → log[k]? ≠ some none := by
    intro n hn heq hnone
    have hk' : (log.take n)[k]? = some none := by rw [List.getElem?_take_of_lt hn, hnone]
    rw [← heq, List.getElem?_map] at hk'
    cases hc : consumed[k]? <;> simp [hc] at hk'
  cases pc with
  | polling => exact htake c hk h.1
  | seen => exact htake c hk h.1
  | consumed => exact htake (c + 1) (by omega) h.1
  | cleared => exact htake c hk h.1

theorem Inv.le_of_unpublished (hi : Inv s c) {k : Nat} (hk : s.log[k]? = some none) : c ≤ k := by
  by_contra hlt
  exact hi.consumer.published (by omega) hk

/-- The entries consumed and the entry at the head are not touched by a change of the
log that keeps what has been published. -/
theorem ConsumerInv.frame {head : Nat} {consumed : List (Qemu2Sb T)}
    {log log' : List (Option (Qemu2Sb T))} {pc : ConsumerPc} (h : ConsumerInv head consumed log c pc)
    (hlog : ∀ (k : Nat) m, log[k]? = some (some m) → log'[k]? = some (some m)) (hle : c ≤ log.length) :
    ConsumerInv head consumed log' c pc := by
  -- the entries before `n` have all been published, hence are the same in both logs
  have htake : ∀ n, n ≤ log.length → consumed.map some = log.take n →
      consumed.map some = log'.take n := by
    intro n hn heq
    rw [heq]
    refine List.ext_getElem? fun k => ?_
    simp only [List.getElem?_take]
    split
    case isFalse => rfl
    case isTrue hk =>
      have hlen : consumed.length = n := by
        have := congrArg List.length heq
        simpa [Nat.min_eq_left hn] using this
      have hkc : k < consumed.length := by omega
      have hc : log[k]? = some (some consumed[k]) := by
        have := congrArg (·[k]?) heq
        simpa [List.getElem?_take, hk, hkc] using this.symm
      rw [hc, hlog k _ hc]
  cases pc with
  | polling => exact ⟨htake c hle h.1, h.2⟩
  | seen =>
      obtain ⟨hcons, hhead, m, hm⟩ := h
      exact ⟨htake c hle hcons, hhead, m, hlog c m hm⟩
  | consumed =>
      obtain ⟨hcons, hhead, m, hm⟩ := h
      have hlt : c < log.length := (List.getElem?_eq_some_iff.mp hm).1
      exact ⟨htake (c + 1) hlt hcons, hhead, m, hlog c m hm⟩
  | cleared => exact ⟨htake c hle h.1, h.2⟩

/-- A raised flag at the head is that of the next message: a later message in the slot
would have overtaken an allocation by a whole ring. -/
theorem Inv.next (hi : Inv s c) (hhead : s.q2sbHead = c % q2sbSz)
    (hr : (s.slots s.q2sbHead).ready = true) : ∃ m, s.log[c]? = some (some m) := by
  rw [hhead] at hr
  obtain ⟨j, ⟨hcj, m, hm⟩, hmod⟩ := hi.holds.exists_live q2sbSz_pos hr
  have hj : j < s.log.length := (List.getElem?_eq_some_iff.mp hm).1
  cases hc : s.log[c]? with
  | none => exact absurd (List.getElem?_eq_none_iff.mp hc) (by omega)
  | some o =>
      cases o with
      | some m => exact ⟨m, rfl⟩
      | none =>
          obtain ⟨t, ht⟩ := hi.pending c hc
          have hlen := ((hi.producer t).pending ht).2.2
          have hne : c ≠ j := by
            rintro rfl
            simp [hm] at hc
          have := le_of_mod_eq (by omega) hmod.symm
          omega

theorem Inv.same_ticket (_ : Inv s c) {pc : ProducerPc T} {k : Nat} (hk : s.log[k]? = some none)
    (hpc : (s.producer t).ticket? = pc.ticket?) :
    pc.ticket? = some k ∨ s.log[k]? = some none ∧ (s.producer t).ticket? ≠ some k := by
  by_cases h : pc.ticket? = some k
  · exact .inl h
  · exact .inr ⟨hk, hpc ▸ h⟩

/-! ## steps of the producers -/

theorem getElem?_snoc_none {log : List (Option (Qemu2Sb T))} (k : Nat) (m : Qemu2Sb T) :
    (log ++ [none])[k]? = some (some m) ↔ log[k]? = some (some m) := by
  rw [List.getElem?_append]
  split
  case isTrue => rfl
  case isFalse hge =>
    rw [List.getElem?_eq_none (Nat.le_of_not_lt hge)]
    cases k - log.length <;> simp

section Steps

variable [DecidableEq T]

/-- A producer whose allocation is that of no other one may move on. -/
theorem Inv.distinct_update (hi : Inv s c) {pc : ProducerPc T}
    (hpc : ∀ k, pc.ticket? = some k → ∀ t', t' ≠ t → (s.producer t').ticket? ≠ some k)
    (t₁ t₂ : T) (k : Nat) (hne : t₁ ≠ t₂)
    (h₁ : (Function.update s.producer t pc t₁).ticket? = some k) :
    (Function.update s.producer t pc t₂).ticket? ≠ some k := by
  intro h₂
  by_cases ht₁ : t₁ = t
  · subst ht₁
    rw [Function.update_self] at h₁
    rw [Function.update_of_ne hne.symm] at h₂
    exact hpc k h₁ t₂ hne.symm h₂
  · rw [Function.update_of_ne ht₁] at h₁
    by_cases ht₂ : t₂ = t
    · subst ht₂
      rw [Function.update_self] at h₂
      exact hpc k h₂ t₁ ht₁ h₁
    · rw [Function.update_of_ne ht₂] at h₂
      exact hi.distinct t₁ t₂ k hne h₁ h₂

/-- Every other allocation keeps its producer. -/
theorem Inv.pending_update (hi : Inv s c) {pc : ProducerPc T} {log' : List (Option (Qemu2Sb T))}
    (hlog : ∀ k, log'[k]? = some none → pc.ticket? = some k ∨
      s.log[k]? = some none ∧ (s.producer t).ticket? ≠ some k) (k : Nat)
    (hk : log'[k]? = some none) : ∃ t', (Function.update s.producer t pc t').ticket? = some k := by
  rcases hlog k hk with hpc | ⟨hold, hne⟩
  · exact ⟨t, by rwa [Function.update_self]⟩
  · obtain ⟨t', ht'⟩ := hi.pending k hold
    have htt : t' ≠ t := fun heq => hne (heq ▸ ht')
    exact ⟨t', by rwa [Function.update_of_ne htt]⟩

theorem producer_update {slots : Nat → Slot (Qemu2Sb T)} {log : List (Option (Qemu2Sb T))}
    {producer : T → ProducerPc T} {pc : ProducerPc T} (hself : ProducerInv slots log pc)
    (hother : ∀ t', t' ≠ t → ProducerInv slots log (producer t')) (t' : T) :
    ProducerInv slots log (Function.update producer t pc t') := by
  by_cases heq : t' = t
  · subst heq
    rwa [Function.update_self]
  · rw [Function.update_of_ne heq]
    exact hother t' heq

/-- **Allocation** takes the next slot; in time, it is not the slot of a producer that
has not published yet. -/
theorem Inv.alloc (hi : Inv s c) (hin : s.InTime) (h : s.Step (.alloc t) s') : Inv s' c := by
  obtain ⟨hpc, rfl⟩ := h.alloc
  have hold : ∀ t' k, (s.producer t').ticket? = some k → k < s.log.length := fun t' k hk =>
    (List.getElem?_eq_some_iff.mp ((hi.producer t').pending hk).2.1).1
  refine {
    holds := hi.holds.congr (fun k => by simp only [Live, getElem?_snoc_none])
      fun k m _ hk => (getElem?_snoc_none k m).mpr hk
    le := by simpa using Nat.le_succ_of_le hi.le
    tail := by simp [hi.tail]
    producer := producer_update ?_ fun t' hne => ?_
    distinct := hi.distinct_update fun k hk t' _ ht' => ?_
    pending := hi.pending_update fun k hk => ?_
    consumer := hi.consumer.frame (fun k m => (getElem?_snoc_none k m).mpr) hi.le }
  · exact ⟨hi.tail, by simp, by simp [q2sbSz]⟩
  · refine (hi.producer t').frame (fun i _ hfree => ⟨hfree, rfl⟩) fun k hk hlog => ⟨?_, ?_⟩
    · rw [List.getElem?_append_left (hold t' k hk), hlog]
    · simpa using Nat.succ_le_of_lt (hin t' k hk)
  · simp only [ProducerPc.ticket?, Option.some.injEq] at hk
    exact absurd (hold t' k ht') (by omega)
  · rw [List.getElem?_append] at hk
    split at hk
    case isTrue => exact .inr ⟨hk, by simp [hpc, ProducerPc.ticket?]⟩
    case isFalse hge =>
      obtain ⟨hlt, -⟩ := List.getElem?_eq_some_iff.mp hk
      exact .inl (congrArg some (by simp at hlt; omega))

theorem Inv.seeClear (hi : Inv s c) (h : s.Step (.seeClear t) s') : Inv s' c := by
  obtain ⟨i, k, hpc, hfree, rfl⟩ := h.seeClear
  have ht := hi.producer t
  rw [hpc] at ht
  exact { hi with
    producer := producer_update ⟨ht.1, ht.2.1, ht.2.2, hfree⟩
      fun t' _ => hi.producer t'
    distinct := hi.distinct_update fun k' hk' t' hne =>
      hi.distinct t t' k' hne.symm (by rw [hpc]; exact hk')
    pending := hi.pending_update fun k' hk' => hi.same_ticket hk' (by rw [hpc]; rfl) }

/-- Filling a slot disturbs no other producer: pending allocations are in different
slots. -/
theorem Inv.fill {m : Qemu2Sb T} (hi : Inv s c) (h : s.Step (.fill t m) s') : Inv s' c := by
  obtain ⟨i, k, hpc, rfl⟩ := h.fill
  have ht := hi.producer t
  rw [hpc] at ht
  obtain ⟨rfl, hlog, hlen, hfree⟩ := ht
  refine { hi with
    holds := hi.holds.fill q2sbSz_pos hfree
    producer := producer_update ?_ fun t' hne => ?_
    distinct := hi.distinct_update fun k' hk' t' hne =>
      hi.distinct t t' k' hne.symm (by rw [hpc]; exact hk')
    pending := hi.pending_update fun k' hk' => hi.same_ticket hk' (by rw [hpc]; rfl) }
  · exact ⟨rfl, hlog, hlen, by simpa using hfree, by simp [fillSlot_val]⟩
  · refine (hi.producer t').frame (fun i hi' hfree' => ?_) fun k' hk' hlog' =>
      ⟨hlog', ((hi.producer t').pending hk').2.2⟩
    have hne' : i ≠ k % q2sbSz := hi.owned_ne hne hi' (by rw [hpc]; rfl)
    simp [fillSlot_val, hne', hfree']

/-- **Publication** adds the message of the allocation to what is in the ring. -/
theorem Inv.publish (hi : Inv s c) (h : s.Step (.publish t) s') : Inv s' c := by
  obtain ⟨i, k, m, hpc, rfl⟩ := h.publish
  have ht := hi.producer t
  rw [hpc] at ht
  obtain ⟨rfl, hlog, hlen, hfree, hval⟩ := ht
  have hlt : k < s.log.length := (List.getElem?_eq_some_iff.mp hlog).1
  have hset : ∀ j a, (s.log.set k (some m))[j]? = some (some a) ↔
      s.log[j]? = some (some a) ∨ j = k ∧ a = m := by
    intro j a
    by_cases hj : j = k
    · subst hj
      simp [List.getElem?_set_self hlt, hlog, eq_comm]
    · simp [List.getElem?_set_ne (Ne.symm hj), hj]
  have hck : c ≤ k := hi.le_of_unpublished hlog
  have hlive := hi.holds.congr (fun _ => Iff.rfl) fun j a _ ha => (hset j a).mpr (.inl ha)
  refine {
    holds := (hlive.publish q2sbSz_pos hfree ((hset k _).mpr (.inr ⟨rfl, hval⟩))).congr ?_
      fun _ _ _ ha => ha
    le := by simpa using hi.le
    tail := by simp [hi.tail]
    producer := producer_update trivial fun t' hne => ?_
    distinct := hi.distinct_update fun k' hk' => by cases hk'
    pending := hi.pending_update fun j hj => ?_
    consumer := hi.consumer.frame (fun j a ha => (hset j a).mpr (.inl ha)) hi.le }
  · intro j
    simp only [Live, hset]
    constructor
    · rintro ⟨hcj, a, ha | ⟨rfl, rfl⟩⟩
      · exact .inl ⟨hcj, a, ha⟩
      · exact .inr rfl
    · rintro (⟨hcj, a, ha⟩ | rfl)
      · exact ⟨hcj, a, .inl ha⟩
      · exact ⟨hck, m, .inr ⟨rfl, rfl⟩⟩
  · refine (hi.producer t').frame (fun i hi' hfree' => ?_) fun k' hk' hlog' => ⟨?_, ?_⟩
    · have hne' : i ≠ k % q2sbSz := hi.owned_ne hne hi' (by rw [hpc]; rfl)
      simp [setReady_ready, hne', hfree']
    · have hkk : k ≠ k' := fun heq =>
        hi.distinct t t' k hne.symm (by rw [hpc]; rfl) (heq ▸ hk')
      rw [List.getElem?_set_ne hkk, hlog']
    · simpa using ((hi.producer t').pending hk').2.2

  · have hjk : j ≠ k := by
      rintro rfl
      simp [List.getElem?_set_self hlt] at hj
    rw [List.getElem?_set_ne hjk.symm] at hj
    refine .inr ⟨hj, ?_⟩
    rw [hpc]
    exact fun heq => hjk (Option.some.inj heq).symm

/-! ## steps of the consumer -/

theorem Inv.seeReady (hi : Inv s c) (h : s.Step .seeReady s') : Inv s' c := by
  obtain ⟨hpc, hready, rfl⟩ := h.seeReady
  have hcons := hi.consumer
  rw [hpc] at hcons
  exact { hi with consumer := ⟨hcons.1, hcons.2, hi.next hcons.2 hready⟩ }

/-- What is consumed is the next message. -/
theorem Inv.consume (hi : Inv s c) (h : s.Step .consume s') : Inv s' c := by
  obtain ⟨hpc, rfl⟩ := h.consume
  have hcons := hi.consumer
  rw [hpc] at hcons
  obtain ⟨hcons, hhead, m, hm⟩ := hcons
  have hval := hi.holds.val c ⟨Nat.le_refl c, m, hm⟩
  refine { hi with consumer := ⟨?_, hhead, m, hm⟩ }
  rw [List.map_append, hcons, List.take_add_one, hhead, hval]
  rfl

theorem Inv.clear (hi : Inv s c) (h : s.Step .clear s') : Inv s' (c + 1) := by
  obtain ⟨hpc, rfl⟩ := h.clear
  have hcons := hi.consumer
  rw [hpc] at hcons
  obtain ⟨hcons, hhead, m, hm⟩ := hcons
  rw [hhead]
  refine { hi with
    holds := (hi.holds.clear ⟨Nat.le_refl c, m, hm⟩).congr (fun k => ?_) fun _ _ _ ha => ha
    le := (List.getElem?_eq_some_iff.mp hm).1
    producer := fun t => (hi.producer t).frame (fun i _ hfree => ?_) fun k hk hlog =>
      ⟨hlog, ((hi.producer t).pending hk).2.2⟩
    consumer := ⟨hcons, c, rfl, rfl⟩ }
  · simp only [Live]
    constructor
    · rintro ⟨hle, hpub⟩
      exact ⟨⟨by omega, hpub⟩, by omega⟩
    · rintro ⟨⟨hle, hpub⟩, hne⟩
      exact ⟨by omega, hpub⟩
  · simp [setReady_ready, hfree]

theorem Inv.advanceHead (hi : Inv s c) (h : s.Step .advanceHead s') : Inv s' c := by
  obtain ⟨hpc, rfl⟩ := h.advanceHead
  have hcons := hi.consumer
  rw [hpc] at hcons
  obtain ⟨hcons, k, rfl, hhead⟩ := hcons
  exact { hi with consumer := ⟨hcons, add_one_mod_eq hhead⟩ }

/-! ## runs -/

/-- **Step lemma**: a step in time keeps the invariant. -/
theorem StepInTime.inv {a : Q2sbAct T} (h : s.StepInTime a s') (hi : ∃ c, Inv s c) :
    ∃ c, Inv s' c := by
  obtain ⟨c, hi⟩ := hi
  obtain ⟨hin, h⟩ := h
  cases a with
  | alloc t => exact ⟨c, hi.alloc hin h⟩
  | seeClear t => exact ⟨c, hi.seeClear h⟩
  | fill t m => exact ⟨c, hi.fill h⟩
  | publish t => exact ⟨c, hi.publish h⟩
  | seeReady => exact ⟨c, hi.seeReady h⟩
  | consume => exact ⟨c, hi.consume h⟩
  | clear => exact ⟨c + 1, hi.clear h⟩
  | advanceHead => exact ⟨c, hi.advanceHead h⟩

end Steps

theorem ConsumerInv.count {head : Nat} {consumed : List (Qemu2Sb T)}
    {log : List (Option (Qemu2Sb T))} {pc : ConsumerPc} (h : ConsumerInv head consumed log c pc)
    (hle : c ≤ log.length) : consumed.map some <+: log ∧ c ≤ consumed.length := by
  have htake : ∀ n, n ≤ log.length → consumed.map some = log.take n →
      consumed.map some <+: log ∧ n ≤ consumed.length := by
    intro n hn heq
    have hlen := congrArg List.length heq
    simp only [List.length_map, List.length_take, Nat.min_eq_left hn] at hlen
    exact ⟨heq ▸ List.take_prefix _ _, Nat.le_of_eq hlen.symm⟩
  cases pc with
  | polling => exact htake c hle h.1
  | seen => exact htake c hle h.1
  | consumed =>
      obtain ⟨hcons, -, m, hm⟩ := h
      obtain ⟨hpre, hlen⟩ := htake (c + 1) (List.getElem?_eq_some_iff.mp hm).1 hcons
      exact ⟨hpre, by omega⟩
  | cleared => exact htake c hle h.1

theorem Inv.slotsOwned (hi : Inv s c) : s.SlotsOwned where
  exclusive t t' i hne ht ht' := by
    obtain ⟨k, hk⟩ := ProducerPc.exists_ticket ht
    obtain ⟨k', hk'⟩ := ProducerPc.exists_ticket ht'
    have hslot := Option.some.inj (ht.symm.trans ((hi.producer t).pending hk).1)
    have hslot' := Option.some.inj (ht'.symm.trans ((hi.producer t').pending hk').1)
    exact hi.slot_ne hne hk hk' (hslot.symm.trans hslot')
  reserved t i ht := by
    have hpc := hi.producer t
    cases heq : s.producer t <;> rw [heq] at ht hpc <;> cases ht
    · exact hpc.2.2.2
    · exact hpc.2.2.2.1
  inOrder := (hi.consumer.count hi.le).1
  intact k m hk hle := by
    have hlive : Live s.log c k := ⟨Nat.le_trans (hi.consumer.count hi.le).2 hle, m, hk⟩
    have hval := hi.holds.val k hlive
    rw [hk] at hval
    exact ⟨hi.holds.ready q2sbSz_pos hlive, (Option.some.inj (Option.some.inj hval)).symm⟩

/-- The flag that the consumer has seen is still raised. -/
theorem Inv.seen_ready (hi : Inv s c) (hseen : s.consumer = .seen) :
    (s.slots s.q2sbHead).ready = true := by
  have hcons := hi.consumer
  rw [hseen] at hcons
  obtain ⟨-, hhead, m, hm⟩ := hcons
  rw [hhead]
  exact hi.holds.ready q2sbSz_pos ⟨Nat.le_refl c, m, hm⟩

section Runs

variable [DecidableEq T]

/-- An allocation that is not in time takes the slot of another producer. -/
theorem Inv.alloc_late (hi : Inv s c) (hlate : ¬ s.InTime) (h : s.Step (.alloc t) s') :
    ¬ s'.SlotsOwned := by
  unfold InTime at hlate
  push Not at hlate
  obtain ⟨t', k, hk, hle⟩ := hlate
  obtain ⟨hslot, -, hlen⟩ := (hi.producer t').pending hk
  obtain ⟨hpc, rfl⟩ := h.alloc
  have hne : t' ≠ t := by
    rintro rfl
    simp [hpc, ProducerPc.ticket?] at hk
  have htail : s.q2sbTail = k % q2sbSz := by
    rw [hi.tail, show s.log.length = k + q2sbSz by omega, Nat.add_mod_right]
  intro howned
  refine howned.exclusive t' t (k % q2sbSz) hne ?_ ?_
  · simpa only [Function.update_of_ne hne] using hslot
  · simp only [Function.update_self, ProducerPc.slot?, htail]

/-- **One owner for each slot, and every message consumed once and in order**, in every
run in which no producer is overtaken by a whole ring of allocations before it has
published; the allocation that overtakes one gives its slot away. -/
theorem slots_owned {s₀ : Q2sb T} {acts : List (Q2sbAct T)} (h0 : s₀.Init)
    (hrun : Run StepInTime s₀ acts s) :
    s.SlotsOwned ∧ ∀ t s', ¬ s.InTime → s.Step (.alloc t) s' → ¬ s'.SlotsOwned := by
  obtain ⟨c, hi⟩ := hrun.invariant (I := fun s => ∃ c, Inv s c) (fun _ _ _ hi h => h.inv hi)
    ⟨0, h0.inv⟩
  exact ⟨hi.slotsOwned, fun t s' hlate h => hi.alloc_late hlate h⟩

end Runs

/-- The ring at the start. -/
def start (T : Type) : Q2sb T :=
  { slots := fun _ => ⟨false, .int 0 0⟩
    q2sbTail := 0
    q2sbHead := 0
    producer := fun _ => .running
    consumer := .polling
    log := []
    consumed := [] }

theorem start_init : (start T).Init := ⟨fun _ => rfl, rfl, rfl, fun _ => rfl, rfl, rfl, rfl⟩

instance : ∀ (s : Q2sb Bool) (a : Q2sbAct Bool), Decidable (s.AllocInTime a)
  | s, .alloc _ =>
      inferInstanceAs (Decidable (∀ t, ∀ k ∈ (s.producer t).ticket?, s.log.length < k + q2sbSz))
  | _, .seeClear _ | _, .fill _ _ | _, .publish _ | _, .seeReady | _, .consume | _, .clear
  | _, .advanceHead => isTrue trivial

/-- Two producers, of which the second one publishes first. -/
def outOfOrder : List (Q2sbAct Bool) :=
  [.alloc true, .alloc false, .seeClear false, .fill false (.int 2 0), .publish false,
    .seeClear true, .fill true (.int 1 0), .publish true, .seeReady, .consume, .clear,
    .advanceHead, .seeReady, .consume]

theorem slots_owned_small :
    ∃ s, Run StepInTime (start Bool) outOfOrder s ∧ s.consumed = [.int 1 0, .int 2 0] ∧
      s.SlotsOwned := by
  have hends : (exec (allowed AllocInTime step?) outOfOrder (start Bool)).map (·.consumed) =
      some [.int 1 0, .int 2 0] := by decide +kernel
  obtain ⟨s, hs, hcons⟩ := Option.map_eq_some_iff.mp hends
  have hrun : Run StepInTime (start Bool) outOfOrder s := run_of_exec_allowed hs
  exact ⟨s, hrun, hcons, (slots_owned start_init hrun).1⟩

/-- A message of the second producer. -/
def sendOne : List (Q2sbAct Bool) :=
  [.alloc false, .seeClear false, .fill false (.int 2 0), .publish false]

/-- The first producer is late by a ring: it publishes the slot that the second one has
taken as well, and its message is overwritten before it is consumed. -/
def overtaken : List (Q2sbAct Bool) :=
  [.alloc true, .seeClear true] ++ (List.replicate 127 sendOne).flatten ++
    [.alloc false, .seeClear false, .fill true (.int 1 0), .publish true, .fill false (.int 3 0)]

theorem slots_not_owned :
    ∃ s, Run Step (start Bool) overtaken s ∧ s.consumed = [] ∧
      s.log[0]? = some (some (.int 1 0)) ∧ (s.slots 0).val = .int 3 0 ∧ ¬ s.SlotsOwned := by
  have hends : (exec step? overtaken (start Bool)).map
      (fun s => (s.consumed, s.log[0]?, (s.slots 0).val)) =
        some ([], some (some (.int 1 0)), .int 3 0) := by decide +kernel
  obtain ⟨s, hs, heq⟩ := Option.map_eq_some_iff.mp hends
  simp only [Prod.mk.injEq] at heq
  obtain ⟨hcons, hlog, hval⟩ := heq
  refine ⟨s, run_of_exec hs, hcons, hlog, hval, fun howned => ?_⟩
  have hintact := (howned.intact 0 (.int 1 0) hlog (by simp [hcons])).2
  rw [Nat.zero_mod, hval] at hintact
  cases hintact

end Q2sb

end Femu.Simbricks

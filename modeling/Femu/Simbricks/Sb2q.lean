import Mathlib.Algebra.Ring.Nat
import Femu.Lib.Ring
import Femu.Lib.Transition

/-!
# Femu.Simbricks.Sb2q

MMIO operations on their way from `simbricks_thread` to `qemu_main_thread`
(`mmio_read` and `mmio_write` of `wrapper-main.c`, `qemu_main_thread` of
`wrapper-qemu.c`). The tail belongs to the one thread and the head to the other; the
flags of the slots are all they share.

The layout of the messages of the host is not part of the repository; their fields
are natural numbers that the adapter narrows to the fields of its slots.
-/

namespace Femu.Simbricks

open Lib

/-- `SB2Q_SZ`. -/
def sb2qSz : Nat := 128

/-! ## operations -/

/-- What an MMIO operation asks for. -/
inductive MmioOp
  | read (bar offset len : Nat)
  | write (bar offset len : Nat) (data : List UInt8)
deriving DecidableEq

/-- An MMIO message of the host: `SimbricksProtoPcieH2DRead` or
`SimbricksProtoPcieH2DWrite` with the bytes behind it. -/
inductive H2DMmio
  | read (reqId bar offset len : Nat)
  | write (reqId bar offset len : Nat) (data : List UInt8)
deriving DecidableEq

def H2DMmio.op : H2DMmio → MmioOp
  | .read _ bar offset len => .read bar offset len
  | .write _ bar offset len data => .write bar offset len (data.take len)

/-- `struct sb2qemu`: the type with its member of the union. The data of a write are
the bytes of the `uint64_t`. -/
inductive Sb2Qemu
  | mmioRead (bar len addr reqId : Nat)
  | mmioWrite (bar len addr : Nat) (data : List UInt8)
deriving DecidableEq

def Sb2Qemu.op : Sb2Qemu → MmioOp
  | .mmioRead bar len addr _ => .read bar addr len
  | .mmioWrite bar len addr data => .write bar addr len (data.take len)

/-- The slot that `mmio_read` or `mmio_write` fills for a message, `none` when the
assertion about the length of a write fails. -/
def H2DMmio.slot : H2DMmio → Option Sb2Qemu
  | .read reqId bar offset len =>
      some (.mmioRead (bar % 2 ^ 8) (len % 2 ^ 8) (offset % 2 ^ 64) (reqId % 2 ^ 64))
  | .write _ bar offset len data =>
      if len ≤ 8 then
        -- `data = 0`, then `memcpy` of the bytes of the message
        some (.mmioWrite (bar % 2 ^ 8) (len % 2 ^ 8) (offset % 2 ^ 64)
          (data.take len ++ List.replicate (8 - len) 0))
      else none

/-- A message as the interface delivers it: its fields fit those of a slot, and a
write comes with its bytes. `mmio_read` stores the length in an `uint8_t` without a check, unlike
`mmio_write`: that a read of the host is shorter than 256 bytes is an assumption on the host. -/
def H2DMmio.Fits : H2DMmio → Prop
  | .read _ bar offset len => bar < 2 ^ 8 ∧ offset < 2 ^ 64 ∧ len < 2 ^ 8
  | .write _ bar offset len data => bar < 2 ^ 8 ∧ offset < 2 ^ 64 ∧ data.length = len

instance : DecidablePred H2DMmio.Fits
  | .read _ bar offset len => inferInstanceAs (Decidable (bar < 2 ^ 8 ∧ offset < 2 ^ 64 ∧ len < 2 ^ 8))
  | .write _ bar offset len data =>
      inferInstanceAs (Decidable (bar < 2 ^ 8 ∧ offset < 2 ^ 64 ∧ data.length = len))

/-- The bytes of a write past its length are zero. -/
def Sb2Qemu.UpperZero : Sb2Qemu → Prop
  | .mmioRead _ _ _ _ => True
  | .mmioWrite _ len _ data => data.drop len = List.replicate (8 - len) 0

/-- **An operation goes through its slot unchanged**, and its unused bytes are zero. -/
theorem H2DMmio.slot_spec {m : H2DMmio} {q : Sb2Qemu} (hm : m.Fits) (h : m.slot = some q) :
    q.op = m.op ∧ q.UpperZero := by
  cases m with
  | read reqId bar offset len =>
      obtain ⟨hbar, hoff, hlen⟩ := hm
      simp only [slot, Nat.mod_eq_of_lt hbar, Nat.mod_eq_of_lt hoff, Nat.mod_eq_of_lt hlen,
        Option.some.injEq] at h
      subst h
      exact ⟨rfl, trivial⟩
  | write reqId bar offset len data =>
      obtain ⟨hbar, hoff, rfl⟩ := hm
      simp only [slot] at h
      split at h
      case isFalse => cases h
      case isTrue hle =>
        have hlen : data.length < 2 ^ 8 := by omega
        simp only [Nat.mod_eq_of_lt hbar, Nat.mod_eq_of_lt hoff, Nat.mod_eq_of_lt hlen,
          Option.some.injEq] at h
        subst h
        exact ⟨by simp [Sb2Qemu.op, op], by simp [Sb2Qemu.UpperZero]⟩

/-! ## the two threads -/

/-- Where `simbricks_thread` is in the delivery of an operation. -/
inductive SbPc
  | polling
  /-- in `while (sb2q->ready)` -/
  | waiting (m : H2DMmio)
  | filling (m : H2DMmio)
  | filled
  | published
deriving DecidableEq

/-- Where `qemu_main_thread` is in the execution of an operation. -/
inductive MainPc
  | polling
  | executing
  | executed
  | cleared
deriving DecidableEq

/-- `sb2q_q` with the tail of the one thread and the head of the other. The last two
fields record what has been received and what has been executed. -/
structure Sb2q where
  slots : Nat → Slot Sb2Qemu
  sb2qTail : Nat
  sb2qHead : Nat
  sb : SbPc
  main : MainPc
  received : List H2DMmio
  executed : List Sb2Qemu

inductive Sb2qAct
  /-- `simbricks_thread` takes an MMIO message -/
  | receive (m : H2DMmio)
  | seeFree
  | fill
  | raise
  | advanceTail
  /-- `qemu_main_thread` finds `sb2q->ready` -/
  | seeReady
  | execute
  | clear
  | advanceHead

namespace Sb2q

/-- The next step of one of the threads, `none` where it cannot be taken. -/
def step? (s : Sb2q) : Sb2qAct → Option Sb2q
  | .receive m =>
      match s.sb with
      | .polling => some { s with sb := .waiting m, received := s.received ++ [m] }
      | _ => none
  | .seeFree =>
      match s.sb with
      | .waiting m => if (s.slots s.sb2qTail).ready then none else some { s with sb := .filling m }
      | _ => none
  | .fill =>
      match s.sb with
      | .filling m => m.slot.map fun q =>
          { s with sb := .filled, slots := fillSlot s.slots s.sb2qTail q }
      | _ => none
  | .raise =>
      match s.sb with
      | .filled => some { s with sb := .published, slots := setReady s.slots s.sb2qTail true }
      | _ => none
  | .advanceTail =>
      match s.sb with
      | .published => some { s with sb := .polling, sb2qTail := (s.sb2qTail + 1) % sb2qSz }
      | _ => none
  | .seeReady =>
      match s.main with
      | .polling => if (s.slots s.sb2qHead).ready then some { s with main := .executing } else none
      | _ => none
  | .execute =>
      match s.main with
      | .executing => some { s with
          main := .executed
          executed := s.executed ++ [(s.slots s.sb2qHead).val] }
      | _ => none
  | .clear =>
      match s.main with
      | .executed => some { s with main := .cleared, slots := setReady s.slots s.sb2qHead false }
      | _ => none
  | .advanceHead =>
      match s.main with
      | .cleared => some { s with main := .polling, sb2qHead := (s.sb2qHead + 1) % sb2qSz }
      | _ => none

def Step (s : Sb2q) (a : Sb2qAct) (s' : Sb2q) : Prop := s.step? a = some s'

/-- The ring before the threads start: every flag is down. -/
structure Init (s : Sb2q) : Prop where
  slots : ∀ i, (s.slots i).ready = false
  tail : s.sb2qTail = 0
  head : s.sb2qHead = 0
  sb : s.sb = .polling
  main : s.main = .polling
  received : s.received = []
  executed : s.executed = []

/-- A producer that waits has taken a message, and no step but its own raises the flag
it waits for. -/
theorem Step.waiting {s s' : Sb2q} {a : Sb2qAct} {m : H2DMmio} (h : s.Step a s')
    (hw : s'.sb = .waiting m) :
    s'.sb2qTail = s.sb2qTail ∧
      ((s.slots s.sb2qTail).ready = false → (s'.slots s'.sb2qTail).ready = false) ∧
      (a = .receive m ∨ s.sb = .waiting m) := by
  unfold Step step? at h
  cases a
  case clear =>
    simp only at h
    split at h
    case h_2 => cases h
    case h_1 =>
      cases h
      exact ⟨rfl, fun hfree => by simp [setReady_ready, hfree], .inr hw⟩
  all_goals grind [Option.map_eq_some_iff]

/-! ## the window of operations in flight -/

/-- The messages have been put into the entries `sent`. -/
def Delivered (ms : List H2DMmio) (sent : List Sb2Qemu) : Prop :=
  ms.map H2DMmio.slot = sent.map some

theorem Delivered.snoc {ms : List H2DMmio} {sent : List Sb2Qemu} {m : H2DMmio} {q : Sb2Qemu}
    (h : Delivered ms sent) (hq : m.slot = some q) : Delivered (ms ++ [m]) (sent ++ [q]) := by
  unfold Delivered at h ⊢
  simp [h, hq]

/-- Messages that fit are the operations that were asked for. -/
theorem Delivered.op {ms : List H2DMmio} {sent : List Sb2Qemu} (h : Delivered ms sent)
    (hfit : ∀ m ∈ ms, m.Fits) :
    sent.map Sb2Qemu.op = ms.map H2DMmio.op ∧ ∀ q ∈ sent, q.UpperZero := by
  induction ms generalizing sent with
  | nil =>
      obtain rfl : sent = [] := by simpa [Delivered] using h.symm
      simp
  | cons m ms ih =>
      obtain ⟨q, sent, rfl⟩ : ∃ q rest, sent = q :: rest := by
        cases sent with
        | nil => simp [Delivered] at h
        | cons q rest => exact ⟨q, rest, rfl⟩
      simp only [Delivered, List.map_cons, List.cons.injEq] at h
      obtain ⟨hop, hzero⟩ := H2DMmio.slot_spec (hfit m (by simp)) h.1
      obtain ⟨hops, hzeros⟩ := ih h.2 fun m' hm' => hfit m' (by simp [hm'])
      simpa [hop, hops, hzero] using hzeros

/-- The share of the producer: entry `sent.length` is the next one, and it is being
prepared in the slot at the tail. -/
def SbInv (slots : Nat → Slot Sb2Qemu) (tail : Nat) (received : List H2DMmio)
    (sent : List Sb2Qemu) : SbPc → Prop
  | .polling => Delivered received sent ∧ tail = sent.length % sb2qSz
  | .waiting m => ∃ ms, received = ms ++ [m] ∧ Delivered ms sent ∧ tail = sent.length % sb2qSz
  | .filling m => ∃ ms, received = ms ++ [m] ∧ Delivered ms sent ∧
      tail = sent.length % sb2qSz ∧ (slots tail).ready = false
  | .filled => ∃ ms m, received = ms ++ [m] ∧ Delivered ms sent ∧
      tail = sent.length % sb2qSz ∧ (slots tail).ready = false ∧ m.slot = some (slots tail).val
  | .published => Delivered received sent ∧ ∃ t, sent.length = t + 1 ∧ tail = t % sb2qSz

/-- The share of the consumer: the first `c` entries have been cleared. -/
def MainInv (head : Nat) (executed sent : List Sb2Qemu) (c : Nat) : MainPc → Prop
  | .polling => executed = sent.take c ∧ head = c % sb2qSz
  | .executing => executed = sent.take c ∧ head = c % sb2qSz ∧ c < sent.length
  | .executed => executed = sent.take (c + 1) ∧ head = c % sb2qSz ∧ c < sent.length
  | .cleared => executed = sent.take c ∧ ∃ h, c = h + 1 ∧ head = h % sb2qSz

/-- Entries `c` to `sent.length` are in the ring. -/
structure Window (s : Sb2q) (sent : List Sb2Qemu) (c : Nat) : Prop where
  holds : Holds sb2qSz s.slots (fun k => c ≤ k ∧ k < sent.length) (fun k q => sent[k]? = some q)
  le : c ≤ sent.length
  sb : SbInv s.slots s.sb2qTail s.received sent s.sb
  main : MainInv s.sb2qHead s.executed sent c s.main

variable {s s' : Sb2q} {sent : List Sb2Qemu} {c : Nat}

theorem sb2qSz_pos : 0 < sb2qSz := by decide

theorem Init.window (h : Init s) : Window s [] 0 where
  holds := .empty h.slots fun k hk => absurd hk.2 (Nat.not_lt_zero k)
  le := Nat.le_refl 0
  sb := by simp [SbInv, h.sb, h.received, h.tail, Delivered]
  main := by simp [MainInv, h.main, h.executed, h.head]

/-- The consumer is not affected by later entries. -/
theorem MainInv.append {head : Nat} {executed : List Sb2Qemu} {pc : MainPc}
    (h : MainInv head executed sent c pc) (hle : c ≤ sent.length) (q : Sb2Qemu) :
    MainInv head executed (sent ++ [q]) c pc := by
  have htake : ∀ n, n ≤ sent.length → (sent ++ [q]).take n = sent.take n :=
    fun n hn => List.take_append_of_le_length hn
  have hlen : (sent ++ [q]).length = sent.length + 1 := by simp
  cases pc with
  | polling => simpa only [MainInv, htake c hle] using h
  | executing =>
      obtain ⟨hexec, hhead, hlt⟩ := h
      exact ⟨by rw [hexec, htake c hle], hhead, by omega⟩
  | executed =>
      obtain ⟨hexec, hhead, hlt⟩ := h
      exact ⟨by rw [hexec, htake _ hlt], hhead, by omega⟩
  | cleared => simpa only [MainInv, htake c hle] using h

/-- The producer is not affected by flags that are cleared. -/
theorem SbInv.clear {slots : Nat → Slot Sb2Qemu} {tail : Nat} {received : List H2DMmio}
    {pc : SbPc} (h : SbInv slots tail received sent pc) (i : Nat) :
    SbInv (setReady slots i false) tail received sent pc := by
  cases pc with
  | polling => exact h
  | waiting m => exact h
  | filling m =>
      obtain ⟨ms, hrec, hdel, htail, hfree⟩ := h
      exact ⟨ms, hrec, hdel, htail, by simp [setReady_ready, hfree]⟩
  | filled =>
      obtain ⟨ms, m, hrec, hdel, htail, hfree, hval⟩ := h
      exact ⟨ms, m, hrec, hdel, htail, by simp [setReady_ready, hfree], by simpa using hval⟩
  | published => exact h

/-! ## steps of the producer -/

theorem Window.receive {m : H2DMmio} (hw : Window s sent c) (h : s.Step (.receive m) s') :
    Window s' sent c := by
  obtain ⟨slots, tail, head, sb, main, received, executed⟩ := s
  cases sb <;> simp [Step, step?] at h
  subst h
  exact { hw with sb := ⟨received, rfl, hw.sb⟩ }

theorem Window.seeFree (hw : Window s sent c) (h : s.Step .seeFree s') : Window s' sent c := by
  obtain ⟨slots, tail, head, sb, main, received, executed⟩ := s
  cases sb <;> simp [Step, step?] at h
  obtain ⟨hfree, rfl⟩ := h
  obtain ⟨ms, hrec, hdel, htail⟩ := hw.sb
  exact { hw with sb := ⟨ms, hrec, hdel, htail, hfree⟩ }

theorem Window.fill (hw : Window s sent c) (h : s.Step .fill s') : Window s' sent c := by
  obtain ⟨slots, tail, head, sb, main, received, executed⟩ := s
  cases sb <;> simp [Step, step?] at h
  case filling m =>
    obtain ⟨q, hq, rfl⟩ := h
    obtain ⟨ms, hrec, hdel, rfl, hfree⟩ := hw.sb
    exact { hw with
      holds := hw.holds.fill sb2qSz_pos hfree
      sb := ⟨ms, m, hrec, hdel, rfl, by simpa using hfree, by simpa [fillSlot_val] using hq⟩ }

/-- Raising the flag adds the entry that has been prepared. -/
theorem Window.raise (hw : Window s sent c) (h : s.Step .raise s') :
    ∃ q, Window s' (sent ++ [q]) c := by
  obtain ⟨slots, tail, head, sb, main, received, executed⟩ := s
  cases sb <;> simp [Step, step?] at h
  subst h
  obtain ⟨ms, m, rfl, hdel, rfl, hfree, hval⟩ := hw.sb
  let q := (slots (sent.length % sb2qSz)).val
  have hlive := hw.holds.congr (Q := fun k a => (sent ++ [q])[k]? = some a) (fun _ => Iff.rfl)
    fun k a hk ha => by rw [List.getElem?_append_left hk.2, ha]
  have hle : c ≤ sent.length := hw.le
  refine ⟨q, { holds := ?_, le := by simp; omega, sb := ?_, main := hw.main.append hle q }⟩
  · refine (hlive.publish sb2qSz_pos hfree (by simp [q])).congr ?_ fun _ _ _ ha => ha
    intro k
    simp only [List.length_append, List.length_singleton]
    omega
  · exact ⟨hdel.snoc hval, sent.length, by simp, rfl⟩

theorem Window.advanceTail (hw : Window s sent c) (h : s.Step .advanceTail s') :
    Window s' sent c := by
  obtain ⟨slots, tail, head, sb, main, received, executed⟩ := s
  cases sb <;> simp [Step, step?] at h
  subst h
  obtain ⟨hdel, t, hlen, htail⟩ := hw.sb
  exact { hw with sb := ⟨hdel, by rw [hlen, add_one_mod_eq htail]⟩ }

/-! ## steps of the consumer -/

/-- A raised flag at the head is that of the next entry. -/
theorem Window.next (hw : Window s sent c) (hhead : s.sb2qHead = c % sb2qSz)
    (hr : (s.slots s.sb2qHead).ready = true) : c < sent.length := by
  rw [hhead] at hr
  obtain ⟨j, ⟨hcj, hj⟩, -⟩ := hw.holds.exists_live sb2qSz_pos hr
  omega

theorem Window.seeReady (hw : Window s sent c) (h : s.Step .seeReady s') : Window s' sent c := by
  have hnext := hw.next
  obtain ⟨slots, tail, head, sb, main, received, executed⟩ := s
  cases main <;> simp [Step, step?] at h
  obtain ⟨hready, rfl⟩ := h
  obtain ⟨hexec, hhead⟩ := hw.main
  exact { hw with main := ⟨hexec, hhead, hnext hhead hready⟩ }

/-- What is executed is the next entry. -/
theorem Window.execute (hw : Window s sent c) (h : s.Step .execute s') : Window s' sent c := by
  obtain ⟨slots, tail, head, sb, main, received, executed⟩ := s
  cases main <;> simp [Step, step?] at h
  subst h
  obtain ⟨rfl, rfl, hlt⟩ := hw.main
  have hval := hw.holds.val c ⟨Nat.le_refl c, hlt⟩
  exact { hw with main := ⟨by rw [List.take_add_one, hval]; rfl, rfl, hlt⟩ }

theorem Window.clear (hw : Window s sent c) (h : s.Step .clear s') : Window s' sent (c + 1) := by
  obtain ⟨slots, tail, head, sb, main, received, executed⟩ := s
  cases main <;> simp [Step, step?] at h
  subst h
  obtain ⟨hexec, rfl, hlt⟩ := hw.main
  exact {
    holds := (hw.holds.clear ⟨Nat.le_refl c, hlt⟩).congr (by intro k; omega) fun _ _ _ ha => ha
    le := hlt
    sb := hw.sb.clear _
    main := ⟨hexec, c, rfl, rfl⟩ }

theorem Window.advanceHead (hw : Window s sent c) (h : s.Step .advanceHead s') :
    Window s' sent c := by
  obtain ⟨slots, tail, head, sb, main, received, executed⟩ := s
  cases main <;> simp [Step, step?] at h
  subst h
  obtain ⟨hexec, k, rfl, hhead⟩ := hw.main
  exact { hw with main := ⟨hexec, add_one_mod_eq hhead⟩ }

/-! ## runs -/

/-- **Step lemma**: every step leaves a window of entries in the ring. -/
theorem Step.window {a : Sb2qAct} (h : s.Step a s') (hw : ∃ sent c, Window s sent c) :
    ∃ sent c, Window s' sent c := by
  obtain ⟨sent, c, hw⟩ := hw
  cases a with
  | receive m => exact ⟨sent, c, hw.receive h⟩
  | seeFree => exact ⟨sent, c, hw.seeFree h⟩
  | fill => exact ⟨sent, c, hw.fill h⟩
  | raise =>
      obtain ⟨q, hq⟩ := hw.raise h
      exact ⟨sent ++ [q], c, hq⟩
  | advanceTail => exact ⟨sent, c, hw.advanceTail h⟩
  | seeReady => exact ⟨sent, c, hw.seeReady h⟩
  | execute => exact ⟨sent, c, hw.execute h⟩
  | clear => exact ⟨sent, c + 1, hw.clear h⟩
  | advanceHead => exact ⟨sent, c, hw.advanceHead h⟩

/-- What has been executed are the first entries. -/
theorem Window.executed_prefix (hw : Window s sent c) : s.executed <+: sent := by
  have hmain := hw.main
  cases hpc : s.main <;> rw [hpc] at hmain <;> exact hmain.1 ▸ List.take_prefix _ _

/-- The entries are those of the first messages received. -/
theorem Window.delivered_prefix (hw : Window s sent c) :
    ∃ ms, ms <+: s.received ∧ Delivered ms sent := by
  have hsb := hw.sb
  cases hpc : s.sb with
  | polling =>
      rw [hpc] at hsb
      exact ⟨_, List.prefix_refl _, hsb.1⟩
  | published =>
      rw [hpc] at hsb
      exact ⟨_, List.prefix_refl _, hsb.1⟩
  | waiting m =>
      rw [hpc] at hsb
      obtain ⟨ms, hrec, hdel, -⟩ := hsb
      exact ⟨ms, hrec ▸ List.prefix_append _ _, hdel⟩
  | filling m =>
      rw [hpc] at hsb
      obtain ⟨ms, hrec, hdel, -⟩ := hsb
      exact ⟨ms, hrec ▸ List.prefix_append _ _, hdel⟩
  | filled =>
      rw [hpc] at hsb
      obtain ⟨ms, m, hrec, hdel, -⟩ := hsb
      exact ⟨ms, hrec ▸ List.prefix_append _ _, hdel⟩

/-- Both threads are polling and no operation is in the ring. -/
structure Idle (s : Sb2q) : Prop where
  sb : s.sb = .polling
  main : s.main = .polling
  slots : ∀ i < sb2qSz, (s.slots i).ready = false

theorem Window.idle (hw : Window s sent c) (hs : s.Idle) :
    Delivered s.received sent ∧ s.executed = sent := by
  have hsb := hw.sb
  have hmain := hw.main
  rw [hs.sb] at hsb
  rw [hs.main] at hmain
  have hc : sent.length ≤ c := by
    by_contra hlt
    have hready := hw.holds.ready sb2qSz_pos (k := c) ⟨Nat.le_refl c, by omega⟩
    rw [hs.slots _ (Nat.mod_lt _ sb2qSz_pos)] at hready
    exact Bool.false_ne_true hready
  exact ⟨hsb.1, by rw [hmain.1, List.take_of_length_le hc]⟩

/-- What a window says about the operations themselves. -/
theorem Window.fifo (hw : Window s sent c) (hfit : ∀ m ∈ s.received, m.Fits) :
    s.executed.map Sb2Qemu.op <+: s.received.map H2DMmio.op ∧
      (∀ q ∈ s.executed, q.UpperZero) ∧
      (s.Idle → s.executed.map Sb2Qemu.op = s.received.map H2DMmio.op) := by
  obtain ⟨ms, hms, hdel⟩ := hw.delivered_prefix
  obtain ⟨hop, hzero⟩ := hdel.op fun m hm => hfit m (hms.mem hm)
  have hexec : s.executed.map Sb2Qemu.op <+: ms.map H2DMmio.op := hop ▸ hw.executed_prefix.map _
  refine ⟨hexec.trans (hms.map _), fun q hq => hzero q (hw.executed_prefix.mem hq), ?_⟩
  intro hidle
  obtain ⟨hall, hexec⟩ := hw.idle hidle
  rw [hexec, (hall.op hfit).1]

/-- **Run lemma**: every state reached has a window of entries in the ring. -/
theorem Init.window_of_run {s₀ : Sb2q} {acts : List Sb2qAct} (h0 : s₀.Init)
    (hrun : Run Step s₀ acts s) : ∃ sent c, Window s sent c :=
  hrun.invariant (I := fun s => ∃ sent c, Window s sent c) (fun _ _ _ hw h => h.window hw)
    ⟨[], 0, h0.window⟩

/-- **MMIO operations are executed in the order in which they are received**, each of
them once and none of them lost, for every interleaving of the two threads: what has
been executed is a prefix of what has been received, all of it when nothing is in the
ring, and the unused bytes of a write are zero. -/
theorem mmio_fifo {s₀ : Sb2q} {acts : List Sb2qAct} (h0 : s₀.Init) (hrun : Run Step s₀ acts s)
    (hfit : ∀ m ∈ s.received, m.Fits) :
    s.executed.map Sb2Qemu.op <+: s.received.map H2DMmio.op ∧
      (∀ q ∈ s.executed, q.UpperZero) ∧
      (s.Idle → s.executed.map Sb2Qemu.op = s.received.map H2DMmio.op) := by
  obtain ⟨sent, c, hw⟩ := h0.window_of_run hrun
  exact hw.fifo hfit

/-- The ring at the start. -/
def start : Sb2q :=
  { slots := fun _ => ⟨false, .mmioRead 0 0 0 0⟩
    sb2qTail := 0
    sb2qHead := 0
    sb := .polling
    main := .polling
    received := []
    executed := [] }

theorem start_init : start.Init := ⟨fun _ => rfl, rfl, rfl, rfl, rfl, rfl, rfl⟩

/-- A read and a write of three bytes, the read executed while the write arrives. -/
def readThenWrite : List Sb2qAct :=
  [.receive (.read 7 0 4096 4), .seeFree, .fill, .raise, .seeReady, .advanceTail,
    .receive (.write 8 0 4104 3 [1, 2, 3]), .execute, .seeFree, .clear, .fill, .advanceHead,
    .raise, .seeReady, .execute]

theorem mmio_fifo_small :
    ∃ s, Run Step start readThenWrite s ∧ s.executed.length = 2 ∧
      s.executed.map Sb2Qemu.op <+: s.received.map H2DMmio.op := by
  have hends : (exec step? readThenWrite start).map (fun s => (s.executed.length, s.received)) =
      some (2, [.read 7 0 4096 4, .write 8 0 4104 3 [1, 2, 3]]) := by decide +kernel
  obtain ⟨s, hs, heq⟩ := Option.map_eq_some_iff.mp hends
  obtain ⟨hlen, hrec⟩ := Prod.mk.inj heq
  have hrun : Run Step start readThenWrite s := run_of_exec hs
  have hfit : ∀ m ∈ s.received, m.Fits := by
    rw [hrec]
    decide
  exact ⟨s, hrun, hlen, (mmio_fifo start_init hrun hfit).1⟩

end Sb2q

end Femu.Simbricks

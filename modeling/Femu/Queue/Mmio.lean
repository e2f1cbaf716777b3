import Mathlib.Data.Nat.Log
import Femu.Queue.Controller

/-!
# Femu.Queue.Mmio

The writes to the doorbells (`nvme_mmio_write`, `nvme_process_db_admin` and
`nvme_process_db_io` of `femu.c`). The doorbells lie from `0x1000` on, one in every
`4 << db_stride` bytes, by turns the tail of a submission queue and the head of a completion
queue.

The window of the admin doorbells is the one of stride 0: with a longer stride its second
half is decoded as the first doorbell again. The other doorbells have to be aligned as
addresses of the BAR, which with the two longest strides none of them is.
-/

namespace Femu.Queue

open Nvme Lib

/-! ## data model -/

/-- `NVME_MAX_QS`, the limit of MSI-X. -/
def nvmeMaxQs : Nat := 0x7ff

/-- The configuration with the number of queues that `nvme_check_constraints` lets through. -/
structure MmioCfg extends CtrlCfg where
  queues_pos : 1 ≤ numIoQueues
  queues_le : numIoQueues ≤ nvmeMaxQs

/-- `n->reg_size`: the size of the BAR. -/
def MmioCfg.regSize (n : MmioCfg) : Nat := 2 ^ Nat.clog 2 (0x1004 + 2 * (n.numIoQueues + 1) * 4)

/-- What is called once a doorbell is taken. -/
inductive MmioCall
  | isrNotifyAdmin (cqid : Nat)
  | isrNotifyIo (cqid : Nat)
  | processSqAdmin (sqid : Nat)
deriving DecidableEq

/-! ## nvme_mmio_write -/

/-- `sizeof(n->bar)`. -/
def barSize : Nat := 0x40

/-- The value of an expression stored in a `uint32_t`. -/
def u32 (x : Nat) : Nat := x % 2 ^ 32

/-- The number of the completion queue, as both functions compute it. -/
def dbCqid (n : DbCfg) (addr : Nat) : Nat :=
  u32 ((addr - (0x1000 + 2 ^ (2 + n.dbStride))) >>> (3 + n.dbStride))

/-- The number of the submission queue, as both functions compute it. -/
def dbSqid (n : DbCfg) (addr : Nat) : Nat := u32 ((addr - 0x1000) >>> (3 + n.dbStride))

/-- The doorbell is one of a completion queue. -/
def DbIsCq (n : DbCfg) (addr : Nat) : Prop := ((addr - 0x1000) >>> (2 + n.dbStride)) &&& 1 ≠ 0

instance (n : DbCfg) (addr : Nat) : Decidable (DbIsCq n addr) := inferInstanceAs (Decidable (_ ≠ _))

def nvmeProcessDbAdmin (n : MmioCfg) (s : FemuCtrl) (addr : Nat) (val : UInt64) :
    Option (FemuCtrl × List MmioCall) :=
  let newVal := u16 val.toNat
  if DbIsCq n.toDbCfg addr then
    let qid := dbCqid n.toDbCfg addr
    if ¬ checkCqid n.toQueueCfg s.toQueueCtrl (u16 qid) then some (s, [])
    else (s.cq qid).map fun cq =>
      if newVal ≥ cq.size then (s, [])
      else
        let cq := { cq with head := newVal }
        ({ s with toQueueCtrl := s.setCq qid (some cq) },
          if cq.tail ≠ cq.head then [.isrNotifyAdmin qid] else [])
  else
    let qid := dbSqid n.toDbCfg addr
    if ¬ checkSqid n.toQueueCfg s.toQueueCtrl (u16 qid) then some (s, [])
    else (s.sq qid).map fun sq =>
      if newVal ≥ sq.size then (s, [])
      else ({ s with toQueueCtrl := s.setSq qid (some { sq with tail := newVal }) },
        [.processSqAdmin qid])

def nvmeProcessDbIo (n : MmioCfg) (s : FemuCtrl) (addr : Nat) (val : UInt64) :
    Option (FemuCtrl × List MmioCall) :=
  let newVal := u16 val.toNat
  if s.dataplaneStarted then some (s, [])
  else if addr &&& (2 ^ (2 + n.dbStride) - 1) ≠ 0 then some (s, [])
  else if DbIsCq n.toDbCfg addr then
    let qid := dbCqid n.toDbCfg addr
    if ¬ checkCqid n.toQueueCfg s.toQueueCtrl (u16 qid) then some (s, [])
    else (s.cq qid).map fun cq =>
      if newVal ≥ cq.size then (s, [])
      else
        let cq := if (s.cqDb qid).dbAddr = 0 then { cq with head := newVal } else cq
        ({ s with toQueueCtrl := s.setCq qid (some cq) },
          if cq.tail ≠ cq.head then [.isrNotifyIo qid] else [])
  else
    let qid := dbSqid n.toDbCfg addr
    if ¬ checkSqid n.toQueueCfg s.toQueueCtrl (u16 qid) then some (s, [])
    else (s.sq qid).map fun sq =>
      if newVal ≥ sq.size then (s, [])
      else
        let sq := if (s.sqDb qid).dbAddr = 0 then { sq with tail := newVal } else sq
        ({ s with toQueueCtrl := s.setSq qid (some sq) }, [])

def nvmeMmioWrite (n : MmioCfg) (s : FemuCtrl) (addr : Nat) (data : UInt64) :
    Option (FemuCtrl × List MmioCall) :=
  if addr < barSize then (nvmeWriteBar n.toCtrlCfg s addr data).map fun s => (s, [])
  else if addr ≥ 0x1000 ∧ addr < 0x1008 then nvmeProcessDbAdmin n s addr data
  else nvmeProcessDbIo n s addr data

/-! ## doorbells by their number -/

variable {n : MmioCfg} {s : FemuCtrl} {t : QueueCtrl} {addr j k k' v v' : Nat} {data : UInt64}

/-- The address of doorbell `k`: the tail of submission queue `k / 2` for an even number, the
head of completion queue `k / 2` for an odd one. -/
def MmioCfg.bellAddr (n : MmioCfg) (k : Nat) : Nat := 0x1000 + k * n.dbbufEntrySz

/-- The size of the queue of doorbell `k`, and the value that it has. -/
def bellQueue (s : QueueCtrl) (k : Nat) : Option (Nat × Nat) :=
  if k % 2 = 1 then (s.cq (k / 2)).map fun c => (c.size, c.head)
  else (s.sq (k / 2)).map fun q => (q.size, q.tail)

/-- The queue of doorbell `k` takes the value. -/
def ringBell (s : QueueCtrl) (k v : Nat) : QueueCtrl :=
  if k % 2 = 1 then s.setCq (k / 2) ((s.cq (k / 2)).map fun c => { c with head := v })
  else s.setSq (k / 2) ((s.sq (k / 2)).map fun q => { q with tail := v })

/-- The queue of doorbell `k` exists, the value is below its size and a new one. -/
def Accepts (n : MmioCfg) (s : FemuCtrl) (k v : Nat) : Prop :=
  k / 2 ≤ n.numIoQueues ∧ ∃ b ∈ bellQueue s.toQueueCtrl k, v < b.1 ∧ b.2 ≠ v

instance : Decidable (Accepts n s k v) := inferInstanceAs (Decidable (_ ∧ _))

/-- The queue of doorbell `k` has a shadow doorbell. -/
def Shadowed (s : FemuCtrl) (k : Nat) : Prop :=
  (if k % 2 = 1 then s.cqDb (k / 2) else s.sqDb (k / 2)).dbAddr ≠ 0

instance : Decidable (Shadowed s k) := inferInstanceAs (Decidable (_ ≠ _))

/-- The tables after a write of `v` to doorbell `k`. -/
def rung (n : MmioCfg) (s : FemuCtrl) (k v : Nat) : QueueCtrl :=
  if Accepts n s k v then ringBell s.toQueueCtrl k v else s.toQueueCtrl

theorem bellQueue_ringBell (u : QueueCtrl) : bellQueue (ringBell u k v) j =
    if j = k then (bellQueue u k).map fun b => (b.1, v) else bellQueue u j := by
  unfold bellQueue ringBell
  by_cases hk : k % 2 = 1
  case pos =>
    by_cases hj : j % 2 = 1
    case pos =>
      have hjk : j / 2 = k / 2 ↔ j = k := by omega
      simp only [hk, hj, if_true, QueueCtrl.setCq_cq_apply, hjk]
      split <;> simp [Function.comp_def]
    case neg =>
      have hne : j ≠ k := by
        rintro rfl
        exact hj hk
      simp [hk, hj, hne]
  case neg =>
    by_cases hj : j % 2 = 1
    case pos =>
      have hne : j ≠ k := by
        rintro rfl
        exact hk hj
      simp [hk, hj, hne]
    case neg =>
      have hjk : j / 2 = k / 2 ↔ j = k := by omega
      simp only [hk, hj, if_false, QueueCtrl.setSq_sq_apply, hjk]
      split <;> simp [Function.comp_def]

/-- A doorbell that takes a value has it afterwards, and no other one has changed. -/
theorem bellQueue_rung : bellQueue (rung n s k v) j =
    if Accepts n s k v ∧ j = k then (bellQueue s.toQueueCtrl k).map fun b => (b.1, v)
    else bellQueue s.toQueueCtrl j := by
  unfold rung
  by_cases h : Accepts n s k v <;> simp [h, bellQueue_ringBell]

theorem SameTables.bellQueue_eq {u u' : QueueCtrl} (h : SameTables u u') :
    bellQueue u' k = bellQueue u k := by
  unfold bellQueue
  rw [h.1, h.2]

theorem sameTables_comm {u u' : QueueCtrl} : SameTables u u' ↔ SameTables u' u :=
  ⟨fun h => ⟨h.1.symm, h.2.symm⟩, fun h => ⟨h.1.symm, h.2.symm⟩⟩

theorem rung_of_refused (h : ¬ Accepts n s k v) : rung n s k v = s.toQueueCtrl := if_neg h

theorem Accepts.changed (h : Accepts n s k v) :
    bellQueue (rung n s k v) k ≠ bellQueue s.toQueueCtrl k := by
  obtain ⟨-, b, hb, -, hne⟩ := id h
  rw [bellQueue_rung, if_pos ⟨h, rfl⟩, Option.mem_def.mp hb]
  exact fun heq => hne (congrArg Prod.snd (Option.some.inj heq)).symm

theorem sameTables_rung_self : SameTables s.toQueueCtrl (rung n s k v) ↔ ¬ Accepts n s k v := by
  constructor
  · intro hsame h
    exact h.changed hsame.bellQueue_eq
  · intro h
    rw [rung_of_refused h]
    exact ⟨rfl, rfl⟩

/-- Two writes have one effect when neither is taken or they are the same. -/
theorem sameTables_rung_iff : SameTables (rung n s k v) (rung n s k' v') ↔
    ¬ Accepts n s k v ∧ ¬ Accepts n s k' v' ∨ k = k' ∧ v = v' := by
  constructor
  · intro hsame
    by_cases h : Accepts n s k v
    case neg =>
      rw [rung_of_refused h] at hsame
      exact .inl ⟨h, sameTables_rung_self.mp hsame⟩
    case pos =>
      have hk := hsame.bellQueue_eq (k := k)
      have hch := h.changed
      rw [← hk, bellQueue_rung] at hch
      split at hch
      case isFalse => exact absurd rfl hch
      case isTrue hk' =>
        obtain ⟨h', rfl⟩ := hk'
        obtain ⟨-, b, hb, -⟩ := id h
        rw [bellQueue_rung, bellQueue_rung, if_pos ⟨h', rfl⟩, if_pos ⟨h, rfl⟩,
          Option.mem_def.mp hb] at hk
        exact .inr ⟨rfl, (congrArg Prod.snd (Option.some.inj hk)).symm⟩
  · rintro (⟨h, h'⟩ | ⟨rfl, rfl⟩)
    · rw [rung_of_refused h, rung_of_refused h']
      exact ⟨rfl, rfl⟩
    · exact ⟨rfl, rfl⟩

/-! ## what the code decodes -/

/-- An address in the BAR is one of no more doorbells than there are 16-bit numbers. -/
theorem bell_div_lt (h : addr < n.regSize) : (addr - 0x1000) / n.dbbufEntrySz / 2 < 2 ^ 16 := by
  have hbar : n.regSize ≤ 2 ^ 15 := by
    have hle : 0x1004 + 2 * (n.numIoQueues + 1) * 4 ≤ 2 ^ 15 := by
      have : n.numIoQueues ≤ 0x7ff := n.queues_le
      omega
    exact Nat.pow_le_pow_right (by decide) (Nat.clog_le_of_le_pow hle)
  have hle : (addr - 0x1000) / n.dbbufEntrySz ≤ addr - 0x1000 := Nat.div_le_self _ _
  omega

theorem dbIsCq_iff : DbIsCq n.toDbCfg addr ↔ (addr - 0x1000) / n.dbbufEntrySz % 2 = 1 := by
  unfold DbIsCq DbCfg.dbbufEntrySz
  rw [Nat.and_one_is_mod, Nat.shiftRight_eq_div_pow]
  omega

theorem pow_three_add : 2 ^ (3 + n.dbStride) = n.dbbufEntrySz * 2 := by
  have hadd : 3 + n.dbStride = 2 + n.dbStride + 1 := by omega
  rw [hadd, Nat.pow_succ]
  rfl

theorem dbSqid_eq (h : addr < n.regSize) :
    dbSqid n.toDbCfg addr = (addr - 0x1000) / n.dbbufEntrySz / 2 := by
  have hlt := bell_div_lt h
  rw [dbSqid, Nat.shiftRight_eq_div_pow, pow_three_add, ← Nat.div_div_eq_div_mul]
  exact Nat.mod_eq_of_lt (by omega)

theorem dbCqid_eq (h : addr < n.regSize) (hodd : (addr - 0x1000) / n.dbbufEntrySz % 2 = 1) :
    dbCqid n.toDbCfg addr = (addr - 0x1000) / n.dbbufEntrySz / 2 := by
  have hlt := bell_div_lt h
  have hsub : (addr - (0x1000 + n.dbbufEntrySz)) / n.dbbufEntrySz =
      (addr - 0x1000) / n.dbbufEntrySz - 1 := by
    have hmul := Nat.sub_mul_div (addr - 0x1000) n.dbbufEntrySz 1
    rwa [Nat.mul_one, Nat.sub_sub] at hmul
  have hw : 2 ^ (2 + n.dbStride) = n.dbbufEntrySz := rfl
  rw [dbCqid, hw, Nat.shiftRight_eq_div_pow, pow_three_add, ← Nat.div_div_eq_div_mul, hsub]
  generalize (addr - 0x1000) / n.dbbufEntrySz = k at hlt hodd
  have hhalf : (k - 1) / 2 = k / 2 := by omega
  rw [hhalf]
  exact Nat.mod_eq_of_lt (by omega)

/-! ## what a write leaves in the tables -/

theorem rung_of_cq {c : NvmeCQueue} (hk : k % 2 = 1) (hle : k / 2 ≤ n.numIoQueues)
    (hc : s.cq (k / 2) = some c) : rung n s k v =
      if v < c.size then s.setCq (k / 2) (some { c with head := v }) else s.toQueueCtrl := by
  have hacc : Accepts n s k v ↔ v < c.size ∧ c.head ≠ v := by
    simp [Accepts, bellQueue, hk, hle, hc]
  rw [rung, if_congr hacc rfl rfl]
  by_cases hv : v < c.size
  case neg => simp [hv]
  case pos =>
    by_cases hne : c.head = v
    case neg => simp [hv, hne, ringBell, hk, hc]
    case pos =>
      subst hne
      simp [QueueCtrl.setCq, ← hc]

theorem rung_of_sq {q : NvmeSQueue} (hk : k % 2 = 0) (hle : k / 2 ≤ n.numIoQueues)
    (hq : s.sq (k / 2) = some q) : rung n s k v =
      if v < q.size then s.setSq (k / 2) (some { q with tail := v }) else s.toQueueCtrl := by
  have hacc : Accepts n s k v ↔ v < q.size ∧ q.tail ≠ v := by
    simp [Accepts, bellQueue, hk, hle, hq]
  rw [rung, if_congr hacc rfl rfl]
  by_cases hv : v < q.size
  case neg => simp [hv]
  case pos =>
    by_cases hne : q.tail = v
    case neg => simp [hv, hne, ringBell, hk, hq]
    case pos =>
      subst hne
      simp [QueueCtrl.setSq, ← hq]

theorem rung_of_no_cq (hk : k % 2 = 1) (h : ¬ checkCqid n.toQueueCfg s.toQueueCtrl (k / 2)) :
    rung n s k v = s.toQueueCtrl := by
  refine rung_of_refused fun hacc => h ?_
  obtain ⟨hle, b, hb, -⟩ := hacc
  simp only [bellQueue, hk, if_true, Option.mem_def, Option.map_eq_some_iff] at hb
  obtain ⟨c, hc, -⟩ := hb
  simp [checkCqid, hle, hc]

theorem rung_of_no_sq (hk : k % 2 = 0) (h : ¬ checkSqid n.toQueueCfg s.toQueueCtrl (k / 2)) :
    rung n s k v = s.toQueueCtrl := by
  refine rung_of_refused fun hacc => h ?_
  obtain ⟨hle, b, hb, -⟩ := hacc
  simp only [bellQueue, hk, Nat.zero_ne_one, if_false, Option.mem_def,
    Option.map_eq_some_iff] at hb
  obtain ⟨q, hq, -⟩ := hb
  simp [checkSqid, hle, hq]

theorem checkCqid_iff {i : Nat} : checkCqid n.toQueueCfg s.toQueueCtrl i ↔
    i ≤ n.numIoQueues ∧ ∃ c, s.cq i = some c := by
  simp [checkCqid, Option.isSome_iff_exists]

theorem checkSqid_iff {i : Nat} : checkSqid n.toQueueCfg s.toQueueCtrl i ↔
    i ≤ n.numIoQueues ∧ ∃ q, s.sq i = some q := by
  simp [checkSqid, Option.isSome_iff_exists]

theorem cq_eq_none {i : Nat} (hle : i ≤ n.numIoQueues)
    (h : ¬ checkCqid n.toQueueCfg s.toQueueCtrl i) : s.cq i = none := by
  rw [checkCqid_iff] at h
  simpa [hle, Option.eq_none_iff_forall_ne_some] using h

theorem sq_eq_none {i : Nat} (hle : i ≤ n.numIoQueues)
    (h : ¬ checkSqid n.toQueueCfg s.toQueueCtrl i) : s.sq i = none := by
  rw [checkSqid_iff] at h
  simpa [hle, Option.eq_none_iff_forall_ne_some] using h

/-- A doorbell of the admin window takes the low word. -/
theorem nvmeProcessDbAdmin_tables (data : UInt64) (hbar : addr < n.regSize)
    (hk : (addr - 0x1000) / n.dbbufEntrySz = k) :
    ∃ r, nvmeProcessDbAdmin n s addr data = some r ∧
      r.1.toQueueCtrl = rung n s k (u16 data.toNat) := by
  have hlt : k / 2 < 2 ^ 16 := hk ▸ bell_div_lt hbar
  have hu16 : u16 (k / 2) = k / 2 := Nat.mod_eq_of_lt hlt
  unfold nvmeProcessDbAdmin
  simp only [dbIsCq_iff, hk]
  split
  case isTrue hodd =>
    rw [dbCqid_eq hbar (hk ▸ hodd), hk, hu16]
    split
    case isTrue hno => exact ⟨_, rfl, (rung_of_no_cq hodd hno).symm⟩
    case isFalse hlive =>
      obtain ⟨hle, c, hc⟩ := checkCqid_iff.mp (not_not.mp hlive)
      rw [hc, rung_of_cq hodd hle hc]
      refine ⟨_, rfl, ?_⟩
      simp only [ge_iff_le, ← Nat.not_lt, ite_not]
      split <;> rfl
  case isFalse heven =>
    have heven : k % 2 = 0 := by omega
    rw [dbSqid_eq hbar, hk, hu16]
    split
    case isTrue hno => exact ⟨_, rfl, (rung_of_no_sq heven hno).symm⟩
    case isFalse hlive =>
      obtain ⟨hle, q, hq⟩ := checkSqid_iff.mp (not_not.mp hlive)
      rw [hq, rung_of_sq heven hle hq]
      refine ⟨_, rfl, ?_⟩
      simp only [ge_iff_le, ← Nat.not_lt, ite_not]
      split <;> rfl

/-- An aligned doorbell takes the low word unless it has a shadow doorbell. -/
theorem nvmeProcessDbIo_tables (data : UInt64) (hstop : s.dataplaneStarted = false) (hbar : addr < n.regSize)
    (halign : n.dbbufEntrySz ∣ addr) (hk : (addr - 0x1000) / n.dbbufEntrySz = k) :
    ∃ r, nvmeProcessDbIo n s addr data = some r ∧ r.1.toQueueCtrl =
      if Shadowed s k then s.toQueueCtrl else rung n s k (u16 data.toNat) := by
  have hlt : k / 2 < 2 ^ 16 := hk ▸ bell_div_lt hbar
  have hu16 : u16 (k / 2) = k / 2 := Nat.mod_eq_of_lt hlt
  have hand : addr &&& (2 ^ (2 + n.dbStride) - 1) = 0 := by
    rw [Nat.and_two_pow_sub_one_eq_mod]
    exact Nat.mod_eq_zero_of_dvd halign
  unfold nvmeProcessDbIo
  simp only [hstop, hand, ne_eq, not_true_eq_false, Bool.false_eq_true, if_false, dbIsCq_iff, hk]
  split
  case isTrue hodd =>
    have hsh : Shadowed s k ↔ (s.cqDb (k / 2)).dbAddr ≠ 0 := by simp [Shadowed, hodd]
    rw [dbCqid_eq hbar (hk ▸ hodd), hk, hu16]
    split
    case isTrue hno => exact ⟨_, rfl, by simp [rung_of_no_cq hodd hno]⟩
    case isFalse hlive =>
      obtain ⟨hle, c, hc⟩ := checkCqid_iff.mp (not_not.mp hlive)
      rw [hc, rung_of_cq hodd hle hc]
      refine ⟨_, rfl, ?_⟩
      simp only [ge_iff_le, ← Nat.not_lt, ite_not]
      by_cases hv : u16 data.toNat < c.size
      case neg => simp [hv]
      case pos =>
        by_cases hdb : (s.cqDb (k / 2)).dbAddr = 0
        case pos => simp [hv, hsh, hdb]
        case neg => simp [hv, hsh, hdb, QueueCtrl.setCq, ← hc]
  case isFalse heven =>
    have heven : k % 2 = 0 := by omega
    have hsh : Shadowed s k ↔ (s.sqDb (k / 2)).dbAddr ≠ 0 := by simp [Shadowed, heven]
    rw [dbSqid_eq hbar, hk, hu16]
    split
    case isTrue hno => exact ⟨_, rfl, by simp [rung_of_no_sq heven hno]⟩
    case isFalse hlive =>
      obtain ⟨hle, q, hq⟩ := checkSqid_iff.mp (not_not.mp hlive)
      rw [hq, rung_of_sq heven hle hq]
      refine ⟨_, rfl, ?_⟩
      simp only [ge_iff_le, ← Nat.not_lt, ite_not]
      by_cases hv : u16 data.toNat < q.size
      case neg => simp [hv]
      case pos =>
        by_cases hdb : (s.sqDb (k / 2)).dbAddr = 0
        case pos => simp [hv, hsh, hdb]
        case neg => simp [hv, hsh, hdb, QueueCtrl.setSq, ← hq]

theorem nvmeProcessDbIo_unaligned (halign : ¬ n.dbbufEntrySz ∣ addr) :
    nvmeProcessDbIo n s addr data = some (s, []) := by
  have hand : addr &&& (2 ^ (2 + n.dbStride) - 1) ≠ 0 := by
    rw [Nat.and_two_pow_sub_one_eq_mod]
    exact fun h => halign (Nat.dvd_of_mod_eq_zero h)
  unfold nvmeProcessDbIo
  dsimp only
  rw [if_pos hand]
  split <;> rfl

/-- The doorbell that an address is decoded as. -/
def decodedBell (n : MmioCfg) (addr : Nat) : Option Nat :=
  if addr < 0x1008 ∨ n.dbbufEntrySz ∣ addr then some ((addr - 0x1000) / n.dbbufEntrySz) else none

/-- The tables after a write. -/
def written (n : MmioCfg) (s : FemuCtrl) (addr : Nat) (data : UInt64) : QueueCtrl :=
  match decodedBell n addr with
  | none => s.toQueueCtrl
  | some k =>
      if 0x1008 ≤ addr ∧ Shadowed s k then s.toQueueCtrl else rung n s k (u16 data.toNat)

/-- **Step**: what a write leaves in the tables. -/
theorem nvmeMmioWrite_tables (data : UInt64) (hstop : s.dataplaneStarted = false) (hlow : 0x1000 ≤ addr)
    (hbar : addr < n.regSize) :
    ∃ r, nvmeMmioWrite n s addr data = some r ∧ r.1.toQueueCtrl = written n s addr data := by
  have hreg : ¬ addr < barSize := by
    unfold barSize
    omega
  unfold nvmeMmioWrite written decodedBell
  rw [if_neg hreg]
  by_cases hwin : addr < 0x1008
  case pos =>
    rw [if_pos ⟨hlow, hwin⟩, if_pos (.inl hwin)]
    have hio : ¬ 0x1008 ≤ addr := by omega
    simpa [hio] using nvmeProcessDbAdmin_tables (s := s) data hbar rfl
  case neg =>
    rw [if_neg fun h => hwin h.2]
    have hio : 0x1008 ≤ addr := by omega
    by_cases halign : n.dbbufEntrySz ∣ addr
    case pos =>
      rw [if_pos (.inr halign)]
      simpa [hio] using nvmeProcessDbIo_tables data hstop hbar halign rfl
    case neg =>
      rw [if_neg (by simp [hwin, halign])]
      exact ⟨_, nvmeProcessDbIo_unaligned halign, rfl⟩

/-! ## what a write should leave in the tables -/

/-- The write moves the tail of queue `q` to its value at `0x1000 + 2 * q * (4 << stride)`, and
the head at `0x1000 + (2 * q + 1) * (4 << stride)`, where the queue exists and the value is
below its size. -/
structure Decoded (n : MmioCfg) (s : FemuCtrl) (addr : Nat) (data : UInt64) (t : QueueCtrl) :
    Prop where
  tail : ∀ q, t.sq q =
    if addr = 0x1000 + 2 * q * n.dbbufEntrySz ∧ q ≤ n.numIoQueues then
      (s.sq q).map fun sq => if data.toNat < sq.size then { sq with tail := data.toNat } else sq
    else s.sq q
  head : ∀ q, t.cq q =
    if addr = 0x1000 + (2 * q + 1) * n.dbbufEntrySz ∧ q ≤ n.numIoQueues then
      (s.cq q).map fun cq => if data.toNat < cq.size then { cq with head := data.toNat } else cq
    else s.cq q

theorem rung_sq {q : Nat} : (rung n s k v).sq q =
    if k = 2 * q ∧ q ≤ n.numIoQueues then
      (s.sq q).map fun sq => if v < sq.size then { sq with tail := v } else sq
    else s.sq q := by
  by_cases hk : k % 2 = 0
  case neg =>
    have hodd : k % 2 = 1 := by omega
    have hne : k ≠ 2 * q := by omega
    unfold rung
    split
    case isTrue => simp [ringBell, hodd, hne]
    case isFalse => simp [hne]
  case pos =>
    by_cases hlive : checkSqid n.toQueueCfg s.toQueueCtrl (k / 2)
    case pos =>
      obtain ⟨hle, x, hx⟩ := checkSqid_iff.mp hlive
      rw [rung_of_sq hk hle hx]
      by_cases hq : k = 2 * q
      case pos =>
        have hq2 : k / 2 = q := by omega
        rw [hq2] at hle hx ⊢
        by_cases hv : v < x.size <;> simp [hq, hle, hx, hv]
      case neg =>
        have hne : q ≠ k / 2 := by omega
        by_cases hv : v < x.size <;> simp [hq, hv, QueueCtrl.setSq_sq_apply, hne]
    case neg =>
      rw [rung_of_no_sq hk hlive]
      split
      case isFalse => rfl
      case isTrue hq =>
        have hq2 : k / 2 = q := by omega
        simp [sq_eq_none hq.2 (hq2 ▸ hlive)]

theorem rung_cq {q : Nat} : (rung n s k v).cq q =
    if k = 2 * q + 1 ∧ q ≤ n.numIoQueues then
      (s.cq q).map fun cq => if v < cq.size then { cq with head := v } else cq
    else s.cq q := by
  by_cases hk : k % 2 = 1
  case neg =>
    have hne : k ≠ 2 * q + 1 := by omega
    unfold rung
    split
    case isTrue => simp [ringBell, hk, hne]
    case isFalse => simp [hne]
  case pos =>
    by_cases hlive : checkCqid n.toQueueCfg s.toQueueCtrl (k / 2)
    case pos =>
      obtain ⟨hle, x, hx⟩ := checkCqid_iff.mp hlive
      rw [rung_of_cq hk hle hx]
      by_cases hq : k = 2 * q + 1
      case pos =>
        have hq2 : k / 2 = q := by omega
        rw [hq2] at hle hx ⊢
        by_cases hv : v < x.size <;> simp [hq, hle, hx, hv]
      case neg =>
        have hne : q ≠ k / 2 := by omega
        by_cases hv : v < x.size <;> simp [hq, hv, QueueCtrl.setCq_cq_apply, hne]
    case neg =>
      rw [rung_of_no_cq hk hlive]
      split
      case isFalse => rfl
      case isTrue hq =>
        have hq2 : k / 2 = q := by omega
        simp [cq_eq_none hq.2 (hq2 ▸ hlive)]

theorem dbbufEntrySz_pos : 0 < n.dbbufEntrySz := Nat.two_pow_pos _

theorem bellAddr_inj : n.bellAddr k = n.bellAddr k' ↔ k = k' := by
  simp [MmioCfg.bellAddr, dbbufEntrySz_pos.ne']

/-- The write to a doorbell. -/
theorem decoded_bell : Decoded n s (n.bellAddr k) data t ↔
    SameTables (rung n s k data.toNat) t := by
  have hsq : ∀ q, n.bellAddr k = 0x1000 + 2 * q * n.dbbufEntrySz ↔ k = 2 * q :=
    fun q => (bellAddr_inj : n.bellAddr k = n.bellAddr (2 * q) ↔ _)
  have hcq : ∀ q, n.bellAddr k = 0x1000 + (2 * q + 1) * n.dbbufEntrySz ↔ k = 2 * q + 1 :=
    fun q => (bellAddr_inj : n.bellAddr k = n.bellAddr (2 * q + 1) ↔ _)
  constructor
  · intro h
    refine ⟨funext fun q => ?_, funext fun q => ?_⟩
    · rw [h.tail q, rung_sq]
      simp only [hsq]
    · rw [h.head q, rung_cq]
      simp only [hcq]
  · intro h
    refine ⟨fun q => ?_, fun q => ?_⟩
    · rw [h.1, rung_sq]
      simp only [hsq]
    · rw [h.2, rung_cq]
      simp only [hcq]

/-- The write to any other address. -/
theorem decoded_other (h : ∀ k, addr ≠ n.bellAddr k) : Decoded n s addr data t ↔
    SameTables s.toQueueCtrl t := by
  have hsq : ∀ q, addr ≠ 0x1000 + 2 * q * n.dbbufEntrySz := fun q => h (2 * q)
  have hcq : ∀ q, addr ≠ 0x1000 + (2 * q + 1) * n.dbbufEntrySz := fun q => h (2 * q + 1)
  constructor
  · intro hd
    exact ⟨funext fun q => by simpa [hsq] using hd.tail q,
      funext fun q => by simpa [hcq] using hd.head q⟩
  · intro hd
    exact ⟨fun q => by simp [hsq, hd.1], fun q => by simp [hcq, hd.2]⟩

/-! ## where the two agree -/

/-- With a stride of at most 4096 bytes, the doorbells are the aligned addresses. -/
theorem bellAddr_of_dvd (hs : n.dbStride ≤ 10) (hlow : 0x1000 ≤ addr)
    (halign : n.dbbufEntrySz ∣ addr) : addr = n.bellAddr ((addr - 0x1000) / n.dbbufEntrySz) := by
  have hpage : n.dbbufEntrySz ∣ 0x1000 := by
    have : n.dbbufEntrySz ∣ 2 ^ 12 := Nat.pow_dvd_pow 2 (by omega)
    exact this
  have hsub : n.dbbufEntrySz ∣ addr - 0x1000 := Nat.dvd_sub halign hpage
  rw [MmioCfg.bellAddr, Nat.div_mul_cancel hsub]
  omega

theorem dvd_bellAddr (hs : n.dbStride ≤ 10) : n.dbbufEntrySz ∣ n.bellAddr k := by
  have hpage : n.dbbufEntrySz ∣ 2 ^ 12 := Nat.pow_dvd_pow 2 (by omega)
  exact Nat.dvd_add hpage (Nat.dvd_mul_left _ _)

theorem bellAddr_div : (n.bellAddr k - 0x1000) / n.dbbufEntrySz = k := by
  rw [MmioCfg.bellAddr, Nat.add_sub_cancel_left, Nat.mul_div_cancel _ dbbufEntrySz_pos]

/-- With a longer stride, no doorbell is aligned. -/
theorem not_dvd_bellAddr (hs : 11 ≤ n.dbStride) : ¬ n.dbbufEntrySz ∣ n.bellAddr k := by
  intro h
  have hpage : n.dbbufEntrySz ∣ 0x1000 := (Nat.dvd_add_left (Nat.dvd_mul_left _ _)).mp h
  have hle : 2 ^ 13 ≤ n.dbbufEntrySz := Nat.pow_le_pow_right (by decide) (by omega)
  have := Nat.le_of_dvd (by decide) hpage
  omega

/-- With a longer stride, an aligned address is decoded as the doorbell before it. -/
theorem div_of_dvd (hs : 11 ≤ n.dbStride) (hlow : 0x1000 ≤ addr) (halign : n.dbbufEntrySz ∣ addr) :
    (addr - 0x1000) / n.dbbufEntrySz = addr / n.dbbufEntrySz - 1 := by
  have hle : 2 ^ 13 ≤ n.dbbufEntrySz := Nat.pow_le_pow_right (by decide) (by omega)
  obtain ⟨_ | j, rfl⟩ := halign
  · simp at hlow
  · have hcomm : j * n.dbbufEntrySz = n.dbbufEntrySz * j := Nat.mul_comm ..
    rw [Nat.mul_div_cancel_left _ dbbufEntrySz_pos, Nat.add_sub_cancel, Nat.mul_succ]
    refine Nat.div_eq_of_lt_le ?_ ?_
    · rw [hcomm]
      omega
    · rw [Nat.succ_mul, hcomm]
      omega

/-- With a stride of at least 8 bytes, the second half of the admin window is no doorbell. -/
theorem bellAddr_ne (hs : 1 ≤ n.dbStride) : 0x1004 ≠ n.bellAddr k := by
  have hw : 2 ^ 3 ≤ n.dbbufEntrySz := Nat.pow_le_pow_right (by decide) (by omega)
  unfold MmioCfg.bellAddr
  rcases Nat.eq_zero_or_pos k with rfl | hk
  · simp
  · have := Nat.le_mul_of_pos_left n.dbbufEntrySz hk
    omega

/-- The write is decoded as it should be, or not taken either way: it is not one to the second
half of the admin window with a longer stride, the value of a doorbell fits a 16-bit number,
and with one of the two longest strides it is one to the first doorbell. -/
structure DecodesWell (n : MmioCfg) (s : FemuCtrl) (addr : Nat) (data : UInt64) : Prop where
  half : 1 ≤ n.dbStride → addr = 0x1004 → ¬ Accepts n s 0 (u16 data.toNat)
  bell : ∀ k, k = 0 ∨ n.dbStride ≤ 10 → addr = n.bellAddr k →
    if 0x1008 ≤ addr ∧ Shadowed s k then ¬ Accepts n s k data.toNat
    else u16 data.toNat = data.toNat ∨
      ¬ Accepts n s k (u16 data.toNat) ∧ ¬ Accepts n s k data.toNat
  missed : ∀ k, 1 ≤ k → 11 ≤ n.dbStride → addr = n.bellAddr k → ¬ Accepts n s k data.toNat
  stray : 11 ≤ n.dbStride → 0x1008 ≤ addr → n.dbbufEntrySz ∣ addr →
    Shadowed s (addr / n.dbbufEntrySz - 1) ∨
      ¬ Accepts n s (addr / n.dbbufEntrySz - 1) (u16 data.toNat)

theorem decodedBell_bell (hk : k = 0 ∨ n.dbStride ≤ 10) :
    decodedBell n (n.bellAddr k) = some k := by
  have hcond : n.bellAddr k < 0x1008 ∨ n.dbbufEntrySz ∣ n.bellAddr k := by
    rcases hk with rfl | hs
    · exact .inl (by simp [MmioCfg.bellAddr])
    · exact .inr (dvd_bellAddr hs)
  rw [decodedBell, if_pos hcond, bellAddr_div]

/-- A doorbell that is decoded as such. -/
theorem decoded_written_bell (hk : k = 0 ∨ n.dbStride ≤ 10) (haddr : addr = n.bellAddr k) :
    Decoded n s addr data (written n s addr data) ↔
      if 0x1008 ≤ addr ∧ Shadowed s k then ¬ Accepts n s k data.toNat
      else u16 data.toNat = data.toNat ∨
        ¬ Accepts n s k (u16 data.toNat) ∧ ¬ Accepts n s k data.toNat := by
  subst haddr
  rw [decoded_bell, written, decodedBell_bell hk]
  dsimp only
  split
  case isTrue => rw [sameTables_comm, sameTables_rung_self]
  case isFalse =>
    rw [sameTables_rung_iff, or_comm, and_comm (a := ¬ Accepts n s k data.toNat)]
    simp [eq_comm]

theorem decodesWell_bell (hk : k = 0 ∨ n.dbStride ≤ 10) (haddr : addr = n.bellAddr k) :
    DecodesWell n s addr data ↔
      if 0x1008 ≤ addr ∧ Shadowed s k then ¬ Accepts n s k data.toNat
      else u16 data.toNat = data.toNat ∨
        ¬ Accepts n s k (u16 data.toNat) ∧ ¬ Accepts n s k data.toNat := by
  have hone : ∀ j, addr = n.bellAddr j → j = k := fun j hj => bellAddr_inj.mp (hj.symm.trans haddr)
  constructor
  · intro h
    exact h.bell k hk haddr
  · intro h
    constructor
    · intro hs haddr'
      exact absurd (haddr'.symm.trans haddr) (bellAddr_ne hs)
    · intro j _ hj
      rwa [hone j hj]
    · intro j hj hs haddr'
      have := hone j haddr'
      omega
    · intro hs hio halign
      subst haddr
      exact absurd halign (not_dvd_bellAddr hs)

/-- The second half of the admin window with a longer stride. -/
theorem decoded_written_half (hs : 1 ≤ n.dbStride) :
    Decoded n s 0x1004 data (written n s 0x1004 data) ↔ DecodesWell n s 0x1004 data := by
  have hw : 2 ^ 3 ≤ n.dbbufEntrySz := Nat.pow_le_pow_right (by decide) (by omega)
  have hbell : decodedBell n 0x1004 = some 0 := by
    rw [decodedBell, if_pos (.inl (by decide)), Nat.div_eq_of_lt (by omega)]
  rw [decoded_other fun k => bellAddr_ne hs, written, hbell]
  dsimp only
  rw [if_neg fun h => absurd h.1 (by decide), sameTables_rung_self]
  constructor
  · intro h
    exact ⟨fun _ _ => h, fun k _ hk => absurd hk (bellAddr_ne hs),
      fun k _ _ hk => absurd hk (bellAddr_ne hs), fun _ hio => absurd hio (by decide)⟩
  · intro h
    exact h.half hs rfl

/-- An address that is not aligned, which may be one of a doorbell with a long stride. -/
theorem decoded_written_unaligned (hio : 0x1008 ≤ addr) (hw : ¬ n.dbbufEntrySz ∣ addr) :
    Decoded n s addr data (written n s addr data) ↔ DecodesWell n s addr data := by
  have hbell : decodedBell n addr = none := if_neg (by simp [hw]; omega)
  have hlong : ∀ k, addr = n.bellAddr k → 1 ≤ k ∧ 11 ≤ n.dbStride := by
    rintro k rfl
    refine ⟨Nat.pos_of_ne_zero fun h0 => ?_, Nat.lt_of_not_le fun hs => hw (dvd_bellAddr hs)⟩
    simp [h0, MmioCfg.bellAddr] at hio
  have hdec : Decoded n s addr data (written n s addr data) ↔
      ∀ k, addr = n.bellAddr k → ¬ Accepts n s k data.toNat := by
    rw [written, hbell]
    dsimp only
    by_cases hex : ∃ k, addr = n.bellAddr k
    case pos =>
      obtain ⟨k, rfl⟩ := hex
      rw [decoded_bell, sameTables_comm, sameTables_rung_self]
      simp [bellAddr_inj]
    case neg =>
      rw [decoded_other fun k hk => hex ⟨k, hk⟩]
      exact ⟨fun _ k hk => absurd ⟨k, hk⟩ hex, fun _ => ⟨rfl, rfl⟩⟩
  rw [hdec]
  constructor
  · intro h
    refine ⟨fun _ h4 => by omega, fun k hk haddr => ?_, fun k _ _ haddr => h k haddr,
      fun _ _ halign => absurd halign hw⟩
    have := hlong k haddr
    omega
  · intro h k haddr
    exact h.missed k (hlong k haddr).1 (hlong k haddr).2 haddr

/-- An aligned address with a long stride, which is no doorbell. -/
theorem decoded_written_stray (hs : 11 ≤ n.dbStride) (hio : 0x1008 ≤ addr)
    (hw : n.dbbufEntrySz ∣ addr) :
    Decoded n s addr data (written n s addr data) ↔ DecodesWell n s addr data := by
  have hbell : decodedBell n addr = some (addr / n.dbbufEntrySz - 1) := by
    rw [decodedBell, if_pos (.inr hw), div_of_dvd hs (by omega) hw]
  have hnone : ∀ k, addr ≠ n.bellAddr k := by
    rintro k rfl
    exact not_dvd_bellAddr hs hw
  have hdec : Decoded n s addr data (written n s addr data) ↔
      Shadowed s (addr / n.dbbufEntrySz - 1) ∨
        ¬ Accepts n s (addr / n.dbbufEntrySz - 1) (u16 data.toNat) := by
    rw [decoded_other hnone, written, hbell]
    dsimp only
    by_cases hsh : Shadowed s (addr / n.dbbufEntrySz - 1)
    case pos =>
      rw [if_pos ⟨hio, hsh⟩]
      exact ⟨fun _ => .inl hsh, fun _ => ⟨rfl, rfl⟩⟩
    case neg =>
      rw [if_neg fun h => hsh h.2, sameTables_rung_self]
      simp [hsh]
  rw [hdec]
  constructor
  · intro h
    exact ⟨fun _ h4 => by omega, fun k _ haddr => absurd haddr (hnone k),
      fun k _ _ haddr => absurd haddr (hnone k), fun _ _ _ => h⟩
  · intro h
    exact h.stray hs hio hw

/-- **Doorbell decoding**: before the data plane is started, a write to an aligned address from
`0x1000` on moves the tail or the head that its address and its value say, and no other one,
exactly when it is decoded well. -/
theorem mmio_decoded_iff (hstop : s.dataplaneStarted = false) (hlow : 0x1000 ≤ addr)
    (hbar : addr < n.regSize) (halign : 4 ∣ addr) :
    (∃ r, nvmeMmioWrite n s addr data = some r ∧ Decoded n s addr data r.1.toQueueCtrl) ↔
      DecodesWell n s addr data := by
  obtain ⟨r, hr, htab⟩ := nvmeMmioWrite_tables data hstop hlow hbar
  have hout : (∃ r, nvmeMmioWrite n s addr data = some r ∧ Decoded n s addr data r.1.toQueueCtrl) ↔
      Decoded n s addr data (written n s addr data) := by
    simp [hr, htab]
  rw [hout]
  by_cases hbell : ∃ k, (k = 0 ∨ n.dbStride ≤ 10) ∧ addr = n.bellAddr k
  case pos =>
    obtain ⟨k, hk, haddr⟩ := hbell
    rw [decoded_written_bell hk haddr, decodesWell_bell hk haddr]
  case neg =>
    by_cases hwin : addr < 0x1008
    case pos =>
      obtain rfl | rfl : addr = 0x1000 ∨ addr = 0x1004 := by omega
      · exact absurd ⟨0, .inl rfl, by simp [MmioCfg.bellAddr]⟩ hbell
      · refine decoded_written_half (Nat.pos_of_ne_zero fun hs => hbell ⟨1, .inr (by omega), ?_⟩)
        simp [MmioCfg.bellAddr, DbCfg.dbbufEntrySz, hs]
    case neg =>
      by_cases hw : n.dbbufEntrySz ∣ addr
      case neg => exact decoded_written_unaligned (by omega) hw
      case pos =>
        refine decoded_written_stray (Nat.lt_of_not_le fun hs => hbell ?_) (by omega) hw
        exact ⟨_, .inr hs, bellAddr_of_dvd hs hlow hw⟩

theorem le_regSize : 0x1004 + 2 * (n.numIoQueues + 1) * 4 ≤ n.regSize :=
  Nat.le_pow_clog (by decide) _

def mmioPairs : MmioCfg where
  toCtrlCfg := plainCtrl
  queues_pos := by decide
  queues_le := by decide

/-- The same with doorbells 8 bytes apart. -/
def mmioWide : MmioCfg where
  toCtrlCfg := { plainCtrl with dbStride := 1, stride_le := by decide }
  queues_pos := by decide
  queues_le := by decide

/-- A controller with admin queues of 32 entries. -/
def adminCtrl : FemuCtrl := { newCtrl 0 with toQueueCtrl := addAdmin .reset 31 31 }

theorem mmio_decoded_tail :
    ∃ r, nvmeMmioWrite mmioPairs adminCtrl 0x1000 5 = some r ∧
      Decoded mmioPairs adminCtrl 0x1000 5 r.1.toQueueCtrl := by
  have hbar : 0x1000 < mmioPairs.regSize := Nat.lt_of_lt_of_le (by decide) le_regSize
  refine (mmio_decoded_iff rfl (Nat.le_refl _) hbar (by decide)).mpr ?_
  rw [decodesWell_bell (k := 0) (.inl rfl) (by decide), if_neg fun h => absurd h.1 (by decide)]
  exact .inl (by decide)

/-- A write to the second half of the admin window moves the tail of the admin queue. -/
theorem half_moves_tail :
    ¬ ∀ (n : MmioCfg) (s₀ s : FemuCtrl) (acts : List CtrlAct) (addr : Nat) (data : UInt64),
      (∀ i, ¬ Live s₀ i) → Run (fun s a t => ctrlStep n.toCtrlCfg s a = some t) s₀ acts s →
      s.dataplaneStarted = false → 0x1000 ≤ addr → addr < n.regSize → 4 ∣ addr →
      ∃ r, nvmeMmioWrite n s addr data = some r ∧ Decoded n s addr data r.1.toQueueCtrl := by
  intro hall
  have hends : (exec (ctrlStep mmioWide.toCtrlCfg) (setupAdmin ++ [.write 0x14 0x460001])
      (newCtrl 0)).map (fun s => (s.dataplaneStarted, (s.sq 0).map (·.tail),
        (nvmeMmioWrite mmioWide s 0x1004 1).map fun r => (r.1.sq 0).map (·.tail))) =
      some (false, some 0, some (some 1)) := by decide +kernel
  obtain ⟨s, hs, heq⟩ := Option.map_eq_some_iff.mp hends
  simp only [Prod.mk.injEq] at heq
  obtain ⟨hstop, hold, hnew⟩ := heq
  have hbar : 0x1004 < mmioWide.regSize := Nat.lt_of_lt_of_le (by decide) le_regSize
  obtain ⟨r, hr, hdec⟩ := hall mmioWide (newCtrl 0) s _ 0x1004 1
    (fun i => by simp [Live, newCtrl, QueueCtrl.reset]) (run_of_exec hs) hstop (by decide) hbar
    (by decide)
  rw [hr, Option.map_some, hdec.tail 0, if_neg (fun h => absurd h.1 (by decide)), hold] at hnew
  exact absurd hnew (by decide)

end Femu.Queue

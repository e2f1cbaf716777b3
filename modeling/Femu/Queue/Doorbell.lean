import Femu.Queue.Io

/-!
# Femu.Queue.Doorbell

The shadow doorbells of the I/O queues: `nvme_set_db_memory` sets those of the queues that
exist, `nvme_init_sq` and `nvme_init_cq` those of a queue that is made later.

The addresses of a completion queue come out the same on both ways. `nvme_init_sq` assigns
`eventidx_addr` twice and `eventidx_addr_hva` never, so that a submission queue that is made
after the configuration has other addresses than one that is made before.
-/

namespace Femu.Queue

open Nvme Lib

/-! ## data model -/

def nvmeMaxStride : Nat := 12

/-- The configuration with `n->db_stride`, as `nvme_check_constraints` lets it through. -/
structure DbCfg extends QueueCfg where
  dbStride : Nat
  stride_le : dbStride ≤ nvmeMaxStride

/-- `1 << (2 + stride)`; twice the largest 16-bit number of it fits an `int`. -/
def DbCfg.dbbufEntrySz (n : DbCfg) : Nat := 2 ^ (2 + n.dbStride)

/-- The doorbell fields of a queue, which `g_malloc0` has cleared. -/
structure Doorbell where
  dbAddr : UInt64 := 0
  dbAddrHva : UInt64 := 0
  eventidxAddr : UInt64 := 0
  eventidxAddrHva : UInt64 := 0
deriving DecidableEq

/-- The two buffers of the controller. -/
structure DbBufs where
  dbsAddr : UInt64 := 0
  eisAddr : UInt64 := 0
  dbsAddrHva : UInt64 := 0
  eisAddrHva : UInt64 := 0
deriving DecidableEq

/-- `FemuCtrl` with the buffers and the doorbell fields of the queues in the tables. -/
structure DbCtrl extends QueueCtrl where
  bufs : DbBufs
  sqDb : Nat → Doorbell
  cqDb : Nat → Doorbell

/-- A Doorbell Buffer Config command, with what `dma_memory_map` returns for the two
addresses. -/
structure DbConfig where
  prp1 : UInt64
  prp2 : UInt64
  dbsHva : UInt64
  eisHva : UInt64

/-! ## nvme_set_db_memory -/

/-- The fields of the doorbell at `off` in the buffers. -/
def DbBufs.doorbellAt (b : DbBufs) (off : Nat) : Doorbell where
  dbAddr := b.dbsAddr + .ofNat off
  dbAddrHva := if b.dbsAddrHva ≠ 0 then b.dbsAddrHva + .ofNat off else 0
  eventidxAddr := b.eisAddr + .ofNat off
  eventidxAddrHva := if b.eisAddrHva ≠ 0 then b.eisAddrHva + .ofNat off else 0

/-- Submission queue tail pointer location, 2 * QID * stride. -/
def sqDoorbell (n : DbCfg) (b : DbBufs) (i : Nat) : Doorbell :=
  b.doorbellAt (2 * i * n.dbbufEntrySz)

/-- Completion queue head pointer location, (2 * QID + 1) * stride. -/
def cqDoorbell (n : DbCfg) (b : DbBufs) (i : Nat) : Doorbell :=
  b.doorbellAt ((2 * i + 1) * n.dbbufEntrySz)

/-- A turn of the loop over the queues. -/
def setDbTurn (n : DbCfg) (s : DbCtrl) (i : Nat) : DbCtrl :=
  { s with
    sqDb := if (s.sq i).isSome then Function.update s.sqDb i (sqDoorbell n s.bufs i) else s.sqDb
    cqDb := if (s.cq i).isSome then Function.update s.cqDb i (cqDoorbell n s.bufs i) else s.cqDb }

/-- "Addresses should not be NULL and should be page aligned." -/
def DbConfig.Valid (n : DbCfg) (db : DbConfig) : Prop :=
  (db.prp1 ≠ 0 ∧ db.prp1.toNat &&& (n.pageSize - 1) = 0) ∧
    db.prp2 ≠ 0 ∧ db.prp2.toNat &&& (n.pageSize - 1) = 0

instance (n : DbCfg) (db : DbConfig) : Decidable (db.Valid n) := inferInstanceAs (Decidable (_ ∧ _))

def DbConfig.bufs (db : DbConfig) : DbBufs := ⟨db.prp1, db.prp2, db.dbsHva, db.eisHva⟩

def nvmeSetDbMemory (n : DbCfg) (s : DbCtrl) (db : DbConfig) : Option (Status × DbCtrl) :=
  if ¬ db.Valid n then some (nvmeInvalidField ||| nvmeDnr, s)
  else
    let s := (List.range' 1 n.numIoQueues).foldl (setDbTurn n) { s with bufs := db.bufs }
    (setDbMemory s.toQueueCtrl true).map fun r => (r.1, { s with toQueueCtrl := r.2 })

/-! ## nvme_init_sq and nvme_init_cq -/

/-- The doorbell of a new submission queue. The second assignment to `eventidx_addr`, with a
sum where the others have a product, takes the place of one to `eventidx_addr_hva`. -/
def initSqDoorbell (n : DbCfg) (b : DbBufs) (sqid : Nat) : Doorbell :=
  if sqid ≠ 0 ∧ b.dbsAddr ≠ 0 ∧ b.eisAddr ≠ 0 then
    { dbAddr := b.dbsAddr + .ofNat (2 * sqid * n.dbbufEntrySz)
      dbAddrHva := if b.dbsAddrHva ≠ 0 then b.dbsAddrHva + .ofNat (2 * sqid * n.dbbufEntrySz) else 0
      eventidxAddr :=
        if b.eisAddrHva ≠ 0 then b.eisAddrHva + .ofNat (2 * sqid) + .ofNat n.dbbufEntrySz else 0 }
  else {}

/-- The doorbell of a new completion queue. -/
def initCqDoorbell (n : DbCfg) (b : DbBufs) (cqid : Nat) : Doorbell :=
  if cqid ≠ 0 ∧ b.dbsAddr ≠ 0 ∧ b.eisAddr ≠ 0 then cqDoorbell n b cqid else {}

/-- `nvme_create_sq`, which goes through `nvme_init_sq` where it succeeds. -/
def nvmeCreateSq (n : DbCfg) (s : DbCtrl) (c : NvmeCreateSq) (prpList : Bool) :
    Option (Status × DbCtrl) :=
  (createSq n.toQueueCfg s.toQueueCtrl c prpList).map fun r => (r.1,
    { s with
      toQueueCtrl := r.2
      sqDb := if r.1 = nvmeSuccess then
          Function.update s.sqDb c.sqid.toNat (initSqDoorbell n s.bufs c.sqid.toNat)
        else s.sqDb })

def nvmeCreateCq (n : DbCfg) (s : DbCtrl) (c : NvmeCreateCq) (prpList : Bool) :
    Option (Status × DbCtrl) :=
  (createCq n.toQueueCfg s.toQueueCtrl c prpList).map fun r => (r.1,
    { s with
      toQueueCtrl := r.2
      cqDb := if r.1 = nvmeSuccess then
          Function.update s.cqDb c.cqid.toNat (initCqDoorbell n s.bufs c.cqid.toNat)
        else s.cqDb })

/-- A command that makes a queue, with the result of `nvme_setup_discontig`. -/
inductive CreateCmd
  | sq (c : NvmeCreateSq) (prpList : Bool)
  | cq (c : NvmeCreateCq) (prpList : Bool)

def createStep (n : DbCfg) (s : DbCtrl) : CreateCmd → Option DbCtrl
  | .sq c prpList => (nvmeCreateSq n s c prpList).map Prod.snd
  | .cq c prpList => (nvmeCreateCq n s c prpList).map Prod.snd

/-! ## what a command does to a queue -/

variable {n : DbCfg} {b : DbBufs} {db : DbConfig} {s s' mid mid' t : DbCtrl} {cmd : CreateCmd}
  {i : Nat}

/-- The loop sets the doorbells of the queues that exist. -/
theorem foldl_setDbTurn (l : List Nat) : l.foldl (setDbTurn n) s = { s with
    sqDb := fun i => if i ∈ l ∧ (s.sq i).isSome then sqDoorbell n s.bufs i else s.sqDb i
    cqDb := fun i => if i ∈ l ∧ (s.cq i).isSome then cqDoorbell n s.bufs i else s.cqDb i } := by
  induction l generalizing s with
  | nil => simp
  | cons k l ih =>
      rw [List.foldl_cons, ih]
      simp only [setDbTurn, DbCtrl.mk.injEq, true_and, List.mem_cons]
      constructor
      · funext i
        by_cases hik : i = k <;> by_cases hk : (s.sq k).isSome <;> simp_all
      · funext i
        by_cases hik : i = k <;> by_cases hk : (s.cq k).isSome <;> simp_all

/-- What a configuration that succeeds leaves behind. -/
theorem nvmeSetDbMemory_done (h : nvmeSetDbMemory n s db = some (nvmeSuccess, t)) :
    db.Valid n ∧ t.bufs = db.bufs ∧ t.sq = s.sq ∧ t.cq = s.cq ∧
      ∀ i, 1 ≤ i → i ≤ n.numIoQueues →
        ((s.sq i).isSome → t.sqDb i = sqDoorbell n db.bufs i) ∧
          ((s.cq i).isSome → t.cqDb i = cqDoorbell n db.bufs i) := by
  unfold nvmeSetDbMemory at h
  split at h
  case isTrue =>
    have hne : nvmeInvalidField ||| nvmeDnr ≠ nvmeSuccess := invalidField_ne_success
    exact absurd (Prod.mk.inj (Option.some.inj h)).1 hne
  case isFalse hvalid =>
    obtain ⟨r, hr, heq⟩ := Option.map_eq_some_iff.mp h
    rw [foldl_setDbTurn] at hr heq
    unfold setDbMemory at hr
    split at hr
    case isTrue hfalse => cases hfalse
    case isFalse =>
      split at hr
      case isTrue => cases hr
      case isFalse =>
        cases hr
        cases heq
        refine ⟨not_not.mp hvalid, rfl, rfl, rfl, fun i h1 hi => ⟨fun hsq => ?_, fun hcq => ?_⟩⟩
        · exact if_pos ⟨List.mem_range'_1.mpr ⟨h1, by omega⟩, hsq⟩
        · exact if_pos ⟨List.mem_range'_1.mpr ⟨h1, by omega⟩, hcq⟩

/-- The completion queues have their numbers. -/
def CqNumbered (s : DbCtrl) : Prop := ∀ j c, s.cq j = some c → c.cqid = j

/-- A command leaves a submission queue in range alone or makes it. -/
def SqStep (n : DbCfg) (s t : DbCtrl) (i : Nat) : Prop :=
  ((t.sq i).isSome = (s.sq i).isSome ∧ t.sqDb i = s.sqDb i) ∨
    s.sq i = none ∧ t.sqDb i = initSqDoorbell n s.bufs i

/-- A command leaves a completion queue in range alone or makes it. -/
def CqStep (n : DbCfg) (s t : DbCtrl) (i : Nat) : Prop :=
  ((t.cq i).isSome = (s.cq i).isSome ∧ t.cqDb i = s.cqDb i) ∨
    s.cq i = none ∧ t.cqDb i = initCqDoorbell n s.bufs i

theorem nvmeCreateSq_cases {c : NvmeCreateSq} {prpList : Bool} {st : Status}
    (h : nvmeCreateSq n s c prpList = some (st, t)) :
    t.bufs = s.bufs ∧ (CqNumbered s → CqNumbered t) ∧
      ∀ i ≤ n.numIoQueues, SqStep n s t i ∧ CqStep n s t i := by
  obtain ⟨r, hr, heq⟩ := Option.map_eq_some_iff.mp h
  cases heq
  by_cases hok : SqChecks n.toQueueCfg s.toQueueCtrl c prpList
  case neg =>
    obtain ⟨st', hst, heq⟩ := createSq_of_not_checks hok
    cases hr.symm.trans heq
    refine ⟨rfl, fun h => h, fun i _ => ⟨.inl ⟨rfl, ?_⟩, .inl ⟨rfl, rfl⟩⟩⟩
    simp [hst]
  case pos =>
    obtain ⟨q, hq⟩ := hok.cq_live
    cases hr.symm.trans (createSq_of_checks hok hq)
    refine ⟨rfl, fun hid j c' hc => ?_, fun i hi => ⟨?_, .inl ⟨?_, rfl⟩⟩⟩
    · simp only [addSq_cq] at hc
      split at hc
      case isTrue hj =>
        cases hc
        exact (hid _ q hq).trans hj.symm
      case isFalse => exact hid j c' hc
    · by_cases hik : i = c.sqid.toNat
      · subst hik
        exact .inr ⟨hok.free hi, by simp⟩
      · exact .inl ⟨by rw [addSq_sq, if_neg hik], by simp [hik]⟩
    · rw [addSq_cq]
      split
      case isTrue hj => simp [hj, hq]
      case isFalse => rfl

theorem nvmeCreateCq_cases {c : NvmeCreateCq} {prpList : Bool} {st : Status} (hid : CqNumbered s)
    (h : nvmeCreateCq n s c prpList = some (st, t)) :
    t.bufs = s.bufs ∧ CqNumbered t ∧ ∀ i ≤ n.numIoQueues, SqStep n s t i ∧ CqStep n s t i := by
  obtain ⟨r, hr, heq⟩ := Option.map_eq_some_iff.mp h
  cases heq
  by_cases hok : CqChecks n.toQueueCfg s.toQueueCtrl c prpList
  case neg =>
    obtain ⟨st', u, hst, heq, hu⟩ := createCq_of_not_checks (hid _) hok
    cases hr.symm.trans heq
    rw [if_neg hst]
    rcases hu with rfl | ⟨hout, rfl⟩
    · exact ⟨rfl, hid, fun i _ => ⟨.inl ⟨rfl, rfl⟩, .inl ⟨rfl, rfl⟩⟩⟩
    -- a queue past the end of the table was freed
    · refine ⟨rfl, fun j c' hc => ?_, fun i hi => ⟨.inl ⟨rfl, rfl⟩, .inl ⟨?_, rfl⟩⟩⟩
      · simp only [QueueCtrl.setCq_cq_apply] at hc
        split at hc
        case isTrue => cases hc
        case isFalse => exact hid j c' hc
      · rw [QueueCtrl.setCq_cq_apply, if_neg (by omega)]
  case pos =>
    cases hr.symm.trans (createCq_of_checks (hid _) hok)
    refine ⟨rfl, fun j c' hc => ?_, fun i hi => ⟨.inl ⟨rfl, rfl⟩, ?_⟩⟩
    · simp only [addCq_cq] at hc
      split at hc
      case isTrue hj =>
        cases hc
        exact hj.symm
      case isFalse => exact hid j c' hc
    · by_cases hik : i = c.cqid.toNat
      · subst hik
        exact .inr ⟨hok.free hi, by simp⟩
      · exact .inl ⟨by rw [addCq_cq, if_neg hik], by simp [hik]⟩

/-- What a command does to the doorbells of the queues in range. -/
theorem createStep_cases (hid : CqNumbered s) (h : createStep n s cmd = some t) :
    t.bufs = s.bufs ∧ CqNumbered t ∧ ∀ i ≤ n.numIoQueues, SqStep n s t i ∧ CqStep n s t i := by
  cases cmd with
  | sq c prpList =>
      obtain ⟨r, hr, rfl⟩ := Option.map_eq_some_iff.mp h
      obtain ⟨hb, hid', hi⟩ := nvmeCreateSq_cases hr
      exact ⟨hb, hid' hid, hi⟩
  | cq c prpList =>
      obtain ⟨r, hr, rfl⟩ := Option.map_eq_some_iff.mp h
      exact nvmeCreateCq_cases hid hr

/-! ## the commands in any order -/

/-- The queues that are made after the configuration, which `mid` was the state before. -/
structure LateInv (n : DbCfg) (db : DbConfig) (mid s : DbCtrl) : Prop where
  bufs : s.bufs = db.bufs
  numbered : CqNumbered s
  kept : ∀ i ≤ n.numIoQueues, (mid.sq i).isSome → (s.sq i).isSome
  sqDb : ∀ i, 1 ≤ i → i ≤ n.numIoQueues → (s.sq i).isSome → s.sqDb i =
    if (mid.sq i).isSome then sqDoorbell n db.bufs i else initSqDoorbell n db.bufs i
  cqDb : ∀ i, 1 ≤ i → i ≤ n.numIoQueues → (s.cq i).isSome → s.cqDb i = cqDoorbell n db.bufs i

theorem DbConfig.Valid.initCqDoorbell (h : db.Valid n) (hi : 1 ≤ i) :
    initCqDoorbell n db.bufs i = cqDoorbell n db.bufs i :=
  if_pos ⟨by omega, h.1.1, h.2.1⟩

theorem LateInv.step (hvalid : db.Valid n) (h : LateInv n db mid s)
    (hstep : createStep n s cmd = some t) : LateInv n db mid t := by
  obtain ⟨hb, hid, hqueues⟩ := createStep_cases h.numbered hstep
  refine ⟨hb.trans h.bufs, hid, fun i hi hmid => ?_, fun i h1 hi hlive => ?_,
    fun i h1 hi hlive => ?_⟩
  · have hlive := h.kept i hi hmid
    rcases (hqueues i hi).1 with ⟨hsame, -⟩ | ⟨hnone, -⟩
    · rwa [hsame]
    · simp [hnone] at hlive
  · rcases (hqueues i hi).1 with ⟨hsame, hdb⟩ | ⟨hnone, hdb⟩
    · rw [hdb, h.sqDb i h1 hi (hsame ▸ hlive)]
    · have hmid : ¬ (mid.sq i).isSome := fun hmid => by simpa [hnone] using h.kept i hi hmid
      rw [hdb, if_neg hmid, h.bufs]
  · rcases (hqueues i hi).2 with ⟨hsame, hdb⟩ | ⟨-, hdb⟩
    · rw [hdb, h.cqDb i h1 hi (hsame ▸ hlive)]
    · rw [hdb, h.bufs, hvalid.initCqDoorbell h1]

/-- Queues are made, then the buffers configured, then more queues made; `mid` is the state
before the configuration. -/
def Configured (n : DbCfg) (db : DbConfig) (s₀ mid s : DbCtrl) : Prop :=
  ∃ early late t, Run (fun s c t => createStep n s c = some t) s₀ early mid ∧
    nvmeSetDbMemory n mid db = some (nvmeSuccess, t) ∧
    Run (fun s c t => createStep n s c = some t) t late s

theorem Configured.lateInv {s₀ : DbCtrl} (h₀ : TableInv n.toQueueCfg s₀.toQueueCtrl)
    (h : Configured n db s₀ mid s) : db.Valid n ∧ LateInv n db mid s := by
  obtain ⟨early, late, t, hearly, hdb, hlate⟩ := h
  obtain ⟨hvalid, hb, hsq, hcq, hqueues⟩ := nvmeSetDbMemory_done hdb
  have hmid : CqNumbered mid :=
    hearly.invariant (fun s c t hs hstep => (createStep_cases hs hstep).2.1) h₀.cqid_eq
  have ht : LateInv n db mid t :=
    { bufs := hb
      numbered := fun j c hc => hmid j c (hcq ▸ hc)
      kept := fun i _ hi => hsq ▸ hi
      sqDb := fun i h1 hi hlive => by
        rw [hsq] at hlive
        rw [if_pos hlive, (hqueues i h1 hi).1 hlive]
      cqDb := fun i h1 hi hlive => (hqueues i h1 hi).2 (hcq ▸ hlive) }
  exact ⟨hvalid, hlate.invariant (fun s c t hs hstep => hs.step hvalid hstep) ht⟩

/-- The sums of `nvme_init_sq` are those of `nvme_set_db_memory` after all, modulo the size
of the address space. -/
def DbConfig.Wraps (n : DbCfg) (db : DbConfig) (i : Nat) : Prop :=
  if db.eisHva = 0 then db.prp2 + .ofNat (2 * i * n.dbbufEntrySz) = 0
  else db.eisHva + .ofNat (2 * i) + .ofNat n.dbbufEntrySz =
      db.prp2 + .ofNat (2 * i * n.dbbufEntrySz) ∧
    db.eisHva + .ofNat (2 * i * n.dbbufEntrySz) = 0

theorem DbConfig.Valid.initSqDoorbell_eq_iff (h : db.Valid n) (hi : 1 ≤ i) :
    initSqDoorbell n db.bufs i = sqDoorbell n db.bufs i ↔ db.Wraps n i := by
  have hnew : i ≠ 0 ∧ db.bufs.dbsAddr ≠ 0 ∧ db.bufs.eisAddr ≠ 0 := ⟨by omega, h.1.1, h.2.1⟩
  rw [initSqDoorbell, if_pos hnew, sqDoorbell, DbBufs.doorbellAt, DbConfig.Wraps]
  simp only [DbConfig.bufs, Doorbell.mk.injEq, true_and]
  by_cases hva : db.eisHva = 0
  · simp [hva, eq_comm]
  · simp [hva, eq_comm]

/-- The doorbells of the queues `i` that live in both. -/
def SameDoorbells (s s' : DbCtrl) (i : Nat) : Prop :=
  ((s.sq i).isSome → (s'.sq i).isSome → s.sqDb i = s'.sqDb i) ∧
    ((s.cq i).isSome → (s'.cq i).isSome → s.cqDb i = s'.cqDb i)

/-- **Doorbell buffers**: two orders of the commands leave the same doorbells exactly where
each submission queue is made on the same side of the configuration in both. -/
theorem doorbells_agree_iff {s₀ s₀' : DbCtrl} (h₀ : TableInv n.toQueueCfg s₀.toQueueCtrl)
    (h₀' : TableInv n.toQueueCfg s₀'.toQueueCtrl) (h : Configured n db s₀ mid s)
    (h' : Configured n db s₀' mid' s') :
    (∀ i, 1 ≤ i → i ≤ n.numIoQueues → SameDoorbells s s' i) ↔
      ∀ i, 1 ≤ i → i ≤ n.numIoQueues → (s.sq i).isSome → (s'.sq i).isSome →
        ((mid.sq i).isSome ↔ (mid'.sq i).isSome) ∨ db.Wraps n i := by
  obtain ⟨hvalid, hs⟩ := h.lateInv h₀
  obtain ⟨-, hs'⟩ := h'.lateInv h₀'
  have hcq : ∀ i, 1 ≤ i → i ≤ n.numIoQueues → (s.cq i).isSome → (s'.cq i).isSome →
      s.cqDb i = s'.cqDb i := by
    intro i h1 hi hlive hlive'
    rw [hs.cqDb i h1 hi hlive, hs'.cqDb i h1 hi hlive']
  have hsq : ∀ i, 1 ≤ i → i ≤ n.numIoQueues → (s.sq i).isSome → (s'.sq i).isSome →
      (s.sqDb i = s'.sqDb i ↔
        ((mid.sq i).isSome ↔ (mid'.sq i).isSome) ∨ db.Wraps n i) := by
    intro i h1 hi hlive hlive'
    rw [hs.sqDb i h1 hi hlive, hs'.sqDb i h1 hi hlive', ← hvalid.initSqDoorbell_eq_iff h1]
    by_cases hm : (mid.sq i).isSome <;> by_cases hm' : (mid'.sq i).isSome <;>
      simp [hm, hm', eq_comm]
  constructor
  · intro hall i h1 hi hlive hlive'
    exact (hsq i h1 hi hlive hlive').mp ((hall i h1 hi).1 hlive hlive')
  · intro hside i h1 hi
    exact ⟨fun hlive hlive' => (hsq i h1 hi hlive hlive').mpr (hside i h1 hi hlive hlive'),
      hcq i h1 hi⟩

/-! ## small histories -/

/-- The states before the configuration and at the end. -/
def execConfigured (n : DbCfg) (db : DbConfig) (early late : List CreateCmd) (s₀ : DbCtrl) :
    Option (DbCtrl × DbCtrl) :=
  (exec (createStep n) early s₀).bind fun mid => (nvmeSetDbMemory n mid db).bind fun r =>
    if r.1 = nvmeSuccess then (exec (createStep n) late r.2).map fun s => (mid, s) else none

theorem configured_of_exec {early late : List CreateCmd} {s₀ : DbCtrl}
    (h : execConfigured n db early late s₀ = some (mid, s)) : Configured n db s₀ mid s := by
  obtain ⟨mid', hearly, h⟩ := Option.bind_eq_some_iff.mp h
  obtain ⟨⟨st, t⟩, hdb, h⟩ := Option.bind_eq_some_iff.mp h
  dsimp only at h
  split at h
  case isFalse => cases h
  case isTrue hst =>
    obtain ⟨s', hlate, heq⟩ := Option.map_eq_some_iff.mp h
    cases heq
    exact ⟨early, late, t, run_of_exec hearly, hst ▸ hdb, run_of_exec hlate⟩

def dbPairs : DbCfg where
  numIoQueues := 2
  maxQEnts := 0x7ff
  cqr := true
  pageSize := 4096
  multipollerEnabled := false
  bbssd := true
  dbStride := 0
  stride_le := Nat.zero_le _

/-- The buffers are in host memory that `dma_memory_map` does not map. -/
def plainBufs : DbConfig where
  prp1 := 0x30000
  prp2 := 0x40000
  dbsHva := 0
  eisHva := 0

def startedDb : DbCtrl where
  toQueueCtrl := addAdmin .reset 31 31
  bufs := {}
  sqDb _ := {}
  cqDb _ := {}

theorem startedDb_tableInv : TableInv dbPairs.toQueueCfg startedDb.toQueueCtrl :=
  TableInv.reset.startCtrl (startCtrl_of_checks rfl rfl (by decide) (by decide))

def createCq1 : CreateCmd := .cq ⟨0x10000, 1, 7, 3, 1⟩ false

def createCq2 : CreateCmd := .cq ⟨0x18000, 2, 7, 3, 2⟩ false

def createSq1 : CreateCmd := .sq ⟨0x20000, 1, 7, 1, 1⟩ false

theorem doorbells_agree_small :
    ∃ mid mid' s s', Configured dbPairs plainBufs startedDb mid s ∧
      Configured dbPairs plainBufs startedDb mid' s' ∧ mid.cq 2 = none ∧ (mid'.cq 2).isSome ∧
      ∀ i, 1 ≤ i → i ≤ dbPairs.numIoQueues → SameDoorbells s s' i := by
  have hends : (execConfigured dbPairs plainBufs [createCq1, createSq1] [createCq2]
      startedDb).map (fun r => ((r.1.sq 1).isSome, (r.2.sq 2).isSome, (r.1.cq 2).isSome)) =
      some (true, false, false) := by decide +kernel
  have hends' : (execConfigured dbPairs plainBufs [createCq2, createCq1, createSq1] []
      startedDb).map (fun r => ((r.1.sq 1).isSome, (r.1.cq 2).isSome)) =
      some (true, true) := by decide +kernel
  obtain ⟨⟨mid, s⟩, h, heq⟩ := Option.map_eq_some_iff.mp hends
  obtain ⟨⟨mid', s'⟩, h', heq'⟩ := Option.map_eq_some_iff.mp hends'
  simp only [Prod.mk.injEq] at heq heq'
  obtain ⟨hsq1, hsq2, hcq2⟩ := heq
  have hside := (doorbells_agree_iff startedDb_tableInv startedDb_tableInv
    (configured_of_exec h) (configured_of_exec h')).mpr fun i h1 hi hlive _ => by
      obtain rfl | rfl : i = 1 ∨ i = 2 := by
        have : i ≤ 2 := hi
        omega
      · exact .inl (by rw [hsq1, heq'.1])
      · simp [hsq2] at hlive
  exact ⟨mid, mid', s, s', configured_of_exec h, configured_of_exec h', by simpa using hcq2,
    heq'.2, hside⟩

/-- A submission queue made after the configuration has no `eventidx_addr`. -/
theorem doorbells_depend_on_order :
    ¬ ∀ (n : DbCfg) (db : DbConfig) (s₀ mid mid' s s' : DbCtrl),
      TableInv n.toQueueCfg s₀.toQueueCtrl → (db.dbsHva = 0 ↔ db.eisHva = 0) →
      Configured n db s₀ mid s → Configured n db s₀ mid' s' →
      ∀ i, 1 ≤ i → i ≤ n.numIoQueues → SameDoorbells s s' i := by
  intro hall
  have hends : (execConfigured dbPairs plainBufs [createCq1, createSq1] [] startedDb).map
      (fun r => ((r.2.sq 1).isSome, r.2.sqDb 1)) =
      some (true, ⟨0x30008, 0, 0x40008, 0⟩) := by decide +kernel
  have hends' : (execConfigured dbPairs plainBufs [createCq1] [createSq1] startedDb).map
      (fun r => ((r.2.sq 1).isSome, r.2.sqDb 1)) = some (true, ⟨0x30008, 0, 0, 0⟩) := by
    decide +kernel
  obtain ⟨⟨mid, s⟩, h, heq⟩ := Option.map_eq_some_iff.mp hends
  obtain ⟨⟨mid', s'⟩, h', heq'⟩ := Option.map_eq_some_iff.mp hends'
  simp only [Prod.mk.injEq] at heq heq'
  have hsame := hall dbPairs plainBufs startedDb mid mid' s s' startedDb_tableInv Iff.rfl
    (configured_of_exec h) (configured_of_exec h') 1 (Nat.le_refl 1) (by decide)
  have hdb := hsame.1 heq.1 heq'.1
  rw [heq.2, heq'.2] at hdb
  exact absurd hdb (by decide)

end Femu.Queue

import Mathlib.Logic.Function.Basic
import Femu.Lib.Loop
import Femu.Nvme.Dma

/-!
# Femu.Nvme.ErrorLog

The error log that failed commands leave behind (`nvme_set_error_page`): a ring
of entries in which `elp_index` is the next one to fill.

The array has `elpe + 1` entries, `elpe` being zero-based. The index is taken modulo `elpe`
and `nvme_error_log_info` hands out `elpe` entries: the last one is never used.
-/

namespace Femu.Nvme

open Lib

/-- `NvmeErrorLog`. -/
structure NvmeErrorLog where
  errorCount : Nat
  sqid : Nat
  cid : Nat
  statusField : Status
  paramErrorLocation : Nat
  lba : Nat
  nsid : Nat
deriving DecidableEq

/-- The fields of `FemuCtrl` that make up the error log. The three counters are
`uint8_t`. -/
structure ErrorLog where
  elpes : Nat → NvmeErrorLog
  elpIndex : Nat
  errorCount : Nat
  numErrors : Nat

/-- `nvme_set_error_page`. The remainder by `elpe` is a division by zero when the
zero-based size of the log is zero. -/
def nvmeSetErrorPage (elpe : Nat) (l : ErrorLog) (sqid cid : Nat) (status : Status)
    (location lba nsid : Nat) : Option ErrorLog :=
  if elpe = 0 then
    none
  else
    some {
      elpes := Function.update l.elpes l.elpIndex
        ⟨l.errorCount, sqid, cid, status, location, u64 lba, nsid⟩
      errorCount := (l.errorCount + 1) % 2 ^ 8
      elpIndex := (l.elpIndex + 1) % elpe
      numErrors := (l.numErrors + 1) % 2 ^ 8 }

/-! ## the log page -/

/-- `sizeof(NvmeErrorLog)`. -/
def nvmeErrorLogSize : Nat := 64

/-- An entry in memory: `vs` and the reserved bytes stay zero. -/
def NvmeErrorLog.bytes (e : NvmeErrorLog) : List UInt8 :=
  leBytes 8 e.errorCount ++ leBytes 2 e.sqid ++ leBytes 2 e.cid ++
    leBytes 2 e.statusField.toNat ++ leBytes 2 e.paramErrorLocation ++ leBytes 8 e.lba ++
    leBytes 4 e.nsid ++ List.replicate 36 0

/-- The first entries of the array. -/
def ErrorLog.entries (l : ErrorLog) (cnt : Nat) : List NvmeErrorLog :=
  (List.range cnt).map l.elpes

/-- The bytes that `nvme_error_log_info` hands to `dma_read_prp`. -/
def errorLogBuf (elpe : UInt8) (l : ErrorLog) (bufLen : UInt32) : List UInt8 :=
  let transLen := min (nvmeErrorLogSize * elpe.toNat) bufLen.toNat
  ((l.entries (elpe.toNat + 1)).flatMap NvmeErrorLog.bytes).take transLen

/-- `nvme_error_log_info`: the status, `aer_mask` and the memory. -/
def nvmeErrorLogInfo (n : DmaCtrl) (m : Mem) (aerMask elpe : UInt8) (l : ErrorLog) (cmd : NvmeCmd)
    (bufLen : UInt32) : Option (Status × UInt8 × Mem) :=
  (dmaReadPrp n m (errorLogBuf elpe l bufLen) cmd.prp1.toNat cmd.prp2.toNat).map fun r =>
    (r.1, aerMask &&& ~~~1, r.2)

@[simp] theorem length_bytes (e : NvmeErrorLog) : e.bytes.length = nvmeErrorLogSize := by
  simp [NvmeErrorLog.bytes, nvmeErrorLogSize]

@[simp] theorem length_entries (l : ErrorLog) (cnt : Nat) : (l.entries cnt).length = cnt := by
  simp [ErrorLog.entries]

theorem length_flatMap_bytes (es : List NvmeErrorLog) :
    (es.flatMap NvmeErrorLog.bytes).length = es.length * nvmeErrorLogSize := by
  simp [List.length_flatMap, List.map_const']

theorem entries_add (l : ErrorLog) (i j : Nat) :
    l.entries (i + j) = l.entries i ++ (List.range' i j).map l.elpes := by
  rw [ErrorLog.entries, ErrorLog.entries, List.range_add, List.map_append, List.range'_eq_map_range]

/-! ## histories -/

/-- The arguments of a call of `nvme_set_error_page`. -/
structure NvmeError where
  sqid : UInt16
  cid : UInt16
  status : Status
  location : UInt16
  lba : UInt64
  nsid : UInt32

/-- The entry of an error. -/
def NvmeError.entry (e : NvmeError) (count : Nat) : NvmeErrorLog where
  errorCount := count
  sqid := e.sqid.toNat
  cid := e.cid.toNat
  statusField := e.status
  paramErrorLocation := e.location.toNat
  lba := e.lba.toNat
  nsid := e.nsid.toNat

/-- The log, with the entries that have been written so far, oldest first. -/
structure Logged where
  log : ErrorLog
  written : List NvmeErrorLog

/-- The log that `g_malloc0` makes. -/
def Logged.init : Logged where
  log := ⟨fun _ => ⟨0, 0, 0, 0, 0, 0, 0⟩, 0, 0, 0⟩
  written := []

def logError (elpe : UInt8) (t : Logged) (e : NvmeError) : Option Logged :=
  (nvmeSetErrorPage elpe.toNat t.log e.sqid.toNat e.cid.toNat e.status e.location.toNat
    e.lba.toNat e.nsid.toNat).map fun log => ⟨log, t.written ++ [e.entry t.log.errorCount]⟩

def logErrors (elpe : UInt8) (errs : List NvmeError) : Option Logged :=
  runAll (logError elpe) errs .init

/-- What a log of `elpe + 1` entries should do with the errors. -/
structure Keeps (elpe : UInt8) (errs : List NvmeError) (t : Logged) : Prop where
  index_lt : t.log.elpIndex < elpe.toNat + 1
  recent : (t.log.entries (min errs.length (elpe.toNat + 1))).Perm
    (t.written.drop (errs.length - min errs.length (elpe.toNat + 1)))
  count_lt : t.written.Pairwise fun earlier later => earlier.errorCount < later.errorCount
  returned : ∀ bufLen : UInt32, nvmeErrorLogSize * (elpe.toNat + 1) ≤ bufLen.toNat →
    (t.log.entries (min errs.length (elpe.toNat + 1))).flatMap NvmeErrorLog.bytes <+:
      errorLogBuf elpe t.log bufLen

/-- Every call returns, and the log keeps what it should after each of them. -/
def RingOk (elpe : UInt8) (errs : List NvmeError) : Prop :=
  ∀ errs', errs' <+: errs → ∃ t, logErrors elpe errs' = some t ∧ Keeps elpe errs' t

/-! ## up to `elpe` errors -/

/-- The log in its first pass. -/
structure FirstPass (elpe : UInt8) (errs : List NvmeError) (t : Logged) : Prop where
  index : t.log.elpIndex = errs.length % elpe.toNat
  count : t.log.errorCount = errs.length
  written : t.written = t.log.entries errs.length
  counts : t.written.map NvmeErrorLog.errorCount = List.range errs.length

theorem firstPass_logError {elpe : UInt8} {errs : List NvmeError} {t : Logged}
    (h : FirstPass elpe errs t) (hlt : errs.length < elpe.toNat) (e : NvmeError) :
    ∃ t', logError elpe t e = some t' ∧ FirstPass elpe (errs ++ [e]) t' := by
  have hmax := elpe.toNat_lt
  have hmod : errs.length % elpe.toNat = errs.length := Nat.mod_eq_of_lt hlt
  have hindex := h.index
  rw [hmod] at hindex
  refine ⟨_, by rw [logError, nvmeSetErrorPage, if_neg (by omega), Option.map_some], ?_⟩
  constructor
  case index => simp [hindex]
  case count =>
    simp only [h.count, List.length_append, List.length_singleton]
    omega
  case written =>
    have hlba : u64 e.lba.toNat = e.lba.toNat := u64_eq e.lba.toNat_lt
    have hold : ∀ x, (List.range errs.length).map (Function.update t.log.elpes errs.length x) =
        t.log.entries errs.length := by
      intro x
      refine List.map_congr_left fun i hi => ?_
      rw [Function.update_of_ne (List.mem_range.mp hi).ne]
    rw [h.written]
    simp only [ErrorLog.entries, List.length_append, List.length_singleton, List.range_succ,
      List.map_append, List.map_singleton, hindex, Function.update_self, hlba, hold]
    rfl
  case counts =>
    simp [h.counts, h.count, List.range_succ, NvmeError.entry]

theorem firstPass_logErrors {elpe : UInt8} {errs : List NvmeError} (hle : errs.length ≤ elpe.toNat) :
    ∃ t, logErrors elpe errs = some t ∧ FirstPass elpe errs t := by
  induction errs using List.reverseRecOn with
  | nil => exact ⟨.init, rfl, by simp [Logged.init], rfl, rfl, rfl⟩
  | append_singleton errs e ih =>
      rw [List.length_append, List.length_singleton] at hle
      obtain ⟨t, ht, hfirst⟩ := ih (by omega)
      obtain ⟨t', ht', hnext⟩ := firstPass_logError hfirst (by omega) e
      refine ⟨t', ?_, hnext⟩
      rw [logErrors, runAll_append]
      rw [logErrors] at ht
      rw [ht, Option.bind_some, runAll_cons, ht', Option.bind_some, runAll_nil]

theorem FirstPass.keeps {elpe : UInt8} {errs : List NvmeError} {t : Logged}
    (h : FirstPass elpe errs t) (hle : errs.length ≤ elpe.toNat) : Keeps elpe errs t := by
  have hmin : min errs.length (elpe.toNat + 1) = errs.length := by omega
  constructor
  case index_lt =>
    rw [h.index]
    have := Nat.mod_le errs.length elpe.toNat
    omega
  case recent => rw [hmin, Nat.sub_self, List.drop_zero, h.written]
  case count_lt =>
    rw [← List.pairwise_map, h.counts]
    exact List.pairwise_lt_range
  case returned =>
    intro bufLen hbuf
    rw [hmin, errorLogBuf]
    refine List.prefix_take_iff.mpr ⟨?_, ?_⟩
    · have hsplit : elpe.toNat + 1 = errs.length + (elpe.toNat + 1 - errs.length) := by omega
      rw [hsplit, entries_add, List.flatMap_append]
      exact List.prefix_append _ _
    · rw [length_flatMap_bytes, length_entries]
      rw [nvmeErrorLogSize] at hbuf ⊢
      omega

/-! ## further errors -/

/-- The log page holds no more than `elpe` entries. -/
theorem not_keeps {elpe : UInt8} {errs : List NvmeError} (h : elpe.toNat < errs.length)
    (t : Logged) : ¬ Keeps elpe errs t := by
  intro hkeeps
  have hmax := elpe.toNat_lt
  have hmin : min errs.length (elpe.toNat + 1) = elpe.toNat + 1 := by omega
  have hprefix := hkeeps.returned 16384 (by
    rw [nvmeErrorLogSize]
    show _ ≤ 16384
    omega)
  have hlen := hprefix.length_le
  rw [hmin, length_flatMap_bytes, length_entries, errorLogBuf, List.length_take,
    nvmeErrorLogSize] at hlen
  omega

/-- **Error log**: the log keeps the errors if and only if they are no more than `elpe`, which
is one less than it has room for. -/
theorem keeps_errors_iff (elpe : UInt8) (errs : List NvmeError) :
    RingOk elpe errs ↔ errs.length ≤ elpe.toNat := by
  constructor
  case mp =>
    intro h
    by_contra hgt
    obtain ⟨t, -, hkeeps⟩ := h errs List.prefix_rfl
    exact not_keeps (Nat.lt_of_not_le hgt) t hkeeps
  case mpr =>
    intro hle errs' hpre
    have hle' := hpre.length_le.trans hle
    obtain ⟨t, ht, hfirst⟩ := firstPass_logErrors hle'
    exact ⟨t, ht, hfirst.keeps hle'⟩

/-- Four errors in the four entries of the default size. -/
theorem fourth_error_lost :
    ¬ RingOk 3 [⟨1, 0, 0x80, 40, 1000, 1⟩, ⟨1, 1, 0x80, 40, 2000, 1⟩, ⟨1, 2, 0x80, 40, 3000, 1⟩,
      ⟨1, 3, 0x80, 40, 4000, 1⟩] := by
  intro h
  obtain ⟨t, -, hkeeps⟩ := h _ List.prefix_rfl
  exact not_keeps (by decide) t hkeeps

end Femu.Nvme

import Femu.Lib.Traced
import Femu.Nvme.PrpList

/-!
# Femu.Ocssd.LogPage

The chunk information log page of the open-channel SSD 2.0 (`nvme_get_log`,
`oc20_get_log`, `oc20_set_log` and `oc20_chunk_info`): the host reads and writes a
range of the table of chunk descriptors.

The range is given by an offset of 64 bits and a number of double words, and is checked
against the size of the table in 64 bits. A range that does not pass ends the process,
and so does an identifier that is not that of a namespace.
-/

namespace Femu.Ocssd

open Nvme Lib Lib.Traced

/-! ## the device -/

def nvmeInvalidLogId : Status := 0x0109

def nvmeAdmCmdGetLogPage : UInt8 := 0x02
def oc20AdmCmdSetLogPage : UInt8 := 0xc1

def nvmeLogErrorInfo : Nat := 0x01
def nvmeLogSmartInfo : Nat := 0x02
def nvmeLogFwSlotInfo : Nat := 0x03
def nvmeLogCmdEffects : Nat := 0x05
def oc20ChunkInfoLid : Nat := 0xca

/-- `sizeof(Oc20CS)`. -/
def oc20CsSize : Nat := 32

/-- The fields of `FemuCtrl` that the log pages need, and the number of chunks of the
namespace. -/
structure LogCtrl extends DmaCtrl where
  mdts : Nat
  chksTotal : UInt32

/-- The memory of the host, and that of the process by its distance from `chunk_info` on,
in 64 bits. -/
structure LogState where
  mem : Mem
  chunkInfo : Bytes

/-- An access of the process: the distance from `chunk_info` on, and the length. -/
inductive TableAccess
  | read (off len : Nat)
  | write (off len : Nat)
deriving DecidableEq

abbrev LogM : Type → Type := Traced LogState TableAccess

/-! ## transfers -/

/-- The bytes from an address of 64 bits on. -/
def bytesFrom (m : Bytes) (off len : Nat) : List UInt8 :=
  (List.range len).map fun i => m (u64 (off + i))

/-- The memory with bytes put at an address of 64 bits. -/
def bytesPut (m : Bytes) (off : Nat) (bs : List UInt8) : Bytes := fun a =>
  if a < 2 ^ 64 then (bs[u64 (a + 2 ^ 64 - off)]?).getD (m a) else m a

/-- `oc20_dma_read` from the table. -/
def oc20DmaRead (n : LogCtrl) (off len : Nat) (cmd : NvmeCmd) : LogM Status := do
  let status ← ofState fun s =>
    (dmaReadPrp n.toDmaCtrl s.mem (bytesFrom s.chunkInfo off len) cmd.prp1.toNat
      cmd.prp2.toNat).map fun r => (r.1, { s with mem := r.2 })
  if status = nvmeSuccess then
    emit (.read off len)
  return status

/-- `oc20_dma_write` to the table. -/
def oc20DmaWrite (n : LogCtrl) (off len : Nat) (cmd : NvmeCmd) : LogM Status := do
  let status ← ofState fun s =>
    (dmaWritePrp n.toDmaCtrl s.mem len cmd.prp1.toNat cmd.prp2.toNat).map fun r =>
      (r.1, { s with chunkInfo := bytesPut s.chunkInfo off r.2 })
  if status = nvmeSuccess then
    emit (.write off len)
  return status

/-! ## the commands -/

/-- `log_len`: the size of the table, in 32 bits. -/
def LogCtrl.logLen (n : LogCtrl) : Nat := u32 (n.chksTotal.toNat * oc20CsSize)

/-- `oc20_chunk_info`. -/
def oc20ChunkInfo (n : LogCtrl) (cmd : NvmeCmd) (bufLen off : Nat) : LogM Status :=
  let transLen := min n.logLen bufLen
  if cmd.nsid.toNat = 0 ∨ numNamespaces < cmd.nsid.toNat then
    abort
  else if n.logLen < u64 (off + bufLen) then
    abort
  else if cmd.opcode = nvmeAdmCmdGetLogPage then
    oc20DmaRead n off transLen cmd
  else
    oc20DmaWrite n off transLen cmd

/-- `((numdu << 16) | numdl)`: the double words that are asked for, zero-based. -/
def numd (cmd : NvmeCmd) : Nat :=
  u32 ((cmd.cdw11.toNat &&& 0xffff) <<< 16) ||| (cmd.cdw10.toNat >>> 16)

/-- `len`. -/
def logBufLen (cmd : NvmeCmd) : Nat := u32 (u32 (numd cmd + 1) <<< 2)

/-- `off`. -/
def logOff (cmd : NvmeCmd) : Nat := u64 (cmd.cdw13.toNat <<< 32) ||| cmd.cdw12.toNat

/-- `oc20_get_log` and `oc20_set_log`, which do the same. -/
def oc20Log (n : LogCtrl) (cmd : NvmeCmd) : LogM Status :=
  if cmd.cdw10.toNat &&& 0xff = oc20ChunkInfoLid then
    oc20ChunkInfo n cmd (logBufLen cmd) (logOff cmd)
  else
    return nvmeInvalidLogId ||| nvmeDnr

def oc20GetLog (n : LogCtrl) (cmd : NvmeCmd) : LogM Status := oc20Log n cmd

def oc20SetLog (n : LogCtrl) (cmd : NvmeCmd) : LogM Status := oc20Log n cmd

/-- `nvme_check_mdts`. -/
def LogCtrl.nvmeCheckMdts (n : LogCtrl) (len : Nat) : Status :=
  if n.mdts ≠ 0 ∧ u32 (n.pageSize <<< n.mdts) < len then nvmeInvalidField ||| nvmeDnr
  else nvmeSuccess

/-- The handlers of other log pages, by their identifier, and of other commands. -/
structure OtherHandlers where
  log : Nat → LogM Status
  cmd : LogM Status

/-- `nvme_get_log`. -/
def nvmeGetLog (n : LogCtrl) (other : OtherHandlers) (cmd : NvmeCmd) : LogM Status :=
  let lid := cmd.cdw10.toNat &&& 0xffff
  if logOff cmd &&& 0x3 ≠ 0 then
    return nvmeInvalidField ||| nvmeDnr
  else if n.nvmeCheckMdts (logBufLen cmd) ≠ nvmeSuccess then
    return n.nvmeCheckMdts (logBufLen cmd)
  else if lid = nvmeLogErrorInfo ∨ lid = nvmeLogSmartInfo ∨ lid = nvmeLogFwSlotInfo ∨
      lid = nvmeLogCmdEffects then
    other.log lid
  else
    oc20GetLog n cmd

/-- `nvme_admin_cmd`, and the command that it leaves to `oc20_admin_cmd`. -/
def nvmeAdminCmd (n : LogCtrl) (other : OtherHandlers) (cmd : NvmeCmd) : LogM Status :=
  if cmd.opcode = nvmeAdmCmdGetLogPage then nvmeGetLog n other cmd
  else if cmd.opcode = oc20AdmCmdSetLogPage then oc20SetLog n cmd
  else other.cmd

/-! ## statement -/

/-- The command is one for the chunk information log. -/
structure ChunkInfoCmd (cmd : NvmeCmd) : Prop where
  opcode : cmd.opcode = nvmeAdmCmdGetLogPage ∨ cmd.opcode = oc20AdmCmdSetLogPage
  lid : cmd.cdw10.toNat &&& 0xff = oc20ChunkInfoLid

/-- The number of bytes that the command asks for. -/
def askedLen (cmd : NvmeCmd) : Nat := 4 * (numd cmd + 1)

/-- The segments of host memory that the command gives for the bytes. -/
def hostSegments (n : LogCtrl) (m : Mem) (cmd : NvmeCmd) : List ScatterGatherEntry :=
  prpSegments n.toDmaCtrl m n.maxPrpEnts cmd.prp1.toNat cmd.prp2.toNat (askedLen cmd)

/-- The bytes of the range, and no others, have been copied to the host or from it. -/
def CopiesRange (n : LogCtrl) (cmd : NvmeCmd) (s : LogState) (l : List TableAccess)
    (s' : LogState) : Prop :=
  if cmd.opcode = nvmeAdmCmdGetLogPage then
    l = [.read (logOff cmd) (askedLen cmd)] ∧ s'.chunkInfo = s.chunkInfo ∧
      s'.mem.host = writeSegments (hostSegments n s.mem cmd)
        (slice s.chunkInfo (logOff cmd) (askedLen cmd)) s.mem.host
  else
    l = [.write (logOff cmd) (askedLen cmd)] ∧ s'.mem = s.mem ∧
      s'.chunkInfo = overwrite s.chunkInfo (logOff cmd)
        ((hostSegments n s.mem cmd).flatMap fun e => readBytes s.mem.host e.base e.len)

/-- A run comes back. With an error it has touched nothing, and otherwise it has copied the
range that was asked for, which is one of the table. -/
def ServesRange (n : LogCtrl) (cmd : NvmeCmd) (s : LogState)
    (r : List TableAccess × Option (Status × LogState)) : Prop :=
  ∃ status s', r.2 = some (status, s') ∧
    (status ≠ nvmeSuccess → r.1 = [] ∧ s' = s) ∧
    (status = nvmeSuccess →
      logOff cmd + askedLen cmd ≤ n.chksTotal.toNat * oc20CsSize ∧ CopiesRange n cmd s r.1 s')

/-- `nvme_get_log` refuses the command before it looks at the page. -/
def LogCtrl.Refuses (n : LogCtrl) (cmd : NvmeCmd) : Prop :=
  cmd.opcode = nvmeAdmCmdGetLogPage ∧
    (logOff cmd &&& 0x3 ≠ 0 ∨ n.nvmeCheckMdts (logBufLen cmd) ≠ nvmeSuccess)

/-- `trans_len`. -/
def LogCtrl.transLen (n : LogCtrl) (cmd : NvmeCmd) : Nat := min n.logLen (logBufLen cmd)

/-- The entries that the transfer needs are there. -/
def LogCtrl.PrpsOk (n : LogCtrl) (m : Mem) (cmd : NvmeCmd) : Prop :=
  PrpsGood n.toDmaCtrl m n.maxPrpEnts cmd.prp1.toNat cmd.prp2.toNat (n.transLen cmd)

/-- The command names the namespace, its PRP entries can be followed to their end, and the
range ends before the size of the table in 32 bits. A range that only the sum in 64 bits
shows to be in the table is refused by the PRP entries. -/
structure LogCtrl.InTable (n : LogCtrl) (m : Mem) (cmd : NvmeCmd) : Prop where
  nsid : cmd.nsid = 1
  ends : n.toDmaCtrl.MapEnds cmd.prp1.toNat cmd.prp2.toNat (n.transLen cmd)
  range : logOff cmd + askedLen cmd ≤ n.logLen ∨
    u64 (logOff cmd + logBufLen cmd) ≤ n.logLen ∧ ¬ n.PrpsOk m cmd

/-! ## the range -/

@[simp] theorem length_bytesFrom (m : Bytes) (off len : Nat) :
    (bytesFrom m off len).length = len := by simp [bytesFrom]

theorem bytesFrom_eq (m : Bytes) {off len : Nat} (h : off + len ≤ 2 ^ 64) :
    bytesFrom m off len = slice m off len := by
  refine List.map_congr_left fun i hi => ?_
  have hi := List.mem_range.mp hi
  rw [u64_eq (by omega)]

@[simp] theorem bytesPut_nil (m : Bytes) (off : Nat) : bytesPut m off [] = m := by
  funext a
  simp [bytesPut]

theorem bytesPut_eq (m : Bytes) {off : Nat} {bs : List UInt8} (h : off + bs.length ≤ 2 ^ 64) :
    bytesPut m off bs = overwrite m off bs := by
  funext a
  by_cases hlt : a < off
  case pos =>
    have hidx : u64 (a + 2 ^ 64 - off) = a + 2 ^ 64 - off := u64_eq (by omega)
    have hlen : bs.length ≤ a + 2 ^ 64 - off := by omega
    rw [overwrite_of_lt hlt, bytesPut, hidx, List.getElem?_eq_none hlen]
    simp
  case neg =>
    by_cases hbig : a < 2 ^ 64
    case pos =>
      have hidx : u64 (a + 2 ^ 64 - off) = a - off := by
        rw [u64]
        omega
      rw [bytesPut, if_pos hbig, hidx, overwrite, if_pos (by omega)]
    case neg => rw [bytesPut, if_neg hbig, overwrite_of_ge (by omega)]

theorem logBufLen_eq (cmd : NvmeCmd) : logBufLen cmd = u32 (askedLen cmd) := by
  simp only [logBufLen, askedLen, u32, Nat.shiftLeft_eq]
  omega

theorem logLen_lt (n : LogCtrl) : n.logLen < 2 ^ 32 := Nat.mod_lt _ (by decide)

theorem logLen_le (n : LogCtrl) : n.logLen ≤ n.chksTotal.toNat * oc20CsSize := u32_le _

theorem transLen_lt (n : LogCtrl) (cmd : NvmeCmd) : n.transLen cmd < 2 ^ 32 :=
  (Nat.min_le_left _ _).trans_lt (logLen_lt n)

/-- A range that ends in the table is transferred as a whole. -/
theorem transLen_eq {n : LogCtrl} {cmd : NvmeCmd} (h : logOff cmd + askedLen cmd ≤ n.logLen) :
    logBufLen cmd = askedLen cmd ∧ n.transLen cmd = askedLen cmd ∧
      u64 (logOff cmd + logBufLen cmd) ≤ n.logLen := by
  have hlt := logLen_lt n
  have hlen : logBufLen cmd = askedLen cmd := by rw [logBufLen_eq, u32_eq (by omega)]
  refine ⟨hlen, ?_, ?_⟩
  · rw [LogCtrl.transLen, hlen]
    omega
  · rw [hlen]
    exact (u64_le _).trans h

/-! ## what a transfer does -/

variable {n : LogCtrl} {cmd : NvmeCmd} {s : LogState} {off len : Nat}

/-- The transfer at the end of `oc20_chunk_info`. -/
def oc20Dma (n : LogCtrl) (off len : Nat) (cmd : NvmeCmd) : LogM Status :=
  if cmd.opcode = nvmeAdmCmdGetLogPage then oc20DmaRead n off len cmd
  else oc20DmaWrite n off len cmd

theorem oc20Dma_of_bad (hp : n.Paged) (hlen : len < 2 ^ 32)
    (hends : n.toDmaCtrl.MapEnds cmd.prp1.toNat cmd.prp2.toNat len)
    (hbad : ¬ PrpsGood n.toDmaCtrl s.mem n.maxPrpEnts cmd.prp1.toNat cmd.prp2.toNat len) :
    oc20Dma n off len cmd s = ([], some (nvmeInvalidField ||| nvmeDnr, s)) := by
  rw [oc20Dma]
  split
  case isTrue =>
    have hbuf := length_bytesFrom s.chunkInfo off len
    have hrun := dmaReadPrp_of_bad hp (bytesFrom s.chunkInfo off len) (by rwa [hbuf])
      (by rwa [hbuf]) (by rwa [hbuf])
    rw [oc20DmaRead, ofState_bind_some (by rw [hrun, Option.map_some])]
    simp
  case isFalse =>
    have hrun := dmaWritePrp_of_bad hp hlen hends hbad
    rw [oc20DmaWrite, ofState_bind_some (by rw [hrun, Option.map_some])]
    simp

theorem mapEnds_of_oc20Dma (hp : n.Paged) (hlen : len < 2 ^ 32) {r : Status × LogState}
    (h : (oc20Dma n off len cmd s).2 = some r) :
    n.toDmaCtrl.MapEnds cmd.prp1.toNat cmd.prp2.toNat len := by
  obtain ⟨status, s'⟩ := r
  rw [oc20Dma] at h
  split at h
  case isTrue =>
    obtain ⟨a, s₁, hrun, -⟩ := (result_ofState_bind _ _).mp h
    obtain ⟨r, hrun, -⟩ := Option.map_eq_some_iff.mp hrun
    have hbuf := length_bytesFrom s.chunkInfo off len
    have := mapEnds_of_dmaReadPrp hp (by rwa [hbuf]) hrun
    rwa [hbuf] at this
  case isFalse =>
    obtain ⟨a, s₁, hrun, -⟩ := (result_ofState_bind _ _).mp h
    obtain ⟨r, hrun, -⟩ := Option.map_eq_some_iff.mp hrun
    exact mapEnds_of_dmaWritePrp hp hlen hrun

/-- What a transfer from an address of 64 bits on leaves behind. -/
def CopiesBytes (n : LogCtrl) (cmd : NvmeCmd) (s : LogState) (off len : Nat)
    (l : List TableAccess) (s' : LogState) : Prop :=
  let segs := prpSegments n.toDmaCtrl s.mem n.maxPrpEnts cmd.prp1.toNat cmd.prp2.toNat len
  if cmd.opcode = nvmeAdmCmdGetLogPage then
    l = [.read off len] ∧ s'.chunkInfo = s.chunkInfo ∧
      s'.mem.host = writeSegments segs (bytesFrom s.chunkInfo off len) s.mem.host
  else
    l = [.write off len] ∧ s'.mem = s.mem ∧
      ∃ bs, bs.length = len ∧ bs = segs.flatMap (fun e => readBytes s.mem.host e.base e.len) ∧
        s'.chunkInfo = bytesPut s.chunkInfo off bs

theorem oc20Dma_of_good (hp : n.Paged) (hlen : len < 2 ^ 32)
    (hends : n.toDmaCtrl.MapEnds cmd.prp1.toNat cmd.prp2.toNat len)
    (hgood : PrpsGood n.toDmaCtrl s.mem n.maxPrpEnts cmd.prp1.toNat cmd.prp2.toNat len) :
    ∃ l s', oc20Dma n off len cmd s = (l, some (nvmeSuccess, s')) ∧
      CopiesBytes n cmd s off len l s' := by
  rw [oc20Dma]
  split
  case isTrue hget =>
    have hbuf := length_bytesFrom s.chunkInfo off len
    have hrun := dmaReadPrp_of_good hp (bytesFrom s.chunkInfo off len) (by rwa [hbuf])
      (by rwa [hbuf]) (by rwa [hbuf])
    rw [hbuf] at hrun
    rw [oc20DmaRead, ofState_bind_some (by rw [hrun, Option.map_some])]
    refine ⟨_, _, rfl, ?_⟩
    rw [CopiesBytes, if_pos hget]
    exact ⟨rfl, rfl, rfl⟩
  case isFalse hset =>
    obtain ⟨bs, hbslen, hbs, hrun⟩ := dmaWritePrp_of_good hp hlen hends hgood
    rw [oc20DmaWrite, ofState_bind_some (by rw [hrun, Option.map_some])]
    refine ⟨_, _, rfl, ?_⟩
    rw [CopiesBytes, if_neg hset]
    exact ⟨rfl, rfl, bs, hbslen, hbs, rfl⟩

/-- Where no sum goes past 64 bits the bytes are those of the range. -/
theorem CopiesBytes.range {l : List TableAccess} {s' : LogState}
    (h : CopiesBytes n cmd s (logOff cmd) (askedLen cmd) l s')
    (hword : logOff cmd + askedLen cmd ≤ 2 ^ 64) : CopiesRange n cmd s l s' := by
  rw [CopiesBytes] at h
  rw [CopiesRange]
  split
  case isTrue hget =>
    rw [if_pos hget, bytesFrom_eq _ hword] at h
    exact h
  case isFalse hset =>
    rw [if_neg hset] at h
    obtain ⟨hl, hmem, bs, hlen, hbs, hput⟩ := h
    refine ⟨hl, hmem, ?_⟩
    rw [hput, hostSegments, ← hbs, bytesPut_eq _ (by rwa [hlen])]

/-- Bytes that are those of a range have its length. -/
theorem CopiesBytes.len_eq {l : List TableAccess} {s' : LogState}
    (h : CopiesBytes n cmd s off len l s') (h' : CopiesRange n cmd s l s') :
    len = askedLen cmd := by
  rw [CopiesBytes] at h
  rw [CopiesRange] at h'
  split at h'
  case isTrue hget =>
    rw [if_pos hget, h'.1] at h
    have heq : logOff cmd = off ∧ askedLen cmd = len := by simpa using h.1
    exact heq.2.symm
  case isFalse hset =>
    rw [if_neg hset, h'.1] at h
    have heq : logOff cmd = off ∧ askedLen cmd = len := by simpa using h.1
    exact heq.2.symm

/-! ## the commands -/

/-- What is run when the checks of `nvme_get_log` are passed. -/
theorem nvmeAdminCmd_eq (other : OtherHandlers) (hcmd : ChunkInfoCmd cmd)
    (hpass : ¬ n.Refuses cmd) :
    nvmeAdminCmd n other cmd = oc20ChunkInfo n cmd (logBufLen cmd) (logOff cmd) := by
  have hlog : oc20Log n cmd = oc20ChunkInfo n cmd (logBufLen cmd) (logOff cmd) := by
    rw [oc20Log, if_pos hcmd.lid]
  rw [nvmeAdminCmd]
  by_cases hget : cmd.opcode = nvmeAdmCmdGetLogPage
  case pos =>
    simp only [LogCtrl.Refuses, hget, true_and, not_or, not_not] at hpass
    rw [if_pos hget, nvmeGetLog, if_neg (not_not.mpr hpass.1), if_neg (not_not.mpr hpass.2),
      if_neg ?_, oc20GetLog, hlog]
    -- the identifier of the page is read in 16 bits, and in 8 by `oc20_get_log`
    have hlow : (cmd.cdw10.toNat &&& 0xffff) &&& 0xff = 0xca := by
      rw [Nat.and_assoc]
      exact hcmd.lid
    rintro (h | h | h | h) <;> simp [h, nvmeLogErrorInfo, nvmeLogSmartInfo, nvmeLogFwSlotInfo,
      nvmeLogCmdEffects] at hlow
  case neg =>
    rw [if_neg hget, if_pos (hcmd.opcode.resolve_left hget), oc20SetLog, hlog]

theorem nvmeAdminCmd_refused (other : OtherHandlers) (hrefused : n.Refuses cmd) :
    ∃ status, status ≠ nvmeSuccess ∧ nvmeAdminCmd n other cmd s = ([], some (status, s)) := by
  obtain ⟨hget, hcheck⟩ := hrefused
  rw [nvmeAdminCmd, if_pos hget, nvmeGetLog]
  by_cases halign : logOff cmd &&& 0x3 ≠ 0
  case pos =>
    rw [if_pos halign]
    exact ⟨_, invalidField_ne_success, rfl⟩
  case neg =>
    have hmdts := hcheck.resolve_left halign
    rw [if_neg halign, if_pos hmdts]
    exact ⟨_, hmdts, rfl⟩

theorem nsid_eq_one : ¬ (cmd.nsid.toNat = 0 ∨ numNamespaces < cmd.nsid.toNat) ↔ cmd.nsid = 1 := by
  rw [← UInt32.toNat_inj, numNamespaces]
  simp only [UInt32.toNat_one]
  omega

/-- A run of `oc20_chunk_info` comes back only from its transfer. -/
theorem oc20ChunkInfo_eq (hnsid : cmd.nsid = 1)
    (hrange : u64 (logOff cmd + logBufLen cmd) ≤ n.logLen) :
    oc20ChunkInfo n cmd (logBufLen cmd) (logOff cmd) =
      oc20Dma n (logOff cmd) (n.transLen cmd) cmd := by
  rw [oc20ChunkInfo, if_neg (nsid_eq_one.mpr hnsid), if_neg (Nat.not_lt.mpr hrange)]
  rfl

theorem of_oc20ChunkInfo {r : Status × LogState}
    (h : (oc20ChunkInfo n cmd (logBufLen cmd) (logOff cmd) s).2 = some r) :
    cmd.nsid = 1 ∧ u64 (logOff cmd + logBufLen cmd) ≤ n.logLen := by
  rw [oc20ChunkInfo] at h
  split at h
  case isTrue => simp at h
  case isFalse hnsid =>
    split at h
    case isTrue => simp at h
    case isFalse hrange => exact ⟨nsid_eq_one.mp hnsid, Nat.not_lt.mp hrange⟩

/-- A range that ends in the table does so before the size of the table in 32 bits, if it
passes the check and is transferred as a whole. -/
theorem le_logLen (hlen : n.transLen cmd = askedLen cmd)
    (hin : u64 (logOff cmd + logBufLen cmd) ≤ n.logLen)
    (htable : logOff cmd + askedLen cmd ≤ n.chksTotal.toNat * oc20CsSize) :
    logOff cmd + askedLen cmd ≤ n.logLen := by
  have hbuf : logBufLen cmd = askedLen cmd := by
    have hmin : n.transLen cmd ≤ logBufLen cmd := Nat.min_le_right _ _
    have hle : logBufLen cmd ≤ askedLen cmd := logBufLen_eq cmd ▸ u32_le _
    omega
  have hchks := n.chksTotal.toNat_lt
  rwa [hbuf, u64_eq (by simp only [oc20CsSize] at htable; omega)] at hin

/-- A command for the chunk information log is served or refused if and only if the generic
checks refuse it, or its range is in the table. -/
theorem serves_range_iff (other : OtherHandlers) (hp : n.Paged) (hcmd : ChunkInfoCmd cmd)
    (s : LogState) :
    ServesRange n cmd s (nvmeAdminCmd n other cmd s) ↔ n.Refuses cmd ∨ n.InTable s.mem cmd := by
  by_cases hrefused : n.Refuses cmd
  case pos =>
    obtain ⟨status, hne, hrun⟩ := nvmeAdminCmd_refused (s := s) other hrefused
    refine iff_of_true ⟨status, s, ?_, fun _ => ?_, fun h => absurd h hne⟩ (Or.inl hrefused)
    · rw [hrun]
    · rw [hrun]
      exact ⟨rfl, rfl⟩
  case neg =>
    have htrans := transLen_lt n cmd
    rw [nvmeAdminCmd_eq other hcmd hrefused, or_iff_right hrefused]
    constructor
    case mp =>
      intro h
      obtain ⟨status, s', hend, -, hserved⟩ := h
      obtain ⟨hnsid, hin⟩ := of_oc20ChunkInfo hend
      rw [oc20ChunkInfo_eq hnsid hin] at hend hserved
      refine ⟨hnsid, mapEnds_of_oc20Dma hp htrans hend, ?_⟩
      by_cases hgood : n.PrpsOk s.mem cmd
      case neg => exact Or.inr ⟨hin, hgood⟩
      case pos =>
        left
        obtain ⟨l, s₁, hrun, hbytes⟩ := oc20Dma_of_good hp htrans
          (mapEnds_of_oc20Dma hp htrans hend) hgood
        rw [hrun] at hend hserved
        obtain ⟨rfl, rfl⟩ : nvmeSuccess = status ∧ s₁ = s' := by simpa using hend
        obtain ⟨htable, hcopied⟩ := hserved rfl
        exact le_logLen (hbytes.len_eq hcopied) hin htable
    case mpr =>
      intro h
      obtain ⟨hnsid, hends, hrange⟩ := h
      by_cases hgood : n.PrpsOk s.mem cmd
      case pos =>
        have hrange := hrange.resolve_right fun h => h.2 hgood
        obtain ⟨hbuf, hlen, hin⟩ := transLen_eq hrange
        rw [oc20ChunkInfo_eq hnsid hin, hlen]
        rw [LogCtrl.PrpsOk, hlen] at hgood
        rw [hlen] at hends
        have hlt := logLen_lt n
        obtain ⟨l, s', hrun, hbytes⟩ := oc20Dma_of_good hp (by omega) hends hgood
        have hcopied := hbytes.range (by omega)
        refine ⟨nvmeSuccess, s', ?_, fun h => absurd rfl h, fun _ => ⟨?_, ?_⟩⟩
        · rw [hrun]
        · exact hrange.trans (logLen_le n)
        · rwa [hrun]
      case neg =>
        have hin : u64 (logOff cmd + logBufLen cmd) ≤ n.logLen := by
          obtain h | h := hrange
          · exact (transLen_eq h).2.2
          · exact h.1
        rw [oc20ChunkInfo_eq hnsid hin, oc20Dma_of_bad hp htrans hends hgood]
        exact ⟨_, s, rfl, fun _ => ⟨rfl, rfl⟩, fun h => absurd h invalidField_ne_success⟩

/-- A device with two chunks, and a host whose memory is all zero. -/
def twoChunks : LogCtrl := { hostCtrl with mdts := 5, chksTotal := 2 }

def zeroState : LogState := ⟨⟨fun _ => 0, fun _ => 0⟩, fun _ => 0⟩

def noHandlers : OtherHandlers := ⟨fun _ => return nvmeSuccess, return nvmeSuccess⟩

/-- Get Log Page for 64 bytes at the given offset of the table. -/
def getTwoChunks (off : UInt32) : NvmeCmd :=
  { opcode := nvmeAdmCmdGetLogPage, nsid := 1, prp1 := 0x1000, cdw10 := 0xf00ca, cdw12 := off }

/-- The descriptors from the second chunk on, one more than there are: the process ends. -/
theorem range_behind_table :
    ¬ ServesRange twoChunks (getTwoChunks 32) zeroState
      (nvmeAdminCmd twoChunks noHandlers (getTwoChunks 32) zeroState) := by
  intro h
  obtain ⟨status, s', hend, -⟩ := h
  have hpass : ¬ twoChunks.Refuses (getTwoChunks 32) := by
    rw [LogCtrl.Refuses]
    decide +kernel
  rw [nvmeAdminCmd_eq noHandlers ⟨Or.inl rfl, by decide⟩ hpass] at hend
  have hin := (of_oc20ChunkInfo hend).2
  revert hin
  decide +kernel

/-- The descriptors of both chunks. -/
theorem serves_range_two :
    ServesRange twoChunks (getTwoChunks 0) zeroState
      (nvmeAdminCmd twoChunks noHandlers (getTwoChunks 0) zeroState) :=
  (serves_range_iff noHandlers ⟨by decide, rfl, rfl⟩ ⟨Or.inl rfl, by decide⟩ zeroState).mpr
    (Or.inr ⟨rfl, Or.inr ⟨by decide, Or.inr (Or.inl (by decide +kernel))⟩,
      Or.inl (by decide +kernel)⟩)

end Femu.Ocssd

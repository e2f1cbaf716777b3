import Femu.Lib.Traced
import Femu.Nvme.Dram
import Femu.Nvme.ErrorLog

/-!
# Femu.Nvme.Io

The I/O commands of the NVM command set (`nvme-io.c`): read and write through
`femu_nvme_rw_check_req`, dataset management, compare, write zeroes and write
uncorrectable.

Every handler leaves a trace (`Access`): the ranges that passed its bounds
check, the byte ranges handed to `backend_rw` and the bit ranges handed to the
bitmap functions. `abort` is a failed assertion, in `nvme_rw` or in the bitmap
functions, or a division by zero.
-/

namespace Femu.Nvme

open Lib Lib.Traced

/-! ## the controller, the namespace and the request -/

/-- The fields of `FemuCtrl` that the I/O commands read. -/
structure NvmCtrl extends DmaCtrl where
  femuMode : FemuMode
  mdts : Nat
  elpe : Nat

/-- `NvmeLBAF`. -/
structure NvmeLBAF where
  lbads : Nat
  ms : UInt16

/-- `NvmeNamespace`, with the fields of its `NvmeIdNs`. -/
structure NvmeNamespace where
  id : Nat
  nsze : UInt64
  flbas : UInt8
  lbaf : Nat → NvmeLBAF
  dps : UInt8
  startBlock : Nat

/-- `lbaf[NVME_ID_NS_FLBAS_INDEX(flbas)]`. -/
def NvmeNamespace.curLbaf (ns : NvmeNamespace) : NvmeLBAF := ns.lbaf (ns.flbas.toNat % 16)

/-- What the I/O commands change: the memories, the bitmaps of the namespace, the
error log, and the fields of the request. -/
structure IoState where
  mem : Mem
  mb : Bytes
  util : Nat → Bool
  uncorrectable : Nat → Bool
  errs : ErrorLog
  sqid : Nat
  isWrite : Bool
  status : Status
  slba : Nat
  nlb : Nat
  map : Mapping

/-- What a handler touches. -/
inductive Access
  /-- The range `[slba, slba + nlb)` passed the bounds check of the handler. -/
  | rangeOk (slba nlb : Nat)
  /-- `backend_rw` was called for `len` bytes at `off`. -/
  | backendRw (off len : Nat)
  | bitmapSet (start nr : Nat)
  | bitmapClear (start nr : Nat)
  | findNextBit (size offset : Nat)
deriving DecidableEq

/-- An I/O handler. -/
abbrev IoM : Type → Type := Traced IoState Access

/-! ## helpers -/

/-- `nvme_set_error_page`, on the error log of the controller. -/
def setErrorPage (n : NvmCtrl) (cid : Nat) (status : Status) (location lba nsid : Nat) : IoM Unit :=
  ofState fun s =>
    (nvmeSetErrorPage n.elpe s.errs s.sqid cid status location lba nsid).map fun errs =>
      ((), { s with errs := errs })

/-- The bits `start` to `start + nr` of a bitmap set to `b`. -/
def setBits (map : Nat → Bool) (start nr : Nat) (b : Bool) : Nat → Bool := fun i =>
  if start ≤ i ∧ i < start + nr then b else map i

/-- `bitmap_set(ns->uncorrectable, ..)`: the start is passed as a signed `long`,
which the function asserts not to be negative. -/
def bitmapSet (start nr : Nat) : IoM Unit := do
  emit (.bitmapSet start nr)
  assert (start < 2 ^ 63)
  modify fun s => { s with uncorrectable := setBits s.uncorrectable start nr true }

/-- `bitmap_clear(ns->util, ..)`. -/
def bitmapClear (start nr : Nat) : IoM Unit := do
  emit (.bitmapClear start nr)
  assert (start < 2 ^ 63)
  modify fun s => { s with util := setBits s.util start nr false }

/-- The first set bit at or after `offset`, `size` if there is none below it. -/
def nextBit (map : Nat → Bool) (size offset : Nat) : Nat :=
  ((List.range' offset (size - offset)).find? map).getD size

/-- `find_next_bit(ns->uncorrectable, ..)`. -/
def findNextBit (size offset : Nat) : IoM Nat := do
  emit (.findNextBit size offset)
  return nextBit (← get).uncorrectable size offset

/-- `nvme_map_prp` into the lists of the request. -/
def mapReq (n : NvmCtrl) (prp1 prp2 len : Nat) : IoM Status :=
  ofState fun s =>
    (nvmeMapPrp .stub n.toDmaCtrl s.mem prp1 prp2 len s.map).map fun (status, map) =>
      (status, { s with map := map })

/-- `backend_rw(n->mbe, &req->qsg, &off, req->is_write)`. -/
def backendReq (n : NvmCtrl) (off : Nat) : IoM Unit := do
  emit (.backendRw off (← get).map.qsg.total)
  ofState fun s =>
    (Nvme.backendRw n.femuMode s.map.qsg [off] s.isWrite s.mem.host s.mb).map fun (host, mb) =>
      ((), { s with mem := { s.mem with host := host }, mb := mb,
                    map := { s.map with qsg := qemuSglistDestroy s.map.qsg } })

/-- `data_size > n->page_size * (1 << n->id_ctrl.mdts)`, when there is a limit. The limit is an
`int` and is unbounded here, which agrees with the code below `2 ^ 31`: with pages of 4096 bytes
up to `mdts` 18. The default is 10. -/
def NvmCtrl.overMdts (n : NvmCtrl) (dataSize : Nat) : Prop :=
  n.mdts ≠ 0 ∧ n.pageSize * 2 ^ n.mdts < dataSize

instance (n : NvmCtrl) (dataSize : Nat) : Decidable (n.overMdts dataSize) :=
  inferInstanceAs (Decidable (_ ∧ _))

/-! ## read and write -/

/-- `offsetof(NvmeRwCmd, ..)`, in the order `prp1`, `slba`, `nlb`, `control`. -/
def offPrp1 : Nat := 24
def offSlba : Nat := 40
def offNlb : Nat := 48
def offControl : Nat := 50

/-- `offsetof(NvmeCmd, cdw10)`. -/
def offCdw10 : Nat := 40

/-- The bit `NVME_RW_PRINFO_PRACT`. -/
def nvmeRwPrinfoPract : Nat := 13

/-- `femu_nvme_rw_check_req`. -/
def femuNvmeRwCheckReq (n : NvmCtrl) (ns : NvmeNamespace) (cmd : NvmeCmd)
    (slba elba nlb ctrl dataSize metaSize : Nat) : IoM Status := do
  let fail (status : Status) (location lba : Nat) : IoM Unit :=
    setErrorPage n cmd.cid.toNat status location lba ns.id
  if elba > ns.nsze.toNat then do
    fail nvmeLbaRange offNlb elba
    return nvmeLbaRange ||| nvmeDnr
  else do
    emit (.rangeOk slba nlb)
    if n.overMdts dataSize then do
      fail nvmeInvalidField offNlb nlb
      return nvmeInvalidField ||| nvmeDnr
    else if metaSize ≠ 0 then do
      fail nvmeInvalidField offControl ctrl
      return nvmeInvalidField ||| nvmeDnr
    else if ctrl.testBit nvmeRwPrinfoPract ∧ ns.dps.toNat % 8 = 0 then do
      fail nvmeInvalidField offControl ctrl
      -- not contemplated in LightNVM for now
      if n.femuMode = .ocssd then
        return nvmeSuccess
      else
        return nvmeInvalidField ||| nvmeDnr
    else if (← get).isWrite then
      return nvmeSuccess
    else if (← findNextBit elba slba) < elba then do
      fail nvmeUnrecoveredRead offSlba elba
      return nvmeUnrecoveredRead
    else
      return nvmeSuccess

/-- `nvme_rw`. -/
def nvmeRw (n : NvmCtrl) (ns : NvmeNamespace) (cmd : NvmeCmd) : IoM Status := do
  let nlb := cmd.nlb + 1
  let slba := cmd.slba
  let dataShift := ns.curLbaf.lbads
  let dataSize := u64 (nlb * 2 ^ dataShift)
  let dataOffset := u64 (slba * 2 ^ dataShift)
  let metaSize := u32 (nlb * ns.curLbaf.ms.toNat)
  let elba := u64 (slba + nlb)
  modify fun s => { s with isWrite := cmd.opcode == nvmeCmdWrite }
  let err ← femuNvmeRwCheckReq n ns cmd slba elba nlb cmd.control dataSize metaSize
  if err ≠ nvmeSuccess then
    return err
  else if (← mapReq n cmd.prp1.toNat cmd.prp2.toNat dataSize) ≠ nvmeSuccess then do
    setErrorPage n cmd.cid.toNat nvmeInvalidField offPrp1 0 ns.id
    return nvmeInvalidField ||| nvmeDnr
  else do
    assert (u32 (nlb * 2 ^ dataShift) = (← get).map.qsg.size)
    modify fun s => { s with slba := slba, status := nvmeSuccess, nlb := nlb % 2 ^ 16 }
    backendReq n dataOffset
    return nvmeSuccess

/-! ## dataset management -/

/-- `NvmeDsmRange`, with the widths of its fields. -/
structure NvmeDsmRange where
  slba : Nat
  nlb : Nat
  slba_lt : slba < 2 ^ 64
  nlb_lt : nlb < 2 ^ 32
deriving DecidableEq

/-- The `i`-th `NvmeDsmRange` of the buffer that the host filled. -/
def dsmRange (buf : List UInt8) (i : Nat) : NvmeDsmRange where
  slba := u64 (leNat ((buf.drop (16 * i + 8)).take 8))
  nlb := u32 (leNat ((buf.drop (16 * i + 4)).take 4))
  slba_lt := Nat.mod_lt _ (by omega)
  nlb_lt := Nat.mod_lt _ (by omega)

/-- The loop over the ranges. -/
def dsmLoop (n : NvmCtrl) (ns : NvmeNamespace) (cmd : NvmeCmd) : List NvmeDsmRange → IoM Status
  | [] => return nvmeSuccess
  | r :: rs =>
    if u64 (r.slba + r.nlb) > ns.nsze.toNat then do
      setErrorPage n cmd.cid.toNat nvmeLbaRange offCdw10 (r.slba + r.nlb) ns.id
      return nvmeLbaRange ||| nvmeDnr
    else do
      emit (.rangeOk r.slba r.nlb)
      bitmapClear r.slba r.nlb
      dsmLoop n ns cmd rs

/-- The number of ranges of the command, or none when it does not deallocate. -/
def dsmNr (cmd : NvmeCmd) : Nat :=
  if cmd.cdw11.toNat.testBit 2 then cmd.cdw10.toNat % 256 + 1 else 0

/-- `nvme_dsm`. -/
def nvmeDsm (n : NvmCtrl) (ns : NvmeNamespace) (cmd : NvmeCmd) : IoM Status := do
  let nr := dsmNr cmd
  if nr = 0 then
    return nvmeSuccess
  else do
    let (status, buf) ← ofState fun s =>
      (dmaWritePrp n.toDmaCtrl s.mem (16 * nr) cmd.prp1.toNat cmd.prp2.toNat).map fun r => (r, s)
    if status ≠ nvmeSuccess then do
      setErrorPage n cmd.cid.toNat nvmeInvalidField offPrp1 0 ns.id
      return nvmeInvalidField ||| nvmeDnr
    else do
      modify fun s => { s with status := nvmeSuccess }
      dsmLoop n ns cmd ((List.range nr).map (dsmRange buf))

/-! ## compare, write zeroes, write uncorrectable -/

/-- The loop of `nvme_compare` over the segments: `tmp i` is what the buffer that
is never filled holds in round `i`. -/
def compareLoop (n : NvmCtrl) (tmp : Nat → List UInt8) : Nat → List ScatterGatherEntry → IoM Status
  | _, [] => return nvmeSuccess
  | i, e :: es => do
    let len := u32 e.len
    if (tmp i).take len ≠ nvmeAddrRead n.toDmaCtrl (← get).mem e.base len then
      return nvmeCmpFailure
    else
      compareLoop n tmp (i + 1) es

/-- `nvme_compare`. -/
def nvmeCompare (n : NvmCtrl) (ns : NvmeNamespace) (tmp : Nat → List UInt8) (cmd : NvmeCmd) :
    IoM Status := do
  let nlb := cmd.nlb + 1
  let slba := cmd.slba
  let elba := u64 (slba + nlb)
  let dataSize := u32 (nlb * 2 ^ ns.curLbaf.lbads)
  if elba > ns.nsze.toNat then do
    setErrorPage n cmd.cid.toNat nvmeLbaRange offNlb elba ns.id
    return nvmeLbaRange ||| nvmeDnr
  else do
    emit (.rangeOk slba nlb)
    if n.overMdts dataSize then do
      setErrorPage n cmd.cid.toNat nvmeInvalidField offNlb nlb ns.id
      return nvmeInvalidField ||| nvmeDnr
    else if (← mapReq n cmd.prp1.toNat cmd.prp2.toNat dataSize) ≠ nvmeSuccess then do
      setErrorPage n cmd.cid.toNat nvmeInvalidField offPrp1 0 ns.id
      return nvmeInvalidField ||| nvmeDnr
    else if (← findNextBit elba slba) < elba then
      return nvmeUnrecoveredRead
    else do
      let status ← compareLoop n tmp 0 (← get).map.qsg.sg
      modify fun s => { s with map := { s.map with qsg := qemuSglistDestroy s.map.qsg } }
      return status

/-- `nvme_write_zeros`. -/
def nvmeWriteZeros (n : NvmCtrl) (ns : NvmeNamespace) (cmd : NvmeCmd) : IoM Status := do
  let nlb := cmd.nlb + 1
  let slba := cmd.slba
  if u64 (slba + nlb) > ns.nsze.toNat then do
    setErrorPage n cmd.cid.toNat nvmeLbaRange offNlb (slba + nlb) ns.id
    return nvmeLbaRange ||| nvmeDnr
  else do
    emit (.rangeOk slba nlb)
    return nvmeSuccess

/-- `nvme_write_uncor`. -/
def nvmeWriteUncor (n : NvmCtrl) (ns : NvmeNamespace) (cmd : NvmeCmd) : IoM Status := do
  let nlb := cmd.nlb + 1
  let slba := cmd.slba
  if u64 (slba + nlb) > ns.nsze.toNat then do
    setErrorPage n cmd.cid.toNat nvmeLbaRange offNlb (slba + nlb) ns.id
    return nvmeLbaRange ||| nvmeDnr
  else do
    emit (.rangeOk slba nlb)
    bitmapSet slba nlb
    return nvmeSuccess

end Femu.Nvme

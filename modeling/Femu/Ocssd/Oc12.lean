import Femu.Nand.Timing
import Femu.Nvme.Io
import Femu.Ocssd.Geometry

/-!
# Femu.Ocssd.Oc12

Reads and writes of the open-channel SSD 1.2 (`oc12_read` and `oc12_write` of
`ocssd/oc12.c`): the list of physical page addresses, the checks, the metadata, the
transfer, and the latency of the NAND operations.

A command leaves a trace: the byte offsets handed to `backend_rw`, and the channels and
LUNs that `oc12_advance_status` asserts to exist. `abort` is a failed assertion or an
access outside an array.
-/

namespace Femu.Ocssd

open Nvme Lib Lib.Traced

/-! ## the controller and the request -/

/-- The fields of `FemuCtrl` that the commands read. -/
structure Oc12Dev extends DmaCtrl where
  mdts : Nat
  nsSize : Nat
  ln : Oc12Ctrl
  maxSecPerRq : UInt8
  flashType : Nand.FlashType
  statics : Nand.Statics

/-- What the commands change: memories, metadata, chip timelines, and the fields of the
request. -/
structure Oc12State where
  mem : Mem
  mb : Bytes
  metaBuf : Bytes
  uncorrectable : Nat → Bool
  chipNextAvailTime : Nat → UInt64
  isWrite : Bool
  slba : List Nat
  map : Mapping
  stime : UInt64
  expireTime : UInt64

/-- What the commands touch. -/
inductive Oc12Access
  /-- A byte offset of the list was handed to `backend_rw`. -/
  | backend (oft : Nat)
  /-- A channel and a LUN were asserted to be those of the device. -/
  | unit (ch lun : Int)
deriving DecidableEq

/-- A command of the open-channel SSD. -/
abbrev Oc12M : Type → Type := Traced Oc12State Oc12Access

/-- `OC12_PBA_UNMAPPED`. -/
def oc12PbaUnmapped : Nat := 2 ^ 64 - 1

/-- `ns->start_block`, of the first namespace. -/
def startBlock (n : Oc12Dev) : Nat := (0 * n.nsSize) >>> Admin.bdrvSectorBits

/-- `lps->sec_per_pl`. -/
def Oc12Ctrl.secPerPl (ln : Oc12Ctrl) : Nat := u32 (ln.params.secPerPg * ln.group.numPln)

/-- `NVME_ID_NS_LBAF_MS`, of the current format. -/
def lbafMs (ns : Admin.NvmeNamespace) : Nat := ns.ms ns.lbaIdx

/-! ## the list and its checks -/

/-- `oc12_read_ppa_list`: the addresses of the command. -/
def oc12ReadPpaList (n : DmaCtrl) (m : Mem) (cmd : NvmeCmd) : List Nat :=
  let nlb := cmd.nlb + 1
  if nlb > 1 then
    let bytes := nvmeAddrRead n m cmd.slba (8 * nlb)
    (List.range nlb).map fun i => leNat ((bytes.drop (8 * i)).take 8)
  else
    [cmd.slba]

/-- `data_size > n->page_size * (1 << n->id_ctrl.mdts)`, when there is a limit. As for
`NvmCtrl.overMdts`, the `int` agrees with the number here below `2 ^ 31`. -/
def Oc12Dev.overMdts (n : Oc12Dev) (dataSize : Nat) : Prop :=
  n.mdts ≠ 0 ∧ n.pageSize * 2 ^ n.mdts < dataSize

instance (n : Oc12Dev) (dataSize : Nat) : Decidable (n.overMdts dataSize) :=
  inferInstanceAs (Decidable (_ ∧ _))

/-- `oc12_rw_check_req`, on the list `psl` of `nlb` addresses. -/
def oc12RwCheckReq (n : Oc12Dev) (ns : Admin.NvmeNamespace) (cmd : NvmeCmd) (isWrite : Bool)
    (uncorrectable : Nat → Bool) (psl : List Nat) (nlb dataSize metaSize : Nat) : Status :=
  let slba := psl.headD 0
  let elba := psl.getLastD 0
  if nlb > n.maxSecPerRq.toNat then nvmeInvalidField ||| nvmeDnr
  else if cmd.opcode = Nand.nvmeCmdOcWrite ∧ nlb < n.ln.secPerPl then nvmeInvalidField ||| nvmeDnr
  else if cmd.slba = oc12PbaUnmapped then nvmeInvalidField ||| nvmeDnr
  else if psl.any fun ppa => ppa > ns.nsze then nvmeLbaRange ||| nvmeDnr
  else if n.overMdts dataSize then nvmeInvalidField ||| nvmeDnr
  else if metaSize ≠ 0 then nvmeInvalidField ||| nvmeDnr
  else if !isWrite ∧ nextBit uncorrectable elba slba < elba then nvmeUnrecoveredRead
  else nvmeSuccess

/-! ## metadata -/

/-- The loop of `oc12_read` over the addresses: the metadata for the host, zero where it
does not ask for it. -/
def oc12ReadLoop (ln : Oc12Ctrl) (wanted : Bool) (buf : Bytes) :
    List Nat → Except MetaFault (List UInt8)
  | [] => .ok []
  | ppa :: psl => do
    let _ ← oc12MetaStateGet ln buf ppa
    let oob ← if wanted then oc12ReadOobMeta ln buf ppa
      else .ok (List.replicate ln.params.sos 0)
    let rest ← oc12ReadLoop ln wanted buf psl
    return oob ++ rest

/-- The loop of `oc12_write` over the addresses, from the `i`-th on. -/
def oc12WriteLoop (ln : Oc12Ctrl) (wanted : Bool) (msl : Bytes) :
    Nat → List Nat → Bytes → Except MetaFault Bytes
  | _, [], buf => .ok buf
  | i, ppa :: psl, buf => do
    let buf ← oc12MetaStateSetWritten ln buf ppa
    let buf ← if wanted then oc12WriteOobMeta ln buf ppa (oc12MetaIndex ln msl i) else .ok buf
    oc12WriteLoop ln wanted msl (i + 1) psl buf

/-- The metadata part of `oc12_read`: it goes to the host before the data. -/
def oc12ReadMetadata (n : Oc12Dev) (mptr : Nat) (psl : List Nat) (s : Oc12State) :
    Except MetaFault Oc12State := do
  let msl ← oc12ReadLoop n.ln (mptr ≠ 0) s.metaBuf psl
  return { s with mem := if mptr ≠ 0 then nvmeAddrWrite n.toDmaCtrl s.mem mptr msl else s.mem }

/-- The metadata part of `oc12_write`: what is read from the host is written back to it. -/
def oc12WriteMetadata (n : Oc12Dev) (mptr : Nat) (psl : List Nat) (s : Oc12State) :
    Except MetaFault Oc12State := do
  let size := psl.length * n.ln.params.sos
  let msl := if mptr ≠ 0 then nvmeAddrRead n.toDmaCtrl s.mem mptr size else []
  let buf ← oc12WriteLoop n.ln (mptr ≠ 0) (fun a => msl.getD a 0) 0 psl s.metaBuf
  return { s with
    metaBuf := buf
    mem := if mptr ≠ 0 then nvmeAddrWrite n.toDmaCtrl s.mem mptr msl else s.mem }

/-! ## latency -/

/-- `AddrBucket`. -/
structure AddrBucket where
  ch : Int
  lun : Int
  pageType : Nat
  cnt : Nat
deriving DecidableEq

/-- The loop of `parse_ppa_list`, with the buckets so far in reverse order: consecutive
addresses that differ in sector and plane only share a bucket. `none` is the access to the
bucket with index `-1`, or a page of an unknown type. -/
def parsePpaLoop (n : Oc12Dev) : List Nat → Nat → List AddrBucket → Option (List AddrBucket)
  | [], _, bs => some bs.reverse
  | ppa :: rest, prevPgAddr, bs =>
    let ppaf := n.ln.ppaf
    let low := ppa &&& (ppaf.sec.mask ||| ppaf.pln.mask)
    let curPgAddr := ppa ^^^ low
    if curPgAddr = prevPgAddr then
      match bs with
      | [] => none
      | b :: bs => parsePpaLoop n rest prevPgAddr ({ b with cnt := b.cnt + 1 } :: bs)
    else do
      let pageType ← Nand.getPageType (n.statics .oc12) n.flashType (ppaf.pg.get ppa)
      parsePpaLoop n rest curPgAddr
        (⟨int32 (ppaf.ch.get ppa), int32 (ppaf.lun.get ppa), pageType, 1⟩ :: bs)

/-- `parse_ppa_list`. -/
def parsePpaList (n : Oc12Dev) (slba : List Nat) : Option (List AddrBucket) :=
  parsePpaLoop n slba (2 ^ 64 - 1) []

/-- `advance_chip_timestamp`. `advance_channel_timestamp` returns the time it is given. -/
def oc12AdvanceChip (n : Oc12Dev) (cmd : NvmeCmd) (lunid : Int) (pageType : Nat) :
    Oc12M UInt64 := do
  assert (0 ≤ lunid)
  ofState fun s =>
    (Nand.advanceChipTimestamp n.statics n.flashType s.chipNextAvailTime lunid.toNat s.stime
      cmd.opcode pageType).map fun (ts, avail) => (ts, { s with chipNextAvailTime := avail })

/-- The loop of `oc12_advance_status` over the buckets. -/
def oc12AdvanceLoop (n : Oc12Dev) (cmd : NvmeCmd) : List AddrBucket → UInt64 → Oc12M UInt64
  | [], total => return total
  | b :: bs, total => do
    emit (.unit b.ch b.lun)
    assert (b.ch < n.ln.group.numCh ∧ b.lun < n.ln.group.numLun)
    let ioDoneTs ← oc12AdvanceChip n cmd (b.ch * n.ln.group.numLun + b.lun) b.pageType
    oc12AdvanceLoop n cmd bs (max total (ioDoneTs - (← get).stime))

/-- `oc12_advance_status`, for reads and writes. The list of the request holds byte offsets
by now. -/
def oc12AdvanceStatus (n : Oc12Dev) (cmd : NvmeCmd) : Oc12M Unit := do
  match parsePpaList n (← get).slba with
  | none => abort
  | some buckets =>
    assert (buckets ≠ [])
    let total ← oc12AdvanceLoop n cmd buckets 0
    modify fun s => { s with expireTime := s.stime + total }

/-! ## the commands -/

/-- The addresses as byte offsets. -/
def ppaOffset (n : Oc12Dev) (ns : Admin.NvmeNamespace) (ppa : Nat) : Nat :=
  u64 (startBlock n + u64 (ppa <<< ns.lbaDs))

/-- What the commands do before the transfer: the list, its checks, the metadata, and
`nvme_map_prp`. `none` is a failed assertion of the metadata or an access outside a buffer;
one is that with `2^16` addresses the list has room for none. -/
def oc12RwPrepare (n : Oc12Dev) (ns : Admin.NvmeNamespace) (cmd : NvmeCmd) (isWrite : Bool)
    (metadata : List Nat → Oc12State → Except MetaFault Oc12State) (s : Oc12State) :
    Option (Status × Oc12State) :=
  let nlb := cmd.nlb + 1
  let psl := oc12ReadPpaList n.toDmaCtrl s.mem cmd
  let dataSize := intToU64 (nlb <<< ns.lbaDs)
  let metaSize := intToU64 (nlb * lbafMs ns)
  if nlb = 2 ^ 16 then none
  else
    let err := oc12RwCheckReq n ns cmd isWrite s.uncorrectable psl nlb dataSize metaSize
    if err ≠ nvmeSuccess then some (err, { s with isWrite := isWrite, slba := psl })
    else
      match metadata psl { s with isWrite := isWrite } with
      | .error _ => none
      | .ok s =>
        (nvmeMapPrp .stub n.toDmaCtrl s.mem cmd.prp1.toNat cmd.prp2.toNat dataSize s.map).map
          fun (status, map) =>
            (if status ≠ nvmeSuccess then nvmeInvalidField ||| nvmeDnr else nvmeSuccess,
              { s with slba := psl.map (ppaOffset n ns), map := map })

/-- Record the offsets of a list that is handed to `backend_rw`. -/
def emitOffsets : List Nat → Oc12M Unit
  | [] => return ()
  | oft :: rest => do
    emit (.backend oft)
    emitOffsets rest

/-- `backend_rw` on the list of byte offsets. -/
def oc12BackendReq : Oc12M Unit := do
  emitOffsets (← get).slba
  ofState fun s =>
    (Nvme.backendRw .ocssd s.map.qsg s.slba s.isWrite s.mem.host s.mb).map fun (host, mb) =>
      ((), { s with mem := { s.mem with host := host }, mb := mb,
                    map := { s.map with qsg := qemuSglistDestroy s.map.qsg } })

/-- A read or a write. -/
def oc12Rw (n : Oc12Dev) (ns : Admin.NvmeNamespace) (cmd : NvmeCmd) (isWrite : Bool)
    (metadata : List Nat → Oc12State → Except MetaFault Oc12State) : Oc12M Status := do
  let status ← ofState (oc12RwPrepare n ns cmd isWrite metadata)
  if status ≠ nvmeSuccess then
    return status
  else do
    oc12BackendReq
    oc12AdvanceStatus n cmd
    return nvmeSuccess

/-- `oc12_read`, with the metadata pointer of the command. -/
def oc12Read (n : Oc12Dev) (ns : Admin.NvmeNamespace) (cmd : NvmeCmd) (mptr : UInt64) :
    Oc12M Status :=
  oc12Rw n ns cmd false (oc12ReadMetadata n mptr.toNat)

/-- `oc12_write`. -/
def oc12Write (n : Oc12Dev) (ns : Admin.NvmeNamespace) (cmd : NvmeCmd) (mptr : UInt64) :
    Oc12M Status :=
  oc12Rw n ns cmd true (oc12WriteMetadata n mptr.toNat)

/-- `oc12_io_cmd`, for the commands that transfer data. -/
def oc12IoCmd (n : Oc12Dev) (ns : Admin.NvmeNamespace) (cmd : NvmeCmd) (mptr : UInt64) :
    Oc12M Status :=
  if cmd.opcode = Nand.nvmeCmdOcRead then oc12Read n ns cmd mptr
  else if cmd.opcode = Nand.nvmeCmdOcWrite then oc12Write n ns cmd mptr
  else return nvmeInvalidOpcode ||| nvmeDnr

end Femu.Ocssd

import Mathlib.Algebra.Ring.Int.Defs
import Femu.Lib.Traced
import Femu.Nvme.Dram
import Femu.Nvme.ErrorLog

/-!
# Femu.Ocssd.Oc20

Reads and writes of the open-channel SSD 2.0 (`ocssd/oc20.c`, `oc20.h`): the
decoding of logical block addresses, the checks of `oc20_rw`, the transfer, the
latency of the NAND operations, and the write pointer of the chunk.

`oc20_rw` leaves a trace: the addresses handed to `backend_rw`, and the chips
handed to `advance_chip_timestamp`. `abort` is a failed assertion or an access
outside an array.
-/

namespace Femu.Ocssd

open Lib Lib.Traced Nvme

/-! ## addresses -/

/-- `Oc20AddrF`. -/
structure Oc20AddrF where
  grpMask : Nat
  lunMask : Nat
  chkMask : Nat
  secMask : Nat
  grpOffset : Nat
  lunOffset : Nat
  chkOffset : Nat
  secOffset : Nat

/-- `OC20_LBA_GET_SECTR`. -/
def Oc20AddrF.getSectr (f : Oc20AddrF) (lba : Nat) : Nat := (lba &&& f.secMask) >>> f.secOffset

/-- `OC20_LBA_GET_CHUNK`. -/
def Oc20AddrF.getChunk (f : Oc20AddrF) (lba : Nat) : Nat := (lba &&& f.chkMask) >>> f.chkOffset

/-- `OC20_LBA_GET_PUNIT`. -/
def Oc20AddrF.getPunit (f : Oc20AddrF) (lba : Nat) : Nat := (lba &&& f.lunMask) >>> f.lunOffset

/-- `OC20_LBA_GET_GROUP`, which does not use the mask. -/
def Oc20AddrF.getGroup (f : Oc20AddrF) (lba : Nat) : Nat := lba >>> f.grpOffset

/-- `Oc20IdGeo`. -/
structure Oc20IdGeo where
  numGrp : UInt16
  numLun : UInt16
  numChk : UInt32
  clba : UInt32

/-- `Oc20Namespace`, and the LBA data size of its namespace. -/
structure Oc20Namespace where
  geo : Oc20IdGeo
  lbaf : Oc20AddrF
  chksPerGrp : Nat
  lbads : Nat

/-- The chunk, the parallel unit and the group exist. -/
def Oc20Namespace.ChunkValid (lns : Oc20Namespace) (lba : Nat) : Prop :=
  lns.lbaf.getChunk lba < lns.geo.numChk.toNat ∧ lns.lbaf.getPunit lba < lns.geo.numLun.toNat ∧
    lns.lbaf.getGroup lba < lns.geo.numGrp.toNat

/-- `oc20_lba_valid`. -/
def oc20LbaValid (lns : Oc20Namespace) (lba : Nat) : Prop :=
  lns.lbaf.getSectr lba < lns.geo.clba.toNat ∧ lns.ChunkValid lba

instance (lns : Oc20Namespace) (lba : Nat) : Decidable (lns.ChunkValid lba) :=
  inferInstanceAs (Decidable (_ ∧ _ ∧ _))

instance (lns : Oc20Namespace) (lba : Nat) : Decidable (oc20LbaValid lns lba) :=
  inferInstanceAs (Decidable (_ ∧ _))

/-- `oc20_lba_to_chunk_index`. -/
def oc20LbaToChunkIndex (lns : Oc20Namespace) (lba : Nat) : Nat :=
  u64 (lns.lbaf.getChunk lba + lns.lbaf.getPunit lba * lns.geo.numChk.toNat +
    lns.lbaf.getGroup lba * lns.chksPerGrp)

/-! ## chunks -/

/-- `Oc20CS`. -/
structure Oc20CS where
  state : UInt8
  type : UInt8
  wearIndex : UInt8
  slba : Nat
  cnlb : Nat
  wp : Nat
deriving DecidableEq

def oc20ChunkFree : UInt8 := 1
def oc20ChunkClosed : UInt8 := 2
def oc20ChunkOpen : UInt8 := 4
def oc20ChunkOffline : UInt8 := 8

def oc20ChunkTypeSeq : UInt8 := 1
def oc20ChunkTypeRan : UInt8 := 2

def nvmeWriteFault : Status := 0x0280
def nvmeInternalDevError : Status := 0x0006
def oc20OutOfOrderWrite : Status := 0x02f2

/-- `oc20_chunk_get_state`, as the index of the chunk. -/
def oc20ChunkGetState (lns : Oc20Namespace) (lba : Nat) : Option Nat :=
  if oc20LbaValid lns lba then some (oc20LbaToChunkIndex lns lba) else none

/-! ## the checks -/

/-- `oc20_rw_check_chunk_write`, for a run of `ws` sectors from `lba` on. -/
def oc20RwCheckChunkWrite (lns : Oc20Namespace) (chunkInfo : Nat → Oc20CS) (lba ws : Nat) :
    Status :=
  match oc20ChunkGetState lns lba with
  | none => nvmeWriteFault ||| nvmeDnr
  | some i =>
    let cnk := chunkInfo i
    let startSectr := u32 (lba &&& lns.lbaf.secMask)
    let endSectr := u32 (startSectr + ws)
    if cnk.state &&& oc20ChunkOffline ≠ 0 ∨ cnk.state &&& oc20ChunkClosed ≠ 0 then
      nvmeWriteFault ||| nvmeDnr
    else if endSectr > cnk.cnlb then
      nvmeWriteFault ||| nvmeDnr
    else if cnk.type = oc20ChunkTypeRan then
      if cnk.state ≠ oc20ChunkOpen then nvmeWriteFault ||| nvmeDnr else nvmeSuccess
    else if startSectr ≠ cnk.wp then
      oc20OutOfOrderWrite ||| nvmeDnr
    else
      nvmeSuccess

/-- The loop of `oc20_rw_check_write_req`: the current run starts at `lba`, in the
chunk with index `cidx`, and has `ws` sectors, the last of them `sectr`. -/
def checkWriteLoop (lns : Oc20Namespace) (chunkInfo : Nat → Oc20CS) :
    List Nat → Nat → Nat → Nat → Nat → Status
  | [], lba, _, _, ws => oc20RwCheckChunkWrite lns chunkInfo lba ws
  | nextLba :: rest, lba, cidx, sectr, ws =>
    let nextCidx := oc20LbaToChunkIndex lns nextLba
    if cidx ≠ nextCidx then
      let err := oc20RwCheckChunkWrite lns chunkInfo lba ws
      if err ≠ nvmeSuccess then err
      else checkWriteLoop lns chunkInfo rest nextLba nextCidx (u32 (lns.lbaf.getSectr nextLba)) 1
    else if u32 (sectr + 1) ≠ lns.lbaf.getSectr nextLba then
      oc20OutOfOrderWrite ||| nvmeDnr
    else
      checkWriteLoop lns chunkInfo rest lba cidx (u32 (sectr + 1)) (ws + 1)

/-- `oc20_rw_check_write_req`. A list has one address or more. -/
def oc20RwCheckWriteReq (lns : Oc20Namespace) (chunkInfo : Nat → Oc20CS) : List Nat → Status
  | [] => nvmeSuccess
  | lba :: rest =>
    checkWriteLoop lns chunkInfo rest lba (oc20LbaToChunkIndex lns lba)
      (u32 (lns.lbaf.getSectr lba)) 1

/-- `oc20_rw_check_chunk_read`. -/
def oc20RwCheckChunkRead (lns : Oc20Namespace) (mwCunits : Nat) (chunkInfo : Nat → Oc20CS)
    (lba : Nat) : Status :=
  match oc20ChunkGetState lns lba with
  | none => nvmeDulb
  | some i =>
    let cnk := chunkInfo i
    let sectr := lns.lbaf.getSectr lba
    if cnk.type = oc20ChunkTypeRan then
      if cnk.state ≠ oc20ChunkOpen ∨ sectr ≥ cnk.cnlb then nvmeDulb else nvmeSuccess
    else if cnk.state = oc20ChunkClosed ∧ sectr < cnk.wp then
      nvmeSuccess
    else if cnk.state = oc20ChunkOpen ∧ ¬ cnk.wp < mwCunits ∧ sectr < cnk.wp - mwCunits then
      nvmeSuccess
    else
      nvmeDulb

/-- `1 << i` as it is or-ed into the 64-bit `predef`: the constant is an `int`, so
bit 31 is extended into the upper half. A count of 32 or more is undefined; it is
taken modulo 32, as on x86. -/
def oneShl (i : Nat) : Nat :=
  if i % 32 = 31 then 2 ^ 64 - 2 ^ 31 else 2 ^ (i % 32)

/-- The loop of `oc20_rw_check_read_req`, from the `i`-th address on. -/
def checkReadLoop (lns : Oc20Namespace) (mwCunits : Nat) (chunkInfo : Nat → Oc20CS) :
    List Nat → Nat → Nat → Nat × Status
  | [], _, predef => (predef, nvmeSuccess)
  | lba :: rest, i, predef =>
    let err := oc20RwCheckChunkRead lns mwCunits chunkInfo lba
    if err ≠ nvmeSuccess then
      -- an address that cannot be read, or does not exist, is only marked
      if err &&& nvmeDulb ≠ 0 then
        checkReadLoop lns mwCunits chunkInfo rest (i + 1) (predef ||| oneShl i)
      else
        (predef, err)
    else
      checkReadLoop lns mwCunits chunkInfo rest (i + 1) predef

/-! ## the controller and the request -/

/-- The fields of `FemuCtrl` that `oc20_rw` reads. The latencies are those of
`get_page_read_latency` and `get_page_write_latency` for the flash type and page
type zero. -/
structure Oc20Ctrl extends DmaCtrl where
  elpe : Nat
  mwCunits : Nat
  pageReadLatency : Int
  pageWriteLatency : Int

/-- What `oc20_rw` changes: memories, error log, chunk table, chip timelines, and
the fields of the request. -/
structure Oc20State where
  mem : Mem
  mb : Bytes
  errs : ErrorLog
  chunkInfo : Nat → Oc20CS
  chipNextAvailTime : Int → Int
  sqid : Nat
  cqeCid : Nat
  lbas : List Nat
  isWrite : Bool
  predef : Nat
  map : Mapping
  stime : Int
  expireTime : Int

/-- What `oc20_rw` touches. -/
inductive Oc20Access
  /-- An address of the list was handed to `backend_rw`. -/
  | backend (lba : Nat)
  /-- The chip of an address was handed to `advance_chip_timestamp`. -/
  | chip (lba : Nat) (lunid : Int)
deriving DecidableEq

/-- A command of the open-channel SSD. -/
abbrev Oc20M : Type → Type := Traced Oc20State Oc20Access

def oc20CmdVectWrite : UInt8 := 0x91

/-- `oc20_rw_is_write`. -/
def oc20RwIsWrite (opcode : UInt8) : Bool := opcode == nvmeCmdWrite || opcode == oc20CmdVectWrite

/-! ## latency -/

/-- The value of a `uint64_t` stored in an `int`. -/
def int32 (x : Nat) : Int := (x + 2 ^ 31) % 2 ^ 32 - 2 ^ 31

theorem int32_eq {x : Nat} (h : x < 2 ^ 31) : int32 x = x := by
  simp only [int32]
  omega

theorem int32_le (x : Nat) : int32 x ≤ x := by
  simp only [int32]
  omega

theorem int32_lt (x : Nat) : int32 x < 2 ^ 31 := by
  simp only [int32]
  omega

/-- `Oc20AddrBucket`, with the address that opened it. -/
structure Oc20AddrBucket where
  lba : Nat
  ch : Int
  lun : Int
  cnt : Nat
deriving DecidableEq

/-- The loop of `oc20_parse_lba_list`, with the buckets so far in reverse order:
consecutive addresses that differ in the sector only share a bucket. `none` is
the access to the bucket with index `-1`. -/
def parseLbaLoop (f : Oc20AddrF) : List Nat → Nat → List Oc20AddrBucket →
    Option (List Oc20AddrBucket)
  | [], _, bs => some bs.reverse
  | lba :: rest, prevPgAddr, bs =>
    let curPgAddr := lba ^^^ (lba &&& f.secMask)
    if curPgAddr = prevPgAddr then
      match bs with
      | [] => none
      | b :: bs => parseLbaLoop f rest prevPgAddr ({ b with cnt := b.cnt + 1 } :: bs)
    else
      parseLbaLoop f rest curPgAddr
        (⟨lba, int32 (f.getGroup lba), int32 (f.getPunit lba), 1⟩ :: bs)

/-- `oc20_parse_lba_list`. -/
def oc20ParseLbaList (f : Oc20AddrF) (lbas : List Nat) : Option (List Oc20AddrBucket) :=
  parseLbaLoop f lbas (2 ^ 64 - 1) []

/-- `FEMU_MAX_NUM_CHIPS`. -/
def femuMaxNumChips : Nat := 128

/-- `advance_chip_timestamp`: the time at which the operation is done. -/
def advanceChipTimestamp (lba : Nat) (lunid now lat : Int) : Oc20M Int := do
  emit (.chip lba lunid)
  assert (0 ≤ lunid ∧ lunid < femuMaxNumChips)
  let avail := (← get).chipNextAvailTime lunid
  let doneTs := if now < avail then avail + lat else now + lat
  modify fun s => { s with
    chipNextAvailTime := Function.update s.chipNextAvailTime lunid doneTs }
  return doneTs

/-- The loop of `oc20_advance_status` over the buckets. `advance_channel_timestamp`
returns the time it is given. -/
def advanceLoop (n : Oc20Ctrl) (lns : Oc20Namespace) : List Oc20AddrBucket → Int → Oc20M Int
  | [], total => return total
  | b :: bs, total => do
    let s ← get
    let lunid := b.ch * lns.geo.numLun.toNat + b.lun
    let lat := if s.isWrite then n.pageWriteLatency else n.pageReadLatency
    let ioDoneTs ← advanceChipTimestamp b.lba lunid s.stime lat
    advanceLoop n lns bs (max total (ioDoneTs - s.stime))

/-- `oc20_advance_status`, for reads and writes. -/
def oc20AdvanceStatus (n : Oc20Ctrl) (lns : Oc20Namespace) : Oc20M Unit := do
  match oc20ParseLbaList lns.lbaf (← get).lbas with
  | none => abort
  | some buckets =>
    assert (buckets ≠ [])
    let total ← advanceLoop n lns buckets 0
    modify fun s => { s with expireTime := s.stime + total }

/-! ## the command -/

/-- `oc20_advance_wp`, with its result, which the caller does not look at. -/
def oc20AdvanceWp (lns : Oc20Namespace) (chunkInfo : Nat → Oc20CS) (lba nlb : Nat) :
    (Nat → Oc20CS) × Status :=
  match oc20ChunkGetState lns lba with
  | none => (chunkInfo, nvmeInternalDevError ||| nvmeDnr)
  | some i =>
    let cnk := chunkInfo i
    if cnk.type = oc20ChunkTypeRan then
      (chunkInfo, nvmeSuccess)
    else
      let cnk := if cnk.state = oc20ChunkFree then { cnk with state := oc20ChunkOpen } else cnk
      if cnk.state ≠ oc20ChunkOpen then
        (Function.update chunkInfo i cnk, nvmeInternalDevError ||| nvmeDnr)
      else
        let cnk := { cnk with wp := u64 (cnk.wp + nlb) }
        let cnk := if cnk.wp = cnk.cnlb then { cnk with state := oc20ChunkClosed } else cnk
        (Function.update chunkInfo i cnk, nvmeSuccess)

/-- The addresses of a command: a vector command with several of them has them in
host memory, a scalar command counts up from the first. -/
def lbaList (n : DmaCtrl) (m : Mem) (cmd : NvmeCmd) (vector : Bool) : List Nat :=
  let nlb := cmd.nlb + 1
  let lbal := cmd.slba
  if vector then
    if nlb > 1 then
      let bytes := nvmeAddrRead n m lbal (8 * nlb)
      (List.range nlb).map fun i => leNat ((bytes.drop (8 * i)).take 8)
    else
      [lbal]
  else
    (List.range nlb).map fun i => u64 (lbal + i)

/-- `OC20_CMD_MAX_LBAS`. -/
def oc20CmdMaxLbas : Nat := 64

/-- `offsetof(Oc20RwCmd, lbal)`. -/
def offLbal : Nat := 40

/-- `oc20_rw_check_vector_req`: the status, and the mask of unwritten sectors. -/
def oc20RwCheckVectorReq (n : Oc20Ctrl) (lns : Oc20Namespace) (chunkInfo : Nat → Oc20CS)
    (isWrite : Bool) (lbas : List Nat) : Nat × Status :=
  if isWrite then (0, oc20RwCheckWriteReq lns chunkInfo lbas)
  else checkReadLoop lns n.mwCunits chunkInfo lbas 0 0

/-- The transfer: `nvme_map_prp` into the lists of the request. -/
def mapReq (n : Oc20Ctrl) (prp1 prp2 len : Nat) : Oc20M Status :=
  ofState fun s =>
    (nvmeMapPrp .stub n.toDmaCtrl s.mem prp1 prp2 len s.map).map fun (status, map) =>
      (status, { s with map := map })

/-- Record the addresses of a list that is handed to `backend_rw`. -/
def emitLbas : List Nat → Oc20M Unit
  | [] => return ()
  | lba :: rest => do
    emit (.backend lba)
    emitLbas rest

/-- `backend_rw` on the list of byte offsets. -/
def backendReq (lns : Oc20Namespace) : Oc20M Unit := do
  emitLbas (← get).lbas
  ofState fun s =>
    let aioSectorList := s.lbas.map fun lba => u64 (lba * 2 ^ lns.lbads)
    (Nvme.backendRw .ocssd s.map.qsg aioSectorList s.isWrite s.mem.host s.mb).map
      fun (host, mb) =>
        ((), { s with mem := { s.mem with host := host }, mb := mb,
                      map := { s.map with qsg := qemuSglistDestroy s.map.qsg } })

/-- The end of `oc20_rw`: the latency, and the write pointer of a write. -/
def oc20RwComplete (n : Oc20Ctrl) (lns : Oc20Namespace) (nlb : Nat) : Oc20M Status := do
  oc20AdvanceStatus n lns
  modify fun s => { s with
    chunkInfo :=
      if s.isWrite then (oc20AdvanceWp lns s.chunkInfo (s.lbas.headD 0) nlb).1
      else s.chunkInfo }
  return nvmeSuccess

/-- The part of `oc20_rw` that follows the checks. -/
def oc20RwTransfer (n : Oc20Ctrl) (lns : Oc20Namespace) (cmd : NvmeCmd) : Oc20M Status := do
  let nlb := cmd.nlb + 1
  if (← mapReq n cmd.prp1.toNat cmd.prp2.toNat (nlb * 2 ^ lns.lbads)) ≠ nvmeSuccess then
    return nvmeInvalidField ||| nvmeDnr
  else do
    backendReq lns
    oc20RwComplete n lns nlb

/-- `oc20_rw`. -/
def oc20Rw (n : Oc20Ctrl) (lns : Oc20Namespace) (cmd : NvmeCmd) (vector : Bool) :
    Oc20M Status := do
  if cmd.nlb + 1 > oc20CmdMaxLbas then do
    ofState fun s =>
      (nvmeSetErrorPage n.elpe s.errs s.sqid s.cqeCid nvmeInvalidField offLbal 0
        cmd.nsid.toNat).map fun errs => ((), { s with errs := errs })
    return nvmeInvalidField ||| nvmeDnr
  else do
    let s ← get
    let isWrite := oc20RwIsWrite cmd.opcode
    let lbas := lbaList n.toDmaCtrl s.mem cmd vector
    let checked := oc20RwCheckVectorReq n lns s.chunkInfo isWrite lbas
    modify fun s => { s with lbas := lbas, isWrite := isWrite, predef := checked.1 }
    if checked.2 ≠ nvmeSuccess then
      return checked.2
    else
      oc20RwTransfer n lns cmd

end Femu.Ocssd

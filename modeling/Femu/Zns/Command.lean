import Femu.Zns.Zone

/-!
# Femu.Zns.Command

The I/O commands of the zoned command set (`zns.c`): read, write, zone append
and zone management send, on the request that carries them, and runs of the
device over the commands of its host.

A transfer that does not come back (`none` of `nvme_map_prp` and `backend_rw`)
ends the run with the fault `dma`.
-/

namespace Femu.Zns

open Nvme Lib

/-! ## the device and its requests -/

/-- What the commands change: the zones, the memories, the backend and the zone
descriptor extensions. -/
structure ZnsState where
  zt : ZoneTable
  mem : Mem
  mb : Bytes
  zdExtensions : Bytes

/-- `NvmeRequest`: the fields that the zoned commands read or write. `resSlba` is
the `NvmeZonedResult` in its `cqe`. -/
structure NvmeRequest where
  cmd : NvmeCmd
  isWrite : Bool
  map : Mapping
  resSlba : Nat

/-- The status of a handler, with the request and the device after it. -/
abbrev Handled : Type := Status × NvmeRequest × ZnsState

/-- A computation in which `none` stands for a transfer that does not come back. -/
def orDma {α : Type} : Option α → Except Fault α
  | some a => pure a
  | none => throw .dma

/-! ## checks -/

/-- `nvme_check_mdts`. The limit is an `int` that is compared with a `size_t`; its 32 bits are
taken without a sign here, which agrees with the code below `2 ^ 31`: with pages of 4096 bytes up
to `mdts` 18. The default is 10. -/
def nvmeCheckMdts (n : ZnsCtrl) (len : Nat) : Status :=
  if n.mdts ≠ 0 ∧ u32 (n.pageSize <<< n.mdts) < len then nvmeInvalidField ||| nvmeDnr
  else nvmeSuccess

/-- `zns_check_bounds`. -/
def znsCheckBounds (n : ZnsCtrl) (slba nlb : Nat) : Status :=
  if 2 ^ 64 - 1 - slba < nlb ∨ n.nsze < slba + nlb then nvmeLbaRange ||| nvmeDnr
  else nvmeSuccess

/-- `zns_check_zone_state_for_write`. -/
def znsCheckZoneStateForWrite (z : NvmeZone) : Except Fault Status :=
  match z.zs with
  | .empty => pure nvmeSuccess
  | .implicitlyOpen => pure nvmeSuccess
  | .explicitlyOpen => pure nvmeSuccess
  | .closed => pure nvmeSuccess
  | .full => pure nvmeZoneFull
  | .offline => pure nvmeZoneOffline
  | .readOnly => pure nvmeZoneReadOnly
  | .reserved => throw .state

/-- `zns_check_zone_write`. -/
def znsCheckZoneWrite (n : ZnsCtrl) (z : NvmeZone) (slba nlb : Nat) (append : Bool) :
    Except Fault Status := do
  let status ←
    if znsZoneWrBoundary z < u64 (slba + nlb) then pure nvmeZoneBoundaryError
    else znsCheckZoneStateForWrite z
  if status ≠ nvmeSuccess then
    return status
  else
    require (znsWpIsValid z) .state
    if append then
      if u32 (n.pageSize <<< n.zasl) < n.l2b nlb then return nvmeInvalidField
      else if slba ≠ z.zslba then return nvmeInvalidField
      else return nvmeSuccess
    else if slba ≠ z.wPtr then
      return nvmeZoneInvalidWrite
    else
      return nvmeSuccess

/-- `zns_check_zone_state_for_read`. -/
def znsCheckZoneStateForRead (z : NvmeZone) : Except Fault Status :=
  match z.zs with
  | .empty => pure nvmeSuccess
  | .implicitlyOpen => pure nvmeSuccess
  | .explicitlyOpen => pure nvmeSuccess
  | .full => pure nvmeSuccess
  | .closed => pure nvmeSuccess
  | .readOnly => pure nvmeSuccess
  | .offline => pure nvmeZoneOffline
  | .reserved => throw .state

/-- `zns_zone_rd_boundary`. -/
def znsZoneRdBoundary (n : ZnsCtrl) (z : NvmeZone) : Nat := u64 (z.zslba + n.zoneSize)

/-- The `do` loop of `zns_check_zone_read`, from the zone before the next one. Each
round moves on by a zone, and the loop leaves the array before it has gone
through as many zones as there are. -/
def crossZoneLoop (n : ZnsCtrl) (t : ZoneTable) (bound : Nat) : Nat → Nat → Except Fault Status
  | 0, _ => throw .zone
  | k + 1, i =>
    if n.numZones ≤ i + 1 then
      throw .zone
    else do
      let status ← znsCheckZoneStateForRead (t.zones (i + 1))
      if status ≠ nvmeSuccess then
        return status
      else if znsZoneRdBoundary n (t.zones (i + 1)) < bound then
        crossZoneLoop n t bound k (i + 1)
      else
        return status

/-- `zns_check_zone_read`. -/
def znsCheckZoneRead (n : ZnsCtrl) (t : ZoneTable) (slba nlb : Nat) : Except Fault Status := do
  let i ← znsGetZoneBySlba n slba
  let bound := u64 (slba + nlb)
  let status ← znsCheckZoneStateForRead (t.zones i)
  if status ≠ nvmeSuccess then
    return status
  else if znsZoneRdBoundary n (t.zones i) < bound then
    if n.crossZoneRead then crossZoneLoop n t bound n.numZones i
    else return nvmeZoneBoundaryError
  else
    return status

/-! ## transfers -/

/-- `zns_map_dptr`, into the lists of the request. -/
def znsMapDptr (n : ZnsCtrl) (m : Mem) (len : Nat) (req : NvmeRequest) :
    Except Fault (Status × NvmeRequest) :=
  if req.cmd.psdt = 0 then do
    let (status, map) ← orDma
      (nvmeMapPrp .stub n.toDmaCtrl m req.cmd.prp1.toNat req.cmd.prp2.toNat len req.map)
    return (status, { req with map := map })
  else
    return (nvmeInvalidField, req)

/-- `backend_rw(n->mbe, &req->qsg, &data_offset, req->is_write)`. -/
def znsBackendRw (req : NvmeRequest) (dataOffset : Nat) (s : ZnsState) :
    Except Fault (NvmeRequest × ZnsState) := do
  let (host, mb) ← orDma
    (backendRw .znssd req.map.qsg [dataOffset] req.isWrite s.mem.host s.mb)
  return ({ req with map := { req.map with qsg := qemuSglistDestroy req.map.qsg } },
    { s with mem := { s.mem with host := host }, mb := mb })

/-! ## the data commands -/

/-- The number of blocks of a command, as the handlers compute it. -/
def NvmeRequest.nlb (req : NvmeRequest) : Nat := req.cmd.nlb + 1

/-- `zns_finalize_zoned_write` and what follows it. The zone is looked up again from
the address in the command. -/
def finishWrite (n : ZnsCtrl) (req : NvmeRequest) (s : ZnsState) : Except Fault Handled := do
  let i ← znsGetZoneBySlba n req.cmd.slba
  let zt ← znsFinalizeZonedWrite n s.zt i req.nlb
  return (nvmeSuccess, req, { s with zt := zt })

/-- `zns_do_write` from the look-up of the zone on. `zns_write` is the same code
with `append` and `wrz` false. -/
def writeZone (n : ZnsCtrl) (req : NvmeRequest) (append wrz : Bool) (s : ZnsState) :
    Except Fault Handled := do
  let nlb := req.nlb
  let i ← znsGetZoneBySlba n req.cmd.slba
  let status ← znsCheckZoneWrite n (s.zt.zones i) req.cmd.slba nlb append
  if status ≠ nvmeSuccess then
    return (status ||| nvmeDnr, req, s)
  else
    let (status, zt) ← znsAutoOpenZone n s.zt i
    let s := { s with zt := zt }
    if status ≠ nvmeSuccess then
      return (status ||| nvmeDnr, req, s)
    else
      let slba := if append then (s.zt.zones i).wPtr else req.cmd.slba
      let (resSlba, zt) ← znsAdvanceZoneWp n s.zt i nlb
      let req := { req with resSlba := resSlba }
      let s := { s with zt := zt }
      if wrz then
        finishWrite n req s
      else
        let (status, req) ← znsMapDptr n s.mem (n.l2b nlb) req
        if status ≠ nvmeSuccess then
          return (status ||| nvmeDnr, req, s)
        else
          let (req, s) ← znsBackendRw req (n.l2b slba) s
          finishWrite n req s

/-- `zns_do_write`. -/
def znsDoWrite (n : ZnsCtrl) (req : NvmeRequest) (append wrz : Bool) (s : ZnsState) :
    Except Fault Handled :=
  if ¬ wrz ∧ nvmeCheckMdts n (n.l2b req.nlb) ≠ nvmeSuccess then
    return (nvmeCheckMdts n (n.l2b req.nlb) ||| nvmeDnr, req, s)
  else if znsCheckBounds n req.cmd.slba req.nlb ≠ nvmeSuccess then
    return (znsCheckBounds n req.cmd.slba req.nlb ||| nvmeDnr, req, s)
  else
    writeZone n req append wrz s

/-- `zns_zone_append`. -/
def znsZoneAppend (n : ZnsCtrl) (req : NvmeRequest) (s : ZnsState) : Except Fault Handled :=
  znsDoWrite n req true false s

/-- `zns_write`. -/
def znsWrite (n : ZnsCtrl) (req : NvmeRequest) (s : ZnsState) : Except Fault Handled := do
  require (n.zoned = true) .assert
  znsDoWrite n { req with isWrite := true } false false s

/-- `zns_read`. The check for deallocated blocks always succeeds. -/
def znsRead (n : ZnsCtrl) (req : NvmeRequest) (s : ZnsState) : Except Fault Handled := do
  require (n.zoned = true) .assert
  let req := { req with isWrite := false }
  let nlb := req.nlb
  if nvmeCheckMdts n (n.l2b nlb) ≠ nvmeSuccess then
    return (nvmeCheckMdts n (n.l2b nlb) ||| nvmeDnr, req, s)
  else if znsCheckBounds n req.cmd.slba nlb ≠ nvmeSuccess then
    return (znsCheckBounds n req.cmd.slba nlb ||| nvmeDnr, req, s)
  else
    let status ← znsCheckZoneRead n s.zt req.cmd.slba nlb
    if status ≠ nvmeSuccess then
      return (status ||| nvmeDnr, req, s)
    else
      let (status, req) ← znsMapDptr n s.mem (n.l2b nlb) req
      if status ≠ nvmeSuccess then
        return (status ||| nvmeDnr, req, s)
      else
        let (req, s) ← znsBackendRw req (n.l2b req.cmd.slba) s
        return (nvmeSuccess, req, s)

/-! ## zone management send -/

/-- `NvmeZoneSendAction`. -/
def nvmeZoneActionClose : Nat := 0x01
def nvmeZoneActionFinish : Nat := 0x02
def nvmeZoneActionOpen : Nat := 0x03
def nvmeZoneActionReset : Nat := 0x04
def nvmeZoneActionOffline : Nat := 0x05
def nvmeZoneActionSetZdExt : Nat := 0x10

/-- `zns_get_mgmt_zone_slba_idx`: the status, the address and the zone. -/
def znsGetMgmtZoneSlbaIdx (n : ZnsCtrl) (c : NvmeCmd) : Except Fault (Status × Nat × Nat) :=
  if n.zoned = false then
    return (nvmeInvalidOpcode ||| nvmeDnr, 0, 0)
  else if n.nsze ≤ c.slba then
    return (nvmeLbaRange ||| nvmeDnr, 0, 0)
  else
    return (nvmeSuccess, c.slba, ← znsGetZoneBySlba n c.slba)

/-- `zns_get_zd_extension`: the offset in `zd_extensions`, computed in 32 bits. -/
def znsGetZdExtension (n : ZnsCtrl) (zoneIdx : Nat) : Nat := u32 (zoneIdx * n.zdExtensionSize)

/-- The case `NVME_ZONE_ACTION_SET_ZD_EXT` of `zns_zone_mgmt_send`. -/
def sendZdExt (n : ZnsCtrl) (cmd : NvmeCmd) (zoneIdx : Nat) (s : ZnsState) :
    Except Fault (Status × ZnsState) := do
  let (status, bs) ← orDma
    (dmaWritePrp n.toDmaCtrl s.mem n.zdExtensionSize cmd.prp1.toNat cmd.prp2.toNat)
  if status ≠ nvmeSuccess then
    return (status, s)
  else
    let s := { s with zdExtensions := writeBytes s.zdExtensions (znsGetZdExtension n zoneIdx) bs }
    let (status, zt) ← znsSetZdExt n s.zt zoneIdx
    return (if status = nvmeSuccess then status else status ||| nvmeDnr, { s with zt := zt })

/-- The zones that an action is applied to, and its handler: the cases of the
`switch` of `zns_zone_mgmt_send` that call `zns_do_zone_op`. -/
def sendAction (n : ZnsCtrl) (action : Nat) (all : Bool) : Option (ProcMask × OpHandler) :=
  if action = nvmeZoneActionOpen then
    some ({ closedZones := all }, znsOpenZone n)
  else if action = nvmeZoneActionClose then
    some ({ openedZones := all }, znsCloseZone n)
  else if action = nvmeZoneActionFinish then
    some ({ openedZones := all, closedZones := all }, znsFinishZone n)
  else if action = nvmeZoneActionReset then
    some ({ openedZones := all, closedZones := all, fullZones := all }, znsResetZone n)
  else if action = nvmeZoneActionOffline then
    some ({ readOnlyZones := all }, znsOfflineZone)
  else
    none

/-- `zone->d.zslba` of `zns_zone_mgmt_send`. An array without zones is not NULL: it is a chunk that
`calloc` has cleared, and its smallest chunk reaches to the end of a first `zslba`. -/
def ZoneTable.zslbaAt (n : ZnsCtrl) (t : ZoneTable) (zoneIdx : Nat) : Nat :=
  if n.numZones = 0 then 0 else (t.zones zoneIdx).zslba

theorem ZoneTable.zslbaAt_eq {n : ZnsCtrl} {t : ZoneTable} {i : Nat} (hi : i < n.numZones) :
    t.zslbaAt n i = (t.zones i).zslba :=
  if_neg (Nat.ne_zero_of_lt hi)

/-- `zns_zone_mgmt_send` from the look-up of the zone on. -/
def sendToZone (n : ZnsCtrl) (cmd : NvmeCmd) (slba zoneIdx : Nat) (s : ZnsState) :
    Except Fault (Status × ZnsState) := do
  let action := cmd.cdw13.toNat % 0x100
  let all := cmd.cdw13.toNat.testBit 8
  if slba ≠ s.zt.zslbaAt n zoneIdx then
    return (nvmeInvalidField ||| nvmeDnr, s)
  else
    match sendAction n action all with
    | some (mask, op) =>
      let (status, zt) ← znsDoZoneOp n s.zt zoneIdx mask op
      let s := { s with zt := zt }
      if action = nvmeZoneActionReset then
        return (nvmeSuccess, s)
      else
        return (if status = nvmeSuccess then status else status ||| nvmeDnr, s)
    | none =>
      if action = nvmeZoneActionSetZdExt then
        if all ∨ n.zdExtensionSize = 0 then
          return (nvmeInvalidField ||| nvmeDnr, s)
        else
          sendZdExt n cmd zoneIdx s
      else
        return (nvmeInvalidField ||| nvmeDnr, s)

/-- `zns_zone_mgmt_send`. -/
def znsZoneMgmtSend (n : ZnsCtrl) (req : NvmeRequest) (s : ZnsState) : Except Fault Handled := do
  let all := req.cmd.cdw13.toNat.testBit 8
  let (status, slba, zoneIdx) ←
    if all then pure (nvmeSuccess, 0, 0) else znsGetMgmtZoneSlbaIdx n req.cmd
  if status ≠ nvmeSuccess then
    return (status, req, s)
  else
    let (status, s) ← sendToZone n req.cmd slba zoneIdx s
    return (status, req, s)

/-! ## runs -/

/-- The commands of the zoned command set that change zones or data. -/
inductive ZnsOp
  | read
  | write
  | append
  | mgmtSend
deriving DecidableEq

/-- The handler of a command, as `zns_io_cmd` selects it. -/
def ZnsOp.handler (n : ZnsCtrl) : ZnsOp → NvmeRequest → ZnsState → Except Fault Handled
  | read => znsRead n
  | write => znsWrite n
  | append => znsZoneAppend n
  | mgmtSend => znsZoneMgmtSend n

/-- The device with the request slots of its queues. -/
structure System where
  dev : ZnsState
  slots : Nat → NvmeRequest

/-- What happens to the device: the host writes to its memory or to the
controller memory buffer, a command is executed on the request slot it is given,
the device is shut down. -/
inductive Event
  | host (mem : Mem)
  | cmd (op : ZnsOp) (slot : Nat) (c : NvmeCmd)
  | shutdown

/-- The request of a slot when a command has been copied into it: only its `cqe`
is cleared. -/
def System.fetch (sys : System) (slot : Nat) (c : NvmeCmd) : NvmeRequest :=
  { sys.slots slot with cmd := c, resSlba := 0 }

/-- The status of a command on a slot, and the system after it. -/
def System.exec (n : ZnsCtrl) (sys : System) (op : ZnsOp) (slot : Nat) (c : NvmeCmd) :
    Except Fault (Status × System) := do
  let (status, req, dev) ← op.handler n (sys.fetch slot c) sys.dev
  return (status, ⟨dev, Function.update sys.slots slot req⟩)

/-- One event. -/
def System.step (n : ZnsCtrl) (sys : System) : Event → Except Fault System
  | .host mem => pure { sys with dev := { sys.dev with mem := mem } }
  | .cmd op slot c => do
    let (_, sys) ← sys.exec n op slot c
    return sys
  | .shutdown => do
    let zt ← znsNsShutdown n sys.dev.zt
    return { sys with dev := { sys.dev with zt := zt } }

end Femu.Zns

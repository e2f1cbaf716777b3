import Femu.Lib.Outcome
import Femu.Lib.Tailq
import Femu.Nvme.Dram

/-!
# Femu.Zns.Zone

The zones of a zoned namespace (`zns.c`): the zone table with its four lists and
its two resource counters, and everything that moves a zone from one state to
another except the data commands.

* a list is the `List` of the indices of its zones; a list operation that would
  corrupt the lists in memory is the fault `queue`;
* the counters are `int32_t`: they are integers here, which is the same as long
  as the table has no more than `INT32_MAX` zones, and `znsInitZonedState` gives
  no table beyond that;
* a `switch` that falls through is written with the set of states that reach
  each of its cases.
-/

namespace Femu.Zns

open Nvme Lib

/-! ## zones -/

/-- `NvmeZoneState`. -/
inductive NvmeZoneState
  | reserved
  | empty
  | implicitlyOpen
  | explicitlyOpen
  | closed
  | readOnly
  | full
  | offline
deriving DecidableEq

/-- `NvmeZone`: the fields of its descriptor `d`, with `w_ptr`. -/
structure NvmeZone where
  zt : UInt8
  zs : NvmeZoneState
  za : UInt8
  zcap : Nat
  zslba : Nat
  wp : Nat
  wPtr : Nat
deriving DecidableEq

/-- `NVME_ZONE_TYPE_SEQ_WRITE`. -/
def nvmeZoneTypeSeqWrite : UInt8 := 0x02

/-- `NVME_ZA_ZD_EXT_VALID`. -/
def nvmeZaZdExtValid : UInt8 := 0x80

/-- `zns_zone_wr_boundary`. -/
def znsZoneWrBoundary (z : NvmeZone) : Nat := u64 (z.zslba + z.zcap)

/-- `zns_wp_is_valid`. -/
def znsWpIsValid (z : NvmeZone) : Prop := z.zs ≠ .full ∧ z.zs ≠ .readOnly ∧ z.zs ≠ .offline

instance (z : NvmeZone) : Decidable (znsWpIsValid z) := inferInstanceAs (Decidable (_ ∧ _))

/-- The states `EXPLICITLY_OPEN` and `IMPLICITLY_OPEN`. -/
def NvmeZoneState.isOpen : NvmeZoneState → Bool
  | explicitlyOpen => true
  | implicitlyOpen => true
  | _ => false

/-- The open states and `CLOSED`. -/
def NvmeZoneState.isActive : NvmeZoneState → Bool
  | explicitlyOpen => true
  | implicitlyOpen => true
  | closed => true
  | _ => false

/-- The lists of `FemuCtrl`: `exp_open_zones`, `imp_open_zones`, `closed_zones`
and `full_zones`. -/
inductive ZoneList
  | expOpen
  | impOpen
  | closed
  | full
deriving DecidableEq

/-- The list that `zns_assign_zone_state` takes a zone of this state out of, and
puts it into. -/
def NvmeZoneState.list : NvmeZoneState → Option ZoneList
  | explicitlyOpen => some .expOpen
  | implicitlyOpen => some .impOpen
  | closed => some .closed
  | full => some .full
  | _ => none

/-! ## the controller -/

/-- The fields of `FemuCtrl` and of its namespace that the zoned command set
reads. -/
structure ZnsCtrl extends DmaCtrl where
  mdts : Nat
  zasl : Nat
  zoned : Bool
  crossZoneRead : Bool
  zoneSizeBs : Nat
  /-- `zone_cap_bs`. The field is declared `bool`, for which only 0 passes the
  size check; every value is allowed here. -/
  zoneCapBs : Nat
  maxActiveZones : Nat
  maxOpenZones : Nat
  zdExtensionSize : Nat
  numZones : Nat
  zoneSize : Nat
  zoneCapacity : Nat
  zoneSizeLog2 : Nat
  /-- `ns->size`, in bytes. -/
  size : UInt64
  /-- `zns_ns_lbads`. -/
  lbads : Nat
  /-- `ns->id_ns.nsze`. -/
  nsze : Nat

/-- `zns_l2b`. -/
def ZnsCtrl.l2b (n : ZnsCtrl) (lba : Nat) : Nat := u64 (lba <<< n.lbads)

/-- What ends a run: a failed assertion of the `zns_aor_*` functions, one about
the state of a zone, any other assertion, an operation that corrupts a list, an
access outside the zone array, and a transfer that does not come back. -/
inductive Fault
  | aor
  | state
  | assert
  | queue
  | zone
  | dma
deriving DecidableEq

/-- `zone_array` with the lists and the counters. -/
structure ZoneTable where
  zones : Nat → NvmeZone
  lists : ZoneList → List Nat
  nrOpenZones : Int
  nrActiveZones : Int

namespace ZoneTable

/-- `QTAILQ_IN_USE(zone, entry)`. -/
def inUse (t : ZoneTable) (i : Nat) : Prop :=
  i ∈ t.lists .expOpen ∨ i ∈ t.lists .impOpen ∨ i ∈ t.lists .closed ∨ i ∈ t.lists .full

instance (t : ZoneTable) (i : Nat) : Decidable (t.inUse i) :=
  inferInstanceAs (Decidable (_ ∨ _))

/-- `QTAILQ_REMOVE`. -/
def remove (t : ZoneTable) (l : ZoneList) (i : Nat) : Except Fault ZoneTable :=
  if i ∈ t.lists l then
    pure { t with lists := Function.update t.lists l ((t.lists l).erase i) }
  else
    throw .queue

/-- `QTAILQ_INSERT_TAIL`. -/
def insertTail (t : ZoneTable) (l : ZoneList) (i : Nat) : Except Fault ZoneTable :=
  if t.inUse i then throw .queue
  else pure { t with lists := Function.update t.lists l (t.lists l ++ [i]) }

/-- `QTAILQ_INSERT_HEAD`. -/
def insertHead (t : ZoneTable) (l : ZoneList) (i : Nat) : Except Fault ZoneTable :=
  if t.inUse i then throw .queue
  else pure { t with lists := Function.update t.lists l (i :: t.lists l) }

/-- Change one zone. -/
def setZone (t : ZoneTable) (i : Nat) (z : NvmeZone) : ZoneTable :=
  { t with zones := Function.update t.zones i z }

/-- `zns_set_zone_state`. -/
def setZoneState (t : ZoneTable) (i : Nat) (zs : NvmeZoneState) : ZoneTable :=
  t.setZone i { t.zones i with zs := zs }

/-- `zone->w_ptr = lba; zone->d.wp = zone->w_ptr`. -/
def setPointers (t : ZoneTable) (i lba : Nat) : ZoneTable :=
  t.setZone i { t.zones i with wPtr := lba, wp := lba }

end ZoneTable

/-! ## open and active resources -/

/-- `zns_aor_inc_open`. -/
def znsAorIncOpen (n : ZnsCtrl) (t : ZoneTable) : Except Fault ZoneTable := do
  require (0 ≤ t.nrOpenZones) .aor
  if n.maxOpenZones ≠ 0 then
    require (t.nrOpenZones + 1 ≤ n.maxOpenZones) .aor
    pure { t with nrOpenZones := t.nrOpenZones + 1 }
  else
    pure t

/-- `zns_aor_dec_open`. -/
def znsAorDecOpen (n : ZnsCtrl) (t : ZoneTable) : Except Fault ZoneTable :=
  if n.maxOpenZones ≠ 0 then do
    require (0 < t.nrOpenZones) .aor
    require (0 ≤ t.nrOpenZones - 1) .aor
    pure { t with nrOpenZones := t.nrOpenZones - 1 }
  else do
    require (0 ≤ t.nrOpenZones) .aor
    pure t

/-- `zns_aor_inc_active`. -/
def znsAorIncActive (n : ZnsCtrl) (t : ZoneTable) : Except Fault ZoneTable := do
  require (0 ≤ t.nrActiveZones) .aor
  if n.maxActiveZones ≠ 0 then
    require (t.nrActiveZones + 1 ≤ n.maxActiveZones) .aor
    pure { t with nrActiveZones := t.nrActiveZones + 1 }
  else
    pure t

/-- `zns_aor_dec_active`. -/
def znsAorDecActive (n : ZnsCtrl) (t : ZoneTable) : Except Fault ZoneTable :=
  if n.maxActiveZones ≠ 0 then do
    require (0 < t.nrActiveZones) .aor
    require (t.nrOpenZones ≤ t.nrActiveZones - 1) .aor
    require (0 ≤ t.nrActiveZones - 1) .aor
    pure { t with nrActiveZones := t.nrActiveZones - 1 }
  else do
    require (0 ≤ t.nrActiveZones) .aor
    pure t

/-- `zns_aor_check`: whether a zone can be opened without exceeding the limits. -/
def znsAorCheck (n : ZnsCtrl) (t : ZoneTable) (act opn : Nat) : Status :=
  if n.maxActiveZones ≠ 0 ∧ (n.maxActiveZones : Int) < t.nrActiveZones + act then
    nvmeZoneTooManyActive ||| nvmeDnr
  else if n.maxOpenZones ≠ 0 ∧ (n.maxOpenZones : Int) < t.nrOpenZones + opn then
    nvmeZoneTooManyOpen ||| nvmeDnr
  else
    nvmeSuccess

/-! ## state changes -/

/-- The first `switch` of `zns_assign_zone_state`: take the zone out of the list
of its state. -/
def unlink (t : ZoneTable) (i : Nat) : Except Fault ZoneTable :=
  if t.inUse i then
    match (t.zones i).zs.list with
    | some l => t.remove l i
    | none => pure t
  else
    pure t

/-- The second `switch` of `zns_assign_zone_state`: put the zone into the list of
its new state. -/
def link (t : ZoneTable) (i : Nat) (state : NvmeZoneState) : Except Fault ZoneTable :=
  match state.list with
  | some l => t.insertTail l i
  | none =>
    if state = .readOnly then pure t
    else pure (t.setZone i { t.zones i with za := 0 })

/-- `zns_assign_zone_state`. -/
def znsAssignZoneState (t : ZoneTable) (i : Nat) (state : NvmeZoneState) :
    Except Fault ZoneTable := do
  let t ← unlink t i
  link (t.setZoneState i state) i state

/-- `zns_auto_transition_zone`. -/
def znsAutoTransitionZone (n : ZnsCtrl) (t : ZoneTable) : Except Fault ZoneTable :=
  if n.maxOpenZones ≠ 0 ∧ t.nrOpenZones = n.maxOpenZones then
    match (t.lists .impOpen).head? with
    | some i => do
      -- automatically close this implicitly open zone
      let t ← t.remove .impOpen i
      let t ← znsAorDecOpen n t
      znsAssignZoneState t i .closed
    | none => pure t
  else
    pure t

/-- `zns_auto_open_zone`. -/
def znsAutoOpenZone (n : ZnsCtrl) (t : ZoneTable) (i : Nat) : Except Fault (Status × ZoneTable) :=
  match (t.zones i).zs with
  | .empty => do
    let t ← znsAutoTransitionZone n t
    return (znsAorCheck n t 1 1, t)
  | .closed => do
    let t ← znsAutoTransitionZone n t
    return (znsAorCheck n t 0 1, t)
  | _ => return (nvmeSuccess, t)

/-- The cases that the `switch` of `zns_finalize_zoned_write`,
`zns_aio_zone_reset_cb` and `zns_finish_zone` starts with: give the resources of
the zone back, an open zone falling through to the closed ones. -/
def releaseResources (n : ZnsCtrl) (t : ZoneTable) (zs : NvmeZoneState) :
    Except Fault ZoneTable := do
  let t ← if zs.isOpen then znsAorDecOpen n t else pure t
  if zs.isActive then znsAorDecActive n t else pure t

/-- `zns_advance_zone_wp`: the write pointer before, and the table after. -/
def znsAdvanceZoneWp (n : ZnsCtrl) (t : ZoneTable) (i nlb : Nat) :
    Except Fault (Nat × ZoneTable) := do
  let result := (t.zones i).wPtr
  let t := t.setZone i { t.zones i with wPtr := u64 ((t.zones i).wPtr + nlb) }
  if (t.zones i).wPtr < znsZoneWrBoundary (t.zones i) then
    let zs := (t.zones i).zs
    let t ← if zs = .empty then znsAorIncActive n t else pure t
    if zs = .empty ∨ zs = .closed then
      let t ← znsAorIncOpen n t
      return (result, ← znsAssignZoneState t i .implicitlyOpen)
    else
      return (result, t)
  else
    return (result, t)

/-- `zns_finalize_zoned_write`, on the zone `i`. -/
def znsFinalizeZonedWrite (n : ZnsCtrl) (t : ZoneTable) (i nlb : Nat) :
    Except Fault ZoneTable := do
  let t := t.setZone i { t.zones i with wp := u64 ((t.zones i).wp + nlb) }
  if (t.zones i).wp = znsZoneWrBoundary (t.zones i) then
    let zs := (t.zones i).zs
    if zs.isActive ∨ zs = .empty then
      let t ← releaseResources n t zs
      znsAssignZoneState t i .full
    else if zs = .full then
      pure t
    else
      throw .state
  else
    pure t

/-! ## zone management actions -/

/-- `op_handler_t`. -/
abbrev OpHandler : Type := ZoneTable → Nat → NvmeZoneState → Except Fault (Status × ZoneTable)

/-- `zns_open_zone` from `case NVME_ZONE_STATE_CLOSED` on. -/
def openFromClosed (n : ZnsCtrl) (t : ZoneTable) (i : Nat) (state : NvmeZoneState) :
    Except Fault (Status × ZoneTable) := do
  let status := znsAorCheck n t 0 1
  if status ≠ nvmeSuccess then
    let t ← if state = .empty then znsAorDecActive n t else pure t
    return (status, t)
  else
    let t ← znsAorIncOpen n t
    return (nvmeSuccess, ← znsAssignZoneState t i .explicitlyOpen)

/-- `zns_open_zone`. -/
def znsOpenZone (n : ZnsCtrl) : OpHandler := fun t i state =>
  match state with
  | .empty => do
    let status := znsAorCheck n t 1 0
    if status ≠ nvmeSuccess then
      return (status, t)
    else
      openFromClosed n (← znsAorIncActive n t) i state
  | .closed => openFromClosed n t i state
  | .implicitlyOpen => do return (nvmeSuccess, ← znsAssignZoneState t i .explicitlyOpen)
  | .explicitlyOpen => return (nvmeSuccess, t)
  | _ => return (nvmeZoneInvalTransition, t)

/-- `zns_close_zone`. -/
def znsCloseZone (n : ZnsCtrl) : OpHandler := fun t i state =>
  if state.isOpen then do
    let t ← znsAorDecOpen n t
    return (nvmeSuccess, ← znsAssignZoneState t i .closed)
  else if state = .closed then
    return (nvmeSuccess, t)
  else
    return (nvmeZoneInvalTransition, t)

/-- `zns_finish_zone`. -/
def znsFinishZone (n : ZnsCtrl) : OpHandler := fun t i state =>
  if state.isActive ∨ state = .empty then do
    let t ← releaseResources n t state
    let t := t.setPointers i (znsZoneWrBoundary (t.zones i))
    return (nvmeSuccess, ← znsAssignZoneState t i .full)
  else if state = .full then
    return (nvmeSuccess, t)
  else
    return (nvmeZoneInvalTransition, t)

/-- `zns_aio_zone_reset_cb`. -/
def znsAioZoneResetCb (n : ZnsCtrl) (t : ZoneTable) (i : Nat) : Except Fault ZoneTable :=
  let zs := (t.zones i).zs
  if zs.isActive ∨ zs = .full then do
    let t ← releaseResources n t zs
    let t := t.setPointers i (t.zones i).zslba
    znsAssignZoneState t i .empty
  else
    pure t

/-- `zns_reset_zone`. -/
def znsResetZone (n : ZnsCtrl) : OpHandler := fun t i state =>
  if state = .empty then
    return (nvmeSuccess, t)
  else if state.isActive ∨ state = .full then
    return (nvmeSuccess, ← znsAioZoneResetCb n t i)
  else
    return (nvmeZoneInvalTransition, t)

/-- `zns_offline_zone`. -/
def znsOfflineZone : OpHandler := fun t i state =>
  if state = .readOnly then
    return (nvmeSuccess, ← znsAssignZoneState t i .offline)
  else if state = .offline then
    return (nvmeSuccess, t)
  else
    return (nvmeZoneInvalTransition, t)

/-- `zns_set_zd_ext`. -/
def znsSetZdExt (n : ZnsCtrl) (t : ZoneTable) (i : Nat) : Except Fault (Status × ZoneTable) :=
  if (t.zones i).zs = .empty then do
    let status := znsAorCheck n t 1 0
    if status ≠ nvmeSuccess then
      return (status, t)
    else
      let t ← znsAorIncActive n t
      let t := t.setZone i { t.zones i with za := (t.zones i).za ||| nvmeZaZdExtValid }
      return (nvmeSuccess, ← znsAssignZoneState t i .closed)
  else
    return (nvmeZoneInvalTransition, t)

/-- `NvmeZoneProcessingMask`; no bit set is `NVME_PROC_CURRENT_ZONE`. -/
structure ProcMask where
  openedZones : Bool := false
  closedZones : Bool := false
  readOnlyZones : Bool := false
  fullZones : Bool := false
deriving DecidableEq

/-- Whether `zns_bulk_proc_zone` handles a zone of this state. -/
def ProcMask.selects (m : ProcMask) : NvmeZoneState → Bool
  | .implicitlyOpen => m.openedZones
  | .explicitlyOpen => m.openedZones
  | .closed => m.closedZones
  | .readOnly => m.readOnlyZones
  | .full => m.fullZones
  | _ => false

/-- `zns_bulk_proc_zone`. -/
def znsBulkProcZone (m : ProcMask) (op : OpHandler) (t : ZoneTable) (i : Nat) :
    Except Fault (Status × ZoneTable) :=
  if m.selects (t.zones i).zs then op t i (t.zones i).zs else return (nvmeSuccess, t)

/-- `status && status != NVME_NO_COMPLETE`: the loops go to `out`. -/
def stops (status : Status) : Bool := status ≠ nvmeSuccess ∧ status ≠ nvmeNoComplete

/-- A `QTAILQ_FOREACH_SAFE` of `zns_do_zone_op`, skipped when an earlier loop went
to `out`. -/
def bulkLoop (run : Bool) (l : ZoneList) (m : ProcMask) (op : OpHandler) (r : Status × ZoneTable) :
    Except Fault (Status × ZoneTable) :=
  if run ∧ ¬ stops r.1 then
    forEachSafe (fun r => r.2.lists l)
      (fun r i => do
        let r ← znsBulkProcZone m op r.2 i
        return (r, stops r.1))
      .queue r
  else
    pure r

/-- The loop over the read-only zones, with the rounds left and the zone reached. -/
def readOnlyLoop (n : ZnsCtrl) (m : ProcMask) (op : OpHandler) :
    Nat → Nat → Status × ZoneTable → Except Fault (Status × ZoneTable)
  | 0, _, r => pure r
  | k + 1, i, r =>
    if i < n.numZones then do
      let r ← znsBulkProcZone m op r.2 i
      if stops r.1 then pure r else readOnlyLoop n m op k (i + 1) r
    else
      throw .zone

/-- `zns_do_zone_op`. The loops over the lists leave `zone` a null pointer, from
which the last loop would start. -/
def znsDoZoneOp (n : ZnsCtrl) (t : ZoneTable) (zone : Nat) (m : ProcMask) (op : OpHandler) :
    Except Fault (Status × ZoneTable) :=
  if m = {} then
    op t zone (t.zones zone).zs
  else do
    let r ← bulkLoop m.closedZones .closed m op (nvmeSuccess, t)
    let r ← bulkLoop m.openedZones .impOpen m op r
    let r ← bulkLoop m.openedZones .expOpen m op r
    let r ← bulkLoop m.fullZones .full m op r
    if m.readOnlyZones ∧ ¬ stops r.1 then
      if m.closedZones ∨ m.openedZones ∨ m.fullZones then throw .zone
      else readOnlyLoop n m op n.numZones zone r
    else
      pure r

/-! ## shutdown -/

/-- `zns_clear_zone`. -/
def znsClearZone (n : ZnsCtrl) (t : ZoneTable) (i : Nat) : Except Fault ZoneTable := do
  let z := t.zones i
  let t := t.setZone i { z with wPtr := z.wp }
  if z.wp ≠ z.zslba ∨ z.za &&& nvmeZaZdExtValid ≠ 0 then
    let t := t.setZoneState i .closed
    let t ← znsAorIncActive n t
    t.insertHead .closed i
  else
    pure (t.setZoneState i .empty)

/-- The body of a loop of `zns_zoned_ns_shutdown`; an open resource is given back in
the loops over the open zones. -/
def shutdownZone (n : ZnsCtrl) (l : ZoneList) (opened : Bool) (t : ZoneTable) (i : Nat) :
    Except Fault ZoneTable := do
  let t ← t.remove l i
  let t ← if opened then znsAorDecOpen n t else pure t
  let t ← znsAorDecActive n t
  znsClearZone n t i

/-- A loop of `zns_zoned_ns_shutdown`. -/
def shutdownLoop (n : ZnsCtrl) (l : ZoneList) (opened : Bool) (t : ZoneTable) :
    Except Fault ZoneTable :=
  forEachSafe (fun t => t.lists l) (fun t i => do return (← shutdownZone n l opened t i, false))
    .queue t

/-- `zns_zoned_ns_shutdown`. -/
def znsZonedNsShutdown (n : ZnsCtrl) (t : ZoneTable) : Except Fault ZoneTable := do
  let t ← shutdownLoop n .closed false t
  let t ← shutdownLoop n .impOpen true t
  let t ← shutdownLoop n .expOpen true t
  require (t.nrOpenZones = 0) .assert
  pure t

/-- `zns_ns_shutdown`. -/
def znsNsShutdown (n : ZnsCtrl) (t : ZoneTable) : Except Fault ZoneTable :=
  if n.zoned then znsZonedNsShutdown n t else pure t

/-! ## initialisation -/

/-- `NVME_DEFAULT_ZONE_SIZE`. -/
def nvmeDefaultZoneSize : Nat := 128 * 2 ^ 20

/-- `zns_init_zone_geometry`: `none` when the configuration is refused, or when
the shift that makes the block size has no result. -/
def znsInitZoneGeometry (n : ZnsCtrl) : Option ZnsCtrl :=
  let zoneSize := if n.zoneSizeBs ≠ 0 then n.zoneSizeBs else nvmeDefaultZoneSize
  let zoneCap := if n.zoneCapBs ≠ 0 then n.zoneCapBs else zoneSize
  if 32 ≤ n.lbads then
    none
  else
    let lbasz := 2 ^ n.lbads
    if zoneSize < zoneCap then none
    else if zoneSize < lbasz then none
    else if zoneCap < lbasz then none
    else
      let n := { n with
        zoneSize := zoneSize / lbasz
        zoneCapacity := zoneCap / lbasz
        numZones := u32 (n.size.toNat / lbasz / (zoneSize / lbasz)) }
      if n.numZones < n.maxOpenZones then none
      else if n.numZones < n.maxActiveZones then none
      else if n.zdExtensionSize &&& 0x3f ≠ 0 then none
      else if 0xff < n.zdExtensionSize >>> 6 then none
      else some n

/-- `is_power_of_2`. -/
def isPowerOf2 (value : Nat) : Prop := value ≠ 0 ∧ value &&& (value - 1) = 0

instance (value : Nat) : Decidable (isPowerOf2 value) := inferInstanceAs (Decidable (_ ∧ _))

/-- A zone of the array that `g_new0` gives. -/
def zeroZone : NvmeZone := ⟨0, .reserved, 0, 0, 0, 0, 0⟩

/-- The loop of `zns_init_zoned_state`: the zones from `i` on, the first of them
at `start`. -/
def initZones (n : ZnsCtrl) (capacity : Nat) :
    Nat → Nat → Nat → Nat → (Nat → NvmeZone) → Nat → NvmeZone
  | 0, _, _, _, zones => zones
  | k + 1, i, start, zoneSize, zones =>
    let zoneSize := if capacity < u64 (start + zoneSize) then capacity - start else zoneSize
    let zone : NvmeZone :=
      ⟨nvmeZoneTypeSeqWrite, .empty, 0, n.zoneCapacity, start, start, start⟩
    initZones n capacity k (i + 1) (u64 (start + zoneSize)) zoneSize
      (Function.update zones i zone)

/-- `zns_init_zoned_state`, with the assignment of `nsze` that follows it in
`zns_init_zone_identify`. The counters are the zeroes that the object starts
with. `none` is a counter of the loop that overflows its `int`. -/
def znsInitZonedState (n : ZnsCtrl) : Option (ZnsCtrl × ZoneTable) :=
  if n.numZones < 2 ^ 31 then
    let capacity := u64 (n.numZones * n.zoneSize)
    let zones := initZones n capacity n.numZones 0 0 n.zoneSize fun _ => zeroZone
    some ({ n with
        zoneSizeLog2 := if isPowerOf2 n.zoneSize then Nat.log2 n.zoneSize else 0
        nsze := capacity },
      ⟨zones, fun _ => [], 0, 0⟩)
  else
    none

/-! ## looking a zone up -/

/-- `zns_zone_idx`. -/
def znsZoneIdx (n : ZnsCtrl) (slba : Nat) : Except Fault Nat :=
  if 0 < n.zoneSizeLog2 then pure (u32 (slba >>> n.zoneSizeLog2))
  else if n.zoneSize = 0 then throw .zone
  else pure (u32 (slba / n.zoneSize))

/-- `zns_get_zone_by_slba`. -/
def znsGetZoneBySlba (n : ZnsCtrl) (slba : Nat) : Except Fault Nat := do
  let zoneIdx ← znsZoneIdx n slba
  require (zoneIdx < n.numZones) .assert
  pure zoneIdx

end Femu.Zns

import Femu.Lib.Buffer
import Femu.Zns.Read

/-!
# Femu.Zns.Report

The zone management receive command (`zns_zone_mgmt_recv`): a report of the zones
from the one of a block on, in a buffer of the size that the host asks for.

The first loop, which counts the zones, is bounded by the blocks of the device;
the second one, which writes their descriptors, by the number of zones. The two
agree only where the first one does not go past the last zone.
-/

namespace Femu.Zns

open Nvme Lib

/-! ## the command -/

/-- `NvmeZoneReceiveAction`. -/
def nvmeZoneReport : Nat := 0
def nvmeZoneReportExtended : Nat := 1

/-- `NvmeZoneReportType`. -/
def nvmeZoneReportAll : Nat := 0
def nvmeZoneReportEmpty : Nat := 1
def nvmeZoneReportImplicitlyOpen : Nat := 2
def nvmeZoneReportExplicitlyOpen : Nat := 3
def nvmeZoneReportClosed : Nat := 4
def nvmeZoneReportFull : Nat := 5
def nvmeZoneReportReadOnly : Nat := 6
def nvmeZoneReportOffline : Nat := 7

/-- `sizeof(NvmeZoneReportHeader)` and `sizeof(NvmeZoneDescr)`. -/
def reportHeaderSize : Nat := 64
def zoneDescrSize : Nat := 64

/-- `zns_ns_nlbas`. -/
def znsNsNlbas (n : ZnsCtrl) : Nat := n.size.toNat >>> n.lbads

/-- `data_size`: the number of double words in `cdw12` is zero-based. -/
def recvDataSize (c : NvmeCmd) : Nat := u32 (u32 (c.cdw12.toNat + 1) <<< 2)

/-- `zra`, `zrasf` and `partial`. -/
def recvZra (c : NvmeCmd) : Nat := c.cdw13.toNat &&& 0xff
def recvZrasf (c : NvmeCmd) : Nat := (c.cdw13.toNat >>> 8) &&& 0xff
def recvPartial (c : NvmeCmd) : Bool := (c.cdw13.toNat >>> 16) &&& 0x01 ≠ 0

/-- `zone_entry_sz`. -/
def zoneEntrySz (n : ZnsCtrl) (c : NvmeCmd) : Nat :=
  if recvZra c = nvmeZoneReportExtended then zoneDescrSize + n.zdExtensionSize else zoneDescrSize

/-- `max_zones`, as it is computed. -/
def recvMaxZones (n : ZnsCtrl) (c : NvmeCmd) : Nat :=
  (recvDataSize c - reportHeaderSize) / zoneEntrySz n c

/-- The checks between the look-up of the zone and the allocation of the buffer. -/
def recvStatus (n : ZnsCtrl) (c : NvmeCmd) : Status :=
  if recvZra c ≠ nvmeZoneReport ∧ recvZra c ≠ nvmeZoneReportExtended then
    nvmeInvalidField ||| nvmeDnr
  else if recvZra c = nvmeZoneReportExtended ∧ n.zdExtensionSize = 0 then
    nvmeInvalidField ||| nvmeDnr
  else if nvmeZoneReportOffline < recvZrasf c then
    nvmeInvalidField ||| nvmeDnr
  else if recvDataSize c < reportHeaderSize then
    nvmeInvalidField ||| nvmeDnr
  else
    nvmeCheckMdts n (recvDataSize c)

/-- `zns_zone_matches_filter`. -/
def znsZoneMatchesFilter (zafs : Nat) (z : NvmeZone) : Bool :=
  if zafs = nvmeZoneReportAll then true
  else if zafs = nvmeZoneReportEmpty then z.zs = .empty
  else if zafs = nvmeZoneReportImplicitlyOpen then z.zs = .implicitlyOpen
  else if zafs = nvmeZoneReportExplicitlyOpen then z.zs = .explicitlyOpen
  else if zafs = nvmeZoneReportClosed then z.zs = .closed
  else if zafs = nvmeZoneReportFull then z.zs = .full
  else if zafs = nvmeZoneReportReadOnly then z.zs = .readOnly
  else if zafs = nvmeZoneReportOffline then z.zs = .offline
  else false

/-! ## the report -/

/-- What ends a command: a fault of the look-up or the transfer, an access outside
the zone array, and a write outside the buffer. -/
inductive RecvFault
  | fault (f : Fault)
  | zone
  | overflow
deriving DecidableEq

/-- `cpu_to_le64`. -/
def cpuToLe64 (x : Nat) : List UInt8 := (List.range 8).map fun k => (x / 256 ^ k).toUInt8

/-- The values of `NvmeZoneState`. -/
def NvmeZoneState.code : NvmeZoneState → UInt8
  | reserved => 0x00
  | empty => 0x01
  | implicitlyOpen => 0x02
  | explicitlyOpen => 0x03
  | closed => 0x04
  | readOnly => 0x0d
  | full => 0x0e
  | offline => 0x0f

/-- The descriptor of a zone, written over the bytes `old`. The reserved bytes are
not written. -/
def zoneDescr (old : List UInt8) (z : NvmeZone) : List UInt8 :=
  [z.zt, z.zs.code <<< 4, z.za] ++ (old.drop 3).take 5 ++ cpuToLe64 z.zcap ++
    cpuToLe64 z.zslba ++ cpuToLe64 (if znsWpIsValid z then z.wp else 2 ^ 64 - 1) ++
    (old.drop 32).take 32

/-- The first loop of `zns_zone_mgmt_recv`. `zone` is the index of the pointer, of
which a round takes one step; past the array there are no more rounds. -/
def countLoop (n : ZnsCtrl) (t : ZoneTable) (c : NvmeCmd) :
    Nat → Nat → Nat → Nat → Except RecvFault Nat
  | 0, _, _, _ => .error .zone
  | k + 1, slba, zone, nrZones =>
    if slba < znsNsNlbas n then
      if recvPartial c ∧ recvMaxZones n c ≤ nrZones then
        .ok nrZones
      else if n.numZones ≤ zone then
        .error .zone
      else
        countLoop n t c k (u64 (slba + n.zoneSize)) (zone + 1)
          (if znsZoneMatchesFilter (recvZrasf c) (t.zones zone) then nrZones + 1 else nrZones)
    else
      .ok nrZones

/-- The entry of a zone: the buffer, and `buf_p`. -/
def putEntry (n : ZnsCtrl) (t : ZoneTable) (zdExtensions : Bytes) (c : NvmeCmd) (i : Nat)
    (buf : List UInt8) (bufP : Nat) : Except RecvFault (List UInt8 × Nat) := do
  let buf ← put .overflow buf bufP (zoneDescr (buf.drop bufP) (t.zones i))
  let bufP := bufP + zoneDescrSize
  if recvZra c = nvmeZoneReportExtended then
    let buf ←
      if (t.zones i).za &&& nvmeZaZdExtValid ≠ 0 then
        put .overflow buf bufP (readBytes zdExtensions (znsGetZdExtension n i) n.zdExtensionSize)
      else
        pure buf
    return (buf, bufP + n.zdExtensionSize)
  else
    return (buf, bufP)

/-- The second loop of `zns_zone_mgmt_recv`. -/
def emitLoop (n : ZnsCtrl) (t : ZoneTable) (zdExtensions : Bytes) (c : NvmeCmd) :
    Nat → Nat → Nat → List UInt8 → Nat → Except RecvFault (List UInt8)
  | 0, _, _, buf, _ => .ok buf
  | k + 1, i, maxZones, buf, bufP =>
    if i < n.numZones ∧ 0 < maxZones then
      if znsZoneMatchesFilter (recvZrasf c) (t.zones i) then do
        let (buf, bufP) ← putEntry n t zdExtensions c i buf bufP
        emitLoop n t zdExtensions c k (i + 1) (maxZones - 1) buf bufP
      else
        emitLoop n t zdExtensions c k (i + 1) maxZones buf bufP
    else
      .ok buf

/-- The buffer of `zns_zone_mgmt_recv` when it is transferred. -/
def reportBuffer (n : ZnsCtrl) (t : ZoneTable) (zdExtensions : Bytes) (c : NvmeCmd)
    (slba zoneIdx : Nat) : Except RecvFault (List UInt8) := do
  let buf := List.replicate (recvDataSize c) 0
  let nrZones ← countLoop n t c (n.numZones + 1) slba zoneIdx 0
  let buf ← put .overflow buf 0 (cpuToLe64 nrZones)
  emitLoop n t zdExtensions c n.numZones zoneIdx (recvMaxZones n c) buf reportHeaderSize

/-- The end of `zns_zone_mgmt_recv`: the transfer of the buffer. -/
def sendReport (n : ZnsCtrl) (req : NvmeRequest) (s : ZnsState) (buf : List UInt8) :
    Except RecvFault Handled := do
  let (status, mem) ← (orDma (dmaReadPrp n.toDmaCtrl s.mem buf req.cmd.prp1.toNat
    req.cmd.prp2.toNat)).mapError .fault
  return (status, req, { s with mem := mem })

/-- `zns_zone_mgmt_recv`. -/
def znsZoneMgmtRecv (n : ZnsCtrl) (req : NvmeRequest) (s : ZnsState) :
    Except RecvFault Handled := do
  let (status, slba, zoneIdx) ← (znsGetMgmtZoneSlbaIdx n req.cmd).mapError .fault
  if status ≠ nvmeSuccess then
    return (status, req, s)
  else if recvStatus n req.cmd ≠ nvmeSuccess then
    return (recvStatus n req.cmd, req, s)
  else
    let buf ← reportBuffer n s.zt s.zdExtensions req.cmd slba zoneIdx
    sendReport n req s buf

/-! ## what is to be reported -/

variable {n : ZnsCtrl} {t : ZoneTable} {zdExtensions : Bytes} {c : NvmeCmd} {i slba : Nat}

/-- The zones from the one of the block on that match the filter, in order. -/
def matchingZones (n : ZnsCtrl) (t : ZoneTable) (c : NvmeCmd) (i : Nat) : List Nat :=
  (List.range' i (n.numZones - i)).filter fun j =>
    znsZoneMatchesFilter (recvZrasf c) (t.zones j)

/-- The entry of a zone in the report: its descriptor, and the extension if it has
one. -/
def zoneEntry (n : ZnsCtrl) (t : ZoneTable) (zdExtensions : Bytes) (c : NvmeCmd) (i : Nat) :
    List UInt8 :=
  zoneDescr (List.replicate zoneDescrSize 0) (t.zones i) ++
    if recvZra c = nvmeZoneReportExtended then
      if (t.zones i).za &&& nvmeZaZdExtValid ≠ 0 then
        readBytes zdExtensions (znsGetZdExtension n i) n.zdExtensionSize
      else List.replicate n.zdExtensionSize 0
    else []

/-- The number in the header: of the matching zones, or of those that fit. -/
def reportedNr (n : ZnsCtrl) (t : ZoneTable) (c : NvmeCmd) (i : Nat) : Nat :=
  if recvPartial c then min (recvMaxZones n c) (matchingZones n t c i).length
  else (matchingZones n t c i).length

/-- The report: the header, the entries of the matching zones that fit, and zeroes. -/
def report (n : ZnsCtrl) (t : ZoneTable) (zdExtensions : Bytes) (c : NvmeCmd) (i : Nat) :
    List UInt8 :=
  let zones := (matchingZones n t c i).take (recvMaxZones n c)
  cpuToLe64 (reportedNr n t c i) ++ List.replicate 56 0 ++
    zones.flatMap (zoneEntry n t zdExtensions c) ++
    List.replicate (recvDataSize c - reportHeaderSize - zones.length * zoneEntrySz n c) 0

@[simp] theorem length_cpuToLe64 (x : Nat) : (cpuToLe64 x).length = 8 := by simp [cpuToLe64]

@[simp] theorem length_zoneDescr (z : NvmeZone) :
    (zoneDescr (List.replicate zoneDescrSize 0) z).length = zoneDescrSize := by
  simp [zoneDescr, zoneDescrSize]

@[simp] theorem length_zoneEntry :
    (zoneEntry n t zdExtensions c i).length = zoneEntrySz n c := by
  unfold zoneEntry zoneEntrySz
  split
  case isTrue =>
    split
    case isTrue => simp [readBytes]
    case isFalse => simp
  case isFalse => simp

theorem matchingZones_end (h : n.numZones ≤ i) : matchingZones n t c i = [] := by
  simp [matchingZones, Nat.sub_eq_zero_of_le h]

theorem matchingZones_step (h : i < n.numZones) :
    matchingZones n t c i =
      if znsZoneMatchesFilter (recvZrasf c) (t.zones i) then i :: matchingZones n t c (i + 1)
      else matchingZones n t c (i + 1) := by
  have hrest : n.numZones - i = n.numZones - (i + 1) + 1 := by omega
  simp only [matchingZones, hrest, List.range'_succ, List.filter_cons]

/-! ## the loops -/

/-- The first loop goes over all matching zones, or stops at a partial report that is
full. It stays in the array unless a block is left behind the last zone. -/
theorem countLoop_eq {k r zone nrZones : Nat} (hfuel : n.numZones < k + zone)
    (hzone : zone ≤ n.numZones) (hr : r < n.zoneSize)
    (htotal : n.numZones * n.zoneSize ≤ znsNsNlbas n)
    (hlt : n.numZones * n.zoneSize < 2 ^ 64)
    (hnr : recvPartial c = true → nrZones ≤ recvMaxZones n c) :
    countLoop n t c k (u64 (zone * n.zoneSize + r)) zone nrZones =
      if recvPartial c ∧ recvMaxZones n c ≤ nrZones + (matchingZones n t c zone).length then
        .ok (recvMaxZones n c)
      else if znsNsNlbas n ≤ u64 (n.numZones * n.zoneSize + r) then
        .ok (nrZones + (matchingZones n t c zone).length)
      else
        .error .zone := by
  induction k generalizing zone nrZones with
  | zero => omega
  | succ k ih =>
      by_cases hend : zone = n.numZones
      case pos =>
        -- past the last zone only the bound and a full report end the loop
        subst hend
        simp only [countLoop, matchingZones_end (Nat.le_refl _), List.length_nil, Nat.add_zero,
          Nat.le_refl, if_true]
        by_cases hstop : recvPartial c = true ∧ recvMaxZones n c ≤ nrZones
        case pos =>
          have hfull : nrZones = recvMaxZones n c := Nat.le_antisymm (hnr hstop.1) hstop.2
          rw [if_pos hstop, if_pos hstop, hfull, ite_self]
        case neg =>
          rw [if_neg hstop, if_neg hstop]
          by_cases hin : znsNsNlbas n ≤ u64 (n.numZones * n.zoneSize + r)
          case pos => rw [if_pos hin, if_neg (Nat.not_lt.mpr hin)]
          case neg => rw [if_neg hin, if_pos (Nat.lt_of_not_le hin)]
      case neg =>
        have hi : zone < n.numZones := by omega
        have hblock : zone * n.zoneSize + r < n.numZones * n.zoneSize := by
          have hle := Nat.mul_le_mul_right n.zoneSize hi
          rw [Nat.succ_mul] at hle
          omega
        have hslba : u64 (zone * n.zoneSize + r) = zone * n.zoneSize + r := u64_eq (by omega)
        have hnext : zone * n.zoneSize + r + n.zoneSize = (zone + 1) * n.zoneSize + r := by
          rw [Nat.succ_mul]
          omega
        rw [countLoop, hslba, if_pos (hblock.trans_le htotal), hnext]
        by_cases hstop : recvPartial c = true ∧ recvMaxZones n c ≤ nrZones
        case pos =>
          have hfull : nrZones = recvMaxZones n c := Nat.le_antisymm (hnr hstop.1) hstop.2
          rw [if_pos hstop, if_pos ⟨hstop.1, by omega⟩, hfull]
        case neg =>
          have hroom : recvPartial c = true → nrZones + 1 ≤ recvMaxZones n c := fun hp =>
            Nat.lt_of_not_le fun hle => hstop ⟨hp, hle⟩
          rw [if_neg hstop, if_neg (Nat.not_le.mpr hi), matchingZones_step hi]
          by_cases hmatch : znsZoneMatchesFilter (recvZrasf c) (t.zones zone) = true
          case pos =>
            rw [if_pos hmatch, if_pos hmatch, ih (by omega) hi hroom, List.length_cons,
              Nat.add_right_comm, Nat.add_assoc]
          case neg =>
            rw [if_neg hmatch, if_neg hmatch, ih (by omega) hi hnr]

/-- An entry goes behind what has been written. -/
theorem putEntry_eq {pre : List UInt8} {k : Nat} (hroom : zoneEntrySz n c ≤ k) :
    putEntry n t zdExtensions c i (pre ++ List.replicate k 0) pre.length =
      .ok (pre ++ zoneEntry n t zdExtensions c i ++ List.replicate (k - zoneEntrySz n c) 0,
        pre.length + zoneEntrySz n c) := by
  have hdescr : zoneDescr ((pre ++ List.replicate k 0).drop pre.length) (t.zones i) =
      zoneDescr (List.replicate zoneDescrSize 0) (t.zones i) := by
    have hk : zoneDescrSize ≤ k := by
      unfold zoneEntrySz at hroom
      split at hroom <;> omega
    unfold zoneDescrSize at hk ⊢
    have h₃ : min 5 (k - 3) = 5 := by omega
    have h₃₂ : min 32 (k - 32) = 32 := by omega
    simp [zoneDescr, h₃, h₃₂]
  have hlen := length_zoneDescr (t.zones i)
  unfold putEntry zoneEntry zoneEntrySz at *
  rw [hdescr]
  by_cases hext : recvZra c = nvmeZoneReportExtended
  case pos =>
    simp only [hext, if_true] at hroom ⊢
    rw [put_blank (by omega), hlen, ok_bind]
    have hpre : pre.length + zoneDescrSize =
        (pre ++ zoneDescr (List.replicate zoneDescrSize 0) (t.zones i)).length := by
      rw [List.length_append, hlen]
    by_cases hvalid : (t.zones i).za &&& nvmeZaZdExtValid ≠ 0
    case pos =>
      have hread : (readBytes zdExtensions (znsGetZdExtension n i) n.zdExtensionSize).length =
          n.zdExtensionSize := by simp [readBytes]
      rw [if_pos hvalid, if_pos hvalid, hpre, put_blank (by omega), hread, ok_bind]
      simp [hlen, Nat.sub_sub, Nat.add_assoc]
    case neg =>
      have hsplit : k - zoneDescrSize =
          n.zdExtensionSize + (k - (zoneDescrSize + n.zdExtensionSize)) := by omega
      rw [if_neg hvalid, if_neg hvalid, pure_eq_ok, ok_bind, hsplit, List.replicate_add]
      simp [Nat.add_assoc]
  case neg =>
    simp only [if_neg hext] at hroom ⊢
    rw [put_blank (by omega), hlen, ok_bind]
    simp

/-- The second loop writes the entries of the matching zones that fit. -/
theorem emitLoop_eq {k fuel maxZones : Nat} {pre : List UInt8} (hfuel : n.numZones ≤ fuel + i)
    (hroom : maxZones * zoneEntrySz n c ≤ k) :
    emitLoop n t zdExtensions c fuel i maxZones (pre ++ List.replicate k 0) pre.length =
      .ok (pre ++ ((matchingZones n t c i).take maxZones).flatMap (zoneEntry n t zdExtensions c) ++
        List.replicate (k - ((matchingZones n t c i).take maxZones).length * zoneEntrySz n c)
          0) := by
  induction fuel generalizing i maxZones k pre with
  | zero => simp [emitLoop, matchingZones_end (Nat.zero_add i ▸ hfuel)]
  | succ fuel ih =>
      rw [emitLoop]
      by_cases hgo : i < n.numZones ∧ 0 < maxZones
      case neg =>
        have hnone : (matchingZones n t c i).take maxZones = [] := by
          by_cases hi : i < n.numZones
          case pos =>
            have hzero : maxZones = 0 := Nat.eq_zero_of_not_pos fun hpos => hgo ⟨hi, hpos⟩
            rw [hzero, List.take_zero]
          case neg => rw [matchingZones_end (Nat.le_of_not_lt hi), List.take_nil]
        simp [if_neg hgo, hnone]
      case pos =>
        rw [if_pos hgo, matchingZones_step hgo.1]
        by_cases hmatch : znsZoneMatchesFilter (recvZrasf c) (t.zones i) = true
        case neg => rw [if_neg hmatch, if_neg hmatch, ih (by omega) hroom]
        case pos =>
          obtain ⟨m, rfl⟩ : ∃ m, maxZones = m + 1 := ⟨maxZones - 1, by omega⟩
          have hone : zoneEntrySz n c + m * zoneEntrySz n c ≤ k := by
            rwa [Nat.add_comm, ← Nat.succ_mul]
          have hlen : pre.length + zoneEntrySz n c =
              (pre ++ zoneEntry n t zdExtensions c i).length := by simp
          rw [if_pos hmatch, if_pos hmatch, putEntry_eq (by omega), ok_bind]
          simp only [Nat.add_sub_cancel, List.take_succ_cons]
          rw [hlen, ih (by omega) (by omega), List.flatMap_cons, List.length_cons, Nat.succ_mul]
          simp [Nat.sub_sub, Nat.add_comm]

/-! ## the report -/

/-- The first loop does not go past the last zone: the blocks of the device end
within a zone of the last round, or a partial report is full before. -/
def CountStays (n : ZnsCtrl) (t : ZoneTable) (c : NvmeCmd) : Prop :=
  znsNsNlbas n ≤ u64 (n.numZones * n.zoneSize + c.slba % n.zoneSize) ∨
    recvPartial c = true ∧
      recvMaxZones n c ≤ (matchingZones n t c (c.slba / n.zoneSize)).length

/-- The number of the first loop. -/
theorem countLoop_run (hzone : c.slba / n.zoneSize < n.numZones) (hsize : 0 < n.zoneSize)
    (htotal : n.numZones * n.zoneSize ≤ znsNsNlbas n)
    (hlt : n.numZones * n.zoneSize < 2 ^ 64) :
    (CountStays n t c → countLoop n t c (n.numZones + 1) c.slba (c.slba / n.zoneSize) 0 =
      .ok (reportedNr n t c (c.slba / n.zoneSize))) ∧
    (¬ CountStays n t c → countLoop n t c (n.numZones + 1) c.slba (c.slba / n.zoneSize) 0 =
      .error .zone) := by
  have hslba : u64 (c.slba / n.zoneSize * n.zoneSize + c.slba % n.zoneSize) = c.slba := by
    rw [Nat.div_add_mod']
    exact u64_eq c.slba_lt
  have hrun := @countLoop_eq n t c (n.numZones + 1) (c.slba % n.zoneSize) (c.slba / n.zoneSize) 0
    (Nat.lt_add_right _ (Nat.lt_succ_self _)) (Nat.le_of_lt hzone) (Nat.mod_lt _ hsize) htotal hlt
    (fun _ => Nat.zero_le _)
  rw [hslba, Nat.zero_add] at hrun
  rw [hrun]
  unfold CountStays reportedNr
  constructor
  case left =>
    intro hstays
    by_cases hfull : recvPartial c = true ∧
        recvMaxZones n c ≤ (matchingZones n t c (c.slba / n.zoneSize)).length
    case pos => rw [if_pos hfull, if_pos hfull.1, Nat.min_eq_left hfull.2]
    case neg =>
      rw [if_neg hfull, if_pos (hstays.resolve_right hfull)]
      split
      case isTrue hp =>
        rw [Nat.min_eq_right (Nat.le_of_not_le fun hle => hfull ⟨hp, hle⟩)]
      case isFalse => rfl
  case right =>
    intro hstays
    rw [if_neg fun hfull => hstays (.inr hfull), if_neg fun hin => hstays (.inl hin)]

theorem reportBuffer_eq (hsize : reportHeaderSize ≤ recvDataSize c)
    (hcount : countLoop n t c (n.numZones + 1) slba i 0 = .ok (reportedNr n t c i)) :
    reportBuffer n t zdExtensions c slba i = .ok (report n t zdExtensions c i) := by
  have hmax : recvMaxZones n c * zoneEntrySz n c ≤ recvDataSize c - reportHeaderSize :=
    Nat.div_mul_le_self _ _
  have hheader := @put_blank RecvFault UInt8 .overflow [] (cpuToLe64 (reportedNr n t c i)) 0
    (recvDataSize c) (by simp only [length_cpuToLe64]; unfold reportHeaderSize at hsize; omega)
  have hsplit : recvDataSize c - 8 = 56 + (recvDataSize c - reportHeaderSize) := by
    unfold reportHeaderSize at hsize ⊢
    omega
  have hpre : (cpuToLe64 (reportedNr n t c i) ++ List.replicate 56 0).length =
      reportHeaderSize := by simp [reportHeaderSize]
  have hemit := @emitLoop_eq n t zdExtensions c i _ n.numZones _
    (cpuToLe64 (reportedNr n t c i) ++ List.replicate 56 0) (Nat.le_add_right _ _) hmax
  simp only [List.nil_append, List.length_nil, length_cpuToLe64, hsplit, List.replicate_add]
    at hheader
  rw [← List.append_assoc] at hheader
  rw [hpre] at hemit
  rw [reportBuffer, hcount, ok_bind, hheader, ok_bind, hemit]
  rfl

/-- The command builds the report of the zones from the one of its block on, and
transfers it. -/
def ReportExact (n : ZnsCtrl) (req : NvmeRequest) (s : ZnsState) : Prop :=
  reportBuffer n s.zt s.zdExtensions req.cmd req.cmd.slba (req.cmd.slba / n.zoneSize) =
      .ok (report n s.zt s.zdExtensions req.cmd (req.cmd.slba / n.zoneSize)) ∧
    znsZoneMgmtRecv n req s =
      sendReport n req s (report n s.zt s.zdExtensions req.cmd (req.cmd.slba / n.zoneSize))

/-- The command passes the checks of its block and of its fields. -/
structure RecvAccepted (n : ZnsCtrl) (c : NvmeCmd) : Prop where
  zone : ∃ slba zoneIdx, znsGetMgmtZoneSlbaIdx n c = .ok (nvmeSuccess, slba, zoneIdx)
  fields : recvStatus n c = nvmeSuccess

theorem RecvAccepted.dataSize (h : RecvAccepted n c) : reportHeaderSize ≤ recvDataSize c := by
  have hfields := h.fields
  have hne : nvmeInvalidField ||| nvmeDnr ≠ nvmeSuccess := by decide
  unfold recvStatus at hfields
  split at hfields
  case isTrue => exact absurd hfields hne
  split at hfields
  case isTrue => exact absurd hfields hne
  split at hfields
  case isTrue => exact absurd hfields hne
  split at hfields
  case isTrue => exact absurd hfields hne
  case isFalse hsize => exact Nat.le_of_not_lt hsize

/-- An accepted command is one for a block of the namespace. -/
theorem RecvAccepted.lookup (hgrid : ZoneGrid n t) (h : RecvAccepted n c) :
    znsGetMgmtZoneSlbaIdx n c = .ok (nvmeSuccess, c.slba, c.slba / n.zoneSize) ∧
      c.slba / n.zoneSize < n.numZones := by
  obtain ⟨slba, zoneIdx, hget⟩ := h.zone
  have hgot := hget
  unfold znsGetMgmtZoneSlbaIdx at hgot
  split at hgot
  case isTrue =>
    simp only [pure_eq_ok, Except.ok.injEq, Prod.mk.injEq] at hgot
    exact absurd hgot.1 (by decide)
  split at hgot
  case isTrue =>
    simp only [pure_eq_ok, Except.ok.injEq, Prod.mk.injEq] at hgot
    exact absurd hgot.1 (by decide)
  case isFalse hin =>
    have hslba : c.slba < n.numZones * n.zoneSize := by
      rw [← hgrid.nsze_eq]
      exact Nat.lt_of_not_le hin
    obtain ⟨hzone, hlt⟩ := hgrid.toZoneGeometry.getZone hslba
    rw [hzone] at hgot
    simp only [ok_bind, pure_eq_ok, Except.ok.injEq, Prod.mk.injEq, true_and] at hgot
    obtain ⟨rfl, rfl⟩ := hgot
    exact ⟨hget, hlt⟩

/-- **Zone reports**: on a namespace set up by the initialisation, whatever the zones
have become, an accepted command builds exactly the report, without leaving the zone
array or the buffer, if and only if the first loop does not go past the last zone. -/
theorem zone_report_iff {n₀ n₁ : ZnsCtrl} {zt : ZoneTable} (hgeo : znsInitZoneGeometry n₀ = some n₁)
    (hinit : znsInitZonedState n₁ = some (n, zt)) {req : NvmeRequest} {s : ZnsState}
    (hacc : RecvAccepted n req.cmd) :
    ReportExact n req s ↔ CountStays n s.zt req.cmd := by
  have hgrid := zoneGrid_of_init hgeo hinit
  obtain ⟨hlookup, hzone⟩ := hacc.lookup hgrid
  have htotal : n.numZones * n.zoneSize ≤ znsNsNlbas n := by
    have hblocks := initZoneGeometry_total hgeo
    unfold znsInitZonedState at hinit
    split at hinit
    case isFalse => cases hinit
    case isTrue =>
      obtain ⟨rfl, -⟩ := Prod.mk.inj (Option.some.inj hinit)
      unfold znsInitZoneGeometry at hgeo
      simp only [Option.ite_none_left_eq_some, Option.some.injEq] at hgeo
      obtain ⟨-, -, -, -, -, -, -, -, rfl⟩ := hgeo
      rw [znsNsNlbas, Nat.shiftRight_eq_div_pow]
      exact hblocks.1
  have hlt : n.numZones * n.zoneSize < 2 ^ 64 := hgrid.nsze_eq ▸ hgrid.nsze_lt
  obtain ⟨hstays, hleaves⟩ := countLoop_run (t := s.zt) hzone hgrid.size htotal hlt
  have hrun : znsZoneMgmtRecv n req s =
      reportBuffer n s.zt s.zdExtensions req.cmd req.cmd.slba (req.cmd.slba / n.zoneSize) >>=
        sendReport n req s := by
    simp [znsZoneMgmtRecv, hlookup, Except.mapError, hacc.fields]
  constructor
  case mp =>
    intro hexact
    by_contra hnot
    have hbuffer := hexact.1
    rw [reportBuffer, hleaves hnot] at hbuffer
    cases hbuffer
  case mpr =>
    intro hcount
    have hbuffer : reportBuffer n s.zt s.zdExtensions req.cmd req.cmd.slba
        (req.cmd.slba / n.zoneSize) =
          .ok (report n s.zt s.zdExtensions req.cmd (req.cmd.slba / n.zoneSize)) :=
      reportBuffer_eq hacc.dataSize (hstays hcount)
    refine ⟨hbuffer, ?_⟩
    rw [hrun, hbuffer, ok_bind]

/-- `twoZones` on a device with a block that is in no zone. -/
def oddZones : ZnsCtrl := { twoZones with size := 4608 }

/-- A report of all zones into 256 bytes. -/
def reportAll : NvmeCmd := { cdw12 := 63, prp1 := 4096 }

/-- On a device that is not a multiple of the zone size, the report from the first block
on looks at a zone past the array. -/
theorem zone_report_overruns :
    znsInitZoneGeometry oddZones = some oddZones ∧
      znsInitZonedState oddZones = some (oddZones, twoZonesTable) ∧
      RecvAccepted oddZones reportAll ∧
      ¬ ReportExact oddZones { twoZonesStart.slots 0 with cmd := reportAll } twoZonesStart.dev := by
  refine ⟨rfl, rfl, ⟨⟨0, 0, rfl⟩, by decide⟩, fun hexact => ?_⟩
  have hbuffer := hexact.1
  have hcount : countLoop oddZones twoZonesTable reportAll 3 0 0 0 = .error .zone := by decide
  have hzero : reportBuffer oddZones twoZonesTable twoZonesStart.dev.zdExtensions reportAll 0 0 =
      .error .zone := by
    show (countLoop oddZones twoZonesTable reportAll 3 0 0 0 >>= _) = _
    rw [hcount]
    rfl
  have hsame := hzero.symm.trans hbuffer
  cases hsame

/-- The report of both zones of a device that they fill. -/
theorem zone_report_two :
    ReportExact twoZones { twoZonesStart.slots 0 with cmd := reportAll } twoZonesStart.dev := by
  have hgeo : znsInitZoneGeometry twoZones = some twoZones := rfl
  exact (zone_report_iff hgeo rfl ⟨⟨0, 0, rfl⟩, by decide⟩).mpr (.inl (by decide))

end Femu.Zns

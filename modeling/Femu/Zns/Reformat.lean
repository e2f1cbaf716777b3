import Femu.Admin.Format
import Femu.Zns.WritePointer

/-!
# Femu.Zns.Reformat

The Format NVM command on a zoned namespace (`nvme_format`, with the start of `zns_init`). The
size of the namespace is the one of its zones only at the start: Format recomputes it from the
size of the device, and the zones stay as they are.
-/

namespace Femu.Zns

open Nvme Lib Admin

/-! ## the device -/

/-- `zns_init_zone_cap`. -/
def znsInitZoneCap (n : ZnsCtrl) : ZnsCtrl :=
  { n with
    zoned := true
    zoneSizeBs := nvmeDefaultZoneSize
    zoneCapBs := 0
    crossZoneRead := false
    maxActiveZones := 0
    maxOpenZones := 0
    zdExtensionSize := 0 }

/-- The namespace as the admin commands see it, the controller as the zoned commands see it, and
the device itself. -/
structure ZnsDevice where
  ns : Admin.NvmeNamespace
  n : ZnsCtrl
  sys : System

/-- The zoned commands read the size and the format of the namespace. -/
def withNamespace (n : ZnsCtrl) (ns : Admin.NvmeNamespace) : ZnsCtrl :=
  { n with nsze := ns.nsze, lbads := ns.lbaDs }

/-- `zns_init`, after `nvme_init_namespace`. -/
def znsInit (f : FormatCfg) (n : ZnsCtrl) (sys : System) : Option ZnsDevice :=
  let ns := initNamespace f
  let n := znsInitZoneCap { withNamespace n ns with size := .ofNat f.nsSize }
  (znsInitZoneGeometry n).bind fun n =>
    (znsInitZonedState n).map fun (n, zt) => {
      ns := { ns with nsze := n.nsze, ncap := n.nsze, nuse := n.nsze }
      n := n
      sys := { sys with dev := { sys.dev with zt := zt } } }

/-- What the device executes: Format NVM, an admin command that does nothing with the namespace,
and the events of the zoned command set. -/
inductive ZnsDeviceAct
  | format (cmd : NvmeCmd)
  | admin
  | event (e : Event)

def znsDeviceStep (f : FormatCfg) (d : ZnsDevice) : ZnsDeviceAct → Option ZnsDevice
  | .format cmd =>
      let ns := (adminFormat f d.ns cmd).2
      some { d with ns := ns, n := withNamespace d.n ns }
  | .admin => some d
  | .event e =>
      match System.step d.n d.sys e with
      | .ok sys => some { d with sys := sys }
      | .error _ => none

/-! ## statement -/

/-- The size of the namespace is the one of its zones, and no assertion of the look-ups of a zone
fails. -/
structure ZonesCover (n : ZnsCtrl) : Prop where
  nsze : n.nsze = n.numZones * n.zoneSize
  bounds : ∀ slba nlb, 0 < nlb → znsCheckBounds n slba nlb = nvmeSuccess →
    ∃ i, znsGetZoneBySlba n slba = .ok i ∧ i < n.numZones
  mgmt : ∀ c, ∃ r, znsGetMgmtZoneSlbaIdx n c = .ok r

/-- A format that is accepted divides the device into as many blocks as the zones have. -/
def SameBlocks (f : FormatCfg) (d : ZnsDevice) : ZnsDeviceAct → Prop
  | .format cmd => Admin.Accepts f d.ns cmd →
      d.n.numZones * d.n.zoneSize * (2 ^ (bdrvSectorBits + formatIdx cmd) + f.metaSize.toNat) ≤
          f.nsSize ∧
        f.nsSize < (d.n.numZones * d.n.zoneSize + 1) *
          (2 ^ (bdrvSectorBits + formatIdx cmd) + f.metaSize.toNat)
  | _ => True

instance (f : FormatCfg) (d : ZnsDevice) (a : ZnsDeviceAct) : Decidable (SameBlocks f d a) := by
  unfold SameBlocks
  split <;> infer_instance

/-! ## look-ups -/

section lookup

variable {n : ZnsCtrl} {slba : Nat}

/-- What `zns_init` leaves, which no command changes. -/
structure ZoneGeometry (n : ZnsCtrl) : Prop where
  count : n.numZones < 2 ^ 31
  size : 0 < n.zoneSize
  log2 : n.zoneSizeLog2 = if isPowerOf2 n.zoneSize then Nat.log2 n.zoneSize else 0

theorem isPowerOf2_log2 {x : Nat} (h : isPowerOf2 x) : 2 ^ Nat.log2 x = x := by
  obtain ⟨k, rfl⟩ := Nat.ne_zero_and_sub_one_eq_zero_iff_isPowerOfTwo.mp h
  rw [Nat.log2_two_pow]

/-- The zone of a block, shifted or divided. -/
theorem ZoneGeometry.zoneIdx (h : ZoneGeometry n) :
    znsZoneIdx n slba = .ok (u32 (slba / n.zoneSize)) := by
  unfold znsZoneIdx
  split
  case isTrue hlog =>
    have hpow : isPowerOf2 n.zoneSize := by
      by_contra hno
      rw [h.log2, if_neg hno] at hlog
      exact Nat.lt_irrefl 0 hlog
    rw [Nat.shiftRight_eq_div_pow, h.log2, if_pos hpow, isPowerOf2_log2 hpow]
    rfl
  case isFalse =>
    rw [if_neg (Nat.ne_of_gt h.size)]
    rfl

theorem ZoneGeometry.getZone (h : ZoneGeometry n) (hslba : slba < n.numZones * n.zoneSize) :
    znsGetZoneBySlba n slba = .ok (slba / n.zoneSize) ∧ slba / n.zoneSize < n.numZones := by
  have hlt : slba / n.zoneSize < n.numZones := (Nat.div_lt_iff_lt_mul h.size).mpr hslba
  have hcount := h.count
  have hidx : znsZoneIdx n slba = .ok (slba / n.zoneSize) := by
    rw [h.zoneIdx, u32_eq (by omega)]
  refine ⟨?_, hlt⟩
  rw [znsGetZoneBySlba, hidx]
  simp [require, hlt]

/-- The blocks of the namespace are in zones when they are as many. -/
theorem ZoneGeometry.covers_iff (h : ZoneGeometry n) :
    ZonesCover n ↔ n.nsze = n.numZones * n.zoneSize := by
  refine ⟨ZonesCover.nsze, fun hnsze => ⟨hnsze, fun slba nlb hnlb hchk => ?_, fun c => ?_⟩⟩
  · have hslba : slba < n.numZones * n.zoneSize := by
      unfold znsCheckBounds at hchk
      split at hchk
      case isTrue => exact absurd hchk (by decide)
      case isFalse hin => omega
    exact ⟨_, h.getZone hslba⟩
  · unfold znsGetMgmtZoneSlbaIdx
    split
    case isTrue => exact ⟨_, rfl⟩
    case isFalse =>
      split
      case isTrue => exact ⟨_, rfl⟩
      case isFalse hin =>
        rw [(h.getZone (by omega)).1]
        exact ⟨_, rfl⟩

end lookup

/-! ## runs -/

section runs

variable {f : FormatCfg} {n : ZnsCtrl} {d d' : ZnsDevice} {a : ZnsDeviceAct} {sys : System}

structure DeviceInv (f : FormatCfg) (d : ZnsDevice) : Prop where
  ns : NsInv f d.ns
  nsze : d.n.nsze = d.ns.nsze
  zones : ZoneGeometry d.n

theorem init_deviceInv (hcfg : CheckConstraints f) (h : znsInit f n sys = some d) :
    DeviceInv f d ∧ ZonesCover d.n := by
  obtain ⟨n₁, hgeo, hrest⟩ := Option.bind_eq_some_iff.mp h
  obtain ⟨⟨n₂, zt⟩, hstate, rfl⟩ := Option.map_eq_some_iff.mp hrest
  have hspec := initZoneGeometry_spec hgeo
  obtain ⟨hns, -, -⟩ := init_nsInv hcfg
  unfold znsInitZonedState at hstate
  split at hstate
  case isFalse => cases hstate
  case isTrue hcount =>
    obtain ⟨rfl, rfl⟩ := Prod.mk.inj (Option.some.inj hstate)
    have hzones : ZoneGeometry { n₁ with
        zoneSizeLog2 := if isPowerOf2 n₁.zoneSize then Nat.log2 n₁.zoneSize else 0
        nsze := u64 (n₁.numZones * n₁.zoneSize) } :=
      ⟨hcount, hspec.capacity_pos.trans hspec.capacity_le, rfl⟩
    refine ⟨⟨⟨hns.nlbaf, hns.lbads, hns.bits⟩, rfl, hzones⟩, hzones.covers_iff.mpr ?_⟩
    exact u64_eq hspec.total_lt

theorem znsDeviceStep_inv (h : DeviceInv f d) (hstep : znsDeviceStep f d a = some d') :
    DeviceInv f d' := by
  cases a with
  | format cmd =>
      cases hstep
      exact ⟨h.ns.format, rfl, ⟨h.zones.count, h.zones.size, h.zones.log2⟩⟩
  | admin =>
      cases hstep
      exact h
  | event e =>
      unfold znsDeviceStep at hstep
      dsimp only at hstep
      split at hstep
      case h_1 =>
        cases hstep
        exact ⟨h.ns, h.nsze, h.zones⟩
      case h_2 => cases hstep

/-- **Step**: the zones stay the whole namespace exactly when a format has as many blocks. -/
theorem DeviceInv.step_iff (h : DeviceInv f d) (hcov : ZonesCover d.n)
    (hstep : znsDeviceStep f d a = some d') : ZonesCover d'.n ↔ SameBlocks f d a := by
  cases a with
  | admin =>
      cases hstep
      exact iff_of_true hcov trivial
  | event e =>
      unfold znsDeviceStep at hstep
      dsimp only at hstep
      split at hstep
      case h_1 =>
        cases hstep
        exact iff_of_true hcov trivial
      case h_2 => cases hstep
  | format cmd =>
      have hinv := znsDeviceStep_inv h hstep
      rw [hinv.zones.covers_iff]
      cases hstep
      dsimp only [withNamespace, SameBlocks]
      by_cases hacc : Admin.Accepts f d.ns cmd
      case neg =>
        rw [(adminFormat_of_not_accepts hacc).2, ← h.nsze]
        exact iff_of_true hcov.nsze fun hyes => absurd hyes hacc
      case pos =>
        have hpos : 0 < 2 ^ (bdrvSectorBits + formatIdx cmd) + f.metaSize.toNat :=
          Nat.add_pos_left (Nat.two_pow_pos _) _
        rw [(h.ns.formatted hacc).1, Nat.div_eq_iff hpos, Nat.add_mul, Nat.one_mul]
        constructor
        · exact fun hblks _ => ⟨hblks.1, by omega⟩
        · exact fun hsame => ⟨(hsame hacc).1, Nat.le_sub_one_of_lt (hsame hacc).2⟩

end runs

/-- **Address space**: from `zns_init` on, formats with as many blocks as the zones have keep the
namespace the one of the zones, whatever is executed in between; and a step keeps it exactly
when a format it executes has. -/
theorem zones_cover {f : FormatCfg} {n : ZnsCtrl} {sys : System} {d₀ d : ZnsDevice}
    {acts : List ZnsDeviceAct} (hcfg : CheckConstraints f) (hinit : znsInit f n sys = some d₀)
    (hrun : Run (fun d a d' => SameBlocks f d a ∧ znsDeviceStep f d a = some d') d₀ acts d) :
    ZonesCover d.n ∧
      ∀ a d', znsDeviceStep f d a = some d' → (ZonesCover d'.n ↔ SameBlocks f d a) := by
  have hinv : DeviceInv f d ∧ ZonesCover d.n := by
    refine hrun.invariant (I := fun d => DeviceInv f d ∧ ZonesCover d.n) ?_
      (init_deviceInv hcfg hinit)
    rintro d a d' ⟨hd, hcov⟩ ⟨hsame, hstep⟩
    exact ⟨znsDeviceStep_inv hd hstep, (hd.step_iff hcov hstep).mpr hsame⟩
  exact ⟨hinv.2, fun a d' hstep => hinv.1.step_iff hinv.2 hstep⟩

/-- A device of two zones in blocks of 4096 bytes, formatted to the same blocks, with a zone
opened afterwards. -/
theorem zones_cover_small :
    ∃ d₀ d, znsInit ⟨256, 5, 3, 0, 0, 0, 0, 0, 2⟩ twoZones twoZonesStart = some d₀ ∧
      Run (fun d a d' => SameBlocks ⟨256, 5, 3, 0, 0, 0, 0, 0, 2⟩ d a ∧
        znsDeviceStep ⟨256, 5, 3, 0, 0, 0, 0, 0, 2⟩ d a = some d') d₀
        [.format { nsid := 1, cdw10 := 3 }, .admin,
          .event (.cmd .mgmtSend 0 { cdw10 := 32768, cdw13 := 3 })] d ∧
      d.n.nsze = 65536 ∧ ZonesCover d.n := by
  have hends : ((znsInit ⟨256, 5, 3, 0, 0, 0, 0, 0, 2⟩ twoZones twoZonesStart).bind fun d₀ =>
      (exec (allowed (SameBlocks ⟨256, 5, 3, 0, 0, 0, 0, 0, 2⟩)
        (znsDeviceStep ⟨256, 5, 3, 0, 0, 0, 0, 0, 2⟩))
        [.format { nsid := 1, cdw10 := 3 }, .admin,
          .event (.cmd .mgmtSend 0 { cdw10 := 32768, cdw13 := 3 })] d₀).map (·.n.nsze)) =
      some 65536 := by decide +kernel
  obtain ⟨d₀, hinit, hends⟩ := Option.bind_eq_some_iff.mp hends
  obtain ⟨d, hd, hnsze⟩ := Option.map_eq_some_iff.mp hends
  have hrun := run_of_exec_allowed hd
  exact ⟨d₀, d, hinit, hrun, hnsze, (zones_cover (by decide) hinit hrun).1⟩

/-- Formatted to blocks of 512 bytes the namespace has eight times the blocks of its zones. -/
theorem format_leaves_zones :
    ∃ d₀ d, znsInit ⟨256, 5, 3, 0, 0, 0, 0, 0, 2⟩ twoZones twoZonesStart = some d₀ ∧
      Run (fun d a d' => znsDeviceStep ⟨256, 5, 3, 0, 0, 0, 0, 0, 2⟩ d a = some d') d₀
        [.format { nsid := 1, cdw10 := 0 }] d ∧
      znsGetMgmtZoneSlbaIdx d.n { cdw10 := 65536 } = .error .assert ∧ ¬ ZonesCover d.n := by
  have hends : ((znsInit ⟨256, 5, 3, 0, 0, 0, 0, 0, 2⟩ twoZones twoZonesStart).bind fun d₀ =>
      (exec (znsDeviceStep ⟨256, 5, 3, 0, 0, 0, 0, 0, 2⟩) [.format { nsid := 1, cdw10 := 0 }]
        d₀).map fun d => decide (znsGetMgmtZoneSlbaIdx d.n { cdw10 := 65536 } = .error .assert)) =
      some true := by decide +kernel
  obtain ⟨d₀, hinit, hends⟩ := Option.bind_eq_some_iff.mp hends
  obtain ⟨d, hd, heq⟩ := Option.map_eq_some_iff.mp hends
  have herr := of_decide_eq_true heq
  refine ⟨d₀, d, hinit, run_of_exec hd, herr, fun hcov => ?_⟩
  obtain ⟨r, hr⟩ := hcov.mgmt { cdw10 := 65536 }
  rw [herr] at hr
  cases hr

end Femu.Zns

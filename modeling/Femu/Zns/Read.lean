import Femu.Zns.Reformat

/-!
# Femu.Zns.Read

The check of a zone read (`zns_check_zone_read`): a range of blocks may be read if
none of its zones is offline, and may go over the end of a zone if the controller
is configured so. The walk over the zones of the range stays in the zone array.
-/

namespace Femu.Zns

open Nvme Lib

variable {n : ZnsCtrl} {t : ZoneTable} {slba nlb i : Nat}

/-! ## zones and ranges -/

/-- The zones of a namespace lie one after the other and make up its blocks; each
of them is in some state. -/
structure ZoneGrid (n : ZnsCtrl) (t : ZoneTable) : Prop extends ZoneGeometry n where
  nsze_eq : n.nsze = n.numZones * n.zoneSize
  nsze_lt : n.nsze < 2 ^ 64
  zslba_eq : ∀ i < n.numZones, (t.zones i).zslba = i * n.zoneSize
  state : ∀ i < n.numZones, (t.zones i).zs ≠ .reserved

/-- The range of blocks shares a block with zone `i`. -/
def Overlaps (n : ZnsCtrl) (slba nlb i : Nat) : Prop :=
  i * n.zoneSize < slba + nlb ∧ slba < (i + 1) * n.zoneSize

/-- The range of blocks lies in zone `i`. -/
def InZone (n : ZnsCtrl) (slba nlb i : Nat) : Prop :=
  i * n.zoneSize ≤ slba ∧ slba + nlb ≤ (i + 1) * n.zoneSize

/-- The states that `zns_init_zoned_state` sets up lie on the grid. -/
theorem zoneGrid_of_init {n₀ n₁ : ZnsCtrl} {zt : ZoneTable}
    (hgeo : znsInitZoneGeometry n₀ = some n₁) (hinit : znsInitZonedState n₁ = some (n, zt)) :
    ZoneGrid n zt := by
  have hstart := started_of_init hgeo hinit
  have hspec := initZoneGeometry_spec hgeo
  have hzone : ∀ i < n.numZones, ZoneOk n i (zt.zones i) := fun i hi => hstart.inv.zone i hi hi
  have hgrid : ZoneGeometry n := by
    unfold znsInitZonedState at hinit
    split at hinit
    case isFalse => cases hinit
    case isTrue hcount =>
      obtain ⟨rfl, rfl⟩ := Prod.mk.inj (Option.some.inj hinit)
      exact ⟨hcount, hspec.capacity_pos.trans hspec.capacity_le, rfl⟩
  refine ⟨hgrid, hstart.nsze_eq, ?_, fun i hi => (hzone i hi).zslba_eq, fun i hi hres => ?_⟩
  · rw [hstart.nsze_eq]
    exact hstart.geometry.total_lt
  · have husable := hstart.inv.usable i hi
    simp [hres, NvmeZoneState.Usable] at husable

theorem ZoneGrid.succ_mul_le (h : ZoneGrid n t) (hi : i < n.numZones) :
    (i + 1) * n.zoneSize ≤ n.nsze := by
  rw [h.nsze_eq]
  exact Nat.mul_le_mul_right _ hi

theorem ZoneGrid.lt_of_mul_lt (h : ZoneGrid n t) (hi : i * n.zoneSize < n.nsze) :
    i < n.numZones := by
  rw [h.nsze_eq] at hi
  exact Nat.lt_of_mul_lt_mul_right hi

theorem ZoneGrid.rdBoundary (h : ZoneGrid n t) (hi : i < n.numZones) :
    znsZoneRdBoundary n (t.zones i) = (i + 1) * n.zoneSize := by
  have hle := h.succ_mul_le hi
  have hlt := h.nsze_lt
  rw [znsZoneRdBoundary, h.zslba_eq i hi, ← Nat.succ_mul]
  exact u64_eq (hle.trans_lt hlt)

theorem checkZoneStateForRead_iff {z : NvmeZone} (h : z.zs ≠ .reserved) :
    ∃ status, znsCheckZoneStateForRead z = .ok status ∧
      (status = nvmeSuccess ↔ z.zs ≠ .offline) := by
  unfold znsCheckZoneStateForRead
  cases hzs : z.zs with
  | reserved => contradiction
  | offline => exact ⟨nvmeZoneOffline, rfl, by decide⟩
  | empty => exact ⟨nvmeSuccess, rfl, by simp⟩
  | implicitlyOpen => exact ⟨nvmeSuccess, rfl, by simp⟩
  | explicitlyOpen => exact ⟨nvmeSuccess, rfl, by simp⟩
  | closed => exact ⟨nvmeSuccess, rfl, by simp⟩
  | readOnly => exact ⟨nvmeSuccess, rfl, by simp⟩
  | full => exact ⟨nvmeSuccess, rfl, by simp⟩

/-! ## the walk -/

/-- The loop goes over the zones after zone `i` that start below the end of the
range, up to the first one that is offline. -/
theorem crossZoneLoop_iff (h : ZoneGrid n t) {bound k : Nat} (hfuel : n.numZones ≤ k + i + 1)
    (hnext : (i + 1) * n.zoneSize < bound) (hbound : bound ≤ n.nsze) :
    ∃ status, crossZoneLoop n t bound k i = .ok status ∧
      (status = nvmeSuccess ↔
        ∀ j, i < j → j * n.zoneSize < bound → (t.zones j).zs ≠ .offline) := by
  induction k generalizing i with
  | zero =>
      have hlt := h.lt_of_mul_lt (hnext.trans_le hbound)
      omega
  | succ k ih =>
      have hlt := h.lt_of_mul_lt (hnext.trans_le hbound)
      obtain ⟨status, hcheck, hstatus⟩ := checkZoneStateForRead_iff (h.state (i + 1) hlt)
      rw [crossZoneLoop, if_neg (Nat.not_le.mpr hlt), hcheck, ok_bind]
      by_cases hok : status = nvmeSuccess
      case neg =>
        refine ⟨status, if_pos hok, ?_⟩
        constructor
        · intro hs
          exact absurd hs hok
        · intro hall
          exact hstatus.mpr (hall (i + 1) (Nat.lt_succ_self i) hnext)
      case pos =>
        have honline := hstatus.mp hok
        rw [if_neg (not_not.mpr hok), h.rdBoundary hlt]
        by_cases hmore : (i + 1 + 1) * n.zoneSize < bound
        case pos =>
          rw [if_pos hmore]
          obtain ⟨status', hrun, hiff⟩ := ih (by omega) hmore
          refine ⟨status', hrun, ?_⟩
          rw [hiff]
          constructor
          · intro hall j hj hjb
            by_cases hji : j = i + 1
            · rwa [hji]
            · exact hall j (by omega) hjb
          · intro hall j hj hjb
            exact hall j (by omega) hjb
        case neg =>
          refine ⟨status, if_neg hmore, ?_⟩
          constructor
          · intro _ j hj hjb
            have hji : j = i + 1 := by
              by_contra hne
              have hle := Nat.mul_le_mul_right n.zoneSize (show i + 1 + 1 ≤ j by omega)
              omega
            rwa [hji]
          · intro _
            exact hok

/-- A range that passes the check of its bounds starts in a zone and ends in the
namespace. -/
theorem ZoneGrid.of_checkBounds (h : ZoneGrid n t) (hnlb : 0 < nlb)
    (hbounds : znsCheckBounds n slba nlb = nvmeSuccess) :
    slba + nlb ≤ n.nsze ∧ slba < n.numZones * n.zoneSize := by
  have hnsze := h.nsze_eq
  unfold znsCheckBounds at hbounds
  split at hbounds
  case isTrue => exact absurd hbounds (by decide)
  case isFalse hin => omega

/-- The zones of a range are those from the zone of its first block on. -/
theorem overlaps_iff (h : ZoneGeometry n) :
    Overlaps n slba nlb i ↔ slba / n.zoneSize ≤ i ∧ i * n.zoneSize < slba + nlb := by
  rw [Overlaps, ← Nat.lt_succ_iff, Nat.div_lt_iff_lt_mul h.size, and_comm]

/-- A range lies in a zone if it ends in the zone of its first block. -/
theorem exists_inZone_iff (h : ZoneGeometry n) :
    (∃ i, InZone n slba nlb i) ↔ slba + nlb ≤ (slba / n.zoneSize + 1) * n.zoneSize := by
  constructor
  case mp =>
    intro hex
    obtain ⟨i, hstart, hend⟩ := hex
    have hle : i ≤ slba / n.zoneSize := (Nat.le_div_iff_mul_le h.size).mpr hstart
    exact hend.trans (Nat.mul_le_mul_right _ (Nat.succ_le_succ hle))
  case mpr =>
    intro hend
    exact ⟨slba / n.zoneSize, Nat.div_mul_le_self _ _, hend⟩

/-- **Zone reads**: the check of a range of blocks of the namespace ends without
leaving the zone array, and succeeds if and only if no zone of the range is
offline, and the range may cross zones or lies in one. -/
theorem zone_read_exact (h : ZoneGrid n t) (hnlb : 0 < nlb)
    (hbounds : znsCheckBounds n slba nlb = nvmeSuccess) :
    ∃ status, znsCheckZoneRead n t slba nlb = .ok status ∧
      (status = nvmeSuccess ↔
        (∀ i < n.numZones, Overlaps n slba nlb i → (t.zones i).zs ≠ .offline) ∧
        (n.crossZoneRead = true ∨ ∃ i, InZone n slba nlb i)) := by
  obtain ⟨hend, hslba⟩ := h.of_checkBounds hnlb hbounds
  obtain ⟨hget, hi⟩ := h.getZone hslba
  have hbound : u64 (slba + nlb) = slba + nlb := u64_eq (hend.trans_lt h.nsze_lt)
  have hfirst : Overlaps n slba nlb (slba / n.zoneSize) :=
    (overlaps_iff h.toZoneGeometry).mpr
      ⟨Nat.le_refl _, (Nat.div_mul_le_self _ _).trans_lt (by omega)⟩
  obtain ⟨status, hcheck, hstatus⟩ := checkZoneStateForRead_iff (h.state _ hi)
  simp only [znsCheckZoneRead, hget, ok_bind, hcheck, hbound, h.rdBoundary hi]
  rw [exists_inZone_iff h.toZoneGeometry]
  by_cases hok : status = nvmeSuccess
  case neg =>
    refine ⟨status, if_pos hok, ?_⟩
    constructor
    · intro hs
      exact absurd hs hok
    · intro hall
      exact hstatus.mpr (hall.1 _ hi hfirst)
  case pos =>
    have honline := hstatus.mp hok
    rw [if_neg (not_not.mpr hok)]
    by_cases hmore : (slba / n.zoneSize + 1) * n.zoneSize < slba + nlb
    case pos =>
      rw [if_pos hmore]
      by_cases hcross : n.crossZoneRead = true
      case pos =>
        obtain ⟨status', hrun, hiff⟩ := crossZoneLoop_iff h
          ((Nat.le_add_right _ _).trans (Nat.le_add_right _ _)) hmore hend
        refine ⟨status', (if_pos hcross).trans hrun, ?_⟩
        rw [hiff]
        constructor
        · intro hall
          refine ⟨fun j hj hover => ?_, Or.inl hcross⟩
          obtain ⟨hle, hlt⟩ := (overlaps_iff h.toZoneGeometry).mp hover
          by_cases hji : j = slba / n.zoneSize
          · rwa [hji]
          · exact hall j (by omega) hlt
        · intro hall j hj hlt
          exact hall.1 j (h.lt_of_mul_lt (hlt.trans_le hend))
            ((overlaps_iff h.toZoneGeometry).mpr ⟨hj.le, hlt⟩)
      case neg =>
        refine ⟨nvmeZoneBoundaryError, if_neg hcross, ?_⟩
        constructor
        · intro hs
          exact absurd hs (by decide)
        · intro hall
          obtain hc | hle := hall.2
          · exact absurd hc hcross
          · omega
    case neg =>
      refine ⟨status, if_neg hmore, ?_⟩
      constructor
      · intro _
        refine ⟨fun j hj hover => ?_, Or.inr (Nat.not_lt.mp hmore)⟩
        obtain ⟨hle, hlt⟩ := (overlaps_iff h.toZoneGeometry).mp hover
        have hji : j = slba / n.zoneSize := by
          by_contra hne
          have hmul := Nat.mul_le_mul_right n.zoneSize (show slba / n.zoneSize + 1 ≤ j by omega)
          omega
        rwa [hji]
      · intro _
        exact hok

/-- Blocks 3 to 5 of two zones of four, the second zone offline. -/
theorem zone_read_exact_small :
    ∃ status, znsCheckZoneRead { twoZones with crossZoneRead := true }
        (twoZonesTable.setZoneState 1 .offline) 3 3 = .ok status ∧
      status ≠ nvmeSuccess := by
  have hgrid : ZoneGrid { twoZones with crossZoneRead := true }
      (twoZonesTable.setZoneState 1 .offline) := by
    have hgeo : znsInitZoneGeometry twoZones = some twoZones := rfl
    have h : ZoneGrid twoZones twoZonesTable := zoneGrid_of_init hgeo rfl
    refine ⟨⟨h.count, h.size, h.log2⟩, h.nsze_eq, h.nsze_lt, fun i hi => ?_, fun i hi => ?_⟩
    · have hi : i < 2 := hi
      obtain rfl | rfl : i = 0 ∨ i = 1 := by omega
      · rfl
      · rfl
    · have hi : i < 2 := hi
      obtain rfl | rfl : i = 0 ∨ i = 1 := by omega
      · decide
      · decide
  have hbounds : znsCheckBounds { twoZones with crossZoneRead := true } 3 3 = nvmeSuccess := by
    decide
  obtain ⟨status, hrun, hiff⟩ := zone_read_exact hgrid (by decide) hbounds
  refine ⟨status, hrun, fun hs => ?_⟩
  have hall := (hiff.mp hs).1 1 (by decide) (by
    rw [Overlaps]
    decide)
  exact hall (by decide)

end Femu.Zns

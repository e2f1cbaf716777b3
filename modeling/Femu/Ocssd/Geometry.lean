import Mathlib.Tactic.Ring
import Femu.Lib.Fields
import Femu.Admin.Format
import Femu.Ocssd.Oc12Meta

/-!
# Femu.Ocssd.Geometry

The geometry of the open-channel SSD 2.0 (`femu_oc20_init_id_ctrl` and
`oc20_init_namespace`), against the size of the backend. The number of chunks comes
from the number of blocks that `nvme_init_namespace` counts in units of the initial LBA
format, while the sectors of the namespace have 4096 bytes, and each part of an address
is padded to a power of two. The addresses that `oc20_lba_valid` accepts fit into the
backend exactly if the greatest of them does.
-/

namespace Femu.Ocssd

open Nvme Lib Admin

/-! ## setup -/

/-- The parameters of the device: those that its size and the LBA formats depend on, and
the geometry. -/
structure OcSetup where
  cfg : FormatCfg
  params : OcCtrlParams

/-- `n->ns_size`, the size of the backend. -/
def OcSetup.nsSize (c : OcSetup) : Nat := c.cfg.nsSize

/-- `ns->ns_blks` after `nvme_init_namespace`: blocks of the initial LBA format, with their
metadata. -/
def OcSetup.nsBlks (c : OcSetup) : Nat := (initNamespace c.cfg).nsBlks

/-- The value of an `int` expression that is converted to 64 bits. -/
def intToU64 (x : Nat) : Nat :=
  if u32 x < 2 ^ 31 then u32 x else u32 x + (2 ^ 64 - 2 ^ 32)

/-- `femu_oc20_init_id_ctrl`. It does not come back from a division by zero. -/
def femuOc20InitIdCtrl (c : OcSetup) : Option Oc20IdGeo :=
  let secPerPg := c.params.secsPerPg.toNat
  let pgsPerBlk := c.params.pgsPerBlk.toNat
  let numCh := c.params.numCh.toNat
  let numLun := c.params.numLun.toNat
  let numPln := c.params.numPln.toNat
  let divisor := intToU64 (secPerPg * pgsPerBlk * numCh * numLun * numPln)
  if divisor = 0 then none
  else some
    { numGrp := c.params.numCh.toUInt16
      numLun := c.params.numLun.toUInt16
      numChk := UInt32.ofNat (c.nsBlks / divisor)
      clba := UInt32.ofNat (secPerPg * pgsPerBlk * numPln) }

def Oc20IdGeo.secField (geo : Oc20IdGeo) : AddrField := AddrField.above ⟨0, 0, 0⟩ geo.clba.toNat

def Oc20IdGeo.chkField (geo : Oc20IdGeo) : AddrField := geo.secField.above geo.numChk.toNat

def Oc20IdGeo.lunField (geo : Oc20IdGeo) : AddrField := geo.chkField.above geo.numLun.toNat

def Oc20IdGeo.grpField (geo : Oc20IdGeo) : AddrField := geo.lunField.above geo.numGrp.toNat

/-- The address format: group, parallel unit, chunk, sector. -/
def oc20InitLbaf (geo : Oc20IdGeo) : Oc20AddrF :=
  { grpMask := geo.grpField.mask
    lunMask := geo.lunField.mask
    chkMask := geo.chkField.mask
    secMask := geo.secField.mask
    grpOffset := geo.grpField.offset
    lunOffset := geo.lunField.offset
    chkOffset := geo.chkField.offset
    secOffset := geo.secField.offset }

/-- `oc20_init_namespace`, as far as the addresses go. -/
def oc20InitNamespace (c : OcSetup) : Option Oc20Namespace :=
  (femuOc20InitIdCtrl c).map fun geo =>
    { geo
      lbaf := oc20InitLbaf geo
      chksPerGrp := u32 (geo.numChk.toNat * geo.numLun.toNat)
      lbads := 12 }

/-! ## statement -/

/-- Every address that is accepted is that of a sector inside the backend. -/
def FitsBackend (c : OcSetup) (lns : Oc20Namespace) : Prop :=
  ∀ lba, lba < 2 ^ 64 → oc20LbaValid lns lba →
    u64 (lba <<< lns.lbads) + 2 ^ lns.lbads ≤ c.nsSize

/-- The greatest address that is accepted, of those that the shift by the LBA data size
keeps. -/
def topLba (lns : Oc20Namespace) : Nat := greatest (oc20LbaValid lns) 52

variable {c : OcSetup} {lns : Oc20Namespace}

/-! ## the greatest address -/

theorem bitClosed_valid : BitClosed (oc20LbaValid lns) :=
  (bitClosed_field _ _ _).and ((bitClosed_field _ _ _).and
    ((bitClosed_field _ _ _).and (bitClosed_shiftRight _ _)))

/-- The namespace has something of each kind. -/
structure Oc20IdGeo.NonEmpty (geo : Oc20IdGeo) : Prop where
  grp : 0 < geo.numGrp.toNat
  lun : 0 < geo.numLun.toNat
  chk : 0 < geo.numChk.toNat
  sec : 0 < geo.clba.toNat

theorem ne_zero_of_intToU64 {x : Nat} (h : intToU64 x ≠ 0) : x ≠ 0 := by
  rintro rfl
  exact h rfl

theorem nonEmpty_of_init (h : oc20InitNamespace c = some lns) (hchk : 1 ≤ lns.geo.numChk.toNat) :
    lns.geo.NonEmpty ∧ lns.lbaf = oc20InitLbaf lns.geo ∧ lns.lbads = 12 := by
  simp only [oc20InitNamespace, femuOc20InitIdCtrl, Option.map_eq_some_iff] at h
  obtain ⟨geo, hgeo, rfl⟩ := h
  split at hgeo
  case isTrue => cases hgeo
  case isFalse hdiv =>
    cases hgeo
    have hprod := ne_zero_of_intToU64 hdiv
    simp only [Nat.mul_ne_zero_iff] at hprod
    obtain ⟨⟨⟨⟨hsec, hpg⟩, hch⟩, hlun⟩, hpln⟩ := hprod
    have hclba : c.params.secsPerPg.toNat * c.params.pgsPerBlk.toNat * c.params.numPln.toNat ≤
        255 * 65535 * 255 :=
      Nat.mul_le_mul (Nat.mul_le_mul (Nat.le_of_lt_succ c.params.secsPerPg.toNat_lt)
        (Nat.le_of_lt_succ c.params.pgsPerBlk.toNat_lt))
        (Nat.le_of_lt_succ c.params.numPln.toNat_lt)
    refine ⟨⟨?_, ?_, hchk, ?_⟩, rfl, rfl⟩
    · simpa using Nat.pos_of_ne_zero hch
    · simpa using Nat.pos_of_ne_zero hlun
    · rw [UInt32.toNat_ofNat', Nat.mod_eq_of_lt (by omega)]
      exact Nat.mul_pos (Nat.mul_pos (Nat.pos_of_ne_zero hsec) (Nat.pos_of_ne_zero hpg))
        (Nat.pos_of_ne_zero hpln)

theorem valid_zero (h : lns.geo.NonEmpty) : oc20LbaValid lns 0 := by
  refine ⟨?_, ?_, ?_, ?_⟩
  · simpa [Oc20AddrF.getSectr] using h.sec
  · simpa [Oc20AddrF.getChunk] using h.chk
  · simpa [Oc20AddrF.getPunit] using h.lun
  · simpa [Oc20AddrF.getGroup] using h.grp

theorem topLba_isGreatest (h : lns.geo.NonEmpty) :
    IsGreatest {x | x < 2 ^ 52 ∧ oc20LbaValid lns x} (topLba lns) :=
  greatest_isGreatest bitClosed_valid (valid_zero h) 52

/-- The addresses fit if and only if the greatest one does. -/
theorem fitsBackend_iff (hgeo : lns.geo.NonEmpty) (hlbads : lns.lbads = 12) :
    FitsBackend c lns ↔ (topLba lns + 1) * 2 ^ 12 ≤ c.nsSize := by
  obtain ⟨⟨hlt, hvalid⟩, hub⟩ := topLba_isGreatest hgeo
  simp only [FitsBackend, hlbads]
  constructor
  case mp =>
    intro h
    have htop := h (topLba lns) (by omega) hvalid
    rw [Nat.shiftLeft_eq, u64_eq (by omega)] at htop
    omega
  case mpr =>
    intro h lba hlba hv
    have hlow : oc20LbaValid lns (lba % 2 ^ 52) :=
      bitClosed_valid (lba % 2 ^ 52) lba (mod_and_self lba 52) hv
    have hle : lba % 2 ^ 52 ≤ topLba lns := hub ⟨Nat.mod_lt _ (by omega), hlow⟩
    have hshift : u64 (lba <<< 12) = lba % 2 ^ 52 * 2 ^ 12 := by
      rw [Nat.shiftLeft_eq, u64]
      omega
    omega

/-! ## address formats of up to 31 bits -/

section Format

variable {geo : Oc20IdGeo}

theorem lunOffset_eq (geo : Oc20IdGeo) :
    geo.lunField.offset = geo.secField.len + geo.chkField.len := by
  simp [Oc20IdGeo.lunField, Oc20IdGeo.chkField, Oc20IdGeo.secField, AddrField.above]

theorem grpOffset_eq (geo : Oc20IdGeo) :
    geo.grpField.offset = geo.secField.len + geo.chkField.len + geo.lunField.len := by
  rw [← lunOffset_eq]
  rfl

theorem chkOffset_eq (geo : Oc20IdGeo) : geo.chkField.offset = geo.secField.len := by
  simp [Oc20IdGeo.chkField, Oc20IdGeo.secField, AddrField.above]

/-- The mask of a field, where C determines it. -/
theorem AddrField.above_mask {below : AddrField} {count : Nat}
    (h : (below.above count).offset + (below.above count).len ≤ 31) :
    (below.above count).mask = (2 ^ (below.above count).len - 1) * 2 ^ (below.above count).offset :=
  fieldMask_eq h

theorem getSectr_eq (h : geo.grpField.offset ≤ 31) (lba : Nat) :
    (oc20InitLbaf geo).getSectr lba = lba % 2 ^ geo.secField.len := by
  rw [grpOffset_eq] at h
  have hoff : geo.secField.offset = 0 := rfl
  have hfit : geo.secField.offset + geo.secField.len ≤ 31 := by omega
  have hmask : geo.secField.mask = (2 ^ geo.secField.len - 1) * 2 ^ geo.secField.offset :=
    AddrField.above_mask hfit
  rw [Oc20AddrF.getSectr, oc20InitLbaf, hmask, field_eq, hoff, Nat.pow_zero, Nat.div_one]

theorem getChunk_eq (h : geo.grpField.offset ≤ 31) (lba : Nat) :
    (oc20InitLbaf geo).getChunk lba = lba / 2 ^ geo.secField.len % 2 ^ geo.chkField.len := by
  rw [grpOffset_eq] at h
  have hoff := chkOffset_eq geo
  have hfit : geo.chkField.offset + geo.chkField.len ≤ 31 := by omega
  have hmask : geo.chkField.mask = (2 ^ geo.chkField.len - 1) * 2 ^ geo.chkField.offset :=
    AddrField.above_mask hfit
  rw [Oc20AddrF.getChunk, oc20InitLbaf, hmask, field_eq, hoff]

theorem getPunit_eq (h : geo.grpField.offset ≤ 31) (lba : Nat) :
    (oc20InitLbaf geo).getPunit lba =
      lba / 2 ^ geo.secField.len / 2 ^ geo.chkField.len % 2 ^ geo.lunField.len := by
  rw [grpOffset_eq] at h
  have hoff := lunOffset_eq geo
  have hfit : geo.lunField.offset + geo.lunField.len ≤ 31 := by omega
  have hmask : geo.lunField.mask = (2 ^ geo.lunField.len - 1) * 2 ^ geo.lunField.offset :=
    AddrField.above_mask hfit
  rw [Oc20AddrF.getPunit, oc20InitLbaf, hmask, field_eq, hoff, Nat.pow_add, Nat.div_div_eq_div_mul]

theorem getGroup_eq (geo : Oc20IdGeo) (lba : Nat) :
    (oc20InitLbaf geo).getGroup lba =
      lba / 2 ^ geo.secField.len / 2 ^ geo.chkField.len / 2 ^ geo.lunField.len := by
  rw [Oc20AddrF.getGroup, oc20InitLbaf, grpOffset_eq, Nat.shiftRight_eq_div_pow, Nat.pow_add,
    Nat.pow_add, ← Nat.div_div_eq_div_mul, ← Nat.div_div_eq_div_mul]

/-- The address is accepted when each of its digits is below the number of its kind. -/
theorem valid_iff_digits (hlbaf : lns.lbaf = oc20InitLbaf lns.geo)
    (hgrp : lns.lbaf.grpOffset ≤ 31) (lba : Nat) :
    oc20LbaValid lns lba ↔
      lba % 2 ^ lns.geo.secField.len < lns.geo.clba.toNat ∧
      lba / 2 ^ lns.geo.secField.len % 2 ^ lns.geo.chkField.len < lns.geo.numChk.toNat ∧
      lba / 2 ^ lns.geo.secField.len / 2 ^ lns.geo.chkField.len % 2 ^ lns.geo.lunField.len <
        lns.geo.numLun.toNat ∧
      lba / 2 ^ lns.geo.secField.len / 2 ^ lns.geo.chkField.len / 2 ^ lns.geo.lunField.len <
        lns.geo.numGrp.toNat := by
  have hfield : lns.geo.grpField.offset ≤ 31 := by rwa [hlbaf] at hgrp
  rw [oc20LbaValid, Oc20Namespace.ChunkValid, hlbaf, getSectr_eq hfield, getChunk_eq hfield,
    getPunit_eq hfield, getGroup_eq]

/-- A count is at most the number of values of its field. -/
theorem count_le_field {count : Nat} (hpos : 0 < count) (hcount : count ≤ 2 ^ 32) :
    count ≤ 2 ^ qemuFls (count - 1) := by
  have hlast := lt_two_pow_qemuFls (show count - 1 < count by omega) hcount
  omega

/-- The greatest address is made of the greatest digits. -/
theorem topLba_eq (hgeo : lns.geo.NonEmpty) (hlbaf : lns.lbaf = oc20InitLbaf lns.geo)
    (hgrp : lns.lbaf.grpOffset ≤ 31) :
    topLba lns = (lns.geo.numGrp.toNat - 1) * 2 ^ lns.lbaf.grpOffset +
      (lns.geo.numLun.toNat - 1) * 2 ^ lns.lbaf.lunOffset +
      (lns.geo.numChk.toNat - 1) * 2 ^ lns.lbaf.chkOffset + (lns.geo.clba.toNat - 1) := by
  have hsec : lns.geo.clba.toNat ≤ 2 ^ lns.geo.secField.len :=
    count_le_field hgeo.sec lns.geo.clba.toNat_lt.le
  have hchk : lns.geo.numChk.toNat ≤ 2 ^ lns.geo.chkField.len :=
    count_le_field hgeo.chk lns.geo.numChk.toNat_lt.le
  have hlun : lns.geo.numLun.toNat ≤ 2 ^ lns.geo.lunField.len :=
    count_le_field hgeo.lun (by have := lns.geo.numLun.toNat_lt; omega)
  have hdigits := isGreatest_digit hgeo.sec hsec (isGreatest_digit hgeo.chk hchk
    (isGreatest_digit hgeo.lun hlun (isGreatest_lt hgeo.grp)))
  have hset : ∀ lba, oc20LbaValid lns lba ↔ _ := valid_iff_digits hlbaf hgrp
  obtain ⟨⟨htop, hvalid⟩, hub⟩ := topLba_isGreatest hgeo
  have hoffsets : lns.lbaf.grpOffset = lns.geo.secField.len + lns.geo.chkField.len +
      lns.geo.lunField.len ∧ lns.lbaf.lunOffset = lns.geo.secField.len + lns.geo.chkField.len ∧
      lns.lbaf.chkOffset = lns.geo.secField.len := by
    rw [hlbaf]
    exact ⟨grpOffset_eq lns.geo, lunOffset_eq lns.geo, chkOffset_eq lns.geo⟩
  obtain ⟨hgrpOffset, hlunOffset, hchkOffset⟩ := hoffsets
  have hsum : (lns.geo.numGrp.toNat - 1) * 2 ^ lns.lbaf.grpOffset +
      (lns.geo.numLun.toNat - 1) * 2 ^ lns.lbaf.lunOffset +
      (lns.geo.numChk.toNat - 1) * 2 ^ lns.lbaf.chkOffset + (lns.geo.clba.toNat - 1) =
      (((lns.geo.numGrp.toNat - 1) * 2 ^ lns.geo.lunField.len + (lns.geo.numLun.toNat - 1)) *
        2 ^ lns.geo.chkField.len + (lns.geo.numChk.toNat - 1)) * 2 ^ lns.geo.secField.len +
        (lns.geo.clba.toNat - 1) := by
    rw [hgrpOffset, hlunOffset, hchkOffset, Nat.pow_add, Nat.pow_add]
    ring
  rw [hsum]
  have hlast := (hset _).mpr hdigits.1
  refine Nat.le_antisymm (hdigits.2 ((hset _).mp hvalid)) (hub ⟨?_, hlast⟩)
  have hgroup := hlast.2.2.2
  rw [Oc20AddrF.getGroup, Nat.shiftRight_eq_div_pow, Nat.div_lt_iff_lt_mul (Nat.two_pow_pos _)]
    at hgroup
  calc
    _ < lns.geo.numGrp.toNat * 2 ^ lns.lbaf.grpOffset := hgroup
    _ ≤ 2 ^ 16 * 2 ^ 31 :=
      Nat.mul_le_mul lns.geo.numGrp.toNat_lt.le (Nat.pow_le_pow_right (by omega) hgrp)
    _ ≤ 2 ^ 52 := by omega

end Format

/-! ## main result -/

/-- **Geometry of the open-channel SSD 2.0**: the accepted addresses lie inside the backend
if and only if the greatest of them does; and in an address format of up to 31 bits, which
is where C determines the masks, this is the address of the last sector of the last chunk. -/
theorem geometry_fits_iff (h : oc20InitNamespace c = some lns)
    (hchk : 1 ≤ lns.geo.numChk.toNat) :
    (FitsBackend c lns ↔ (topLba lns + 1) * 2 ^ 12 ≤ c.nsSize) ∧
    (lns.lbaf.grpOffset ≤ 31 →
      topLba lns = (lns.geo.numGrp.toNat - 1) * 2 ^ lns.lbaf.grpOffset +
        (lns.geo.numLun.toNat - 1) * 2 ^ lns.lbaf.lunOffset +
        (lns.geo.numChk.toNat - 1) * 2 ^ lns.lbaf.chkOffset + (lns.geo.clba.toNat - 1)) := by
  obtain ⟨hgeo, hlbaf, hlbads⟩ := nonEmpty_of_init h hchk
  exact ⟨fitsBackend_iff hgeo hlbads, topLba_eq hgeo hlbaf⟩

/-- 1024 MiB, two channels of eight LUNs of two planes, 512 pages of four sectors. -/
def defaultSetup (lbaIndex : UInt8) : OcSetup :=
  ⟨⟨1024, 5, lbaIndex, 0, 0, 0, 0, 0, 2⟩, ⟨4, 512, 2, 8, 2, 16⟩⟩

/-- With initial blocks of 4096 bytes the default geometry fills the backend. -/
theorem geometry_fits_4096 : ∃ lns, oc20InitNamespace (defaultSetup 3) = some lns ∧
    FitsBackend (defaultSetup 3) lns := by
  have hinit : (oc20InitNamespace (defaultSetup 3)).map (fun lns =>
      (lns.geo.numChk.toNat, topLba lns)) = some (4, 2 ^ 18 - 1) := by decide +kernel
  obtain ⟨lns, hlns, heq⟩ := Option.map_eq_some_iff.mp hinit
  obtain ⟨hchk, htop⟩ := Prod.mk.inj heq
  refine ⟨lns, hlns, (geometry_fits_iff hlns (by omega)).1.mpr ?_⟩
  rw [htop]
  decide +kernel

/-- With the default initial blocks of 512 bytes it is eight times as large: the last
address it accepts lies below 8 GiB. -/
theorem default_geometry_exceeds : ∃ lns, oc20InitNamespace (defaultSetup 0) = some lns ∧
    1 ≤ lns.geo.numChk.toNat ∧ oc20LbaValid lns (2 ^ 21 - 1) ∧
    ¬ FitsBackend (defaultSetup 0) lns := by
  have hinit : (oc20InitNamespace (defaultSetup 0)).map (fun lns =>
      (lns.geo.numChk.toNat, lns.lbads, decide (oc20LbaValid lns (2 ^ 21 - 1)))) =
        some (32, 12, true) := by decide +kernel
  obtain ⟨lns, hlns, heq⟩ := Option.map_eq_some_iff.mp hinit
  simp only [Prod.mk.injEq, decide_eq_true_eq] at heq
  obtain ⟨hchk, hlbads, hvalid⟩ := heq
  refine ⟨lns, hlns, by omega, hvalid, fun h => ?_⟩
  have hfits := h (2 ^ 21 - 1) (by decide) hvalid
  rw [hlbads] at hfits
  exact absurd hfits (by decide +kernel)

end Femu.Ocssd

import Mathlib.Tactic.Ring
import Femu.Lib.Fields

/-!
# Femu.Bbssd.Params

`struct ssdparams` and the physical page address `struct ppa` of the black-box
SSD (`bbssd/ftl.h`).

The six dimensions, the latencies and the two GC thresholds are the fields of
`SsdParams`; every total that `ssd_init_params` computes from them is a
definition.  The fields and the totals (`tt_pgs`, `tt_lines` and the others) are
C `int`s; here they are natural numbers without a bound, which agrees with the
code as long as no total reaches `2 ^ 31`.

A physical address packs its coordinates into bit-fields of fixed width, so a
coordinate beyond its width is truncated when it is stored.  `Representable`
says that the dimensions of a geometry stay within those widths.
-/

namespace Femu.Bbssd

open Lib

/-! ## geometry -/

/-- `struct ssdparams`. -/
structure SsdParams where
  secsPerPg : Nat
  pgsPerBlk : Nat
  blksPerPl : Nat
  plsPerLun : Nat
  lunsPerCh : Nat
  nchs : Nat
  pgRdLat : Nat
  pgWrLat : Nat
  blkErLat : Nat
  gcThresLines : Int
  gcThresLinesHigh : Int
  enableGcDelay : Bool
deriving DecidableEq

namespace SsdParams

variable (sp : SsdParams)

/- The calculated values of `ssd_init_params`. -/

def pgsPerPl : Nat := sp.pgsPerBlk * sp.blksPerPl
def pgsPerLun : Nat := sp.pgsPerPl * sp.plsPerLun
def pgsPerCh : Nat := sp.pgsPerLun * sp.lunsPerCh
def ttPgs : Nat := sp.pgsPerCh * sp.nchs
def blksPerLun : Nat := sp.blksPerPl * sp.plsPerLun
def ttLuns : Nat := sp.lunsPerCh * sp.nchs
def blksPerLine : Nat := sp.ttLuns
def pgsPerLine : Nat := sp.blksPerLine * sp.pgsPerBlk
def ttLines : Nat := sp.blksPerLun

/-- With one plane per LUN the pages of the SSD are the pages of its lines. -/
theorem ttPgs_eq (h : sp.plsPerLun = 1) : sp.ttPgs = sp.blksPerPl * sp.pgsPerLine := by
  unfold ttPgs pgsPerCh pgsPerLun pgsPerPl pgsPerLine blksPerLine ttLuns
  rw [h]
  ring

/-- A line with pages has channels, LUNs and pages in its blocks. -/
theorem dims_pos (h : 0 < sp.pgsPerLine) :
    0 < sp.nchs ∧ 0 < sp.lunsPerCh ∧ 0 < sp.pgsPerBlk := by
  unfold pgsPerLine blksPerLine ttLuns at h
  refine ⟨?_, ?_, ?_⟩ <;> refine Nat.pos_of_ne_zero fun h0 => ?_ <;> simp [h0] at h

end SsdParams

/-- `ssd_init_params`: the geometry the controller starts with. -/
def ssdInitParams : SsdParams where
  secsPerPg := 8
  pgsPerBlk := 256
  blksPerPl := 256
  plsPerLun := 1
  lunsPerCh := 8
  nchs := 8
  pgRdLat := 40000
  pgWrLat := 200000
  blkErLat := 2000000
  gcThresLines := 64
  gcThresLinesHigh := 12
  enableGcDelay := true

/-! ## physical addresses -/

def blkBits : Nat := 16
def pgBits : Nat := 16
def secBits : Nat := 8
def plBits : Nat := 8
def lunBits : Nat := 8
def chBits : Nat := 7

/-- `struct ppa`: the bit-fields of one 64-bit word. -/
structure Ppa where
  blk : BitVec blkBits
  pg : BitVec pgBits
  sec : BitVec secBits
  pl : BitVec plBits
  lun : BitVec lunBits
  ch : BitVec chBits
  rsv : BitVec 1
deriving DecidableEq

/-- `ppa.ppa`, the word the bit-fields are packed into, lowest field first. -/
def Ppa.ppa (p : Ppa) : BitVec 64 :=
  p.rsv ++ p.ch ++ p.lun ++ p.pl ++ p.sec ++ p.pg ++ p.blk

/-- `UNMAPPED_PPA`: the address whose word is all ones. -/
def unmappedPpa : Ppa where
  blk := BitVec.allOnes _
  pg := BitVec.allOnes _
  sec := BitVec.allOnes _
  pl := BitVec.allOnes _
  lun := BitVec.allOnes _
  ch := BitVec.allOnes _
  rsv := BitVec.allOnes _

theorem ppa_unmappedPpa : unmappedPpa.ppa = BitVec.allOnes 64 := by decide

/-- `mapped_ppa`. -/
def mappedPpa (p : Ppa) : Bool := p != unmappedPpa

/-- The address with the given coordinates and sector 0 of plane 0, each
coordinate truncated to its bit-field. -/
def mkPpa (ch lun blk pg : Nat) : Ppa where
  blk := BitVec.ofNat _ blk
  pg := BitVec.ofNat _ pg
  sec := 0
  pl := 0
  lun := BitVec.ofNat _ lun
  ch := BitVec.ofNat _ ch
  rsv := 0

/-- `valid_ppa`.  The C variables are `int`s, so the lower bounds always hold. -/
def validPpa (sp : SsdParams) (p : Ppa) : Bool :=
  p.ch.toNat < sp.nchs && p.lun.toNat < sp.lunsPerCh && p.pl.toNat < sp.plsPerLun &&
    p.blk.toNat < sp.blksPerPl && p.pg.toNat < sp.pgsPerBlk && p.sec.toNat < sp.secsPerPg

/-- `ppa2pgidx`. -/
def ppa2pgidx (sp : SsdParams) (p : Ppa) : Nat :=
  p.ch.toNat * sp.pgsPerCh + p.lun.toNat * sp.pgsPerLun + p.pl.toNat * sp.pgsPerPl +
    p.blk.toNat * sp.pgsPerBlk + p.pg.toNat

/-- The dimensions stay within the widths of the bit-fields of `struct ppa`. -/
structure Representable (sp : SsdParams) : Prop where
  nchs : sp.nchs ≤ 2 ^ chBits
  lunsPerCh : sp.lunsPerCh ≤ 2 ^ lunBits
  blksPerPl : sp.blksPerPl ≤ 2 ^ blkBits
  pgsPerBlk : sp.pgsPerBlk ≤ 2 ^ pgBits

/-- The geometry the controller starts with is representable. -/
theorem representable_ssdInitParams : Representable ssdInitParams :=
  ⟨by decide, by decide, by decide, by decide⟩

/-- A page of the geometry: an address the FTL stores, with plane, sector and
reserved bit 0. -/
structure InGeom (sp : SsdParams) (p : Ppa) : Prop where
  ch : p.ch.toNat < sp.nchs
  lun : p.lun.toNat < sp.lunsPerCh
  blk : p.blk.toNat < sp.blksPerPl
  pg : p.pg.toNat < sp.pgsPerBlk
  pl : p.pl = 0
  sec : p.sec = 0
  rsv : p.rsv = 0

variable {sp : SsdParams}

/-- A page of the geometry is never the unmapped address. -/
theorem InGeom.ne_unmapped {p : Ppa} (h : InGeom sp p) : p ≠ unmappedPpa := by
  rintro rfl
  have := h.rsv
  revert this
  decide

theorem InGeom.mapped {p : Ppa} (h : InGeom sp p) : mappedPpa p = true := by
  simpa [mappedPpa] using h.ne_unmapped

@[simp] theorem mappedPpa_unmapped : mappedPpa unmappedPpa = false := by decide

/-- A page of the geometry is the packing of its coordinates. -/
theorem InGeom.eq_mkPpa {p : Ppa} (h : InGeom sp p) :
    p = mkPpa p.ch.toNat p.lun.toNat p.blk.toNat p.pg.toNat := by
  obtain ⟨blk, pg, sec, pl, lun, ch, rsv⟩ := p
  have hpl : pl = 0 := h.pl
  have hsec : sec = 0 := h.sec
  have hrsv : rsv = 0 := h.rsv
  simp [mkPpa, hpl, hsec, hrsv]

/-- Two pages of the geometry with the same coordinates are equal. -/
theorem InGeom.ext {p q : Ppa} (hp : InGeom sp p) (hq : InGeom sp q)
    (hch : p.ch.toNat = q.ch.toNat) (hlun : p.lun.toNat = q.lun.toNat)
    (hblk : p.blk.toNat = q.blk.toNat) (hpg : p.pg.toNat = q.pg.toNat) : p = q := by
  rw [hp.eq_mkPpa, hq.eq_mkPpa, hch, hlun, hblk, hpg]

/-- A number below a dimension fits into the bit-field. -/
theorem toNat_ofNat_of_lt {w d x : Nat} (hd : d ≤ 2 ^ w) (hx : x < d) :
    (BitVec.ofNat w x).toNat = x := by
  rw [BitVec.toNat_ofNat, Nat.mod_eq_of_lt (Nat.lt_of_lt_of_le hx hd)]

section mkPpa

variable {ch lun blk pg : Nat}

theorem mkPpa_ch (hr : Representable sp) (h : ch < sp.nchs) :
    (mkPpa ch lun blk pg).ch.toNat = ch := toNat_ofNat_of_lt hr.nchs h

theorem mkPpa_lun (hr : Representable sp) (h : lun < sp.lunsPerCh) :
    (mkPpa ch lun blk pg).lun.toNat = lun := toNat_ofNat_of_lt hr.lunsPerCh h

theorem mkPpa_blk (hr : Representable sp) (h : blk < sp.blksPerPl) :
    (mkPpa ch lun blk pg).blk.toNat = blk := toNat_ofNat_of_lt hr.blksPerPl h

theorem mkPpa_pg (hr : Representable sp) (h : pg < sp.pgsPerBlk) :
    (mkPpa ch lun blk pg).pg.toNat = pg := toNat_ofNat_of_lt hr.pgsPerBlk h

/-- In a representable geometry the packing of in-range coordinates is a page. -/
theorem inGeom_mkPpa (hr : Representable sp) (hch : ch < sp.nchs) (hlun : lun < sp.lunsPerCh)
    (hblk : blk < sp.blksPerPl) (hpg : pg < sp.pgsPerBlk) : InGeom sp (mkPpa ch lun blk pg) where
  ch := by rwa [mkPpa_ch hr hch]
  lun := by rwa [mkPpa_lun hr hlun]
  blk := by rwa [mkPpa_blk hr hblk]
  pg := by rwa [mkPpa_pg hr hpg]
  pl := rfl
  sec := rfl
  rsv := rfl

/-- Packing in-range coordinates loses none of them. -/
theorem mkPpa_inj (hr : Representable sp) {ch' lun' blk' pg' : Nat}
    (hin : ch < sp.nchs ∧ lun < sp.lunsPerCh ∧ blk < sp.blksPerPl ∧ pg < sp.pgsPerBlk)
    (hin' : ch' < sp.nchs ∧ lun' < sp.lunsPerCh ∧ blk' < sp.blksPerPl ∧ pg' < sp.pgsPerBlk)
    (h : mkPpa ch lun blk pg = mkPpa ch' lun' blk' pg') :
    ch = ch' ∧ lun = lun' ∧ blk = blk' ∧ pg = pg' := by
  obtain ⟨h1, h2, h3, h4⟩ := hin
  obtain ⟨h1', h2', h3', h4'⟩ := hin'
  refine ⟨?_, ?_, ?_, ?_⟩
  · rw [← @mkPpa_ch sp ch lun blk pg hr h1, h, mkPpa_ch hr h1']
  · rw [← @mkPpa_lun sp ch lun blk pg hr h2, h, mkPpa_lun hr h2']
  · rw [← @mkPpa_blk sp ch lun blk pg hr h3, h, mkPpa_blk hr h3']
  · rw [← @mkPpa_pg sp ch lun blk pg hr h4, h, mkPpa_pg hr h4']

end mkPpa

/-! ## page numbers -/

/-- With one plane per LUN the page number of a page is a number in mixed radix
with the digits channel, LUN, block, page. -/
theorem ppa2pgidx_eq (hpl : sp.plsPerLun = 1) {p : Ppa} (h : InGeom sp p) :
    ppa2pgidx sp p = ((p.ch.toNat * sp.lunsPerCh + p.lun.toNat) * sp.blksPerPl + p.blk.toNat) *
      sp.pgsPerBlk + p.pg.toNat := by
  have hz : p.pl.toNat = 0 := by rw [h.pl]; rfl
  unfold ppa2pgidx SsdParams.pgsPerCh SsdParams.pgsPerLun SsdParams.pgsPerPl
  rw [hpl, hz]
  ring

/-- Distinct pages have distinct page numbers. -/
theorem ppa2pgidx_inj (hpl : sp.plsPerLun = 1) {p q : Ppa} (hp : InGeom sp p) (hq : InGeom sp q)
    (h : ppa2pgidx sp p = ppa2pgidx sp q) : p = q := by
  rw [ppa2pgidx_eq hpl hp, ppa2pgidx_eq hpl hq] at h
  obtain ⟨h1, hpg⟩ := digits_unique hp.pg hq.pg h
  obtain ⟨h2, hblk⟩ := digits_unique hp.blk hq.blk h1
  obtain ⟨hch, hlun⟩ := digits_unique hp.lun hq.lun h2
  exact hp.ext hq hch hlun hblk hpg

end Femu.Bbssd

import Femu.Bbssd.Ftl
import Femu.Lib.Radix

/-!
# Femu.Bbssd.PageIndex

The numbering of physical pages in `bbssd/ftl.c`: `ppa2pgidx` makes a number of the five
coordinates of an address, by which `get_rmap_ent` and `set_rmap_ent` index the reverse
map, and `struct ppa` holds the coordinates in the bit-fields of a 64-bit word.

`valid_ppa` looks at all the bit-fields but `rsv`, and the number depends on all but `rsv`
and `sec`. The FTL clears an address before it sets the coordinates, so `rsv` is zero in
every address but `UNMAPPED_PPA`.
-/

namespace Femu.Bbssd

open Lib

/-! ## coordinates -/

/-- The coordinates of a page. -/
@[ext] structure PageCoord where
  ch : Nat
  lun : Nat
  pl : Nat
  blk : Nat
  pg : Nat
deriving DecidableEq

/-- The coordinates are those of a page of the geometry. -/
structure PageCoord.In (sp : SsdParams) (c : PageCoord) : Prop where
  ch : c.ch < sp.nchs
  lun : c.lun < sp.lunsPerCh
  pl : c.pl < sp.plsPerLun
  blk : c.blk < sp.blksPerPl
  pg : c.pg < sp.pgsPerBlk

/-- The assignments of `get_new_page`, to an address that is cleared first. -/
def PageCoord.pack (c : PageCoord) : Ppa :=
  { mkPpa c.ch c.lun c.blk c.pg with pl := BitVec.ofNat _ c.pl }

namespace Ppa

/-- The coordinates in the bit-fields. -/
def coord (p : Ppa) : PageCoord := ⟨p.ch.toNat, p.lun.toNat, p.pl.toNat, p.blk.toNat, p.pg.toNat⟩

/-- The bit-fields of a word that was stored as `ppa.ppa`. -/
def ofWord (w : BitVec 64) : Ppa where
  blk := w.extractLsb' 0 blkBits
  pg := w.extractLsb' 16 pgBits
  sec := w.extractLsb' 32 secBits
  pl := w.extractLsb' 40 plBits
  lun := w.extractLsb' 48 lunBits
  ch := w.extractLsb' 56 chBits
  rsv := w.extractLsb' 63 1

/-- The bit-fields are the digits of the word. -/
theorem toNat_ppa (p : Ppa) :
    p.ppa.toNat = (((((p.rsv.toNat * 2 ^ 7 + p.ch.toNat) * 2 ^ 8 + p.lun.toNat) * 2 ^ 8 +
      p.pl.toNat) * 2 ^ 8 + p.sec.toNat) * 2 ^ 16 + p.pg.toNat) * 2 ^ 16 + p.blk.toNat := by
  have hor : p.ppa.toNat = (((((p.rsv.toNat <<< 7 ||| p.ch.toNat) <<< 8 ||| p.lun.toNat) <<< 8 |||
      p.pl.toNat) <<< 8 ||| p.sec.toNat) <<< 16 ||| p.pg.toNat) <<< 16 ||| p.blk.toNat := rfl
  have hch : p.ch.toNat < 2 ^ 7 := p.ch.isLt
  have hlun : p.lun.toNat < 2 ^ 8 := p.lun.isLt
  have hpl : p.pl.toNat < 2 ^ 8 := p.pl.isLt
  have hsec : p.sec.toNat < 2 ^ 8 := p.sec.isLt
  have hpg : p.pg.toNat < 2 ^ 16 := p.pg.isLt
  have hblk : p.blk.toNat < 2 ^ 16 := p.blk.isLt
  rw [hor, ← Nat.shiftLeft_add_eq_or_of_lt hch, ← Nat.shiftLeft_add_eq_or_of_lt hlun,
    ← Nat.shiftLeft_add_eq_or_of_lt hpl, ← Nat.shiftLeft_add_eq_or_of_lt hsec,
    ← Nat.shiftLeft_add_eq_or_of_lt hpg, ← Nat.shiftLeft_add_eq_or_of_lt hblk]
  simp only [Nat.shiftLeft_eq]

theorem ofWord_ppa (p : Ppa) : ofWord p.ppa = p := by
  have hword := p.toNat_ppa
  obtain ⟨blk, pg, sec, pl, lun, ch, rsv⟩ := p
  have hrsv : rsv.toNat < 2 ^ 1 := rsv.isLt
  have hch : ch.toNat < 2 ^ 7 := ch.isLt
  have hlun : lun.toNat < 2 ^ 8 := lun.isLt
  have hpl : pl.toNat < 2 ^ 8 := pl.isLt
  have hsec : sec.toNat < 2 ^ 8 := sec.isLt
  have hpg : pg.toNat < 2 ^ 16 := pg.isLt
  have hblk : blk.toNat < 2 ^ 16 := blk.isLt
  simp only [ofWord, Ppa.mk.injEq]
  refine ⟨?_, ?_, ?_, ?_, ?_, ?_, ?_⟩ <;> apply BitVec.eq_of_toNat_eq <;>
    rw [BitVec.extractLsb'_toNat, Nat.shiftRight_eq_div_pow, hword] <;>
    simp only [blkBits, pgBits, secBits, plBits, lunBits, chBits] <;> omega

theorem ppa_ofWord (w : BitVec 64) : (ofWord w).ppa = w := by
  apply BitVec.eq_of_toNat_eq
  rw [toNat_ppa]
  simp only [ofWord, BitVec.extractLsb'_toNat, Nat.shiftRight_eq_div_pow, blkBits, pgBits, secBits,
    plBits, lunBits, chBits]
  have := w.isLt
  omega

end Ppa

/-! ## the index in machine arithmetic -/

namespace SsdParams

variable (sp : SsdParams)

/- The weights of the coordinates, as `ssd_init_params` computes them in `int`. -/

def pgsPerPlInt : Int32 := Int32.ofNat sp.pgsPerBlk * Int32.ofNat sp.blksPerPl
def pgsPerLunInt : Int32 := sp.pgsPerPlInt * Int32.ofNat sp.plsPerLun
def pgsPerChInt : Int32 := sp.pgsPerLunInt * Int32.ofNat sp.lunsPerCh

end SsdParams

/-- `ppa2pgidx` as it is computed: the bit-fields are narrower than an `int` and become one,
and the sum of `int`s goes into the 64 bits of `pgidx`. -/
def ppa2pgidxInt (sp : SsdParams) (p : Ppa) : UInt64 :=
  (Int32.ofNat p.ch.toNat * sp.pgsPerChInt + Int32.ofNat p.lun.toNat * sp.pgsPerLunInt +
    Int32.ofNat p.pl.toNat * sp.pgsPerPlInt + Int32.ofNat p.blk.toNat * Int32.ofNat sp.pgsPerBlk +
    Int32.ofNat p.pg.toNat).toInt64.toUInt64

/-! ## statement -/

/-- The dimensions stay within the widths of the bit-fields, that of the planes too. -/
structure PpaWidths (sp : SsdParams) : Prop extends Representable sp where
  plsPerLun : sp.plsPerLun ≤ 2 ^ plBits

/-- The first sectors of the pages of the geometry, with the reserved bit clear. -/
def pageAddrs (sp : SsdParams) : Set Ppa := {p | validPpa sp p ∧ p.sec = 0 ∧ p.rsv = 0}

/-- The pages of the geometry are numbered, and their addresses hold their coordinates. -/
structure PagesNumbered (sp : SsdParams) : Prop where
  /-- The pages have the numbers from zero on without gaps, each its own. -/
  index : Set.BijOn (ppa2pgidx sp) (pageAddrs sp) (Set.Iio sp.ttPgs)
  /-- No overflow has an effect on the number. -/
  indexInt : ∀ p ∈ pageAddrs sp, (ppa2pgidxInt sp p).toNat = ppa2pgidx sp p
  /-- Coordinates are read from the bit-fields as they were put there, -/
  unpack : ∀ c : PageCoord, c.In sp → c.pack.coord = c
  /-- and make up the address of the page again. -/
  pack : ∀ p ∈ pageAddrs sp, p.coord.In sp ∧ p.coord.pack = p
  /-- The word and its bit-fields are the same data. -/
  word : (∀ p : Ppa, Ppa.ofWord p.ppa = p) ∧ ∀ w, (Ppa.ofWord w).ppa = w
  /-- A new page is at an address other than `UNMAPPED_PPA`. -/
  mapped : ∀ s : Ssd, s.getNewPage.1.ppa ≠ BitVec.allOnes 64 ∧ mappedPpa s.getNewPage.1 = true

/-! ## packing -/

section Numbering

variable {sp : SsdParams}

theorem PageCoord.In.coord_pack (hw : PpaWidths sp) {c : PageCoord} (hc : c.In sp) :
    c.pack.coord = c := by
  obtain ⟨ch, lun, pl, blk, pg⟩ := c
  simp only [PageCoord.pack, mkPpa, Ppa.coord, toNat_ofNat_of_lt hw.nchs hc.ch,
    toNat_ofNat_of_lt hw.lunsPerCh hc.lun, toNat_ofNat_of_lt hw.plsPerLun hc.pl,
    toNat_ofNat_of_lt hw.blksPerPl hc.blk, toNat_ofNat_of_lt hw.pgsPerBlk hc.pg]

theorem Ppa.pack_coord {p : Ppa} (hsec : p.sec = 0) (hrsv : p.rsv = 0) : p.coord.pack = p := by
  obtain ⟨blk, pg, sec, pl, lun, ch, rsv⟩ := p
  subst hsec hrsv
  simp [PageCoord.pack, mkPpa, Ppa.coord]

/-- With a sector in each page an address is accepted by its coordinates. -/
theorem validPpa_iff (hsecs : 0 < sp.secsPerPg) {p : Ppa} (hsec : p.sec = 0) :
    validPpa sp p ↔ p.coord.In sp := by
  have hz : p.sec.toNat = 0 := by rw [hsec]; rfl
  simp only [validPpa, hz, hsecs, decide_true, Bool.and_true, Bool.and_eq_true, decide_eq_true_eq]
  constructor
  · rintro ⟨⟨⟨⟨hch, hlun⟩, hpl⟩, hblk⟩, hpg⟩
    exact ⟨hch, hlun, hpl, hblk, hpg⟩
  · rintro ⟨hch, hlun, hpl, hblk, hpg⟩
    exact ⟨⟨⟨⟨hch, hlun⟩, hpl⟩, hblk⟩, hpg⟩

/-! ## numbering -/

/-- The dimensions, as the bases of the page numbers. -/
def pageBases (sp : SsdParams) : List Nat :=
  [sp.nchs, sp.lunsPerCh, sp.plsPerLun, sp.blksPerPl, sp.pgsPerBlk]

/-- The coordinates, as the digits of the page numbers. -/
def PageCoord.digits (c : PageCoord) : List Nat := [c.ch, c.lun, c.pl, c.blk, c.pg]

theorem digits_page_iff {c : PageCoord} : Digits (pageBases sp) c.digits ↔ c.In sp := by
  simp only [Digits, pageBases, PageCoord.digits, List.forall₂_cons, List.Forall₂.nil, and_true]
  constructor
  · rintro ⟨hch, hlun, hpl, hblk, hpg⟩
    exact ⟨hch, hlun, hpl, hblk, hpg⟩
  · rintro ⟨hch, hlun, hpl, hblk, hpg⟩
    exact ⟨hch, hlun, hpl, hblk, hpg⟩

theorem prod_pageBases (sp : SsdParams) : (pageBases sp).prod = sp.ttPgs := by
  simp only [pageBases, List.prod_cons, List.prod_nil, SsdParams.ttPgs, SsdParams.pgsPerCh,
    SsdParams.pgsPerLun, SsdParams.pgsPerPl]
  ring

/-- The page number is the number with the coordinates as digits. -/
theorem ppa2pgidx_eq_number (sp : SsdParams) (p : Ppa) :
    ppa2pgidx sp p = number (pageBases sp) p.coord.digits := by
  simp only [ppa2pgidx, pageBases, PageCoord.digits, Ppa.coord, number, List.prod_cons,
    List.prod_nil, SsdParams.pgsPerCh, SsdParams.pgsPerLun, SsdParams.pgsPerPl]
  ring

theorem coord_bijOn (hw : PpaWidths sp) (hsecs : 0 < sp.secsPerPg) :
    Set.BijOn (fun p : Ppa => p.coord.digits) (pageAddrs sp) {ds | Digits (pageBases sp) ds} := by
  refine ⟨?_, ?_, ?_⟩
  · rintro p ⟨hv, hsec, -⟩
    exact digits_page_iff.mpr ((validPpa_iff hsecs hsec).mp hv)
  · rintro p ⟨-, hsec, hrsv⟩ q ⟨-, hsec', hrsv'⟩ heq
    have hcoord : p.coord = q.coord := by
      simp only [PageCoord.digits, List.cons.injEq, and_true] at heq
      obtain ⟨hch, hlun, hpl, hblk, hpg⟩ := heq
      exact PageCoord.ext hch hlun hpl hblk hpg
    rw [← Ppa.pack_coord hsec hrsv, hcoord, Ppa.pack_coord hsec' hrsv']
  · intro ds hds
    obtain _ | ⟨hch, _ | ⟨hlun, _ | ⟨hpl, _ | ⟨hblk, _ | ⟨hpg, ⟨⟩⟩⟩⟩⟩⟩ := hds
    have hin : PageCoord.In sp ⟨_, _, _, _, _⟩ := ⟨hch, hlun, hpl, hblk, hpg⟩
    have hcoord := hin.coord_pack hw
    refine ⟨_, ⟨(validPpa_iff hsecs rfl).mpr (hcoord.symm ▸ hin), rfl, rfl⟩, ?_⟩
    exact congrArg PageCoord.digits hcoord

theorem ppa2pgidx_bijOn (hw : PpaWidths sp) (hsecs : 0 < sp.secsPerPg) :
    Set.BijOn (ppa2pgidx sp) (pageAddrs sp) (Set.Iio sp.ttPgs) := by
  rw [← prod_pageBases]
  exact ((number_bijOn (pageBases sp)).comp (coord_bijOn hw hsecs)).congr fun p _ =>
    (ppa2pgidx_eq_number sp p).symm

theorem ppa2pgidxInt_eq (sp : SsdParams) (p : Ppa) :
    ppa2pgidxInt sp p = (Int32.ofNat (ppa2pgidx sp p)).toInt64.toUInt64 := by
  simp only [ppa2pgidxInt, SsdParams.pgsPerChInt, SsdParams.pgsPerLunInt, SsdParams.pgsPerPlInt,
    ← Int32.ofNat_mul, ← Int32.ofNat_add]
  rfl

theorem toNat_ppa2pgidxInt {p : Ppa} (h : ppa2pgidx sp p < 2 ^ 31) :
    (ppa2pgidxInt sp p).toNat = ppa2pgidx sp p := by
  have hpos : 0 ≤ (Int32.ofNat (ppa2pgidx sp p)).toInt64 := by
    rw [Int64.le_iff_toInt_le, Int32.toInt_toInt64, Int32.toInt_ofNat_of_lt h]
    exact Int.natCast_nonneg _
  rw [ppa2pgidxInt_eq, Int64.toNat_toUInt64_of_le hpos, Int32.toNatClampNeg_toInt64,
    Int32.toNatClampNeg_ofNat_of_lt h]

/-! ## main result -/

/-- The reserved bit of an address that is cleared first stays clear. -/
theorem getNewPage_ne_unmapped (s : Ssd) : s.getNewPage.1 ≠ unmappedPpa := by
  intro h
  have hrsv : (0 : BitVec 1) = BitVec.allOnes 1 := congrArg Ppa.rsv h
  exact absurd hrsv (by decide)

/-- **Page numbers**: with a sector or more in each page, dimensions within the bit-fields
and a number of pages within `int`, pages and page numbers are one to one. -/
theorem pages_numbered (hw : PpaWidths sp) (hsecs : 0 < sp.secsPerPg) (htt : sp.ttPgs < 2 ^ 31) :
    PagesNumbered sp where
  index := ppa2pgidx_bijOn hw hsecs
  indexInt p hp := by
    have hlt := (ppa2pgidx_bijOn hw hsecs).mapsTo hp
    exact toNat_ppa2pgidxInt (Nat.lt_trans hlt htt)
  unpack c hc := hc.coord_pack hw
  pack p hp := ⟨(validPpa_iff hsecs hp.2.1).mp hp.1, Ppa.pack_coord hp.2.1 hp.2.2⟩
  word := ⟨Ppa.ofWord_ppa, Ppa.ppa_ofWord⟩
  mapped s := by
    have hne := getNewPage_ne_unmapped s
    refine ⟨fun hword => hne ?_, by simpa [mappedPpa] using hne⟩
    rw [← Ppa.ofWord_ppa s.getNewPage.1, hword, ← ppa_unmappedPpa, Ppa.ofWord_ppa]

end Numbering

theorem ppaWidths_ssdInitParams : PpaWidths ssdInitParams :=
  ⟨representable_ssdInitParams, by decide⟩

/-- The geometry the controller starts with. -/
theorem pages_numbered_ssdInitParams : PagesNumbered ssdInitParams :=
  pages_numbered ppaWidths_ssdInitParams (by decide) (by decide)

/-- The same without a sector in its pages. -/
def ssdNoSectors : SsdParams := { ssdInitParams with secsPerPg := 0 }

/-- `valid_ppa` does not look at the reserved bit: in the geometry the controller starts
with, an accepted address and the same with the bit set have one number. And without a
sector in a page it accepts no address at all. -/
theorem reserved_bit_aliases :
    (PpaWidths ssdInitParams ∧ ssdInitParams.ttPgs < 2 ^ 31 ∧
      ¬ Set.BijOn (ppa2pgidx ssdInitParams) {p | validPpa ssdInitParams p ∧ p.sec = 0}
        (Set.Iio ssdInitParams.ttPgs)) ∧
    (PpaWidths ssdNoSectors ∧ ssdNoSectors.ttPgs < 2 ^ 31 ∧
      ¬ Set.BijOn (ppa2pgidx ssdNoSectors) (pageAddrs ssdNoSectors)
        (Set.Iio ssdNoSectors.ttPgs)) := by
  refine ⟨⟨ppaWidths_ssdInitParams, by decide, fun h => ?_⟩,
    ⟨⟨by decide, by decide, by decide, by decide⟩, by decide⟩, by decide, fun h => ?_⟩
  · let p := mkPpa 0 0 0 0
    let q : Ppa := { p with rsv := 1 }
    have hp : validPpa ssdInitParams p ∧ p.sec = 0 := ⟨by decide, rfl⟩
    have hq : validPpa ssdInitParams q ∧ q.sec = 0 := ⟨by decide, rfl⟩
    have heq : p = q := h.injOn hp hq rfl
    exact absurd (congrArg Ppa.rsv heq) (by decide)
  · obtain ⟨p, ⟨hv, -⟩, -⟩ := h.surjOn (show 0 ∈ Set.Iio ssdNoSectors.ttPgs by decide)
    simp [validPpa, ssdNoSectors] at hv

end Femu.Bbssd

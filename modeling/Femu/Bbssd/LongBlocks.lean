import Femu.Bbssd.Invariant

/-!
# Femu.Bbssd.LongBlocks

An SSD whose blocks have one page more than the `pg` field of `struct ppa` can number: the last
page of a block has the address of the first, so that a collection copies what is there twice.

`OnPage` is where the write pointer is, `Writing` adds the ledger of the lines; a write to a fresh
line, a collection and an overwrite each have their lemma over these.
-/

namespace Femu.Bbssd

open Lib

/-- A geometry of four lines, each one block of 2^16 + 1 pages. -/
def longSsd : SsdParams where
  secsPerPg := 1
  pgsPerBlk := 65537
  blksPerPl := 4
  plsPerLun := 1
  lunsPerCh := 1
  nchs := 1
  pgRdLat := 40000
  pgWrLat := 200000
  blkErLat := 2000000
  gcThresLines := 1
  gcThresLinesHigh := 1
  enableGcDelay := true

/-- The last page of a block has the address of the first. -/
theorem mkPpa_last (ch lun blk : Nat) : mkPpa ch lun blk 65536 = mkPpa ch lun blk 0 := rfl

/-! ## one page -/

/-- `writeNewPage` up to the move of the write pointer. -/
def Ssd.programmed (s : Ssd) (lpn : Nat) : Ssd :=
  let (ppa, s) := s.getNewPage
  ((s.setMaptblEnt lpn ppa).setRmapEnt lpn ppa).markPageValid ppa

/-- The write pointer is on page `k` of line `c`. -/
structure OnPage (s : Ssd) (c k : Nat) : Prop where
  sp : s.sp = longSsd
  wp : s.wp = { curline := c, ch := 0, lun := 0, pg := k, blk := c, pl := 0 }

namespace OnPage

variable {s t : Ssd} {c k lpn : Nat} {p : Ppa}

theorem same (h : OnPage s c k) (hs : SameFtl s t) : OnPage t c k :=
  ⟨hs.sp.trans h.sp, hs.wp.trans h.wp⟩

theorem getNewPage (h : OnPage s c k) : s.getNewPage.1 = mkPpa 0 0 c k := by
  simp only [Ssd.getNewPage, h.wp]
  rfl

/-- Before the last page the write pointer goes on to the next one. -/
theorem next (h : OnPage s c k) (hk : k + 1 ≠ 65537) (hw : s.writeNewPage lpn = some (p, t)) :
    t = { s.programmed lpn with
      wp := { curline := c, ch := 0, lun := 0, pg := k + 1, blk := c, pl := 0 } } := by
  obtain ⟨u, hu, heq⟩ := Option.map_eq_some_iff.mp hw
  cases heq
  obtain ⟨wp, hmove, hadv⟩ | ⟨hlast, -⟩ := (s.programmed lpn).ssdAdvanceWritePointer_cases
  · have hmove' : Ssd.WpMove s.sp s.wp wp := hmove
    rw [h.sp, h.wp] at hmove'
    cases hmove' with
    | ch hch => exact absurd rfl hch
    | lun _ hlun => exact absurd rfl hlun
    | pg _ _ _ => exact Option.some.inj (hu.symm.trans hadv)
  · have hpg : s.wp.pg + 1 = s.sp.pgsPerBlk := hlast.pg
    rw [h.sp, h.wp] at hpg
    exact absurd hpg hk

/-- After the last page another line is taken. -/
theorem last (h : OnPage s c 65536) (hw : s.writeNewPage lpn = some (p, t)) :
    (s.programmed lpn).nextLine = some t := by
  obtain ⟨u, hu, heq⟩ := Option.map_eq_some_iff.mp hw
  cases heq
  obtain ⟨wp, hmove, -⟩ | ⟨-, hadv⟩ := (s.programmed lpn).ssdAdvanceWritePointer_cases
  · have hmove' : Ssd.WpMove s.sp s.wp wp := hmove
    rw [h.sp, h.wp] at hmove'
    cases hmove' with
    | ch hch => exact absurd rfl hch
    | lun _ hlun => exact absurd rfl hlun
    | pg _ _ hpg => exact absurd rfl hpg
  · exact hadv.symm.trans hu

end OnPage

/-- What writing `lpn` to the page `p` does to the mapping and to the page states. -/
structure Wrote (s t : Ssd) (lpn : Nat) (p : Ppa) : Prop where
  maptbl : t.maptbl = Function.update s.maptbl lpn p
  page : t.getPg p = .valid
  valid : ∀ q, s.getPg q = .valid → t.getPg q = .valid

theorem wrote_programmed (s : Ssd) (lpn : Nat) :
    Wrote s (s.programmed lpn) lpn s.getNewPage.1 := by
  have hpg : ∀ q, (s.programmed lpn).getPg q =
      if q.blkAddr = s.getNewPage.1.blkAddr ∧ q.pg.toNat = s.getNewPage.1.pg.toNat then .valid
      else s.getPg q :=
    fun q => pg_setPage .valid rfl q.blkAddr q.pg.toNat
  refine ⟨rfl, ?_, fun q hq => ?_⟩
  · rw [hpg, if_pos ⟨rfl, rfl⟩]
  · rw [hpg]
    split
    · rfl
    · exact hq

/-- Only the mapping and the page states matter. -/
theorem Wrote.congr {s t u : Ssd} {lpn : Nat} {p : Ppa} (h : Wrote s t lpn p)
    (hm : u.maptbl = t.maptbl) (hblk : u.blk = t.blk) : Wrote s u lpn p where
  maptbl := hm.trans h.maptbl
  page := by
    rw [Ssd.getPg, hblk]
    exact h.page
  valid q hq := by
    rw [Ssd.getPg, hblk]
    exact h.valid q hq

/-- The write pointer is on page `k` of line `c`, and `loc`, `v`, `i` is the ledger of the lines. -/
structure Writing (s : Ssd) (loc : Nat → Place) (v i : Nat → Nat) (c k : Nat) : Prop
    extends OnPage s c k where
  lines : LineInv s.lm 4 loc v i
  line : c < 4
  cur : loc c = .cur
  empty : ∀ l, loc l = .free → v l = 0

namespace Writing

variable {s t : Ssd} {loc : Nat → Place} {v i : Nat → Nat} {c k lpn : Nat} {p : Ppa}

theorem same (h : Writing s loc v i c k) (hs : SameFtl s t) : Writing t loc v i c k :=
  { h with
    toOnPage := h.toOnPage.same hs
    lines := hs.lm ▸ h.lines }

/-- The page is counted as a valid page of the line. -/
theorem programmed (h : Writing s loc v i c k) (lpn : Nat) :
    Writing (s.programmed lpn) loc (Function.update v c (v c + 1)) i c k where
  sp := h.sp
  wp := h.wp
  lines := by
    have hblk : s.getNewPage.1.blk.toNat = c := by
      rw [h.getNewPage]
      exact toNat_ofNat_of_lt (by decide) h.line
    have hlm : (s.programmed lpn).lm = s.lm.pageValid s.getNewPage.1.blk.toNat := rfl
    rw [hlm, hblk]
    exact h.lines.pageValid h.line
  line := h.line
  cur := h.cur
  empty l hl := by
    have hlc : l ≠ c := by
      rintro rfl
      rw [h.cur] at hl
      cases hl
    rw [Function.update_of_ne hlc, h.empty l hl]

/-- A page before the last one of the line. -/
theorem next (h : Writing s loc v i c k) (hk : k + 1 ≠ 65537)
    (hw : s.writeNewPage lpn = some (p, t)) :
    Writing t loc (Function.update v c (v c + 1)) i c (k + 1) ∧
      Wrote s t lpn (mkPpa 0 0 c k) ∧ t.lm.freeLineCnt = s.lm.freeLineCnt := by
  have hprog := h.programmed lpn
  have hwrote := wrote_programmed s lpn
  rw [h.getNewPage] at hwrote
  rw [h.toOnPage.next hk hw]
  exact ⟨{ hprog with toOnPage := ⟨hprog.sp, rfl⟩ }, hwrote.congr rfl rfl, rfl⟩

/-- The last page of the line: the line is put away, and a free one is taken. -/
theorem last (h : Writing s loc v i c 65536) (hw : s.writeNewPage lpn = some (p, t)) :
    ∃ c', loc c' = .free ∧
      Writing t (switched loc c c' (if v c + 1 = 65537 then .full else .victim))
        (Function.update v c (v c + 1)) i c' 0 ∧
      Wrote s t lpn (mkPpa 0 0 c 65536) ∧ t.lm.freeLineCnt = s.lm.freeLineCnt - 1 := by
  have hprog := h.programmed lpn
  have hwrote := wrote_programmed s lpn
  rw [h.getNewPage] at hwrote
  have hnext := h.toOnPage.last hw
  rw [Ssd.nextLine, hprog.wp, hprog.sp] at hnext
  have hretired := hprog.lines.retire (P := 65537) hprog.line hprog.cur
  split at hnext
  · contradiction
  next c' lm hlm =>
  cases hnext
  obtain ⟨hc', hfree, hlines, hcnt⟩ := hretired.getNextFreeLine hlm
  rw [Function.update_self] at hfree hlines
  obtain ⟨-, hwas⟩ := of_update_eq hfree (by split <;> decide)
  refine ⟨c', hwas, {
    sp := rfl
    wp := by simp only [hlines.id c' hc']
    lines := hlines
    line := hc'
    cur := switched_new
    empty := fun l hl => ?_ }, hwrote.congr rfl rfl, by rw [hcnt, LineMgmt.retire_freeLineCnt]; rfl⟩
  obtain ⟨-, hl⟩ := of_update_eq hl (by decide)
  exact hprog.empty l (of_update_eq hl (by split <;> decide)).2

/-! ## writes to a fresh line -/

/-- What writing the `n` logical pages from `a` on to the line `c` does. -/
structure Filled (s t : Ssd) (loc : Nat → Place) (v i : Nat → Nat) (c a n : Nat) : Prop where
  writing : Writing t loc (Function.update v c n) i c n
  cnt : t.lm.freeLineCnt = s.lm.freeLineCnt
  mapped : ∀ j < n, t.maptbl (a + j) = mkPpa 0 0 c j
  unmapped : ∀ l, a + n ≤ l → t.maptbl l = s.maptbl l
  valid : ∀ j < n, t.getPg (mkPpa 0 0 c j) = .valid

theorem filled_zero (h : Writing s loc v i c 0) (hv : v c = 0) (a : Nat) :
    Filled s s loc v i c a 0 where
  writing := by
    rw [← hv, Function.update_eq_self]
    exact hv.symm ▸ h
  cnt := rfl
  mapped j hj := absurd hj (Nat.not_lt_zero j)
  unmapped _ _ := rfl
  valid j hj := absurd hj (Nat.not_lt_zero j)

variable {a n stime maxlat : Nat} {x : Nat × Ssd}

/-- A logical page that is not mapped has no old page. -/
theorem writePage_unmapped (hun : s.maptbl lpn = unmappedPpa)
    (hw : Ssd.writePage stime lpn (maxlat, s) = some x) :
    ∃ p u, s.writeNewPage lpn = some (p, u) ∧ SameFtl u x.2 := by
  obtain ⟨⟨p, u⟩, hu, rfl⟩ := Option.map_eq_some_iff.mp hw
  have hold : s.invalidateOld lpn = s := by simp [Ssd.invalidateOld, hun]
  rw [hold] at hu
  exact ⟨p, u, hu, sameFtl_ssdAdvanceStatus u p { cmd := .write, stime := stime }⟩

/-- One more logical page, the line not yet written out. -/
theorem Filled.step (h : Filled s t loc v i c a n) (hn : n + 1 ≠ 65537)
    (hun : s.maptbl (a + n) = unmappedPpa)
    (hw : Ssd.writePage stime (a + n) (maxlat, t) = some x) :
    Filled s x.2 loc v i c a (n + 1) := by
  have hun' := (h.unmapped (a + n) (Nat.le_refl _)).trans hun
  obtain ⟨p, u, hu, hsame⟩ := writePage_unmapped hun' hw
  obtain ⟨hwriting, hwrote, hcnt⟩ := h.writing.next hn hu
  rw [Function.update_self, Function.update_idem] at hwriting
  have hwrote := hwrote.congr hsame.maptbl hsame.blk
  refine ⟨hwriting.same hsame, by rw [hsame.lm, hcnt, h.cnt], fun j hj => ?_, fun l hl => ?_,
    fun j hj => ?_⟩
  · rw [hwrote.maptbl]
    by_cases hjn : j = n
    · rw [hjn, Function.update_self]
    · rw [Function.update_of_ne (by omega), h.mapped j (by omega)]
  · rw [hwrote.maptbl, Function.update_of_ne (by omega), h.unmapped l (by omega)]
  · by_cases hjn : j = n
    · exact hjn ▸ hwrote.page
    · exact hwrote.valid _ (h.valid j (by omega))

/-- Logical pages that are not mapped are written to a fresh line. -/
theorem fill (h : Writing s loc v i c 0) (hv : v c = 0) (hn : n < 65537)
    (hun : ∀ j < n, s.maptbl (a + j) = unmappedPpa)
    (hw : forLoop (Ssd.writePage stime) n a (maxlat, s) = some x) :
    Filled s x.2 loc v i c a n := by
  have hloop := forLoop_partial
    (I := fun j x => ∃ m, j = a + m ∧ Filled s x.2 loc v i c a m)
    (fun j x x' _ hlt hI hstep => ?_) ⟨0, rfl, filled_zero h hv a⟩ hw
  · obtain ⟨m, hm, hfilled⟩ := hloop
    obtain rfl : n = m := by omega
    exact hfilled
  obtain ⟨m, rfl, hfilled⟩ := hI
  exact ⟨m + 1, rfl, hfilled.step (by omega) (hun m (by omega)) hstep⟩

/-- A whole line of them: the line is full. -/
theorem fillLine (h : Writing s loc v i c 0) (hv : v c = 0)
    (hun : ∀ j < 65537, s.maptbl (a + j) = unmappedPpa)
    (hw : forLoop (Ssd.writePage stime) 65537 a (maxlat, s) = some x) :
    ∃ c', loc c' = .free ∧
      Writing x.2 (switched loc c c' .full) (Function.update v c 65537) i c' 0 ∧
      x.2.lm.freeLineCnt = s.lm.freeLineCnt - 1 ∧
      ∀ l, a + 65537 ≤ l → x.2.maptbl l = s.maptbl l := by
  rw [show 65537 = 65536 + 1 from rfl, forLoop_snoc] at hw
  obtain ⟨⟨m, t⟩, ht, hlast⟩ := Option.bind_eq_some_iff.mp hw
  have hfilled := h.fill hv (by decide) (fun j hj => hun j (by omega)) ht
  have hun' := (hfilled.unmapped (a + 65536) (Nat.le_refl _)).trans (hun 65536 (by decide))
  obtain ⟨p, u, hu, hsame⟩ := writePage_unmapped hun' hlast
  obtain ⟨c', hfree, hwriting, hwrote, hcnt⟩ := hfilled.writing.last hu
  rw [Function.update_self, Function.update_idem, if_pos rfl] at hwriting
  refine ⟨c', hfree, hwriting.same hsame, by rw [hsame.lm, hcnt, hfilled.cnt], fun l hl => ?_⟩
  rw [hsame.maptbl, hwrote.maptbl, Function.update_of_ne (by omega)]
  exact hfilled.unmapped l (by omega)

/-! ## an overwrite -/

/-- The block `b` of a line has all its pages valid. -/
def AllValid (s : Ssd) (b : Nat) : Prop := ∀ j < 65537, s.getPg (mkPpa 0 0 b j) = .valid

/-- The old page of a mapped logical page, the first page of the line that is being written. -/
theorem invalidateOld (h : Writing s loc v i c k) (hpos : 0 < v c) (hlt : v c < 65537)
    (hold : s.maptbl lpn = mkPpa 0 0 c 0) :
    Writing (s.invalidateOld lpn) loc (Function.update v c (v c - 1))
        (Function.update i c (i c + 1)) c k ∧
      (∀ j, 0 < j → j < 65536 →
        (s.invalidateOld lpn).getPg (mkPpa 0 0 c j) = s.getPg (mkPpa 0 0 c j)) ∧
      (s.invalidateOld lpn).lm.freeLineCnt = s.lm.freeLineCnt := by
  have hmapped : mappedPpa (mkPpa 0 0 c 0) = true := by
    have hne : mkPpa 0 0 c 0 ≠ unmappedPpa := fun he =>
      absurd (congrArg Ppa.rsv he) (show (0 : BitVec 1) ≠ BitVec.allOnes 1 by decide)
    simpa [mappedPpa] using hne
  have heq : s.invalidateOld lpn =
      (s.markPageInvalid (mkPpa 0 0 c 0)).setRmapEnt invalidLpn (mkPpa 0 0 c 0) := by
    simp only [Ssd.invalidateOld, hold, hmapped, if_true]
  have hcur : loc c ≠ .full := by
    rw [h.cur]
    decide
  have hlines := h.lines.pageInvalid (P := 65537) h.line (by rw [h.cur]; decide) hpos (by omega)
    (iff_of_false (by omega) hcur)
  rw [if_neg hcur, Function.update_eq_self] at hlines
  rw [heq]
  refine ⟨{ h with lines := ?_, empty := fun l hl => ?_ }, fun j hj0 hj => ?_,
    LineMgmt.pageInvalid_freeLineCnt ..⟩
  · have hlm : ((s.markPageInvalid (mkPpa 0 0 c 0)).setRmapEnt invalidLpn (mkPpa 0 0 c 0)).lm =
        s.lm.pageInvalid s.sp.pgsPerLine (mkPpa 0 0 c 0).blk.toNat := rfl
    rw [hlm, h.sp, show (mkPpa 0 0 c 0).blk.toNat = c from toNat_ofNat_of_lt (by decide) h.line]
    exact hlines
  · have hlc : l ≠ c := by
      rintro rfl
      rw [h.cur] at hl
      cases hl
    rw [Function.update_of_ne hlc, h.empty l hl]
  · have hpg : (s.markPageInvalid (mkPpa 0 0 c 0)).getPg (mkPpa 0 0 c j) =
        if (mkPpa 0 0 c j).blkAddr = (mkPpa 0 0 c 0).blkAddr ∧
            (mkPpa 0 0 c j).pg.toNat = (mkPpa 0 0 c 0).pg.toNat then .invalid
        else s.getPg (mkPpa 0 0 c j) := pg_setPage .invalid rfl _ _
    have hj' : (mkPpa 0 0 c j).pg.toNat = j := toNat_ofNat_of_lt (by decide) hj
    refine hpg.trans (if_neg fun hsame => ?_)
    rw [hj'] at hsame
    exact absurd hsame.2 (Nat.ne_of_gt hj0)

/-- The first page of a line is overwritten by the last: they are one page, so all pages of the
line are valid, but the line counts an invalid one. -/
theorem overwrite (h : Writing s loc v i c 65536) (hv : v c = 65536)
    (hold : s.maptbl lpn = mkPpa 0 0 c 0)
    (hvalid : ∀ j < 65536, s.getPg (mkPpa 0 0 c j) = .valid)
    (hw : Ssd.writePage stime lpn (maxlat, s) = some x) :
    ∃ c', loc c' = .free ∧
      Writing x.2 (switched loc c c' .victim) (Function.update v c 65536)
        (Function.update i c (i c + 1)) c' 0 ∧
      AllValid x.2 c ∧ x.2.lm.freeLineCnt = s.lm.freeLineCnt - 1 := by
  obtain ⟨⟨p, u⟩, hu, rfl⟩ := Option.map_eq_some_iff.mp hw
  obtain ⟨hwriting, hpg, hcnt⟩ := h.invalidateOld (by omega) (by omega) hold
  obtain ⟨c', hfree, hwriting', hwrote, hcnt'⟩ := hwriting.last hu
  rw [Function.update_self, Function.update_idem, hv, if_neg (by decide)] at hwriting'
  have hsame := sameFtl_ssdAdvanceStatus u p { cmd := .write, stime := stime }
  have hwrote := hwrote.congr hsame.maptbl hsame.blk
  refine ⟨c', hfree, hwriting'.same hsame, fun j hj => ?_, by rw [hsame.lm, hcnt', hcnt]⟩
  by_cases hlast : j = 65536
  · exact hlast ▸ hwrote.page
  · by_cases hfirst : j = 0
    · rw [hfirst, ← mkPpa_last]
      exact hwrote.page
    · have hj' : j < 65536 := by omega
      exact hwrote.valid _ ((hpg j (by omega) hj').trans (hvalid j hj'))

/-! ## a collection -/

/-- Copying a valid page, by `gc_write_page`. -/
theorem cleanOnePage_valid {b j : Nat} (hv : s.getPg (mkPpa 0 0 b j) = .valid)
    (hw : Ssd.cleanOnePage (mkPpa 0 0 b 0) j s = some t) :
    ∃ r u p q, SameFtl s r ∧ r.writeNewPage (r.getRmapEnt q) = some (p, u) ∧ SameFtl u t := by
  unfold Ssd.cleanOnePage at hw
  dsimp only at hw
  rw [if_pos (show s.getPg { mkPpa 0 0 b 0 with pg := BitVec.ofNat _ j } = .valid from hv)] at hw
  obtain ⟨⟨p, u⟩, hu, rfl⟩ := Option.map_eq_some_iff.mp hw
  exact ⟨_, u, p, _, sameFtl_gcDelay s _ .read, hu,
    (sameFtl_gcDelay u p .write).trans (sameFtl_setGcEndtime _ p)⟩

theorem AllValid.same {b : Nat} (h : AllValid s b) (hs : SameFtl s t) : AllValid t b := by
  intro j hj
  rw [Ssd.getPg, hs.blk]
  exact h j hj

theorem AllValid.wrote {b : Nat} (h : AllValid s b) (hs : Wrote s t lpn p) : AllValid t b :=
  fun j hj => hs.valid _ (h j hj)

/-- A block whose pages are all valid is copied to a fresh line, which is full then. -/
theorem cleanOneBlock {b : Nat} (h : Writing s loc v i c 0) (hv : v c = 0) (hb : AllValid s b)
    (hw : s.cleanOneBlock (mkPpa 0 0 b 0) = some t) :
    ∃ c', loc c' = .free ∧
      Writing t (switched loc c c' .full) (Function.update v c 65537) i c' 0 ∧
      t.lm.freeLineCnt = s.lm.freeLineCnt - 1 := by
  rw [Ssd.cleanOneBlock, h.sp, show longSsd.pgsPerBlk = 65536 + 1 from rfl, forLoop_snoc] at hw
  obtain ⟨u, hu, hlast⟩ := Option.bind_eq_some_iff.mp hw
  have hloop := forLoop_partial
    (I := fun j r => Writing r loc (Function.update v c j) i c j ∧ AllValid r b ∧
      r.lm.freeLineCnt = s.lm.freeLineCnt)
    (fun j r r' _ hlt hI hstep => ?_)
    ⟨by rw [← hv, Function.update_eq_self]; exact hv.symm ▸ h, hb, rfl⟩ hu
  · obtain ⟨hwriting, hvalid, hcnt⟩ := hloop
    obtain ⟨r, t', p, q, hr, ht, hsame⟩ := cleanOnePage_valid (hvalid _ (by decide)) hlast
    obtain ⟨c', hfree, hwriting', -, hcnt'⟩ := (hwriting.same hr).last ht
    rw [Function.update_self, Function.update_idem, if_pos rfl] at hwriting'
    exact ⟨c', hfree, hwriting'.same hsame, by rw [hsame.lm, hcnt', hr.lm, hcnt]⟩
  obtain ⟨hwriting, hvalid, hcnt⟩ := hI
  obtain ⟨t', u', p, q, hr, ht, hsame⟩ := cleanOnePage_valid (hvalid j (by omega)) hstep
  obtain ⟨hwriting', hwrote, hcnt'⟩ := (hwriting.same hr).next (by omega) ht
  rw [Function.update_self, Function.update_idem] at hwriting'
  exact ⟨hwriting'.same hsame, ((hvalid.same hr).wrote hwrote).same hsame,
    by rw [hsame.lm, hcnt', hr.lm, hcnt]⟩

/-- The only block of a line: its pages are copied, and it is erased. -/
theorem gcLine_one {b : Nat} (hsp : s.sp = longSsd) (hw : s.gcLine b = some t) :
    ∃ u, s.cleanOneBlock (mkPpa 0 0 b 0) = some u ∧
      SameFtl (u.markBlockFree (mkPpa 0 0 b 0)) t := by
  rw [Ssd.gcLine, hsp] at hw
  obtain ⟨t', hch, ht⟩ := Option.bind_eq_some_iff.mp hw
  cases ht
  obtain ⟨t', hlun, ht⟩ := Option.bind_eq_some_iff.mp hch
  cases ht
  obtain ⟨u, hu, rfl⟩ := Option.map_eq_some_iff.mp hlun
  exact ⟨u, hu, (sameFtl_gcDelay _ _ .erase).trans (sameFtl_setGcEndtime _ _)⟩

/-- The collected line is free again. -/
theorem markLineFree (h : Writing s loc v i c k) {b : Nat} (hb : b < 4) (hgc : loc b = .gc) :
    Writing (s.markLineFree b) (Function.update loc b .free) (Function.update v b 0)
      (Function.update i b 0) c k where
  sp := h.sp
  wp := h.wp
  lines := by
    rw [Ssd.markLineFree, show (mkPpa 0 0 b 0).blk.toNat = b from toNat_ofNat_of_lt (by decide) hb]
    exact h.lines.markLineFree hb hgc
  line := h.line
  cur := by
    rw [Function.update_of_ne, h.cur]
    rintro rfl
    rw [h.cur] at hgc
    cases hgc
  empty l hl := by
    by_cases hlb : l = b
    · rw [hlb, Function.update_self]
    · rw [Function.update_of_ne hlb] at hl ⊢
      exact h.empty l hl

/-- Without a victim `do_gc` does nothing. -/
theorem doGc_none (h : Writing s loc v i c k) (hno : ∀ l < 4, loc l ≠ .victim) {r : Int}
    (hw : s.doGc true = some (r, t)) : r = -1 ∧ t = s := by
  unfold Ssd.doGc at hw
  split at hw
  · cases hw
    exact ⟨rfl, rfl⟩
  next b lm hlm =>
  obtain ⟨hb, hvic, -⟩ := h.lines.selectVictimLine hlm
  exact absurd hvic (hno b hb)

/-- The only victim is collected: the free line that its copies take is the one it becomes. -/
theorem doGc (h : Writing s loc v i c 0) (hv : v c = 0) {b : Nat} (hb : b < 4)
    (hvic : ∀ l < 4, loc l = .victim ↔ l = b) (hvalid : AllValid s b) {r : Int}
    (hw : s.doGc true = some (r, t)) :
    r = 0 ∧ t.lm.freeLineCnt = s.lm.freeLineCnt ∧
      ∃ loc' v' i' c', Writing t loc' v' i' c' 0 ∧ ∀ l < 4, loc' l ≠ .victim := by
  unfold Ssd.doGc at hw
  split at hw
  next hnone => exact absurd ((hvic b hb).mpr rfl) (h.lines.selectVictimLine_force hb hnone)
  next b' lm hlm =>
  obtain ⟨hb', hvic', hlines, hcnt⟩ := h.lines.selectVictimLine hlm
  obtain rfl : b' = b := (hvic b' hb').mp hvic'
  obtain ⟨u, hu, heq⟩ := Option.map_eq_some_iff.mp hw
  cases heq
  refine ⟨rfl, ?_⟩
  have hid := hlines.id b' hb'
  rw [hid] at hu ⊢
  have hgcne : ∀ a, loc a = .cur → Function.update loc b' .gc a = .cur := by
    intro a ha
    rw [Function.update_of_ne, ha]
    rintro rfl
    rw [hvic'] at ha
    cases ha
  have hwriting : Writing { s with lm := lm } (Function.update loc b' .gc) v i c 0 :=
    { h with
      lines := hlines
      cur := hgcne c h.cur
      empty := fun l hl => h.empty l (of_update_eq hl (by decide)).2 }
  obtain ⟨w, hw, hsame⟩ := gcLine_one hwriting.sp hu
  obtain ⟨c', hfree, hcopied, hcnt'⟩ := hwriting.cleanOneBlock hv hvalid hw
  -- the erased block is not counted by the lines
  have herased := Writing.same (s := w.markBlockFree (mkPpa 0 0 b' 0))
    { hcopied with toOnPage := ⟨hcopied.sp, hcopied.wp⟩ } hsame
  have hcb : c ≠ b' := by
    rintro rfl
    rw [h.cur] at hvic'
    cases hvic'
  have hcb' : b' ≠ c' := by
    rintro rfl
    rw [Function.update_self] at hfree
    cases hfree
  have hgc : switched (Function.update loc b' .gc) c c' .full b' = .gc := by
    rw [switched_of_ne hcb' hcb.symm, Function.update_self]
  have hfreed := herased.markLineFree hb' hgc
  refine ⟨?_, _, _, _, c', hfreed, fun l hl hl' => ?_⟩
  · change u.lm.freeLineCnt + 1 = _
    rw [hsame.lm]
    change w.lm.freeLineCnt + 1 = _
    rw [hcnt']
    change lm.freeLineCnt - 1 + 1 = _
    omega
  · obtain ⟨hlb, hl'⟩ := of_update_eq hl' (by decide)
    obtain ⟨-, hl'⟩ := of_update_eq hl' (by decide)
    obtain ⟨-, hl'⟩ := of_update_eq hl' (by decide)
    rw [Function.update_of_ne hlb] at hl'
    exact hlb ((hvic l hl).mp hl')

/-- With one free line the `while` loop of `ssd_write` collects the victim and ends without having
gained a line. -/
theorem gcHigh (h : Writing s loc v i c 0) (hv : v c = 0) {b : Nat} (hb : b < 4)
    (hvic : ∀ l < 4, loc l = .victim ↔ l = b) (hvalid : AllValid s b)
    (hone : s.lm.freeLineCnt = 1) {fuel : Nat} (hw : Ssd.gcHigh fuel s = some t) :
    t.lm.freeLineCnt = 1 ∧ ∃ c', OnPage t c' 0 := by
  have hhigh : ∀ u : Ssd, u.sp = longSsd → u.lm.freeLineCnt = 1 → u.shouldGcHigh = true := by
    intro u hsp hcnt
    rw [Ssd.shouldGcHigh, hsp, hcnt]
    rfl
  cases fuel with
  | zero => cases hw
  | succ fuel =>
    rw [Ssd.gcHigh, if_pos (hhigh s h.sp hone)] at hw
    obtain ⟨⟨r, u⟩, hu, hrest⟩ := Option.bind_eq_some_iff.mp hw
    obtain ⟨rfl, hcnt, loc', v', i', c', hwriting, hno⟩ := h.doGc hv hb hvic hvalid hu
    rw [hone] at hcnt
    dsimp only at hrest
    rw [if_neg (by decide)] at hrest
    cases fuel with
    | zero => cases hrest
    | succ fuel =>
      rw [Ssd.gcHigh, if_pos (hhigh u hwriting.sp hcnt)] at hrest
      obtain ⟨⟨r, w⟩, hstuck, hend⟩ := Option.bind_eq_some_iff.mp hrest
      obtain ⟨rfl, rfl⟩ := hwriting.doGc_none hno hstuck
      dsimp only at hend
      rw [if_pos rfl] at hend
      cases hend
      exact ⟨hcnt, c', hwriting.toOnPage⟩

end Writing

/-! ## any write of a line's worth of pages -/

section

variable {s t : Ssd} {c k lpn a stime maxlat : Nat} {x : Nat × Ssd}

theorem OnPage.invalidateOld (h : OnPage s c k) (lpn : Nat) :
    OnPage (s.invalidateOld lpn) c k ∧
      (s.invalidateOld lpn).lm.freeLineCnt = s.lm.freeLineCnt := by
  unfold Ssd.invalidateOld
  dsimp only
  split
  · exact ⟨⟨h.sp, h.wp⟩, LineMgmt.pageInvalid_freeLineCnt ..⟩
  · exact ⟨h, rfl⟩

/-- Whatever the pages held, the line is written out with them, and a free line is taken. -/
theorem OnPage.writeLine (h : OnPage s c 0)
    (hw : forLoop (Ssd.writePage stime) 65537 a (maxlat, s) = some x) :
    x.2.lm.freeLineCnt = s.lm.freeLineCnt - 1 := by
  rw [show 65537 = 65536 + 1 from rfl, forLoop_snoc] at hw
  obtain ⟨⟨m, t⟩, ht, hlast⟩ := Option.bind_eq_some_iff.mp hw
  have hloop := forLoop_partial
    (I := fun j x => ∃ n, j = a + n ∧ OnPage x.2 c n ∧ x.2.lm.freeLineCnt = s.lm.freeLineCnt)
    (fun j x x' _ hlt hI hstep => ?_) ⟨0, rfl, h, rfl⟩ ht
  · obtain ⟨n, hn, hpage, hcnt⟩ := hloop
    obtain rfl : n = 65536 := by omega
    obtain ⟨⟨p, u⟩, hu, rfl⟩ := Option.map_eq_some_iff.mp hlast
    obtain ⟨hpage', hcnt'⟩ := hpage.invalidateOld (a + 65536)
    have hnext := hpage'.last hu
    rw [Ssd.nextLine] at hnext
    split at hnext
    · contradiction
    next c' lm hlm =>
    cases hnext
    change lm.freeLineCnt = _
    rw [LineMgmt.getNextFreeLine_freeLineCnt hlm, LineMgmt.retire_freeLineCnt, ← hcnt, ← hcnt']
    rfl
  obtain ⟨n, rfl, hpage, hcnt⟩ := hI
  obtain ⟨⟨p, u⟩, hu, rfl⟩ := Option.map_eq_some_iff.mp hstep
  obtain ⟨hpage', hcnt'⟩ := hpage.invalidateOld (a + n)
  have hnext := hpage'.next (by omega) hu
  subst hnext
  exact ⟨n + 1, rfl, ⟨hpage'.sp, rfl⟩, hcnt'.trans hcnt⟩

/-! ## the calls -/

/-- A write to the SSD: the loop of `ssd_write` after the collections. -/
theorem step_write (hsp : s.sp = longSsd) {fuel slba nlb : Nat} (h0 : 0 < nlb)
    (hlt : slba + nlb < 2 ^ 64) (hw : s.step fuel (.write slba nlb stime) = some t) :
    ∃ u x, Ssd.gcHigh fuel s = some u ∧
      forLoop (Ssd.writePage stime) nlb slba (0, u) = some x ∧ x.2 = t := by
  obtain ⟨x, hx, rfl⟩ := Option.map_eq_some_iff.mp hw
  obtain ⟨u, hu, hloop⟩ := Option.bind_eq_some_iff.mp hx
  have hstart : s.sp.startLpn slba = slba := by
    rw [hsp]
    exact Nat.div_one slba
  have hend : s.sp.endLpn slba nlb + 1 - s.sp.startLpn slba = nlb := by
    rw [hstart, hsp]
    change (slba + nlb + (2 ^ 64 - 1)) % 2 ^ 64 / 1 + 1 - slba = nlb
    omega
  rw [hend, hstart] at hloop
  exact ⟨u, x, hu, hloop, rfl⟩

/-- With two free lines nothing is collected. -/
theorem gcHigh_none (hsp : s.sp = longSsd) (hcnt : 1 < s.lm.freeLineCnt) {fuel : Nat}
    (hw : Ssd.gcHigh fuel s = some t) : t = s := by
  have hhigh : s.shouldGcHigh = false := by
    rw [Ssd.shouldGcHigh, hsp, decide_eq_false_iff_not]
    exact Int.not_le.mpr hcnt
  cases fuel with
  | zero => cases hw
  | succ fuel =>
    rw [Ssd.gcHigh, if_neg (by rw [hhigh]; decide)] at hw
    cases hw
    rfl

end

/-- The first line is filled; the second one too, but for its last page, which goes to the logical
page of its first; then the first line is overwritten. -/
def longCalls : List FtlCall :=
  [.write 0 65537 0, .write 65537 65536 0, .write 65537 1 0, .write 0 65537 0]

theorem writing_ssdInit {clock : Nat → Nat} {s : Ssd}
    (hw : Ssd.ssdInit longSsd clock = some s) :
    ∃ c, Writing s (Function.update (fun _ => .free) c .cur) (fun _ => 0) (fun _ => 0) c 0 ∧
      s.lm.freeLineCnt = 3 ∧ ∀ l, s.maptbl l = unmappedPpa := by
  unfold Ssd.ssdInit at hw
  split at hw
  · contradiction
  next c lm hfree =>
  cases hw
  obtain ⟨hc, -, hlines, hcnt⟩ := (LineInv.ssdInitLines 4).getNextFreeLine hfree
  obtain rfl : c = 0 := (Option.some.inj (congrArg (Option.map Prod.fst) hfree)).symm
  exact ⟨0, ⟨⟨rfl, rfl⟩, hlines, hc, Function.update_self .., fun _ _ => rfl⟩, hcnt, fun _ => rfl⟩

/-- After the calls no line is free. -/
theorem long_run {clock : Nat → Nat} {fuel : Nat} {s : Ssd}
    (hrun : ssdRun longSsd clock fuel longCalls = some s) : s.lm.freeLineCnt = 0 := by
  obtain ⟨s₀, hinit, hrun⟩ := Option.bind_eq_some_iff.mp hrun
  obtain ⟨s₁, hw₁, hrun⟩ := Option.bind_eq_some_iff.mp hrun
  obtain ⟨s₂, hw₂, hrun⟩ := Option.bind_eq_some_iff.mp hrun
  obtain ⟨s₃, hw₃, hrun⟩ := Option.bind_eq_some_iff.mp hrun
  obtain ⟨s₄, hw₄, hrun⟩ := Option.bind_eq_some_iff.mp hrun
  cases hrun
  obtain ⟨c₀, h₀, hcnt₀, hun₀⟩ := writing_ssdInit hinit
  -- the first line is full
  obtain ⟨u₁, x₁, hgc₁, hloop₁, rfl⟩ := step_write h₀.sp (by decide) (by decide) hw₁
  obtain rfl := gcHigh_none h₀.sp (by rw [hcnt₀]; decide) hgc₁
  obtain ⟨c₁, hfree₁, h₁, hcnt₁, hun₁⟩ := h₀.fillLine rfl (fun j _ => hun₀ _) hloop₁
  rw [hcnt₀] at hcnt₁
  have hc₁ : c₁ ≠ c₀ := (of_update_eq hfree₁ (by decide)).1
  -- the second one lacks a page
  obtain ⟨u₂, x₂, hgc₂, hloop₂, rfl⟩ := step_write h₁.sp (by decide) (by decide) hw₂
  obtain rfl := gcHigh_none h₁.sp (by rw [hcnt₁]; decide) hgc₂
  have h₂ := h₁.fill (by rw [Function.update_of_ne hc₁]) (by decide)
    (fun j _ => (hun₁ _ (by omega)).trans (hun₀ _)) hloop₂
  have hcnt₂ := h₂.cnt.trans hcnt₁
  -- the page is written over its first one
  obtain ⟨u₃, x₃, hgc₃, hloop₃, rfl⟩ := step_write h₂.writing.sp (by decide) (by decide) hw₃
  obtain rfl := gcHigh_none h₂.writing.sp (by rw [hcnt₂]; decide) hgc₃
  obtain ⟨y, hy, heq⟩ := Option.bind_eq_some_iff.mp hloop₃
  cases heq
  obtain ⟨c₃, hfree₃, h₃, hvalid, hcnt₃⟩ := h₂.writing.overwrite (Function.update_self ..)
    (h₂.mapped 0 (by decide)) h₂.valid hy
  rw [hcnt₂] at hcnt₃
  have hc₃ : c₁ ≠ c₃ := by
    rintro rfl
    rw [switched_new] at hfree₃
    cases hfree₃
  have hvic : ∀ l < 4, switched (switched (Function.update (fun _ => .free) c₀ .cur) c₀ c₁ .full)
      c₁ c₃ .victim l = .victim ↔ l = c₁ := by
    intro l _
    constructor
    · intro hl
      by_contra hne
      obtain ⟨-, hl⟩ := of_update_eq hl (by decide)
      rw [Function.update_of_ne hne] at hl
      obtain ⟨-, hl⟩ := of_update_eq hl (by decide)
      obtain ⟨-, hl⟩ := of_update_eq hl (by decide)
      obtain ⟨-, hl⟩ := of_update_eq hl (by decide)
      cases hl
    · rintro rfl
      exact switched_old hc₃
  -- it is collected, and the free line that this takes is the one it gives back
  obtain ⟨u₄, x₄, hgc₄, hloop₄, rfl⟩ := step_write h₃.sp (by decide) (by decide) hw₄
  have hv₃ : Function.update _ c₁ 65536 c₃ = 0 :=
    (Function.update_of_ne hc₃.symm ..).trans (h₂.writing.empty c₃ hfree₃)
  obtain ⟨hcnt₄, c₄, hpage⟩ := h₃.gcHigh hv₃ h₂.writing.line hvic hvalid hcnt₃ hgc₄
  rw [hpage.writeLine hloop₄, hcnt₄]
  rfl

end Femu.Bbssd

import Femu.Bbssd.Correct

/-!
# Femu.Bbssd.Collect

What `do_gc` does to the contents of the SSD. The logical pages of the victim
line move to pages that were free, one block after the other, while the blocks
before are already erased; everything else stays as it is.

`GcRule` is the rule of the loops: a property that each copy and each erase keeps,
next to the invariant of `Femu.Bbssd.Invariant`, holds at their end. `Collected`,
how far the collection has got, is such a property.
-/

namespace Femu.Bbssd

open Lib

/-! ## the rule of a collection -/

/-- A property of the states of a collection of line `c`, indexed by the block it has got to,
that every step of the collection keeps. -/
structure GcRule (s : Ssd) (L c : Nat) (I : Nat × Nat → Ssd → Prop) : Prop where
  same : ∀ prog t u, SameFtl t u → I prog t → I prog u
  copy : ∀ prog loc dead t u p, FtlInv t L loc prog none dead → p ∈ livePages t dead →
    p.blk.toNat = c → loc c = .gc → t.gcWritePage p = some u → I prog t → I prog u
  erase : ∀ ch lun t p, p.blkAddr = lineBlk c (ch, lun) → I (ch, lun) t →
    I (ch, lun + 1) (t.markBlockFree p)
  nextCh : ∀ ch t, I (ch, s.sp.lunsPerCh) t → I (ch + 1, 0) t

namespace GcRule

variable {s t u : Ssd} {L c ch lun : Nat} {prog : Nat × Nat} {I : Nat × Nat → Ssd → Prop}

/-- The loop of `clean_one_block`. -/
theorem cleanOneBlock (h : GcRule s L c I) {loc : Nat → Place}
    (hinv : FtlInv t L loc prog none fun _ => False) (hch : ch < t.sp.nchs)
    (hlun : lun < t.sp.lunsPerCh) (hc : c < t.sp.blksPerPl) (hgc : loc c = .gc)
    (hw : t.cleanOneBlock (mkPpa ch lun c 0) = some u) (h0 : I prog t) : I prog u := by
  have hblkOf : ∀ j, (mkPpa ch lun c j).blk.toNat = c := fun j => mkPpa_blk hinv.repr hc
  have hgc' : loc (mkPpa ch lun c 0).blk.toNat = .gc := by rwa [hblkOf]
  have hloop := forLoop_partial (I := fun j v => I prog v ∧
    ∃ loc', CleanInv t L loc prog (mkPpa ch lun c 0).blkAddr j v loc')
    (fun j v v' _ hj hJ hstep => ?_) ⟨h0, loc, hinv.cleanInv_zero _⟩ hw
  · exact hloop.1
  obtain ⟨hI, loc', hclean⟩ := hJ
  have hj' : j < t.sp.pgsPerBlk := by omega
  have hin := inGeom_mkPpa hinv.repr hch hlun hc hj'
  have hpg : (mkPpa ch lun c j).pg.toNat = j := mkPpa_pg hinv.repr hj'
  refine ⟨?_, hclean.step hin hpg hgc' hstep⟩
  change (if v.getPg (mkPpa ch lun c j) = .valid then
    (v.gcReadPage (mkPpa ch lun c j)).gcWritePage (mkPpa ch lun c j) else some v) = some v' at hstep
  split at hstep
  case isFalse =>
    cases hstep
    exact hI
  case isTrue hv =>
    have hsame := sameFtl_gcDelay v (mkPpa ch lun c j) .read
    have hlive := hclean.live hin hpg hv
    have hlive' : mkPpa ch lun c j ∈ livePages (v.gcReadPage (mkPpa ch lun c j))
        (pagesBefore t.sp (mkPpa ch lun c 0).blkAddr j) := by
      unfold livePages Ssd.getPg Ssd.gcReadPage at *
      rwa [hsame.sp, hsame.blk]
    exact h.copy _ _ _ _ _ _ (hclean.inv.same hsame) hlive' (hblkOf j) ((hclean.gc c).mpr hgc)
      hstep (h.same _ _ _ hsame hI)

/-- One iteration of the loops of `do_gc`. -/
theorem gcOneBlock (h : GcRule s L c I) (hgc : GcInv s L c (ch, lun) t) (hch : ch < s.sp.nchs)
    (hlun : lun < s.sp.lunsPerCh) (hw : Ssd.gcOneBlock c ch lun t = some u) (h0 : I (ch, lun) t) :
    I (ch, lun + 1) u := by
  obtain ⟨⟨loc, hinv, hgcs⟩, hsp, hline, -⟩ := hgc
  obtain ⟨v, hv, rfl⟩ := Option.map_eq_some_iff.mp hw
  rw [← hsp] at hch hlun hline
  have hclean := h.cleanOneBlock hinv hch hlun hline ((hgcs c hline).mpr rfl) hv h0
  have herase := h.erase _ _ _ _ (mkPpa_blkAddr hinv.repr 0 hch hlun hline) hclean
  exact h.same _ _ _ ((sameFtl_gcDelay _ _ .erase).trans (sameFtl_setGcEndtime _ _)) herase

/-- **The rule**: the property holds at the end of the loops of `do_gc`. -/
theorem gcLine (h : GcRule s L c I) (hgc : GcInv s L c (0, 0) s) (h0 : I (0, 0) s)
    (hw : s.gcLine c = some u) : I (s.sp.nchs, 0) u := by
  have hloop := forLoop_partial (I := fun ch v => GcInv s L c (ch, 0) v ∧ I (ch, 0) v)
    (fun ch v v' _ hch hJ hstep => ?_) ⟨hgc, h0⟩ hw
  · rw [Nat.zero_add] at hloop
    exact hloop.2
  have hch' : ch < s.sp.nchs := by omega
  refine ⟨hJ.1.channel hch' hstep, ?_⟩
  have hinner := forLoop_partial (I := fun lun w => GcInv s L c (ch, lun) w ∧ I (ch, lun) w)
    (fun lun w w' _ hlun hK hone => ?_) hJ hstep
  · rw [Nat.zero_add] at hinner
    exact h.nextCh _ _ hinner.2
  have hlun' : lun < s.sp.lunsPerCh := by omega
  exact ⟨hK.1.step hch' hlun' hone, h.gcOneBlock hK.1 hch' hlun' hone hK.2⟩

end GcRule

/-! ## one copy -/

/-- What `ssd_advance_write_pointer` leaves alone. -/
theorem Ssd.ssdAdvanceWritePointer_eq {s t : Ssd} (h : s.ssdAdvanceWritePointer = some t) :
    t.sp = s.sp ∧ t.maptbl = s.maptbl ∧ t.blk = s.blk := by
  obtain ⟨wp, -, heq⟩ | ⟨-, heq⟩ := s.ssdAdvanceWritePointer_cases
  · rw [heq] at h
    cases h
    exact ⟨rfl, rfl, rfl⟩
  · rw [heq, nextLine] at h
    split at h
    · contradiction
    · cases h
      exact ⟨rfl, rfl, rfl⟩

/-- A logical page is mapped to the page under the write pointer, which becomes valid. -/
theorem Ssd.writeNewPage_eq {s t : Ssd} {lpn : Nat} {p : Ppa}
    (h : s.writeNewPage lpn = some (p, t)) :
    p = s.getNewPage.1 ∧ t.sp = s.sp ∧ t.maptbl = Function.update s.maptbl lpn p ∧
      t.blk = (s.markPageValid p).blk := by
  unfold writeNewPage at h
  obtain ⟨u, hu, heq⟩ := Option.map_eq_some_iff.mp h
  obtain ⟨hsp, hmap, hblk⟩ := ssdAdvanceWritePointer_eq hu
  cases heq
  exact ⟨rfl, hsp, hmap, hblk⟩

/-- A logical page has moved from the line `c` to a page outside that was free. -/
structure Moved (s : Ssd) (c : Nat) (old new : Ppa) : Prop where
  mapped : mappedPpa old
  line : old.blk.toNat = c
  inGeom : InGeom s.sp new
  outside : new.blk.toNat ≠ c
  free : s.getPg new = .free

/-- The collection of line `c`, begun in `s`, has got to the block `prog` in `t`. -/
structure Collected (s : Ssd) (L c : Nat) (prog : Nat × Nat) (t : Ssd) : Prop where
  sp : t.sp = s.sp
  pg : ∀ b, b.blk ≠ c → ∀ k, (t.blk b).pg k = (s.blk b).pg k ∨
    (s.blk b).pg k = .free ∧ (t.blk b).pg k = .valid
  map : ∀ l < L, t.maptbl l = s.maptbl l ∨ Moved s c (s.maptbl l) (t.maptbl l)
  erase : ∀ x ∈ chips s.sp, (t.blk (lineBlk c x)).eraseCnt = (s.blk (lineBlk c x)).eraseCnt +
    if x.1 < prog.1 ∨ x.1 = prog.1 ∧ x.2 < prog.2 then 1 else 0

namespace Collected

variable {s t u : Ssd} {L c : Nat} {prog : Nat × Nat} {loc : Nat → Place} {dead : Ppa → Prop}
  {p : Ppa}

theorem refl (s : Ssd) (L c : Nat) : Collected s L c (0, 0) s where
  sp := rfl
  pg _ _ _ := Or.inl rfl
  map _ _ := Or.inl rfl
  erase _ _ := by simp

theorem same (h : Collected s L c prog t) (hs : SameFtl t u) : Collected s L c prog u where
  sp := hs.sp.trans h.sp
  pg := hs.blk ▸ h.pg
  map := hs.maptbl ▸ h.map
  erase := hs.blk ▸ h.erase

/-- A page outside the line that is free was free at the start. -/
theorem free_of_free (h : Collected s L c prog t) (hp : p.blk.toNat ≠ c)
    (hfree : t.getPg p = .free) : s.getPg p = .free := by
  cases h.pg p.blkAddr hp p.pg.toNat with
  | inl heq => exact heq.symm.trans hfree
  | inr hwritten => exact hwritten.1

/-- `gc_write_page` copies a live page of the line. -/
theorem gcWritePage (h : Collected s L c prog t) (hinv : FtlInv t L loc prog none dead)
    (hp : p ∈ livePages t dead) (hpc : p.blk.toNat = c) (hgc : loc c = .gc)
    (hw : t.gcWritePage p = some u) : Collected s L c prog u := by
  unfold Ssd.gcWritePage at hw
  obtain ⟨⟨q, v⟩, hv, rfl⟩ := Option.map_eq_some_iff.mp hw
  have hsame := (sameFtl_gcDelay v q .write).trans (sameFtl_setGcEndtime _ q)
  refine same ?_ hsame
  obtain ⟨hq, hsp, hmap, hblk⟩ := Ssd.writeNewPage_eq hv
  -- the new page is in the line being written
  have hP := hp.1.pgsPerLine_pos
  obtain ⟨hin, hcurline, -⟩ := hinv.pages.newPage hinv.repr hP
  have hfree := hinv.pages.getPg_newPage hinv.repr hP
  rw [← hq] at hin hcurline hfree
  have hqc : q.blk.toNat ≠ c := by
    intro heq
    have hcur := (hinv.pages.cur _ hinv.pages.curline).mpr rfl
    rw [← hcurline, heq, hgc] at hcur
    contradiction
  have hfree₀ := h.free_of_free hqc hfree
  obtain ⟨hl, -, hmapped⟩ := hinv.map.mapsTo' p hp
  have hold : t.maptbl (t.getRmapEnt p) = p := hinv.map.right p hp
  constructor
  case sp => exact hsp.trans h.sp
  case pg =>
    intro b hb k
    rw [hblk]
    change (Function.update t.blk q.blkAddr _ b).pg k = _ ∨
      _ ∧ (Function.update t.blk q.blkAddr _ b).pg k = _
    rw [pg_setPage .valid rfl]
    by_cases hat : b = q.blkAddr ∧ k = q.pg.toNat
    · obtain ⟨rfl, rfl⟩ := hat
      exact Or.inr ⟨hfree₀, if_pos ⟨rfl, rfl⟩⟩
    · rw [if_neg hat]
      exact h.pg b hb k
  case map =>
    intro l hl'
    rw [hmap]
    by_cases hlp : l = t.getRmapEnt p
    · -- the page was in the line at the start, as it has not moved yet
      subst hlp
      rw [Function.update_self]
      have hstart : s.maptbl (t.getRmapEnt p) = p := by
        cases h.map _ hl with
        | inl heq => exact heq.symm.trans hold
        | inr hmoved =>
          have hout := hmoved.outside
          rw [hold] at hout
          exact absurd hpc hout
      rw [hstart]
      exact Or.inr ⟨hp.1.mapped, hpc, h.sp ▸ hin, hqc, hfree₀⟩
    · rw [Function.update_of_ne hlp]
      exact h.map l hl'
  case erase =>
    intro x hx
    have hne : lineBlk c x ≠ q.blkAddr := fun heq => hqc (congrArg BlkAddr.blk heq).symm
    rw [hblk]
    change (Function.update t.blk q.blkAddr _ (lineBlk c x)).eraseCnt = _
    rw [Function.update_of_ne hne]
    exact h.erase x hx

/-- `mark_block_free` on the next block of the line. -/
theorem markBlockFree {ch lun : Nat} (h : Collected s L c (ch, lun) t)
    (hp : p.blkAddr = lineBlk c (ch, lun)) :
    Collected s L c (ch, lun + 1) (t.markBlockFree p) := by
  constructor
  case sp => exact h.sp
  case pg =>
    intro b hb k
    have hne : b ≠ p.blkAddr := fun heq => hb (by rw [heq, hp, lineBlk])
    change (Function.update t.blk p.blkAddr _ b).pg k = _ ∨
      _ ∧ (Function.update t.blk p.blkAddr _ b).pg k = _
    rw [Function.update_of_ne hne]
    exact h.pg b hb k
  case map => exact h.map
  case erase =>
    intro x hx'
    have hold := h.erase x hx'
    change (Function.update t.blk p.blkAddr _ (lineBlk c x)).eraseCnt = _
    by_cases hxp : x = (ch, lun)
    · subst hxp
      rw [hp, Function.update_self]
      simp at hold ⊢
      omega
    · have hne : lineBlk c x ≠ p.blkAddr := by
        rw [hp]
        intro heq
        exact hxp (Prod.ext (congrArg BlkAddr.ch heq) (congrArg BlkAddr.lun heq))
      have hiff : (x.1 < ch ∨ x.1 = ch ∧ x.2 < lun + 1) ↔ (x.1 < ch ∨ x.1 = ch ∧ x.2 < lun) := by
        have hnot : ¬ (x.1 = ch ∧ x.2 = lun) := fun hboth => hxp (Prod.ext hboth.1 hboth.2)
        omega
      rw [Function.update_of_ne hne, hold]
      simp only [hiff]

theorem nextCh {ch : Nat} (h : Collected s L c (ch, s.sp.lunsPerCh) t) :
    Collected s L c (ch + 1, 0) t := by
  refine { h with erase := fun x hx => ?_ }
  have hlt := (mem_chips.mp hx).2
  have hiff : (x.1 < ch + 1 ∨ x.1 = ch + 1 ∧ x.2 < 0) ↔
      (x.1 < ch ∨ x.1 = ch ∧ x.2 < s.sp.lunsPerCh) := by omega
  have hold := h.erase x hx
  simp only [hiff]
  exact hold

/-- The loops of `do_gc`. -/
theorem gcLine (hgc : GcInv s L c (0, 0) s) (hw : s.gcLine c = some u) :
    Collected s L c (s.sp.nchs, 0) u := by
  have hrule : GcRule s L c (Collected s L c) := by
    constructor
    case same => exact fun _ _ _ hs h => h.same hs
    case copy => exact fun _ _ _ _ _ _ hinv hp hpc hgc hw h => h.gcWritePage hinv hp hpc hgc hw
    case erase => exact fun _ _ _ _ hp h => h.markBlockFree hp
    case nextCh => exact fun _ _ h => h.nextCh
  exact hrule.gcLine hgc (refl s L c) hw

end Collected

/-! ## counting the pages of the SSD -/

/-- The pages of the SSD with a status. -/
def Ssd.ttCnt (s : Ssd) (st : PageStatus) : Nat :=
  ∑ l ∈ Finset.range s.sp.blksPerPl, lineCnt s.sp s.blk st l

theorem Ssd.ttCnt_total (s : Ssd) :
    s.ttCnt .free + s.ttCnt .invalid + s.ttCnt .valid = s.sp.blksPerPl * s.sp.pgsPerLine := by
  unfold ttCnt
  rw [← Finset.sum_add_distrib, ← Finset.sum_add_distrib,
    Finset.sum_const_nat fun l _ => lineCnt_total s.sp s.blk l, Finset.card_range]

namespace PageInv

variable {s : Ssd} {loc : Nat → Place} {prog : Nat × Nat}

/-- No page of a written line is free. -/
theorem lineCnt_free_eq_zero (h : PageInv s loc prog) {l : Nat} (hl : l < s.sp.blksPerPl)
    (hloc : loc l = .full ∨ loc l = .victim) : lineCnt s.sp s.blk .free l = 0 := by
  refine lineCnt_eq_zero fun x hx k hk hfree => ?_
  have hfill := (h.free _ (blkIn_lineBlk hx hl) k hk).mp hfree
  have hwritten : fill s.sp loc s.wp prog (lineBlk l x) = s.sp.pgsPerBlk := by
    cases hloc with
    | inl hfull => exact fill_full hfull
    | inr hvictim => exact fill_victim hvictim
  omega

/-- The free pages of the SSD are the room left for writing. -/
theorem ttCnt_free (h : PageInv s loc prog) (hgc : ∀ l < s.sp.blksPerPl, loc l ≠ .gc) :
    (s.ttCnt .free : Int) = s.room := by
  have hline : ∀ l ∈ Finset.range s.sp.blksPerPl, lineCnt s.sp s.blk .free l =
      (if loc l = .free then s.sp.pgsPerLine else 0) +
        if l = s.wp.curline then lineCnt s.sp s.blk .free s.wp.curline else 0 := by
    intro l hl
    have hl' := Finset.mem_range.mp hl
    have hcur := h.cur l hl'
    cases hloc : loc l with
    | free =>
      have hne : l ≠ s.wp.curline := fun heq => by simp [hcur.mpr heq] at hloc
      have hall : lineCnt s.sp s.blk .free l = s.sp.pgsPerLine :=
        lineCnt_all_free fun x hx k hk => (h.free _ (blkIn_lineBlk hx hl') k hk).mpr (by
          rw [fill_free (b := lineBlk l x) hloc]
          exact Nat.zero_le k)
      simp [hne, hall]
    | full =>
      have hne : l ≠ s.wp.curline := fun heq => by simp [hcur.mpr heq] at hloc
      simp [hne, h.lineCnt_free_eq_zero hl' (Or.inl hloc)]
    | victim =>
      have hne : l ≠ s.wp.curline := fun heq => by simp [hcur.mpr heq] at hloc
      simp [hne, h.lineCnt_free_eq_zero hl' (Or.inr hloc)]
    | cur => simp [hcur.mp hloc]
    | gc => exact absurd hloc (hgc l hl')
  have hfree := h.freeLineCnt_eq
  unfold Ssd.ttCnt Ssd.room
  rw [Finset.sum_congr rfl hline, Finset.sum_add_distrib, ← Finset.sum_filter, Finset.sum_const,
    Finset.sum_ite_eq', if_pos (Finset.mem_range.mpr h.curline), hfree]
  simp [linesAt]

end PageInv

/-! ## a collection -/

/-- What a collection of line `c` that takes `s` to `s'` has done. -/
structure LineCollected (s s' : Ssd) (c : Nat) : Prop where
  mapped : ∀ l < s.sp.ttPgs, mappedPpa (s'.maptbl l) = mappedPpa (s.maptbl l)
  stays : ∀ l < s.sp.ttPgs, ¬ (mappedPpa (s.maptbl l) ∧ (s.maptbl l).blk.toNat = c) →
    s'.maptbl l = s.maptbl l
  moves : ∀ l < s.sp.ttPgs, mappedPpa (s.maptbl l) → (s.maptbl l).blk.toNat = c →
    Moved s c (s.maptbl l) (s'.maptbl l)
  valid : s'.ttCnt .valid = s.ttCnt .valid
  invalid : (s'.ttCnt .invalid : Int) = s.ttCnt .invalid - (s.lm.lines c).ipc
  free : ∀ p, InGeom s.sp p → p.blk.toNat = c → s'.getPg p = .free
  erased : ∀ x ∈ chips s.sp,
    (s'.blk (lineBlk c x)).eraseCnt = (s.blk (lineBlk c x)).eraseCnt + 1
  tail : s'.lm.freeLineList.getLast? = some c

section Done

variable {s t : Ssd} {L c : Nat}

/-- The pages of a line on the free list are free. -/
theorem Idle.pg_of_mem_freeLineList (h : Idle s L) {b : BlkAddr} (hc : b.blk ∈ s.lm.freeLineList)
    (hb : BlkIn s.sp b) {k : Nat} (hk : k < s.sp.pgsPerBlk) : (s.blk b).pg k = .free := by
  obtain ⟨loc, hinv, -⟩ := h
  have hloc : loc b.blk = .free := ((hinv.pages.lines.free_mem _).mp hc).2
  refine (hinv.pages.free b hb k hk).mpr ?_
  rw [fill_free hloc]
  exact Nat.zero_le _

/-- The invalid pages of the SSD are as many as before, but for those of the line. -/
theorem Collected.ttCnt_invalid {prog : Nat × Nat} (h : Collected s L c prog t)
    (hc : c < s.sp.blksPerPl) (hnone : lineCnt t.sp t.blk .invalid c = 0) :
    t.ttCnt .invalid + lineCnt s.sp s.blk .invalid c = s.ttCnt .invalid := by
  have hline : ∀ l ∈ Finset.range s.sp.blksPerPl, lineCnt s.sp s.blk .invalid l =
      lineCnt t.sp t.blk .invalid l + if l = c then lineCnt s.sp s.blk .invalid c else 0 := by
    intro l _
    by_cases hlc : l = c
    · rw [hlc, hnone, if_pos rfl, Nat.zero_add]
    · rw [if_neg hlc, Nat.add_zero, h.sp]
      refine lineCnt_congr_iff fun x _ k _ => ?_
      cases h.pg (lineBlk l x) hlc k with
      | inl heq => rw [heq]
      | inr hwritten => simp [hwritten.1, hwritten.2]
  unfold Ssd.ttCnt
  rw [Finset.sum_congr rfl hline, Finset.sum_add_distrib, Finset.sum_ite_eq',
    if_pos (Finset.mem_range.mpr hc), h.sp]

end Done

/-- **Collection**: a collection for which there are enough free pages moves the logical pages
of its line to pages that were free, and keeps the contents of the SSD otherwise. -/
theorem doGc_collects {s : Ssd} (h : Idle s s.sp.ttPgs) {force : Bool} {c : Nat} {lm : LineMgmt}
    (hv : s.lm.selectVictimLine s.sp.pgsPerLine force = some (c, lm))
    (hroom : (s.lm.lines c).vpc < s.room) :
    ∃ s', s.doGc force = some (0, s') ∧ LineCollected s s' c := by
  obtain ⟨hgc, hid, -, hroom'⟩ := h.gcInv hv
  obtain ⟨loc, hinv, hnogc⟩ := id h
  obtain ⟨hc, hvictim, -⟩ := hinv.pages.selectVictim hnogc hv
  have hne : loc c ≠ .gc := hnogc c hc
  -- the counters of the victim are the counts of its pages, none of which is free
  have hvpc := hinv.pages.lines.vpc c hc hne
  have hipc := hinv.pages.lines.ipc c hc hne
  have hfree := hinv.pages.lineCnt_free_eq_zero hc (Or.inr hvictim)
  have htotal := lineCnt_total s.sp s.blk c
  obtain ⟨t, ht⟩ := hgc.exists_gcLine (by
    rw [hroom']
    dsimp only
    omega)
  have hcol : Collected { s with lm := lm } s.sp.ttPgs c _ t := Collected.gcLine hgc ht
  obtain ⟨hidle, hsp, hroomEnd⟩ := (hgc.gcLine ht).markLineFree
  rw [hroom'] at hroomEnd
  dsimp only at hsp hroomEnd
  refine ⟨t.markLineFree c, by simp [Ssd.doGc, hv, hid, ht], ?_⟩
  have hblk : (mkPpa 0 0 c 0).blk.toNat = c := mkPpa_blk hinv.repr hc
  have hlist : (t.markLineFree c).lm.freeLineList = t.lm.freeLineList ++ [c] := by
    simp only [Ssd.markLineFree, LineMgmt.markLineFree, hblk]
  have hpg : ∀ b, BlkIn s.sp b → b.blk = c → ∀ k < s.sp.pgsPerBlk,
      ((t.markLineFree c).blk b).pg k = .free := by
    intro b hb hbc k hk
    rw [← hsp] at hb hk
    exact hidle.pg_of_mem_freeLineList (by simp [hlist, hbc]) hb hk
  have hempty : ∀ p, InGeom s.sp p → p.blk.toNat = c → (t.markLineFree c).getPg p = .free :=
    fun p hp hpc => hpg p.blkAddr hp.blkIn hpc p.pg.toNat hp.pg
  have hmap : ∀ l < s.sp.ttPgs, (t.markLineFree c).maptbl l = s.maptbl l ∨
      Moved s c (s.maptbl l) ((t.markLineFree c).maptbl l) := by
    intro l hl
    cases hcol.map l hl with
    | inl heq => exact Or.inl heq
    | inr hm => exact Or.inr ⟨hm.mapped, hm.line, hm.inGeom, hm.outside, hm.free⟩
  have hnone : lineCnt t.sp t.blk .invalid c = 0 := by
    rw [hcol.sp]
    refine lineCnt_eq_zero fun x hx k hk hinvalid => ?_
    have hpgFree := hpg (lineBlk c x) (blkIn_lineBlk hx hc) rfl k hk
    exact absurd (hpgFree.symm.trans hinvalid) (by decide)
  have hinvalid : (t.markLineFree c).ttCnt .invalid + lineCnt s.sp s.blk .invalid c =
      s.ttCnt .invalid := hcol.ttCnt_invalid hc hnone
  have hfree' : ((t.markLineFree c).ttCnt .free : Int) =
      s.ttCnt .free - lineCnt s.sp s.blk .valid c + s.sp.pgsPerLine := by
    obtain ⟨loc', hinv', hnogc'⟩ := id hidle
    rw [hinv'.pages.ttCnt_free hnogc', hinv.pages.ttCnt_free hnogc, hroomEnd]
  have hsum := s.ttCnt_total
  have hsum' := (t.markLineFree c).ttCnt_total
  rw [hsp] at hsum'
  constructor
  case mapped =>
    intro l hl
    cases hmap l hl with
    | inl heq => rw [heq]
    | inr hm => rw [hm.inGeom.mapped, hm.mapped]
  case stays =>
    intro l hl hnot
    cases hmap l hl with
    | inl heq => exact heq
    | inr hm => exact absurd ⟨hm.mapped, hm.line⟩ hnot
  case moves =>
    intro l hl hm hline
    cases hmap l hl with
    | inl heq =>
      -- the page would be valid, but the line is erased
      obtain ⟨loc', hinv', -⟩ := id hidle
      obtain ⟨⟨hin, hvalid, -⟩, -⟩ := hinv'.map.mapped hl (heq ▸ hm)
      rw [heq] at hin hvalid
      rw [hempty _ (hsp ▸ hin) hline] at hvalid
      contradiction
    | inr hmoved => exact hmoved
  case valid => omega
  case invalid => omega
  case free => exact hempty
  case erased =>
    intro x hx
    have herase := hcol.erase x hx
    rw [if_pos (Or.inl (mem_chips.mp hx).1)] at herase
    exact herase
  case tail => simp [hlist]

theorem doGc_collects_small :
    ∃ s s', Idle s s.sp.ttPgs ∧ s.doGc true = some (0, s') ∧ LineCollected s s' 0 := by
  have hends : (ssdRun smallSsd (fun _ => 1) 20 (smallCalls.take 2)).map (fun s =>
      (s.lm.selectVictimLine s.sp.pgsPerLine true).map fun victim =>
        (victim.1, decide ((s.lm.lines victim.1).vpc < s.room))) = some (some (0, true)) := by
    decide +kernel
  obtain ⟨s, hrun, hmap⟩ := Option.map_eq_some_iff.mp hends
  obtain ⟨⟨c, lm⟩, hv, heq⟩ := Option.map_eq_some_iff.mp hmap
  simp only [Prod.mk.injEq, decide_eq_true_eq] at heq
  obtain ⟨rfl, hroom⟩ := heq
  have hbelow : ∀ call ∈ smallCalls.take 2, call.Below smallSsd smallSsd.ttPgs :=
    fun call hcall => (below_smallCalls call (List.mem_of_mem_take hcall)).mono (by decide)
  obtain ⟨hidle, hsp⟩ := idle_ssdRun representable_smallSsd rfl (Nat.le_refl _) hbelow hrun
  rw [← hsp] at hidle
  obtain ⟨s', hdone⟩ := doGc_collects hidle hv hroom
  exact ⟨s, s', hidle, hdone⟩

end Femu.Bbssd

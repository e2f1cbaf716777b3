import Femu.Bbssd.Mapping
import Femu.Bbssd.History

/-!
# Femu.Bbssd.Invariant

The invariant of the flash translation layer, and that every call keeps it.

`FtlInv` joins the invariants of the page states, the mapping tables and the
history.  It holds at every point of a call, with the ledger, the exempt logical
page and the dead pages of that point; between calls it is `Idle`, with no
exempt page, no dead page and no line being collected.

Each step's theorem also says what the step does to `room`, the free pages left
for writing, and what `room` the step needs to be carried out.
-/

namespace Femu.Bbssd

open Lib

/-- The invariant at a point of a call. -/
structure FtlInv (s : Ssd) (L : Nat) (loc : Nat → Place) (prog : Nat × Nat) (exempt : Option Nat)
    (dead : Ppa → Prop) : Prop where
  repr : Representable s.sp
  pls : s.sp.plsPerLun = 1
  pages : PageInv s loc prog
  map : MapInv s L exempt dead
  log : LogInv s loc prog L
  dead : ∀ p, dead p → loc p.blk.toNat = .gc

/-- The invariant between calls. -/
def Idle (s : Ssd) (L : Nat) : Prop :=
  ∃ loc, FtlInv s L loc (0, 0) none (fun _ => False) ∧ ∀ l < s.sp.blksPerPl, loc l ≠ .gc

/-! ## steps that only take time -/

/-- The states differ in the timing alone. -/
structure SameFtl (s s' : Ssd) : Prop where
  sp : s'.sp = s.sp
  blk : s'.blk = s.blk
  maptbl : s'.maptbl = s.maptbl
  rmap : s'.rmap = s.rmap
  wp : s'.wp = s.wp
  lm : s'.lm = s.lm
  log : s'.log = s.log

theorem SameFtl.refl (s : Ssd) : SameFtl s s := ⟨rfl, rfl, rfl, rfl, rfl, rfl, rfl⟩

theorem SameFtl.trans {s s' s'' : Ssd} (h : SameFtl s s') (h' : SameFtl s' s'') : SameFtl s s'' :=
  ⟨h'.sp.trans h.sp, h'.blk.trans h.blk, h'.maptbl.trans h.maptbl, h'.rmap.trans h.rmap,
    h'.wp.trans h.wp, h'.lm.trans h.lm, h'.log.trans h.log⟩

theorem sameFtl_ssdAdvanceStatus (s : Ssd) (p : Ppa) (c : NandCmd) :
    SameFtl s (s.ssdAdvanceStatus p c).2 := ⟨rfl, rfl, rfl, rfl, rfl, rfl, rfl⟩

theorem sameFtl_gcDelay (s : Ssd) (p : Ppa) (op : NandOp) : SameFtl s (s.gcDelay p op) := by
  unfold Ssd.gcDelay
  split
  · exact sameFtl_ssdAdvanceStatus s p _
  · exact .refl s

theorem sameFtl_setGcEndtime (s : Ssd) (p : Ppa) : SameFtl s (s.setGcEndtime p) :=
  ⟨rfl, rfl, rfl, rfl, rfl, rfl, rfl⟩

section same

variable {s s' : Ssd} {L : Nat} {loc : Nat → Place} {prog : Nat × Nat} {exempt : Option Nat}
  {dead : Ppa → Prop}

theorem SameFtl.room (h : SameFtl s s') : s'.room = s.room := by
  unfold Ssd.room
  rw [h.lm, h.sp, h.blk, h.wp]

theorem SameFtl.eq (h : SameFtl s s') : s' = { s with lun := s'.lun, clock := s'.clock } := by
  obtain ⟨sp, lun, blk, maptbl, rmap, wp, lm, clock, log⟩ := s'
  obtain ⟨rfl, rfl, rfl, rfl, rfl, rfl, rfl⟩ := h
  rfl

theorem FtlInv.same (h : FtlInv s L loc prog exempt dead) (hs : SameFtl s s') :
    FtlInv s' L loc prog exempt dead := by
  have hpages : PageInv s' loc prog := by
    rw [hs.eq]
    exact h.pages.frame _ _ _ _ _
  exact
    { repr := hs.sp ▸ h.repr
      pls := hs.sp ▸ h.pls
      pages := hpages
      map := h.map.frame hs.sp hs.maptbl hs.rmap hs.blk
      log := h.log.frame hs.sp hs.log fun b _ => by rw [hs.wp]
      dead := h.dead }

theorem Idle.same (h : Idle s L) (hs : SameFtl s s') : Idle s' L := by
  obtain ⟨loc, hinv, hgc⟩ := h
  exact ⟨loc, hinv.same hs, hs.sp ▸ hgc⟩

end same

/-! ## writing a new page -/

/-- What writing one page leaves alone, and the free page it takes. -/
structure Grown (s s' : Ssd) (loc loc' : Nat → Place) : Prop where
  sp : s'.sp = s.sp
  gc : ∀ l, loc' l = .gc ↔ loc l = .gc
  room : s'.room + 1 = s.room
  blk : ∀ b, loc b.blk ≠ .cur → s'.blk b = s.blk b

namespace FtlInv

variable {s s' : Ssd} {L : Nat} {loc : Nat → Place} {prog : Nat × Nat} {dead : Ppa → Prop}

/-- The exempt logical page is mapped to the next page. -/
theorem writeNewPage {l : Nat} (h : FtlInv s L loc prog (some l) dead) (hl : l < L)
    (hP : 0 < s.sp.pgsPerLine) {p : Ppa} (hw : s.writeNewPage l = some (p, s')) :
    ∃ loc', FtlInv s' L loc' prog none dead ∧ Grown s s' loc loc' := by
  unfold Ssd.writeNewPage at hw
  obtain ⟨t, ht, he⟩ := Option.map_eq_some_iff.mp hw
  cases he
  obtain ⟨hp, hblk, -⟩ := h.pages.newPage h.repr hP
  have hcur := (h.pages.cur _ h.pages.curline).mpr rfl
  set p := s.getNewPage.1 with hpdef
  -- the state in which the page is marked valid
  set s₁ : Ssd := (s.getNewPage.2.setMaptblEnt l p).setRmapEnt l p with hs₁
  have hpages₁ : PageInv s₁ loc prog := h.pages.frame _ _ _ _ _
  obtain ⟨loc', hprog⟩ := hpages₁.program h.repr hP ht
  change Programmed s₁ s' loc loc' prog p at hprog
  have hdead : ¬ dead p := fun hd => by
    have := h.dead p hd
    rw [hblk, hcur] at this
    cases this
  refine ⟨loc', ?_, hprog.sp, hprog.gc, hprog.room, fun b hb => ?_⟩
  · exact
      { repr := hprog.sp ▸ h.repr
        pls := hprog.sp ▸ h.pls
        pages := hprog.inv
        map := h.map.place h.pls hl hp (h.pages.getPg_newPage h.repr hP) hdead hprog.sp
          hprog.maptbl hprog.rmap hprog.blk
        log := h.log.program h.pages h.repr hP (t := s₁) rfl rfl rfl hprog
        dead := fun q hq => (hprog.gc _).mpr (h.dead q hq) }
  · rw [hprog.blk]
    have hne : b ≠ p.blkAddr := fun he => hb (by
      rw [he]
      change loc p.blk.toNat = .cur
      rw [hblk, hcur])
    exact Function.update_of_ne hne _ _

/-- With two free pages left the page can be written. -/
theorem exists_writeNewPage {l : Nat} (h : FtlInv s L loc prog (some l) dead)
    (hP : 0 < s.sp.pgsPerLine) (hroom : 2 ≤ s.room) :
    ∃ p s', s.writeNewPage l = some (p, s') := by
  have hpages : PageInv ((s.getNewPage.2.setMaptblEnt l s.getNewPage.1).setRmapEnt l
      s.getNewPage.1) loc prog := h.pages.frame _ _ _ _ _
  obtain ⟨s', hs'⟩ := hpages.exists_program h.repr hP hroom
  exact ⟨_, s', Option.map_eq_some_iff.mpr ⟨s', hs', rfl⟩⟩

/-- A live page of the line being collected may be declared dead, its logical
page exempt. -/
theorem exempt_live (h : FtlInv s L loc prog none dead) {p : Ppa} (hp : p ∈ livePages s dead)
    (hgc : loc p.blk.toNat = .gc) :
    s.getRmapEnt p < L ∧
      FtlInv s L loc prog (some (s.getRmapEnt p)) (fun q => dead q ∨ q = p) := by
  obtain ⟨hl, hmap⟩ := h.map.exempt_live hp
  refine ⟨hl, { h with map := hmap, dead := ?_ }⟩
  rintro q (hq | rfl)
  · exact h.dead q hq
  · exact hgc

/-- `gc_write_page` copies a live page of the line being collected, which is
dead from then on. -/
theorem gcWritePage (h : FtlInv s L loc prog none dead) {p : Ppa} (hp : p ∈ livePages s dead)
    (hgc : loc p.blk.toNat = .gc) (hw : s.gcWritePage p = some s') :
    ∃ loc', FtlInv s' L loc' prog none (fun q => dead q ∨ q = p) ∧ Grown s s' loc loc' := by
  unfold Ssd.gcWritePage at hw
  obtain ⟨⟨q, t⟩, ht, rfl⟩ := Option.map_eq_some_iff.mp hw
  obtain ⟨hl, h₁⟩ := h.exempt_live hp hgc
  obtain ⟨loc', h₂, hgrown⟩ := h₁.writeNewPage hl hp.1.pgsPerLine_pos ht
  have hsame := (sameFtl_gcDelay t q .write).trans (sameFtl_setGcEndtime _ q)
  refine ⟨loc', h₂.same hsame, hsame.sp.trans hgrown.sp, hgrown.gc, ?_, fun b hb => ?_⟩
  · rw [hsame.room]
    exact hgrown.room
  · exact (congrFun hsame.blk b).trans (hgrown.blk b hb)

theorem exists_gcWritePage (h : FtlInv s L loc prog none dead) {p : Ppa}
    (hp : p ∈ livePages s dead) (hgc : loc p.blk.toNat = .gc) (hroom : 2 ≤ s.room) :
    ∃ s', s.gcWritePage p = some s' := by
  obtain ⟨q, t, ht⟩ := (h.exempt_live hp hgc).2.exists_writeNewPage hp.1.pgsPerLine_pos hroom
  exact ⟨_, Option.map_eq_some_iff.mpr ⟨(q, t), ht, rfl⟩⟩

end FtlInv

/-! ## collecting a line -/

/-- The pages of block `b` before page `j`. -/
def pagesBefore (sp : SsdParams) (b : BlkAddr) (j : Nat) (q : Ppa) : Prop :=
  InGeom sp q ∧ q.blkAddr = b ∧ q.pg.toNat < j

/-- `clean_one_block` has dealt with the first `j` pages of block `b`: they are
dead, and each valid one took a free page. -/
structure CleanInv (s : Ssd) (L : Nat) (loc : Nat → Place) (prog : Nat × Nat) (b : BlkAddr)
    (j : Nat) (t : Ssd) (loc' : Nat → Place) : Prop where
  inv : FtlInv t L loc' prog none (pagesBefore s.sp b j)
  sp : t.sp = s.sp
  gc : ∀ l, loc' l = .gc ↔ loc l = .gc
  room : t.room + countBelow (s.blk b).pg .valid j = s.room
  blk : ∀ b', loc b'.blk = .gc → t.blk b' = s.blk b'

namespace CleanInv

variable {s t t' : Ssd} {L : Nat} {loc loc' : Nat → Place} {prog : Nat × Nat} {j ch lun c : Nat}

/-- The page that the loop of `clean_one_block` looks at, if it is valid, is live. -/
theorem live (h : CleanInv s L loc prog (mkPpa ch lun c 0).blkAddr j t loc')
    (hp : InGeom s.sp (mkPpa ch lun c j)) (hj : (mkPpa ch lun c j).pg.toNat = j)
    (hv : t.getPg (mkPpa ch lun c j) = .valid) :
    mkPpa ch lun c j ∈ livePages t (pagesBefore s.sp (mkPpa ch lun c 0).blkAddr j) := by
  refine ⟨h.sp ▸ hp, hv, fun hd => ?_⟩
  have := hd.2.2
  omega

/-- One iteration of the loop of `clean_one_block`. -/
theorem step (h : CleanInv s L loc prog (mkPpa ch lun c 0).blkAddr j t loc')
    (hp : InGeom s.sp (mkPpa ch lun c j)) (hj : (mkPpa ch lun c j).pg.toNat = j)
    (hgc : loc (mkPpa ch lun c 0).blk.toNat = .gc)
    (hw : Ssd.cleanOnePage (mkPpa ch lun c 0) j t = some t') :
    ∃ loc'', CleanInv s L loc prog (mkPpa ch lun c 0).blkAddr (j + 1) t' loc'' := by
  change (if t.getPg (mkPpa ch lun c j) = .valid then
    (t.gcReadPage (mkPpa ch lun c j)).gcWritePage (mkPpa ch lun c j) else some t) = some t' at hw
  have hblk := h.blk (mkPpa ch lun c 0).blkAddr hgc
  have hstatus : t.getPg (mkPpa ch lun c j) = (s.blk (mkPpa ch lun c 0).blkAddr).pg j := by
    rw [← hblk]
    unfold Ssd.getPg
    rw [hj]
    rfl
  -- the dead pages after this iteration
  have hdead : ∀ q, pagesBefore s.sp (mkPpa ch lun c 0).blkAddr (j + 1) q ↔
      pagesBefore s.sp (mkPpa ch lun c 0).blkAddr j q ∨ q = mkPpa ch lun c j := by
    intro q
    constructor
    · rintro ⟨hq, hqb, hqj⟩
      by_cases hlt : q.pg.toNat < j
      · exact .inl ⟨hq, hqb, hlt⟩
      · exact .inr (hq.ext_blkAddr hp hqb (by omega))
    · rintro (⟨hq, hqb, hqj⟩ | rfl)
      · exact ⟨hq, hqb, by omega⟩
      · exact ⟨hp, rfl, by omega⟩
  split at hw
  · next hv =>
    have hlive := h.live hp hj hv
    have hsame := sameFtl_gcDelay t (mkPpa ch lun c j) .read
    have hlive' : mkPpa ch lun c j ∈ livePages (t.gcReadPage (mkPpa ch lun c j))
        (pagesBefore s.sp (mkPpa ch lun c 0).blkAddr j) := by
      unfold livePages Ssd.getPg Ssd.gcReadPage at *
      rwa [hsame.sp, hsame.blk]
    obtain ⟨loc'', hinv, hgrown⟩ :=
      (h.inv.same hsame).gcWritePage hlive' ((h.gc _).mpr hgc) hw
    refine ⟨loc'', ?_, hgrown.sp.trans (hsame.sp.trans h.sp),
      fun l => (hgrown.gc l).trans (h.gc l), ?_, fun b' hb' => ?_⟩
    · have : pagesBefore s.sp (mkPpa ch lun c 0).blkAddr (j + 1) = fun q =>
          pagesBefore s.sp (mkPpa ch lun c 0).blkAddr j q ∨ q = mkPpa ch lun c j :=
        funext fun q => propext (hdead q)
      rwa [this]
    · have h1 := hgrown.room
      have h2 := hsame.room
      have h3 := h.room
      change _ = (t.gcDelay _ .read).room at h1
      rw [countBelow_succ, if_pos (hstatus ▸ hv)]
      push_cast
      omega
    · have hcur : loc' b'.blk ≠ .cur := by
        rw [(h.gc _).mpr hb']
        decide
      exact (hgrown.blk b' hcur).trans ((congrFun hsame.blk b').trans (h.blk b' hb'))
  · next hv =>
    cases hw
    refine ⟨loc', { h with inv := { h.inv with map := ?_, dead := ?_ }, room := ?_ }⟩
    · refine TwoWay.congr h.inv.map rfl (Set.ext fun q => ?_) (fun _ _ => rfl) fun _ _ => rfl
      refine and_congr_right fun _ => and_congr_right fun hqv => not_congr ?_
      rw [hdead q]
      refine ⟨fun hd => hd.resolve_right ?_, .inl⟩
      rintro rfl
      exact hv hqv
    · intro q hq
      rcases (hdead q).mp hq with hq | rfl
      · exact h.inv.dead q hq
      · exact (h.gc _).mpr hgc
    · rw [countBelow_succ, if_neg (hstatus ▸ hv)]
      exact h.room

/-- With a free page beyond the one it may need, the iteration is carried out. -/
theorem exists_step (h : CleanInv s L loc prog (mkPpa ch lun c 0).blkAddr j t loc')
    (hp : InGeom s.sp (mkPpa ch lun c j)) (hj : (mkPpa ch lun c j).pg.toNat = j)
    (hgc : loc (mkPpa ch lun c 0).blk.toNat = .gc)
    (hroom : t.getPg (mkPpa ch lun c j) = .valid → 2 ≤ t.room) :
    ∃ t', Ssd.cleanOnePage (mkPpa ch lun c 0) j t = some t' := by
  change ∃ t', (if t.getPg (mkPpa ch lun c j) = .valid then
    (t.gcReadPage (mkPpa ch lun c j)).gcWritePage (mkPpa ch lun c j) else some t) = some t'
  split
  · next hv =>
    have hsame := sameFtl_gcDelay t (mkPpa ch lun c j) .read
    have hlive := h.live hp hj hv
    refine (h.inv.same hsame).exists_gcWritePage ?_ ((h.gc _).mpr hgc) ?_
    · unfold livePages Ssd.getPg at *
      rwa [hsame.sp, hsame.blk]
    · rw [hsame.room]
      exact hroom hv
  · exact ⟨t, rfl⟩

end CleanInv

namespace FtlInv

variable {s s' : Ssd} {L : Nat} {loc : Nat → Place} {prog : Nat × Nat} {ch lun c : Nat}

theorem cleanInv_zero (h : FtlInv s L loc prog none fun _ => False) (b : BlkAddr) :
    CleanInv s L loc prog b 0 s loc where
  inv := by
    have : pagesBefore s.sp b 0 = fun _ => False :=
      funext fun q => propext ⟨fun hq => absurd hq.2.2 (Nat.not_lt_zero _), False.elim⟩
    rwa [this]
  sp := rfl
  gc _ := Iff.rfl
  room := by simp [countBelow]
  blk _ _ := rfl

/-- `clean_one_block`: every page of the block is dead. -/
theorem cleanOneBlock (h : FtlInv s L loc prog none fun _ => False) (hch : ch < s.sp.nchs)
    (hlun : lun < s.sp.lunsPerCh) (hc : c < s.sp.blksPerPl) (hgc : loc c = .gc)
    (hw : s.cleanOneBlock (mkPpa ch lun c 0) = some s') :
    ∃ loc', CleanInv s L loc prog (mkPpa ch lun c 0).blkAddr s.sp.pgsPerBlk s' loc' := by
  have hgc' : loc (mkPpa ch lun c 0).blk.toNat = .gc := by rwa [mkPpa_blk h.repr hc]
  have := forLoop_partial
    (I := fun j t => ∃ loc', CleanInv s L loc prog (mkPpa ch lun c 0).blkAddr j t loc') ?_
    ⟨loc, h.cleanInv_zero _⟩ hw
  · rwa [Nat.zero_add] at this
  · rintro j t t' - hj ⟨loc', ht⟩ hstep
    have hj' : j < s.sp.pgsPerBlk := by omega
    exact ht.step (inGeom_mkPpa h.repr hch hlun hc hj') (mkPpa_pg h.repr hj') hgc' hstep

/-- With one free page more than the block has valid ones, the block is cleaned. -/
theorem exists_cleanOneBlock (h : FtlInv s L loc prog none fun _ => False) (hch : ch < s.sp.nchs)
    (hlun : lun < s.sp.lunsPerCh) (hc : c < s.sp.blksPerPl) (hgc : loc c = .gc)
    (hroom : countBelow (s.blk (mkPpa ch lun c 0).blkAddr).pg .valid s.sp.pgsPerBlk + 1 ≤ s.room) :
    ∃ s', s.cleanOneBlock (mkPpa ch lun c 0) = some s' := by
  have hgc' : loc (mkPpa ch lun c 0).blk.toNat = .gc := by rwa [mkPpa_blk h.repr hc]
  have := forLoop_total (f := Ssd.cleanOnePage (mkPpa ch lun c 0)) (n := s.sp.pgsPerBlk) (i := 0)
    (I := fun j t => ∃ loc', CleanInv s L loc prog (mkPpa ch lun c 0).blkAddr j t loc') ?_
    ⟨loc, h.cleanInv_zero _⟩
  · exact this.imp fun _ h => h.1
  · rintro j t - hj ⟨loc', ht⟩
    have hj' : j < s.sp.pgsPerBlk := by omega
    have hin := inGeom_mkPpa h.repr hch hlun hc hj'
    have hpg : (mkPpa ch lun c j).pg.toNat = j := mkPpa_pg h.repr hj'
    have hstep : ∃ t', Ssd.cleanOnePage (mkPpa ch lun c 0) j t = some t' := by
      refine ht.exists_step hin hpg hgc' fun hv => ?_
      -- the page at hand is one of the block's valid pages not yet copied
      have hblk := ht.blk (mkPpa ch lun c 0).blkAddr hgc'
      have hvj : (s.blk (mkPpa ch lun c 0).blkAddr).pg j = .valid := by
        rw [← hblk, ← hv]
        unfold Ssd.getPg
        rw [hpg]
        rfl
      have hle : countBelow (s.blk (mkPpa ch lun c 0).blkAddr).pg .valid (j + 1) ≤
          countBelow (s.blk (mkPpa ch lun c 0).blkAddr).pg .valid s.sp.pgsPerBlk :=
        countBelow_mono _ _ hj'
      rw [countBelow_succ, if_pos hvj] at hle
      have := ht.room
      omega
    obtain ⟨t', ht'⟩ := hstep
    exact ⟨t', ht', ht.step hin hpg hgc' ht'⟩

/-- Erasing the next block of the line being collected, all pages of which are dead. -/
theorem eraseBlock {p : Ppa} (h : FtlInv s L loc (ch, lun) none
      (pagesBefore s.sp p.blkAddr s.sp.pgsPerBlk)) (hp : BlkIn s.sp p.blkAddr)
    (hch : p.ch.toNat = ch) (hlun : p.lun.toNat = lun)
    (hgcs : ∀ l < s.sp.blksPerPl, loc l = .gc ↔ l = p.blk.toNat) :
    FtlInv (s.markBlockFree p) L loc (ch, lun + 1) none fun _ => False := by
  obtain ⟨hpages, -, -⟩ := h.pages.markBlockFree hp hch hlun hgcs
  have hall : ∀ q, InGeom s.sp q → q.blkAddr = p.blkAddr →
      pagesBefore s.sp p.blkAddr s.sp.pgsPerBlk q := fun q hq hqb => ⟨hq, hqb, hq.pg⟩
  have hfull : fill s.sp loc s.wp (ch, lun) p.blkAddr = s.sp.pgsPerBlk := by
    rw [fill_gc (b := p.blkAddr) ((hgcs _ hp.blk).mpr rfl)]
    refine if_neg fun hlt => ?_
    change p.ch.toNat < ch ∨ p.ch.toNat = ch ∧ p.lun.toNat < lun at hlt
    omega
  exact
    { repr := h.repr
      pls := h.pls
      pages := hpages
      map := h.map.erase (fun q hq => hq.2.1) fun q hq hqb _ => hall q hq hqb
      log := h.log.erase hp hfull (fun b hb => fill_nextLun hp hch hlun hgcs hb) fun l hl hm hlb => by
        obtain ⟨⟨hq, -, hdead⟩, -⟩ := h.map.mapped hl (by simpa [mappedPpa] using hm)
        exact hdead (hall _ hq hlb)
      dead := fun _ hq => hq.elim }

end FtlInv

/-- The collection of line `c` has got to the block `prog`: the free pages it has
taken are those of the valid pages erased. -/
structure GcInv (s : Ssd) (L : Nat) (c : Nat) (prog : Nat × Nat) (t : Ssd) : Prop where
  inv : ∃ loc, FtlInv t L loc prog none (fun _ => False) ∧
    ∀ l < t.sp.blksPerPl, loc l = .gc ↔ l = c
  sp : t.sp = s.sp
  line : c < s.sp.blksPerPl
  room : t.room - lineCnt t.sp t.blk .valid c = s.room - lineCnt s.sp s.blk .valid c

namespace GcInv

variable {s t t' : Ssd} {L c ch lun : Nat}

/-- One iteration of the loops of `do_gc`. -/
theorem step (h : GcInv s L c (ch, lun) t) (hch : ch < s.sp.nchs) (hlun : lun < s.sp.lunsPerCh)
    (hw : Ssd.gcOneBlock c ch lun t = some t') : GcInv s L c (ch, lun + 1) t' := by
  obtain ⟨⟨loc, hinv, hgcs⟩, hsp, hline, hroom⟩ := h
  rw [← hsp] at hch hlun hline
  have hgc : loc c = .gc := (hgcs c hline).mpr rfl
  obtain ⟨u, hu, rfl⟩ := Option.map_eq_some_iff.mp hw
  obtain ⟨loc', hclean⟩ := hinv.cleanOneBlock hch hlun hline hgc hu
  set p := mkPpa ch lun c 0 with hp
  have hpch : p.ch.toNat = ch := mkPpa_ch hinv.repr hch
  have hplun : p.lun.toNat = lun := mkPpa_lun hinv.repr hlun
  have hpblk : p.blk.toNat = c := mkPpa_blk hinv.repr hline
  have hb : BlkIn u.sp p.blkAddr := by
    rw [hclean.sp, hp, mkPpa_blkAddr hinv.repr 0 hch hlun hline]
    exact ⟨hch, hlun, rfl, hline⟩
  have hgcs' : ∀ l < u.sp.blksPerPl, loc' l = .gc ↔ l = p.blk.toNat := fun l hl => by
    rw [hclean.gc l, hgcs l (hclean.sp ▸ hl), hpblk]
  have hinv' := hclean.inv
  rw [← hclean.sp] at hinv'
  obtain ⟨-, hroom', hcnt⟩ := hinv'.pages.markBlockFree hb hpch hplun hgcs'
  have hsame := (sameFtl_gcDelay (u.markBlockFree p) p .erase).trans (sameFtl_setGcEndtime _ p)
  refine ⟨⟨loc', (hinv'.eraseBlock hb hpch hplun hgcs').same hsame, fun l hl => ?_⟩,
    hsame.sp.trans (hclean.sp.trans hsp), hsp ▸ hline, ?_⟩
  · rw [hgcs' l (hsame.sp ▸ hl), hpblk]
  · -- the collected line itself is not written to while its block is cleaned
    have hsameLine : lineCnt u.sp u.blk .valid c = lineCnt t.sp t.blk .valid c := by
      rw [hclean.sp]
      exact lineCnt_congr fun x _ k _ => by rw [hclean.blk (lineBlk c x) hgc]
    have hsameBlk : countBelow (u.blk p.blkAddr).pg .valid u.sp.pgsPerBlk =
        countBelow (t.blk p.blkAddr).pg .valid t.sp.pgsPerBlk := by
      rw [hclean.sp, hclean.blk p.blkAddr (by
        change loc p.blk.toNat = .gc
        rwa [hpblk])]
    have h1 := hclean.room
    rw [hpblk, hsameLine, hsameBlk] at hcnt
    rw [hsame.room, hsame.sp, hsame.blk, hroom']
    change u.room - (lineCnt u.sp (u.markBlockFree p).blk .valid c : Int) = _
    omega

/-- With one free page more than the line has valid ones, the iteration is carried out. -/
theorem exists_step (h : GcInv s L c (ch, lun) t) (hch : ch < s.sp.nchs)
    (hlun : lun < s.sp.lunsPerCh) (hroom : lineCnt s.sp s.blk .valid c + 1 ≤ s.room) :
    ∃ t', Ssd.gcOneBlock c ch lun t = some t' := by
  obtain ⟨⟨loc, hinv, hgcs⟩, hsp, hline, hroom'⟩ := h
  rw [← hsp] at hch hlun hline
  have hb : BlkIn t.sp (lineBlk c (ch, lun)) := ⟨hch, hlun, rfl, hline⟩
  have hle : countBelow (t.blk (lineBlk c (ch, lun))).pg .valid t.sp.pgsPerBlk ≤
      lineCnt t.sp t.blk .valid c := countBelow_le_lineCnt hb
  rw [← mkPpa_blkAddr hinv.repr 0 hch hlun hline] at hle
  obtain ⟨u, hu⟩ := hinv.exists_cleanOneBlock hch hlun hline ((hgcs c hline).mpr rfl) (by omega)
  exact ⟨_, Option.map_eq_some_iff.mpr ⟨u, hu, rfl⟩⟩

theorem nextCh (h : GcInv s L c (ch, s.sp.lunsPerCh) t) : GcInv s L c (ch + 1, 0) t := by
  obtain ⟨⟨loc, hinv, hgcs⟩, hsp, hline, hroom⟩ := h
  have hfill : ∀ b, BlkIn t.sp b →
      fill t.sp loc t.wp (ch + 1, 0) b = fill t.sp loc t.wp (ch, s.sp.lunsPerCh) b :=
    fun b hb => by rw [← hsp, fill_nextCh hb]
  exact ⟨⟨loc, { hinv with
    pages := hinv.pages.setProg hfill
    log := hinv.log.frame rfl rfl hfill }, hgcs⟩, hsp, hline, hroom⟩

/-- The inner loop of `do_gc`. -/
theorem channel (h : GcInv s L c (ch, 0) t) (hch : ch < s.sp.nchs)
    (hw : forLoop (Ssd.gcOneBlock c ch) s.sp.lunsPerCh 0 t = some t') :
    GcInv s L c (ch + 1, 0) t' := by
  have := forLoop_partial (I := fun lun t => GcInv s L c (ch, lun) t)
    (fun lun _ _ _ hlt ht hstep => ht.step hch (by omega) hstep) h hw
  rw [Nat.zero_add] at this
  exact this.nextCh

theorem exists_channel (h : GcInv s L c (ch, 0) t) (hch : ch < s.sp.nchs)
    (hroom : lineCnt s.sp s.blk .valid c + 1 ≤ s.room) :
    ∃ t', forLoop (Ssd.gcOneBlock c ch) s.sp.lunsPerCh 0 t = some t' := by
  have := forLoop_total (f := Ssd.gcOneBlock c ch) (n := s.sp.lunsPerCh) (i := 0)
    (I := fun lun t => GcInv s L c (ch, lun) t) (fun lun t _ hlt ht => by
      obtain ⟨t', ht'⟩ := ht.exists_step hch (by omega) hroom
      exact ⟨t', ht', ht.step hch (by omega) ht'⟩) h
  exact this.imp fun _ h => h.1

/-- The loops of `do_gc` erase the whole line. -/
theorem gcLine (h : GcInv s L c (0, 0) s) (hw : s.gcLine c = some t') :
    GcInv s L c (s.sp.nchs, 0) t' := by
  have := forLoop_partial (I := fun ch t => GcInv s L c (ch, 0) t)
    (fun ch _ _ _ hlt ht hstep => ht.channel (by omega) hstep) h hw
  rwa [Nat.zero_add] at this

theorem exists_gcLine (h : GcInv s L c (0, 0) s)
    (hroom : lineCnt s.sp s.blk .valid c + 1 ≤ s.room) : ∃ t', s.gcLine c = some t' := by
  have := forLoop_total
    (f := fun ch => forLoop (Ssd.gcOneBlock c ch) s.sp.lunsPerCh 0) (n := s.sp.nchs) (i := 0)
    (I := fun ch t => GcInv s L c (ch, 0) t) (fun ch t _ hlt ht => by
      obtain ⟨t', ht'⟩ := ht.exists_channel (by omega) hroom
      exact ⟨t', ht', ht.channel (by omega) ht'⟩) h
  exact this.imp fun _ h => h.1

/-- `mark_line_free` ends the collection with all the pages of the line to spare. -/
theorem markLineFree (h : GcInv s L c (s.sp.nchs, 0) t) :
    Idle (t.markLineFree c) L ∧ (t.markLineFree c).sp = s.sp ∧
      (t.markLineFree c).room = s.room - lineCnt s.sp s.blk .valid c + s.sp.pgsPerLine := by
  obtain ⟨⟨loc, hinv, hgcs⟩, hsp, hline, hroom⟩ := h
  rw [← hsp] at hline
  have hblk : (mkPpa 0 0 c 0).blk.toNat = c := mkPpa_blk hinv.repr hline
  have heq : t.markLineFree c = { t with lm := t.lm.markLineFree c } := by
    unfold Ssd.markLineFree
    rw [hblk]
  have hgc : loc c = .gc := (hgcs c hline).mpr rfl
  rw [← hsp] at hinv
  obtain ⟨hpages, hroom'⟩ := hinv.pages.markLineFree hline hgcs
  have hempty : lineCnt t.sp t.blk .valid c = 0 := by
    have := hpages.lines.vpc c hline (by rw [Function.update_self]; decide)
    simpa [LineMgmt.markLineFree] using this.symm
  rw [heq]
  refine ⟨⟨Function.update loc c .free, ?_, fun l hl => ?_⟩, hsp, ?_⟩
  · exact
      { repr := hinv.repr
        pls := hinv.pls
        pages := hpages
        map := hinv.map.frame rfl rfl rfl rfl
        log := hinv.log.frame rfl rfl fun b hb => fill_markLineFree hgcs hb
        dead := fun _ hq => hq.elim }
  · by_cases hlc : l = c
    · rw [hlc, Function.update_self]
      decide
    · rw [Function.update_of_ne hlc]
      exact fun he => hlc ((hgcs l hl).mp he)
  · rw [hroom', hsp] at *
    omega

end GcInv

/-! ## calls -/

namespace Idle

variable {s s' : Ssd} {L : Nat}

/-- A selected victim is a line with an invalid page, and its collection starts. -/
theorem gcInv (h : Idle s L) {force : Bool} {c : Nat} {lm : LineMgmt}
    (hv : s.lm.selectVictimLine s.sp.pgsPerLine force = some (c, lm)) :
    GcInv { s with lm := lm } L c (0, 0) { s with lm := lm } ∧ (lm.lines c).id = c ∧
      lineCnt s.sp s.blk .valid c < s.sp.pgsPerLine ∧ ({ s with lm := lm } : Ssd).room = s.room := by
  obtain ⟨loc, hinv, hgc⟩ := h
  obtain ⟨hc, hvic, hpages, hroom⟩ := hinv.pages.selectVictim hgc hv
  refine ⟨⟨⟨Function.update loc c .gc, ?_, fun l hl => ?_⟩, rfl, hc, rfl⟩, hpages.lines.id c hc,
    hinv.pages.victim c hc hvic, hroom⟩
  · exact
      { repr := hinv.repr
        pls := hinv.pls
        pages := hpages
        map := hinv.map.frame rfl rfl rfl rfl
        log := hinv.log.frame rfl rfl fun b hb => fill_selectVictim hvic hgc hb
        dead := fun _ hq => hq.elim }
  · by_cases hlc : l = c
    · simp [hlc]
    · rw [Function.update_of_ne hlc]
      exact ⟨fun he => absurd he (hgc l hl), fun he => absurd he hlc⟩

/-- `do_gc` keeps the invariant; when it collects a line it gains free pages. -/
theorem doGc (h : Idle s L) {force : Bool} {r : Int} (hw : s.doGc force = some (r, s')) :
    Idle s' L ∧ s'.sp = s.sp ∧
      (r = -1 ∧ s' = s ∧ s.lm.selectVictimLine s.sp.pgsPerLine force = none ∨
        r = 0 ∧ s.room + 1 ≤ s'.room) := by
  unfold Ssd.doGc at hw
  split at hw
  · next hnone =>
    cases hw
    exact ⟨h, rfl, .inl ⟨rfl, rfl, hnone⟩⟩
  · next c lm hv =>
    obtain ⟨hgc, hid, hlt, hroom⟩ := h.gcInv hv
    obtain ⟨t, ht, he⟩ := Option.map_eq_some_iff.mp hw
    cases he
    rw [hid] at ht ⊢
    obtain ⟨hidle, hsp, hroom'⟩ := (hgc.gcLine ht).markLineFree
    refine ⟨hidle, hsp, .inr ⟨rfl, ?_⟩⟩
    rw [hroom', hroom]
    dsimp only
    omega

/-- With a line's worth of free pages `do_gc` does not run out of them. -/
theorem exists_doGc (h : Idle s L) (force : Bool) (hroom : s.sp.pgsPerLine ≤ s.room) :
    ∃ r s', s.doGc force = some (r, s') := by
  cases hv : s.lm.selectVictimLine s.sp.pgsPerLine force with
  | none => exact ⟨-1, s, by simp [Ssd.doGc, hv]⟩
  | some victim =>
      obtain ⟨c, lm⟩ := victim
      obtain ⟨hgc, hid, hlt, hroom'⟩ := h.gcInv hv
      obtain ⟨t, ht⟩ := hgc.exists_gcLine (by
        rw [hroom']
        dsimp only
        omega)
      exact ⟨0, t.markLineFree c, by simp [Ssd.doGc, hv, hid, ht]⟩

/-- The `while` loop of `ssd_write` keeps the invariant and gives no free page up. -/
theorem gcHigh {fuel : Nat} (h : Idle s L) (hw : Ssd.gcHigh fuel s = some s') :
    Idle s' L ∧ s'.sp = s.sp ∧ s.room ≤ s'.room ∧
      (s'.shouldGcHigh = true → s'.lm.selectVictimLine s'.sp.pgsPerLine true = none) := by
  induction fuel generalizing s with
  | zero => cases hw
  | succ fuel ih =>
      unfold Ssd.gcHigh at hw
      split at hw
      · obtain ⟨⟨r, t⟩, ht, hrest⟩ := Option.bind_eq_some_iff.mp hw
        obtain ⟨hidle, hsp, hcase⟩ := h.doGc ht
        rcases hcase with ⟨rfl, rfl, hnone⟩ | ⟨rfl, hgain⟩
        · simp only [if_true] at hrest
          cases hrest
          exact ⟨h, rfl, Int.le_refl _, fun _ => hnone⟩
        · have hne : ¬ (0 : Int) = -1 := by decide
          simp only [hne, if_false] at hrest
          obtain ⟨h1, h2, h3, h4⟩ := ih hidle hrest
          exact ⟨h1, h2.trans hsp, by omega, h4⟩
      · next hhigh =>
        cases hw
        exact ⟨h, rfl, Int.le_refl _, fun hh => absurd hh hhigh⟩

/-- The old page of a logical page to be written is invalidated. -/
theorem invalidateOld (h : Idle s L) {l : Nat} (hl : l < L) :
    ∃ loc, FtlInv (s.invalidateOld l) L loc (0, 0) (some l) (fun _ => False) ∧
      (∀ x < s.sp.blksPerPl, loc x ≠ .gc) ∧ (s.invalidateOld l).sp = s.sp ∧
      (s.invalidateOld l).room = s.room := by
  obtain ⟨loc, hinv, hgc⟩ := h
  unfold Ssd.invalidateOld
  dsimp only
  split
  · next hm =>
    obtain ⟨⟨hp, hv, -⟩, -⟩ := hinv.map.mapped hl hm
    set p := s.maptbl l with hpdef
    have hpages := hinv.pages.markPageInvalid hinv.repr hp hv (hgc _ hp.blk)
    refine ⟨Function.update loc p.blk.toNat
      (if loc p.blk.toNat = .full then .victim else loc p.blk.toNat), ?_, fun x hx => ?_, rfl, ?_⟩
    · exact
        { repr := hinv.repr
          pls := hinv.pls
          pages := hpages.frame _ _ _ _ _
          map := hinv.map.invalidate hinv.pls hl hm
          log := hinv.log.frame rfl rfl fun b _ => fill_overwrite p.blk.toNat
          dead := fun _ hq => hq.elim }
    · by_cases hxc : x = p.blk.toNat
      · rw [hxc, Function.update_self]
        split
        · decide
        · exact hgc _ hp.blk
      · rw [Function.update_of_ne hxc]
        exact hgc x hx
    · exact room_markPageInvalid hp hv
  · next hm =>
    exact ⟨loc, { hinv with map := hinv.map.exempt_unmapped hm }, hgc, rfl, rfl⟩

/-- One iteration of the write loop of `ssd_write`. -/
theorem writePage (h : Idle s L) {l stime maxlat : Nat} {x : Nat × Ssd} (hl : l < L)
    (hP : 0 < s.sp.pgsPerLine) (hw : Ssd.writePage stime l (maxlat, s) = some x) :
    Idle x.2 L ∧ x.2.sp = s.sp ∧ x.2.room + 1 = s.room := by
  obtain ⟨⟨p, t⟩, ht, rfl⟩ := Option.map_eq_some_iff.mp hw
  obtain ⟨loc, hinv, hgc, hsp, hroom⟩ := h.invalidateOld hl
  rw [← hsp] at hP hgc
  obtain ⟨loc', hinv', hgrown⟩ := hinv.writeNewPage hl hP ht
  have hsame := sameFtl_ssdAdvanceStatus t p { cmd := .write, stime := stime }
  have hgc' : ∀ y < t.sp.blksPerPl, loc' y ≠ .gc := fun y hy =>
    (not_congr (hgrown.gc y)).mpr (hgc y (hgrown.sp ▸ hy))
  refine ⟨Idle.same ⟨loc', hinv', hgc'⟩ hsame, hsame.sp.trans (hgrown.sp.trans hsp), ?_⟩
  have h1 := hsame.room
  have h2 := hgrown.room
  change (t.ssdAdvanceStatus p _).2.room + 1 = s.room
  omega

theorem exists_writePage (h : Idle s L) {l : Nat} (stime maxlat : Nat) (hl : l < L)
    (hP : 0 < s.sp.pgsPerLine) (hroom : 2 ≤ s.room) :
    ∃ x, Ssd.writePage stime l (maxlat, s) = some x := by
  obtain ⟨loc, hinv, hgc, hsp, hroom'⟩ := h.invalidateOld hl
  rw [← hsp] at hP
  obtain ⟨p, t, ht⟩ := hinv.exists_writeNewPage hP (by omega)
  exact ⟨_, Option.map_eq_some_iff.mpr ⟨(p, t), ht, rfl⟩⟩

/-- A read only takes time. -/
theorem readPage {l stime maxlat : Nat} {x : Nat × Ssd}
    (hw : Ssd.readPage stime l (maxlat, s) = some x) : SameFtl s x.2 := by
  unfold Ssd.readPage at hw
  dsimp only at hw
  split at hw
  · cases hw
    exact .refl s
  · cases hw
    exact sameFtl_ssdAdvanceStatus s _ _

/-- A logical page of the SSD shows that there are pages. -/
theorem pgsPerLine_pos (h : Idle s L) (hL : L ≤ s.sp.ttPgs) {l : Nat} (hl : l < L) :
    0 < s.sp.pgsPerLine := by
  obtain ⟨loc, hinv, -⟩ := h
  rw [SsdParams.ttPgs_eq _ hinv.pls] at hL
  refine Nat.pos_of_ne_zero fun hz => ?_
  rw [hz, Nat.mul_zero] at hL
  omega

/-- The write loop of `ssd_write`, from logical page `i` on. -/
theorem writeLoop (h : Idle s L) (hL : L ≤ s.sp.ttPgs) {stime i n : Nat} {x : Nat × Ssd}
    (hlt : ∀ l, i ≤ l → l < i + n → l < L)
    (hw : forLoop (Ssd.writePage stime) n i (0, s) = some x) :
    Idle x.2 L ∧ x.2.sp = s.sp ∧ x.2.room + n = s.room := by
  have := forLoop_partial (I := fun j x => Idle x.2 L ∧ x.2.sp = s.sp ∧ x.2.room + (j - i) = s.room)
    ?_ ⟨h, rfl, by simp⟩ hw
  · obtain ⟨h1, h2, h3⟩ := this
    exact ⟨h1, h2, by push_cast at h3; omega⟩
  · rintro j ⟨m, t⟩ x' hi hj ⟨h1, h2, h3⟩ hstep
    have hP := h1.pgsPerLine_pos (h2 ▸ hL) (hlt j hi hj)
    obtain ⟨h4, h5, h6⟩ := h1.writePage (hlt j hi hj) hP hstep
    refine ⟨h4, h5.trans h2, ?_⟩
    dsimp only at h3 h6
    push_cast
    omega

/-- With one free page more than it writes, the loop is carried out. -/
theorem exists_writeLoop (h : Idle s L) (hL : L ≤ s.sp.ttPgs) (stime : Nat) {i n : Nat}
    (hlt : ∀ l, i ≤ l → l < i + n → l < L) (hroom : (n : Int) + 1 ≤ s.room) :
    ∃ x, forLoop (Ssd.writePage stime) n i (0, s) = some x := by
  have := forLoop_total (f := Ssd.writePage stime) (n := n) (i := i) (s := (0, s))
    (I := fun j x => Idle x.2 L ∧ x.2.sp = s.sp ∧ x.2.room + (j - i) = s.room) ?_
    ⟨h, rfl, by simp⟩
  · exact this.imp fun _ h => h.1
  · rintro j ⟨m, t⟩ hi hj ⟨h1, h2, h3⟩
    have hP := h1.pgsPerLine_pos (h2 ▸ hL) (hlt j hi hj)
    dsimp only at h3
    have htwo : 2 ≤ t.room := by omega
    obtain ⟨x, hx⟩ := h1.exists_writePage stime m (hlt j hi hj) hP htwo
    obtain ⟨h4, h5, h6⟩ := h1.writePage (hlt j hi hj) hP hx
    refine ⟨x, hx, h4, h5.trans h2, ?_⟩
    dsimp only at h6
    push_cast
    omega

/-- A read of the SSD. -/
theorem ssdRead (h : Idle s L) {slba nlb stime : Nat} {x : Nat × Ssd}
    (hw : s.ssdRead slba nlb stime = some x) :
    Idle x.2 L ∧ x.2.sp = s.sp ∧ x.2.lm = s.lm ∧ x.2.room = s.room := by
  have := forLoop_partial (I := fun _ x => SameFtl s x.2)
    (fun _ _ _ _ _ ht hstep => ht.trans (readPage hstep)) (.refl s) hw
  exact ⟨h.same this, this.sp, this.lm, this.room⟩

/-- A read is always carried out. -/
theorem exists_ssdRead (s : Ssd) (slba nlb stime : Nat) :
    ∃ x, s.ssdRead slba nlb stime = some x := by
  have := forLoop_total (f := Ssd.readPage stime)
    (n := s.sp.endLpn slba nlb + 1 - s.sp.startLpn slba) (i := s.sp.startLpn slba) (s := (0, s))
    (I := fun _ _ => True) ?_ trivial
  · exact this.imp fun _ h => h.1
  · rintro j ⟨m, t⟩ - - -
    unfold Ssd.readPage
    dsimp only
    split
    · exact ⟨_, rfl, trivial⟩
    · exact ⟨_, rfl, trivial⟩

/-- The logical pages that the loop of a call runs over are those of its `Below`. -/
theorem lt_of_below {sp : SsdParams} {slba nlb : Nat}
    (hb : ∀ lpn, sp.startLpn slba ≤ lpn → lpn ≤ sp.endLpn slba nlb → lpn < L) (l : Nat)
    (hl : sp.startLpn slba ≤ l)
    (hlt : l < sp.startLpn slba + (sp.endLpn slba nlb + 1 - sp.startLpn slba)) : l < L :=
  hb l hl (by omega)

/-- Every call keeps the invariant. -/
theorem step (h : Idle s L) (hL : L ≤ s.sp.ttPgs) {fuel : Nat} {call : FtlCall}
    (hb : call.Below s.sp L) (hw : s.step fuel call = some s') : Idle s' L ∧ s'.sp = s.sp := by
  cases call with
  | read slba nlb stime =>
      obtain ⟨x, hx, rfl⟩ := Option.map_eq_some_iff.mp hw
      obtain ⟨h1, h2, -⟩ := h.ssdRead hx
      exact ⟨h1, h2⟩
  | write slba nlb stime =>
      obtain ⟨x, hx, rfl⟩ := Option.map_eq_some_iff.mp hw
      obtain ⟨t, ht, hloop⟩ := Option.bind_eq_some_iff.mp hx
      obtain ⟨h1, h2, -⟩ := h.gcHigh ht
      rw [← h2] at hL
      obtain ⟨h3, h4, -⟩ := h1.writeLoop hL (lt_of_below hb) hloop
      exact ⟨h3, h4.trans h2⟩
  | gc force =>
      obtain ⟨⟨r, t⟩, ht, rfl⟩ := Option.map_eq_some_iff.mp hw
      obtain ⟨h1, h2, -⟩ := h.doGc ht
      exact ⟨h1, h2⟩

/-- A run from a state with the invariant. -/
theorem runAll (h : Idle s L) (hL : L ≤ s.sp.ttPgs) {fuel : Nat} {calls : List FtlCall}
    (hb : ∀ call ∈ calls, call.Below s.sp L)
    (hw : Lib.runAll (Ssd.step fuel) calls s = some s') : Idle s' L ∧ s'.sp = s.sp :=
  runAll_partial (fun t => Idle t L ∧ t.sp = s.sp) (fun call => call.Below s.sp L)
    (fun t call t' hok ht hstep => by
      obtain ⟨hidle, hsp⟩ := ht
      rw [← hsp] at hok hL
      obtain ⟨h1, h2⟩ := hidle.step hL hok hstep
      exact ⟨h1, h2.trans hsp⟩) hb ⟨h, rfl⟩ hw

end Idle

/-- `ssd_init` establishes the invariant, with every page but those of no line free. -/
theorem idle_ssdInit {sp : SsdParams} (hr : Representable sp) (hpl : sp.plsPerLun = 1)
    (clock : Nat → Nat) (L : Nat) {s : Ssd} (hi : Ssd.ssdInit sp clock = some s) :
    Idle s L ∧ s.sp = sp ∧ s.lm.freeLineCnt = sp.blksPerPl - 1 := by
  unfold Ssd.ssdInit at hi
  split at hi
  · contradiction
  next c lm hfree =>
  cases hi
  obtain ⟨hc, -, hlines, hcnt⟩ := (LineInv.ssdInitLines sp.blksPerPl).getNextFreeLine hfree
  -- the first line of the free list is line 0
  have hc0 : c = 0 := by
    unfold LineMgmt.getNextFreeLine LineMgmt.ssdInitLines at hfree
    dsimp only at hfree
    cases hT : sp.blksPerPl with
    | zero => omega
    | succ n =>
        rw [hT, List.range_succ_eq_map] at hfree
        cases hfree
        rfl
  subst hc0
  set loc := Function.update (fun _ : Nat => Place.free) 0 Place.cur with hloc
  have hzero : ∀ st, st ≠ .free → ∀ l, lineCnt sp
      (fun _ => { pg := fun _ => .free, ipc := 0, vpc := 0, eraseCnt := 0 }) st l = 0 :=
    fun st hst l => lineCnt_eq_zero fun _ _ _ _ he => hst he.symm
  have hfill : ∀ b : BlkAddr, fill sp loc
      { curline := 0, ch := 0, lun := 0, pg := 0, blk := 0, pl := 0 } (0, 0) b = 0 := by
    intro b
    by_cases hb : b.blk = 0
    · rw [fill_cur (by rw [hb, hloc, Function.update_self])]
      simp
    · rw [fill_free (by rw [hloc, Function.update_of_ne hb])]
  have hgc : ∀ l < sp.blksPerPl, loc l ≠ .gc := by
    intro l _
    by_cases hl : l = 0
    · rw [hl, hloc, Function.update_self]
      decide
    · rw [hloc, Function.update_of_ne hl]
      decide
  refine ⟨⟨loc, ?_, hgc⟩, rfl, hcnt⟩
  exact
    { repr := hr
      pls := hpl
      pages :=
        { lines := hlines.congr (fun l _ _ => hzero _ (by decide) l)
            (fun l _ _ => hzero _ (by decide) l)
          counts := ⟨fun b _ => by rw [countBelow_eq_zero _ _ _ (by simp)]; rfl,
            fun b _ => by rw [countBelow_eq_zero _ _ _ (by simp)]; rfl⟩
          free := fun b _ k _ => by
            rw [hfill b]
            simp
          cur := fun l _ => by
            by_cases hl : l = 0
            · rw [hl, hloc, Function.update_self]
              simp
            · rw [hloc, Function.update_of_ne hl]
              simp [hl]
          curline := hc
          wpBlk := rfl
          wpPl := rfl
          wpIn := fun hP => sp.dims_pos hP
          full := fun l _ hf => absurd (of_update_eq hf (by decide)).2 (by decide)
          victim := fun l _ hf => absurd (of_update_eq hf (by decide)).2 (by decide) }
      map :=
        { mapsTo := fun l hl => absurd rfl hl.2.2
          mapsTo' := fun p hp => by cases hp.2.1
          left := fun l hl => absurd rfl hl.2.2
          right := fun p hp => by cases hp.2.1 }
      log :=
        { ok := always_nil _
          written := fun b _ => by
            rw [hfill b]
            rfl }
      dead := fun _ hq => hq.elim }

end Femu.Bbssd

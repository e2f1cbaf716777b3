import Femu.Bbssd.Ftl
import Femu.Lib.Count

/-!
# Femu.Bbssd.Pages

Page states, and what the counters of blocks and lines say about them.

A line is the blocks with its number on every chip, a chip being a channel and
a LUN of it.  `lineCnt` counts the pages of a line with a given status, `fill`
says how many pages of a block are written, which the place of its line and the
write pointer determine.  `PageInv` is the invariant of the two, on top of
`LineInv`.
-/

namespace Femu.Bbssd

open Lib

/-! ## counting pages -/

/-- The chips of the SSD. -/
def chips (sp : SsdParams) : Finset (Nat × Nat) :=
  Finset.range sp.nchs ×ˢ Finset.range sp.lunsPerCh

@[simp] theorem mem_chips {sp : SsdParams} {c : Nat × Nat} :
    c ∈ chips sp ↔ c.1 < sp.nchs ∧ c.2 < sp.lunsPerCh := by
  simp [chips]

theorem card_chips (sp : SsdParams) : (chips sp).card = sp.nchs * sp.lunsPerCh := by
  simp [chips]

/-- The block of a line on a chip. -/
def lineBlk (l : Nat) (c : Nat × Nat) : BlkAddr := { ch := c.1, lun := c.2, pl := 0, blk := l }

/-- The pages of line `l` with status `st`. -/
def lineCnt (sp : SsdParams) (blk : BlkAddr → NandBlock) (st : PageStatus) (l : Nat) : Nat :=
  ∑ c ∈ chips sp, countBelow (blk (lineBlk l c)).pg st sp.pgsPerBlk

/-- A block of the geometry. -/
structure BlkIn (sp : SsdParams) (b : BlkAddr) : Prop where
  ch : b.ch < sp.nchs
  lun : b.lun < sp.lunsPerCh
  pl : b.pl = 0
  blk : b.blk < sp.blksPerPl

theorem blkIn_lineBlk {sp : SsdParams} {l : Nat} {c : Nat × Nat} (hc : c ∈ chips sp)
    (hl : l < sp.blksPerPl) : BlkIn sp (lineBlk l c) :=
  ⟨(mem_chips.mp hc).1, (mem_chips.mp hc).2, rfl, hl⟩

theorem BlkIn.eq_lineBlk {sp : SsdParams} {b : BlkAddr} (h : BlkIn sp b) :
    b = lineBlk b.blk (b.ch, b.lun) := by
  obtain ⟨ch, lun, pl, blk⟩ := b
  have hpl : pl = 0 := h.pl
  rw [hpl]
  rfl

theorem BlkIn.chip {sp : SsdParams} {b : BlkAddr} (h : BlkIn sp b) : (b.ch, b.lun) ∈ chips sp :=
  mem_chips.mpr ⟨h.ch, h.lun⟩

/-- In a representable geometry an address packed from in-range coordinates names
the block with those coordinates. -/
theorem mkPpa_blkAddr {sp : SsdParams} (hr : Representable sp) {ch lun l : Nat} (pg : Nat)
    (hch : ch < sp.nchs) (hlun : lun < sp.lunsPerCh) (hl : l < sp.blksPerPl) :
    (mkPpa ch lun l pg).blkAddr = lineBlk l (ch, lun) := by
  unfold Ppa.blkAddr lineBlk
  rw [mkPpa_ch hr hch, mkPpa_lun hr hlun, mkPpa_blk hr hl]
  rfl

/-- The block of a page of the geometry. -/
theorem InGeom.blkIn {sp : SsdParams} {p : Ppa} (h : InGeom sp p) : BlkIn sp p.blkAddr where
  ch := h.ch
  lun := h.lun
  pl := by simp [Ppa.blkAddr, h.pl]
  blk := h.blk

/-- A page is determined by its block and its number there. -/
theorem InGeom.ext_blkAddr {sp : SsdParams} {p q : Ppa} (hp : InGeom sp p) (hq : InGeom sp q)
    (hb : p.blkAddr = q.blkAddr) (hpg : p.pg.toNat = q.pg.toNat) : p = q :=
  hp.ext hq (congrArg BlkAddr.ch hb) (congrArg BlkAddr.lun hb) (congrArg BlkAddr.blk hb) hpg

section lineCnt

variable {sp : SsdParams} {blk blk' : BlkAddr → NandBlock} {st : PageStatus} {l : Nat}

/-- Only the pages with the status matter. -/
theorem lineCnt_congr_iff (h : ∀ c ∈ chips sp, ∀ k < sp.pgsPerBlk,
    (blk' (lineBlk l c)).pg k = st ↔ (blk (lineBlk l c)).pg k = st) :
    lineCnt sp blk' st l = lineCnt sp blk st l :=
  Finset.sum_congr rfl fun c hc => countBelow_congr_iff (h c hc)

theorem lineCnt_congr (h : ∀ c ∈ chips sp, ∀ k < sp.pgsPerBlk,
    (blk' (lineBlk l c)).pg k = (blk (lineBlk l c)).pg k) :
    lineCnt sp blk' st l = lineCnt sp blk st l :=
  lineCnt_congr_iff fun c hc k hk => by rw [h c hc k hk]

/-- Changing a block of another line leaves the count alone. -/
theorem lineCnt_update_ne {b : BlkAddr} (nb : NandBlock) (h : l ≠ b.blk) :
    lineCnt sp (Function.update blk b nb) st l = lineCnt sp blk st l := by
  refine lineCnt_congr fun c _ k _ => ?_
  have hne : lineBlk l c ≠ b := by
    rintro rfl
    exact h rfl
  rw [Function.update_of_ne hne]

/-- Changing a block moves the count of its line by what the block changes. -/
theorem lineCnt_update (blk : BlkAddr → NandBlock) (st : PageStatus) {b : BlkAddr}
    (hb : BlkIn sp b) (nb : NandBlock) :
    lineCnt sp (Function.update blk b nb) st b.blk + countBelow (blk b).pg st sp.pgsPerBlk =
      lineCnt sp blk st b.blk + countBelow nb.pg st sp.pgsPerBlk := by
  unfold lineCnt
  have hat : Function.update blk b nb (lineBlk b.blk (b.ch, b.lun)) = nb := by
    rw [← hb.eq_lineBlk, Function.update_self]
  have h := sum_eq_off
    (f := fun c => countBelow (Function.update blk b nb (lineBlk b.blk c)).pg st sp.pgsPerBlk)
    (g := fun c => countBelow (blk (lineBlk b.blk c)).pg st sp.pgsPerBlk) hb.chip fun c _ hc => by
      have hne : lineBlk b.blk c ≠ b := fun he => hc (by
        rw [Prod.ext_iff]
        exact ⟨congrArg BlkAddr.ch he, congrArg BlkAddr.lun he⟩)
      rw [Function.update_of_ne hne]
  rwa [hat, ← hb.eq_lineBlk] at h

/-- Every page of a line has one of the three statuses. -/
theorem lineCnt_total (sp : SsdParams) (blk : BlkAddr → NandBlock) (l : Nat) :
    lineCnt sp blk .free l + lineCnt sp blk .invalid l + lineCnt sp blk .valid l =
      sp.pgsPerLine := by
  have hblk : ∀ f : Nat → PageStatus, ∀ n, countBelow f .free n + countBelow f .invalid n +
      countBelow f .valid n = n := by
    intro f n
    induction n with
    | zero => simp [countBelow]
    | succ n ih =>
        simp only [countBelow_succ]
        cases f n <;> simp <;> omega
  unfold lineCnt
  rw [← Finset.sum_add_distrib, ← Finset.sum_add_distrib, Finset.sum_const_nat fun c _ => hblk _ _,
    card_chips]
  unfold SsdParams.pgsPerLine SsdParams.blksPerLine SsdParams.ttLuns
  ring

theorem lineCnt_le (sp : SsdParams) (blk : BlkAddr → NandBlock) (st : PageStatus) (l : Nat) :
    lineCnt sp blk st l ≤ sp.pgsPerLine := by
  have := lineCnt_total sp blk l
  cases st <;> omega

/-- No page of the line has the status. -/
theorem lineCnt_eq_zero (h : ∀ c ∈ chips sp, ∀ k < sp.pgsPerBlk, (blk (lineBlk l c)).pg k ≠ st) :
    lineCnt sp blk st l = 0 :=
  Finset.sum_eq_zero fun c hc => countBelow_eq_zero _ _ _ (h c hc)

/-- Every page of the line is free. -/
theorem lineCnt_all_free (h : ∀ c ∈ chips sp, ∀ k < sp.pgsPerBlk,
    (blk (lineBlk l c)).pg k = .free) : lineCnt sp blk .free l = sp.pgsPerLine := by
  have hv : lineCnt sp blk .valid l = 0 :=
    lineCnt_eq_zero fun c hc k hk => by rw [h c hc k hk]; decide
  have hi : lineCnt sp blk .invalid l = 0 :=
    lineCnt_eq_zero fun c hc k hk => by rw [h c hc k hk]; decide
  have := lineCnt_total sp blk l
  omega

/-- Some page of the line has the status. -/
theorem lineCnt_pos {b : BlkAddr} (hb : BlkIn sp b) {k : Nat} (hk : k < sp.pgsPerBlk)
    (h : (blk b).pg k = st) : 0 < lineCnt sp blk st b.blk := by
  have hpos : 0 < countBelow (blk b).pg st sp.pgsPerBlk := countBelow_pos hk h
  rw [hb.eq_lineBlk] at hpos
  exact Finset.sum_pos_iff.mpr ⟨_, hb.chip, hpos⟩

/-- If the valid pages of a line are as many as its pages, each page is valid. -/
theorem valid_of_lineCnt_eq {b : BlkAddr} (hb : BlkIn sp b) {k : Nat} (hk : k < sp.pgsPerBlk)
    (h : lineCnt sp blk .valid b.blk = sp.pgsPerLine) : (blk b).pg k = .valid := by
  have htotal := lineCnt_total sp blk b.blk
  cases hst : (blk b).pg k with
  | valid => rfl
  | free =>
      have := lineCnt_pos hb hk hst
      omega
  | invalid =>
      have := lineCnt_pos hb hk hst
      omega

/-- A block has no more pages of a status than its line. -/
theorem countBelow_le_lineCnt {b : BlkAddr} (hb : BlkIn sp b) :
    countBelow (blk b).pg st sp.pgsPerBlk ≤ lineCnt sp blk st b.blk := by
  have h := Finset.single_le_sum
    (f := fun c => countBelow (blk (lineBlk b.blk c)).pg st sp.pgsPerBlk)
    (fun _ _ => Nat.zero_le _) hb.chip
  rwa [hb.eq_lineBlk]

/-- Setting the status of a page moves one count down and one up. -/
theorem lineCnt_setPage {p : Ppa} (hp : InGeom sp p) {nb : NandBlock} {new : PageStatus}
    (hnb : nb.pg = Function.update (blk p.blkAddr).pg p.pg.toNat new) (st : PageStatus) :
    lineCnt sp (Function.update blk p.blkAddr nb) st p.blk.toNat +
        (if (blk p.blkAddr).pg p.pg.toNat = st then 1 else 0) =
      lineCnt sp blk st p.blk.toNat + (if new = st then 1 else 0) := by
  have hblk := lineCnt_update blk st hp.blkIn nb
  have hpg := countBelow_update (blk p.blkAddr).pg st new hp.pg
  rw [hnb] at hblk
  change lineCnt sp _ st p.blk.toNat + _ = lineCnt sp blk st p.blk.toNat + _ at hblk
  omega

/-- The same for the whole ledger of a status. -/
theorem lineCnt_setPage_eq (blk : BlkAddr → NandBlock) {p : Ppa} (hp : InGeom sp p)
    (nb : NandBlock) (new : PageStatus)
    (hnb : nb.pg = Function.update (blk p.blkAddr).pg p.pg.toNat new) (st : PageStatus) :
    lineCnt sp (Function.update blk p.blkAddr nb) st =
      Function.update (lineCnt sp blk st) p.blk.toNat
        (lineCnt sp blk st p.blk.toNat + (if new = st then 1 else 0) -
          (if (blk p.blkAddr).pg p.pg.toNat = st then 1 else 0)) := by
  funext l
  by_cases hl : l = p.blk.toNat
  · have := lineCnt_setPage hp hnb st
    rw [hl, Function.update_self]
    omega
  · rw [Function.update_of_ne hl, lineCnt_update_ne nb hl]

/-- Setting the status of a page changes that page alone. -/
theorem pg_setPage {p : Ppa} {nb : NandBlock} (new : PageStatus)
    (hnb : nb.pg = Function.update (blk p.blkAddr).pg p.pg.toNat new) (b : BlkAddr) (k : Nat) :
    (Function.update blk p.blkAddr nb b).pg k =
      if b = p.blkAddr ∧ k = p.pg.toNat then new else (blk b).pg k := by
  by_cases hb : b = p.blkAddr
  · by_cases hk : k = p.pg.toNat <;> simp [hb, hk, hnb]
  · simp [hb]

end lineCnt

-- from here on a count is only used through the lemmas above
attribute [irreducible] lineCnt

/-- The counters of every block are the counts of its pages. -/
structure BlkCounts (sp : SsdParams) (blk : BlkAddr → NandBlock) : Prop where
  vpc : ∀ b, BlkIn sp b → (blk b).vpc = countBelow (blk b).pg .valid sp.pgsPerBlk
  ipc : ∀ b, BlkIn sp b → (blk b).ipc = countBelow (blk b).pg .invalid sp.pgsPerBlk

theorem BlkCounts.update {sp : SsdParams} {blk : BlkAddr → NandBlock} (h : BlkCounts sp blk)
    {b : BlkAddr} {nb : NandBlock} (hv : nb.vpc = countBelow nb.pg .valid sp.pgsPerBlk)
    (hi : nb.ipc = countBelow nb.pg .invalid sp.pgsPerBlk) :
    BlkCounts sp (Function.update blk b nb) := by
  refine ⟨fun b' hb' => ?_, fun b' hb' => ?_⟩ <;> by_cases hbb : b' = b
  · subst hbb
    rwa [Function.update_self]
  · rw [Function.update_of_ne hbb]
    exact h.vpc b' hb'
  · subst hbb
    rwa [Function.update_self]
  · rw [Function.update_of_ne hbb]
    exact h.ipc b' hb'

/-! ## the written part of a block -/

/-- The number of pages of a block that are written, given the place of its
line.  In the line being collected the blocks before `prog` are erased. -/
def fill (sp : SsdParams) (loc : Nat → Place) (wp : WritePointer) (prog : Nat × Nat)
    (b : BlkAddr) : Nat :=
  match loc b.blk with
  | .free => 0
  | .full => sp.pgsPerBlk
  | .victim => sp.pgsPerBlk
  | .cur => if b.lun < wp.lun ∨ b.lun = wp.lun ∧ b.ch < wp.ch then wp.pg + 1 else wp.pg
  | .gc => if b.ch < prog.1 ∨ b.ch = prog.1 ∧ b.lun < prog.2 then 0 else sp.pgsPerBlk

section fill

variable {sp : SsdParams} {loc : Nat → Place} {wp : WritePointer} {prog : Nat × Nat} {b : BlkAddr}

theorem fill_free (h : loc b.blk = .free) : fill sp loc wp prog b = 0 := by simp [fill, h]

theorem fill_full (h : loc b.blk = .full) : fill sp loc wp prog b = sp.pgsPerBlk := by
  simp [fill, h]

theorem fill_victim (h : loc b.blk = .victim) : fill sp loc wp prog b = sp.pgsPerBlk := by
  simp [fill, h]

theorem fill_cur (h : loc b.blk = .cur) : fill sp loc wp prog b =
    if b.lun < wp.lun ∨ b.lun = wp.lun ∧ b.ch < wp.ch then wp.pg + 1 else wp.pg := by
  simp [fill, h]

theorem fill_gc (h : loc b.blk = .gc) : fill sp loc wp prog b =
    if b.ch < prog.1 ∨ b.ch = prog.1 ∧ b.lun < prog.2 then 0 else sp.pgsPerBlk := by
  simp [fill, h]

/-- A block's written part only depends on the place of its own line. -/
theorem fill_update_ne {c : Nat} {a : Place} (h : b.blk ≠ c) :
    fill sp (Function.update loc c a) wp prog b = fill sp loc wp prog b := by
  simp only [fill, Function.update_of_ne h]

/-- A full line and a victim line are both written throughout. -/
theorem fill_overwrite (c : Nat) :
    fill sp (Function.update loc c (if loc c = .full then .victim else loc c)) wp prog b =
      fill sp loc wp prog b := by
  by_cases hbc : b.blk = c
  · by_cases hf : loc c = .full
    · rw [fill_victim (by rw [hbc, Function.update_self, if_pos hf]), fill_full (by rw [hbc, hf])]
    · rw [if_neg hf, Function.update_eq_self]
  · exact fill_update_ne hbc

/-- Only the line being written looks at the write pointer. -/
theorem fill_wp {wp' : WritePointer} (h : loc b.blk ≠ .cur) :
    fill sp loc wp' prog b = fill sp loc wp prog b := by
  unfold fill
  split <;> simp_all

/-- Only the line being collected looks at the progress of the collection. -/
theorem fill_prog {prog' : Nat × Nat} (h : loc b.blk ≠ .gc) :
    fill sp loc wp prog' b = fill sp loc wp prog b := by
  unfold fill
  split <;> simp_all

/-- Erasing a block of the line being collected empties that block. -/
theorem fill_nextLun {p : Ppa} {ch lun : Nat} (hp : BlkIn sp p.blkAddr) (hch : p.ch.toNat = ch)
    (hlun : p.lun.toNat = lun) (hgcs : ∀ l < sp.blksPerPl, loc l = .gc ↔ l = p.blk.toNat)
    (hb : BlkIn sp b) :
    fill sp loc wp (ch, lun + 1) b = if b = p.blkAddr then 0 else fill sp loc wp (ch, lun) b := by
  by_cases hbg : loc b.blk = .gc
  · have hbl := (hgcs _ hb.blk).mp hbg
    rw [fill_gc hbg, fill_gc hbg]
    by_cases hbp : b = p.blkAddr
    · rw [if_pos hbp]
      exact if_pos (.inr ⟨by rw [hbp, ← hch]; rfl, by rw [hbp, ← hlun]; exact Nat.lt_succ_self _⟩)
    · -- another block of the line lies before or after this one
      have hother : ¬ (b.ch = ch ∧ b.lun = lun) := fun ⟨h1, h2⟩ => hbp (by
        rw [hb.eq_lineBlk, hp.eq_lineBlk, hbl, h1, h2, ← hch, ← hlun]
        rfl)
      have hiff : b.ch < ch ∨ b.ch = ch ∧ b.lun < lun + 1 ↔
          b.ch < ch ∨ b.ch = ch ∧ b.lun < lun := by omega
      rw [if_neg hbp]
      simp only [hiff]
  · have hbp : b ≠ p.blkAddr := by
      rintro rfl
      exact hbg ((hgcs _ hb.blk).mpr rfl)
    rw [fill_prog hbg, if_neg hbp]

/-- After the last LUN of a channel the collection goes on with the next channel. -/
theorem fill_nextCh {ch : Nat} (hb : BlkIn sp b) :
    fill sp loc wp (ch + 1, 0) b = fill sp loc wp (ch, sp.lunsPerCh) b := by
  have hlun := hb.lun
  by_cases hgc : loc b.blk = .gc
  · have hiff : b.ch < ch ∨ b.ch = ch ∧ b.lun < sp.lunsPerCh ↔
        b.ch < ch + 1 ∨ b.ch = ch + 1 ∧ b.lun < 0 := by omega
    rw [fill_gc hgc, fill_gc hgc]
    simp only [hiff]
  · rw [fill_prog hgc]

/-- A line taken out for collection is written throughout, as it was. -/
theorem fill_selectVictim {c : Nat} (hvic : loc c = .victim)
    (hgc : ∀ l < sp.blksPerPl, loc l ≠ .gc) (hb : BlkIn sp b) :
    fill sp (Function.update loc c .gc) wp (0, 0) b = fill sp loc wp prog b := by
  by_cases hbc : b.blk = c
  · have hvic' : loc b.blk = .victim := hbc ▸ hvic
    rw [@fill_victim sp loc wp prog b hvic', fill_gc (by rw [hbc, Function.update_self])]
    simp
  · rw [fill_update_ne hbc, fill_prog (hgc _ hb.blk)]

/-- A line all of whose blocks are erased is as empty on the free list. -/
theorem fill_markLineFree {c : Nat} (hgcs : ∀ l < sp.blksPerPl, loc l = .gc ↔ l = c)
    (hb : BlkIn sp b) :
    fill sp (Function.update loc c .free) wp (0, 0) b = fill sp loc wp (sp.nchs, 0) b := by
  by_cases hbc : b.blk = c
  · rw [fill_free (by rw [hbc, Function.update_self]), fill_gc ((hgcs _ hb.blk).mpr hbc),
      if_pos (.inl hb.ch)]
  · rw [fill_update_ne hbc, fill_prog fun he => hbc ((hgcs _ hb.blk).mp he)]

end fill

/-! ## the invariant -/

/-- The page states agree with the counters, the ledger and the write pointer. -/
structure PageInv (s : Ssd) (loc : Nat → Place) (prog : Nat × Nat) : Prop where
  lines : LineInv s.lm s.sp.blksPerPl loc (lineCnt s.sp s.blk .valid) (lineCnt s.sp s.blk .invalid)
  counts : BlkCounts s.sp s.blk
  free : ∀ b, BlkIn s.sp b → ∀ k < s.sp.pgsPerBlk,
    ((s.blk b).pg k = .free ↔ fill s.sp loc s.wp prog b ≤ k)
  cur : ∀ l < s.sp.blksPerPl, loc l = .cur ↔ l = s.wp.curline
  curline : s.wp.curline < s.sp.blksPerPl
  wpBlk : s.wp.blk = s.wp.curline
  wpPl : s.wp.pl = 0
  wpIn : 0 < s.sp.pgsPerLine →
    s.wp.ch < s.sp.nchs ∧ s.wp.lun < s.sp.lunsPerCh ∧ s.wp.pg < s.sp.pgsPerBlk
  full : ∀ l < s.sp.blksPerPl, loc l = .full → lineCnt s.sp s.blk .valid l = s.sp.pgsPerLine
  victim : ∀ l < s.sp.blksPerPl, loc l = .victim → lineCnt s.sp s.blk .valid l < s.sp.pgsPerLine

/-- A page of the geometry shows that there are pages. -/
theorem InGeom.pgsPerLine_pos {sp : SsdParams} {p : Ppa} (h : InGeom sp p) :
    0 < sp.pgsPerLine := by
  have h1 := h.ch
  have h2 := h.lun
  have h3 := h.pg
  unfold SsdParams.pgsPerLine SsdParams.blksPerLine SsdParams.ttLuns
  exact Nat.mul_pos (Nat.mul_pos (by omega) (by omega)) (by omega)

/-- In a representable geometry the pages of a line fit in an `int`. -/
theorem Representable.pgsPerLine_le {sp : SsdParams} (hr : Representable sp) :
    sp.pgsPerLine ≤ 2 ^ 31 := by
  have h := Nat.mul_le_mul (Nat.mul_le_mul hr.lunsPerCh hr.nchs) hr.pgsPerBlk
  unfold SsdParams.pgsPerLine SsdParams.blksPerLine SsdParams.ttLuns
  calc sp.lunsPerCh * sp.nchs * sp.pgsPerBlk ≤ 2 ^ lunBits * 2 ^ chBits * 2 ^ pgBits := h
    _ = 2 ^ 31 := by decide

namespace PageInv

variable {s : Ssd} {loc : Nat → Place} {prog : Nat × Nat}

/-- The mapping tables, the timing and the log play no part. -/
theorem frame (h : PageInv s loc prog) (lun : Nat × Nat → NandLun) (maptbl : Nat → Ppa)
    (rmap : Nat → Nat) (clock : Nat → Nat) (log : List NandEvent) :
    PageInv { s with lun := lun, maptbl := maptbl, rmap := rmap, clock := clock, log := log }
      loc prog :=
  ⟨h.lines, h.counts, h.free, h.cur, h.curline, h.wpBlk, h.wpPl, h.wpIn, h.full, h.victim⟩

/-- The line of a page that is not free is not on the free list. -/
theorem loc_ne_free (h : PageInv s loc prog) {p : Ppa} (hp : InGeom s.sp p)
    (hs : s.getPg p ≠ .free) : loc p.blk.toNat ≠ .free := by
  intro hl
  refine hs ((h.free p.blkAddr hp.blkIn _ hp.pg).mpr ?_)
  rw [fill_free (b := p.blkAddr) hl]
  exact Nat.zero_le _

/-- The page at the write pointer. -/
theorem newPage (h : PageInv s loc prog) (hr : Representable s.sp) (hP : 0 < s.sp.pgsPerLine) :
    InGeom s.sp s.getNewPage.1 ∧ s.getNewPage.1.blk.toNat = s.wp.curline ∧
      s.getNewPage.1.ch.toNat = s.wp.ch ∧ s.getNewPage.1.lun.toNat = s.wp.lun ∧
      s.getNewPage.1.pg.toNat = s.wp.pg := by
  obtain ⟨hch, hlun, hpg⟩ := h.wpIn hP
  have hblk : s.wp.blk < s.sp.blksPerPl := h.wpBlk ▸ h.curline
  have heq : s.getNewPage.1 = mkPpa s.wp.ch s.wp.lun s.wp.blk s.wp.pg := by
    simp only [Ssd.getNewPage, h.wpPl]
    rfl
  rw [heq]
  exact ⟨inGeom_mkPpa hr hch hlun hblk hpg, by rw [mkPpa_blk hr hblk, h.wpBlk],
    mkPpa_ch hr hch, mkPpa_lun hr hlun, mkPpa_pg hr hpg⟩

/-- The line being written has a free page left. -/
theorem free_cur_pos (h : PageInv s loc prog) (hP : 0 < s.sp.pgsPerLine) :
    0 < lineCnt s.sp s.blk .free s.wp.curline := by
  obtain ⟨hch, hlun, hpg⟩ := h.wpIn hP
  have hb : BlkIn s.sp (lineBlk s.wp.curline (s.wp.ch, s.wp.lun)) := ⟨hch, hlun, rfl, h.curline⟩
  have hfree : (s.blk (lineBlk s.wp.curline (s.wp.ch, s.wp.lun))).pg s.wp.pg = .free := by
    refine (h.free _ hb _ hpg).mpr ?_
    have hcur := (h.cur _ h.curline).mpr rfl
    simp [fill, lineBlk, hcur]
  exact lineCnt_pos hb hpg hfree

theorem valid_cur_lt (h : PageInv s loc prog) (hP : 0 < s.sp.pgsPerLine) :
    lineCnt s.sp s.blk .valid s.wp.curline < s.sp.pgsPerLine := by
  have hpos := h.free_cur_pos hP
  have := lineCnt_total s.sp s.blk s.wp.curline
  omega

/-- Outside the line being collected, a written line is full exactly if all its
pages are valid. -/
theorem valid_eq_iff_full (h : PageInv s loc prog) (hP : 0 < s.sp.pgsPerLine) {c : Nat}
    (hc : c < s.sp.blksPerPl) (hfree : loc c ≠ .free) (hgc : loc c ≠ .gc) :
    lineCnt s.sp s.blk .valid c = s.sp.pgsPerLine ↔ loc c = .full := by
  refine ⟨fun he => ?_, h.full c hc⟩
  cases hl : loc c with
  | full => rfl
  | free => exact absurd hl hfree
  | gc => exact absurd hl hgc
  | victim =>
      have := h.victim c hc hl
      omega
  | cur =>
      have := h.valid_cur_lt hP
      rw [← (h.cur c hc).mp hl] at this
      omega

/-- `mark_page_invalid` on a valid page outside the line being collected. -/
theorem markPageInvalid (h : PageInv s loc prog) (hr : Representable s.sp) {p : Ppa}
    (hp : InGeom s.sp p) (hv : s.getPg p = .valid) (hgc : loc p.blk.toNat ≠ .gc) :
    PageInv (s.markPageInvalid p) (Function.update loc p.blk.toNat
      (if loc p.blk.toNat = .full then .victim else loc p.blk.toNat)) prog := by
  have hcT : p.blk.toNat < s.sp.blksPerPl := hp.blk
  have hP := hp.pgsPerLine_pos
  have hold : (s.blk p.blkAddr).pg p.pg.toNat = .valid := hv
  have hpos : 0 < lineCnt s.sp s.blk .valid p.blk.toNat := lineCnt_pos hp.blkIn hp.pg hold
  have hle := lineCnt_le s.sp s.blk .valid p.blk.toNat
  have hnotfree := h.loc_ne_free hp (by rw [hv]; decide)
  have hlines := h.lines.pageInvalid hcT hgc hpos (Nat.le_trans hle hr.pgsPerLine_le)
    (h.valid_eq_iff_full hP hcT hnotfree hgc)
  set nb : NandBlock := { s.blk p.blkAddr with
    pg := Function.update (s.blk p.blkAddr).pg p.pg.toNat .invalid
    ipc := (s.blk p.blkAddr).ipc + 1
    vpc := (s.blk p.blkAddr).vpc - 1 }
  have hvalid : lineCnt s.sp (Function.update s.blk p.blkAddr nb) .valid =
      Function.update (lineCnt s.sp s.blk .valid) p.blk.toNat
        (lineCnt s.sp s.blk .valid p.blk.toNat - 1) := by
    simp [lineCnt_setPage_eq s.blk hp nb .invalid rfl, hold]
  have hinvalid : lineCnt s.sp (Function.update s.blk p.blkAddr nb) .invalid =
      Function.update (lineCnt s.sp s.blk .invalid) p.blk.toNat
        (lineCnt s.sp s.blk .invalid p.blk.toNat + 1) := by
    simp [lineCnt_setPage_eq s.blk hp nb .invalid rfl, hold]
  have hcv := countBelow_update (s.blk p.blkAddr).pg .valid .invalid hp.pg
  have hci := countBelow_update (s.blk p.blkAddr).pg .invalid .invalid hp.pg
  simp only [hold, reduceCtorEq, if_true, if_false] at hcv hci
  have hmoved : ∀ l a, Function.update loc p.blk.toNat
      (if loc p.blk.toNat = .full then .victim else loc p.blk.toNat) l = a → a ≠ .victim →
      loc l = a ∧ (a = .full → l ≠ p.blk.toNat) := by
    intro l a he ha
    by_cases hl : l = p.blk.toNat
    · rw [hl, Function.update_self] at he
      split at he
      · exact absurd he.symm ha
      · next hf => exact ⟨hl ▸ he, fun haf => absurd (haf ▸ he) hf⟩
    · rw [Function.update_of_ne hl] at he
      exact ⟨he, fun _ => hl⟩
  exact
    { lines := by
        change LineInv _ s.sp.blksPerPl _ (lineCnt s.sp (Function.update s.blk p.blkAddr nb) .valid)
          (lineCnt s.sp (Function.update s.blk p.blkAddr nb) .invalid)
        rw [hvalid, hinvalid]
        exact hlines
      counts := h.counts.update
        (by have := h.counts.vpc _ hp.blkIn; dsimp only [nb]; omega)
        (by have := h.counts.ipc _ hp.blkIn; dsimp only [nb]; omega)
      free := fun b hb k hk => by
        have hpg : ((s.markPageInvalid p).blk b).pg k = .free ↔ (s.blk b).pg k = .free := by
          change (Function.update s.blk p.blkAddr nb b).pg k = .free ↔ _
          rw [pg_setPage .invalid rfl b k]
          split
          · next heq => simp [heq.1, heq.2, hold]
          · rfl
        refine hpg.trans ((h.free b hb k hk).trans ?_)
        exact iff_of_eq (congrArg (· ≤ k) (fill_overwrite p.blk.toNat).symm)
      cur := fun l hl => by
        refine Iff.trans ⟨fun he => (hmoved l _ he (by decide)).1, fun he => ?_⟩ (h.cur l hl)
        by_cases hlc : l = p.blk.toNat
        · subst hlc
          rw [Function.update_self, he]
          rfl
        · rwa [Function.update_of_ne hlc]
      curline := h.curline
      wpBlk := h.wpBlk
      wpPl := h.wpPl
      wpIn := h.wpIn
      full := fun l hl hf => by
        obtain ⟨hfull, hne⟩ := hmoved l _ hf (by decide)
        change lineCnt s.sp (Function.update s.blk p.blkAddr nb) .valid l = _
        rw [hvalid, Function.update_of_ne (hne rfl), h.full l hl hfull]
        rfl
      victim := fun l hl hv' => by
        change lineCnt s.sp (Function.update s.blk p.blkAddr nb) .valid l < _
        rw [hvalid]
        by_cases hlc : l = p.blk.toNat
        · rw [hlc, Function.update_self]
          change _ < s.sp.pgsPerLine
          omega
        · rw [Function.update_of_ne hlc] at hv' ⊢
          exact h.victim l hl hv' }

end PageInv

/-! ## programming the next page -/

/-- The free pages left for writing: those of the free lines and those of the
line being written. -/
def Ssd.room (s : Ssd) : Int :=
  s.lm.freeLineCnt * s.sp.pgsPerLine + lineCnt s.sp s.blk .free s.wp.curline

/-- Invalidating a valid page frees no page. -/
theorem room_markPageInvalid {s : Ssd} {p : Ppa} (hp : InGeom s.sp p) (hv : s.getPg p = .valid) :
    (s.markPageInvalid p).room = s.room := by
  have hold : (s.blk p.blkAddr).pg p.pg.toNat = .valid := hv
  have hcnt := lineCnt_setPage_eq s.blk hp
    { s.blk p.blkAddr with
      pg := Function.update (s.blk p.blkAddr).pg p.pg.toNat .invalid
      ipc := (s.blk p.blkAddr).ipc + 1
      vpc := (s.blk p.blkAddr).vpc - 1 } .invalid rfl .free
  simp only [hold, reduceCtorEq, if_false, Nat.add_zero, Nat.sub_zero,
    Function.update_eq_self] at hcnt
  unfold Ssd.room
  change (s.lm.pageInvalid _ _).freeLineCnt * s.sp.pgsPerLine +
    (lineCnt s.sp (Function.update s.blk p.blkAddr _) .free s.wp.curline : Int) = _
  rw [LineMgmt.pageInvalid_freeLineCnt, hcnt]

/-- A move within the line writes one more page of the block it leaves. -/
theorem fill_wpMove {sp : SsdParams} {loc : Nat → Place} {wp wp' : WritePointer} {prog : Nat × Nat}
    {b : BlkAddr} (hm : Ssd.WpMove sp wp wp') (hb : BlkIn sp b) (hcur : loc b.blk = .cur) :
    fill sp loc wp' prog b =
      fill sp loc wp prog b + if b.ch = wp.ch ∧ b.lun = wp.lun then 1 else 0 := by
  have h1 := hb.ch
  have h2 := hb.lun
  rw [fill_cur hcur, fill_cur hcur]
  cases hm with
  | ch h => grind
  | lun h h' => grind
  | pg h h' h'' => grind

/-- On the last page every other block of the line is written. -/
theorem fill_wpLast {sp : SsdParams} {loc : Nat → Place} {wp : WritePointer} {prog : Nat × Nat}
    {b : BlkAddr} (hl : Ssd.WpLast sp wp) (hb : BlkIn sp b) (hcur : loc b.blk = .cur) :
    fill sp loc wp prog b + (if b.ch = wp.ch ∧ b.lun = wp.lun then 1 else 0) = sp.pgsPerBlk := by
  have h1 := hb.ch
  have h2 := hb.lun
  obtain ⟨hch, hlun, hpg⟩ := hl
  rw [fill_cur hcur]
  grind

/-- Where the lines are after the line `o` was put at the place `a` and the line `c` became
the current one. -/
def switched (loc : Nat → Place) (o c : Nat) (a : Place) : Nat → Place :=
  Function.update (Function.update loc o a) c .cur

section switched

variable {loc : Nat → Place} {o c l : Nat} {a : Place}

theorem switched_new : switched loc o c a c = .cur := Function.update_self ..

theorem switched_old (h : o ≠ c) : switched loc o c a o = a := by
  rw [switched, Function.update_of_ne h, Function.update_self]

theorem switched_of_ne (hc : l ≠ c) (ho : l ≠ o) : switched loc o c a l = loc l := by
  rw [switched, Function.update_of_ne hc, Function.update_of_ne ho]

/-- A line that is not current after the switch is the old one or was there before. -/
theorem switched_cases (h : o ≠ c) (hl : switched loc o c a l ≠ .cur) :
    l = o ∧ switched loc o c a l = a ∨ l ≠ o ∧ switched loc o c a l = loc l := by
  have hlc : l ≠ c := by
    rintro rfl
    exact hl switched_new
  by_cases hlo : l = o
  case pos => exact .inl ⟨hlo, by rw [hlo, switched_old h]⟩
  case neg => exact .inr ⟨hlo, switched_of_ne hlc hlo⟩

end switched

/-- A line whose last page was written goes to the full list or into the victim queue. -/
theorem retired_place {v P : Nat} (hle : v ≤ P) :
    ∃ a : Place, (if v = P then .full else .victim) = a ∧
      (a = .full ∧ v = P ∨ a = .victim ∧ v < P) := by
  by_cases hv : v = P
  · exact ⟨.full, if_pos hv, .inl ⟨rfl, hv⟩⟩
  · exact ⟨.victim, if_neg hv, .inr ⟨rfl, Nat.lt_of_le_of_ne hle hv⟩⟩

/-- What programming the page `p` does to the page states: one more page of its
block is written, and the free room shrinks by one. -/
structure Programmed (s s' : Ssd) (loc loc' : Nat → Place) (prog : Nat × Nat) (p : Ppa) : Prop where
  inv : PageInv s' loc' prog
  gc : ∀ l, loc' l = .gc ↔ loc l = .gc
  room : s'.room + 1 = s.room
  fill : ∀ b, BlkIn s.sp b → fill s.sp loc' s'.wp prog b =
    fill s.sp loc s.wp prog b + if b = p.blkAddr then 1 else 0
  log : s'.log = s.log ∨ ∃ l, s'.log = s.log ++ [.leaveLine l] ∧
    ∀ b, BlkIn s.sp b → b.blk = l → Femu.Bbssd.fill s.sp loc' s'.wp prog b = s.sp.pgsPerBlk
  sp : s'.sp = s.sp
  blk : s'.blk = (s.markPageValid p).blk
  maptbl : s'.maptbl = s.maptbl
  rmap : s'.rmap = s.rmap

namespace PageInv

variable {s s' : Ssd} {loc : Nat → Place} {prog : Nat × Nat}

/-- The block of the page at the write pointer. -/
theorem eq_newPage_blkAddr (h : PageInv s loc prog) (hr : Representable s.sp)
    (hP : 0 < s.sp.pgsPerLine) {b : BlkAddr} (hb : BlkIn s.sp b) :
    b = s.getNewPage.1.blkAddr ↔ b.blk = s.wp.curline ∧ b.ch = s.wp.ch ∧ b.lun = s.wp.lun := by
  obtain ⟨hp, hblk, hch, hlun, -⟩ := h.newPage hr hP
  constructor
  · rintro rfl
    exact ⟨hblk, hch, hlun⟩
  · rintro ⟨h1, h2, h3⟩
    rw [hb.eq_lineBlk, hp.blkIn.eq_lineBlk, h1, h2, h3]
    change lineBlk s.wp.curline _ = lineBlk s.getNewPage.1.blk.toNat (_, _)
    rw [hblk]
    exact congrArg _ (Prod.ext hch.symm hlun.symm)

/-- The page at the write pointer is the first unwritten one of its block. -/
theorem fill_newPage (h : PageInv s loc prog) (hr : Representable s.sp)
    (hP : 0 < s.sp.pgsPerLine) :
    fill s.sp loc s.wp prog s.getNewPage.1.blkAddr = s.getNewPage.1.pg.toNat := by
  obtain ⟨hp, hblk, hch, hlun, hpg⟩ := h.newPage hr hP
  have hcur : loc s.getNewPage.1.blkAddr.blk = .cur := by
    change loc s.getNewPage.1.blk.toNat = .cur
    rw [hblk]
    exact (h.cur _ h.curline).mpr rfl
  rw [fill_cur hcur, hpg]
  change (if s.getNewPage.1.lun.toNat < s.wp.lun ∨
    s.getNewPage.1.lun.toNat = s.wp.lun ∧ s.getNewPage.1.ch.toNat < s.wp.ch then _ else _) = _
  rw [hch, hlun]
  simp

/-- `get_new_page` hands out a free page. -/
theorem getPg_newPage (h : PageInv s loc prog) (hr : Representable s.sp)
    (hP : 0 < s.sp.pgsPerLine) : s.getPg s.getNewPage.1 = .free := by
  obtain ⟨hp, -⟩ := h.newPage hr hP
  refine (h.free _ hp.blkIn _ hp.pg).mpr ?_
  rw [h.fill_newPage hr hP]

section markPageValid

variable (h : PageInv s loc prog) (hr : Representable s.sp) (hP : 0 < s.sp.pgsPerLine)
include h hr hP

/-- The ledger after the new page became valid. -/
theorem markPageValid_lineCnt :
    lineCnt s.sp (s.markPageValid s.getNewPage.1).blk .valid =
        Function.update (lineCnt s.sp s.blk .valid) s.wp.curline
          (lineCnt s.sp s.blk .valid s.wp.curline + 1) ∧
      lineCnt s.sp (s.markPageValid s.getNewPage.1).blk .invalid = lineCnt s.sp s.blk .invalid ∧
      lineCnt s.sp (s.markPageValid s.getNewPage.1).blk .free =
        Function.update (lineCnt s.sp s.blk .free) s.wp.curline
          (lineCnt s.sp s.blk .free s.wp.curline - 1) := by
  obtain ⟨hp, hblk, -⟩ := h.newPage hr hP
  have hold := h.getPg_newPage hr hP
  unfold Ssd.getPg at hold
  have hcnt := lineCnt_setPage_eq s.blk hp
    { s.blk s.getNewPage.1.blkAddr with
      pg := Function.update (s.blk s.getNewPage.1.blkAddr).pg s.getNewPage.1.pg.toNat .valid
      vpc := (s.blk s.getNewPage.1.blkAddr).vpc + 1 } .valid rfl
  rw [hblk] at hcnt
  refine ⟨(hcnt .valid).trans ?_, (hcnt .invalid).trans ?_, (hcnt .free).trans ?_⟩ <;>
    simp [hold]

theorem markPageValid_lines : LineInv (s.markPageValid s.getNewPage.1).lm s.sp.blksPerPl loc
    (lineCnt s.sp (s.markPageValid s.getNewPage.1).blk .valid)
    (lineCnt s.sp (s.markPageValid s.getNewPage.1).blk .invalid) := by
  obtain ⟨hv, hi, -⟩ := h.markPageValid_lineCnt hr hP
  obtain ⟨-, hblk, -⟩ := h.newPage hr hP
  rw [hv, hi]
  change LineInv (s.lm.pageValid s.getNewPage.1.blk.toNat) _ _ _ _
  rw [hblk]
  exact h.lines.pageValid h.curline

theorem markPageValid_counts : BlkCounts s.sp (s.markPageValid s.getNewPage.1).blk := by
  obtain ⟨hp, -⟩ := h.newPage hr hP
  have hold := h.getPg_newPage hr hP
  unfold Ssd.getPg at hold
  have hcv := countBelow_update (s.blk s.getNewPage.1.blkAddr).pg .valid .valid hp.pg
  have hci := countBelow_update (s.blk s.getNewPage.1.blkAddr).pg .invalid .valid hp.pg
  simp only [hold, reduceCtorEq, if_true, if_false] at hcv hci
  refine h.counts.update ?_ ?_
  · have := h.counts.vpc _ hp.blkIn
    dsimp only
    omega
  · have := h.counts.ipc _ hp.blkIn
    dsimp only
    omega

/-- The line of the new page is on neither list: what these say of their lines stays. -/
theorem markPageValid_full {l : Nat} (hl : l < s.sp.blksPerPl) (hfull : loc l = .full) :
    lineCnt s.sp (s.markPageValid s.getNewPage.1).blk .valid l = s.sp.pgsPerLine := by
  obtain ⟨hv, -, -⟩ := h.markPageValid_lineCnt hr hP
  have hne : l ≠ s.wp.curline := by
    intro he
    rw [(h.cur l hl).mpr he] at hfull
    cases hfull
  rw [hv, Function.update_of_ne hne]
  exact h.full l hl hfull

theorem markPageValid_victim {l : Nat} (hl : l < s.sp.blksPerPl) (hvic : loc l = .victim) :
    lineCnt s.sp (s.markPageValid s.getNewPage.1).blk .valid l < s.sp.pgsPerLine := by
  obtain ⟨hv, -, -⟩ := h.markPageValid_lineCnt hr hP
  have hne : l ≠ s.wp.curline := by
    intro he
    rw [(h.cur l hl).mpr he] at hvic
    cases hvic
  rw [hv, Function.update_of_ne hne]
  exact h.victim l hl hvic

/-- After the new page became valid its block is written one page further. -/
theorem markPageValid_free {b : BlkAddr} (hb : BlkIn s.sp b) {k : Nat}
    (hk : k < s.sp.pgsPerBlk) :
    ((s.markPageValid s.getNewPage.1).blk b).pg k = .free ↔
      fill s.sp loc s.wp prog b + (if b = s.getNewPage.1.blkAddr then 1 else 0) ≤ k := by
  have hfill := h.fill_newPage hr hP
  have hfree := h.free b hb k hk
  change (Function.update s.blk s.getNewPage.1.blkAddr _ b).pg k = .free ↔ _
  rw [pg_setPage .valid rfl]
  by_cases hbp : b = s.getNewPage.1.blkAddr
  · rw [← hbp] at hfill
    by_cases hkp : k = s.getNewPage.1.pg.toNat
    · rw [if_pos ⟨hbp, hkp⟩, if_pos hbp, hfill, ← hkp]
      simp
    · rw [if_neg fun he => hkp he.2, if_pos hbp, hfree]
      omega
  · rw [if_neg fun he => hbp he.1, if_neg hbp, hfree, Nat.add_zero]

/-- With the last page of the line every page of it is written. -/
theorem fill_last (hlast : Ssd.WpLast s.sp s.wp) {b : BlkAddr} (hb : BlkIn s.sp b)
    (hbl : b.blk = s.wp.curline) :
    fill s.sp loc s.wp prog b + (if b = s.getNewPage.1.blkAddr then 1 else 0) =
      s.sp.pgsPerBlk := by
  have hcur : loc b.blk = .cur := hbl ▸ (h.cur _ h.curline).mpr rfl
  rw [← @fill_wpLast s.sp loc s.wp prog b hlast hb hcur]
  simp only [h.eq_newPage_blkAddr hr hP hb, hbl, true_and]

theorem free_last (hlast : Ssd.WpLast s.sp s.wp) :
    lineCnt s.sp (s.markPageValid s.getNewPage.1).blk .free s.wp.curline = 0 := by
  refine lineCnt_eq_zero fun x hx k hk hfree => ?_
  have hb := blkIn_lineBlk hx h.curline
  have hle := (h.markPageValid_free hr hP hb hk).mp hfree
  rw [h.fill_last hr hP hlast hb rfl] at hle
  omega

/-- So there was exactly one page left. -/
theorem room_last (hlast : Ssd.WpLast s.sp s.wp) :
    s.room = s.lm.freeLineCnt * s.sp.pgsPerLine + 1 := by
  obtain ⟨-, -, hf⟩ := h.markPageValid_lineCnt hr hP
  have hgone := h.free_last hr hP hlast
  have hpos := h.free_cur_pos hP
  rw [hf, Function.update_self] at hgone
  unfold Ssd.room
  omega

end markPageValid

/-- Programming the page at the write pointer, when the line has further pages. -/
theorem program_move (h : PageInv s loc prog) (hr : Representable s.sp) (hP : 0 < s.sp.pgsPerLine)
    {wp : WritePointer} (hm : Ssd.WpMove s.sp s.wp wp) :
    Programmed s { s.markPageValid s.getNewPage.1 with wp := wp } loc loc prog
      s.getNewPage.1 := by
  obtain ⟨hch, hlun, hpg⟩ := h.wpIn hP
  obtain ⟨-, -, hf⟩ := h.markPageValid_lineCnt hr hP
  have hcurline : wp.curline = s.wp.curline := by cases hm <;> rfl
  have hfill : ∀ b, BlkIn s.sp b → fill s.sp loc wp prog b =
      fill s.sp loc s.wp prog b + if b = s.getNewPage.1.blkAddr then 1 else 0 := by
    intro b hb
    have hiff := h.eq_newPage_blkAddr hr hP hb
    by_cases hcur : loc b.blk = .cur
    · have hblk := (h.cur _ hb.blk).mp hcur
      rw [fill_wpMove hm hb hcur]
      simp only [hiff, hblk, true_and]
    · have hne : ¬ b = s.getNewPage.1.blkAddr := fun he =>
        hcur ((h.cur _ hb.blk).mpr (hiff.mp he).1)
      rw [fill_wp hcur, if_neg hne, Nat.add_zero]
  refine ⟨?_, fun l => Iff.rfl, ?_, hfill, .inl rfl, rfl, rfl, rfl, rfl⟩
  · exact
      { lines := h.markPageValid_lines hr hP
        counts := h.markPageValid_counts hr hP
        free := fun b hb k hk => by
          refine (h.markPageValid_free hr hP hb hk).trans ?_
          rw [← hfill b hb]
          exact Iff.rfl
        cur := fun l hl => (h.cur l hl).trans (by rw [← hcurline])
        curline := by
          change wp.curline < _
          rw [hcurline]
          exact h.curline
        wpBlk := by
          have := h.wpBlk
          cases hm <;> exact this
        wpPl := by
          have := h.wpPl
          cases hm <;> exact this
        wpIn := fun _ => by
          change wp.ch < s.sp.nchs ∧ wp.lun < s.sp.lunsPerCh ∧ wp.pg < s.sp.pgsPerBlk
          cases hm <;> dsimp only <;> omega
        full := fun l hl hfull => h.markPageValid_full hr hP hl hfull
        victim := fun l hl hvic => h.markPageValid_victim hr hP hl hvic }
  · have hpos := h.free_cur_pos hP
    change (s.lm.pageValid _).freeLineCnt * s.sp.pgsPerLine +
      (lineCnt s.sp (s.markPageValid s.getNewPage.1).blk .free wp.curline : Int) + 1 = s.room
    rw [hf, hcurline, Function.update_self, LineMgmt.pageValid_freeLineCnt]
    unfold Ssd.room
    omega

/-- Programming the last page of the line: the line is written throughout wherever it goes,
and nothing of the new line is. -/
theorem fill_switched (h : PageInv s loc prog) (hr : Representable s.sp)
    (hP : 0 < s.sp.pgsPerLine) (hlast : Ssd.WpLast s.sp s.wp) {c : Nat} {a : Place}
    {wp : WritePointer} (hne : s.wp.curline ≠ c) (hcfree : loc c = .free)
    (ha : a = .full ∨ a = .victim) (hwp : wp.lun = 0 ∧ wp.ch = 0 ∧ wp.pg = 0) {b : BlkAddr}
    (hb : BlkIn s.sp b) :
    fill s.sp (switched loc s.wp.curline c a) wp prog b =
      fill s.sp loc s.wp prog b + if b = s.getNewPage.1.blkAddr then 1 else 0 := by
  have hiff := h.eq_newPage_blkAddr hr hP hb
  by_cases hbo : b.blk = s.wp.curline
  case pos =>
    have hold : switched loc s.wp.curline c a b.blk = a := by rw [hbo, switched_old hne]
    rw [h.fill_last hr hP hlast hb hbo]
    rcases ha with rfl | rfl
    · exact fill_full hold
    · exact fill_victim hold
  case neg =>
    have hnot : ¬ b = s.getNewPage.1.blkAddr := fun he => hbo (hiff.mp he).1
    rw [if_neg hnot, Nat.add_zero]
    by_cases hbc : b.blk = c
    case pos =>
      rw [fill_cur (hbc ▸ switched_new), fill_free (hbc ▸ hcfree)]
      simp [hwp]
    case neg =>
      have hncur : loc b.blk ≠ .cur := fun he => hbo ((h.cur _ hb.blk).mp he)
      rw [switched, fill_update_ne hbc, fill_update_ne hbo, fill_wp hncur]

/-- Programming the last page of the line: the line is put on the full list or
into the victim queue, and a free line is taken. -/
theorem program_next (h : PageInv s loc prog) (hr : Representable s.sp) (hP : 0 < s.sp.pgsPerLine)
    (hlast : Ssd.WpLast s.sp s.wp)
    (hn : (s.markPageValid s.getNewPage.1).nextLine = some s') :
    ∃ loc', Programmed s s' loc loc' prog s.getNewPage.1 := by
  have hcur := (h.cur _ h.curline).mpr rfl
  have hretired := (h.markPageValid_lines hr hP).retire (P := s.sp.pgsPerLine) h.curline hcur
  obtain ⟨a, ha, hplace⟩ := retired_place
    (lineCnt_le s.sp (s.markPageValid s.getNewPage.1).blk .valid s.wp.curline)
  have hlist : a = .full ∨ a = .victim := hplace.imp And.left And.left
  rw [ha] at hretired
  unfold Ssd.nextLine at hn
  split at hn
  · contradiction
  next c lm hfreeLine =>
  cases hn
  obtain ⟨hc, hcfree, hlines, hcnt⟩ := hretired.getNextFreeLine hfreeLine
  have hne : s.wp.curline ≠ c := by
    rintro rfl
    rw [Function.update_self] at hcfree
    rcases hlist with rfl | rfl <;> cases hcfree
  rw [Function.update_of_ne hne.symm] at hcfree
  set loc' := switched loc s.wp.curline c a
  have hat_new : loc' c = .cur := switched_new
  have hat_old : loc' s.wp.curline = a := switched_old hne
  have hat_ne : ∀ l, l ≠ c → l ≠ s.wp.curline → loc' l = loc l := fun l => switched_of_ne
  have hat_cases : ∀ l, loc' l ≠ .cur →
      l = s.wp.curline ∧ loc' l = a ∨ l ≠ s.wp.curline ∧ loc' l = loc l :=
    fun l => switched_cases hne
  set wp : WritePointer :=
    { s.wp with ch := 0, lun := 0, pg := 0, curline := c, blk := (lm.lines c).id } with hwp
  have hfill : ∀ b, BlkIn s.sp b → fill s.sp loc' wp prog b =
      fill s.sp loc s.wp prog b + if b = s.getNewPage.1.blkAddr then 1 else 0 :=
    fun b hb => h.fill_switched hr hP hlast hne hcfree hlist ⟨rfl, rfl, rfl⟩ hb
  have hold : ∀ b, BlkIn s.sp b → b.blk = s.wp.curline →
      fill s.sp loc' wp prog b = s.sp.pgsPerBlk := by
    intro b hb hbl
    rw [hfill b hb, h.fill_last hr hP hlast hb hbl]
  have hfree : ∀ b, BlkIn s.sp b → ∀ k < s.sp.pgsPerBlk,
      (((s.markPageValid s.getNewPage.1).blk b).pg k = .free ↔
        fill s.sp loc' wp prog b ≤ k) := by
    intro b hb k hk
    rw [h.markPageValid_free hr hP hb hk, hfill b hb]
  obtain ⟨h1, h2, h3⟩ := h.wpIn hP
  refine ⟨loc', ?_, ?_, ?_, hfill, .inr ⟨s.wp.curline, rfl, hold⟩, rfl, rfl, rfl, rfl⟩
  · exact
      { lines := hlines
        counts := h.markPageValid_counts hr hP
        free := hfree
        cur := fun l hl => by
          change loc' l = .cur ↔ l = c
          refine ⟨fun he => ?_, fun he => he ▸ hat_new⟩
          by_contra hlc
          by_cases hlo : l = s.wp.curline
          · rw [hlo, hat_old] at he
            rcases hlist with rfl | rfl <;> cases he
          · rw [hat_ne l hlc hlo, h.cur l hl] at he
            exact hlo he
        curline := hc
        wpBlk := hlines.id c hc
        wpPl := h.wpPl
        wpIn := fun _ => ⟨Nat.lt_of_le_of_lt (Nat.zero_le _) h1,
          Nat.lt_of_le_of_lt (Nat.zero_le _) h2, Nat.lt_of_le_of_lt (Nat.zero_le _) h3⟩
        full := fun l hl hfull => by
          rcases hat_cases l (by rw [hfull]; decide) with ⟨rfl, hat⟩ | ⟨-, hat⟩
          · rcases hplace with ⟨-, hv⟩ | ⟨rfl, -⟩
            · exact hv
            · cases hat.symm.trans hfull
          · exact h.markPageValid_full hr hP hl (hat.symm.trans hfull)
        victim := fun l hl hvic => by
          rcases hat_cases l (by rw [hvic]; decide) with ⟨rfl, hat⟩ | ⟨-, hat⟩
          · rcases hplace with ⟨rfl, -⟩ | ⟨-, hv⟩
            · cases hat.symm.trans hvic
            · exact hv
          · exact h.markPageValid_victim hr hP hl (hat.symm.trans hvic) }
  · intro l
    by_cases hlc : l = c
    · rw [hlc, hat_new, hcfree]
      simp
    · by_cases hlo : l = s.wp.curline
      · rw [hlo, hat_old, hcur]
        rcases hlist with rfl | rfl <;> simp
      · rw [hat_ne l hlc hlo]
  · -- the old line has no free page left, the new one has nothing else
    have hnew : lineCnt s.sp (s.markPageValid s.getNewPage.1).blk .free c = s.sp.pgsPerLine := by
      refine lineCnt_all_free fun x hx k hk => ?_
      have hb := blkIn_lineBlk hx hc
      refine (hfree _ hb k hk).mpr ?_
      rw [fill_cur (b := lineBlk c x) hat_new]
      simp [hwp]
    have hcnt' : lm.freeLineCnt = s.lm.freeLineCnt - 1 := by
      rw [hcnt, LineMgmt.retire_freeLineCnt]
      rfl
    change lm.freeLineCnt * s.sp.pgsPerLine +
      (lineCnt s.sp (s.markPageValid s.getNewPage.1).blk .free c : Int) + 1 = s.room
    rw [hnew, hcnt', h.room_last hr hP hlast]
    ring

/-- Programming the page at the write pointer. -/
theorem program (h : PageInv s loc prog) (hr : Representable s.sp) (hP : 0 < s.sp.pgsPerLine)
    (ha : (s.markPageValid s.getNewPage.1).ssdAdvanceWritePointer = some s') :
    ∃ loc', Programmed s s' loc loc' prog s.getNewPage.1 := by
  rcases (s.markPageValid s.getNewPage.1).ssdAdvanceWritePointer_cases with
    ⟨wp, hm, he⟩ | ⟨hlast, he⟩
  · rw [he] at ha
    cases ha
    exact ⟨loc, h.program_move hr hP hm⟩
  · rw [he] at ha
    exact h.program_next hr hP hlast ha

/-- With two free pages left the write pointer finds a page to move on to. -/
theorem exists_program (h : PageInv s loc prog) (hr : Representable s.sp)
    (hP : 0 < s.sp.pgsPerLine) (hroom : 2 ≤ s.room) :
    ∃ s', (s.markPageValid s.getNewPage.1).ssdAdvanceWritePointer = some s' := by
  rcases (s.markPageValid s.getNewPage.1).ssdAdvanceWritePointer_cases with
    ⟨wp, -, he⟩ | ⟨hlast, he⟩
  · exact ⟨_, he⟩
  · rw [he]
    have hcur := (h.cur _ h.curline).mpr rfl
    have hretired := (h.markPageValid_lines hr hP).retire (P := s.sp.pgsPerLine) h.curline hcur
    have hpos : 0 < s.lm.freeLineCnt := by
      rw [h.room_last hr hP hlast] at hroom
      by_contra hcon
      have : s.lm.freeLineCnt * (s.sp.pgsPerLine : Int) ≤ 0 :=
        Int.mul_nonpos_of_nonpos_of_nonneg (by omega) (by omega)
      omega
    obtain ⟨c, lm, hlm⟩ := hretired.exists_nextFreeLine (by
      rw [LineMgmt.retire_freeLineCnt]
      exact hpos)
    cases hn : (s.markPageValid s.getNewPage.1).nextLine with
    | some s' => exact ⟨s', rfl⟩
    | none =>
        unfold Ssd.nextLine at hn
        split at hn
        · next hnone =>
          have := hlm.symm.trans hnone
          cases this
        · cases hn

/-! ## garbage collection -/

/-- A move of line `c` between the full list, the victim queue, the free list
and the collection leaves the line being written alone. -/
theorem cur_update (h : PageInv s loc prog) {c : Nat} {a : Place}
    (hcur : loc c ≠ .cur) (ha : a ≠ .cur) (l : Nat) (hl : l < s.sp.blksPerPl) :
    Function.update loc c a l = .cur ↔ l = s.wp.curline := by
  constructor
  · intro he
    exact (h.cur l hl).mp (of_update_eq he ha).2
  · rintro rfl
    have hne : s.wp.curline ≠ c := fun he => hcur (he ▸ (h.cur _ h.curline).mpr rfl)
    rw [Function.update_of_ne hne]
    exact (h.cur _ hl).mpr rfl

/-- `select_victim_line` takes a line out for collection, no block of which is
erased yet. -/
theorem selectVictim (h : PageInv s loc prog) (hgc : ∀ l < s.sp.blksPerPl, loc l ≠ .gc)
    {force : Bool} {c : Nat} {lm : LineMgmt}
    (hv : s.lm.selectVictimLine s.sp.pgsPerLine force = some (c, lm)) :
    c < s.sp.blksPerPl ∧ loc c = .victim ∧
      PageInv { s with lm := lm } (Function.update loc c .gc) (0, 0) ∧
      ({ s with lm := lm } : Ssd).room = s.room := by
  obtain ⟨hc, hvic, hlines, hcnt⟩ := h.lines.selectVictimLine hv
  refine ⟨hc, hvic, ?_, by unfold Ssd.room; rw [hcnt]⟩
  exact
    { h with
      lines := hlines
      free := fun b hb k hk => by
        rw [h.free b hb k hk, fill_selectVictim hvic hgc hb]
      cur := h.cur_update (by rw [hvic]; decide) (by decide)
      full := fun l hl hf => h.full l hl (of_update_eq hf (by decide)).2
      victim := fun l hl hf => h.victim l hl (of_update_eq hf (by decide)).2 }

/-- `mark_block_free` on the next block of the line being collected. -/
theorem markBlockFree {p : Ppa} {ch lun : Nat} (h : PageInv s loc (ch, lun))
    (hp : BlkIn s.sp p.blkAddr) (hch : p.ch.toNat = ch) (hlun : p.lun.toNat = lun)
    (hgcs : ∀ l < s.sp.blksPerPl, loc l = .gc ↔ l = p.blk.toNat) :
    PageInv (s.markBlockFree p) loc (ch, lun + 1) ∧ (s.markBlockFree p).room = s.room ∧
      lineCnt s.sp (s.markBlockFree p).blk .valid p.blk.toNat +
        countBelow (s.blk p.blkAddr).pg .valid s.sp.pgsPerBlk =
        lineCnt s.sp s.blk .valid p.blk.toNat := by
  have hgc : loc p.blk.toNat = .gc := (hgcs _ hp.blk).mpr rfl
  set nb : NandBlock :=
    { pg := fun i => if i < s.sp.pgsPerBlk then .free else (s.blk p.blkAddr).pg i
      ipc := 0
      vpc := 0
      eraseCnt := (s.blk p.blkAddr).eraseCnt + 1 } with hnb
  have hzero : ∀ st, st ≠ .free → countBelow nb.pg st s.sp.pgsPerBlk = 0 := fun st hst =>
    countBelow_eq_zero _ _ _ fun i hi he => hst (by
      rw [← he, hnb]
      simp [hi])
  have hne : ∀ l, loc l ≠ .gc → ∀ st,
      lineCnt s.sp (Function.update s.blk p.blkAddr nb) st l = lineCnt s.sp s.blk st l :=
    fun l hl st => lineCnt_update_ne nb fun he => hl (he ▸ hgc)
  have hcur : loc s.wp.curline ≠ .gc := by
    rw [(h.cur _ h.curline).mpr rfl]
    decide
  refine ⟨?_, ?_, ?_⟩
  · exact
      { lines := h.lines.congr (fun l _ hl => hne l hl .valid) (fun l _ hl => hne l hl .invalid)
        counts := h.counts.update (by rw [hzero _ (by decide)]; rfl)
          (by rw [hzero _ (by decide)]; rfl)
        free := fun b hb k hk => by
          change (Function.update s.blk p.blkAddr nb b).pg k = .free ↔ fill s.sp loc s.wp _ b ≤ k
          rw [fill_nextLun hp hch hlun hgcs hb]
          by_cases hbp : b = p.blkAddr
          · change k < s.sp.pgsPerBlk at hk
            rw [if_pos hbp, hbp, Function.update_self]
            simp [hnb, hk]
          · rw [if_neg hbp, Function.update_of_ne hbp]
            exact h.free b hb k hk
        cur := h.cur
        curline := h.curline
        wpBlk := h.wpBlk
        wpPl := h.wpPl
        wpIn := h.wpIn
        full := fun l hl hf => (hne l (by rw [hf]; decide) .valid).trans (h.full l hl hf)
        victim := fun l hl hf => by
          change lineCnt s.sp (Function.update s.blk p.blkAddr nb) .valid l < _
          rw [hne l (by rw [hf]; decide) .valid]
          exact h.victim l hl hf }
  · unfold Ssd.room
    change s.lm.freeLineCnt * s.sp.pgsPerLine +
      (lineCnt s.sp (Function.update s.blk p.blkAddr nb) .free s.wp.curline : Int) = _
    rw [hne _ hcur]
  · have hcnt := lineCnt_update s.blk .valid hp nb
    rw [hzero _ (by decide), Nat.add_zero] at hcnt
    exact hcnt

/-- The same invariant after a step of the collection that changes no written part. -/
theorem setProg (h : PageInv s loc prog) {prog' : Nat × Nat}
    (hfill : ∀ b, BlkIn s.sp b → fill s.sp loc s.wp prog' b = fill s.sp loc s.wp prog b) :
    PageInv s loc prog' :=
  { h with free := fun b hb k hk => by rw [h.free b hb k hk, hfill b hb] }

/-- `mark_line_free` when every block of the line is erased. -/
theorem markLineFree (h : PageInv s loc (s.sp.nchs, 0)) {c : Nat} (hc : c < s.sp.blksPerPl)
    (hgcs : ∀ l < s.sp.blksPerPl, loc l = .gc ↔ l = c) :
    PageInv { s with lm := s.lm.markLineFree c } (Function.update loc c .free) (0, 0) ∧
      ({ s with lm := s.lm.markLineFree c } : Ssd).room = s.room + s.sp.pgsPerLine := by
  have hgc : loc c = .gc := (hgcs c hc).mpr rfl
  have herased : ∀ x ∈ chips s.sp, ∀ k < s.sp.pgsPerBlk, (s.blk (lineBlk c x)).pg k = .free := by
    intro x hx k hk
    have hb := blkIn_lineBlk hx hc
    refine (h.free _ hb k hk).mpr ?_
    rw [fill_gc (b := lineBlk c x) hgc, if_pos (.inl hb.ch)]
    exact Nat.zero_le _
  have hzero : ∀ st, st ≠ .free → lineCnt s.sp s.blk st c = 0 := fun st hst =>
    lineCnt_eq_zero fun x hx k hk he => hst (he.symm.trans (herased x hx k hk))
  have hcnt : ∀ st, st ≠ .free →
      ∀ l, lineCnt s.sp s.blk st l = Function.update (lineCnt s.sp s.blk st) c 0 l := by
    intro st hst l
    by_cases hlc : l = c
    · rw [hlc, Function.update_self, hzero st hst]
    · rw [Function.update_of_ne hlc]
  refine ⟨?_, ?_⟩
  · exact
      { h with
        lines := (h.lines.markLineFree hc hgc).congr (fun l _ _ => hcnt .valid (by decide) l)
          (fun l _ _ => hcnt .invalid (by decide) l)
        free := fun b hb k hk => by rw [h.free b hb k hk, fill_markLineFree hgcs hb]
        cur := h.cur_update (by rw [hgc]; decide) (by decide)
        full := fun l hl hf => h.full l hl (of_update_eq hf (by decide)).2
        victim := fun l hl hf => h.victim l hl (of_update_eq hf (by decide)).2 }
  · unfold Ssd.room
    change (s.lm.freeLineCnt + 1) * (s.sp.pgsPerLine : Int) + lineCnt _ _ _ _ = _
    ring

end PageInv

end Femu.Bbssd

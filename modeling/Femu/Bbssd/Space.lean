import Femu.Bbssd.Invariant

/-!
# Femu.Bbssd.Space

Space safety: the forced collections of `ssd_write` end, and the write pointer
always finds a free line.

The room left for writing grows with every collection, since a victim has an
invalid page, and it is bounded by the size of the SSD: so the `while` loop ends.
When it ends without a victim, every line but the free ones and the one being
written is full; the mapped logical pages fill those, so with few enough of them
more lines are free than the threshold asks for.
-/

namespace Femu.Bbssd

open Lib

/-! ## counting lines -/

/-- The lines at a place. -/
def linesAt (T : Nat) (loc : Nat → Place) (a : Place) : Finset Nat :=
  (Finset.range T).filter fun l => loc l = a

@[simp] theorem mem_linesAt {T : Nat} {loc : Nat → Place} {a : Place} {l : Nat} :
    l ∈ linesAt T loc a ↔ l < T ∧ loc l = a := by
  simp [linesAt]

/-- Every line is at one of the five places. -/
theorem card_linesAt (T : Nat) (loc : Nat → Place) :
    (linesAt T loc .free).card + (linesAt T loc .full).card + (linesAt T loc .victim).card +
      (linesAt T loc .cur).card + (linesAt T loc .gc).card = T := by
  have hcount : ∀ a, (linesAt T loc a).card = countBelow loc a T := fun _ => rfl
  simp only [hcount]
  clear hcount
  induction T with
  | zero => simp [countBelow]
  | succ n ih =>
      simp only [countBelow_succ]
      cases loc n <;> simp <;> omega

/-- Enough room means enough free lines. -/
theorem Ssd.le_freeLineCnt (s : Ssd) {n : Int}
    (hroom : n * s.sp.pgsPerLine + 1 ≤ s.room) : n ≤ s.lm.freeLineCnt := by
  have hfree := lineCnt_le s.sp s.blk .free s.wp.curline
  unfold Ssd.room at hroom
  by_contra hcon
  have hlt : s.lm.freeLineCnt + 1 ≤ n := by omega
  have hmul := Int.mul_le_mul_of_nonneg_right hlt (Int.natCast_nonneg s.sp.pgsPerLine)
  rw [Int.add_mul, Int.one_mul] at hmul
  omega

namespace PageInv

variable {s : Ssd} {loc : Nat → Place} {prog : Nat × Nat}

/-- The free count is the number of free lines. -/
theorem freeLineCnt_eq (h : PageInv s loc prog) :
    s.lm.freeLineCnt = (linesAt s.sp.blksPerPl loc .free).card := by
  have hset : s.lm.freeLineList.toFinset = linesAt s.sp.blksPerPl loc .free := by
    ext l
    rw [List.mem_toFinset, h.lines.free_mem, mem_linesAt]
  rw [h.lines.free_cnt, ← hset, List.toFinset_card_of_nodup h.lines.free_nodup]

/-- Exactly one line is being written. -/
theorem card_cur (h : PageInv s loc prog) : (linesAt s.sp.blksPerPl loc .cur).card = 1 := by
  rw [Finset.card_eq_one]
  refine ⟨s.wp.curline, Finset.ext fun l => ?_⟩
  rw [mem_linesAt, Finset.mem_singleton]
  exact ⟨fun hl => (h.cur l hl.1).mp hl.2,
    fun hl => hl ▸ ⟨h.curline, (h.cur _ h.curline).mpr rfl⟩⟩

/-- The room is at most the size of the SSD. -/
theorem room_le (h : PageInv s loc prog) : s.room ≤ s.sp.blksPerPl * s.sp.pgsPerLine := by
  have hcard := card_linesAt s.sp.blksPerPl loc
  have hcur := h.card_cur
  have hle : s.lm.freeLineCnt + 1 ≤ s.sp.blksPerPl := by
    rw [h.freeLineCnt_eq]
    omega
  have hmul := Int.mul_le_mul_of_nonneg_right hle (Int.natCast_nonneg s.sp.pgsPerLine)
  have hfree := lineCnt_le s.sp s.blk .free s.wp.curline
  unfold Ssd.room
  rw [Int.add_mul, Int.one_mul] at hmul
  omega

/-- Free lines mean room, and a page more. -/
theorem le_room (h : PageInv s loc prog) (hP : 0 < s.sp.pgsPerLine) {n : Int}
    (hfree : n ≤ s.lm.freeLineCnt) : n * s.sp.pgsPerLine + 1 ≤ s.room := by
  have hpos := h.free_cur_pos hP
  have hmul := Int.mul_le_mul_of_nonneg_right hfree (Int.natCast_nonneg s.sp.pgsPerLine)
  unfold Ssd.room
  omega

end PageInv

/-- The pages of the full lines are mapped, each for a logical page of its own. -/
theorem FtlInv.card_full {s : Ssd} {L : Nat} {loc : Nat → Place} {prog : Nat × Nat}
    (h : FtlInv s L loc prog none fun _ => False) :
    (linesAt s.sp.blksPerPl loc .full).card * s.sp.pgsPerLine ≤ L := by
  set I := linesAt s.sp.blksPerPl loc .full ×ˢ (chips s.sp ×ˢ Finset.range s.sp.pgsPerBlk) with hI
  have hmem : ∀ x ∈ I, InGeom s.sp (mkPpa x.2.1.1 x.2.1.2 x.1 x.2.2) ∧ x.1 < s.sp.blksPerPl ∧
      loc x.1 = .full ∧ x.2.1 ∈ chips s.sp ∧ x.2.2 < s.sp.pgsPerBlk := by
    rintro ⟨l, c, k⟩ hx
    simp only [hI, Finset.mem_product, mem_linesAt, Finset.mem_range] at hx
    obtain ⟨⟨hl, hfull⟩, hc, hk⟩ := hx
    have hc' := mem_chips.mp hc
    exact ⟨inGeom_mkPpa h.repr hc'.1 hc'.2 hl hk, hl, hfull, hc, hk⟩
  have hinj : Set.InjOn (fun x : Nat × (Nat × Nat) × Nat => mkPpa x.2.1.1 x.2.1.2 x.1 x.2.2) I := by
    rintro ⟨l, ⟨ch, lun⟩, k⟩ hx ⟨l', ⟨ch', lun'⟩, k'⟩ hx' he
    obtain ⟨-, hl, -, hc, hk⟩ := hmem _ hx
    obtain ⟨-, hl', -, hc', hk'⟩ := hmem _ hx'
    obtain ⟨hch, hlun⟩ := mem_chips.mp hc
    obtain ⟨hch', hlun'⟩ := mem_chips.mp hc'
    obtain ⟨rfl, rfl, rfl, rfl⟩ := mkPpa_inj h.repr ⟨hch, hlun, hl, hk⟩ ⟨hch', hlun', hl', hk'⟩ he
    rfl
  have hlive : ∀ p ∈ I.image fun x => mkPpa x.2.1.1 x.2.1.2 x.1 x.2.2,
      p ∈ livePages s fun _ => False := by
    intro p hp
    obtain ⟨x, hx, rfl⟩ := Finset.mem_image.mp hp
    obtain ⟨hin, hl, hfull, hc, hk⟩ := hmem x hx
    refine ⟨hin, ?_, fun h => h⟩
    have hcnt := h.pages.full _ hl hfull
    obtain ⟨hch, hlun⟩ := mem_chips.mp hc
    have hb := blkIn_lineBlk hc hl
    unfold Ssd.getPg
    rw [mkPpa_blkAddr h.repr _ hch hlun hl, mkPpa_pg h.repr hk]
    exact valid_of_lineCnt_eq hb hk hcnt
  have hcard := h.map.card_le (R := Finset.range L) hlive fun l hl => Finset.mem_range.mpr hl.1
  rw [Finset.card_image_of_injOn hinj, Finset.card_range] at hcard
  rw [hI, Finset.card_product, Finset.card_product, card_chips, Finset.card_range] at hcard
  refine Nat.le_trans (Nat.le_of_eq ?_) hcard
  unfold SsdParams.pgsPerLine SsdParams.blksPerLine SsdParams.ttLuns
  ring

/-! ## the space argument -/

namespace Idle

variable {s s' : Ssd} {L : Nat}

/-- Without a victim more lines are free than the threshold, if few enough
logical pages are in use. -/
theorem lt_freeLineCnt (h : Idle s L)
    (hnone : s.lm.selectVictimLine s.sp.pgsPerLine true = none) {n : Int}
    (hL : L < (s.sp.blksPerPl - n - 1) * s.sp.pgsPerLine) : n < s.lm.freeLineCnt := by
  obtain ⟨loc, hinv, hgc⟩ := h
  have hvic : (linesAt s.sp.blksPerPl loc .victim).card = 0 := by
    rw [Finset.card_eq_zero, Finset.eq_empty_iff_forall_notMem]
    intro l hl
    obtain ⟨hlt, hv⟩ := mem_linesAt.mp hl
    exact hinv.pages.lines.selectVictimLine_force hlt hnone hv
  have hgc0 : (linesAt s.sp.blksPerPl loc .gc).card = 0 := by
    rw [Finset.card_eq_zero, Finset.eq_empty_iff_forall_notMem]
    intro l hl
    obtain ⟨hlt, hg⟩ := mem_linesAt.mp hl
    exact hgc l hlt hg
  have htotal := card_linesAt s.sp.blksPerPl loc
  have hcur := hinv.pages.card_cur
  have hfull := hinv.card_full
  have hfree := hinv.pages.freeLineCnt_eq
  -- the full lines are fewer than the lines that are neither written nor wanted free
  have hlt : ((linesAt s.sp.blksPerPl loc .full).card : Int) < s.sp.blksPerPl - n - 1 := by
    by_contra hcon
    have hmul := Int.mul_le_mul_of_nonneg_right (Int.not_lt.mp hcon)
      (Int.natCast_nonneg s.sp.pgsPerLine)
    have : ((linesAt s.sp.blksPerPl loc .full).card : Int) * s.sp.pgsPerLine ≤ L := by
      exact_mod_cast hfull
    omega
  omega

/-- With a line's worth of room the `while` loop of `ssd_write` ends: each
collection makes more room, and the SSD is only so large. -/
theorem exists_gcHigh (h : Idle s L) (fuel : Nat) (hroom : s.sp.pgsPerLine ≤ s.room)
    (hfuel : s.sp.blksPerPl * s.sp.pgsPerLine - s.room < fuel) :
    ∃ s', Ssd.gcHigh fuel s = some s' := by
  induction fuel generalizing s with
  | zero =>
      obtain ⟨loc, hinv, -⟩ := h
      have := hinv.pages.room_le
      omega
  | succ fuel ih =>
      unfold Ssd.gcHigh
      split
      · obtain ⟨r, t, ht⟩ := h.exists_doGc true hroom
        obtain ⟨hidle, hsp, hcase⟩ := h.doGc ht
        rw [ht]
        rcases hcase with ⟨rfl, rfl, -⟩ | ⟨rfl, hgain⟩
        · exact ⟨t, by simp⟩
        · obtain ⟨s', hs'⟩ := ih hidle (by rw [hsp]; omega) (by rw [hsp]; omega)
          exact ⟨s', by simpa using hs'⟩
      · exact ⟨s, rfl⟩

end Idle

/-- The number of logical pages that a write covers. -/
def FtlCall.pages (sp : SsdParams) : FtlCall → Nat
  | .read _ _ _ => 0
  | .write slba nlb _ => sp.endLpn slba nlb + 1 - sp.startLpn slba
  | .gc _ => 0

/-- Between calls there are at least as many free lines as the threshold. -/
structure Roomy (s : Ssd) (L : Nat) : Prop where
  idle : Idle s L
  free : s.sp.gcThresLinesHigh ≤ s.lm.freeLineCnt

namespace Roomy

variable {s s' : Ssd} {L : Nat}

theorem room (h : Roomy s L) (hP : 0 < s.sp.pgsPerLine) :
    s.sp.gcThresLinesHigh * s.sp.pgsPerLine + 1 ≤ s.room := by
  obtain ⟨⟨loc, hinv, -⟩, hfree⟩ := h
  exact hinv.pages.le_room hP hfree

theorem of_room (h : Idle s L)
    (hroom : s.sp.gcThresLinesHigh * s.sp.pgsPerLine + 1 ≤ s.room) : Roomy s L :=
  ⟨h, s.le_freeLineCnt hroom⟩

/-- A line's worth of room is there whenever the threshold is at least one. -/
theorem pgsPerLine_le_room (h : Roomy s L) (hP : 0 < s.sp.pgsPerLine)
    (hH : 1 ≤ s.sp.gcThresLinesHigh) : s.sp.pgsPerLine ≤ s.room := by
  have hroom := h.room hP
  have hmul := Int.mul_le_mul_of_nonneg_right hH (Int.natCast_nonneg s.sp.pgsPerLine)
  rw [Int.one_mul] at hmul
  omega

/-- A write of at most a line's worth of pages. -/
theorem ssdWrite (h : Roomy s L) (hP : 0 < s.sp.pgsPerLine) (hH : 1 ≤ s.sp.gcThresLinesHigh)
    (hL : L < (s.sp.blksPerPl - s.sp.gcThresLinesHigh - 1) * s.sp.pgsPerLine)
    (hLt : L ≤ s.sp.ttPgs) {fuel : Nat} (hfuel : s.sp.ttPgs < fuel) {slba nlb stime : Nat}
    (hb : (FtlCall.write slba nlb stime).Below s.sp L)
    (hpages : (FtlCall.write slba nlb stime).pages s.sp ≤ s.sp.pgsPerLine) :
    ∃ x, s.ssdWrite fuel slba nlb stime = some x ∧ Roomy x.2 L ∧ x.2.sp = s.sp := by
  have hline := h.pgsPerLine_le_room hP hH
  have htt : (s.sp.ttPgs : Int) = s.sp.blksPerPl * s.sp.pgsPerLine := by
    obtain ⟨loc, hinv, -⟩ := h.idle
    rw [SsdParams.ttPgs_eq _ hinv.pls]
    push_cast
    rfl
  obtain ⟨t, ht⟩ := h.idle.exists_gcHigh fuel hline (by omega)
  obtain ⟨hidle, hsp, -, hstop⟩ := h.idle.gcHigh ht
  -- however the collections ended, more lines are free than the threshold
  have hfree : t.sp.gcThresLinesHigh + 1 ≤ t.lm.freeLineCnt := by
    cases hhigh : t.shouldGcHigh with
    | true =>
        have := hidle.lt_freeLineCnt (hstop hhigh) (n := t.sp.gcThresLinesHigh) (by rwa [hsp])
        omega
    | false =>
        simp only [Ssd.shouldGcHigh, decide_eq_false_iff_not] at hhigh
        omega
  have hroom : (t.sp.gcThresLinesHigh + 1) * t.sp.pgsPerLine + 1 ≤ t.room := by
    obtain ⟨loc, hinv, -⟩ := hidle
    exact hinv.pages.le_room (hsp ▸ hP) hfree
  rw [Int.add_mul, Int.one_mul] at hroom
  have hH' := Int.mul_nonneg (Int.le_trans (by decide) hH) (Int.natCast_nonneg s.sp.pgsPerLine)
  change s.sp.endLpn slba nlb + 1 - s.sp.startLpn slba ≤ _ at hpages
  rw [← hsp] at hLt
  rw [hsp] at hroom
  obtain ⟨x, hx⟩ := hidle.exists_writeLoop hLt stime (Idle.lt_of_below hb) (by omega)
  obtain ⟨hidle', hsp', hroom'⟩ := hidle.writeLoop hLt (Idle.lt_of_below hb) hx
  refine ⟨x, Option.bind_eq_some_iff.mpr ⟨t, ht, hx⟩, .of_room hidle' ?_, hsp'.trans hsp⟩
  rw [hsp', hsp]
  omega

/-- Every call is carried out and leaves enough free lines. -/
theorem step (h : Roomy s L) (hP : 0 < s.sp.pgsPerLine) (hH : 1 ≤ s.sp.gcThresLinesHigh)
    (hL : L < (s.sp.blksPerPl - s.sp.gcThresLinesHigh - 1) * s.sp.pgsPerLine)
    (hLt : L ≤ s.sp.ttPgs) {fuel : Nat} (hfuel : s.sp.ttPgs < fuel) {call : FtlCall}
    (hb : call.Below s.sp L) (hpages : call.pages s.sp ≤ s.sp.pgsPerLine) :
    ∃ s', s.step fuel call = some s' ∧ Roomy s' L ∧ s'.sp = s.sp := by
  cases call with
  | read slba nlb stime =>
      obtain ⟨x, hx⟩ := Idle.exists_ssdRead s slba nlb stime
      obtain ⟨hidle, hsp, hlm, -⟩ := h.idle.ssdRead hx
      exact ⟨x.2, Option.map_eq_some_iff.mpr ⟨x, hx, rfl⟩,
        ⟨hidle, by rw [hsp, hlm]; exact h.free⟩, hsp⟩
  | write slba nlb stime =>
      obtain ⟨x, hx, hroomy, hsp⟩ := h.ssdWrite hP hH hL hLt hfuel hb hpages
      exact ⟨x.2, Option.map_eq_some_iff.mpr ⟨x, hx, rfl⟩, hroomy, hsp⟩
  | gc force =>
      obtain ⟨r, t, ht⟩ := h.idle.exists_doGc force (h.pgsPerLine_le_room hP hH)
      obtain ⟨hidle, hsp, hcase⟩ := h.idle.doGc ht
      have hroom := h.room hP
      refine ⟨t, Option.map_eq_some_iff.mpr ⟨(r, t), ht, rfl⟩, .of_room hidle ?_, hsp⟩
      rw [hsp]
      rcases hcase with ⟨-, rfl, -⟩ | ⟨-, hgain⟩
      · exact hroom
      · omega

end Roomy

end Femu.Bbssd

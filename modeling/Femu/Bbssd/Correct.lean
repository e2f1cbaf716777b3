import Femu.Bbssd.LongBlocks
import Femu.Bbssd.Space

/-!
# Femu.Bbssd.Correct

What the runs of the flash translation layer satisfy, read off the invariant:

* `mapping_consistent` — the mapping tables agree with each other and with the
  page states;
* `line_accounting` — every line is in one place, and every counter is right;
* `program_discipline` — how pages are handed out and blocks erased;
* `space_safe` — with enough spare lines no call runs out of them.

All four need the geometry to fit the bit-fields of `struct ppa`: the SSD
`wideSsd` has one channel too many, `longSsd` one page too many in a block, and
two of their pages share an address.
-/

namespace Femu.Bbssd

open Lib

/-! ## runs keep the invariant -/

/-- Every run from `ssd_init` ends in a state with the invariant. -/
theorem idle_ssdRun {sp : SsdParams} (hr : Representable sp) (hpl : sp.plsPerLun = 1)
    {clock : Nat → Nat} {fuel : Nat} {calls : List FtlCall} {s : Ssd} {L : Nat}
    (hL : L ≤ sp.ttPgs) (hb : ∀ call ∈ calls, call.Below sp L)
    (hrun : ssdRun sp clock fuel calls = some s) : Idle s L ∧ s.sp = sp := by
  obtain ⟨s₀, hinit, hcalls⟩ := Option.bind_eq_some_iff.mp hrun
  obtain ⟨hidle, hsp, -⟩ := idle_ssdInit hr hpl clock L hinit
  subst hsp
  exact hidle.runAll hL hb hcalls

/-- A geometry with one channel more than the `ch` field of `struct ppa` holds. -/
def wideSsd : SsdParams where
  secsPerPg := 1
  pgsPerBlk := 1
  blksPerPl := 2
  plsPerLun := 1
  lunsPerCh := 1
  nchs := 129
  pgRdLat := 40000
  pgWrLat := 200000
  blkErLat := 2000000
  gcThresLines := 0
  gcThresLinesHigh := 0
  enableGcDelay := true

/-- A small geometry, for examples. -/
def smallSsd : SsdParams where
  secsPerPg := 1
  pgsPerBlk := 2
  blksPerPl := 4
  plsPerLun := 1
  lunsPerCh := 1
  nchs := 2
  pgRdLat := 40000
  pgWrLat := 200000
  blkErLat := 2000000
  gcThresLines := 1
  gcThresLinesHigh := 1
  enableGcDelay := true

theorem representable_smallSsd : Representable smallSsd :=
  ⟨by decide, by decide, by decide, by decide⟩

/-- Overwrites, a forced collection and more overwrites. -/
def smallCalls : List FtlCall :=
  [.write 0 3 0, .write 1 3 0, .gc true, .read 0 4 0, .write 0 2 0, .write 2 2 0, .gc false]

theorem below_smallCalls : ∀ call ∈ smallCalls, call.Below smallSsd 4 := by
  intro call hcall
  simp only [smallCalls, List.mem_cons, List.not_mem_nil, or_false] at hcall
  rcases hcall with rfl | rfl | rfl | rfl | rfl | rfl | rfl <;>
    simp only [FtlCall.Below, SsdParams.startLpn, SsdParams.endLpn, smallSsd] <;> omega

/-- All the pages of the first line of `wideSsd`. -/
def wideCalls : List FtlCall := [.write 0 129 0]

theorem below_wideCalls : ∀ call ∈ wideCalls, call.Below wideSsd wideSsd.ttPgs := by
  intro call hcall
  rw [wideCalls, List.mem_singleton] at hcall
  subst hcall
  simp only [FtlCall.Below, SsdParams.startLpn, SsdParams.endLpn, SsdParams.ttPgs,
    SsdParams.pgsPerCh, SsdParams.pgsPerLun, SsdParams.pgsPerPl, wideSsd]
  omega

/-! ## mapping consistency -/

/-- The mapping tables agree: a mapped logical page is at a valid page whose
reverse entry it is, a valid page belongs to the logical page of its reverse
entry, so no page is shared and every valid page has one owner. -/
structure MappingConsistent (s : Ssd) : Prop where
  mapped : ∀ lpn < s.sp.ttPgs, s.maptbl lpn = unmappedPpa ∨
    InGeom s.sp (s.maptbl lpn) ∧ s.getPg (s.maptbl lpn) = .valid ∧
      s.getRmapEnt (s.maptbl lpn) = lpn
  valid : ∀ p, InGeom s.sp p → s.getPg p = .valid →
    s.getRmapEnt p < s.sp.ttPgs ∧ s.maptbl (s.getRmapEnt p) = p
  share : ∀ l < s.sp.ttPgs, ∀ l' < s.sp.ttPgs, s.maptbl l ≠ unmappedPpa →
    s.maptbl l = s.maptbl l' → l = l'
  owner : ∀ p, InGeom s.sp p → s.getPg p = .valid → ∃! l, l < s.sp.ttPgs ∧ s.maptbl l = p

theorem Idle.mappingConsistent {s : Ssd} (h : Idle s s.sp.ttPgs) : MappingConsistent s := by
  obtain ⟨loc, hinv, -⟩ := h
  have hmapped : ∀ l < s.sp.ttPgs, s.maptbl l ≠ unmappedPpa →
      s.maptbl l ∈ livePages s (fun _ => False) ∧ s.getRmapEnt (s.maptbl l) = l :=
    fun l hl hm => hinv.map.mapped hl (by simpa [mappedPpa] using hm)
  have hvalid : ∀ p, InGeom s.sp p → s.getPg p = .valid →
      s.getRmapEnt p < s.sp.ttPgs ∧ s.maptbl (s.getRmapEnt p) = p := fun p hp hv =>
    have hlive : p ∈ livePages s fun _ => False := ⟨hp, hv, fun h => h⟩
    ⟨(hinv.map.mapsTo' p hlive).1, hinv.map.right p hlive⟩
  have hshare : ∀ l < s.sp.ttPgs, ∀ l' < s.sp.ttPgs, s.maptbl l ≠ unmappedPpa →
      s.maptbl l = s.maptbl l' → l = l' := fun l hl l' hl' hm he => by
    rw [← (hmapped l hl hm).2, he, (hmapped l' hl' (he ▸ hm)).2]
  exact
    { mapped := fun l hl => by
        by_cases hm : s.maptbl l = unmappedPpa
        · exact .inl hm
        · obtain ⟨⟨hp, hv, -⟩, hrm⟩ := hmapped l hl hm
          exact .inr ⟨hp, hv, hrm⟩
      valid := hvalid
      share := hshare
      owner := fun p hp hv => by
        obtain ⟨hlt, he⟩ := hvalid p hp hv
        refine ⟨s.getRmapEnt p, ⟨hlt, he⟩, fun l hl => ?_⟩
        rw [← hl.2, (hmapped l hl.1 (hl.2 ▸ hp.ne_unmapped)).2] }

/-- **Mapping consistency** in every state that calls on logical pages of the SSD
reach from `ssd_init`. -/
theorem mapping_consistent {sp : SsdParams} (hr : Representable sp) (hpl : sp.plsPerLun = 1)
    {clock : Nat → Nat} {fuel : Nat} {calls : List FtlCall} {s : Ssd}
    (hb : ∀ call ∈ calls, call.Below sp sp.ttPgs)
    (hrun : ssdRun sp clock fuel calls = some s) : MappingConsistent s := by
  obtain ⟨hidle, rfl⟩ := idle_ssdRun hr hpl (Nat.le_refl _) hb hrun
  exact hidle.mappingConsistent

theorem mapping_consistent_small :
    MappingConsistent ((ssdRun smallSsd (fun _ => 1) 20 smallCalls).get (by decide +kernel)) :=
  mapping_consistent representable_smallSsd rfl
    (fun call hcall => (below_smallCalls call hcall).mono (by decide)) (Option.some_get _).symm

/-- In `wideSsd` logical pages 0 and 128 share a physical page. -/
theorem mapping_not_consistent_wide : ¬ ∀ (sp : SsdParams) (clock : Nat → Nat) (fuel : Nat)
    (calls : List FtlCall) (s : Ssd), sp.plsPerLun = 1 →
    (∀ call ∈ calls, call.Below sp sp.ttPgs) → ssdRun sp clock fuel calls = some s →
    MappingConsistent s := by
  intro hall
  have hrun : (ssdRun wideSsd (fun _ => 1) 1 wideCalls).map
      (fun s => (s.sp.ttPgs, s.maptbl 0, s.maptbl 128)) =
      some (258, mkPpa 0 0 0 0, mkPpa 0 0 0 0) := by decide +kernel
  obtain ⟨s, hs, heq⟩ := Option.map_eq_some_iff.mp hrun
  simp only [Prod.mk.injEq] at heq
  obtain ⟨htt, h0, h128⟩ := heq
  have hc := hall wideSsd (fun _ => 1) 1 wideCalls s rfl below_wideCalls hs
  have := hc.share 0 (by omega) 128 (by omega) (by rw [h0]; decide) (by rw [h0, h128])
  omega

/-! ## line accounting -/

/-- Line `l` is at place `a`, as the code's containers have it. -/
def Ssd.LineAt (s : Ssd) (l : Nat) : Place → Prop
  | .free => l ∈ s.lm.freeLineList
  | .full => l ∈ s.lm.fullLineList
  | .victim => s.lm.victimLinePq.Mem l
  | .cur => l = s.wp.curline
  | .gc => False

/-- The accounting of lines:

* every line is in exactly one place, and no container holds one twice;
* the three counts are the sizes of the containers;
* the counters of lines and blocks are the counts of valid and invalid pages;
* full, victim and free lines have the counts their place asks for;
* the slot number of a line is its slot in the victim queue, and 0 outside. -/
structure LineAccounting (s : Ssd) : Prop where
  place : ∀ l < s.sp.ttLines, ∃! a, s.LineAt l a
  nodup : s.lm.freeLineList.Nodup ∧ s.lm.fullLineList.Nodup ∧
    ∀ j k, 1 ≤ j → j < s.lm.victimLinePq.size → 1 ≤ k → k < s.lm.victimLinePq.size →
      s.lm.victimLinePq.d j = s.lm.victimLinePq.d k → j = k
  counts : s.lm.freeLineCnt = s.lm.freeLineList.length ∧
    s.lm.fullLineCnt = s.lm.fullLineList.length ∧ s.lm.victimLineCnt = s.lm.victimLinePq.count
  line : ∀ l < s.sp.ttLines, (s.lm.lines l).vpc = lineCnt s.sp s.blk .valid l ∧
    (s.lm.lines l).ipc = lineCnt s.sp s.blk .invalid l
  block : BlkCounts s.sp s.blk
  full : ∀ l < s.sp.ttLines, l ∈ s.lm.fullLineList → (s.lm.lines l).vpc = s.sp.pgsPerLine
  victim : ∀ l < s.sp.ttLines, s.lm.victimLinePq.Mem l →
    (s.lm.lines l).vpc + (s.lm.lines l).ipc = s.sp.pgsPerLine ∧
      (s.lm.lines l).vpc < s.sp.pgsPerLine
  free : ∀ l < s.sp.ttLines, l ∈ s.lm.freeLineList →
    (∀ b, BlkIn s.sp b → b.blk = l → ∀ k < s.sp.pgsPerBlk, (s.blk b).pg k = .free) ∧
      (s.lm.lines l).vpc = 0 ∧ (s.lm.lines l).ipc = 0
  pos : ∀ l < s.sp.ttLines, ((s.lm.lines l).pos ≠ 0 ↔ s.lm.victimLinePq.Mem l) ∧
    (s.lm.victimLinePq.Mem l → (s.lm.lines l).pos < s.lm.victimLinePq.size ∧
      s.lm.victimLinePq.d (s.lm.lines l).pos = l)

/-- The code's containers agree with the ledger. -/
theorem PageInv.lineAt_iff {s : Ssd} {loc : Nat → Place} {prog : Nat × Nat}
    (h : PageInv s loc prog) (hgc : ∀ l < s.sp.blksPerPl, loc l ≠ .gc) {l : Nat}
    (hl : l < s.sp.blksPerPl) (a : Place) : s.LineAt l a ↔ a = loc l := by
  cases a with
  | free => exact (h.lines.free_mem l).trans (by simp [hl, eq_comm])
  | full => exact (h.lines.full_mem l).trans (by simp [hl, eq_comm])
  | victim => exact (h.lines.pq_mem l).trans (by simp [hl, eq_comm])
  | cur => exact (h.cur l hl).symm.trans eq_comm
  | gc => exact ⟨False.elim, fun he => hgc l hl he.symm⟩

theorem Idle.lineAccounting {s : Ssd} {L : Nat} (h : Idle s L) : LineAccounting s := by
  obtain ⟨loc, hinv, hgc⟩ := h
  have hT : s.sp.ttLines = s.sp.blksPerPl := by
    unfold SsdParams.ttLines SsdParams.blksPerLun
    rw [hinv.pls, Nat.mul_one]
  have hp := hinv.pages
  have hl := hp.lines
  have hvpc : ∀ l < s.sp.blksPerPl, (s.lm.lines l).vpc = lineCnt s.sp s.blk .valid l :=
    fun l hlt => hl.vpc l hlt (hgc l hlt)
  have hipc : ∀ l < s.sp.blksPerPl, (s.lm.lines l).ipc = lineCnt s.sp s.blk .invalid l :=
    fun l hlt => hl.ipc l hlt (hgc l hlt)
  -- a page of a line is free only beyond the written part of its block
  have hfill : ∀ l < s.sp.blksPerPl, ∀ a, loc l = a → a = .full ∨ a = .victim →
      lineCnt s.sp s.blk .free l = 0 := fun l hlt a ha hcase =>
    lineCnt_eq_zero fun c hc k hk he => by
      have hle := (hp.free _ (blkIn_lineBlk hc hlt) k hk).mp he
      rcases hcase with rfl | rfl
      · rw [fill_full (b := lineBlk l c) ha] at hle
        omega
      · rw [fill_victim (b := lineBlk l c) ha] at hle
        omega
  have hfree : ∀ l < s.sp.blksPerPl, l ∈ s.lm.freeLineList → ∀ b, BlkIn s.sp b → b.blk = l →
      ∀ k < s.sp.pgsPerBlk, (s.blk b).pg k = .free := fun l _ hmem b hb hbl k hk => by
    refine (hp.free b hb k hk).mpr ?_
    rw [fill_free (hbl ▸ ((hl.free_mem l).mp hmem).2)]
    exact Nat.zero_le k
  have hfree0 : ∀ l < s.sp.blksPerPl, l ∈ s.lm.freeLineList → ∀ st, st ≠ .free →
      lineCnt s.sp s.blk st l = 0 := fun l hlt hmem st hst =>
    lineCnt_eq_zero fun c hc k hk he =>
      hst (he.symm.trans (hfree l hlt hmem _ (blkIn_lineBlk hc hlt) rfl k hk))
  rw [← hT] at hvpc hipc hfill hfree hfree0
  exact
    { place := fun l hlt => ⟨loc l, (hp.lineAt_iff hgc (hT ▸ hlt) _).mpr rfl, fun a ha =>
        (hp.lineAt_iff hgc (hT ▸ hlt) a).mp ha⟩
      nodup := ⟨hl.free_nodup, hl.full_nodup, fun j k hj1 hj hk1 hk he => by
        have h1 := hl.pq_placed j hj1 hj
        rw [he, hl.pq_placed k hk1 hk] at h1
        exact h1.symm⟩
      counts := ⟨hl.free_cnt, hl.full_cnt, hl.pq_cnt⟩
      line := fun l hlt => ⟨hvpc l hlt, hipc l hlt⟩
      block := hp.counts
      full := fun l hlt hmem => by
        rw [hvpc l hlt, hp.full l (hT ▸ hlt) ((hl.full_mem l).mp hmem).2]
      victim := fun l hlt hmem => by
        have hvic := ((hl.pq_mem l).mp hmem).2
        have h0 := hfill l hlt _ hvic (.inr rfl)
        have hlt' := hp.victim l (hT ▸ hlt) hvic
        have htotal := lineCnt_total s.sp s.blk l
        rw [hvpc l hlt, hipc l hlt]
        omega
      free := fun l hlt hmem => ⟨hfree l hlt hmem,
        by rw [hvpc l hlt, hfree0 l hlt hmem _ (by decide)]; rfl,
        by rw [hipc l hlt, hfree0 l hlt hmem _ (by decide)]; rfl⟩
      pos := fun l hlt => by
        refine ⟨⟨fun hne => ?_, fun hmem => ?_⟩, fun hmem => ?_⟩
        · by_contra hnot
          exact hne (hl.pos l (hT ▸ hlt) fun hv => hnot ((hl.pq_mem l).mpr ⟨hT ▸ hlt, hv⟩))
        · exact hl.pos_ne_zero (hT ▸ hlt) ((hl.pq_mem l).mp hmem).2
        · exact (hl.pq_placed.getpos_of_mem hmem).2 }

/-- **Line accounting** between the calls of any run from `ssd_init`. -/
theorem line_accounting {sp : SsdParams} (hr : Representable sp) (hpl : sp.plsPerLun = 1)
    {clock : Nat → Nat} {fuel : Nat} {calls : List FtlCall} {s : Ssd}
    (hb : ∀ call ∈ calls, call.Below sp sp.ttPgs)
    (hrun : ssdRun sp clock fuel calls = some s) : LineAccounting s :=
  (idle_ssdRun hr hpl (Nat.le_refl _) hb hrun).1.lineAccounting

theorem line_accounting_small :
    LineAccounting ((ssdRun smallSsd (fun _ => 1) 20 smallCalls).get (by decide +kernel)) :=
  line_accounting representable_smallSsd rfl
    (fun call hcall => (below_smallCalls call hcall).mono (by decide)) (Option.some_get _).symm

/-- In `wideSsd` a line counts 129 valid pages while one of its blocks is still free. -/
theorem line_not_accounted_wide : ¬ ∀ (sp : SsdParams) (clock : Nat → Nat) (fuel : Nat)
    (calls : List FtlCall) (s : Ssd), sp.plsPerLun = 1 →
    (∀ call ∈ calls, call.Below sp sp.ttPgs) → ssdRun sp clock fuel calls = some s →
    LineAccounting s := by
  intro hall
  have hrun : (ssdRun wideSsd (fun _ => 1) 1 wideCalls).map (fun s =>
      (s.sp, s.lm.fullLineList, (s.blk { ch := 128, lun := 0, pl := 0, blk := 0 }).pg 0)) =
      some (wideSsd, [0], .free) := by decide +kernel
  obtain ⟨s, hs, heq⟩ := Option.map_eq_some_iff.mp hrun
  simp only [Prod.mk.injEq] at heq
  obtain ⟨hsp, hfull, hfree⟩ := heq
  have hc := hall wideSsd (fun _ => 1) 1 wideCalls s rfl below_wideCalls hs
  have hT : 0 < s.sp.ttLines := by rw [hsp]; decide
  have hb : BlkIn s.sp { ch := 128, lun := 0, pl := 0, blk := 0 } := by
    rw [hsp]
    exact ⟨by decide, by decide, rfl, by decide⟩
  have hvpc := hc.full 0 hT (by rw [hfull]; exact List.mem_cons_self)
  have hcnt : lineCnt s.sp s.blk .valid 0 = s.sp.pgsPerLine := by
    have := (hc.line 0 hT).1
    omega
  have hvalid := valid_of_lineCnt_eq hb (k := 0) (by rw [hsp]; decide) hcnt
  rw [hfree] at hvalid
  cases hvalid

/-! ## program discipline -/

/-- **Program discipline** of the history of any run from `ssd_init`. -/
theorem program_discipline {sp : SsdParams} (hr : Representable sp) (hpl : sp.plsPerLun = 1)
    {clock : Nat → Nat} {fuel : Nat} {calls : List FtlCall} {s : Ssd}
    (hb : ∀ call ∈ calls, call.Below sp sp.ttPgs)
    (hrun : ssdRun sp clock fuel calls = some s) : ProgramDiscipline sp sp.ttPgs s.log := by
  obtain ⟨⟨loc, hinv, -⟩, rfl⟩ := idle_ssdRun hr hpl (Nat.le_refl _) hb hrun
  exact .of_always hinv.log.ok

theorem program_discipline_small : ProgramDiscipline smallSsd smallSsd.ttPgs
    ((ssdRun smallSsd (fun _ => 1) 20 smallCalls).get (by decide +kernel)).log :=
  program_discipline representable_smallSsd rfl
    (fun call hcall => (below_smallCalls call hcall).mono (by decide)) (Option.some_get _).symm

/-- In `wideSsd` the last page of a line is handed out while it is valid. -/
theorem program_not_disciplined_wide : ¬ ∀ (sp : SsdParams) (clock : Nat → Nat) (fuel : Nat)
    (calls : List FtlCall) (s : Ssd), sp.plsPerLun = 1 →
    (∀ call ∈ calls, call.Below sp sp.ttPgs) → ssdRun sp clock fuel calls = some s →
    ProgramDiscipline sp sp.ttPgs s.log := by
  intro hall
  have hrun : (ssdRun wideSsd (fun _ => 1) 1 wideCalls).map (fun s => s.log.any fun e =>
      e.casesOn (fun _ st => decide (st ≠ .free)) (fun _ _ => false) fun _ => false) =
      some true := by decide +kernel
  obtain ⟨s, hs, hany⟩ := Option.map_eq_some_iff.mp hrun
  have hd := hall wideSsd (fun _ => 1) 1 wideCalls s rfl below_wideCalls hs
  obtain ⟨e, he, hst⟩ := List.any_eq_true.mp hany
  cases e with
  | getNewPage p st =>
      have hne : st ≠ .free := by simpa using hst
      exact hne (hd.free p st he)
  | markBlockFree b maptbl => cases hst
  | leaveLine l => cases hst

/-! ## space safety -/

/-- **Space safety**: if the logical pages in use leave `gc_thres_lines_high` and
one more line to spare, and no write covers more than a line's worth of pages,
then every call is carried out, whatever calls came before it: the collections
of `ssd_write` end, a free line is found whenever one is needed, and there are
at least `gc_thres_lines_high` free lines after the call. -/
theorem space_safe {sp : SsdParams} (hr : Representable sp) (hpl : sp.plsPerLun = 1)
    (hP : 2 ≤ sp.pgsPerLine) (hH : 1 ≤ sp.gcThresLinesHigh) {L : Nat}
    (hL : (L : Int) < (sp.ttLines - sp.gcThresLinesHigh - 1) * sp.pgsPerLine)
    (clock : Nat → Nat) {fuel : Nat} (hfuel : sp.ttPgs < fuel) {calls : List FtlCall}
    (hb : ∀ call ∈ calls, call.Below sp L) (hpages : ∀ call ∈ calls, call.pages sp ≤ sp.pgsPerLine) :
    ∃ s, ssdRun sp clock fuel calls = some s ∧ sp.gcThresLinesHigh ≤ s.lm.freeLineCnt := by
  have hP0 : 0 < sp.pgsPerLine := by omega
  have hT : sp.ttLines = sp.blksPerPl := by
    unfold SsdParams.ttLines SsdParams.blksPerLun
    rw [hpl, Nat.mul_one]
  rw [hT] at hL
  -- some line is to spare, so there is one to start with
  have hspare : 0 < (sp.blksPerPl : Int) - sp.gcThresLinesHigh - 1 := by
    by_contra hcon
    have := Int.mul_nonpos_of_nonpos_of_nonneg (Int.not_lt.mp hcon)
      (Int.natCast_nonneg sp.pgsPerLine)
    omega
  have hLt : L ≤ sp.ttPgs := by
    rw [SsdParams.ttPgs_eq _ hpl]
    have hle := Int.mul_le_mul_of_nonneg_right
      (show (sp.blksPerPl : Int) - sp.gcThresLinesHigh - 1 ≤ sp.blksPerPl by omega)
      (Int.natCast_nonneg sp.pgsPerLine)
    have : (L : Int) ≤ ((sp.blksPerPl * sp.pgsPerLine : Nat) : Int) := by
      push_cast
      omega
    exact_mod_cast this
  obtain ⟨s₀, hinit⟩ : ∃ s₀, Ssd.ssdInit sp clock = some s₀ := by
    obtain ⟨c, lm, hlm⟩ := (LineInv.ssdInitLines sp.blksPerPl).exists_nextFreeLine
      (by change (0 : Int) < sp.blksPerPl; omega)
    unfold Ssd.ssdInit
    rw [hlm]
    exact ⟨_, rfl⟩
  obtain ⟨hidle, hsp, hfree⟩ := idle_ssdInit hr hpl clock L hinit
  have hroomy : Roomy s₀ L := ⟨hidle, by rw [hsp, hfree]; omega⟩
  subst hsp
  obtain ⟨s, hs, hroomy', hsp'⟩ : ∃ s, Lib.runAll (Ssd.step fuel) calls s₀ = some s ∧
      Roomy s L ∧ s.sp = s₀.sp := runAll_total (fun s => Roomy s L ∧ s.sp = s₀.sp)
    (fun call => call.Below s₀.sp L ∧ call.pages s₀.sp ≤ s₀.sp.pgsPerLine)
    (fun s call hok hs => by
      obtain ⟨hs, hsp⟩ := hs
      rw [← hsp] at hok hP0 hH hL hLt hfuel
      obtain ⟨s', h1, h2, h3⟩ := hs.step hP0 hH hL hLt hfuel hok.1 hok.2
      exact ⟨s', h1, h2, h3.trans hsp⟩)
    (fun call hcall => ⟨hb call hcall, hpages call hcall⟩) ⟨hroomy, rfl⟩
  exact ⟨s, Option.bind_eq_some_iff.mpr ⟨s₀, hinit, hs⟩, hsp' ▸ hroomy'.free⟩

theorem space_safe_small : ∃ s, ssdRun smallSsd (fun _ => 1) 17 smallCalls = some s ∧
    smallSsd.gcThresLinesHigh ≤ s.lm.freeLineCnt :=
  space_safe representable_smallSsd rfl (by decide) (by decide) (L := 4) (by decide) (fun _ => 1)
    (by decide) below_smallCalls (by decide)

theorem below_longCalls : ∀ call ∈ longCalls, call.Below longSsd 131073 ∧
    call.pages longSsd ≤ 65537 := by
  intro call hcall
  simp only [longCalls, List.mem_cons, List.not_mem_nil, or_false] at hcall
  rcases hcall with rfl | rfl | rfl | rfl <;>
    simp only [FtlCall.Below, FtlCall.pages, SsdParams.startLpn, SsdParams.endLpn, longSsd] <;>
    exact ⟨fun lpn _ hend => by omega, by omega⟩

/-- In `longSsd` the last calls leave no free line, one less than the threshold. -/
theorem space_not_safe_long : ¬ ∀ (sp : SsdParams) (clock : Nat → Nat) (fuel L : Nat)
    (calls : List FtlCall), sp.plsPerLun = 1 → 2 ≤ sp.pgsPerLine → 1 ≤ sp.gcThresLinesHigh →
    (L : Int) < (sp.ttLines - sp.gcThresLinesHigh - 1) * sp.pgsPerLine → sp.ttPgs < fuel →
    (∀ call ∈ calls, call.Below sp L) → (∀ call ∈ calls, call.pages sp ≤ sp.pgsPerLine) →
    ∃ s, ssdRun sp clock fuel calls = some s ∧ sp.gcThresLinesHigh ≤ s.lm.freeLineCnt := by
  intro hall
  obtain ⟨s, hrun, hle⟩ := hall longSsd (fun _ => 1) 262149 131073 longCalls rfl (by decide)
    (by decide) (by decide) (by decide) (fun call hcall => (below_longCalls call hcall).1)
    fun call hcall => (below_longCalls call hcall).2
  rw [long_run hrun] at hle
  exact absurd hle (by decide)

end Femu.Bbssd

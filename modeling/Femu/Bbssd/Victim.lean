import Femu.Bbssd.Collect
import Femu.Pqueue.Order

/-!
# Femu.Bbssd.Victim

The order of the victim queue, and the line that `select_victim_line` picks. The
queue is ordered by the valid count of its lines, which `mark_page_invalid` lowers
in place; every operation on the lines keeps the order (`VictimHeap`), so the first
line has the fewest valid and the most invalid pages.
-/

namespace Femu.Bbssd

open Lib

/-! ## the operations on the lines -/

/-- No line of the victim queue has fewer valid pages than its parent. -/
def VictimHeap (lm : LineMgmt) : Prop := Pqueue.Heap victimOps lm.victimLinePq lm.lines

theorem victimOps_low : Pqueue.LowestFirst victimOps := fun _ _ => rfl

namespace VictimHeap

variable {lm lm' : LineMgmt} {T P c : Nat} {loc : Nat → Place} {v i : Nat → Nat}

theorem ssdInitLines (T : Nat) : VictimHeap (LineMgmt.ssdInitLines T) :=
  Pqueue.init_ordered.heap

theorem ordered (h : VictimHeap lm) (hinv : LineInv lm T loc v i) :
    Pqueue.Ordered victimOps lm.victimLinePq lm.lines :=
  ⟨hinv.pq_size, hinv.pq_placed, h⟩

/-- Only the valid counts of the lines in the queue matter. -/
theorem congr (h : VictimHeap lm) (hpq : lm'.victimLinePq = lm.victimLinePq)
    (hvpc : ∀ l, lm.victimLinePq.Mem l → (lm'.lines l).vpc = (lm.lines l).vpc) :
    VictimHeap lm' := by
  have hpri : ∀ l, lm.victimLinePq.Mem l →
      victimOps.getpri lm'.lines l = victimOps.getpri lm.lines l := by
    intro l hl
    simp only [victimOps, victimLineGetPri, hvpc l hl]
  intro k hk2 hk
  rw [hpq] at hk ⊢
  rw [hpri _ ⟨k / 2, by omega, by omega, rfl⟩, hpri _ ⟨k, by omega, hk, rfl⟩]
  exact h k hk2 hk

/-- Changes to a line outside the queue do not matter. -/
theorem update (h : VictimHeap lm) (hinv : LineInv lm T loc v i) (hc : loc c ≠ .victim)
    (x : Line) (hpq : lm'.victimLinePq = lm.victimLinePq)
    (hlines : lm'.lines = Function.update lm.lines c x) : VictimHeap lm' := by
  refine h.congr hpq fun l hl => ?_
  have hne : l ≠ c := by
    rintro rfl
    exact hc ((hinv.pq_mem l).mp hl).2
  rw [hlines, Function.update_of_ne hne]

theorem insertVictim (h : VictimHeap lm) (hinv : LineInv lm T loc v i) (hc : loc c ≠ .victim) :
    VictimHeap (lm.insertVictim c) := by
  have hnot : ¬ lm.victimLinePq.Mem c := fun hm => hc ((hinv.pq_mem c).mp hm).2
  exact ((h.ordered hinv).insert victimOps_lawful victimOps_low hnot).1.heap

theorem retire (h : VictimHeap lm) (hinv : LineInv lm T loc v i) (hc : loc c ≠ .victim) :
    VictimHeap (lm.retire P c) := by
  unfold LineMgmt.retire
  split
  · exact h
  · exact h.insertVictim hinv hc

theorem getNextFreeLine (h : VictimHeap lm) (hr : lm.getNextFreeLine = some (c, lm')) :
    VictimHeap lm' := by
  unfold LineMgmt.getNextFreeLine at hr
  split at hr
  · contradiction
  · cases hr
    exact h

theorem pageValid (h : VictimHeap lm) (hinv : LineInv lm T loc v i) (hc : loc c ≠ .victim) :
    VictimHeap (lm.pageValid c) :=
  h.update hinv hc _ rfl rfl

theorem markLineFree (h : VictimHeap lm) (hinv : LineInv lm T loc v i) (hc : loc c ≠ .victim) :
    VictimHeap (lm.markLineFree c) :=
  h.update hinv hc _ rfl rfl

/-- The valid count of a line falls, in the queue or outside. -/
theorem lowerVpc (h : VictimHeap lm) (hinv : LineInv lm T loc v i) (hc : c < T)
    (hg : loc c ≠ .gc) (hpos : 0 < v c) (hlt : v c ≤ 2 ^ 31) : VictimHeap (lm.lowerVpc c) := by
  have hvpc := hinv.vpc c hc hg
  unfold LineMgmt.lowerVpc
  by_cases hvictim : loc c = .victim
  case neg =>
    rw [if_neg (by simpa using hinv.pos c hc hvictim)]
    exact h.update hinv hvictim _ rfl (Function.update_idem ..)
  case pos =>
    rw [if_pos (hinv.pos_ne_zero hc hvictim)]
    have hmem : lm.victimLinePq.Mem c := (hinv.pq_mem c).mpr ⟨hc, hvictim⟩
    set lines := Function.update lm.lines c { lm.lines c with ipc := (lm.lines c).ipc + 1 }
      with hlines
    -- the invalid count is no part of the priority
    have hold : Pqueue.Ordered victimOps lm.victimLinePq lines := by
      refine (h.ordered hinv).congr (fun y _ => ?_) fun y _ => ?_
      · by_cases hy : y = c <;> simp [victimOps, hlines, hy]
      · by_cases hy : y = c <;> simp [victimOps, victimLineGetPri, hlines, hy]
    have hcast : (lm.lines c).vpc - 1 = ((v c - 1 : Nat) : Int) := by omega
    rw [hcast]
    have hset : victimOps.getpri (victimOps.setpri lines c (((v c - 1 : Nat) : Int) % 2 ^ 64).toNat) c
        = (((v c - 1 : Nat) : Int) % 2 ^ 64).toNat := by
      simp only [victimOps, Function.update_self]
      rw [victimLineSetPri_eq _ (by omega)]
      rfl
    have hother : ∀ y, y ≠ c →
        victimOps.getpri (victimOps.setpri lines c (((v c - 1 : Nat) : Int) % 2 ^ 64).toNat) y =
          victimOps.getpri lines y := by
      intro y hy
      simp only [victimOps, Function.update_of_ne hy]
    exact (hold.changePriority victimOps_lawful victimOps_low hmem hset hother).heap

/-- A valid page of a line turns invalid; a full line enters the queue. -/
theorem pageInvalid (h : VictimHeap lm) (hinv : LineInv lm T loc v i) (hc : c < T)
    (hg : loc c ≠ .gc) (hpos : 0 < v c) (hlt : v c ≤ 2 ^ 31) (hfull : v c = P ↔ loc c = .full) :
    VictimHeap (lm.pageInvalid P c) := by
  have hlow := h.lowerVpc hinv hc hg hpos hlt
  have hinv' := hinv.lowerVpc hc hg hpos hlt
  have hvpc := hinv.vpc c hc hg
  unfold LineMgmt.pageInvalid
  by_cases hf : loc c = .full
  · rw [if_pos (by rw [hvpc, hfull.mpr hf])]
    have hcur : Function.update loc c .cur c ≠ .victim := by
      rw [Function.update_self]
      decide
    exact insertVictim hlow (hinv'.removeFull hc hf) hcur
  · have hP : ¬ (lm.lines c).vpc = (P : Int) := by
      rw [hvpc]
      exact_mod_cast fun heq => hf (hfull.mp heq)
    rw [if_neg hP]
    exact hlow

/-- Taking the first line out of the queue. -/
theorem selectVictimLine (h : VictimHeap lm) (hinv : LineInv lm T loc v i) {force : Bool}
    (hr : lm.selectVictimLine P force = some (c, lm')) : VictimHeap lm' := by
  unfold LineMgmt.selectVictimLine at hr
  split at hr
  · contradiction
  next victim hpeek =>
  split at hr
  · contradiction
  obtain ⟨hsz, -⟩ := Pqueue.peek_eq_some hinv.pq_size hpeek
  have hpop := ((h.ordered hinv).pop victimOps_lawful victimOps_low hsz).1
  rcases hres : Pqueue.pop victimOps lm.victimLinePq lm.lines with ⟨head, pq, lines⟩
  rw [hres] at hpop
  simp only [hres] at hr
  cases hr
  have hheap : VictimHeap { lm with victimLinePq := pq, lines := lines } := hpop.heap
  refine hheap.congr rfl fun l _ => ?_
  by_cases hl : l = c <;> simp [hl]

end VictimHeap

/-! ## the calls -/

namespace VictimHeap

variable {s t : Ssd} {L : Nat} {loc : Nat → Place} {prog : Nat × Nat} {p : Ppa} {lpn : Nat}

theorem same (h : VictimHeap s.lm) (hs : SameFtl s t) : VictimHeap t.lm := hs.lm ▸ h

/-- `ssd_advance_write_pointer` may put the written-out line into the queue. -/
theorem advance {T : Nat} {v i : Nat → Nat} (h : VictimHeap s.lm) (hinv : LineInv s.lm T loc v i)
    (hne : loc s.wp.curline ≠ .victim) (hw : s.ssdAdvanceWritePointer = some t) :
    VictimHeap t.lm := by
  obtain ⟨wp, -, heq⟩ | ⟨-, heq⟩ := s.ssdAdvanceWritePointer_cases
  · rw [heq] at hw
    cases hw
    exact h
  · rw [heq, Ssd.nextLine] at hw
    split at hw
    · contradiction
    next c lm hfree =>
    cases hw
    exact (h.retire hinv hne).getNextFreeLine hfree

theorem writeNewPage (h : VictimHeap s.lm) (hinv : PageInv s loc prog) (hr : Representable s.sp)
    (hP : 0 < s.sp.pgsPerLine) (hw : s.writeNewPage lpn = some (p, t)) : VictimHeap t.lm := by
  have hcur : loc s.wp.curline = .cur := (hinv.cur _ hinv.curline).mpr rfl
  have hne : loc s.wp.curline ≠ .victim := by
    rw [hcur]
    decide
  unfold Ssd.writeNewPage at hw
  obtain ⟨u, hu, heq⟩ := Option.map_eq_some_iff.mp hw
  cases heq
  obtain ⟨-, hblk, -⟩ := hinv.newPage hr hP
  have hvalid := h.pageValid hinv.lines hne
  have hlines := hinv.lines.pageValid hinv.curline
  rw [← hblk] at hvalid hlines
  refine advance hvalid hlines ?_ hu
  exact hne

/-- Dropping the old page of a logical page. -/
theorem invalidateOld (h : VictimHeap s.lm) (hidle : Idle s L) (hl : lpn < L) :
    VictimHeap (s.invalidateOld lpn).lm := by
  obtain ⟨loc, hinv, hgc⟩ := hidle
  unfold Ssd.invalidateOld
  dsimp only
  split
  case isFalse => exact h
  case isTrue hm =>
    obtain ⟨⟨hp, hv, -⟩, -⟩ := hinv.map.mapped hl hm
    have hold : (s.blk (s.maptbl lpn).blkAddr).pg (s.maptbl lpn).pg.toNat = .valid := hv
    have hpos := lineCnt_pos hp.blkIn hp.pg hold
    have hle := lineCnt_le s.sp s.blk .valid (s.maptbl lpn).blk.toNat
    have hnotfree := hinv.pages.loc_ne_free hp (by rw [hv]; decide)
    have hnotgc := hgc _ hp.blk
    exact h.pageInvalid hinv.pages.lines hp.blk hnotgc hpos
      (Nat.le_trans hle hinv.repr.pgsPerLine_le)
      (hinv.pages.valid_eq_iff_full hp.pgsPerLine_pos hp.blk hnotfree hnotgc)

/-- One iteration of the write loop of `ssd_write`. -/
theorem writePage (h : VictimHeap s.lm) (hidle : Idle s L) (hl : lpn < L)
    (hP : 0 < s.sp.pgsPerLine) {stime maxlat : Nat} {x : Nat × Ssd}
    (hw : Ssd.writePage stime lpn (maxlat, s) = some x) : VictimHeap x.2.lm := by
  obtain ⟨⟨p, t⟩, ht, rfl⟩ := Option.map_eq_some_iff.mp hw
  obtain ⟨loc, hinv, -, hsp, -⟩ := hidle.invalidateOld hl
  rw [← hsp] at hP
  have hwritten := (h.invalidateOld hidle hl).writeNewPage hinv.pages hinv.repr hP ht
  exact hwritten.same (sameFtl_ssdAdvanceStatus t p { cmd := .write, stime := stime })

/-- `do_gc` takes a line out of the queue, and may put the lines that it writes out into it. -/
theorem doGc (h : VictimHeap s.lm) (hidle : Idle s L) {force : Bool} {r : Int}
    (hw : s.doGc force = some (r, t)) : VictimHeap t.lm := by
  unfold Ssd.doGc at hw
  split at hw
  · cases hw
    exact h
  next c lm hv =>
  obtain ⟨hgc, hid, -⟩ := hidle.gcInv hv
  obtain ⟨u, hu, heq⟩ := Option.map_eq_some_iff.mp hw
  cases heq
  rw [hid] at hu ⊢
  have hrule : GcRule { s with lm := lm } L c fun _ t => VictimHeap t.lm := by
    constructor
    case same => exact fun _ _ _ hs h => h.same hs
    case copy =>
      intro prog loc dead t u p hinv hp _ _ hcopy h
      unfold Ssd.gcWritePage at hcopy
      obtain ⟨⟨q, v⟩, hv, rfl⟩ := Option.map_eq_some_iff.mp hcopy
      exact (h.writeNewPage hinv.pages hinv.repr hp.1.pgsPerLine_pos hv).same
        ((sameFtl_gcDelay v q .write).trans (sameFtl_setGcEndtime _ q))
    case erase => exact fun _ _ _ _ _ h => h
    case nextCh => exact fun _ _ h => h
  obtain ⟨loc, hinv, -⟩ := id hidle
  have hend := hrule.gcLine hgc (h.selectVictimLine hinv.pages.lines hv) hu
  obtain ⟨⟨loc', hinv', hgcs⟩, hsp, hline, -⟩ := hgc.gcLine hu
  have hloc : loc' c = .gc := (hgcs c (hsp ▸ hline)).mpr rfl
  have hblk : (mkPpa 0 0 c 0).blk.toNat = c := mkPpa_blk hinv.repr hline
  have hfreed := hend.markLineFree hinv'.pages.lines (c := c) (by
    rw [hloc]
    decide)
  unfold Ssd.markLineFree
  rw [hblk]
  exact hfreed

/-- The `while` loop of `ssd_write`. -/
theorem gcHigh (h : VictimHeap s.lm) (hidle : Idle s L) {fuel : Nat}
    (hw : Ssd.gcHigh fuel s = some t) : VictimHeap t.lm := by
  induction fuel generalizing s with
  | zero => cases hw
  | succ fuel ih =>
    unfold Ssd.gcHigh at hw
    split at hw
    case isTrue =>
      obtain ⟨⟨r, u⟩, hu, hrest⟩ := Option.bind_eq_some_iff.mp hw
      have hu' := h.doGc hidle hu
      dsimp only at hrest
      split at hrest
      · cases hrest
        exact hu'
      · exact ih hu' (hidle.doGc hu).1 hrest
    case isFalse =>
      cases hw
      exact h

/-- Every call keeps the order of the queue. -/
theorem step (h : VictimHeap s.lm) (hidle : Idle s L) (hL : L ≤ s.sp.ttPgs) {fuel : Nat}
    {call : FtlCall} (hb : call.Below s.sp L) (hw : s.step fuel call = some t) :
    VictimHeap t.lm := by
  cases call with
  | read slba nlb stime =>
    obtain ⟨x, hx, rfl⟩ := Option.map_eq_some_iff.mp hw
    obtain ⟨-, -, hlm, -⟩ := hidle.ssdRead hx
    rw [hlm]
    exact h
  | write slba nlb stime =>
    obtain ⟨x, hx, rfl⟩ := Option.map_eq_some_iff.mp hw
    obtain ⟨u, hu, hloop⟩ := Option.bind_eq_some_iff.mp hx
    obtain ⟨hidle', hsp, -⟩ := hidle.gcHigh hu
    rw [← hsp] at hL
    have hend := forLoop_partial
      (I := fun _ x => Idle x.2 L ∧ x.2.sp = u.sp ∧ VictimHeap x.2.lm)
      (fun j x x' hj hlt hI hstep => ?_) ⟨hidle', rfl, h.gcHigh hidle hu⟩ hloop
    · exact hend.2.2
    obtain ⟨m, v⟩ := x
    obtain ⟨hv, hvsp, hheap⟩ := hI
    have hlpn : j < L := Idle.lt_of_below hb j hj hlt
    have hP := hv.pgsPerLine_pos (hvsp ▸ hL) hlpn
    obtain ⟨hv', hvsp', -⟩ := hv.writePage hlpn hP hstep
    exact ⟨hv', hvsp'.trans hvsp, hheap.writePage hv hlpn hP hstep⟩
  | gc force =>
    obtain ⟨⟨r, u⟩, hu, rfl⟩ := Option.map_eq_some_iff.mp hw
    exact h.doGc hidle hu

/-- The order of the queue holds in every state between the calls of a run. -/
theorem run {sp : SsdParams} (hr : Representable sp) (hpl : sp.plsPerLun = 1)
    {clock : Nat → Nat} {fuel : Nat} {calls : List FtlCall} (hL : L ≤ sp.ttPgs)
    (hb : ∀ call ∈ calls, call.Below sp L) (hrun : ssdRun sp clock fuel calls = some s) :
    Idle s L ∧ s.sp = sp ∧ VictimHeap s.lm := by
  obtain ⟨s₀, hinit, hcalls⟩ := Option.bind_eq_some_iff.mp hrun
  obtain ⟨hidle, hsp, -⟩ := idle_ssdInit hr hpl clock L hinit
  have hheap : VictimHeap s₀.lm := by
    unfold Ssd.ssdInit at hinit
    split at hinit
    · contradiction
    next c lm hfree =>
    cases hinit
    exact (ssdInitLines sp.blksPerPl).getNextFreeLine hfree
  refine runAll_partial (fun t => Idle t L ∧ t.sp = sp ∧ VictimHeap t.lm)
    (fun call => call.Below sp L) (fun t call t' hok hI hstep => ?_) hb ⟨hidle, hsp, hheap⟩ hcalls
  obtain ⟨ht, htsp, hheap⟩ := hI
  subst htsp
  obtain ⟨ht', hsp'⟩ := ht.step hL hok hstep
  exact ⟨ht', hsp', hheap.step ht hL hok hstep⟩

end VictimHeap

/-! ## the selection -/

/-- The victim has the fewest valid pages, and thereby the most invalid ones. Without force it
must have an eighth of its pages invalid. -/
structure Greedy (s : Ssd) : Prop where
  force_none : s.lm.selectVictimLine s.sp.pgsPerLine true = none ↔
    ∀ l, ¬ s.lm.victimLinePq.Mem l
  force_some : ∀ c lm, s.lm.selectVictimLine s.sp.pgsPerLine true = some (c, lm) →
    s.lm.victimLinePq.Mem c ∧
      ∀ l, s.lm.victimLinePq.Mem l → (s.lm.lines c).vpc ≤ (s.lm.lines l).vpc
  unforced_none : s.lm.selectVictimLine s.sp.pgsPerLine false = none ↔
    ∀ l, s.lm.victimLinePq.Mem l → ¬ (s.sp.pgsPerLine / 8 : Nat) ≤ (s.lm.lines l).ipc
  unforced_some : ∀ c lm, s.lm.selectVictimLine s.sp.pgsPerLine false = some (c, lm) →
    s.lm.victimLinePq.Mem c ∧
      ∀ l, s.lm.victimLinePq.Mem l → (s.lm.lines l).ipc ≤ (s.lm.lines c).ipc

/-- Without a victim the queue is empty, or its first line has too few invalid pages. -/
theorem LineMgmt.selectVictimLine_none {lm : LineMgmt} {P : Nat} {force : Bool} :
    lm.selectVictimLine P force = none ↔ ∀ c, lm.victimLinePq.peek = some c →
      force = false ∧ (lm.lines c).ipc < (P / 8 : Nat) := by
  unfold LineMgmt.selectVictimLine
  cases lm.victimLinePq.peek with
  | none => simp
  | some c =>
    simp only [Option.some.injEq, forall_eq']
    split
    case isTrue hfew => simpa using hfew
    case isFalse hmany => simpa using hmany

theorem LineMgmt.peek_of_selectVictimLine {lm lm' : LineMgmt} {P c : Nat} {force : Bool}
    (h : lm.selectVictimLine P force = some (c, lm')) : lm.victimLinePq.peek = some c := by
  unfold LineMgmt.selectVictimLine at h
  split at h
  · contradiction
  next victim hpeek =>
  split at h
  · contradiction
  · cases h
    exact hpeek

/-- The first line of the queue has the fewest valid pages. -/
theorem VictimHeap.vpc_le {lm : LineMgmt} (h : VictimHeap lm) (hsize : 1 ≤ lm.victimLinePq.size)
    (hword : ∀ l, lm.victimLinePq.Mem l → 0 ≤ (lm.lines l).vpc ∧ (lm.lines l).vpc < 2 ^ 64)
    {c l : Nat}
    (hpeek : lm.victimLinePq.peek = some c) (hl : lm.victimLinePq.Mem l) :
    (lm.lines c).vpc ≤ (lm.lines l).vpc := by
  obtain ⟨-, hfirst, hc⟩ := Pqueue.peek_eq_some hsize hpeek
  have hle := Pqueue.Heap.first_le h hl
  rw [hfirst] at hle
  simp only [victimOps, victimLineGetPri] at hle
  have hcword := hword c hc
  have hlword := hword l hl
  omega

/-- A victim has a valid and an invalid page count that make up the line. -/
theorem Idle.victim_counts {s : Ssd} {L : Nat} (h : Idle s L) {l : Nat}
    (hl : s.lm.victimLinePq.Mem l) :
    (0 ≤ (s.lm.lines l).vpc ∧ (s.lm.lines l).vpc < 2 ^ 64) ∧
      (s.lm.lines l).vpc + (s.lm.lines l).ipc = s.sp.pgsPerLine := by
  obtain ⟨loc, hinv, hgc⟩ := h
  obtain ⟨hlt, hloc⟩ := (hinv.pages.lines.pq_mem l).mp hl
  have hvpc := hinv.pages.lines.vpc l hlt (hgc l hlt)
  have hipc := hinv.pages.lines.ipc l hlt (hgc l hlt)
  have hfree := hinv.pages.lineCnt_free_eq_zero hlt (Or.inr hloc)
  have htotal := lineCnt_total s.sp s.blk l
  have hline := hinv.repr.pgsPerLine_le
  omega

theorem Idle.greedy {s : Ssd} {L : Nat} (h : Idle s L) (hheap : VictimHeap s.lm) : Greedy s := by
  have hcounts : ∀ l, s.lm.victimLinePq.Mem l → _ := fun l hl => h.victim_counts hl
  obtain ⟨loc, hinv, -⟩ := id h
  have hsize := hinv.pages.lines.pq_size
  have hleast : ∀ c l, s.lm.victimLinePq.peek = some c → s.lm.victimLinePq.Mem l →
      (s.lm.lines c).vpc ≤ (s.lm.lines l).vpc :=
    fun c l hpeek hl => hheap.vpc_le hsize (fun l hl => (hcounts l hl).1) hpeek hl
  have hmost : ∀ c l, s.lm.victimLinePq.peek = some c → s.lm.victimLinePq.Mem l →
      (s.lm.lines l).ipc ≤ (s.lm.lines c).ipc := by
    intro c l hpeek hl
    have hc := hcounts c (Pqueue.peek_eq_some hsize hpeek).2.2
    have hle := hleast c l hpeek hl
    have hl' := hcounts l hl
    omega
  constructor
  case force_none =>
    rw [LineMgmt.selectVictimLine_none]
    constructor
    · intro hnone l hl
      obtain ⟨c, hpeek⟩ := Pqueue.exists_peek hl
      exact absurd (hnone c hpeek).1 (by decide)
    · intro hempty c hpeek
      exact absurd (Pqueue.peek_eq_some hsize hpeek).2.2 (hempty c)
  case force_some =>
    intro c lm hv
    have hpeek := LineMgmt.peek_of_selectVictimLine hv
    exact ⟨(Pqueue.peek_eq_some hsize hpeek).2.2, fun l hl => hleast c l hpeek hl⟩
  case unforced_none =>
    rw [LineMgmt.selectVictimLine_none]
    constructor
    · intro hfew l hl
      obtain ⟨c, hpeek⟩ := Pqueue.exists_peek hl
      have hc := (hfew c hpeek).2
      have hle := hmost c l hpeek hl
      omega
    · intro hfew c hpeek
      have hc := hfew c (Pqueue.peek_eq_some hsize hpeek).2.2
      exact ⟨rfl, by omega⟩
  case unforced_some =>
    intro c lm hv
    have hpeek := LineMgmt.peek_of_selectVictimLine hv
    exact ⟨(Pqueue.peek_eq_some hsize hpeek).2.2, fun l hl => hmost c l hpeek hl⟩

/-- **Victim selection** is greedy in every state between the calls of a run. -/
theorem victim_greedy {sp : SsdParams} (hr : Representable sp) (hpl : sp.plsPerLun = 1)
    {clock : Nat → Nat} {fuel : Nat} {calls : List FtlCall} {s : Ssd}
    (hb : ∀ call ∈ calls, call.Below sp sp.ttPgs) (hrun : ssdRun sp clock fuel calls = some s) :
    Greedy s := by
  obtain ⟨hidle, -, hheap⟩ := VictimHeap.run hr hpl (Nat.le_refl _) hb hrun
  exact hidle.greedy hheap

/-- The run of the small device ends. -/
theorem smallCalls_end : (ssdRun smallSsd (fun _ => 1) 20 smallCalls).isSome = true := by
  decide +kernel

theorem victim_greedy_small :
    Greedy ((ssdRun smallSsd (fun _ => 1) 20 smallCalls).get smallCalls_end) :=
  victim_greedy representable_smallSsd rfl
    (fun call hcall => (below_smallCalls call hcall).mono (by decide)) (Option.some_get _).symm

end Femu.Bbssd

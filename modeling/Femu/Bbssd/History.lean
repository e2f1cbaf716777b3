import Femu.Bbssd.Pages
import Femu.Lib.Log

/-!
# Femu.Bbssd.History

The history of a run: when pages are handed out and blocks erased.

`EventOk` is the discipline one event has to keep, given the events before it;
`LogInv` adds that the pages handed out since a block's last erase are the ones
`fill` says are written.  `ProgramDiscipline` is what follows for a whole
history.
-/

namespace Femu.Bbssd

open Lib

/-- The event erases block `b`. -/
def erases (b : BlkAddr) : NandEvent → Bool
  | .markBlockFree b' _ => b' = b
  | _ => false

/-- The page of block `b` that the event hands out. -/
def handsOut (b : BlkAddr) : NandEvent → Option Nat
  | .getNewPage p _ => if p.blkAddr = b then some p.pg.toNat else none
  | _ => none

/-- The pages of block `b` handed out since its last erase, in order. -/
def written (log : List NandEvent) (b : BlkAddr) : List Nat := since (erases b) (handsOut b) log

/-- The discipline of one event: only the next page of a block is handed out and
it is free, only written-out blocks without mapped pages are erased, only
written-out lines are left. -/
def EventOk (sp : SsdParams) (L : Nat) (pre : List NandEvent) : NandEvent → Prop
  | .getNewPage p st =>
      InGeom sp p ∧ st = .free ∧ written pre p.blkAddr = List.range p.pg.toNat
  | .markBlockFree b maptbl =>
      written pre b = List.range sp.pgsPerBlk ∧
        ∀ l < L, maptbl l ≠ unmappedPpa → (maptbl l).blkAddr ≠ b
  | .leaveLine l => ∀ b, BlkIn sp b → b.blk = l → written pre b = List.range sp.pgsPerBlk

section written

variable {log : List NandEvent} {b : BlkAddr}

theorem written_leaveLine (l : Nat) : written (log ++ [.leaveLine l]) b = written log b :=
  since_snoc_of_none rfl rfl

theorem written_getNewPage (p : Ppa) (st : PageStatus) :
    written (log ++ [.getNewPage p st]) b =
      written log b ++ if b = p.blkAddr then [p.pg.toNat] else [] := by
  unfold written
  rw [since_snoc]
  by_cases hb : b = p.blkAddr
  · simp [erases, handsOut, hb]
  · simp [erases, handsOut, hb, Ne.symm hb]

theorem written_markBlockFree (b' : BlkAddr) (m : Nat → Ppa) :
    written (log ++ [.markBlockFree b' m]) b = if b = b' then [] else written log b := by
  unfold written
  rw [since_snoc]
  by_cases hb : b = b'
  · simp [erases, hb]
  · simp [erases, handsOut, hb, Ne.symm hb]

end written

/-! ## the invariant -/

/-- The history keeps the discipline, and what was handed out is what is written. -/
structure LogInv (s : Ssd) (loc : Nat → Place) (prog : Nat × Nat) (L : Nat) : Prop where
  ok : Always (EventOk s.sp L) s.log
  written : ∀ b, BlkIn s.sp b → written s.log b = List.range (fill s.sp loc s.wp prog b)

namespace LogInv

variable {s s' : Ssd} {loc loc' : Nat → Place} {prog prog' : Nat × Nat} {L : Nat}

/-- Handing out and programming the page at the write pointer. -/
theorem program (h : LogInv s loc prog L) (hpages : PageInv s loc prog) (hr : Representable s.sp)
    (hP : 0 < s.sp.pgsPerLine) {t : Ssd} (hsp : t.sp = s.sp) (hwp : t.wp = s.wp)
    (hlog : t.log = s.log ++ [.getNewPage s.getNewPage.1 (s.getPg s.getNewPage.1)])
    (hprog : Programmed t s' loc loc' prog s.getNewPage.1) : LogInv s' loc' prog L := by
  obtain ⟨hp, -⟩ := hpages.newPage hr hP
  have hfill := hprog.fill
  rw [hsp, hwp] at hfill
  have hnew := hpages.fill_newPage hr hP
  have hok : Always (EventOk s.sp L) t.log := by
    rw [hlog]
    refine always_snoc.mpr ⟨h.ok, hp, hpages.getPg_newPage hr hP, ?_⟩
    rw [h.written _ hp.blkIn, hnew]
  have hwritten : ∀ b, BlkIn s.sp b → Femu.Bbssd.written t.log b =
      List.range (fill s.sp loc' s'.wp prog b) := by
    intro b hb
    rw [hlog, written_getNewPage, h.written b hb, hfill b hb]
    by_cases hbp : b = s.getNewPage.1.blkAddr
    · rw [if_pos hbp, if_pos hbp, List.range_succ, hbp, hnew]
    · rw [if_neg hbp, if_neg hbp, List.append_nil, Nat.add_zero]
  rcases hprog.log with hsame | ⟨l, hleave, hout⟩
  · exact
      { ok := by rw [hprog.sp, hsp, hsame]; exact hok
        written := fun b hb => by
          rw [hprog.sp, hsp] at hb ⊢
          rw [hsame, hwritten b hb] }
  · rw [hsp] at hout
    exact
      { ok := by
          rw [hprog.sp, hsp, hleave]
          exact always_snoc.mpr ⟨hok, fun b hb hbl => by rw [hwritten b hb, hout b hb hbl]⟩
        written := fun b hb => by
          rw [hprog.sp, hsp] at hb ⊢
          rw [hleave, written_leaveLine, hwritten b hb] }

/-- Erasing a block of the line being collected. -/
theorem erase (h : LogInv s loc prog L) {p : Ppa} (hp : BlkIn s.sp p.blkAddr)
    (hfull : fill s.sp loc s.wp prog p.blkAddr = s.sp.pgsPerBlk)
    (hfill : ∀ b, BlkIn s.sp b → fill s.sp loc s.wp prog' b =
      if b = p.blkAddr then 0 else fill s.sp loc s.wp prog b)
    (hmap : ∀ l < L, s.maptbl l ≠ unmappedPpa → (s.maptbl l).blkAddr ≠ p.blkAddr) :
    LogInv (s.markBlockFree p) loc prog' L where
  ok := always_snoc.mpr ⟨h.ok, (h.written _ hp).trans (by rw [hfull]; rfl), hmap⟩
  written b hb := by
    change Femu.Bbssd.written (s.log ++ [.markBlockFree p.blkAddr s.maptbl]) b =
      List.range (fill s.sp loc s.wp prog' b)
    rw [written_markBlockFree, hfill b hb]
    split
    · rfl
    · exact h.written b hb

/-- Nothing but the geometry, the log and the written parts matters. -/
theorem frame (h : LogInv s loc prog L) (hsp : s'.sp = s.sp) (hlog : s'.log = s.log)
    (hfill : ∀ b, BlkIn s.sp b → fill s.sp loc' s'.wp prog' b = fill s.sp loc s.wp prog b) :
    LogInv s' loc' prog' L where
  ok := by
    rw [hsp, hlog]
    exact h.ok
  written b hb := by
    rw [hsp] at hb ⊢
    rw [hlog, hfill b hb]
    exact h.written b hb

end LogInv

/-! ## what the discipline says about a history -/

/-- The program discipline of a history, for the logical pages below `L`:

* a page is free when it is handed out;
* between one hand-out of a page and the next its block is erased exactly once;
* the pages of a block are handed out in the order 0, 1, 2, … after an erase;
* when a line is left, every page of it has been handed out since its block was
  last erased;
* no mapped logical page points into a block when the block is erased. -/
structure ProgramDiscipline (sp : SsdParams) (L : Nat) (log : List NandEvent) : Prop where
  free : ∀ p st, .getNewPage p st ∈ log → st = .free
  once : ∀ pre p st mid st' post,
    log = pre ++ .getNewPage p st :: (mid ++ .getNewPage p st' :: post) →
    (∀ st'', .getNewPage p st'' ∉ mid) → mid.countP (erases p.blkAddr) = 1
  order : ∀ pre p st post, log = pre ++ .getNewPage p st :: post →
    written pre p.blkAddr = List.range p.pg.toNat
  line : ∀ pre l post, log = pre ++ .leaveLine l :: post →
    ∀ p, InGeom sp p → p.blk.toNat = l → p.pg.toNat ∈ written pre p.blkAddr
  mapped : ∀ b maptbl, .markBlockFree b maptbl ∈ log →
    ∀ l < L, maptbl l ≠ unmappedPpa → (maptbl l).blkAddr ≠ b

variable {sp : SsdParams} {L : Nat} {log : List NandEvent}

/-- The discipline of every event gives the discipline of the history. -/
theorem ProgramDiscipline.of_always (h : Always (EventOk sp L) log) :
    ProgramDiscipline sp L log where
  free p st he := by
    obtain ⟨pre, -, hst, -⟩ := h.of_mem he
    exact hst
  once pre p st mid st' post hlog hmid := by
    obtain ⟨hp, -, -⟩ := h pre _ _ hlog
    rw [hlog] at h
    refine countP_reset_eq_one (handsOut p.blkAddr) (x := p.pg.toNat) (h.mono ?_)
      (by simp [handsOut]) (by simp [handsOut]) ?_
    · intro pre e hok
      cases e with
      | getNewPage q st =>
          refine ⟨fun hq => ⟨rfl, ?_⟩, fun hr => by cases hr⟩
          simp only [handsOut, Option.ite_none_right_eq_some, Option.some.injEq] at hq
          have hw := hok.2.2
          unfold written at hw
          rw [hq.1, hq.2] at hw
          rw [hw]
          simp
      | markBlockFree b maptbl =>
          refine ⟨fun hq => by simp [handsOut] at hq, fun hr => ?_⟩
          have hb : b = p.blkAddr := by simpa [erases] using hr
          have hw := hok.1
          unfold written at hw
          rw [hb] at hw
          rw [hw]
          simpa using hp.pg
      | leaveLine l => exact ⟨fun hq => by simp [handsOut] at hq, fun hr => by cases hr⟩
    · intro d hd hq
      cases d with
      | getNewPage q st'' =>
          simp only [handsOut, Option.ite_none_right_eq_some, Option.some.injEq] at hq
          obtain ⟨-, hqin, -, -⟩ := h.of_mem (e := .getNewPage q st'') (by simp [hd])
          have : q = p := hqin.ext_blkAddr hp hq.1 hq.2
          exact hmid st'' (this ▸ hd)
      | markBlockFree b maptbl => simp [handsOut] at hq
      | leaveLine l => simp [handsOut] at hq
  order pre p st post hlog := (h pre _ _ hlog).2.2
  line pre l post hlog p hp hl := by
    rw [h pre _ _ hlog p.blkAddr hp.blkIn hl]
    simpa using hp.pg
  mapped b maptbl he := by
    obtain ⟨pre, -, hmap⟩ := h.of_mem he
    exact hmap

end Femu.Bbssd

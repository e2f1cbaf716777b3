import Femu.Bbssd.Pages
import Femu.Lib.TwoWay

/-!
# Femu.Bbssd.Mapping

The mapping tables: `maptbl` and the reverse map in `rmap` are two-way tables
between the mapped logical pages and the live physical pages.

In the middle of a call the two domains are smaller than they look.  A logical
page whose old page was just invalidated, or is about to be copied, is *exempt*;
a page the collector has already copied is *dead*, although its status is still
`PG_VALID` until its block is erased.
-/

namespace Femu.Bbssd

open Lib

/-- The logical pages below `L` that are mapped, the exempt one aside. -/
def mappedLpns (s : Ssd) (L : Nat) (exempt : Option Nat) : Set Nat :=
  { l | l < L ∧ exempt ≠ some l ∧ s.maptbl l ≠ unmappedPpa }

/-- The pages that hold data, the dead ones aside. -/
def livePages (s : Ssd) (dead : Ppa → Prop) : Set Ppa :=
  { p | InGeom s.sp p ∧ s.getPg p = .valid ∧ ¬ dead p }

/-- The mapping tables are two-way between mapped logical pages and live pages. -/
def MapInv (s : Ssd) (L : Nat) (exempt : Option Nat) (dead : Ppa → Prop) : Prop :=
  TwoWay (mappedLpns s L exempt) (livePages s dead) s.maptbl s.getRmapEnt

namespace MapInv

variable {s s' : Ssd} {L : Nat} {exempt : Option Nat} {dead : Ppa → Prop}

/-- Only the geometry, the tables and the page states matter. -/
theorem frame (h : MapInv s L exempt dead) (hsp : s'.sp = s.sp) (hm : s'.maptbl = s.maptbl)
    (hrm : s'.rmap = s.rmap) (hblk : s'.blk = s.blk) : MapInv s' L exempt dead := by
  refine TwoWay.congr h ?_ ?_ ?_ ?_
  · unfold mappedLpns
    rw [hm]
  · unfold livePages Ssd.getPg
    rw [hsp, hblk]
  · intro a _
    rw [hm]
  · intro b _
    unfold Ssd.getRmapEnt
    rw [hrm, hsp]

/-- A mapped logical page and its physical page. -/
theorem mapped (h : MapInv s L none dead) {l : Nat} (hl : l < L) (hm : mappedPpa (s.maptbl l)) :
    s.maptbl l ∈ livePages s dead ∧ s.getRmapEnt (s.maptbl l) = l := by
  have hmem : l ∈ mappedLpns s L none := ⟨hl, by simp, by simpa [mappedPpa] using hm⟩
  exact ⟨h.mapsTo l hmem, h.left l hmem⟩

/-- An unmapped logical page may be made exempt. -/
theorem exempt_unmapped (h : MapInv s L none dead) {l : Nat} (hm : ¬ mappedPpa (s.maptbl l)) :
    MapInv s L (some l) dead := by
  have hun : s.maptbl l = unmappedPpa := by simpa [mappedPpa] using hm
  refine TwoWay.congr h (Set.ext fun x => ?_) rfl (fun _ _ => rfl) fun _ _ => rfl
  simp only [mappedLpns, Set.mem_ofPred_eq]
  constructor
  · rintro ⟨hx, -, hmx⟩
    exact ⟨hx, by simp, hmx⟩
  · rintro ⟨hx, -, hmx⟩
    exact ⟨hx, fun he => hmx (by cases he; exact hun), hmx⟩

/-- Dropping the pair of a logical page, seen in the domains. -/
theorem drop_lpn (h : MapInv s L none dead) {l : Nat} (hl : l < L)
    (hm : s.maptbl l ≠ unmappedPpa) :
    TwoWay (mappedLpns s L (some l)) (livePages s fun p => dead p ∨ p = s.maptbl l)
      s.maptbl s.getRmapEnt := by
  have hmem : l ∈ mappedLpns s L none := ⟨hl, by simp, hm⟩
  refine TwoWay.congr (TwoWay.drop h hmem) ?_ ?_ (fun _ _ => rfl) fun _ _ => rfl
  · ext x
    simp only [mappedLpns, Set.mem_ofPred_eq, Set.mem_sdiff, Set.mem_singleton_iff, ne_eq,
      Option.some.injEq, reduceCtorEq, not_false_eq_true, true_and]
    constructor
    · rintro ⟨h1, h2, h3⟩
      exact ⟨⟨h1, h3⟩, fun he => h2 he.symm⟩
    · rintro ⟨⟨h1, h3⟩, h2⟩
      exact ⟨h1, fun he => h2 he.symm, h3⟩
  · ext p
    simp only [livePages, Set.mem_ofPred_eq, Set.mem_sdiff, Set.mem_singleton_iff, not_or]
    constructor
    · rintro ⟨h1, h2, h3, h4⟩
      exact ⟨⟨h1, h2, h3⟩, h4⟩
    · rintro ⟨⟨h1, h2, h3⟩, h4⟩
      exact ⟨h1, h2, h3, h4⟩

/-- A live page that the collector is about to copy: its logical page becomes
exempt, the page dead. -/
theorem exempt_live (h : MapInv s L none dead) {p : Ppa} (hp : p ∈ livePages s dead) :
    s.getRmapEnt p < L ∧ MapInv s L (some (s.getRmapEnt p)) (fun q => dead q ∨ q = p) := by
  obtain ⟨hl, -, hm⟩ := h.mapsTo' p hp
  have hd := h.drop_lpn hl hm
  rw [h.right p hp] at hd
  exact ⟨hl, hd⟩

section

variable (hpl : s.sp.plsPerLun = 1)
include hpl

/-- Writing the reverse map at a page leaves the entries of the other pages. -/
theorem getRmapEnt_setRmapEnt {p q : Ppa} (hp : InGeom s.sp p) (hq : InGeom s.sp q) (l : Nat) :
    (s.setRmapEnt l p).getRmapEnt q = if q = p then l else s.getRmapEnt q := by
  unfold Ssd.setRmapEnt Ssd.getRmapEnt
  dsimp only
  by_cases hqp : q = p
  · rw [hqp, Function.update_self, if_pos rfl]
  · rw [Function.update_of_ne fun he => hqp (ppa2pgidx_inj hpl hq hp he), if_neg hqp]

/-- The old page of an overwritten logical page is invalidated. -/
theorem invalidate (h : MapInv s L none dead) {l : Nat} (hl : l < L)
    (hm : mappedPpa (s.maptbl l)) :
    MapInv ((s.markPageInvalid (s.maptbl l)).setRmapEnt invalidLpn (s.maptbl l)) L (some l)
      dead := by
  have hun : s.maptbl l ≠ unmappedPpa := by simpa [mappedPpa] using hm
  obtain ⟨⟨hp, hv, hdead⟩, -⟩ := h.mapped hl hm
  set p := s.maptbl l with hpdef
  refine TwoWay.congr (h.drop_lpn hl hun) rfl (Set.ext fun q => ?_) (fun _ _ => rfl) ?_
  · simp only [livePages, Set.mem_ofPred_eq, not_or, ← hpdef]
    change InGeom s.sp q ∧ (Function.update s.blk p.blkAddr _ q.blkAddr).pg q.pg.toNat = .valid ∧ _ ↔
      _
    refine and_congr_right fun hq => ?_
    rw [pg_setPage .invalid rfl]
    by_cases hqp : q = p
    · simp [hqp]
    · rw [if_neg fun he => hqp (hq.ext_blkAddr hp he.1 he.2)]
      simp only [hqp, not_false_eq_true, and_true]
      rfl
  · rintro q ⟨hq, -, hnq⟩
    have := getRmapEnt_setRmapEnt (s := s.markPageInvalid p) hpl hp hq invalidLpn
    rw [this, if_neg fun he => hnq (.inr he)]
    rfl

/-- The exempt logical page is mapped to a new page. -/
theorem place {l : Nat} (h : MapInv s L (some l) dead) (hl : l < L) {p : Ppa} (hp : InGeom s.sp p)
    (hfree : s.getPg p = .free) (hdead : ¬ dead p)
    (hsp : s'.sp = s.sp) (hm : s'.maptbl = (s.setMaptblEnt l p).maptbl)
    (hrm : s'.rmap = (s.setRmapEnt l p).rmap) (hblk : s'.blk = (s.markPageValid p).blk) :
    MapInv s' L none dead := by
  have hl' : l ∉ mappedLpns s L (some l) := fun hmem => hmem.2.1 rfl
  have hp' : p ∉ livePages s dead := by
    rintro ⟨-, hv, -⟩
    rw [hfree] at hv
    cases hv
  refine TwoWay.congr (TwoWay.put h hl' hp') (Set.ext fun x => ?_) (Set.ext fun q => ?_) ?_ ?_
  · simp only [mappedLpns, Set.mem_ofPred_eq, Set.mem_insert_iff, hm, Ssd.setMaptblEnt]
    by_cases hx : x = l
    · subst hx
      simp [hl, hp.ne_unmapped]
    · have hne : some l ≠ some x := fun he => hx (by cases he; rfl)
      simp [hx, hne]
  · simp only [livePages, Set.mem_ofPred_eq, Set.mem_insert_iff, hsp, Ssd.getPg, hblk]
    change InGeom s.sp q ∧ (Function.update s.blk p.blkAddr _ q.blkAddr).pg q.pg.toNat = .valid ∧ _ ↔
      _
    rw [pg_setPage .valid rfl]
    by_cases hqp : q = p
    · subst hqp
      simp [hp, hdead]
    · simp only [hqp, false_or]
      refine and_congr_right fun hq => ?_
      rw [if_neg fun he => hqp (hq.ext_blkAddr hp he.1 he.2)]
  · intro x _
    rw [hm]
    rfl
  · intro q hq
    have hq' : InGeom s.sp q := by
      rcases hq with rfl | hq
      · exact hp
      · exact hq.1
    have hget : s'.getRmapEnt q = (s.setRmapEnt l p).getRmapEnt q := by
      unfold Ssd.getRmapEnt
      rw [hrm, hsp]
      rfl
    rw [hget, getRmapEnt_setRmapEnt hpl hp hq' l, Function.update_apply]

end

/-- Erasing a block whose pages are all free of live data. -/
theorem erase (h : MapInv s L none dead) {p : Ppa}
    (hin : ∀ q, dead q → q.blkAddr = p.blkAddr)
    (hall : ∀ q, InGeom s.sp q → q.blkAddr = p.blkAddr → s.getPg q = .valid → dead q) :
    MapInv (s.markBlockFree p) L none fun _ => False := by
  refine TwoWay.congr h rfl (Set.ext fun q => ?_) (fun _ _ => rfl) fun _ _ => rfl
  simp only [livePages, Set.mem_ofPred_eq, not_false_eq_true, and_true]
  change InGeom s.sp q ∧ (Function.update s.blk p.blkAddr _ q.blkAddr).pg q.pg.toNat = .valid ↔ _
  refine and_congr_right fun hq => ?_
  by_cases hqp : q.blkAddr = p.blkAddr
  · rw [hqp, Function.update_self]
    have hlt := hq.pg
    simp only [hlt, if_true, reduceCtorEq, false_iff, not_and, not_not]
    exact hall q hq hqp
  · rw [Function.update_of_ne hqp]
    change s.getPg q = .valid ↔ _
    exact ⟨fun hv => ⟨hv, fun hd => hqp (hin q hd)⟩, fun hv => hv.1⟩

end MapInv

end Femu.Bbssd

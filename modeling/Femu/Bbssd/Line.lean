import Mathlib.Algebra.Ring.Int.Defs
import Mathlib.Algebra.Ring.Nat
import Femu.Pqueue

/-!
# Femu.Bbssd.Line

Line management of the black-box SSD (`struct line`, `struct line_mgmt`): the
free and full line lists, the victim queue, and the parts of the FTL functions
that work on them.  A line is named by its index in `lm->lines`, a `QTAILQ` of
lines is the list of their indices.

`LineInv` ties the code's counters, lists and heap to a ledger kept for the
proofs: `loc` says where each line is, `v` and `i` how many valid and invalid
pages it has.  The operations' theorems say how the ledger moves.
-/

namespace Femu.Bbssd

/-! ## lines and the victim queue's callbacks -/

/-- `struct line`. -/
structure Line where
  id : Nat
  ipc : Int
  vpc : Int
  pos : Nat

/-- `victim_line_cmp_pri`. -/
def victimLineCmpPri (next curr : Nat) : Bool := decide (curr < next)

/-- `victim_line_get_pri`: the `int` counter read as `pqueue_pri_t`. -/
def victimLineGetPri (l : Line) : Nat := (l.vpc % 2 ^ 64).toNat

/-- `victim_line_set_pri`: a `pqueue_pri_t` stored in the `int` counter. -/
def victimLineSetPri (l : Line) (pri : Nat) : Line := { l with vpc := Int.bmod pri (2 ^ 32) }

/-- The callbacks that `ssd_init_lines` gives to `pqueue_init`, over `lm->lines`. -/
def victimOps : PqueueOps (Nat → Line) Nat where
  cmppri := victimLineCmpPri
  getpri lines l := victimLineGetPri (lines l)
  setpri lines l pri := Function.update lines l (victimLineSetPri (lines l) pri)
  getpos lines l := (lines l).pos
  setpos lines l pos := Function.update lines l { lines l with pos := pos }

theorem victimOps_lawful : victimOps.Lawful where
  getpos_setpos st x p := by simp [victimOps]
  getpos_setpos_ne st x y p h := by simp [victimOps, h]
  getpri_setpos st x y p := by
    by_cases h : y = x <;> simp [victimOps, h, victimLineGetPri]
  getpos_setpri st x y r := by
    by_cases h : y = x <;> simp [victimOps, h, victimLineSetPri]

/-- A count that an `int` holds survives the trip through `pqueue_pri_t`. -/
theorem victimLineSetPri_eq (l : Line) {n : Nat} (h : n < 2 ^ 31) :
    victimLineSetPri l ((n : Int) % 2 ^ 64).toNat = { l with vpc := n } := by
  have h64 : ((n : Int) % 2 ^ 64).toNat = n := by omega
  have hmod : Int.bmod n (2 ^ 32) = n := by rw [Int.bmod_eq_of_le] <;> omega
  simp only [victimLineSetPri, h64, hmod]

/-! ## line management -/

/-- `struct line_mgmt`. -/
structure LineMgmt where
  lines : Nat → Line
  freeLineList : List Nat
  victimLinePq : Pqueue Nat
  fullLineList : List Nat
  ttLines : Nat
  freeLineCnt : Int
  victimLineCnt : Int
  fullLineCnt : Int

namespace LineMgmt

/-- `ssd_init_lines`: every line is free. -/
def ssdInitLines (ttLines : Nat) : LineMgmt where
  lines i := { id := i, ipc := 0, vpc := 0, pos := 0 }
  freeLineList := List.range ttLines
  victimLinePq := Pqueue.init
  fullLineList := []
  ttLines := ttLines
  freeLineCnt := ttLines
  victimLineCnt := 0
  fullLineCnt := 0

/-- `get_next_free_line`: `none` when no free line is left. -/
def getNextFreeLine (lm : LineMgmt) : Option (Nat × LineMgmt) :=
  match lm.freeLineList with
  | [] => none
  | curline :: rest =>
      some (curline, { lm with freeLineList := rest, freeLineCnt := lm.freeLineCnt - 1 })

/-- `pqueue_insert` of a line into the victim queue. -/
def insertVictim (lm : LineMgmt) (line : Nat) : LineMgmt :=
  let (pq, lines) := Pqueue.insert victimOps lm.victimLinePq lm.lines line
  { lm with victimLinePq := pq, lines := lines, victimLineCnt := lm.victimLineCnt + 1 }

/-- The part of `ssd_advance_write_pointer` that puts the written-out current
line on the full list or into the victim queue. -/
def retire (lm : LineMgmt) (pgsPerLine : Nat) (curline : Nat) : LineMgmt :=
  if (lm.lines curline).vpc = pgsPerLine then
    { lm with fullLineList := lm.fullLineList ++ [curline], fullLineCnt := lm.fullLineCnt + 1 }
  else lm.insertVictim curline

/-- The line part of `mark_page_valid`. -/
def pageValid (lm : LineMgmt) (line : Nat) : LineMgmt :=
  let l := lm.lines line
  { lm with lines := Function.update lm.lines line { l with vpc := l.vpc + 1 } }

/-- The counter part of `mark_page_invalid`: a line of the victim queue changes
its `vpc` through `pqueue_change_priority`, any other line directly. -/
def lowerVpc (lm : LineMgmt) (line : Nat) : LineMgmt :=
  let l := lm.lines line
  let lines := Function.update lm.lines line { l with ipc := l.ipc + 1 }
  if l.pos ≠ 0 then
    let (pq, lines) := Pqueue.changePriority victimOps lm.victimLinePq lines
      ((l.vpc - 1) % 2 ^ 64).toNat line
    { lm with victimLinePq := pq, lines := lines }
  else
    { lm with lines := Function.update lines line { lines line with vpc := l.vpc - 1 } }

/-- The line part of `mark_page_invalid`. -/
def pageInvalid (lm : LineMgmt) (pgsPerLine : Nat) (line : Nat) : LineMgmt :=
  let wasFullLine := (lm.lines line).vpc = pgsPerLine
  let lm := lm.lowerVpc line
  if wasFullLine then
    let lm := { lm with
      fullLineList := lm.fullLineList.erase line
      fullLineCnt := lm.fullLineCnt - 1 }
    lm.insertVictim line
  else lm

/-- `select_victim_line`. -/
def selectVictimLine (lm : LineMgmt) (pgsPerLine : Nat) (force : Bool) : Option (Nat × LineMgmt) :=
  match lm.victimLinePq.peek with
  | none => none
  | some victim =>
      if !force && (lm.lines victim).ipc < (pgsPerLine / 8 : Nat) then none
      else
        let (_, pq, lines) := Pqueue.pop victimOps lm.victimLinePq lm.lines
        some (victim, { lm with
          victimLinePq := pq
          lines := Function.update lines victim { lines victim with pos := 0 }
          victimLineCnt := lm.victimLineCnt - 1 })

/-- `mark_line_free`. -/
def markLineFree (lm : LineMgmt) (line : Nat) : LineMgmt :=
  { lm with
    lines := Function.update lm.lines line { lm.lines line with ipc := 0, vpc := 0 }
    freeLineList := lm.freeLineList ++ [line]
    freeLineCnt := lm.freeLineCnt + 1 }

end LineMgmt

/-! ## the ledger -/

/-- Where a line is: on one of the containers, being written, or taken out of
the victim queue by a garbage collection in progress. -/
inductive Place
  | free
  | full
  | victim
  | cur
  | gc
deriving DecidableEq

/-- The line management of `T` lines agrees with the ledger. -/
structure LineInv (lm : LineMgmt) (T : Nat) (loc : Nat → Place) (v i : Nat → Nat) : Prop where
  free_nodup : lm.freeLineList.Nodup
  free_mem : ∀ l, l ∈ lm.freeLineList ↔ l < T ∧ loc l = .free
  free_cnt : lm.freeLineCnt = lm.freeLineList.length
  full_nodup : lm.fullLineList.Nodup
  full_mem : ∀ l, l ∈ lm.fullLineList ↔ l < T ∧ loc l = .full
  full_cnt : lm.fullLineCnt = lm.fullLineList.length
  pq_placed : lm.victimLinePq.Placed victimOps lm.lines
  pq_size : 1 ≤ lm.victimLinePq.size
  pq_mem : ∀ l, lm.victimLinePq.Mem l ↔ l < T ∧ loc l = .victim
  pq_cnt : lm.victimLineCnt = lm.victimLinePq.count
  id : ∀ l < T, (lm.lines l).id = l
  vpc : ∀ l < T, loc l ≠ .gc → (lm.lines l).vpc = v l
  ipc : ∀ l < T, loc l ≠ .gc → (lm.lines l).ipc = i l
  pos : ∀ l < T, loc l ≠ .victim → (lm.lines l).pos = 0

/-- A move of line `c` alone: every other line keeps its place. -/
theorem update_loc_iff {T : Nat} {loc : Nat → Place} {c : Nat} {a b : Place} {X : Nat → Prop}
    (h : ∀ l, X l ↔ l < T ∧ loc l = a) (hca : loc c ≠ a) (hba : b ≠ a) (l : Nat) :
    X l ↔ l < T ∧ Function.update loc c b l = a := by
  rw [h l]
  by_cases hl : l = c
  · subst hl
    simp [hca, hba]
  · rw [Function.update_of_ne hl]

/-- Line `c` enters the container of place `a`. -/
theorem update_loc_enter {T : Nat} {loc : Nat → Place} {c : Nat} {a : Place} {X Y : Nat → Prop}
    (h : ∀ l, X l ↔ l < T ∧ loc l = a) (hc : c < T) (hY : ∀ l, Y l ↔ l = c ∨ X l) (l : Nat) :
    Y l ↔ l < T ∧ Function.update loc c a l = a := by
  rw [hY l, h l]
  by_cases hl : l = c
  · subst hl
    simp [hc]
  · rw [Function.update_of_ne hl]
    simp [hl]

/-- Line `c` leaves the container of place `a`. -/
theorem update_loc_leave {T : Nat} {loc : Nat → Place} {c : Nat} {a b : Place} {X Y : Nat → Prop}
    (h : ∀ l, X l ↔ l < T ∧ loc l = a) (hba : b ≠ a) (hY : ∀ l, Y l ↔ X l ∧ l ≠ c) (l : Nat) :
    Y l ↔ l < T ∧ Function.update loc c b l = a := by
  rw [hY l, h l]
  by_cases hl : l = c
  · subst hl
    simp [hba]
  · rw [Function.update_of_ne hl]
    simp [hl]

/-- A line that is not at `a` after `c` moved was not there before, if `c` was not. -/
theorem ne_of_update_ne {loc : Nat → Place} {c l : Nat} {a b : Place} (hc : loc c ≠ a)
    (h : Function.update loc c b l ≠ a) : loc l ≠ a := by
  by_cases hl : l = c
  · subst hl
    exact hc
  · rwa [Function.update_of_ne hl] at h

/-- A line found at `x` after `c` moved elsewhere is another line, and was there before. -/
theorem of_update_eq {loc : Nat → Place} {c l : Nat} {a x : Place} (h : Function.update loc c a l = x)
    (hax : a ≠ x) : l ≠ c ∧ loc l = x := by
  have hlc : l ≠ c := by
    rintro rfl
    rw [Function.update_self] at h
    exact hax h
  rw [Function.update_of_ne hlc] at h
  exact ⟨hlc, h⟩

/-- `lines'` differs from `lines` in slot numbers of lines in `S` only. -/
structure SameBut (S : Nat → Prop) (lines lines' : Nat → Line) : Prop where
  id : ∀ l, (lines' l).id = (lines l).id
  vpc : ∀ l, (lines' l).vpc = (lines l).vpc
  ipc : ∀ l, (lines' l).ipc = (lines l).ipc
  pos : ∀ l, ¬ S l → (lines' l).pos = (lines l).pos

theorem SameBut.refl (S : Nat → Prop) (lines : Nat → Line) : SameBut S lines lines :=
  ⟨fun _ => rfl, fun _ => rfl, fun _ => rfl, fun _ _ => rfl⟩

theorem SameBut.setpos {S : Nat → Prop} {lines lines' : Nat → Line} (h : SameBut S lines lines')
    {y : Nat} (p : Nat) (hy : S y) : SameBut S lines (victimOps.setpos lines' y p) := by
  refine ⟨fun l => ?_, fun l => ?_, fun l => ?_, fun l hl => ?_⟩ <;> by_cases hly : l = y
  · subst hly; simpa [victimOps] using h.id l
  · simpa [victimOps, hly] using h.id l
  · subst hly; simpa [victimOps] using h.vpc l
  · simpa [victimOps, hly] using h.vpc l
  · subst hly; simpa [victimOps] using h.ipc l
  · simpa [victimOps, hly] using h.ipc l
  · subst hly; exact absurd hy hl
  · simpa [victimOps, hly] using h.pos l hl

namespace LineInv

variable {lm : LineMgmt} {T : Nat} {loc : Nat → Place} {v i : Nat → Nat}

/-- A line in the victim queue records its slot, which is not 0. -/
theorem pos_ne_zero (h : LineInv lm T loc v i) {l : Nat} (hl : l < T) (hv : loc l = .victim) :
    (lm.lines l).pos ≠ 0 := by
  have := (h.pq_placed.getpos_of_mem ((h.pq_mem l).mpr ⟨hl, hv⟩)).1
  change 1 ≤ (lm.lines l).pos at this
  omega

/-- The ledger's counts may be replaced by ones that agree on the lines, the line
being collected aside. -/
theorem congr (h : LineInv lm T loc v i) {v' i' : Nat → Nat}
    (hv : ∀ l < T, loc l ≠ .gc → v' l = v l) (hi : ∀ l < T, loc l ≠ .gc → i' l = i l) :
    LineInv lm T loc v' i' :=
  { h with
    vpc := fun l hl hg => by rw [hv l hl hg]; exact h.vpc l hl hg
    ipc := fun l hl hg => by rw [hi l hl hg]; exact h.ipc l hl hg }

/-- `ssd_init_lines` puts every line on the free list. -/
theorem ssdInitLines (T : Nat) :
    LineInv (LineMgmt.ssdInitLines T) T (fun _ => .free) (fun _ => 0) (fun _ => 0) where
  free_nodup := List.nodup_range
  free_mem l := by simp [LineMgmt.ssdInitLines]
  free_cnt := by simp [LineMgmt.ssdInitLines]
  full_nodup := List.nodup_nil
  full_mem l := by simp [LineMgmt.ssdInitLines]
  full_cnt := rfl
  pq_placed k h1 hk := by
    change k < 1 at hk
    omega
  pq_size := Nat.le_refl 1
  pq_mem l := by
    constructor
    · rintro ⟨k, h1, hk, -⟩
      change k < 1 at hk
      omega
    · rintro ⟨-, h⟩
      cases h
  pq_cnt := rfl
  id _ _ := rfl
  vpc _ _ _ := rfl
  ipc _ _ _ := rfl
  pos _ _ _ := rfl

/-- `get_next_free_line` takes the head of the free list, and that line becomes
the one being written. -/
theorem getNextFreeLine (h : LineInv lm T loc v i) {c : Nat} {lm' : LineMgmt}
    (hr : lm.getNextFreeLine = some (c, lm')) :
    c < T ∧ loc c = .free ∧ LineInv lm' T (Function.update loc c .cur) v i ∧
      lm'.freeLineCnt = lm.freeLineCnt - 1 := by
  unfold LineMgmt.getNextFreeLine at hr
  split at hr
  · contradiction
  · next curline rest hlist =>
    cases hr
    have hnd := h.free_nodup
    have hmem := h.free_mem
    have hcnt := h.free_cnt
    rw [hlist] at hnd hcnt
    simp only [hlist] at hmem
    obtain ⟨hc, hfree⟩ := (hmem c).mp List.mem_cons_self
    refine ⟨hc, hfree, ?_, rfl⟩
    have hne : ∀ a, a ≠ .free → loc c ≠ a := fun a ha he => ha (he.symm.trans hfree)
    exact
      { h with
        free_nodup := (List.nodup_cons.mp hnd).2
        free_mem := update_loc_leave hmem (by decide) fun l => by
          have hnot := (List.nodup_cons.mp hnd).1
          constructor
          · intro hl
            exact ⟨List.mem_cons_of_mem c hl, fun he => hnot (he ▸ hl)⟩
          · rintro ⟨hl, hlc⟩
            exact (List.mem_cons.mp hl).resolve_left hlc
        free_cnt := by
          simp only [List.length_cons] at hcnt
          change lm.freeLineCnt - 1 = rest.length
          omega
        full_mem := update_loc_iff h.full_mem (hne _ (by decide)) (by decide)
        pq_mem := update_loc_iff h.pq_mem (hne _ (by decide)) (by decide)
        vpc := fun l hl hg => h.vpc l hl (ne_of_update_ne (hne _ (by decide)) hg)
        ipc := fun l hl hg => h.ipc l hl (ne_of_update_ne (hne _ (by decide)) hg)
        pos := fun l hl hg => h.pos l hl (ne_of_update_ne (hne _ (by decide)) hg) }

/-- A free line is found as long as the free count is positive. -/
theorem exists_nextFreeLine (h : LineInv lm T loc v i) (hpos : 0 < lm.freeLineCnt) :
    ∃ c lm', lm.getNextFreeLine = some (c, lm') := by
  unfold LineMgmt.getNextFreeLine
  have hcnt := h.free_cnt
  cases hlist : lm.freeLineList with
  | nil =>
      rw [hlist] at hcnt
      simp only [List.length_nil] at hcnt
      omega
  | cons c rest => exact ⟨c, _, rfl⟩

/-- Inserting the line being written into the victim queue. -/
theorem insertVictim (h : LineInv lm T loc v i) {c : Nat} (hc : c < T) (hcur : loc c = .cur) :
    LineInv (lm.insertVictim c) T (Function.update loc c .victim) v i := by
  have hnot : ¬ lm.victimLinePq.Mem c := fun hm => by
    have := ((h.pq_mem c).mp hm).2
    rw [hcur] at this
    cases this
  obtain ⟨hplaced, hsize, hmem⟩ := Pqueue.insert_spec victimOps_lawful h.pq_placed h.pq_size hnot
  have hsame : SameBut (fun l => l = c ∨ lm.victimLinePq.Mem l) lm.lines
      (Pqueue.insert victimOps lm.victimLinePq lm.lines c).2 :=
    Pqueue.insert_frame h.pq_size (fun st y p hy hR => hR.setpos p hy) (SameBut.refl _ _)
  have hne : ∀ a, a ≠ .cur → loc c ≠ a := fun a ha he => ha (he.symm.trans hcur)
  have hgc : ∀ l, Function.update loc c .victim l ≠ .gc → loc l ≠ .gc :=
    fun l hg => ne_of_update_ne (hne _ (by decide)) hg
  exact
    { free_nodup := h.free_nodup
      free_mem := update_loc_iff h.free_mem (hne _ (by decide)) (by decide)
      free_cnt := h.free_cnt
      full_nodup := h.full_nodup
      full_mem := update_loc_iff h.full_mem (hne _ (by decide)) (by decide)
      full_cnt := h.full_cnt
      pq_placed := hplaced
      pq_size := by
        change 1 ≤ (Pqueue.insert victimOps lm.victimLinePq lm.lines c).1.size
        rw [hsize]
        omega
      pq_mem := update_loc_enter h.pq_mem hc hmem
      pq_cnt := by
        have hcnt := h.pq_cnt
        have hone := h.pq_size
        unfold Pqueue.count at hcnt
        change lm.victimLineCnt + 1 =
          ((Pqueue.insert victimOps lm.victimLinePq lm.lines c).1.size - 1 : Nat)
        rw [hsize]
        omega
      id := fun l hl => (hsame.id l).trans (h.id l hl)
      vpc := fun l hl hg => (hsame.vpc l).trans (h.vpc l hl (hgc l hg))
      ipc := fun l hl hg => (hsame.ipc l).trans (h.ipc l hl (hgc l hg))
      pos := fun l hl hg => by
        have hlc : l ≠ c := by
          rintro rfl
          exact hg (Function.update_self ..)
        rw [Function.update_of_ne hlc] at hg
        refine (hsame.pos l ?_).trans (h.pos l hl hg)
        rintro (he | hm)
        · exact hlc he
        · exact hg ((h.pq_mem l).mp hm).2 }

/-- The written-out current line goes to the full list if all its pages are
valid, and into the victim queue otherwise. -/
theorem retire (h : LineInv lm T loc v i) {P c : Nat} (hc : c < T) (hcur : loc c = .cur) :
    LineInv (lm.retire P c) T (Function.update loc c (if v c = P then .full else .victim)) v i := by
  have hne : ∀ a, a ≠ .cur → loc c ≠ a := fun a ha he => ha (he.symm.trans hcur)
  have hvpc := h.vpc c hc (hne _ (by decide))
  unfold LineMgmt.retire
  by_cases hfull : v c = P
  · rw [if_pos (by rw [hvpc, hfull]), if_pos hfull]
    have hnot : c ∉ lm.fullLineList := fun hm => hne _ (by decide) ((h.full_mem c).mp hm).2
    have hcnt := h.full_cnt
    exact
      { h with
        free_mem := update_loc_iff h.free_mem (hne _ (by decide)) (by decide)
        full_nodup := List.nodup_append.mpr ⟨h.full_nodup, by simp, by
          rintro a ha b hb rfl
          exact hnot (List.mem_singleton.mp hb ▸ ha)⟩
        full_mem := update_loc_enter h.full_mem hc fun l => by
          simp only [List.mem_append, List.mem_singleton]
          exact or_comm
        full_cnt := by
          change lm.fullLineCnt + 1 = ((lm.fullLineList ++ [c]).length : Nat)
          simp only [List.length_append, List.length_singleton]
          omega
        pq_mem := update_loc_iff h.pq_mem (hne _ (by decide)) (by decide)
        vpc := fun l hl hg => h.vpc l hl (ne_of_update_ne (hne _ (by decide)) hg)
        ipc := fun l hl hg => h.ipc l hl (ne_of_update_ne (hne _ (by decide)) hg)
        pos := fun l hl hg => h.pos l hl (ne_of_update_ne (hne _ (by decide)) hg) }
  · rw [if_neg (by rw [hvpc]; exact_mod_cast hfull), if_neg hfull]
    exact h.insertVictim hc hcur

/-- Rewriting the counters of one line, its slot number kept. -/
theorem setCounts (h : LineInv lm T loc v i) {c : Nat} {x : Line} {n m : Nat}
    (hpos : x.pos = (lm.lines c).pos) (hid : x.id = (lm.lines c).id)
    (hv : loc c ≠ .gc → x.vpc = n) (hi : loc c ≠ .gc → x.ipc = m) :
    LineInv { lm with lines := Function.update lm.lines c x } T loc
      (Function.update v c n) (Function.update i c m) := by
  have hpos' : ∀ l, (Function.update lm.lines c x l).pos = (lm.lines l).pos := by
    intro l
    by_cases hl : l = c
    · subst hl
      rw [Function.update_self, hpos]
    · rw [Function.update_of_ne hl]
  exact
    { h with
      pq_placed := fun k hk1 hk => (hpos' _).trans (h.pq_placed k hk1 hk)
      id := fun l hl => by
        change (Function.update lm.lines c x l).id = l
        by_cases hlc : l = c
        · subst hlc
          rw [Function.update_self, hid, h.id _ hl]
        · rw [Function.update_of_ne hlc, h.id _ hl]
      vpc := fun l hl hg => by
        change (Function.update lm.lines c x l).vpc = _
        by_cases hlc : l = c
        · subst hlc
          rw [Function.update_self, Function.update_self, hv hg]
        · rw [Function.update_of_ne hlc, Function.update_of_ne hlc, h.vpc _ hl hg]
      ipc := fun l hl hg => by
        change (Function.update lm.lines c x l).ipc = _
        by_cases hlc : l = c
        · subst hlc
          rw [Function.update_self, Function.update_self, hi hg]
        · rw [Function.update_of_ne hlc, Function.update_of_ne hlc, h.ipc _ hl hg]
      pos := fun l hl hg => (hpos' l).trans (h.pos l hl hg) }

/-- `mark_page_valid` raises the valid count of the page's line. -/
theorem pageValid (h : LineInv lm T loc v i) {c : Nat} (hc : c < T) :
    LineInv (lm.pageValid c) T loc (Function.update v c (v c + 1)) i := by
  have hs := h.setCounts (c := c) (n := v c + 1) (m := i c)
    (x := { lm.lines c with vpc := (lm.lines c).vpc + 1 }) rfl rfl
    (fun hg => by simp only [h.vpc c hc hg]; push_cast; rfl) (fun hg => h.ipc c hc hg)
  exact hs.congr (fun _ _ _ => rfl) (fun l _ _ => by rw [Function.update_eq_self])

/-- The counters of `mark_page_invalid`: a valid page of the line turns invalid,
whether the line is in the victim queue or not. -/
theorem lowerVpc (h : LineInv lm T loc v i) {c : Nat} (hc : c < T) (hg : loc c ≠ .gc)
    (hpos : 0 < v c) (hlt : v c ≤ 2 ^ 31) :
    LineInv (lm.lowerVpc c) T loc (Function.update v c (v c - 1))
      (Function.update i c (i c + 1)) := by
  have hvpc := h.vpc c hc hg
  have hipc := h.ipc c hc hg
  unfold LineMgmt.lowerVpc
  by_cases hvic : loc c = .victim
  · rw [if_pos (h.pos_ne_zero hc hvic)]
    set lines := Function.update lm.lines c { lm.lines c with ipc := (lm.lines c).ipc + 1 }
      with hlines
    have hs : LineInv { lm with lines := lines } T loc v (Function.update i c (i c + 1)) := by
      have hs := h.setCounts (c := c) (n := v c) (m := i c + 1)
        (x := { lm.lines c with ipc := (lm.lines c).ipc + 1 }) rfl rfl (fun _ => hvpc)
        (fun _ => by simp only [hipc]; push_cast; rfl)
      exact hs.congr (fun l _ _ => by rw [Function.update_eq_self]) (fun _ _ _ => rfl)
    have hmem : lm.victimLinePq.Mem c := (h.pq_mem c).mpr ⟨hc, hvic⟩
    obtain ⟨hplaced, hsize, hmem'⟩ := Pqueue.changePriority_spec victimOps_lawful
      (((lm.lines c).vpc - 1) % 2 ^ 64).toNat hs.pq_placed hmem
    have hsame := Pqueue.changePriority_frame victimOps_lawful
      (R := SameBut lm.victimLinePq.Mem
        (Function.update lines c { lines c with vpc := ((v c - 1 : Nat) : Int) }))
      (((lm.lines c).vpc - 1) % 2 ^ 64).toNat hs.pq_placed hmem
      (fun st y p hy hR => hR.setpos p hy) (by
        have hset : victimLineSetPri (lines c) (((lm.lines c).vpc - 1) % 2 ^ 64).toNat =
            { lines c with vpc := ((v c - 1 : Nat) : Int) } := by
          have hcast : (lm.lines c).vpc - 1 = ((v c - 1 : Nat) : Int) := by omega
          rw [hcast]
          rw [victimLineSetPri_eq _ (n := v c - 1) (by omega)]
        change SameBut _ _ (Function.update lines c (victimLineSetPri (lines c) _))
        rw [hset]
        exact SameBut.refl _ _)
    have hs2 := hs.setCounts (c := c) (n := v c - 1) (m := i c + 1)
      (x := { lines c with vpc := ((v c - 1 : Nat) : Int) }) rfl rfl (fun _ => rfl)
      (fun hg => by simpa using hs.ipc c hc hg)
    exact
      { hs2 with
        pq_placed := hplaced
        pq_size := by
          change 1 ≤ (Pqueue.changePriority victimOps lm.victimLinePq lines _ c).1.size
          rw [hsize]
          exact h.pq_size
        pq_mem := fun l => (hmem' l).trans (h.pq_mem l)
        pq_cnt := by
          have hcnt := h.pq_cnt
          unfold Pqueue.count at hcnt
          change lm.victimLineCnt =
            ((Pqueue.changePriority victimOps lm.victimLinePq lines _ c).1.size - 1 : Nat)
          rw [hsize, hcnt]
        id := fun l hl => (hsame.id l).trans (hs2.id l hl)
        vpc := fun l hl hg => (hsame.vpc l).trans (hs2.vpc l hl hg)
        ipc := fun l hl hg => by
          have := (hsame.ipc l).trans (hs2.ipc l hl hg)
          rwa [Function.update_idem] at this
        pos := fun l hl hg => by
          refine (hsame.pos l fun hm => hg ((h.pq_mem l).mp hm).2).trans (hs2.pos l hl hg) }
  · rw [if_neg (by simpa using h.pos c hc hvic)]
    have hs := h.setCounts (c := c) (n := v c - 1) (m := i c + 1)
      (x := { lm.lines c with ipc := (lm.lines c).ipc + 1, vpc := (lm.lines c).vpc - 1 }) rfl rfl
      (fun _ => by simp only [hvpc]; omega) (fun _ => by simp only [hipc]; push_cast; rfl)
    simpa using hs

/-- Taking the line off the full list. -/
theorem removeFull (h : LineInv lm T loc v i) {c : Nat} (hc : c < T) (hfull : loc c = .full) :
    LineInv { lm with
      fullLineList := lm.fullLineList.erase c
      fullLineCnt := lm.fullLineCnt - 1 } T (Function.update loc c .cur) v i := by
  have hne : ∀ a, a ≠ .full → loc c ≠ a := fun a ha he => ha (he.symm.trans hfull)
  have hmem : c ∈ lm.fullLineList := (h.full_mem c).mpr ⟨hc, hfull⟩
  have hcnt := h.full_cnt
  have hlen := List.length_erase_of_mem hmem
  have hpos := List.length_pos_of_mem hmem
  exact
    { h with
      free_mem := update_loc_iff h.free_mem (hne _ (by decide)) (by decide)
      full_nodup := h.full_nodup.erase c
      full_mem := update_loc_leave h.full_mem (by decide) fun l => by
        rw [h.full_nodup.mem_erase_iff]
        exact and_comm
      full_cnt := by
        change lm.fullLineCnt - 1 = ((lm.fullLineList.erase c).length : Nat)
        omega
      pq_mem := update_loc_iff h.pq_mem (hne _ (by decide)) (by decide)
      vpc := fun l hl hg => h.vpc l hl (ne_of_update_ne (hne _ (by decide)) hg)
      ipc := fun l hl hg => h.ipc l hl (ne_of_update_ne (hne _ (by decide)) hg)
      pos := fun l hl hg => h.pos l hl (ne_of_update_ne (hne _ (by decide)) hg) }

/-- `mark_page_invalid` moves a full line into the victim queue and leaves any
other line where it is. -/
theorem pageInvalid (h : LineInv lm T loc v i) {P c : Nat} (hc : c < T) (hg : loc c ≠ .gc)
    (hpos : 0 < v c) (hlt : v c ≤ 2 ^ 31) (hfull : v c = P ↔ loc c = .full) :
    LineInv (lm.pageInvalid P c) T
      (Function.update loc c (if loc c = .full then .victim else loc c))
      (Function.update v c (v c - 1)) (Function.update i c (i c + 1)) := by
  have hl := h.lowerVpc hc hg hpos hlt
  have hvpc := h.vpc c hc hg
  unfold LineMgmt.pageInvalid
  by_cases hf : loc c = .full
  · rw [if_pos (by rw [hvpc, hfull.mpr hf]), if_pos hf]
    have := (hl.removeFull hc hf).insertVictim hc (Function.update_self ..)
    rwa [Function.update_idem] at this
  · have hP : ¬ (lm.lines c).vpc = (P : Int) := by
      rw [hvpc]
      exact_mod_cast fun he => hf (hfull.mp he)
    rw [if_neg hP, if_neg hf, Function.update_eq_self]
    exact hl

/-- `select_victim_line` takes a line out of the victim queue, the first one. -/
theorem selectVictimLine (h : LineInv lm T loc v i) {P c : Nat} {force : Bool} {lm' : LineMgmt}
    (hr : lm.selectVictimLine P force = some (c, lm')) :
    c < T ∧ loc c = .victim ∧ LineInv lm' T (Function.update loc c .gc) v i ∧
      lm'.freeLineCnt = lm.freeLineCnt := by
  unfold LineMgmt.selectVictimLine at hr
  split at hr
  · contradiction
  · next victim hpeek =>
    split at hr
    · contradiction
    · cases hr
      obtain ⟨hsz, hd1, hmem⟩ := Pqueue.peek_eq_some h.pq_size hpeek
      obtain ⟨hc, hvic⟩ := (h.pq_mem c).mp hmem
      have hne : ∀ a, a ≠ .victim → loc c ≠ a := fun a ha he => ha (he.symm.trans hvic)
      obtain ⟨-, hplaced, hsize, hmem'⟩ := Pqueue.pop_spec victimOps_lawful h.pq_placed hsz
      have hsame := Pqueue.pop_frame (R := SameBut lm.victimLinePq.Mem lm.lines) hsz
        (fun st y p hy hR => hR.setpos p hy) (SameBut.refl _ _)
      set pq := (Pqueue.pop victimOps lm.victimLinePq lm.lines).2.1 with hpq
      set lines := (Pqueue.pop victimOps lm.victimLinePq lm.lines).2.2 with hlines
      -- the popped line's slot number is cleared outside the queue
      have hnot : ¬ pq.Mem c := fun hm => ((hmem' c).mp hm).2 hd1.symm
      have hother : ∀ l, Function.update loc c .gc l ≠ .gc → l ≠ c := by
        rintro l hl rfl
        exact hl (Function.update_self ..)
      refine ⟨hc, hvic, ?_, rfl⟩
      exact
        { free_nodup := h.free_nodup
          free_mem := update_loc_iff h.free_mem (hne _ (by decide)) (by decide)
          free_cnt := h.free_cnt
          full_nodup := h.full_nodup
          full_mem := update_loc_iff h.full_mem (hne _ (by decide)) (by decide)
          full_cnt := h.full_cnt
          pq_placed := fun k hk1 hk => by
            have hkc : pq.d k ≠ c := fun he => hnot ⟨k, hk1, hk, he⟩
            change (Function.update lines c _ (pq.d k)).pos = k
            rw [Function.update_of_ne hkc]
            exact hplaced k hk1 hk
          pq_size := by
            change 1 ≤ pq.size
            omega
          pq_mem := update_loc_leave h.pq_mem (by decide) fun l => by
            change pq.Mem l ↔ _
            rw [hmem' l, hd1]
          pq_cnt := by
            have hcnt := h.pq_cnt
            unfold Pqueue.count at hcnt
            change lm.victimLineCnt - 1 = ((pq.size - 1 : Nat) : Int)
            omega
          id := fun l hl => by
            change (Function.update lines c _ l).id = l
            by_cases hlc : l = c
            · subst hlc
              rw [Function.update_self]
              exact (hsame.id l).trans (h.id l hl)
            · rw [Function.update_of_ne hlc]
              exact (hsame.id l).trans (h.id l hl)
          vpc := fun l hl hgc => by
            have hlc := hother l hgc
            rw [Function.update_of_ne hlc] at hgc
            change (Function.update lines c _ l).vpc = v l
            rw [Function.update_of_ne hlc]
            exact (hsame.vpc l).trans (h.vpc l hl hgc)
          ipc := fun l hl hgc => by
            have hlc := hother l hgc
            rw [Function.update_of_ne hlc] at hgc
            change (Function.update lines c _ l).ipc = i l
            rw [Function.update_of_ne hlc]
            exact (hsame.ipc l).trans (h.ipc l hl hgc)
          pos := fun l hl hv => by
            change (Function.update lines c _ l).pos = 0
            by_cases hlc : l = c
            · subst hlc
              rw [Function.update_self]
            · rw [Function.update_of_ne hlc] at hv ⊢
              exact (hsame.pos l fun hm => hv ((h.pq_mem l).mp hm).2).trans (h.pos l hl hv) }

/-- A forced `select_victim_line` fails only on an empty victim queue. -/
theorem selectVictimLine_force (h : LineInv lm T loc v i) {P l : Nat} (hl : l < T)
    (hr : lm.selectVictimLine P true = none) : loc l ≠ .victim := by
  intro hv
  obtain ⟨k, hk1, hk, -⟩ := (h.pq_mem l).mpr ⟨hl, hv⟩
  have hne : lm.victimLinePq.size ≠ 1 := by omega
  simp [LineMgmt.selectVictimLine, Pqueue.peek, hne] at hr

/-- `mark_line_free` puts the collected line at the end of the free list with
no page counted. -/
theorem markLineFree (h : LineInv lm T loc v i) {c : Nat} (hc : c < T) (hgc : loc c = .gc) :
    LineInv (lm.markLineFree c) T (Function.update loc c .free) (Function.update v c 0)
      (Function.update i c 0) := by
  have hne : ∀ a, a ≠ .gc → loc c ≠ a := fun a ha he => ha (he.symm.trans hgc)
  have hnot : c ∉ lm.freeLineList := fun hm => hne _ (by decide) ((h.free_mem c).mp hm).2
  have hcnt := h.free_cnt
  have hs := h.setCounts (c := c) (n := 0) (m := 0)
    (x := { lm.lines c with ipc := 0, vpc := 0 }) rfl rfl (fun _ => rfl) (fun _ => rfl)
  have hother : ∀ l, l ≠ c → Function.update loc c .free l ≠ .gc → loc l ≠ .gc :=
    fun l hlc hg => by rwa [Function.update_of_ne hlc] at hg
  exact
    { hs with
      free_nodup := List.nodup_append.mpr ⟨h.free_nodup, by simp, by
        rintro a ha b hb rfl
        exact hnot (List.mem_singleton.mp hb ▸ ha)⟩
      free_mem := update_loc_enter h.free_mem hc fun l => by
        change l ∈ lm.freeLineList ++ [c] ↔ _
        simp only [List.mem_append, List.mem_singleton]
        exact or_comm
      free_cnt := by
        change lm.freeLineCnt + 1 = ((lm.freeLineList ++ [c]).length : Nat)
        simp only [List.length_append, List.length_singleton]
        omega
      full_mem := update_loc_iff h.full_mem (hne _ (by decide)) (by decide)
      pq_mem := update_loc_iff h.pq_mem (hne _ (by decide)) (by decide)
      vpc := fun l hl hg => by
        change (Function.update lm.lines c _ l).vpc = _
        by_cases hlc : l = c
        · subst hlc
          simp
        · rw [Function.update_of_ne hlc, Function.update_of_ne hlc]
          exact h.vpc l hl (hother l hlc hg)
      ipc := fun l hl hg => by
        change (Function.update lm.lines c _ l).ipc = _
        by_cases hlc : l = c
        · subst hlc
          simp
        · rw [Function.update_of_ne hlc, Function.update_of_ne hlc]
          exact h.ipc l hl (hother l hlc hg)
      pos := fun l hl hv => by
        by_cases hlc : l = c
        · subst hlc
          exact hs.pos l hl (hne _ (by decide))
        · rw [Function.update_of_ne hlc] at hv
          exact hs.pos l hl hv }

end LineInv

namespace LineMgmt

/-! ## the free count -/

@[simp] theorem insertVictim_freeLineCnt (lm : LineMgmt) (c : Nat) :
    (lm.insertVictim c).freeLineCnt = lm.freeLineCnt := rfl

@[simp] theorem retire_freeLineCnt (lm : LineMgmt) (P c : Nat) :
    (lm.retire P c).freeLineCnt = lm.freeLineCnt := by
  unfold retire
  split <;> rfl

@[simp] theorem pageValid_freeLineCnt (lm : LineMgmt) (c : Nat) :
    (lm.pageValid c).freeLineCnt = lm.freeLineCnt := rfl

@[simp] theorem lowerVpc_freeLineCnt (lm : LineMgmt) (c : Nat) :
    (lm.lowerVpc c).freeLineCnt = lm.freeLineCnt := by
  simp only [lowerVpc]
  split <;> rfl

@[simp] theorem pageInvalid_freeLineCnt (lm : LineMgmt) (P c : Nat) :
    (lm.pageInvalid P c).freeLineCnt = lm.freeLineCnt := by
  simp only [pageInvalid]
  split <;> simp

theorem getNextFreeLine_freeLineCnt {lm lm' : LineMgmt} {c : Nat}
    (h : lm.getNextFreeLine = some (c, lm')) : lm'.freeLineCnt = lm.freeLineCnt - 1 := by
  unfold getNextFreeLine at h
  split at h
  · contradiction
  · cases h
    rfl

@[simp] theorem markLineFree_freeLineCnt (lm : LineMgmt) (c : Nat) :
    (lm.markLineFree c).freeLineCnt = lm.freeLineCnt + 1 := rfl

end LineMgmt

end Femu.Bbssd

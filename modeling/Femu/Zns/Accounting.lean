import Femu.Lib.Count
import Femu.Zns.Zone

/-!
# Femu.Zns.Accounting

The zone table as a ledger: which zones each list holds, and how many zones the
two counters stand for.

`znsAssignZoneState` and the functions on the counters are first given as plain
updates of the table, from which the table invariant `Inv` is then derived. `Inv`
also carries a property of the single zones, chosen by its user, that has to be
stable under the moves `ZoneMove` of the zone state machine.
-/

namespace Femu.Zns

open Nvme Lib

/-! ## counters as plain updates -/

/-- The table with counters that stand for `o` open and `a` active zones. A
counter whose limit is zero is not kept. -/
def ZoneTable.setCounts (n : ZnsCtrl) (t : ZoneTable) (o a : Nat) : ZoneTable :=
  { t with
    nrOpenZones := if n.maxOpenZones = 0 then 0 else (o : Int)
    nrActiveZones := if n.maxActiveZones = 0 then 0 else (a : Int) }

/-- The counters stand for `o` open and `a` active zones. -/
structure Counts (n : ZnsCtrl) (t : ZoneTable) (o a : Nat) : Prop where
  opn : t.nrOpenZones = if n.maxOpenZones = 0 then 0 else (o : Int)
  act : t.nrActiveZones = if n.maxActiveZones = 0 then 0 else (a : Int)

/-- `o` open and `a` active zones respect the limits. -/
structure Fits (n : ZnsCtrl) (o a : Nat) : Prop where
  opn : n.maxOpenZones ≠ 0 → o ≤ n.maxOpenZones
  act : n.maxActiveZones ≠ 0 → a ≤ n.maxActiveZones

section Counters

variable {n : ZnsCtrl} {t : ZoneTable} {o a : Nat}

theorem counts_setCounts (o a : Nat) : Counts n (t.setCounts n o a) o a := ⟨rfl, rfl⟩

theorem Counts.eq (h : Counts n t o a) : t.setCounts n o a = t := by
  obtain ⟨ho, ha⟩ := h
  simp only [ZoneTable.setCounts, ← ho, ← ha]

@[simp] theorem setCounts_zones : (t.setCounts n o a).zones = t.zones := rfl

@[simp] theorem setCounts_lists : (t.setCounts n o a).lists = t.lists := rfl

@[simp] theorem setCounts_setCounts (o' a' : Nat) :
    (t.setCounts n o a).setCounts n o' a' = t.setCounts n o' a' := rfl

theorem aorDecOpen_eq (h : Counts n t (o + 1) a) :
    znsAorDecOpen n t = .ok (t.setCounts n o a) := by
  rw [← h.eq]
  by_cases hm : n.maxOpenZones = 0
  · simp [znsAorDecOpen, ZoneTable.setCounts, hm]
  · have hpos : (0 : Int) < o + 1 := by omega
    simp [znsAorDecOpen, ZoneTable.setCounts, hm, hpos]

theorem aorIncOpen_eq (h : Counts n t o a) (hroom : n.maxOpenZones ≠ 0 → o + 1 ≤ n.maxOpenZones) :
    znsAorIncOpen n t = .ok (t.setCounts n (o + 1) a) := by
  rw [← h.eq]
  by_cases hm : n.maxOpenZones = 0
  · simp [znsAorIncOpen, ZoneTable.setCounts, hm]
  · have hle : (o : Int) + 1 ≤ n.maxOpenZones := by have := hroom hm; omega
    simp [znsAorIncOpen, ZoneTable.setCounts, hm, hle]

theorem aorDecActive_eq (h : Counts n t o (a + 1)) (hle : o ≤ a) :
    znsAorDecActive n t = .ok (t.setCounts n o a) := by
  rw [← h.eq]
  by_cases hm : n.maxActiveZones = 0
  · simp [znsAorDecActive, ZoneTable.setCounts, hm]
  · have hpos : (0 : Int) < a + 1 := by omega
    have hopn : (if n.maxOpenZones = 0 then 0 else (o : Int)) ≤ a := by split <;> omega
    simp [znsAorDecActive, ZoneTable.setCounts, hm, hpos, hopn]

theorem aorIncActive_eq (h : Counts n t o a)
    (hroom : n.maxActiveZones ≠ 0 → a + 1 ≤ n.maxActiveZones) :
    znsAorIncActive n t = .ok (t.setCounts n o (a + 1)) := by
  rw [← h.eq]
  by_cases hm : n.maxActiveZones = 0
  · simp [znsAorIncActive, ZoneTable.setCounts, hm]
  · have hle : (a : Int) + 1 ≤ n.maxActiveZones := by have := hroom hm; omega
    simp [znsAorIncActive, ZoneTable.setCounts, hm, hle]

/-- The check succeeds exactly when the limits leave room. -/
theorem aorCheck_eq_success (h : Counts n t o a) (act opn : Nat) :
    znsAorCheck n t act opn = nvmeSuccess ↔
      (n.maxActiveZones ≠ 0 → a + act ≤ n.maxActiveZones) ∧
      (n.maxOpenZones ≠ 0 → o + opn ≤ n.maxOpenZones) := by
  obtain ⟨ho, ha⟩ := h
  unfold znsAorCheck
  split
  · rename_i hm
    have hne : nvmeZoneTooManyActive ||| nvmeDnr ≠ nvmeSuccess := by decide
    rw [if_neg hm.1] at ha
    simp only [hne, false_iff, not_and]
    intro hfit
    have := hfit hm.1
    omega
  · rename_i hm
    split
    · rename_i hmo
      have hne : nvmeZoneTooManyOpen ||| nvmeDnr ≠ nvmeSuccess := by decide
      rw [if_neg hmo.1] at ho
      simp only [hne, false_iff, not_and]
      intro _ hfit
      have := hfit hmo.1
      omega
    · rename_i hmo
      refine ⟨fun _ => ⟨fun h0 => ?_, fun h0 => ?_⟩, fun _ => rfl⟩
      · rw [if_neg h0] at ha
        have : ¬ (n.maxActiveZones : Int) < t.nrActiveZones + act := fun hlt => hm ⟨h0, hlt⟩
        omega
      · rw [if_neg h0] at ho
        have : ¬ (n.maxOpenZones : Int) < t.nrOpenZones + opn := fun hlt => hmo ⟨h0, hlt⟩
        omega

end Counters

/-! ## the lists -/

/-- Each list holds, without duplicates, the zones with `P` in the state that the
list is for. `P` leaves out a zone that is between two lists. -/
structure Listed (num : Nat) (P : Nat → Prop) (t : ZoneTable) : Prop where
  mem_iff : ∀ l i, i ∈ t.lists l ↔ i < num ∧ P i ∧ (t.zones i).zs.list = some l
  nodup : ∀ l, (t.lists l).Nodup

/-- `zns_assign_zone_state` as a plain update. -/
def ZoneTable.assign (t : ZoneTable) (i : Nat) (state : NvmeZoneState) : ZoneTable :=
  { t with
    zones := Function.update t.zones i
      { t.zones i with
        zs := state
        za := if state.list = none ∧ state ≠ .readOnly then 0 else (t.zones i).za }
    lists := fun l =>
      if state.list = some l then (t.lists l).erase i ++ [i] else (t.lists l).erase i }

/-- The table with a zone taken out of the lists. -/
def ZoneTable.unlisted (t : ZoneTable) (i : Nat) : ZoneTable :=
  { t with lists := fun l => (t.lists l).erase i }

section Lists

variable {num : Nat} {P : Nat → Prop} {t : ZoneTable} {i : Nat}

@[simp] theorem unlisted_zones : (t.unlisted i).zones = t.zones := rfl

theorem inUse_iff : t.inUse i ↔ ∃ l, i ∈ t.lists l := by
  constructor
  · intro h
    unfold ZoneTable.inUse at h
    obtain h | h | h | h := h
    · exact ⟨_, h⟩
    · exact ⟨_, h⟩
    · exact ⟨_, h⟩
    · exact ⟨_, h⟩
  · intro ⟨l, h⟩
    unfold ZoneTable.inUse
    cases l <;> simp [h]

theorem Listed.mem_erase (h : Listed num P t) (l : ZoneList) {j : Nat} :
    j ∈ (t.lists l).erase i ↔ j ≠ i ∧ j ∈ t.lists l :=
  (h.nodup l).mem_erase_iff

/-- A zone is in no list but that of its state, so that taking it out of that
list takes it out of every list. -/
theorem remove_eq (h : Listed num P t) {l : ZoneList} (hmem : i ∈ t.lists l) :
    t.remove l i = .ok (t.unlisted i) := by
  have hlist := ((h.mem_iff l i).mp hmem).2.2
  have hothers : Function.update t.lists l ((t.lists l).erase i) =
      fun l' => (t.lists l').erase i := by
    funext l'
    by_cases heq : l' = l
    · rw [heq, Function.update_self]
    · have hne : i ∉ t.lists l' := fun hmem' => by
        have := ((h.mem_iff l' i).mp hmem').2.2
        rw [hlist, Option.some.injEq] at this
        exact heq this.symm
      rw [Function.update_of_ne heq, List.erase_of_not_mem hne]
  simp [ZoneTable.remove, hmem, hothers, ZoneTable.unlisted]

/-- The lists without a zone. -/
theorem Listed.erase (h : Listed num P t) :
    Listed num (fun j => P j ∧ j ≠ i) (t.unlisted i) where
  mem_iff := by
    intro l j
    have herase := h.mem_erase (i := i) (j := j) l
    have hmem := h.mem_iff l j
    simp only [ZoneTable.unlisted, herase, hmem]
    tauto
  nodup := fun l => (h.nodup l).erase i

theorem unlink_eq (h : Listed num P t) :
    unlink t i = .ok (t.unlisted i) := by
  unfold unlink
  split
  · rename_i huse
    obtain ⟨l, hl⟩ := inUse_iff.mp huse
    have hlist := ((h.mem_iff l i).mp hl).2.2
    simp only [hlist, remove_eq h hl]
  · rename_i huse
    have hnone : (fun l => (t.lists l).erase i) = t.lists := by
      funext l
      exact List.erase_of_not_mem fun hmem => huse (inUse_iff.mpr ⟨l, hmem⟩)
    simp [hnone, ZoneTable.unlisted]

theorem assignZoneState_eq (h : Listed num P t) (state : NvmeZoneState) :
    znsAssignZoneState t i state = .ok (t.assign i state) := by
  have hfree : ¬ ((t.unlisted i).setZoneState i state).inUse i := by
    rw [inUse_iff]
    intro ⟨l, hl⟩
    exact (h.mem_erase l).mp hl |>.1 rfl
  unfold znsAssignZoneState link
  rw [unlink_eq h, ok_bind]
  match hl : state.list with
  | some l =>
    have hlists : Function.update (fun l => (t.lists l).erase i) l ((t.lists l).erase i ++ [i]) =
        fun l' => if some l = some l' then (t.lists l').erase i ++ [i] else (t.lists l').erase i := by
      funext l'
      by_cases heq : l' = l
      · simp [heq]
      · simp [heq, Ne.symm heq]
    show ZoneTable.insertTail _ l i = _
    rw [ZoneTable.insertTail, if_neg hfree]
    simp [ZoneTable.assign, ZoneTable.setZoneState, ZoneTable.setZone, ZoneTable.unlisted, hl,
      hlists]
  | none =>
    by_cases hro : state = .readOnly
    · simp [ZoneTable.assign, ZoneTable.setZoneState, ZoneTable.setZone, ZoneTable.unlisted, hro,
        NvmeZoneState.list]
    · simp [ZoneTable.assign, ZoneTable.setZoneState, ZoneTable.setZone, ZoneTable.unlisted, hro,
        hl]

theorem listed_assign (h : Listed num P t) (hP : ∀ j, j ≠ i → P j) (hi : i < num)
    (state : NvmeZoneState) : Listed num (fun _ => True) (t.assign i state) where
  mem_iff := by
    intro l j
    have herase := h.mem_erase (i := i) (j := j) l
    have hmem := h.mem_iff l j
    by_cases hj : j = i
    · subst hj
      by_cases hl : state.list = some l
      · simp [ZoneTable.assign, hl, hi]
      · simp [ZoneTable.assign, hl, hi, herase]
    · by_cases hl : state.list = some l
      · simp [ZoneTable.assign, hl, hj, herase, hmem, hP j hj]
      · simp [ZoneTable.assign, hl, hj, herase, hmem, hP j hj]
  nodup := by
    intro l
    have hn := (h.nodup l).erase i
    by_cases hl : state.list = some l
    · have hi' : i ∉ (t.lists l).erase i := fun hmem => (h.mem_erase l).mp hmem |>.1 rfl
      simp only [ZoneTable.assign, hl, if_true]
      exact List.nodup_append.mpr ⟨hn, by simp, by grind⟩
    · simpa [ZoneTable.assign, hl] using hn

end Lists

/-! ## the invariant of the table -/

/-- The number of open zones. -/
def opens (n : ZnsCtrl) (t : ZoneTable) : Nat :=
  countBelow (fun i => (t.zones i).zs.isOpen) true n.numZones

/-- The number of open and closed zones. -/
def actives (n : ZnsCtrl) (t : ZoneTable) : Nat :=
  countBelow (fun i => (t.zones i).zs.isActive) true n.numZones

/-- A state that a zone of the table can be in. -/
def NvmeZoneState.Usable : NvmeZoneState → Prop
  | reserved => False
  | readOnly => False
  | offline => False
  | _ => True

/-- The table between two commands: the lists hold the zones in their states, the
counters count the zones and respect the limits, and every zone satisfies `Z`. -/
structure Inv (n : ZnsCtrl) (Z : Nat → NvmeZone → Prop) (t : ZoneTable) : Prop where
  listed : Listed n.numZones (fun _ => True) t
  counts : Counts n t (opens n t) (actives n t)
  fits : Fits n (opens n t) (actives n t)
  usable : ∀ i < n.numZones, (t.zones i).zs.Usable
  zone : ∀ i < n.numZones, Z i (t.zones i)

/-- The table with counters that agree with the states of its zones. -/
def ZoneTable.recount (n : ZnsCtrl) (t : ZoneTable) : ZoneTable :=
  t.setCounts n (opens n t) (actives n t)

/-- One if the condition holds: what a zone adds to a counter. -/
def one (b : Bool) : Nat := if b then 1 else 0

@[simp] theorem one_true : one true = 1 := rfl

@[simp] theorem one_false : one false = 0 := rfl

section Table

variable {n : ZnsCtrl} {Z : Nat → NvmeZone → Prop} {t : ZoneTable} {i : Nat}

theorem isActive_of_isOpen {zs : NvmeZoneState} (h : zs.isOpen = true) : zs.isActive = true := by
  cases zs <;> simp_all [NvmeZoneState.isOpen, NvmeZoneState.isActive]

theorem opens_le_actives (n : ZnsCtrl) (t : ZoneTable) : opens n t ≤ actives n t := by
  unfold opens actives countBelow
  exact Finset.card_le_card (Finset.monotone_filter_right _ fun i _ h => isActive_of_isOpen h)

/-- Counting a property of the states after one zone has changed. -/
theorem countBelow_zones (f : NvmeZoneState → Bool) {t u : ZoneTable} {z : NvmeZone} {num : Nat}
    (hi : i < num) (hu : u.zones = Function.update t.zones i z) :
    countBelow (fun j => f (u.zones j).zs) true num + one (f (t.zones i).zs) =
      countBelow (fun j => f (t.zones j).zs) true num + one (f z.zs) := by
  have hfun : (fun j => f (u.zones j).zs) =
      Function.update (fun j => f (t.zones j).zs) i (f z.zs) := by
    funext j
    by_cases hj : j = i
    · simp [hu, hj]
    · simp [hu, hj]
  rw [hfun]
  exact countBelow_update _ true (f z.zs) hi

theorem opens_update {u : ZoneTable} {z : NvmeZone} (hi : i < n.numZones)
    (hu : u.zones = Function.update t.zones i z) :
    opens n u + one (t.zones i).zs.isOpen = opens n t + one z.zs.isOpen :=
  countBelow_zones NvmeZoneState.isOpen hi hu

theorem actives_update {u : ZoneTable} {z : NvmeZone} (hi : i < n.numZones)
    (hu : u.zones = Function.update t.zones i z) :
    actives n u + one (t.zones i).zs.isActive = actives n t + one z.zs.isActive :=
  countBelow_zones NvmeZoneState.isActive hi hu

/-- The counts depend on the states of the zones alone. -/
theorem counts_congr {t u : ZoneTable} (h : ∀ j, (u.zones j).zs = (t.zones j).zs) :
    opens n u = opens n t ∧ actives n u = actives n t := by
  simp [opens, actives, h]

theorem Listed.setCounts {num : Nat} {P : Nat → Prop} (h : Listed num P t) (o a : Nat) :
    Listed num P (t.setCounts n o a) := ⟨h.mem_iff, h.nodup⟩

/-- Changing a zone but not its state keeps the lists. -/
theorem Listed.setZone {num : Nat} {P : Nat → Prop} (h : Listed num P t) {z : NvmeZone}
    (hz : z.zs = (t.zones i).zs) : Listed num P (t.setZone i z) where
  mem_iff := by
    intro l j
    by_cases hj : j = i
    · simpa [ZoneTable.setZone, hj, hz] using h.mem_iff l i
    · simpa [ZoneTable.setZone, hj] using h.mem_iff l j
  nodup := h.nodup

/-- **Step lemma for the table**: a zone that moves to a usable state for which
the limits leave room, with the lists and the counters following it, keeps the
invariant. `t` is the table before, `v` what the lists are taken from. -/
theorem Inv.assign {Y : Nat → NvmeZone → Prop} {v : ZoneTable} {P : Nat → Prop}
    {state : NvmeZoneState} (h : Inv n Y t) (hi : i < n.numZones)
    (hv : ∀ j, j ≠ i → v.zones j = t.zones j) (hl : Listed n.numZones P v)
    (hP : ∀ j, j ≠ i → P j) (hstate : state.Usable)
    (hfits : Fits n (opens n (v.assign i state)) (actives n (v.assign i state)))
    (hYZ : ∀ j z, j ≠ i → Y j z → Z j z) (hZ : Z i ((v.assign i state).zones i)) :
    Inv n Z ((v.assign i state).recount n) where
  listed := (listed_assign hl hP hi state).setCounts _ _
  counts := counts_setCounts _ _
  fits := hfits
  usable := by
    intro j hj
    by_cases hji : j = i
    · subst hji
      simpa [ZoneTable.recount, ZoneTable.assign] using hstate
    · simpa [ZoneTable.recount, ZoneTable.assign, hji, hv j hji] using h.usable j hj
  zone := by
    intro j hj
    by_cases hji : j = i
    · subst hji
      exact hZ
    · simpa [ZoneTable.recount, ZoneTable.assign, hji, hv j hji] using
        hYZ j _ hji (h.zone j hj)

/-- Changing a zone but not its state keeps the invariant, apart from what is
known of that zone. -/
theorem Inv.setZone {Y : Nat → NvmeZone → Prop} {z : NvmeZone} (h : Inv n Y t)
    (hz : z.zs = (t.zones i).zs) (hYZ : ∀ j z, j ≠ i → Y j z → Z j z)
    (hZ : i < n.numZones → Z i z) : Inv n Z (t.setZone i z) := by
  have hstates : ∀ j, ((t.setZone i z).zones j).zs = (t.zones j).zs := by
    intro j
    by_cases hj : j = i
    · simp [ZoneTable.setZone, hj, hz]
    · simp [ZoneTable.setZone, hj]
  obtain ⟨ho, ha⟩ := counts_congr (n := n) hstates
  refine ⟨h.listed.setZone hz, ?_, ?_, fun j hj => ?_, fun j hj => ?_⟩
  · rw [ho, ha]
    exact ⟨h.counts.opn, h.counts.act⟩
  · rw [ho, ha]
    exact h.fits
  · rw [hstates]
    exact h.usable j hj
  · by_cases hji : j = i
    · subst hji
      simpa [ZoneTable.setZone] using hZ hj
    · simpa [ZoneTable.setZone, hji] using hYZ j _ hji (h.zone j hj)

/-- Knowing less of the zones. -/
theorem Inv.weaken {Y : Nat → NvmeZone → Prop} (h : Inv n Y t) (hYZ : ∀ j z, Y j z → Z j z) :
    Inv n Z t :=
  ⟨h.listed, h.counts, h.fits, h.usable, fun j hj => hYZ j _ (h.zone j hj)⟩

/-- The first zone of a list is one of the table, in the state of the list. -/
theorem Inv.of_mem (h : Inv n Z t) {l : ZoneList} (hmem : i ∈ t.lists l) :
    i < n.numZones ∧ (t.zones i).zs.list = some l := by
  have := (h.listed.mem_iff l i).mp hmem
  exact ⟨this.1, this.2.2⟩

end Table

end Femu.Zns

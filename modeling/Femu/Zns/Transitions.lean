import Femu.Zns.Accounting

/-!
# Femu.Zns.Transitions

The zone state machine, and that the code keeps to it: every state change of
`zns.c` outside the data commands is a move of `ZoneMove`, runs without a fault
from a table that satisfies the invariant, and keeps it.
-/

namespace Femu.Zns

open Nvme Lib

/-! ## the zone state machine -/

/-- The moves of a zone: opened, closed, finished and reset by the host, given a
descriptor extension, and cleared when the device is shut down. -/
inductive ZoneMove : NvmeZone → NvmeZone → Prop
  | opn {z : NvmeZone} (h : z.zs = .empty ∨ z.zs = .closed ∨ z.zs = .implicitlyOpen) :
      ZoneMove z { z with zs := .explicitlyOpen }
  | close {z : NvmeZone} (h : z.zs.isOpen) : ZoneMove z { z with zs := .closed }
  | finish {z : NvmeZone} (h : z.zs.isActive ∨ z.zs = .empty) :
      ZoneMove z { z with
        zs := .full, wp := znsZoneWrBoundary z, wPtr := znsZoneWrBoundary z }
  | reset {z : NvmeZone} (h : z.zs.isActive ∨ z.zs = .full) :
      ZoneMove z { z with zs := .empty, za := 0, wp := z.zslba, wPtr := z.zslba }
  | extend {z : NvmeZone} (h : z.zs = .empty) :
      ZoneMove z { z with zs := .closed, za := z.za ||| nvmeZaZdExtValid }
  | clear {z : NvmeZone} (h : z.zs.isActive)
      (hwp : z.wp ≠ z.zslba ∨ z.za &&& nvmeZaZdExtValid ≠ 0) :
      ZoneMove z { z with zs := .closed, wPtr := z.wp }
  | clearEmpty {z : NvmeZone} (h : z.zs.isActive) (hwp : z.wp = z.zslba) :
      ZoneMove z { z with zs := .empty, wPtr := z.wp }

/-- A property of the zones that the moves keep. -/
def Stable (Z : Nat → NvmeZone → Prop) : Prop :=
  ∀ i z z', ZoneMove z z' → Z i z → Z i z'

theorem stable_true : Stable fun _ _ => True := fun _ _ _ _ _ => trivial

section Moves

variable {n : ZnsCtrl} {Z : Nat → NvmeZone → Prop} {t : ZoneTable} {i : Nat}

/-- No fault at all. -/
def NoFault : Fault → Prop := fun _ => False

theorem Fits.mono {o a o' a' : Nat} (h : Fits n o a) (ho : o' ≤ o) (ha : a' ≤ a) :
    Fits n o' a' :=
  ⟨fun h0 => Nat.le_trans ho (h.opn h0), fun h0 => Nat.le_trans ha (h.act h0)⟩

@[simp] theorem assign_zone (state : NvmeZoneState) : (t.assign i state).zones i =
    { t.zones i with
      zs := state
      za := if state.list = none ∧ state ≠ .readOnly then 0 else (t.zones i).za } := by
  simp [ZoneTable.assign]

theorem assign_lists {state : NvmeZoneState} {l : ZoneList} (hl : state.list ≠ some l) :
    (t.assign i state).lists l = (t.lists l).erase i := by
  simp [ZoneTable.assign, hl]

theorem assign_zones (state : NvmeZoneState) : (t.assign i state).zones =
    Function.update t.zones i ((t.assign i state).zones i) := by
  simp [ZoneTable.assign]

/-- Two states do not share a list. -/
theorem list_ne {zs state : NvmeZoneState} {l : ZoneList} (h : zs ≠ state)
    (hl : zs.list = some l) : state.list ≠ some l := by
  intro hc
  have heq : state.list = zs.list := hc.trans hl.symm
  have hsome : zs.list ≠ none := by simp [hl]
  apply h
  clear h hc hl
  cases zs <;> cases state <;> simp_all [NvmeZoneState.list]

theorem opens_assign (t : ZoneTable) (hi : i < n.numZones) (state : NvmeZoneState) :
    opens n (t.assign i state) + one (t.zones i).zs.isOpen = opens n t + one state.isOpen := by
  simpa using opens_update hi (assign_zones state)

theorem actives_assign (t : ZoneTable) (hi : i < n.numZones) (state : NvmeZoneState) :
    actives n (t.assign i state) + one (t.zones i).zs.isActive =
      actives n t + one state.isActive := by
  simpa using actives_update hi (assign_zones state)

/-- What an action on a zone leaves behind for a walk over the list that holds the
zone: the invariant, and a list from which at most the zone is gone. -/
def Passes (n : ZnsCtrl) (Z : Nat → NvmeZone → Prop) (t : ZoneTable) (i : Nat)
    (r : Status × ZoneTable) : Prop :=
  Inv n Z r.2 ∧ ∀ l, (t.zones i).zs.list = some l →
    r.2.lists l = t.lists l ∨ r.2.lists l = (t.lists l).erase i

theorem Inv.passes (h : Inv n Z t) (status : Status) : Passes n Z t i (status, t) :=
  ⟨h, fun _ _ => .inl rfl⟩

/-- Giving resources back lowers the counters by what the zone counts for. -/
theorem releaseResources_eq {zs : NvmeZoneState} {o a : Nat}
    (h : Counts n t (o + one zs.isOpen) (a + one zs.isActive)) (hle : o ≤ a) :
    releaseResources n t zs = .ok (t.setCounts n o a) := by
  unfold releaseResources
  by_cases ho : zs.isOpen = true
  · have ha := isActive_of_isOpen ho
    rw [ho, ha, one_true] at h
    simp only [ho, ha, if_true]
    rw [aorDecOpen_eq h, ok_bind, aorDecActive_eq (counts_setCounts o (a + 1)) hle]
    rfl
  · by_cases ha : zs.isActive = true
    · simp only [Bool.not_eq_true] at ho
      rw [ho, ha] at h
      simp only [ho, ha, Bool.false_eq_true, if_false, if_true, pure_eq_ok, ok_bind]
      exact aorDecActive_eq h hle
    · simp only [Bool.not_eq_true] at ho ha
      rw [ho, ha] at h
      have hsame : t.setCounts n o a = t := h.eq
      simp [ho, ha, hsame]

/-- A zone that leaves the active states, with its fields already set: the
resources are given back, and the table that the assignment gives is the one with
recounted counters. -/
theorem Inv.release {z : NvmeZone} (h : Inv n Z t) (state : NvmeZoneState) (hi : i < n.numZones)
    (hz : z.zs = (t.zones i).zs) (hstate : state.Usable) (hna : state.isActive = false)
    (hZ : Z i (((t.setZone i z).assign i state).zones i)) :
    ∃ o a, releaseResources n t (t.zones i).zs = .ok (t.setCounts n o a) ∧
      znsAssignZoneState ((t.setZone i z).setCounts n o a) i state =
        .ok (((t.setZone i z).assign i state).recount n) ∧
      Inv n Z (((t.setZone i z).assign i state).recount n) := by
  have hno : state.isOpen = false := by
    by_contra hc
    have := isActive_of_isOpen (Bool.not_eq_false _ ▸ hc)
    simp [this] at hna
  have hzones : (t.setZone i z).zones i = z := by simp [ZoneTable.setZone]
  have hothers : ∀ j, j ≠ i → (t.setZone i z).zones j = t.zones j := by
    intro j hj
    simp [ZoneTable.setZone, hj]
  have hstates : ∀ j, ((t.setZone i z).zones j).zs = (t.zones j).zs := by
    intro j
    by_cases hj : j = i
    · rw [hj, hzones, hz]
    · rw [hothers j hj]
  obtain ⟨hco, hca⟩ := counts_congr (n := n) hstates
  have ho := opens_assign (t.setZone i z) hi state
  have ha := actives_assign (t.setZone i z) hi state
  rw [hzones, hz, hno, hco, one_false] at ho
  rw [hzones, hz, hna, hca, one_false] at ha
  have hc : Counts n t (opens n ((t.setZone i z).assign i state) + one (t.zones i).zs.isOpen)
      (actives n ((t.setZone i z).assign i state) + one (t.zones i).zs.isActive) := by
    rw [ho, ha]
    exact h.counts
  refine ⟨_, _, releaseResources_eq hc (opens_le_actives n _), ?_, ?_⟩
  · exact assignZoneState_eq ((h.listed.setZone hz).setCounts _ _) state
  · exact h.assign hi hothers (h.listed.setZone hz) (fun _ _ => trivial) hstate
      (h.fits.mono (by omega) (by omega)) (fun _ _ _ h => h) hZ

/-- A zone that moves between two active states, the counters already set. -/
theorem Inv.reassign {P : Nat → Prop} {v : ZoneTable} {o a : Nat} (h : Inv n Z t)
    (state : NvmeZoneState) (hi : i < n.numZones) (hv : ∀ j, j ≠ i → v.zones j = t.zones j)
    (hl : Listed n.numZones P v) (hP : ∀ j, j ≠ i → P j) (hstate : state.Usable)
    (ho : opens n (v.assign i state) = o) (ha : actives n (v.assign i state) = a)
    (hfits : Fits n o a) (hZ : Z i ((v.assign i state).zones i)) :
    Safe NoFault (znsAssignZoneState (v.setCounts n o a) i state) fun t' =>
      t' = (v.assign i state).recount n ∧ Inv n Z t' := by
  subst ho
  subst ha
  have hinv : Inv n Z ((v.assign i state).recount n) :=
    h.assign hi hv hl hP hstate hfits (fun _ _ _ h => h) hZ
  rw [assignZoneState_eq (hl.setCounts _ _)]
  exact ⟨rfl, hinv⟩

/-! ## the actions -/

/-- Closing an open zone. -/
theorem closeZone_open (hZ : Stable Z) (h : Inv n Z t) (hi : i < n.numZones)
    (hopen : (t.zones i).zs.isOpen = true) :
    znsCloseZone n t i (t.zones i).zs = .ok (nvmeSuccess, (t.assign i .closed).recount n) ∧
      Inv n Z ((t.assign i .closed).recount n) := by
  have hmove : Z i ((t.assign i .closed).zones i) := by
    rw [assign_zone]
    exact hZ i _ _ (.close hopen) (h.zone i hi)
  have ho := opens_assign t hi .closed
  have ha := actives_assign t hi .closed
  rw [hopen] at ho
  rw [isActive_of_isOpen hopen] at ha
  simp only [NvmeZoneState.isOpen, NvmeZoneState.isActive, one_true, one_false] at ho ha
  have hc : Counts n t (opens n (t.assign i .closed) + 1) (actives n (t.assign i .closed)) := by
    rw [ho, show actives n (t.assign i .closed) = actives n t by omega]
    exact h.counts
  have hinv : Inv n Z ((t.assign i .closed).recount n) :=
    h.assign hi (fun _ _ => rfl) h.listed (fun _ _ => trivial) trivial
      (h.fits.mono (by omega) (by omega)) (fun _ _ _ h => h) hmove
  refine ⟨?_, hinv⟩
  rw [znsCloseZone, if_pos hopen, aorDecOpen_eq hc, ok_bind,
    assignZoneState_eq (h.listed.setCounts _ _)]
  rfl

theorem closeZone_passes (hZ : Stable Z) (h : Inv n Z t) (hi : i < n.numZones) :
    Safe NoFault (znsCloseZone n t i (t.zones i).zs) (Passes n Z t i) := by
  by_cases hopen : (t.zones i).zs.isOpen = true
  · obtain ⟨hrun, hinv⟩ := closeZone_open hZ h hi hopen
    have hne : (t.zones i).zs ≠ .closed := fun hc => by simp [hc, NvmeZoneState.isOpen] at hopen
    rw [hrun]
    exact ⟨hinv, fun l hl => .inr (assign_lists (list_ne hne hl))⟩
  · rw [znsCloseZone, if_neg hopen]
    split
    · exact h.passes _
    · exact h.passes _

/-- A zone with both pointers set. -/
def NvmeZone.setPointers (z : NvmeZone) (lba : Nat) : NvmeZone := { z with wPtr := lba, wp := lba }

/-- Finishing an active or empty zone. -/
theorem finishZone_unfinished (hZ : Stable Z) (h : Inv n Z t) (hi : i < n.numZones)
    (hzs : (t.zones i).zs.isActive = true ∨ (t.zones i).zs = .empty) {z : NvmeZone}
    (hz : z = (t.zones i).setPointers (znsZoneWrBoundary (t.zones i))) :
    znsFinishZone n t i (t.zones i).zs =
        .ok (nvmeSuccess, ((t.setZone i z).assign i .full).recount n) ∧
      Inv n Z (((t.setZone i z).assign i .full).recount n) := by
  subst hz
  have hzone : Z i (((t.setZone i ((t.zones i).setPointers
      (znsZoneWrBoundary (t.zones i)))).assign i .full).zones i) := by
    have := hZ i _ _ (.finish hzs) (h.zone i hi)
    simpa [ZoneTable.setZone, NvmeZone.setPointers, NvmeZoneState.list] using this
  obtain ⟨o, a, hrel, hassign, hinv⟩ := h.release
    (z := (t.zones i).setPointers (znsZoneWrBoundary (t.zones i))) .full hi rfl trivial rfl hzone
  have hset : (t.setCounts n o a).setPointers i (znsZoneWrBoundary ((t.setCounts n o a).zones i)) =
      (t.setZone i ((t.zones i).setPointers
        (znsZoneWrBoundary (t.zones i)))).setCounts n o a := rfl
  refine ⟨?_, hinv⟩
  rw [znsFinishZone, if_pos hzs, hrel, ok_bind]
  simp only [hset, hassign, ok_bind, pure_eq_ok]

theorem finishZone_passes (hZ : Stable Z) (h : Inv n Z t) (hi : i < n.numZones) :
    Safe NoFault (znsFinishZone n t i (t.zones i).zs) (Passes n Z t i) := by
  by_cases hzs : (t.zones i).zs.isActive = true ∨ (t.zones i).zs = .empty
  · obtain ⟨hrun, hinv⟩ := finishZone_unfinished hZ h hi hzs rfl
    have hne : (t.zones i).zs ≠ .full := fun hc => by
      simp [hc, NvmeZoneState.isActive] at hzs
    rw [hrun]
    exact ⟨hinv, fun l hl => .inr (assign_lists (list_ne hne hl))⟩
  · rw [znsFinishZone, if_neg hzs]
    split
    · exact h.passes _
    · exact h.passes _

/-- Resetting an active or full zone. -/
theorem resetZone_written (hZ : Stable Z) (h : Inv n Z t) (hi : i < n.numZones)
    (hzs : (t.zones i).zs.isActive = true ∨ (t.zones i).zs = .full) {z : NvmeZone}
    (hz : z = (t.zones i).setPointers (t.zones i).zslba) :
    znsResetZone n t i (t.zones i).zs =
        .ok (nvmeSuccess, ((t.setZone i z).assign i .empty).recount n) ∧
      Inv n Z (((t.setZone i z).assign i .empty).recount n) := by
  subst hz
  have hne : (t.zones i).zs ≠ .empty := fun hc => by
    simp [hc, NvmeZoneState.isActive] at hzs
  have hzone : Z i (((t.setZone i ((t.zones i).setPointers (t.zones i).zslba)).assign i
      .empty).zones i) := by
    have := hZ i _ _ (.reset hzs) (h.zone i hi)
    simpa [ZoneTable.setZone, NvmeZone.setPointers, NvmeZoneState.list] using this
  obtain ⟨o, a, hrel, hassign, hinv⟩ := h.release
    (z := (t.zones i).setPointers (t.zones i).zslba) .empty hi rfl trivial rfl hzone
  have hset : (t.setCounts n o a).setPointers i ((t.setCounts n o a).zones i).zslba =
      (t.setZone i ((t.zones i).setPointers (t.zones i).zslba)).setCounts n o a := rfl
  refine ⟨?_, hinv⟩
  rw [znsResetZone, if_neg hne, if_pos hzs]
  simp only [znsAioZoneResetCb, if_pos hzs, hrel, ok_bind, hset, hassign, pure_eq_ok]

theorem resetZone_passes (hZ : Stable Z) (h : Inv n Z t) (hi : i < n.numZones) :
    Safe NoFault (znsResetZone n t i (t.zones i).zs) (Passes n Z t i) := by
  by_cases hzs : (t.zones i).zs.isActive = true ∨ (t.zones i).zs = .full
  · obtain ⟨hrun, hinv⟩ := resetZone_written hZ h hi hzs rfl
    have hne : (t.zones i).zs ≠ .empty := fun hc => by
      simp [hc, NvmeZoneState.isActive] at hzs
    rw [hrun]
    exact ⟨hinv, fun l hl => .inr (assign_lists (list_ne hne hl))⟩
  · unfold znsResetZone
    split
    · exact h.passes _
    · exact h.passes _

/-- No zone of the table is read-only or offline, so nothing is taken offline. -/
theorem offlineZone_passes (h : Inv n Z t) (hi : i < n.numZones) :
    Safe NoFault (znsOfflineZone t i (t.zones i).zs) (Passes n Z t i) := by
  unfold znsOfflineZone
  split
  · rename_i hro
    have := h.usable i hi
    simp [hro, NvmeZoneState.Usable] at this
  · split
    · exact h.passes _
    · exact h.passes _

/-- `zns_open_zone` of a closed zone, or of an empty zone whose active resource has
been taken already. -/
theorem openFromClosed_passes {a : Nat} {state : NvmeZoneState} (hZ : Stable Z) (h : Inv n Z t)
    (hi : i < n.numZones) (hstate : state = .empty ∨ state = .closed)
    (hzs : (t.zones i).zs = state) (ha : a = actives n t + one (!state.isActive))
    (hfit : n.maxActiveZones ≠ 0 → a ≤ n.maxActiveZones) :
    Safe NoFault (openFromClosed n (t.setCounts n (opens n t) a) i state) (Passes n Z t i) := by
  have hcounts := counts_setCounts (t := t) (n := n) (opens n t) a
  unfold openFromClosed
  simp only [safe_ite]
  refine ⟨fun _ => ?_, fun hcheck => ?_⟩
  · cases hstate with
    | inl hempty =>
        subst hempty
        have ha' : a = actives n t + 1 := by simpa [NvmeZoneState.isActive] using ha
        subst ha'
        simp only [aorDecActive_eq hcounts (opens_le_actives n t), ok_bind, setCounts_setCounts,
          h.counts.eq]
        exact ⟨fun _ => h.passes _, fun hc => (hc trivial).elim⟩
    | inr hclosed =>
        subst hclosed
        have ha' : a = actives n t := by simpa [NvmeZoneState.isActive] using ha
        subst ha'
        simp only [h.counts.eq]
        exact ⟨fun hc => by simp at hc, fun _ => h.passes _⟩
  · have hroom := (aorCheck_eq_success hcounts 0 1).mp (by simpa using hcheck)
    have ho' := opens_assign t hi .explicitlyOpen
    have ha' := actives_assign t hi .explicitlyOpen
    have hzone : Z i ((t.assign i .explicitlyOpen).zones i) := by
      rw [assign_zone]
      refine hZ i _ _ (.opn ?_) (h.zone i hi)
      rw [hzs]
      exact hstate.imp id .inl
    have hcount : opens n (t.assign i .explicitlyOpen) = opens n t + 1 ∧
        actives n (t.assign i .explicitlyOpen) = a := by
      rw [hzs] at ho' ha'
      cases hstate with
      | inl hempty => subst hempty; simp_all [NvmeZoneState.isOpen, NvmeZoneState.isActive]
      | inr hclosed => subst hclosed; simp_all [NvmeZoneState.isOpen, NvmeZoneState.isActive]
    have hmoved := h.reassign .explicitlyOpen hi (fun _ _ => rfl) h.listed (fun _ _ => trivial)
      trivial hcount.1 hcount.2 ⟨hroom.2, hfit⟩ hzone
    simp only [aorIncOpen_eq hcounts hroom.2, ok_bind, setCounts_setCounts, safe_bind]
    refine hmoved.imp fun t' ht' => ?_
    obtain ⟨rfl, hinv⟩ := ht'
    refine ⟨hinv, fun l hl => .inr (assign_lists (list_ne ?_ hl))⟩
    rw [hzs]
    cases hstate with
    | inl hempty => simp [hempty]
    | inr hclosed => simp [hclosed]

theorem openZone_passes (hZ : Stable Z) (h : Inv n Z t) (hi : i < n.numZones) :
    Safe NoFault (znsOpenZone n t i (t.zones i).zs) (Passes n Z t i) := by
  match hzs : (t.zones i).zs with
  | .empty =>
    simp only [znsOpenZone, safe_ite]
    refine ⟨fun _ => h.passes _, fun hcheck => ?_⟩
    have hroom := (aorCheck_eq_success h.counts 1 0).mp (by simpa using hcheck)
    rw [aorIncActive_eq h.counts hroom.1, ok_bind]
    exact openFromClosed_passes hZ h hi (.inl rfl) hzs rfl hroom.1
  | .closed =>
    have := openFromClosed_passes hZ h hi (.inr rfl) hzs rfl h.fits.act
    simpa [znsOpenZone, NvmeZoneState.isActive, h.counts.eq] using this
  | .implicitlyOpen =>
    have ho := opens_assign t hi .explicitlyOpen
    have ha := actives_assign t hi .explicitlyOpen
    simp only [hzs, NvmeZoneState.isOpen, NvmeZoneState.isActive, Nat.add_right_cancel_iff]
      at ho ha
    have hzone : Z i ((t.assign i .explicitlyOpen).zones i) := by
      rw [assign_zone]
      exact hZ i _ _ (.opn (.inr (.inr hzs))) (h.zone i hi)
    have hmoved := h.reassign .explicitlyOpen hi (fun _ _ => rfl) h.listed (fun _ _ => trivial)
      trivial ho ha h.fits hzone
    rw [h.counts.eq] at hmoved
    simp only [znsOpenZone, safe_bind]
    refine hmoved.imp fun t' ht' => ?_
    obtain ⟨rfl, hinv⟩ := ht'
    refine ⟨hinv, fun l hl => .inr (assign_lists (list_ne ?_ hl))⟩
    simp [hzs]
  | .explicitlyOpen => exact h.passes _
  | .full => exact h.passes _
  | .reserved => exact h.passes _
  | .readOnly => exact h.passes _
  | .offline => exact h.passes _

/-- `zns_set_zd_ext` keeps the invariant. -/
theorem setZdExt_inv (hZ : Stable Z) (h : Inv n Z t) (hi : i < n.numZones) :
    Safe NoFault (znsSetZdExt n t i) fun r => Inv n Z r.2 := by
  unfold znsSetZdExt
  split
  · rename_i hempty
    simp only [safe_ite]
    refine ⟨fun _ => h, fun hcheck => ?_⟩
    have hroom := (aorCheck_eq_success h.counts 1 0).mp (by simpa using hcheck)
    let z : NvmeZone := { t.zones i with za := (t.zones i).za ||| nvmeZaZdExtValid }
    have hzones : (t.setZone i z).zones i = z := by simp [ZoneTable.setZone]
    have ho := opens_assign (t.setZone i z) hi .closed
    have ha := actives_assign (t.setZone i z) hi .closed
    have hstates : ∀ j, ((t.setZone i z).zones j).zs = (t.zones j).zs := by
      intro j
      by_cases hj : j = i
      · rw [hj, hzones]
      · simp [ZoneTable.setZone, hj]
    obtain ⟨hco, hca⟩ := counts_congr (n := n) hstates
    have hzs : z.zs = .empty := hempty
    rw [hzones, hco, hzs] at ho
    rw [hzones, hca, hzs] at ha
    simp only [NvmeZoneState.isOpen, NvmeZoneState.isActive, one_false, one_true,
      Nat.add_zero] at ho ha
    have hzone : Z i (((t.setZone i z).assign i .closed).zones i) := by
      have := hZ i _ _ (.extend hempty) (h.zone i hi)
      simpa [ZoneTable.setZone, z, NvmeZoneState.list] using this
    have hothers : ∀ j, j ≠ i → (t.setZone i z).zones j = t.zones j := by
      intro j hj
      simp [ZoneTable.setZone, hj]
    have hmoved := h.reassign .closed hi hothers (h.listed.setZone (z := z) rfl)
      (fun _ _ => trivial) trivial ho ha ⟨h.fits.opn, hroom.1⟩ hzone
    have hset : (t.setCounts n (opens n t) (actives n t + 1)).setZone i
        { (t.setCounts n (opens n t) (actives n t + 1)).zones i with
          za := ((t.setCounts n (opens n t) (actives n t + 1)).zones i).za ||| nvmeZaZdExtValid } =
        (t.setZone i z).setCounts n (opens n t) (actives n t + 1) := rfl
    rw [aorIncActive_eq h.counts hroom.1, ok_bind]
    simp only [hset, safe_bind]
    exact hmoved.imp fun t' ht' => ht'.2
  · exact h

/-! ## the side effects of a write -/

/-- The conditions under which `zns_auto_transition_zone` closes another zone. -/
def AutoCloses (n : ZnsCtrl) (t : ZoneTable) : Prop :=
  n.maxOpenZones ≠ 0 ∧ t.nrOpenZones = n.maxOpenZones ∧ t.lists .impOpen ≠ []

/-- Closing an implicitly open zone to make room for another one. -/
theorem autoTransition_cases (hZ : Stable Z) (h : Inv n Z t) :
    Safe NoFault (znsAutoTransitionZone n t) fun t' => Inv n Z t' ∧
      (¬ AutoCloses n t ∧ t' = t ∨
        AutoCloses n t ∧ ∃ i < n.numZones, (t.zones i).zs = .implicitlyOpen ∧
          t'.zones = Function.update t.zones i { t.zones i with zs := .closed }) := by
  unfold znsAutoTransitionZone
  split
  · rename_i hfull
    match hhead : (t.lists .impOpen).head? with
    | none =>
      have hnil : t.lists .impOpen = [] := List.head?_eq_none_iff.mp hhead
      exact ⟨h, .inl ⟨fun hc => hc.2.2 hnil, rfl⟩⟩
    | some i =>
      have hmem : i ∈ t.lists .impOpen := List.mem_of_mem_head? hhead
      obtain ⟨hi, hlist⟩ := h.of_mem hmem
      have hzs : (t.zones i).zs = .implicitlyOpen := by
        cases hzs : (t.zones i).zs <;> simp_all [NvmeZoneState.list]
      have hopen : (t.zones i).zs.isOpen := by simp [hzs, NvmeZoneState.isOpen]
      have ho := opens_assign (t.unlisted i) hi .closed
      have ha := actives_assign (t.unlisted i) hi .closed
      have hco : opens n (t.unlisted i) = opens n t := rfl
      have hca : actives n (t.unlisted i) = actives n t := rfl
      simp only [unlisted_zones, hco, hca, hzs, NvmeZoneState.isOpen, NvmeZoneState.isActive,
        one_true, one_false, Nat.add_zero, Nat.add_right_cancel_iff] at ho ha
      have hc : Counts n (t.unlisted i) (opens n ((t.unlisted i).assign i .closed) + 1)
          (actives n ((t.unlisted i).assign i .closed)) := by
        rw [ho, ha]
        exact ⟨h.counts.opn, h.counts.act⟩
      have hzone : Z i (((t.unlisted i).assign i .closed).zones i) := by
        rw [assign_zone]
        exact hZ i _ _ (.close hopen) (h.zone i hi)
      have hv : ∀ j, j ≠ i → (t.unlisted i).zones j = t.zones j := fun _ _ => rfl
      have hmoved := h.reassign .closed hi hv h.listed.erase (fun _ hj => ⟨trivial, hj⟩) trivial
        rfl rfl (h.fits.mono (by omega) (by omega)) hzone
      simp only [remove_eq h.listed hmem, ok_bind]
      rw [aorDecOpen_eq hc, ok_bind]
      refine hmoved.imp fun t' ht' => ?_
      obtain ⟨rfl, hinv⟩ := ht'
      refine ⟨hinv, .inr ⟨⟨hfull.1, hfull.2, List.ne_nil_of_mem hmem⟩, i, hi, hzs, ?_⟩⟩
      simp [ZoneTable.recount, ZoneTable.assign, NvmeZoneState.list]
  · rename_i hfull
    exact ⟨h, .inl ⟨fun hc => hfull ⟨hc.1, hc.2.1⟩, rfl⟩⟩

theorem autoTransition_inv (hZ : Stable Z) (h : Inv n Z t) :
    Safe NoFault (znsAutoTransitionZone n t) fun t' =>
      Inv n Z t' ∧ ∀ j, (t.zones j).zs ≠ .implicitlyOpen → t'.zones j = t.zones j := by
  refine (autoTransition_cases hZ h).imp fun t' ⟨hinv, hcases⟩ => ⟨hinv, fun j hj => ?_⟩
  obtain ⟨-, rfl⟩ | ⟨-, i, -, hzs, hzones⟩ := hcases
  · rfl
  · have hji : j ≠ i := fun hc => hj (hc ▸ hzs)
    rw [hzones, Function.update_of_ne hji]

/-- The limits leave room for a zone of this state to become open. -/
structure Room (n : ZnsCtrl) (t : ZoneTable) (zs : NvmeZoneState) : Prop where
  opn : zs = .empty ∨ zs = .closed → n.maxOpenZones ≠ 0 → opens n t + 1 ≤ n.maxOpenZones
  act : zs = .empty → n.maxActiveZones ≠ 0 → actives n t + 1 ≤ n.maxActiveZones

theorem autoOpen_inv (hZ : Stable Z) (h : Inv n Z t) :
    Safe NoFault (znsAutoOpenZone n t i) fun r =>
      Inv n Z r.2 ∧ r.2.zones i = t.zones i ∧
        (r.1 = nvmeSuccess → Room n r.2 (t.zones i).zs) := by
  have hother : (t.zones i).zs ≠ .empty → (t.zones i).zs ≠ .closed →
      Room n t (t.zones i).zs :=
    fun h1 h2 => ⟨fun hc => by simp [h1, h2] at hc, fun hc => absurd hc h1⟩
  unfold znsAutoOpenZone
  split
  · rename_i hzs
    rw [safe_bind]
    refine (autoTransition_inv hZ h).imp fun t' ⟨hinv, hsame⟩ =>
      ⟨hinv, hsame i (by simp [hzs]), fun hcheck => ?_⟩
    obtain ⟨ha, ho⟩ := (aorCheck_eq_success hinv.counts 1 1).mp hcheck
    exact ⟨fun _ => ho, fun _ => ha⟩
  · rename_i hzs
    rw [safe_bind]
    refine (autoTransition_inv hZ h).imp fun t' ⟨hinv, hsame⟩ =>
      ⟨hinv, hsame i (by simp [hzs]), fun hcheck => ?_⟩
    obtain ⟨ha, ho⟩ := (aorCheck_eq_success hinv.counts 0 1).mp hcheck
    exact ⟨fun _ => ho, fun hc => by simp [hzs] at hc⟩
  · rename_i h1 h2
    exact ⟨h, rfl, fun _ => hother h1 h2⟩

/-- The zone after `zns_advance_zone_wp`. -/
def advanced (z : NvmeZone) (nlb : Nat) : NvmeZone :=
  let z := { z with wPtr := u64 (z.wPtr + nlb) }
  if z.wPtr < znsZoneWrBoundary z ∧ (z.zs = .empty ∨ z.zs = .closed) then
    { z with zs := .implicitlyOpen }
  else
    z

/-- The zone after `zns_finalize_zoned_write`. -/
def finalized (z : NvmeZone) (nlb : Nat) : NvmeZone :=
  let z := { z with wp := u64 (z.wp + nlb) }
  if z.wp = znsZoneWrBoundary z ∧ z.zs ≠ .full then { z with zs := .full } else z

/-- An empty or closed zone, with its fields already set, becomes implicitly open
when there is room for it. -/
theorem openForWrite_inv {Y : Nat → NvmeZone → Prop} {z : NvmeZone} (h : Inv n Y t)
    (hi : i < n.numZones) (hz : z.zs = (t.zones i).zs) (hzs : z.zs = .empty ∨ z.zs = .closed)
    (hroom : Room n t z.zs) (hYZ : ∀ j z, j ≠ i → Y j z → Z j z)
    (hZ : Z i { z with zs := .implicitlyOpen }) :
    Safe NoFault (do
      let t' ← if z.zs = .empty then znsAorIncActive n (t.setZone i z) else pure (t.setZone i z)
      let t' ← znsAorIncOpen n t'
      znsAssignZoneState t' i .implicitlyOpen) fun t' =>
        Inv n Z t' ∧ t'.zones = Function.update t.zones i { z with zs := .implicitlyOpen } := by
  have hothers : ∀ j, j ≠ i → (t.setZone i z).zones j = t.zones j := by
    intro j hj
    simp [ZoneTable.setZone, hj]
  have hu : ((t.setZone i z).assign i .implicitlyOpen).zones =
      Function.update t.zones i { z with zs := .implicitlyOpen } := by
    simp [ZoneTable.assign, ZoneTable.setZone, NvmeZoneState.list]
  have hopened : NvmeZoneState.implicitlyOpen.isOpen = true := rfl
  have hactive : NvmeZoneState.implicitlyOpen.isActive = true := rfl
  have ho := opens_update hi hu
  have ha := actives_update hi hu
  simp only [← hz, hopened, hactive, one_true] at ho ha
  have hoRoom := hroom.opn hzs
  have hlisted : Listed n.numZones (fun _ => True) (t.setZone i z) := h.listed.setZone hz
  have hcounts : Counts n (t.setZone i z) (opens n t) (actives n t) :=
    ⟨h.counts.opn, h.counts.act⟩
  have hassign : ∀ o a, znsAssignZoneState ((t.setZone i z).setCounts n o a) i .implicitlyOpen =
      .ok (((t.setZone i z).assign i .implicitlyOpen).setCounts n o a) := fun o a =>
    assignZoneState_eq (hlisted.setCounts o a) .implicitlyOpen
  have hzone : Z i (((t.setZone i z).assign i .implicitlyOpen).zones i) := by
    rw [hu, Function.update_self]
    exact hZ
  have hinv : Fits n (opens n ((t.setZone i z).assign i .implicitlyOpen))
      (actives n ((t.setZone i z).assign i .implicitlyOpen)) →
      Inv n Z (((t.setZone i z).assign i .implicitlyOpen).recount n) := fun hfits =>
    h.assign hi hothers hlisted (fun _ _ => trivial) trivial hfits hYZ hzone
  by_cases hempty : z.zs = .empty
  · have hno : NvmeZoneState.empty.isOpen = false := rfl
    have hna : NvmeZoneState.empty.isActive = false := rfl
    have haRoom := hroom.act hempty
    simp only [hempty, hno, hna, one_false, Nat.add_zero] at ho ha
    simp only [if_pos hempty, aorIncActive_eq hcounts haRoom, ok_bind,
      aorIncOpen_eq (counts_setCounts _ _) hoRoom, setCounts_setCounts, hassign, safe_ok]
    rw [← ho] at hoRoom ⊢
    rw [← ha] at haRoom ⊢
    exact ⟨hinv ⟨hoRoom, haRoom⟩, hu⟩
  · have hclosed : z.zs = .closed := hzs.resolve_left hempty
    have hno : NvmeZoneState.closed.isOpen = false := rfl
    have hca : NvmeZoneState.closed.isActive = true := rfl
    have haFit := h.fits.act
    simp only [hclosed, hno, hca, one_true, one_false, Nat.add_zero, Nat.add_right_cancel_iff]
      at ho ha
    simp only [if_neg hempty, pure_eq_ok, ok_bind, aorIncOpen_eq hcounts hoRoom, hassign, safe_ok]
    rw [← ho] at hoRoom ⊢
    rw [← ha] at haFit ⊢
    exact ⟨hinv ⟨hoRoom, haFit⟩, hu⟩

theorem advanceZoneWp_eq {nlb : Nat} {z : NvmeZone}
    (hz : z = { t.zones i with wPtr := u64 ((t.zones i).wPtr + nlb) }) :
    znsAdvanceZoneWp n t i nlb =
      if z.wPtr < znsZoneWrBoundary z then do
        let t' ← if z.zs = .empty then znsAorIncActive n (t.setZone i z) else pure (t.setZone i z)
        if z.zs = .empty ∨ z.zs = .closed then
          let t' ← znsAorIncOpen n t'
          return ((t.zones i).wPtr, ← znsAssignZoneState t' i .implicitlyOpen)
        else
          return ((t.zones i).wPtr, t')
      else
        return ((t.zones i).wPtr, t.setZone i z) := by
  have hzones : (t.setZone i z).zones i = z := by simp [ZoneTable.setZone]
  unfold znsAdvanceZoneWp
  rw [← hz]
  simp only [hzones]

/-- Advancing the write pointer opens an empty or closed zone, for which there is
room. Of the zone itself more may be known afterwards than before. -/
theorem advance_inv {Y : Nat → NvmeZone → Prop} (h : Inv n Y t) (hi : i < n.numZones)
    (nlb : Nat) (hroom : Room n t (t.zones i).zs) (hYZ : ∀ j z, j ≠ i → Y j z → Z j z)
    (hZ : Z i (advanced (t.zones i) nlb)) :
    Safe NoFault (znsAdvanceZoneWp n t i nlb) fun r =>
      r.1 = (t.zones i).wPtr ∧ Inv n Z r.2 ∧
        r.2.zones = Function.update t.zones i (advanced (t.zones i) nlb) := by
  obtain ⟨z, hz⟩ : ∃ z : NvmeZone, z = { t.zones i with wPtr := u64 ((t.zones i).wPtr + nlb) } :=
    ⟨_, rfl⟩
  have hstate : z.zs = (t.zones i).zs := by rw [hz]
  have hadv : advanced (t.zones i) nlb =
      if z.wPtr < znsZoneWrBoundary z ∧ (z.zs = .empty ∨ z.zs = .closed) then
        { z with zs := .implicitlyOpen } else z := by rw [hz]; rfl
  rw [advanceZoneWp_eq hz, hadv]
  rw [hadv] at hZ
  by_cases hopen : z.wPtr < znsZoneWrBoundary z ∧ (z.zs = .empty ∨ z.zs = .closed)
  · rw [if_pos hopen] at hZ ⊢
    rw [← hstate] at hroom
    have hopened := openForWrite_inv h hi hstate hopen.2 hroom hYZ hZ
    by_cases hempty : z.zs = .empty
    · simp only [if_pos hopen.1, if_pos hopen.2, if_pos hempty, safe_bind] at hopened ⊢
      refine hopened.imp fun t₁ h₁ => ?_
      exact Safe.imp h₁ fun t₂ h₂ => Safe.imp h₂ fun t₃ h₃ => ⟨rfl, h₃⟩
    · simp only [if_pos hopen.1, if_pos hopen.2, if_neg hempty, safe_bind] at hopened ⊢
      refine Safe.imp hopened fun t₁ h₁ => ?_
      exact Safe.imp h₁ fun t₂ h₂ => Safe.imp h₂ fun t₃ h₃ => ⟨rfl, h₃⟩
  · rw [if_neg hopen] at hZ ⊢
    have hinv : Inv n Z (t.setZone i z) := h.setZone hstate hYZ fun _ => hZ
    split
    · rename_i hbelow
      have hnot : ¬ (z.zs = .empty ∨ z.zs = .closed) := fun hzs => hopen ⟨hbelow, hzs⟩
      have hne : ¬ z.zs = .empty := fun hc => hnot (.inl hc)
      simp only [if_neg hne, if_neg hnot, pure_eq_ok, ok_bind, safe_ok]
      exact ⟨trivial, hinv, rfl⟩
    · exact ⟨rfl, hinv, rfl⟩

/-- The end of a write fills a zone whose pointer reaches its capacity. -/
theorem finalize_inv {Y : Nat → NvmeZone → Prop} (h : Inv n Y t) (hi : i < n.numZones)
    (nlb : Nat) (hYZ : ∀ j z, j ≠ i → Y j z → Z j z) (hZ : Z i (finalized (t.zones i) nlb)) :
    Safe NoFault (znsFinalizeZonedWrite n t i nlb) fun t' =>
      Inv n Z t' ∧ t'.zones = Function.update t.zones i (finalized (t.zones i) nlb) := by
  obtain ⟨z, hz⟩ : ∃ z : NvmeZone, z = { t.zones i with wp := u64 ((t.zones i).wp + nlb) } :=
    ⟨_, rfl⟩
  have hstate : z.zs = (t.zones i).zs := by rw [hz]
  have hzones : (t.setZone i z).zones i = z := by simp [ZoneTable.setZone]
  have hfin : finalized (t.zones i) nlb =
      if z.wp = znsZoneWrBoundary z ∧ z.zs ≠ .full then { z with zs := .full } else z := by
    rw [hz]; rfl
  -- what is known before the state is assigned leaves the zone out
  let W : Nat → NvmeZone → Prop := fun j z => j = i ∨ Z j z
  have hbase : Inv n W (t.setZone i z) :=
    h.setZone hstate (fun j z hj hY => .inr (hYZ j z hj hY)) fun _ => .inl rfl
  have husable : z.zs.Usable := by rw [hstate]; exact h.usable i hi
  unfold znsFinalizeZonedWrite
  rw [← hz]
  simp only [hzones]
  by_cases hfull : z.wp = znsZoneWrBoundary z
  · by_cases hzs : z.zs = .full
    · have hkeep : finalized (t.zones i) nlb = z := hfin.trans (if_neg fun hc => hc.2 hzs)
      have hnot : ¬ (z.zs.isActive = true ∨ z.zs = .empty) := by simp [hzs, NvmeZoneState.isActive]
      rw [hkeep] at hZ ⊢
      rw [if_pos hfull, if_neg hnot, if_pos hzs]
      exact ⟨h.setZone hstate hYZ fun _ => hZ, rfl⟩
    · have hend : finalized (t.zones i) nlb = { z with zs := .full } :=
        hfin.trans (if_pos ⟨hfull, hzs⟩)
      have hact : z.zs.isActive = true ∨ z.zs = .empty := by
        clear hstate hend hbase hfin hzones hfull hz
        cases hc : z.zs <;> simp_all [NvmeZoneState.isActive, NvmeZoneState.Usable]
      have hW : W i ((((t.setZone i z).setZone i z).assign i .full).zones i) := .inl rfl
      obtain ⟨o, a, hrel, hassign, hinv⟩ :=
        hbase.release .full hi (by rw [hzones]) trivial rfl hW
      have htwice : (t.setZone i z).setZone i z = t.setZone i z := by
        simp [ZoneTable.setZone]
      rw [hzones] at hrel
      rw [htwice] at hassign hinv
      rw [hend] at hZ ⊢
      rw [if_pos hfull, if_pos hact, hrel, ok_bind, hassign]
      have hu : (((t.setZone i z).assign i .full).recount n).zones =
          Function.update t.zones i { z with zs := .full } := by
        simp [ZoneTable.recount, ZoneTable.assign, ZoneTable.setZone, NvmeZoneState.list]
      refine ⟨⟨hinv.listed, hinv.counts, hinv.fits, hinv.usable, fun j hj => ?_⟩, hu⟩
      by_cases hji : j = i
      · rw [hu, hji, Function.update_self]
        exact hZ
      · exact (hinv.zone j hj).resolve_left hji
  · have hkeep : finalized (t.zones i) nlb = z := hfin.trans (if_neg fun hc => hfull hc.1)
    rw [hkeep] at hZ ⊢
    rw [if_neg hfull]
    exact ⟨h.setZone hstate hYZ fun _ => hZ, rfl⟩

end Moves

end Femu.Zns

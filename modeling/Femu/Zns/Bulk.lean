import Femu.Zns.Transitions

/-!
# Femu.Zns.Bulk

The loops over whole lists of zones: zone management actions on all zones
(`zns_do_zone_op`) and the shutdown of the namespace. Their bodies take the
current zone out of the list that is walked, and put it into another list or
back at the head of the same one; either way what is still to be visited stays a
suffix of the list.
-/

namespace Femu.Zns

open Nvme Lib

variable {n : ZnsCtrl} {Z : Nat → NvmeZone → Prop} {t : ZoneTable} {i : Nat}

/-! ## actions on all zones -/

/-- An action that keeps the invariant, whatever zone of the table it is applied
to. -/
def Handles (n : ZnsCtrl) (Z : Nat → NvmeZone → Prop) (op : OpHandler) : Prop :=
  ∀ t i, Inv n Z t → i < n.numZones → Safe NoFault (op t i (t.zones i).zs) (Passes n Z t i)

theorem bulkProcZone_passes {op : OpHandler} (hop : Handles n Z op) (m : ProcMask)
    (h : Inv n Z t) (hi : i < n.numZones) :
    Safe NoFault (znsBulkProcZone m op t i) (Passes n Z t i) := by
  unfold znsBulkProcZone
  split
  · exact hop t i h hi
  · exact h.passes _

theorem bulkLoop_inv {op : OpHandler} {r : Status × ZoneTable} (hop : Handles n Z op) (run : Bool)
    (l : ZoneList) (m : ProcMask) (h : Inv n Z r.2) :
    Safe NoFault (bulkLoop run l m op r) fun r => Inv n Z r.2 := by
  unfold bulkLoop
  split
  · let I : List Nat → Status × ZoneTable → Prop := fun rest r =>
      Inv n Z r.2 ∧ Suffix rest (r.2.lists l)
    refine forEachSafe_rule (I := I) (fun _ _ hI => hI.2) ?_ (fun _ hI => hI.1)
      ⟨h, suffix_self (h.listed.nodup l)⟩
    intro i rest r hI
    obtain ⟨hinv, hsuf⟩ := hI
    have hmem : i ∈ r.2.lists l := by
      obtain ⟨pre, hl, -⟩ := hsuf
      simp [hl]
    obtain ⟨hi, hzs⟩ := hinv.of_mem hmem
    simp only [safe_bind]
    refine (bulkProcZone_passes hop m hinv hi).imp fun r' hr' => ?_
    obtain ⟨hinv', hlists⟩ := hr'
    show if stops r'.1 then _ else _
    split
    · exact hinv'
    · refine ⟨hinv', ?_⟩
      obtain hsame | hgone := hlists l hzs
      · rw [hsame]
        exact hsuf.tail
      · rw [hgone]
        exact hsuf.erase
  · exact h

theorem readOnlyLoop_inv {op : OpHandler} {r : Status × ZoneTable} (hop : Handles n Z op)
    (m : ProcMask) (h : Inv n Z r.2) {k : Nat} (hk : i + k ≤ n.numZones) :
    Safe NoFault (readOnlyLoop n m op k i r) fun r => Inv n Z r.2 := by
  induction k generalizing i r with
  | zero => exact h
  | succ k ih =>
      have hi : i < n.numZones := by omega
      simp only [readOnlyLoop, if_pos hi, safe_bind]
      refine (bulkProcZone_passes hop m h hi).imp fun r' hr' => ?_
      split
      · exact hr'.1
      · exact ih hr'.1 (by omega)

/-- The masks that the actions use: the read-only zones are never taken together
with a list, and only from the first zone on. -/
def ProcMask.Sound (m : ProcMask) (zone : Nat) : Prop :=
  m.readOnlyZones = true →
    zone = 0 ∧ m.closedZones = false ∧ m.openedZones = false ∧ m.fullZones = false

theorem doZoneOp_inv {op : OpHandler} {m : ProcMask} (hop : Handles n Z op) (hm : m.Sound i)
    (h : Inv n Z t) (hi : m = {} → i < n.numZones) :
    Safe NoFault (znsDoZoneOp n t i m op) fun r => Inv n Z r.2 := by
  unfold znsDoZoneOp
  split
  · rename_i hm
    exact (hop t i h (hi hm)).imp fun r hr => hr.1
  · simp only [safe_bind]
    refine (bulkLoop_inv hop _ _ _ h).imp fun r₁ h₁ => ?_
    refine (bulkLoop_inv hop _ _ _ h₁).imp fun r₂ h₂ => ?_
    refine (bulkLoop_inv hop _ _ _ h₂).imp fun r₃ h₃ => ?_
    refine (bulkLoop_inv hop _ _ _ h₃).imp fun r₄ h₄ => ?_
    split
    · rename_i hro
      obtain ⟨hzone, hc, ho, hf⟩ := hm hro.1
      subst hzone
      simp only [hc, ho, hf, Bool.false_eq_true, or_self, if_false]
      exact readOnlyLoop_inv hop m h₄ (by omega)
    · exact h₄

/-! ## shutdown -/

/-- A zone taken out of the lists and put at the head of the list of its new
state, if that has a list. -/
theorem listed_cleared {num : Nat} {u : ZoneTable} {z : NvmeZone}
    (h : Listed num (fun _ => True) t) (hi : i < num)
    (hzones : u.zones = Function.update t.zones i z)
    (hlists : ∀ l, u.lists l =
      if z.zs.list = some l then i :: (t.lists l).erase i else (t.lists l).erase i) :
    Listed num (fun _ => True) u where
  mem_iff := by
    intro l j
    have herase := h.mem_erase (i := i) (j := j) l
    have hmem := h.mem_iff l j
    by_cases hj : j = i
    · subst hj
      by_cases hl : z.zs.list = some l
      · simp [hzones, hlists, hl, hi]
      · simp [hzones, hlists, hl, herase]
    · by_cases hl : z.zs.list = some l
      · simp [hzones, hlists, hl, hj, herase, hmem]
      · simp [hzones, hlists, hl, hj, herase, hmem]
  nodup := by
    intro l
    have hn := (h.nodup l).erase i
    have hi' : i ∉ (t.lists l).erase i := fun hmem => (h.mem_erase l).mp hmem |>.1 rfl
    rw [hlists]
    split
    · exact List.nodup_cons.mpr ⟨hi', hn⟩
    · exact hn

/-- The table after a zone has been taken out of the lists, changed, and put at
the head of the list of its new state. -/
def clearedTable (n : ZnsCtrl) (t : ZoneTable) (i : Nat) (z : NvmeZone) : ZoneTable :=
  ZoneTable.recount n { t with
    zones := Function.update t.zones i z
    lists := fun l =>
      if z.zs.list = some l then i :: (t.lists l).erase i else (t.lists l).erase i }

theorem Inv.cleared {z : NvmeZone} (h : Inv n Z t) (hi : i < n.numZones)
    (hmove : ZoneMove (t.zones i) z) (hZ : Stable Z) (hopen : z.zs.isOpen = false)
    (hact : (t.zones i).zs.isActive = true) (husable : z.zs.Usable) :
    Inv n Z (clearedTable n t i z) := by
  have ho := opens_update (n := n) (t := t) (u := clearedTable n t i z) (z := z) hi rfl
  have ha := actives_update (n := n) (t := t) (u := clearedTable n t i z) (z := z) hi rfl
  rw [hopen, one_false] at ho
  rw [hact, one_true] at ha
  have hle : one z.zs.isActive ≤ 1 := by cases z.zs.isActive <;> simp
  refine ⟨listed_cleared h.listed hi rfl fun l => rfl, counts_setCounts _ _,
    h.fits.mono (by omega) (by omega), fun j hj => ?_, fun j hj => ?_⟩
  · by_cases hji : j = i
    · subst hji
      simpa [clearedTable, ZoneTable.recount] using husable
    · simpa [clearedTable, ZoneTable.recount, hji] using h.usable j hj
  · by_cases hji : j = i
    · subst hji
      simpa [clearedTable, ZoneTable.recount] using hZ j _ _ hmove (h.zone j hj)
    · simpa [clearedTable, ZoneTable.recount, hji] using h.zone j hj

/-- The counters of the table after a zone has been cleared. -/
theorem clearedTable_eq {z : NvmeZone} {o a : Nat} (hi : i < n.numZones)
    (ho : opens n t = o + one (t.zones i).zs.isOpen)
    (ha : actives n t = a + one (t.zones i).zs.isActive) (hopen : z.zs.isOpen = false) :
    clearedTable n t i z = ZoneTable.setCounts n { t with
      zones := Function.update t.zones i z
      lists := fun l =>
        if z.zs.list = some l then i :: (t.lists l).erase i else (t.lists l).erase i }
      o (a + one z.zs.isActive) := by
  have ho' := opens_update (n := n) (t := t) (u := clearedTable n t i z) (z := z) hi rfl
  have ha' := actives_update (n := n) (t := t) (u := clearedTable n t i z) (z := z) hi rfl
  rw [hopen, one_false] at ho'
  have h₁ : opens n (clearedTable n t i z) = o := by omega
  have h₂ : actives n (clearedTable n t i z) = a + one z.zs.isActive := by omega
  rw [← h₁, ← h₂]
  rfl

/-- `zns_clear_zone` of an active zone that has been taken out of the lists and
whose resources have been given back. -/
theorem clearZone_inv (hZ : Stable Z) (h : Inv n Z t) (hi : i < n.numZones) {o a : Nat}
    (ho : opens n t = o + one (t.zones i).zs.isOpen) (ha : actives n t = a + 1)
    (hact : (t.zones i).zs.isActive = true) :
    Safe NoFault (znsClearZone n ((t.unlisted i).setCounts n o a) i) fun t' =>
      Inv n Z t' ∧ ∃ z, t' = clearedTable n t i z ∧ (z.zs = .closed ∨ z.zs = .empty) := by
  have ha' : actives n t = a + one (t.zones i).zs.isActive := by rw [hact]; exact ha
  have hzone : (((t.unlisted i).setCounts n o a).zones i) = t.zones i := rfl
  unfold znsClearZone
  simp only [hzone, safe_ite]
  refine ⟨fun hwp => ?_, fun hwp => ?_⟩
  · let z : NvmeZone := { t.zones i with wPtr := (t.zones i).wp, zs := .closed }
    have hinv : Inv n Z (clearedTable n t i z) :=
      h.cleared hi (.clear hact hwp) hZ rfl hact trivial
    have hset : (((t.unlisted i).setCounts n o a).setZone i
        { t.zones i with wPtr := (t.zones i).wp }).setZoneState i .closed =
        ((t.unlisted i).setZone i z).setCounts n o a := by
      simp [ZoneTable.setZoneState, ZoneTable.setZone, ZoneTable.setCounts, ZoneTable.unlisted, z]
    have hroom : n.maxActiveZones ≠ 0 → a + 1 ≤ n.maxActiveZones := by
      have := h.fits.act
      rwa [ha] at this
    have hfree : ¬ (((t.unlisted i).setZone i z).setCounts n o (a + 1)).inUse i := by
      rw [inUse_iff]
      rintro ⟨l, hl⟩
      exact (h.listed.mem_erase l).mp hl |>.1 rfl
    have hlists : Function.update (fun l => (t.lists l).erase i) .closed
        (i :: (t.lists .closed).erase i) = fun l =>
          if some ZoneList.closed = some l then i :: (t.lists l).erase i
          else (t.lists l).erase i := by
      funext l
      by_cases hl : l = .closed
      · simp [hl]
      · simp [hl, Ne.symm hl]
    have hresult : { ((t.unlisted i).setZone i z).setCounts n o (a + 1) with
        lists := Function.update (fun l => (t.lists l).erase i) .closed
          (i :: (t.lists .closed).erase i) } = clearedTable n t i z := by
      rw [clearedTable_eq hi ho ha' rfl, hlists]
      rfl
    rw [hset, aorIncActive_eq (counts_setCounts o a) hroom, ok_bind, setCounts_setCounts,
      ZoneTable.insertHead, if_neg hfree]
    show Inv n Z { ((t.unlisted i).setZone i z).setCounts n o (a + 1) with
        lists := Function.update (fun l => (t.lists l).erase i) .closed
          (i :: (t.lists .closed).erase i) } ∧ _
    exact ⟨hresult ▸ hinv, z, hresult, .inl rfl⟩
  · simp only [not_or, ne_eq, not_not] at hwp
    let z : NvmeZone := { t.zones i with wPtr := (t.zones i).wp, zs := .empty }
    have hinv : Inv n Z (clearedTable n t i z) :=
      h.cleared hi (.clearEmpty hact hwp.1) hZ rfl hact trivial
    have hset : (((t.unlisted i).setCounts n o a).setZone i
        { t.zones i with wPtr := (t.zones i).wp }).setZoneState i .empty =
        clearedTable n t i z := by
      rw [clearedTable_eq hi ho ha' rfl]
      simp [ZoneTable.setZoneState, ZoneTable.setZone, ZoneTable.setCounts, ZoneTable.unlisted, z,
        NvmeZoneState.list, NvmeZoneState.isActive]
    rw [hset]
    exact ⟨hinv, z, rfl, .inr rfl⟩

/-- The state of the zones of a list that a loop of the shutdown goes over. -/
theorem Inv.active_of_mem (h : Inv n Z t) {l : ZoneList} (hl : l ≠ .full) (hmem : i ∈ t.lists l) :
    (t.zones i).zs.isActive = true ∧
      ((t.zones i).zs.isOpen = true ↔ l = .impOpen ∨ l = .expOpen) := by
  have hzs := (h.of_mem hmem).2
  cases hc : (t.zones i).zs <;> simp_all [NvmeZoneState.list]
  all_goals subst hzs
  all_goals simp_all [NvmeZoneState.isActive, NvmeZoneState.isOpen]

/-- The lists after a zone has been cleared: only that of the closed zones can get
it back. -/
theorem clearedTable_lists {z : NvmeZone} (hz : z.zs = .closed ∨ z.zs = .empty) (l : ZoneList) :
    (clearedTable n t i z).lists l = (t.lists l).erase i ∨
      l = .closed ∧ (clearedTable n t i z).lists l = i :: (t.lists l).erase i := by
  show (if z.zs.list = some l then _ else _) = _ ∨ _ ∧ (if z.zs.list = some l then _ else _) = _
  obtain hz | hz := hz
  · rw [hz]
    by_cases hl : l = .closed
    · right
      simp [hl, NvmeZoneState.list]
    · left
      simp [NvmeZoneState.list, Ne.symm hl]
  · left
    simp [hz, NvmeZoneState.list]

/-- The body of a loop of the shutdown, on a zone of the list. -/
theorem shutdownZone_inv (hZ : Stable Z) (h : Inv n Z t) {l : ZoneList} (hl : l ≠ .full)
    (hmem : i ∈ t.lists l) :
    Safe NoFault (shutdownZone n l (decide (l = .impOpen ∨ l = .expOpen)) t i) fun t' =>
      Inv n Z t' ∧ ∀ l', t'.lists l' = (t.lists l').erase i ∨
        l' = .closed ∧ t'.lists l' = i :: (t.lists l').erase i := by
  obtain ⟨hi, -⟩ := h.of_mem hmem
  obtain ⟨hact, hopen⟩ := h.active_of_mem hl hmem
  -- the counts without the zone are those of a table in which it is empty
  have ho : opens n t = opens n (t.assign i .empty) + one (t.zones i).zs.isOpen := by
    simpa [NvmeZoneState.isOpen] using (opens_assign t hi .empty).symm
  have ha : actives n t = actives n (t.assign i .empty) + 1 := by
    have := actives_assign t hi .empty
    rw [hact] at this
    simpa [NvmeZoneState.isActive] using this.symm
  have hle := opens_le_actives n (t.assign i .empty)
  have hcounts : Counts n (t.unlisted i) (opens n t) (actives n t) :=
    ⟨h.counts.opn, h.counts.act⟩
  have hclear := clearZone_inv hZ h hi ho ha hact
  unfold shutdownZone
  rw [remove_eq h.listed hmem, ok_bind]
  have hdone : Safe NoFault (znsClearZone n ((t.unlisted i).setCounts n
      (opens n (t.assign i .empty)) (actives n (t.assign i .empty))) i) fun t' =>
        Inv n Z t' ∧ ∀ l', t'.lists l' = (t.lists l').erase i ∨
          l' = .closed ∧ t'.lists l' = i :: (t.lists l').erase i := by
    refine hclear.imp fun t' ht' => ?_
    obtain ⟨hinv, z, rfl, hz⟩ := ht'
    exact ⟨hinv, clearedTable_lists hz⟩
  by_cases hlist : l = .impOpen ∨ l = .expOpen
  · rw [hopen.mpr hlist, one_true] at ho
    rw [ho, ha] at hcounts
    simp only [hlist, decide_true, if_true, aorDecOpen_eq hcounts, ok_bind,
      aorDecActive_eq (counts_setCounts _ _) hle, setCounts_setCounts]
    exact hdone
  · have hno : (t.zones i).zs.isOpen = false := by
      rw [← Bool.not_eq_true]
      exact fun hc => hlist (hopen.mp hc)
    rw [hno, one_false, Nat.add_zero] at ho
    rw [ho, ha] at hcounts
    simp only [hlist, decide_false, Bool.false_eq_true, if_false, pure_eq_ok, ok_bind,
      aorDecActive_eq hcounts hle]
    exact hdone

/-- A loop of the shutdown keeps the invariant, and empties a list of open zones
without filling another one. -/
theorem shutdownLoop_inv (hZ : Stable Z) (h : Inv n Z t) (l : ZoneList) (hl : l ≠ .full) :
    Safe NoFault (shutdownLoop n l (decide (l = .impOpen ∨ l = .expOpen)) t) fun t' =>
      Inv n Z t' ∧ (l ≠ .closed → t'.lists l = []) ∧
        ∀ l', l' ≠ .closed → t.lists l' = [] → t'.lists l' = [] := by
  let I : List Nat → ZoneTable → Prop := fun rest t' =>
    Inv n Z t' ∧ Suffix rest (t'.lists l) ∧ (l ≠ .closed → t'.lists l = rest) ∧
      ∀ l', l' ≠ .closed → t.lists l' = [] → t'.lists l' = []
  refine forEachSafe_rule (I := I) (fun _ _ hI => hI.2.1) ?_ (fun _ hI => ⟨hI.1, hI.2.2⟩)
    ⟨h, suffix_self (h.listed.nodup l), fun _ => rfl, fun _ _ hnil => hnil⟩
  intro i rest t' hI
  obtain ⟨hinv, hsuf, hrest, hnil⟩ := hI
  have hmem : i ∈ t'.lists l := by
    obtain ⟨pre, hl', -⟩ := hsuf
    simp [hl']
  rw [safe_bind]
  refine (shutdownZone_inv hZ hinv hl hmem).imp fun t'' h'' => ?_
  obtain ⟨hinv', hlists⟩ := h''
  have hother : ∀ l', l' ≠ .closed → t''.lists l' = (t'.lists l').erase i := fun l' hne =>
    (hlists l').resolve_right fun hc => hne hc.1
  refine ⟨hinv', ?_, fun hne => ?_, fun l' hne h0 => ?_⟩
  · obtain hl' | ⟨-, hl'⟩ := hlists l
    · rw [hl']
      exact hsuf.erase
    · rw [hl']
      exact hsuf.erase.cons fun hc => (hinv.listed.mem_erase l).mp hc |>.1 rfl
  · rw [hother l hne, hrest hne, List.erase_cons_head]
  · rw [hother l' hne, hnil l' hne h0, List.erase_nil]

/-- A namespace that is shut down has no open zone left. -/
theorem zonedNsShutdown_inv (hZ : Stable Z) (h : Inv n Z t) :
    Safe NoFault (znsZonedNsShutdown n t) (Inv n Z) := by
  unfold znsZonedNsShutdown
  simp only [safe_bind]
  refine (shutdownLoop_inv hZ h .closed (by simp)).imp fun t₁ h₁ => ?_
  refine (shutdownLoop_inv hZ h₁.1 .impOpen (by simp)).imp fun t₂ h₂ => ?_
  refine (shutdownLoop_inv hZ h₂.1 .expOpen (by simp)).imp fun t₃ h₃ => ?_
  have himp : t₃.lists .impOpen = [] := h₃.2.2 .impOpen (by simp) (h₂.2.1 (by simp))
  have hexp : t₃.lists .expOpen = [] := h₃.2.1 (by simp)
  have hzero : opens n t₃ = 0 := by
    refine countBelow_eq_zero _ _ _ fun i hi hopen => ?_
    have himp' := (h₃.1.listed.mem_iff .impOpen i)
    have hexp' := (h₃.1.listed.mem_iff .expOpen i)
    simp only [himp, hexp, List.not_mem_nil, false_iff, not_and] at himp' hexp'
    cases hzs : (t₃.zones i).zs <;>
      simp_all [NvmeZoneState.isOpen, NvmeZoneState.list]
  have hnr : t₃.nrOpenZones = 0 := by
    have := h₃.1.counts.opn
    rw [hzero] at this
    simpa using this
  simp [hnr, h₃.1]

theorem nsShutdown_inv (hZ : Stable Z) (h : Inv n Z t) :
    Safe NoFault (znsNsShutdown n t) (Inv n Z) := by
  unfold znsNsShutdown
  split
  · exact zonedNsShutdown_inv hZ h
  · exact h

end Femu.Zns

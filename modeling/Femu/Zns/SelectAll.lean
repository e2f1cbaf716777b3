import Femu.Zns.Bulk
import Femu.Zns.WritePointer

/-!
# Femu.Zns.SelectAll

Zone management actions on all zones: `zns_do_zone_op` walks the lists of its mask
while the handler takes the current zone out of its list and may append it to
another one. It handles every zone that the mask selects exactly once, because a
handled zone is no longer selected, and a list that has been walked is empty and
stays so.

The loops are written a second time with a log of the zones handled; without the
log they are the ones of `znsDoZoneOp`.
-/

namespace Femu.Zns

open Nvme Lib

variable {n : ZnsCtrl} {Z : Nat → NvmeZone → Prop} {i : Nat}

/-! ## the loops with a log -/

/-- The zones handled so far, with what the loops carry. -/
abbrev Logged : Type := List Nat × Status × ZoneTable

/-- `zns_bulk_proc_zone`, with the zone written down if it is handled. -/
def loggedProcZone (m : ProcMask) (op : OpHandler) (r : Logged) (i : Nat) : Except Fault Logged := do
  let r' ← znsBulkProcZone m op r.2.2 i
  return (if m.selects (r.2.2.zones i).zs then r.1 ++ [i] else r.1, r')

/-- `bulkLoop` with the log. -/
def loggedLoop (run : Bool) (l : ZoneList) (m : ProcMask) (op : OpHandler) (r : Logged) :
    Except Fault Logged :=
  if run ∧ ¬ stops r.2.1 then
    forEachSafe (fun r => r.2.2.lists l)
      (fun r i => do
        let r ← loggedProcZone m op r i
        return (r, stops r.2.1))
      .queue r
  else
    pure r

/-- The loops of `zns_do_zone_op` over the lists, with the log. -/
def loggedZoneOp (t : ZoneTable) (m : ProcMask) (op : OpHandler) : Except Fault Logged := do
  let r ← loggedLoop m.closedZones .closed m op ([], nvmeSuccess, t)
  let r ← loggedLoop m.openedZones .impOpen m op r
  let r ← loggedLoop m.openedZones .expOpen m op r
  loggedLoop m.fullZones .full m op r

theorem bulkLoop_eq_logged (run : Bool) (l : ZoneList) (m : ProcMask) (op : OpHandler)
    (r : Logged) : bulkLoop run l m op r.2 = (loggedLoop run l m op r).map Prod.snd := by
  unfold bulkLoop loggedLoop
  split
  · refine @forEachSafe_map (Status × ZoneTable) Fault Nat _ Logged Prod.snd _ _ _ _ .queue
      (fun _ => rfl) (fun r i => ?_) r
    unfold loggedProcZone
    cases znsBulkProcZone m op r.2.2 i with
    | error f => rfl
    | ok r' => rfl
  · rfl

theorem bind_map_snd {α β γ : Type} (x : Except Fault (α × β)) (f : β → Except Fault γ) :
    (x.map Prod.snd >>= f) = (x >>= fun r => f r.2) := by
  cases x with
  | error e => rfl
  | ok r => rfl

/-- Without the log, the loops are those of `zns_do_zone_op`. -/
theorem doZoneOp_eq_logged {m : ProcMask} {op : OpHandler} (t : ZoneTable) (zone : Nat)
    (hm : m ≠ {}) (hro : m.readOnlyZones = false) :
    znsDoZoneOp n t zone m op = (loggedZoneOp t m op).map Prod.snd := by
  unfold znsDoZoneOp loggedZoneOp
  rw [if_neg hm]
  simp only [hro, Bool.false_eq_true, false_and, if_false, pure_eq_ok]
  rw [bulkLoop_eq_logged _ _ _ _ ([], nvmeSuccess, t), bind_map_snd]
  cases loggedLoop m.closedZones .closed m op ([], nvmeSuccess, t) with
  | error e => rfl
  | ok r₁ =>
    simp only [ok_bind]
    rw [bulkLoop_eq_logged, bind_map_snd]
    cases loggedLoop m.openedZones .impOpen m op r₁ with
    | error e => rfl
    | ok r₂ =>
      simp only [ok_bind]
      rw [bulkLoop_eq_logged, bind_map_snd]
      cases loggedLoop m.openedZones .expOpen m op r₂ with
      | error e => rfl
      | ok r₃ =>
        simp only [ok_bind]
        rw [bulkLoop_eq_logged, bind_map_snd]
        cases loggedLoop m.fullZones .full m op r₃ with
        | error e => rfl
        | ok r₄ => rfl

/-! ## lists and masks -/

/-- Whether the loops of a mask go over the list. -/
def ProcMask.takes (m : ProcMask) : ZoneList → Bool
  | .expOpen => m.openedZones
  | .impOpen => m.openedZones
  | .closed => m.closedZones
  | .full => m.fullZones

/-- The zones of a list are selected exactly if the loops go over it. -/
theorem selects_of_list {m : ProcMask} {zs : NvmeZoneState} {l : ZoneList}
    (h : zs.list = some l) : m.selects zs = m.takes l := by
  cases zs <;> cases h <;> rfl

/-- A selected zone is in a list that the loops go over. -/
theorem list_of_selects {m : ProcMask} {zs : NvmeZoneState} (hro : m.readOnlyZones = false)
    (h : m.selects zs = true) : ∃ l, zs.list = some l ∧ m.takes l = true := by
  cases zs with
  | implicitlyOpen => exact ⟨.impOpen, rfl, h⟩
  | explicitlyOpen => exact ⟨.expOpen, rfl, h⟩
  | closed => exact ⟨.closed, rfl, h⟩
  | full => exact ⟨.full, rfl, h⟩
  | readOnly => exact absurd h (by simp [ProcMask.selects, hro])
  | reserved => cases h
  | empty => cases h
  | offline => cases h

/-! ## handling every selected zone once -/

/-- What a handler does to a zone that the mask selects: it succeeds, takes the zone
out of its list, and leaves it as `g` says, no longer selected. -/
structure Effect (n : ZnsCtrl) (Z : Nat → NvmeZone → Prop) (m : ProcMask) (op : OpHandler)
    (g : NvmeZone → NvmeZone) : Prop where
  left : ∀ z, m.selects (g z).zs = false
  run : ∀ t i, Inv n Z t → i < n.numZones → m.selects (t.zones i).zs = true →
    ∃ t', op t i (t.zones i).zs = .ok (nvmeSuccess, t') ∧ Inv n Z t' ∧
      t'.zones = Function.update t.zones i (g (t.zones i)) ∧
      ∀ l, (t.zones i).zs.list = some l → t'.lists l = (t.lists l).erase i

section Sweep

variable {m : ProcMask} {op : OpHandler} {g : NvmeZone → NvmeZone} {t₀ t t' : ZoneTable}

/-- The table after the zones of the log have been handled, from the table `t₀`. -/
structure Processed (n : ZnsCtrl) (Z : Nat → NvmeZone → Prop) (m : ProcMask)
    (g : NvmeZone → NvmeZone) (t₀ : ZoneTable) (log : List Nat) (t : ZoneTable) : Prop where
  inv : Inv n Z t
  nodup : log.Nodup
  selected : ∀ i ∈ log, i < n.numZones ∧ m.selects (t₀.zones i).zs = true
  zones : ∀ i, t.zones i = if i ∈ log then g (t₀.zones i) else t₀.zones i

theorem Inv.processed (h : Inv n Z t) : Processed n Z m g t [] t :=
  ⟨h, List.nodup_nil, by simp, by simp⟩

/-- A zone that is still selected has not been handled. -/
theorem Processed.not_mem (heff : Effect n Z m op g) {log : List Nat}
    (h : Processed n Z m g t₀ log t) (hsel : m.selects (t.zones i).zs = true) :
    i ∉ log ∧ t.zones i = t₀.zones i := by
  have hzone := h.zones i
  by_cases hi : i ∈ log
  · rw [hzone, if_pos hi, heff.left] at hsel
    cases hsel
  · exact ⟨hi, by rw [hzone, if_neg hi]⟩

/-- **Step lemma**: handling one more zone. -/
theorem Processed.step (heff : Effect n Z m op g) {log : List Nat}
    (h : Processed n Z m g t₀ log t) (hi : i < n.numZones)
    (hsel : m.selects (t.zones i).zs = true) (hinv : Inv n Z t')
    (hzones : t'.zones = Function.update t.zones i (g (t.zones i))) :
    Processed n Z m g t₀ (log ++ [i]) t' := by
  obtain ⟨hnot, hsame⟩ := h.not_mem heff hsel
  refine ⟨hinv, ?_, fun j hj => ?_, fun j => ?_⟩
  · exact List.nodup_append.mpr ⟨h.nodup, by simp, by grind⟩
  · obtain hj | hj := List.mem_append.mp hj
    · exact h.selected j hj
    · obtain rfl := List.mem_singleton.mp hj
      exact ⟨hi, hsame ▸ hsel⟩
  · by_cases hji : j = i
    · subst hji
      simp [hzones, hsame]
    · simpa [hzones, hji] using h.zones j

/-- A handled zone does not go into a list that the loops go over. -/
theorem lists_nil_step (heff : Effect n Z m op g) (h : Inv n Z t) (h' : Inv n Z t')
    (hzones : t'.zones = Function.update t.zones i (g (t.zones i))) {l : ZoneList}
    (hl : m.takes l = true) (hnil : t.lists l = []) : t'.lists l = [] := by
  refine List.eq_nil_iff_forall_not_mem.mpr fun j hj => ?_
  obtain ⟨hjn, hlist⟩ := h'.of_mem hj
  by_cases hji : j = i
  · subst hji
    rw [hzones, Function.update_self] at hlist
    have hleft := heff.left (t.zones j)
    rw [selects_of_list hlist, hl] at hleft
    cases hleft
  · rw [hzones, Function.update_of_ne hji] at hlist
    have hmem := (h.listed.mem_iff l j).mpr ⟨hjn, trivial, hlist⟩
    simp [hnil] at hmem

/-- The loops so far have ended well and have emptied the lists in `S`. -/
structure Swept (n : ZnsCtrl) (Z : Nat → NvmeZone → Prop) (m : ProcMask)
    (g : NvmeZone → NvmeZone) (t₀ : ZoneTable) (S : ZoneList → Prop) (r : Logged) : Prop where
  status : r.2.1 = nvmeSuccess
  processed : Processed n Z m g t₀ r.1 r.2.2
  emptied : ∀ l, S l → m.takes l = true → r.2.2.lists l = []

/-- **Loop lemma**: a loop handles the zones of its list and empties it. -/
theorem loggedLoop_swept (heff : Effect n Z m op g) {S : ZoneList → Prop} {l : ZoneList}
    {r : Logged} (h : Swept n Z m g t₀ S r) :
    Safe NoFault (loggedLoop (m.takes l) l m op r)
      (Swept n Z m g t₀ fun l' => l' = l ∨ S l') := by
  have hgo : ¬ stops r.2.1 := by rw [h.status]; decide
  unfold loggedLoop
  by_cases hrun : m.takes l = true
  · rw [if_pos ⟨hrun, hgo⟩]
    let I : List Nat → Logged → Prop := fun rest r =>
      Swept n Z m g t₀ S r ∧ r.2.2.lists l = rest
    refine forEachSafe_rule (I := I) (fun rest r hI => ?_) (fun i rest r hI => ?_)
      (fun r hI => ?_) ⟨h, rfl⟩
    · rw [← hI.2]
      exact suffix_self (hI.1.processed.inv.listed.nodup l)
    · obtain ⟨⟨hstatus, hproc, hemptied⟩, hrest⟩ := hI
      obtain ⟨hi, hlist⟩ := hproc.inv.of_mem (hrest ▸ List.mem_cons_self)
      have hsel : m.selects (r.2.2.zones i).zs = true := (selects_of_list hlist).trans hrun
      obtain ⟨t', hop, hinv', hzones, hgone⟩ := heff.run _ i hproc.inv hi hsel
      have hstep : loggedProcZone m op r i = .ok (r.1 ++ [i], nvmeSuccess, t') := by
        simp [loggedProcZone, znsBulkProcZone, hsel, hop]
      have hon : stops nvmeSuccess = false := rfl
      rw [hstep, ok_bind]
      simp only [hon, pure_eq_ok, safe_ok, Bool.false_eq_true, if_false]
      refine ⟨⟨rfl, hproc.step heff hi hsel hinv' hzones, fun l' hS hl' => ?_⟩, ?_⟩
      · exact lists_nil_step heff hproc.inv hinv' hzones hl' (hemptied l' hS hl')
      · exact (hgone l hlist).trans (by rw [hrest, List.erase_cons_head])
    · refine ⟨hI.1.status, hI.1.processed, fun l' hS hl' => ?_⟩
      obtain rfl | hS := hS
      · exact hI.2
      · exact hI.1.emptied l' hS hl'
  · rw [if_neg fun hc => hrun hc.1]
    refine ⟨h.status, h.processed, fun l' hS hl' => ?_⟩
    obtain rfl | hS := hS
    · exact absurd hl' hrun
    · exact h.emptied l' hS hl'

theorem ok_of_noFault {α : Type} {x : Except Fault α} {P : α → Prop} (h : Safe NoFault x P) :
    ∃ a, x = .ok a ∧ P a := by
  cases x with
  | ok a => exact ⟨a, rfl, h⟩
  | error f => exact h.elim

/-- An action that has been applied to all zones of the mask: the handler has been
called once on each zone that the mask selects, and these zones alone have
changed. -/
structure AppliedToAll (n : ZnsCtrl) (m : ProcMask) (op : OpHandler) (g : NvmeZone → NvmeZone)
    (t t' : ZoneTable) : Prop where
  once : ∃ log, loggedZoneOp t m op = .ok (log, nvmeSuccess, t') ∧ log.Nodup ∧
    ∀ i, i ∈ log ↔ i < n.numZones ∧ m.selects (t.zones i).zs = true
  zones : ∀ i, t'.zones i =
    if i < n.numZones ∧ m.selects (t.zones i).zs = true then g (t.zones i) else t.zones i

/-- **Every selected zone is handled once.** -/
theorem zoneOp_appliedToAll (heff : Effect n Z m op g) (hro : m.readOnlyZones = false)
    (h : Inv n Z t) : ∃ t', Inv n Z t' ∧ AppliedToAll n m op g t t' := by
  have hrun : Safe NoFault (loggedZoneOp t m op) (Swept n Z m g t fun _ => True) := by
    unfold loggedZoneOp
    have hstart : Swept n Z m g t (fun _ => False) ([], nvmeSuccess, t) :=
      ⟨rfl, h.processed, fun _ hS => hS.elim⟩
    rw [safe_bind]
    refine Safe.imp (loggedLoop_swept (l := .closed) heff hstart) fun r₁ h₁ => ?_
    rw [safe_bind]
    refine Safe.imp (loggedLoop_swept (l := .impOpen) heff h₁) fun r₂ h₂ => ?_
    rw [safe_bind]
    refine Safe.imp (loggedLoop_swept (l := .expOpen) heff h₂) fun r₃ h₃ => ?_
    refine Safe.imp (loggedLoop_swept (l := .full) heff h₃) fun r₄ h₄ => ?_
    refine ⟨h₄.status, h₄.processed, fun l _ hl => h₄.emptied l ?_ hl⟩
    cases l <;> simp
  obtain ⟨r, hlog, hswept⟩ := ok_of_noFault hrun
  obtain ⟨log, status, t'⟩ := r
  obtain ⟨rfl, hproc, hemptied⟩ := hswept
  have hmem : ∀ i, i ∈ log ↔ i < n.numZones ∧ m.selects (t.zones i).zs = true := by
    intro i
    refine ⟨hproc.selected i, fun hi => ?_⟩
    by_contra hnot
    have hzone : t'.zones i = t.zones i := by rw [hproc.zones, if_neg hnot]
    obtain ⟨l, hlist, hl⟩ := list_of_selects hro hi.2
    have hin := (hproc.inv.listed.mem_iff l i).mpr ⟨hi.1, trivial, hzone ▸ hlist⟩
    have hnil : t'.lists l = [] := hemptied l trivial hl
    simp [hnil] at hin
  refine ⟨t', hproc.inv, ⟨log, hlog, hproc.nodup, hmem⟩, fun i => ?_⟩
  simp only [← hmem]
  exact hproc.zones i

end Sweep

/-! ## zones in their places -/

/-- The zone `i` lies where the geometry puts it. -/
def Placed (n : ZnsCtrl) (i : Nat) (z : NvmeZone) : Prop :=
  i < n.numZones → z.zslba = i * n.zoneSize ∧ z.zcap = n.zoneCapacity

theorem stable_placed (n : ZnsCtrl) : Stable (Placed n) := by
  intro i z z' hmove h
  cases hmove <;> exact h

theorem Placed.advanced {z : NvmeZone} (h : Placed n i z) (nlb : Nat) :
    Placed n i (advanced z nlb) := by
  unfold Zns.advanced
  dsimp only
  split <;> exact h

theorem Placed.finalized {z : NvmeZone} (h : Placed n i z) (nlb : Nat) :
    Placed n i (finalized z nlb) := by
  unfold Zns.finalized
  dsimp only
  split <;> exact h

theorem writeKeeps_placed {s : ZnsState} (h : Inv n (Placed n) s.zt) (req : NvmeRequest)
    (append : Bool) : WriteKeeps n (Placed n) s req append := by
  intro i hacc
  have hzone := h.zone i hacc.1
  exact ⟨fun _ => hzone.advanced _, fun _ => (hzone.advanced _).finalized _⟩

theorem step_placed {sys : System} (h : Inv n (Placed n) sys.dev.zt) (ev : Event) :
    Safe CmdFault (sys.step n ev) fun sys' => Inv n (Placed n) sys'.dev.zt := by
  refine step_inv (stable_placed n) h ev ?_
  match ev with
  | .host _ => trivial
  | .shutdown => trivial
  | .cmd .read _ _ => trivial
  | .cmd .mgmtSend _ _ => trivial
  | .cmd .write slot c => exact fun _ => writeKeeps_placed h _ _
  | .cmd .append slot c => exact fun _ => writeKeeps_placed h _ _

/-! ## the actions -/

/-- A closed zone. -/
def NvmeZone.close (z : NvmeZone) : NvmeZone := { z with zs := .closed }

/-- A full zone, with the pointers at its capacity. -/
def NvmeZone.finish (z : NvmeZone) : NvmeZone :=
  { z with zs := .full, wp := z.zslba + z.zcap, wPtr := z.zslba + z.zcap }

/-- An empty zone, with the pointers at its start. -/
def NvmeZone.reset (z : NvmeZone) : NvmeZone :=
  { z with zs := .empty, za := 0, wp := z.zslba, wPtr := z.zslba }

/-- The masks of the actions on all zones. -/
def closeMask : ProcMask := { openedZones := true }
def finishMask : ProcMask := { openedZones := true, closedZones := true }
def resetMask : ProcMask := { openedZones := true, closedZones := true, fullZones := true }

theorem closeMask_selects (zs : NvmeZoneState) : closeMask.selects zs = zs.isOpen := by
  cases zs <;> rfl

theorem finishMask_selects (zs : NvmeZoneState) : finishMask.selects zs = zs.isActive := by
  cases zs <;> rfl

theorem resetMask_selects (zs : NvmeZoneState) :
    resetMask.selects zs = true ↔ zs.isActive = true ∨ zs = .full := by
  cases zs <;> decide

theorem close_effect (hZ : Stable Z) : Effect n Z closeMask (znsCloseZone n) NvmeZone.close where
  left := fun _ => rfl
  run := by
    intro t i h hi hsel
    rw [closeMask_selects] at hsel
    obtain ⟨hrun, hinv⟩ := closeZone_open hZ h hi hsel
    have hne : (t.zones i).zs ≠ .closed := fun hc => by simp [hc, NvmeZoneState.isOpen] at hsel
    refine ⟨_, hrun, hinv, ?_, fun l hl => assign_lists (list_ne hne hl)⟩
    simp [ZoneTable.recount, ZoneTable.assign, NvmeZoneState.list, NvmeZone.close]

theorem finish_effect (hgeo : Geometry n) :
    Effect n (Placed n) finishMask (znsFinishZone n) NvmeZone.finish where
  left := fun _ => rfl
  run := by
    intro t i h hi hsel
    rw [finishMask_selects] at hsel
    obtain ⟨hrun, hinv⟩ := finishZone_unfinished (stable_placed n) h hi (.inl hsel) rfl
    obtain ⟨hzslba, hzcap⟩ := h.zone i hi hi
    have hbound := hgeo.boundary_eq hi hzslba hzcap
    have hne : (t.zones i).zs ≠ .full := fun hc => by simp [hc, NvmeZoneState.isActive] at hsel
    refine ⟨_, hrun, hinv, ?_, fun l hl => assign_lists (list_ne hne hl)⟩
    simp [ZoneTable.recount, ZoneTable.assign, ZoneTable.setZone, NvmeZoneState.list,
      NvmeZone.finish, NvmeZone.setPointers, hbound]

theorem reset_effect (hZ : Stable Z) : Effect n Z resetMask (znsResetZone n) NvmeZone.reset where
  left := fun _ => rfl
  run := by
    intro t i h hi hsel
    rw [resetMask_selects] at hsel
    obtain ⟨hrun, hinv⟩ := resetZone_written hZ h hi hsel rfl
    have hne : (t.zones i).zs ≠ .empty := fun hc => by simp [hc, NvmeZoneState.isActive] at hsel
    refine ⟨_, hrun, hinv, ?_, fun l hl => assign_lists (list_ne hne hl)⟩
    simp [ZoneTable.recount, ZoneTable.assign, ZoneTable.setZone, NvmeZoneState.list,
      NvmeZone.reset, NvmeZone.setPointers]

/-! ## the commands -/

/-- Every zone that was open, closed or full is empty, and no resource is taken. -/
structure ResetAll (n : ZnsCtrl) (t t' : ZoneTable) : Prop where
  applied : AppliedToAll n resetMask (znsResetZone n) NvmeZone.reset t t'
  lists : ∀ l, t'.lists l = []
  nrOpen : t'.nrOpenZones = 0
  nrActive : t'.nrActiveZones = 0

/-- Every zone that was open or closed is full, and no zone is open or closed. -/
structure FinishAll (n : ZnsCtrl) (t t' : ZoneTable) : Prop where
  applied : AppliedToAll n finishMask (znsFinishZone n) NvmeZone.finish t t'
  inactive : ∀ i < n.numZones, (t'.zones i).zs.isActive = false

/-- Every zone that was open is closed, with its active resource. -/
structure CloseAll (n : ZnsCtrl) (t t' : ZoneTable) : Prop where
  applied : AppliedToAll n closeMask (znsCloseZone n) NvmeZone.close t t'
  nrOpen : t'.nrOpenZones = 0
  nrActive : t'.nrActiveZones = t.nrActiveZones

section Tables

variable {t t' : ZoneTable}

theorem Inv.no_open (h : Inv n Z t) (hzs : ∀ i < n.numZones, (t.zones i).zs.isOpen = false) :
    t.nrOpenZones = 0 := by
  have hzero : opens n t = 0 := countBelow_eq_zero _ _ _ fun i hi => by simp [hzs i hi]
  have hcount := h.counts.opn
  simpa [hzero] using hcount

theorem Inv.no_active (h : Inv n Z t) (hzs : ∀ i < n.numZones, (t.zones i).zs.isActive = false) :
    t.nrActiveZones = 0 := by
  have hzero : actives n t = 0 := countBelow_eq_zero _ _ _ fun i hi => by simp [hzs i hi]
  have hcount := h.counts.act
  simpa [hzero] using hcount

/-- The state of a zone after an action on all zones. -/
theorem AppliedToAll.state {m : ProcMask} {op : OpHandler} {g : NvmeZone → NvmeZone}
    (h : AppliedToAll n m op g t t') (hi : i < n.numZones) :
    (t'.zones i).zs =
      if m.selects (t.zones i).zs = true then (g (t.zones i)).zs else (t.zones i).zs := by
  rw [h.zones, apply_ite NvmeZone.zs]
  simp [hi]

theorem resetAll_of_applied (h' : Inv n Z t')
    (happ : AppliedToAll n resetMask (znsResetZone n) NvmeZone.reset t t')
    (h : Inv n Z t) : ResetAll n t t' := by
  have hempty : ∀ i < n.numZones, (t'.zones i).zs = .empty := by
    intro i hi
    rw [happ.state hi]
    split
    · rfl
    · rename_i hsel
      have husable := h.usable i hi
      rw [resetMask_selects] at hsel
      cases hzs : (t.zones i).zs <;>
        simp_all [NvmeZoneState.isActive, NvmeZoneState.Usable]
  refine ⟨happ, fun l => ?_, h'.no_open fun i hi => ?_, h'.no_active fun i hi => ?_⟩
  · refine List.eq_nil_iff_forall_not_mem.mpr fun j hj => ?_
    obtain ⟨hjn, hlist⟩ := h'.of_mem hj
    simp [hempty j hjn, NvmeZoneState.list] at hlist
  · rw [hempty i hi]
    rfl
  · rw [hempty i hi]
    rfl

theorem finishAll_of_applied
    (happ : AppliedToAll n finishMask (znsFinishZone n) NvmeZone.finish t t') :
    FinishAll n t t' := by
  refine ⟨happ, fun i hi => ?_⟩
  rw [happ.state hi]
  split
  · rfl
  · rename_i hsel
    rw [finishMask_selects] at hsel
    simpa using hsel

theorem closeAll_of_applied (h' : Inv n Z t')
    (happ : AppliedToAll n closeMask (znsCloseZone n) NvmeZone.close t t')
    (h : Inv n Z t) : CloseAll n t t' := by
  refine ⟨happ, h'.no_open fun i hi => ?_, ?_⟩
  · rw [happ.state hi]
    split
    · rfl
    · rename_i hsel
      rw [closeMask_selects] at hsel
      simpa using hsel
  · have hsame : ∀ i < n.numZones, (t'.zones i).zs.isActive = (t.zones i).zs.isActive := by
      intro i hi
      rw [happ.state hi]
      split
      · rename_i hsel
        rw [closeMask_selects] at hsel
        rw [isActive_of_isOpen hsel]
        rfl
      · rfl
    have hcount : actives n t' = actives n t := by
      unfold actives countBelow
      refine congrArg Finset.card (Finset.filter_congr fun i hi => ?_)
      simp only [hsame i (Finset.mem_range.mp hi)]
    rw [h'.counts.act, h.counts.act, hcount]

end Tables

/-- A zone management send command with the action and the select-all bit. -/
def SelectsAll (c : NvmeCmd) (action : Nat) : Prop :=
  c.cdw13.toNat % 0x100 = action ∧ c.cdw13.toNat.testBit 8 = true

/-- Reset, finish and close with the select-all bit succeed and are complete. -/
structure SelectAllOk (n : ZnsCtrl) (sys : System) : Prop where
  reset : ∀ slot c, SelectsAll c nvmeZoneActionReset → ∃ sys',
    sys.exec n .mgmtSend slot c = .ok (nvmeSuccess, sys') ∧ ResetAll n sys.dev.zt sys'.dev.zt
  finish : ∀ slot c, SelectsAll c nvmeZoneActionFinish → ∃ sys',
    sys.exec n .mgmtSend slot c = .ok (nvmeSuccess, sys') ∧ FinishAll n sys.dev.zt sys'.dev.zt
  close : ∀ slot c, SelectsAll c nvmeZoneActionClose → ∃ sys',
    sys.exec n .mgmtSend slot c = .ok (nvmeSuccess, sys') ∧ CloseAll n sys.dev.zt sys'.dev.zt

/-- An action on all zones starts from the first zone. -/
theorem exec_selectAll {sys : System} {c : NvmeCmd} {action : Nat} {m : ProcMask} {op : OpHandler}
    {g : NvmeZone → NvmeZone} {zt : ZoneTable} (hc : SelectsAll c action) (slot : Nat)
    (hact : sendAction n action true = some (m, op)) (hm : m ≠ {}) (hro : m.readOnlyZones = false)
    (hzslba : sys.dev.zt.zslbaAt n 0 = 0)
    (happ : AppliedToAll n m op g sys.dev.zt zt) :
    ∃ sys', sys.exec n .mgmtSend slot c = .ok (nvmeSuccess, sys') ∧ sys'.dev.zt = zt := by
  obtain ⟨haction, hall⟩ := hc
  obtain ⟨log, hlog, -⟩ := happ.once
  have hop : znsDoZoneOp n sys.dev.zt 0 m op = .ok (nvmeSuccess, zt) := by
    rw [doZoneOp_eq_logged _ _ hm hro, hlog]
    rfl
  have hsend : sendToZone n c 0 0 sys.dev = .ok (nvmeSuccess, { sys.dev with zt := zt }) := by
    unfold sendToZone
    simp only [hall, haction, hact, hop, hzslba, if_false, ok_bind, pure_eq_ok, ne_eq,
      not_true_eq_false, if_true, ite_self]
  refine ⟨⟨{ sys.dev with zt := zt }, Function.update sys.slots slot (sys.fetch slot c)⟩, ?_, rfl⟩
  show (znsZoneMgmtSend n (sys.fetch slot c) sys.dev >>= _) = _
  unfold znsZoneMgmtSend
  simp only [fetch_cmd, hall, if_true, pure_eq_ok, ok_bind, ne_eq, not_true_eq_false, if_false,
    hsend]

/-- The first zone starts at 0, and so does an array without zones. -/
theorem Inv.zslbaAt_zero {t : ZoneTable} (h : Inv n (Placed n) t) : t.zslbaAt n 0 = 0 := by
  by_cases hzero : n.numZones = 0
  · exact if_pos hzero
  · have hpos : 0 < n.numZones := Nat.pos_of_ne_zero hzero
    rw [ZoneTable.zslbaAt_eq hpos, (h.zone 0 hpos hpos).1, Nat.zero_mul]

/-- **Select-all actions**: in every state that a run reaches from an accepted
configuration, reset, finish and close on all zones succeed and are complete. -/
theorem select_all_complete {n₀ n₁ : ZnsCtrl} {zt : ZoneTable}
    (hgeo : znsInitZoneGeometry n₀ = some n₁) (hinit : znsInitZonedState n₁ = some (n, zt))
    {mem : Mem} {mb zdExtensions : Bytes} {slots : Nat → NvmeRequest} {evs : List Event}
    {sys : System}
    (hrun : runE (System.step n) evs ⟨⟨zt, mem, mb, zdExtensions⟩, slots⟩ = .ok sys) :
    SelectAllOk n sys := by
  have hstart := started_of_init hgeo hinit
  have hall : Along (System.step n) (fun _ _ => True) evs ⟨⟨zt, mem, mb, zdExtensions⟩, slots⟩ :=
    along_of_forall (fun _ _ => trivial) evs _
  have hinv : Inv n (Placed n) sys.dev.zt :=
    (runE_safe (I := fun sys : System => Inv n (Placed n) sys.dev.zt)
      (fun _ ev h _ => step_placed h ev)
      (hstart.inv.weaken fun j z hz hj => ⟨(hz hj).zslba_eq, (hz hj).zcap_eq⟩) hall).of_ok hrun
  have hzslba := hinv.zslbaAt_zero
  refine ⟨fun slot c hc => ?_, fun slot c hc => ?_, fun slot c hc => ?_⟩
  · obtain ⟨zt', hinv', happ⟩ := zoneOp_appliedToAll (reset_effect (stable_placed n)) rfl hinv
    obtain ⟨sys', hexec, rfl⟩ := exec_selectAll hc slot rfl (by decide) rfl hzslba happ
    exact ⟨sys', hexec, resetAll_of_applied hinv' happ hinv⟩
  · obtain ⟨zt', hinv', happ⟩ := zoneOp_appliedToAll (finish_effect hstart.geometry) rfl hinv
    obtain ⟨sys', hexec, rfl⟩ := exec_selectAll hc slot rfl (by decide) rfl hzslba happ
    exact ⟨sys', hexec, finishAll_of_applied happ⟩
  · obtain ⟨zt', hinv', happ⟩ := zoneOp_appliedToAll (close_effect (stable_placed n)) rfl hinv
    obtain ⟨sys', hexec, rfl⟩ := exec_selectAll hc slot rfl (by decide) rfl hzslba happ
    exact ⟨sys', hexec, closeAll_of_applied hinv' happ hinv⟩

theorem select_all_complete_two :
    ∃ sys, runE (System.step twoZones) [appendThree] twoZonesStart = .ok sys ∧
      SelectAllOk twoZones sys := by
  have hgeo : znsInitZoneGeometry twoZones = some twoZones := rfl
  have hends : (runE (System.step twoZones) [appendThree] twoZonesStart).isOk = true := by
    decide +kernel
  cases hrun : runE (System.step twoZones) [appendThree] twoZonesStart with
  | error f => simp [hrun, Except.isOk, Except.toBool] at hends
  | ok sys => exact ⟨sys, rfl, select_all_complete hgeo rfl hrun⟩

end Femu.Zns

import Femu.Zns.Resources

/-!
# Femu.Zns.Failure

What a write or append that fails leaves behind. The checks come first and change
nothing; but when the limit on open zones is reached, another zone is closed before
the limit on active zones is looked at, and the write pointer has been advanced
before the host's buffer is mapped. A failed command changes something exactly if it
gets that far.
-/

namespace Femu.Zns

open Nvme Lib

variable {n : ZnsCtrl} {Z : Nat → NvmeZone → Prop} {t : ZoneTable} {i : Nat} {s : ZnsState}
  {req : NvmeRequest}

/-! ## opening a zone -/

/-- The limits let a zone of this state be written to, if need be after another zone
has been closed. -/
def LimitsAllow (n : ZnsCtrl) (t : ZoneTable) (zs : NvmeZoneState) : Prop :=
  (zs = .empty ∨ zs = .closed → n.maxOpenZones ≠ 0 →
    t.nrOpenZones < n.maxOpenZones ∨ t.lists .impOpen ≠ []) ∧
  (zs = .empty → n.maxActiveZones ≠ 0 → t.nrActiveZones < n.maxActiveZones)

/-- Another zone is closed, but the limit on active zones is reached as well. -/
def ClosesInVain (n : ZnsCtrl) (t : ZoneTable) (zs : NvmeZoneState) : Prop :=
  zs = .empty ∧ AutoCloses n t ∧ n.maxActiveZones ≠ 0 ∧ t.nrActiveZones = n.maxActiveZones

/-- The counters and limits of a table, in terms of its zones. -/
theorem Inv.nrOpen_eq (h : Inv n Z t) (h0 : n.maxOpenZones ≠ 0) :
    t.nrOpenZones = opens n t ∧ opens n t ≤ n.maxOpenZones := by
  have hcount := h.counts.opn
  rw [if_neg h0] at hcount
  exact ⟨hcount, h.fits.opn h0⟩

theorem Inv.nrActive_eq (h : Inv n Z t) (h0 : n.maxActiveZones ≠ 0) :
    t.nrActiveZones = actives n t ∧ actives n t ≤ n.maxActiveZones := by
  have hcount := h.counts.act
  rw [if_neg h0] at hcount
  exact ⟨hcount, h.fits.act h0⟩

/-- What the automatic closing of a zone does to the numbers of open and active
zones, and that it is a change. -/
theorem opens_closed {t' : ZoneTable} (hi : i < n.numZones)
    (hzs : (t.zones i).zs = .implicitlyOpen)
    (hzones : t'.zones = Function.update t.zones i { t.zones i with zs := .closed }) :
    opens n t' + 1 = opens n t ∧ actives n t' = actives n t ∧ t' ≠ t := by
  have ho := opens_update hi hzones
  have ha := actives_update hi hzones
  simp only [hzs, NvmeZoneState.isOpen, NvmeZoneState.isActive, one_true, one_false] at ho ha
  refine ⟨by omega, by omega, fun hc => ?_⟩
  have hsame := congrFun hzones i
  rw [hc, Function.update_self] at hsame
  have : (t.zones i).zs = .closed := by rw [hsame]
  rw [hzs] at this
  cases this

/-- The check of the limits after the automatic closing of a zone. -/
theorem autoTransition_check (h : Inv n (fun _ _ => True) t) (act : Nat) :
    Safe NoFault (znsAutoTransitionZone n t) fun t' =>
      (znsAorCheck n t' act 1 = nvmeSuccess ↔
        (n.maxOpenZones ≠ 0 → t.nrOpenZones < n.maxOpenZones ∨ t.lists .impOpen ≠ []) ∧
        (n.maxActiveZones ≠ 0 → t.nrActiveZones + act ≤ n.maxActiveZones)) ∧
      (t' = t ↔ ¬ AutoCloses n t) := by
  refine (autoTransition_cases stable_true h).imp fun t' ⟨hinv, hcases⟩ => ?_
  rw [aorCheck_eq_success hinv.counts]
  obtain ⟨hnot, rfl⟩ | ⟨hcloses, i, hi, hzs, hzones⟩ := hcases
  · refine ⟨⟨fun ⟨hac, hop⟩ => ⟨fun h0 => .inl ?_, fun h0 => ?_⟩,
      fun ⟨hop, hac⟩ => ⟨fun h0 => ?_, fun h0 => ?_⟩⟩, by simp [hnot]⟩
    · have := h.nrOpen_eq h0
      have := hop h0
      omega
    · have := h.nrActive_eq h0
      have := hac h0
      omega
    · have := h.nrActive_eq h0
      have := hac h0
      omega
    · have hopen := h.nrOpen_eq h0
      obtain hlt | hne := hop h0
      · omega
      · have : t'.nrOpenZones ≠ n.maxOpenZones := fun hc => hnot ⟨h0, hc, hne⟩
        omega
  · obtain ⟨ho, ha, hne⟩ := opens_closed hi hzs hzones
    refine ⟨⟨fun ⟨hac, hop⟩ => ⟨fun h0 => .inr hcloses.2.2, fun h0 => ?_⟩,
      fun ⟨hop, hac⟩ => ⟨fun h0 => ?_, fun h0 => ?_⟩⟩, by simp [hne, hcloses]⟩
    · have := h.nrActive_eq h0
      have := hac h0
      omega
    · have := h.nrActive_eq h0
      have := hac h0
      omega
    · have := h.nrOpen_eq h0
      omega

/-- **Opening for a write**: it succeeds when the limits allow it, and a failure
leaves the table alone unless a zone has been closed in vain. -/
theorem autoOpen_spec (h : Inv n (fun _ _ => True) t) (i : Nat) :
    Safe NoFault (znsAutoOpenZone n t i) fun r =>
      (r.1 = nvmeSuccess ↔ LimitsAllow n t (t.zones i).zs) ∧
      (r.1 ≠ nvmeSuccess → (r.2 = t ↔ ¬ ClosesInVain n t (t.zones i).zs)) := by
  unfold znsAutoOpenZone
  split
  · rename_i hzs
    rw [safe_bind]
    refine (autoTransition_check h 1).imp fun t' ⟨hcheck, hsame⟩ => ?_
    have hallow : znsAorCheck n t' 1 1 = nvmeSuccess ↔ LimitsAllow n t (t.zones i).zs := by
      have hlt : t.nrActiveZones + (1 : Nat) ≤ n.maxActiveZones ↔
          t.nrActiveZones < n.maxActiveZones := Int.add_one_le_iff
      rw [hcheck, hlt, LimitsAllow, hzs]
      simp
    refine ⟨hallow, fun hfail => ?_⟩
    show t' = t ↔ _
    rw [hsame, not_iff_not]
    refine ⟨fun hcloses => ?_, fun hvain => hvain.2.1⟩
    have hact : ¬ (n.maxActiveZones ≠ 0 → t.nrActiveZones + 1 ≤ n.maxActiveZones) :=
      fun hfit => hfail (hcheck.mpr ⟨fun _ => .inr hcloses.2.2, hfit⟩)
    have hact0 : n.maxActiveZones ≠ 0 := fun hc => hact fun h0 => absurd hc h0
    have hmax := h.nrActive_eq hact0
    refine ⟨hzs, hcloses, hact0, ?_⟩
    have : ¬ t.nrActiveZones + 1 ≤ n.maxActiveZones := fun hfit => hact fun _ => hfit
    omega
  · rename_i hzs
    rw [safe_bind]
    refine (autoTransition_check h 0).imp fun t' ⟨hcheck, hsame⟩ => ?_
    have hactive : n.maxActiveZones ≠ 0 → t.nrActiveZones + (0 : Nat) ≤ n.maxActiveZones := by
      intro h0
      have := h.nrActive_eq h0
      omega
    have hallow : znsAorCheck n t' 0 1 = nvmeSuccess ↔ LimitsAllow n t (t.zones i).zs := by
      rw [hcheck, LimitsAllow, hzs]
      simp only [and_true, or_true, true_implies, reduceCtorEq, false_implies]
      exact and_iff_left hactive
    refine ⟨hallow, fun hfail => ?_⟩
    show t' = t ↔ _
    have hnot : ¬ AutoCloses n t := fun hcloses =>
      hfail (hcheck.mpr ⟨fun _ => .inr hcloses.2.2, hactive⟩)
    simp [hsame, hnot, ClosesInVain]
  · rename_i h₁ h₂
    have hallow : LimitsAllow n t (t.zones i).zs :=
      ⟨fun hc => (hc.elim h₁ h₂).elim, fun hc => (h₁ hc).elim⟩
    exact ⟨iff_of_true rfl hallow, fun hfail => absurd rfl hfail⟩

/-! ## writes and appends -/

/-- The command goes past the checks of the zone, and fails after something has been
changed: another zone closed, or the write pointer advanced. -/
def HalfDone (n : ZnsCtrl) (s : ZnsState) (req : NvmeRequest) (append : Bool) (i : Nat) : Prop :=
  znsCheckZoneWrite n (s.zt.zones i) req.cmd.slba req.nlb append = .ok nvmeSuccess ∧
    (ClosesInVain n s.zt (s.zt.zones i).zs ∨
      LimitsAllow n s.zt (s.zt.zones i).zs ∧ Unmappable n s.mem req)

/-- Advancing the write pointer changes the zone. -/
theorem advanced_ne (z : NvmeZone) {nlb : Nat} (hpos : 0 < nlb) (hlt : nlb < 2 ^ 64) :
    advanced z nlb ≠ z := by
  intro hc
  have hptr : (advanced z nlb).wPtr = u64 (z.wPtr + nlb) := by
    unfold advanced
    dsimp only
    split <;> rfl
  rw [hc] at hptr
  unfold u64 at hptr
  omega

theorem req_nlb_bounds (req : NvmeRequest) : 0 < req.nlb ∧ req.nlb < 2 ^ 64 := by
  have := req.cmd.nlb_lt
  unfold NvmeRequest.nlb
  omega

/-- A way for a write to end leaves the zones and the backend alone, if it is a
failure, unless the command is half done. -/
theorem WriteResult.unchanged_iff (h : Inv n (fun _ _ => True) s.zt) (hi : i < n.numZones)
    {append : Bool} {r : Handled} (hr : WriteResult n req append false s i r) :
    (r.1 ≠ nvmeSuccess → r.2.2.zt = s.zt ∧ r.2.2.mb = s.mb) ↔ ¬ HalfDone n s req append i := by
  cases hr with
  | refused hcheck hstatus =>
      refine iff_of_true (fun _ => ⟨rfl, rfl⟩) fun hhalf => ?_
      rw [hhalf.1, Except.ok.injEq] at hcheck
      exact hstatus hcheck.symm
  | noRoom hcheck hopen hstatus =>
      obtain ⟨hallow, hvain⟩ := (autoOpen_spec h i).of_ok hopen
      have hnot : ¬ LimitsAllow n s.zt (s.zt.zones i).zs := fun hc => hstatus (hallow.mpr hc)
      simp only [HalfDone, hcheck, true_and, hnot, false_and, or_false, ← hvain hstatus, and_true]
      exact ⟨fun hsame => hsame (or_dnr_ne _), fun hsame _ => hsame⟩
  | unmapped hcheck hopen hadv hwrz hmap hstatus =>
      obtain ⟨hallow, -⟩ := (autoOpen_spec h i).of_ok hopen
      obtain ⟨hsame, -, hzones, -⟩ := advanced_inv stable_true h hi hopen hadv
      have hun := (mapDptr_cases hmap).1.mp hstatus
      refine iff_of_false (fun hc => ?_) fun hc => hc ⟨hcheck, .inr ⟨hallow.mp rfl, hun⟩⟩
      have hzt := (hc (or_dnr_ne _)).1
      dsimp only at hzt
      have hzone := congrFun hzones i
      rw [hzt, Function.update_self] at hzone
      exact advanced_ne _ (req_nlb_bounds req).1 (req_nlb_bounds req).2 hzone.symm
  | zeroes hcheck hopen hadv hwrz hfin => cases hwrz
  | done hcheck hopen hadv hwrz hmap hrw hfin =>
      obtain ⟨hallow, -⟩ := (autoOpen_spec h i).of_ok hopen
      refine iff_of_true (fun hc => absurd rfl hc) fun hhalf => ?_
      obtain hvain | ⟨-, hun⟩ := hhalf.2
      · have hlt := (hallow.mp rfl).2 hvain.1 hvain.2.2.1
        have := hvain.2.2.2
        omega
      · exact (mapDptr_cases hmap).1.mpr hun rfl

/-- **Step lemma**: a failed command leaves the zones and the backend alone unless it
is admitted and half done on its zone. -/
theorem doWrite_unchanged_iff (h : Inv n (fun _ _ => True) s.zt) {append : Bool} {r : Handled}
    (hrun : znsDoWrite n req append false s = .ok r) :
    (r.1 ≠ nvmeSuccess → r.2.2.zt = s.zt ∧ r.2.2.mb = s.mb) ↔
      ¬ (Admitted n req ∧ ∃ i, znsGetZoneBySlba n req.cmd.slba = .ok i ∧
        HalfDone n s req append i) := by
  obtain ⟨hadm, -, hsame⟩ | ⟨hadm, i, hi, hget, hresult⟩ := (doWrite_safe h append).of_ok hrun
  · rw [hsame]
    exact iff_of_true (fun _ => ⟨rfl, rfl⟩) fun hc => hadm hc.1
  · rw [hresult.unchanged_iff h hi, not_iff_not]
    refine ⟨fun hhalf => ⟨hadm, i, hget, hhalf⟩, fun ⟨_, j, hget', hhalf⟩ => ?_⟩
    rw [hget, Except.ok.injEq] at hget'
    exact hget' ▸ hhalf

/-! ## runs -/

/-- The commands that write to a zone at the write pointer. -/
def writeOp (append : Bool) : ZnsOp := if append then .append else .write

theorem writeOp_handler {append : Bool} {r : Handled}
    (h : (writeOp append).handler n req s = .ok r) :
    ∃ isWrite, znsDoWrite n { req with isWrite := isWrite } append false s = .ok r := by
  match append with
  | true => exact ⟨req.isWrite, h⟩
  | false =>
    have hwrite : Safe (fun _ => True) ((writeOp false).handler n req s) fun r =>
        znsDoWrite n { req with isWrite := true } false false s = .ok r := by
      show Safe _ (znsWrite n req s) _
      unfold znsWrite
      rw [safe_bind, safe_require]
      exact ⟨fun _ => safe_of_ok fun r hr => hr, fun _ => trivial⟩
    exact ⟨true, hwrite.of_ok h⟩

/-- **Failed writes and appends**: in every state that a run reaches, a write or append
that returns an error leaves the zones, the lists, the counters and the backend as
they were, exactly if it is not half done. -/
theorem failed_write_unchanged_iff {n' : ZnsCtrl} {zt : ZoneTable}
    (hinit : znsInitZonedState n = some (n', zt)) {mem : Mem} {mb zdExtensions : Bytes}
    {slots : Nat → NvmeRequest} {evs : List Event} {sys sys' : System}
    (hrun : runE (System.step n') evs ⟨⟨zt, mem, mb, zdExtensions⟩, slots⟩ = .ok sys)
    {append : Bool} {slot : Nat} {c : NvmeCmd} {status : Status}
    (hexec : sys.exec n' (writeOp append) slot c = .ok (status, sys')) :
    (status ≠ nvmeSuccess → sys'.dev.zt = sys.dev.zt ∧ sys'.dev.mb = sys.dev.mb) ↔
      ¬ (Admitted n' (sys.fetch slot c) ∧ ∃ i, znsGetZoneBySlba n' c.slba = .ok i ∧
        HalfDone n' sys.dev (sys.fetch slot c) append i) := by
  have hinv : Inv n' (fun _ _ => True) sys.dev.zt :=
    (run_inv_true ⟨⟨zt, mem, mb, zdExtensions⟩, slots⟩
      (initZonedState_inv hinit fun _ _ => trivial) evs).of_ok hrun
  obtain ⟨isWrite, hdo⟩ := writeOp_handler (exec_ok hexec)
  exact doWrite_unchanged_iff hinv hdo

/-- `twoZones` with a limit of one active zone. -/
def oneActive : ZnsCtrl := { twoZones with maxActiveZones := 1 }

/-- A write of one block at the start of the first zone, without a buffer. -/
def writeNull : NvmeCmd := {}

/-- An append of one block to the second zone. -/
def appendSecond : NvmeCmd := { cdw10 := 4, prp1 := 4096 }

/-- A write without a buffer fails and leaves the write pointer advanced; an append to
the second zone, over the limit on active zones, fails and leaves the first zone
closed. -/
theorem failed_write_changes :
    (∃ status sys', twoZonesStart.exec twoZones (writeOp false) 0 writeNull = .ok (status, sys') ∧
      status ≠ nvmeSuccess ∧ sys'.dev.zt ≠ twoZonesStart.dev.zt) ∧
    znsInitZonedState oneActive = some (oneActive, twoZonesTable) ∧
    ∃ sys status sys', runE (System.step oneActive) [.cmd .append 0 { prp1 := 4096 }]
        twoZonesStart = .ok sys ∧
      sys.exec oneActive (writeOp true) 1 appendSecond = .ok (status, sys') ∧
      status ≠ nvmeSuccess ∧ sys'.dev.zt ≠ sys.dev.zt := by
  refine ⟨?_, rfl, ?_⟩
  · have hends : (twoZonesStart.exec twoZones (writeOp false) 0 writeNull).toOption.map
        (fun r => (decide (r.1 ≠ nvmeSuccess), (r.2.dev.zt.zones 0).wPtr)) = some (true, 1) := by
      decide +kernel
    match hexec : twoZonesStart.exec twoZones (writeOp false) 0 writeNull with
    | .error f => simp [hexec, Except.toOption] at hends
    | .ok (status, sys') =>
      simp only [hexec, Except.toOption, Option.map_some, Option.some.injEq, Prod.mk.injEq,
        decide_eq_true_eq] at hends
      refine ⟨status, sys', rfl, hends.1, fun hc => ?_⟩
      have hptr := hends.2
      rw [hc] at hptr
      exact absurd hptr (by decide)
  · have hends : (runE (System.step oneActive) [.cmd .append 0 { prp1 := 4096 }]
        twoZonesStart).toOption.map (fun sys => ((sys.dev.zt.zones 0).zs,
          (sys.exec oneActive (writeOp true) 1 appendSecond).toOption.map fun r =>
            (decide (r.1 ≠ nvmeSuccess), (r.2.dev.zt.zones 0).zs))) =
        some (.implicitlyOpen, some (true, .closed)) := by decide +kernel
    match hrun : runE (System.step oneActive) [.cmd .append 0 { prp1 := 4096 }] twoZonesStart with
    | .error f => simp [hrun, Except.toOption] at hends
    | .ok sys =>
      match hexec : sys.exec oneActive (writeOp true) 1 appendSecond with
      | .error f => simp [hrun, hexec, Except.toOption] at hends
      | .ok (status, sys') =>
        simp only [hrun, hexec, Except.toOption, Option.map_some, Option.some.injEq,
          Prod.mk.injEq, decide_eq_true_eq] at hends
        obtain ⟨hbefore, hstatus, hafter⟩ := hends
        refine ⟨sys, status, sys', rfl, hexec, hstatus, fun hc => ?_⟩
        rw [hc, hbefore] at hafter
        cases hafter

/-- A write that is not at the write pointer is refused. -/
theorem failed_write_unchanged_small :
    ∃ status sys', twoZonesStart.exec twoZones (writeOp false) 0 { cdw10 := 1, prp1 := 4096 } =
        .ok (status, sys') ∧ status ≠ nvmeSuccess ∧
      sys'.dev.zt = twoZonesStart.dev.zt ∧ sys'.dev.mb = twoZonesStart.dev.mb := by
  have hinit : znsInitZonedState twoZones = some (twoZones, twoZonesTable) := rfl
  have hends : (twoZonesStart.exec twoZones (writeOp false) 0
      { cdw10 := 1, prp1 := 4096 }).toOption.map (fun r => decide (r.1 ≠ nvmeSuccess)) =
        some true := by decide +kernel
  match hexec : twoZonesStart.exec twoZones (writeOp false) 0 { cdw10 := 1, prp1 := 4096 } with
  | .error f => simp [hexec, Except.toOption] at hends
  | .ok (status, sys') =>
    simp only [hexec, Except.toOption, Option.map_some, Option.some.injEq,
      decide_eq_true_eq] at hends
    have hrun : runE (System.step twoZones) [] twoZonesStart = .ok twoZonesStart := rfl
    refine ⟨status, sys', rfl, hends,
      (failed_write_unchanged_iff hinit hrun hexec).mpr (fun ⟨_, i, hget, hcheck, _⟩ => ?_) hends⟩
    have hzone : znsGetZoneBySlba twoZones 1 = .ok 0 := rfl
    have hi : i = 0 := by
      have : Except.ok 0 = Except.ok i := hzone.symm.trans hget
      simpa using this.symm
    subst hi
    exact absurd (congrArg Except.toOption hcheck) (by decide)

end Femu.Zns

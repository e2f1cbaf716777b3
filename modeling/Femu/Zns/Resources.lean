import Femu.Zns.Write

/-!
# Femu.Zns.Resources

Open and active resource accounting over whole runs: every command, successful or
not, and the shutdown of the namespace keep the lists and the counters in step
with the states of the zones, and no assertion of the `zns_aor_*` functions
fails.
-/

namespace Femu.Zns

open Nvme Lib

variable {n : ZnsCtrl} {Z : Nat → NvmeZone → Prop} {s : ZnsState} {req : NvmeRequest}

/-! ## zone writes and appends -/

/-- The command passes the checks of `zns_do_write` that do not look at a zone. -/
def Admitted (n : ZnsCtrl) (req : NvmeRequest) : Prop :=
  nvmeCheckMdts n (n.l2b req.nlb) = nvmeSuccess ∧
    znsCheckBounds n req.cmd.slba req.nlb = nvmeSuccess

theorem or_dnr_ne (status : Status) : status ||| nvmeDnr ≠ nvmeSuccess := by
  intro h
  have hdnr : nvmeDnr = 0 := (UInt16.or_eq_zero_iff.mp h).2
  exact absurd hdnr (by decide)

theorem doWrite_safe (h : Inv n (fun _ _ => True) s.zt) (append : Bool) :
    Safe CmdFault (znsDoWrite n req append false s) fun r =>
      (¬ Admitted n req ∧ r.1 ≠ nvmeSuccess ∧ r.2 = (req, s)) ∨
        Admitted n req ∧ ∃ i, i < n.numZones ∧ znsGetZoneBySlba n req.cmd.slba = .ok i ∧
          WriteResult n req append false s i r := by
  unfold znsDoWrite
  split
  · rename_i hmdts
    exact .inl ⟨fun hc => hmdts.2 hc.1, or_dnr_ne _, rfl⟩
  · rename_i hmdts
    split
    · rename_i hbounds
      exact .inl ⟨fun hc => hbounds hc.2, or_dnr_ne _, rfl⟩
    · rename_i hbounds
      refine (writeZone_safe h req append false).imp fun r hr => .inr ⟨⟨?_, ?_⟩, hr⟩
      · simpa using hmdts
      · simpa using hbounds

theorem doWrite_inv (hZ : Stable Z) (h : Inv n Z s.zt) (append : Bool)
    (hkeep : Admitted n req → WriteKeeps n Z s req append) :
    Safe CmdFault (znsDoWrite n req append false s) fun r => Inv n Z r.2.2.zt := by
  refine (doWrite_safe (h.weaken fun _ _ _ => trivial) append).imp fun r hr => ?_
  obtain ⟨-, -, hsame⟩ | ⟨hadm, i, hi, hget, hresult⟩ := hr
  · rw [hsame]
    exact h
  · exact hresult.inv hZ h hi hget (hkeep hadm)

/-! ## reads -/

theorem checkStateForRead_safe {z : NvmeZone} (h : z.zs.Usable) :
    Safe NoFault (znsCheckZoneStateForRead z) fun _ => True := by
  unfold znsCheckZoneStateForRead
  cases hzs : z.zs <;> simp_all [NvmeZoneState.Usable]

theorem crossZoneLoop_safe {t : ZoneTable} (h : Inv n Z t) (bound k i : Nat) :
    Safe CmdFault (crossZoneLoop n t bound k i) fun _ => True := by
  induction k generalizing i with
  | zero => exact .inl rfl
  | succ k ih =>
      unfold crossZoneLoop
      split
      · exact .inl rfl
      · have hcheck := checkStateForRead_safe (h.usable (i + 1) (by omega))
        rw [safe_bind]
        refine hcheck.mono (fun _ => noFault_imp) fun status _ => ?_
        simp [ih]

theorem checkZoneRead_safe {t : ZoneTable} (h : Inv n Z t) (slba nlb : Nat) :
    Safe CmdFault (znsCheckZoneRead n t slba nlb) fun _ => True := by
  unfold znsCheckZoneRead
  rw [safe_bind]
  refine (getZoneBySlba_safe n slba).imp fun i hi => ?_
  rw [safe_bind]
  refine (checkStateForRead_safe (h.usable i hi)).mono (fun _ => noFault_imp) fun status _ => ?_
  simp [crossZoneLoop_safe h]

theorem read_safe (h : Inv n Z s.zt) :
    Safe CmdFault (znsRead n req s) fun r => r.2.2.zt = s.zt := by
  unfold znsRead
  simp only [safe_bind, safe_require, safe_ite, safe_pure]
  refine ⟨fun _ => ⟨fun _ => trivial, fun _ => ⟨fun _ => trivial, fun _ => ?_⟩⟩,
    fun _ => .inr (.inl rfl)⟩
  refine (checkZoneRead_safe h _ _).imp fun status _ => ⟨fun _ => trivial, fun _ => ?_⟩
  refine (mapDptr_safe n _ _ _).imp fun r _ => ⟨fun _ => trivial, fun _ => ?_⟩
  exact (backendRw_safe _ _ _).imp fun r hr => hr.1

/-! ## zone management -/

/-- The actions of `zns_zone_mgmt_send` keep the invariant, and their masks are
sound. -/
theorem sendAction_handles (hZ : Stable Z) {action : Nat} {all : Bool} {mask : ProcMask}
    {op : OpHandler} (h : sendAction n action all = some (mask, op)) (zone : Nat)
    (hzone : all = true → zone = 0) : Handles n Z op ∧ mask.Sound zone := by
  unfold sendAction at h
  split at h
  · cases h
    exact ⟨fun t i hinv hi => openZone_passes hZ hinv hi, fun hc => by simp at hc⟩
  · split at h
    · cases h
      exact ⟨fun t i hinv hi => closeZone_passes hZ hinv hi, fun hc => by simp at hc⟩
    · split at h
      · cases h
        exact ⟨fun t i hinv hi => finishZone_passes hZ hinv hi, fun hc => by simp at hc⟩
      · split at h
        · cases h
          exact ⟨fun t i hinv hi => resetZone_passes hZ hinv hi, fun hc => by simp at hc⟩
        · split at h
          · cases h
            exact ⟨fun t i hinv hi => offlineZone_passes hinv hi, fun hc => ⟨hzone hc, rfl, rfl, rfl⟩⟩
          · cases h

theorem sendZdExt_inv (hZ : Stable Z) (h : Inv n Z s.zt) (cmd : NvmeCmd) {zone : Nat}
    (hi : zone < n.numZones) :
    Safe CmdFault (sendZdExt n cmd zone s) fun r => Inv n Z r.2.zt := by
  unfold sendZdExt
  rw [safe_bind]
  refine (orDma_safe _).imp fun r _ => ?_
  obtain ⟨status, bs⟩ := r
  dsimp only
  split
  · exact h
  · rw [safe_bind]
    exact (setZdExt_inv hZ h hi).mono (fun _ => noFault_imp) fun r hr => hr

/-- The mask of an action on all zones is not empty. -/
theorem sendAction_all {action : Nat} {mask : ProcMask} {op : OpHandler}
    (h : sendAction n action true = some (mask, op)) : mask ≠ {} := by
  unfold sendAction at h
  split_ifs at h <;> cases h <;> decide

theorem sendToZone_inv (hZ : Stable Z) (h : Inv n Z s.zt) (cmd : NvmeCmd) (slba zone : Nat)
    (hzone : cmd.cdw13.toNat.testBit 8 = true → zone = 0)
    (hi : cmd.cdw13.toNat.testBit 8 = false → zone < n.numZones) :
    Safe CmdFault (sendToZone n cmd slba zone s) fun r => Inv n Z r.2.zt := by
  unfold sendToZone
  split
  · exact h
  · dsimp only
    split
    · rename_i mask op hsend
      obtain ⟨hop, hmask⟩ := sendAction_handles hZ hsend zone hzone
      have hone : mask = {} → zone < n.numZones := by
        intro hm
        cases hall : cmd.cdw13.toNat.testBit 8 with
        | true => exact absurd hm (sendAction_all (hall ▸ hsend))
        | false => exact hi hall
      rw [safe_bind]
      refine (doZoneOp_inv hop hmask h hone).mono (fun _ => noFault_imp) fun r hr => ?_
      split
      · exact hr
      · exact hr
    · split
      · split
        · exact h
        · rename_i hsingle
          simp only [not_or, Bool.not_eq_true] at hsingle
          exact sendZdExt_inv hZ h cmd (hi hsingle.1)
      · exact h

/-- The zone of a command on a single zone is one of the array. -/
theorem mgmtZoneIdx_safe (n : ZnsCtrl) (c : NvmeCmd) :
    Safe CmdFault (znsGetMgmtZoneSlbaIdx n c) fun r => r.1 = nvmeSuccess → r.2.2 < n.numZones := by
  unfold znsGetMgmtZoneSlbaIdx
  simp only [safe_ite, safe_pure, safe_bind]
  refine ⟨fun _ hc => absurd hc (by decide), fun _ => ⟨fun _ hc => absurd hc (by decide),
    fun _ => ?_⟩⟩
  exact (getZoneBySlba_safe n _).imp fun _ hi _ => hi

theorem mgmtSend_inv (hZ : Stable Z) (h : Inv n Z s.zt) :
    Safe CmdFault (znsZoneMgmtSend n req s) fun r => Inv n Z r.2.2.zt := by
  have hsend : ∀ slba zone, (req.cmd.cdw13.toNat.testBit 8 = true → zone = 0) →
      (req.cmd.cdw13.toNat.testBit 8 = false → zone < n.numZones) →
      Safe CmdFault (sendToZone n req.cmd slba zone s >>= fun r => pure (r.1, req, r.2))
        fun r : Handled => Inv n Z r.2.2.zt := by
    intro slba zone hzone hi
    rw [safe_bind]
    exact sendToZone_inv hZ h req.cmd slba zone hzone hi
  unfold znsZoneMgmtSend
  by_cases hall : req.cmd.cdw13.toNat.testBit 8 = true
  · simp only [hall, if_true, pure_eq_ok, ok_bind]
    exact hsend 0 0 (fun _ => rfl) fun hc => absurd (hall.symm.trans hc) (by decide)
  · simp only [hall, Bool.false_eq_true, if_false, safe_bind]
    refine (mgmtZoneIdx_safe n req.cmd).imp fun r hr => ?_
    obtain ⟨status, slba, zone⟩ := r
    dsimp only
    split
    · exact h
    · rename_i hok
      exact hsend slba zone (fun hc => absurd hc hall) fun _ => hr (not_not.mp hok)

/-! ## runs -/

theorem fetch_cmd (sys : System) (slot : Nat) (c : NvmeCmd) : (sys.fetch slot c).cmd = c := rfl

/-- What a write or append has to do for a property of the zones to survive the
event. -/
def EventKeeps (n : ZnsCtrl) (Z : Nat → NvmeZone → Prop) (sys : System) : Event → Prop
  | .cmd .write slot c =>
    Admitted n (sys.fetch slot c) → WriteKeeps n Z sys.dev (sys.fetch slot c) false
  | .cmd .append slot c =>
    Admitted n (sys.fetch slot c) → WriteKeeps n Z sys.dev (sys.fetch slot c) true
  | _ => True

/-- **Step lemma**: every event keeps the invariant of the table. -/
theorem step_inv (hZ : Stable Z) {sys : System} (h : Inv n Z sys.dev.zt) (ev : Event)
    (hkeep : EventKeeps n Z sys ev) :
    Safe CmdFault (sys.step n ev) fun sys' => Inv n Z sys'.dev.zt := by
  cases ev with
  | host mem => exact h
  | shutdown =>
    show Safe CmdFault (znsNsShutdown n sys.dev.zt >>= _) _
    rw [safe_bind]
    exact (nsShutdown_inv hZ h).mono (fun _ => noFault_imp) fun _ h => h
  | cmd op slot c =>
    show Safe CmdFault ((op.handler n (sys.fetch slot c) sys.dev >>= _) >>= _) _
    simp only [safe_bind]
    cases op with
    | read => exact (read_safe h).imp fun r hr => by simpa [hr] using h
    | write =>
      show Safe CmdFault (require _ _ >>= _) _
      rw [safe_bind, safe_require]
      let req : NvmeRequest := { sys.fetch slot c with isWrite := true }
      have hwrite : Admitted n req → WriteKeeps n Z sys.dev req false := hkeep
      refine ⟨fun _ => ?_, fun _ => .inr (.inl rfl)⟩
      exact (doWrite_inv hZ h false hwrite).imp fun r hr => hr
    | append => exact (doWrite_inv hZ h true hkeep).imp fun r hr => hr
    | mgmtSend => exact (mgmtSend_inv hZ h).imp fun r hr => hr

/-! ## the table at the start -/

/-- The loop of the initialisation writes the zones it goes over, all of them
empty, and leaves the others alone. -/
theorem initZones_cases (n : ZnsCtrl) (capacity k i start zoneSize : Nat)
    (zones : Nat → NvmeZone) (j : Nat) :
    (i ≤ j → j < i + k → ∃ lba, initZones n capacity k i start zoneSize zones j =
      ⟨nvmeZoneTypeSeqWrite, .empty, 0, n.zoneCapacity, lba, lba, lba⟩) ∧
      ((j < i ∨ i + k ≤ j) → initZones n capacity k i start zoneSize zones j = zones j) := by
  induction k generalizing i start zoneSize zones with
  | zero => exact ⟨fun h1 h2 => by omega, fun _ => rfl⟩
  | succ k ih =>
      simp only [initZones]
      refine ⟨fun h1 h2 => ?_, fun h => ?_⟩
      · by_cases hj : j = i
        · refine ⟨start, ?_⟩
          rw [(ih _ _ _ _).2 (.inl (by omega)), hj, Function.update_self]
        · exact (ih _ _ _ _).1 (by omega) (by omega)
      · rw [(ih _ _ _ _).2 (by omega), Function.update_of_ne (by omega)]

/-- A table of empty zones with empty lists and counters at zero. -/
theorem Inv.of_empty {t : ZoneTable} (hzs : ∀ i < n.numZones, (t.zones i).zs = .empty)
    (hlists : ∀ l, t.lists l = []) (hopen : t.nrOpenZones = 0) (hactive : t.nrActiveZones = 0)
    (hZ : ∀ i < n.numZones, Z i (t.zones i)) : Inv n Z t := by
  have ho : opens n t = 0 := countBelow_eq_zero _ _ _ fun i hi => by
    simp [hzs i hi, NvmeZoneState.isOpen]
  have ha : actives n t = 0 := countBelow_eq_zero _ _ _ fun i hi => by
    simp [hzs i hi, NvmeZoneState.isActive]
  refine ⟨⟨fun l i => ?_, fun l => ?_⟩, ?_, ?_, fun i hi => ?_, hZ⟩
  · simp only [hlists, List.not_mem_nil, true_and, false_iff, not_and]
    intro hi
    simp [hzs i hi, NvmeZoneState.list]
  · rw [hlists]
    exact List.nodup_nil
  · rw [ho, ha]
    exact ⟨by simp [hopen], by simp [hactive]⟩
  · rw [ho, ha]
    exact ⟨fun _ => Nat.zero_le _, fun _ => Nat.zero_le _⟩
  · rw [hzs i hi]
    trivial

theorem initZonedState_inv {n' : ZnsCtrl} {zt : ZoneTable}
    (h : znsInitZonedState n = some (n', zt)) (hZ : ∀ i < n'.numZones, Z i (zt.zones i)) :
    Inv n' Z zt := by
  unfold znsInitZonedState at h
  split at h
  · simp only [Option.some.injEq, Prod.mk.injEq] at h
    obtain ⟨rfl, rfl⟩ := h
    refine Inv.of_empty (fun i hi => ?_) (fun _ => rfl) rfl rfl hZ
    have hi' : i < 0 + n.numZones := by simpa using hi
    obtain ⟨lba, hz⟩ := (initZones_cases n (u64 (n.numZones * n.zoneSize)) n.numZones 0 0
      n.zoneSize (fun _ => zeroZone) i).1 (Nat.zero_le i) hi'
    exact congrArg NvmeZone.zs hz
  · cases h

/-! ## the accounting over a run -/

/-- The lists hold exactly the zones in their states, without duplicates, and the
counters count the open and the active zones and respect the limits. -/
structure Accounted (n : ZnsCtrl) (t : ZoneTable) : Prop where
  nodup : ∀ l, (t.lists l).Nodup
  mem_iff : ∀ l i, i ∈ t.lists l ↔ i < n.numZones ∧ (t.zones i).zs.list = some l
  opn : n.maxOpenZones ≠ 0 → t.nrOpenZones =
    ((Finset.range n.numZones).filter fun i => (t.zones i).zs.isOpen = true).card ∧
      t.nrOpenZones ≤ n.maxOpenZones
  act : n.maxActiveZones ≠ 0 → t.nrActiveZones =
    ((Finset.range n.numZones).filter fun i => (t.zones i).zs.isActive = true).card ∧
      t.nrActiveZones ≤ n.maxActiveZones

theorem Inv.accounted {t : ZoneTable} (h : Inv n Z t) : Accounted n t where
  nodup := h.listed.nodup
  mem_iff := fun l i => by simpa using h.listed.mem_iff l i
  opn := by
    intro h0
    have hfit := h.fits.opn h0
    have hcount := h.counts.opn
    rw [if_neg h0] at hcount
    exact ⟨hcount, by omega⟩
  act := by
    intro h0
    have hfit := h.fits.act h0
    have hcount := h.counts.act
    rw [if_neg h0] at hcount
    exact ⟨hcount, by omega⟩

/-- **Run lemma**: along a run whose writes keep `Z`, the invariant is kept. -/
theorem run_inv (hZ : Stable Z) {sys : System} (h : Inv n Z sys.dev.zt) {evs : List Event}
    (hkeep : Along (System.step n) (EventKeeps n Z) evs sys) :
    Safe CmdFault (runE (System.step n) evs sys) fun sys' => Inv n Z sys'.dev.zt :=
  runE_safe (I := fun sys : System => Inv n Z sys.dev.zt)
    (fun _ ev hinv hev => step_inv hZ hinv ev hev) h hkeep

/-- What is not asked of the zones is kept by every run. -/
theorem run_inv_true (sys : System) (h : Inv n (fun _ _ => True) sys.dev.zt) (evs : List Event) :
    Safe CmdFault (runE (System.step n) evs sys) fun sys' =>
      Inv n (fun _ _ => True) sys'.dev.zt :=
  run_inv stable_true h (along_of_forall (fun sys ev => by
    match ev with
    | .host _ => trivial
    | .shutdown => trivial
    | .cmd .read _ _ => trivial
    | .cmd .mgmtSend _ _ => trivial
    | .cmd .write _ _ => exact fun _ _ _ => ⟨fun _ => trivial, fun _ => trivial⟩
    | .cmd .append _ _ => exact fun _ _ _ => ⟨fun _ => trivial, fun _ => trivial⟩) evs sys)

/-- The handler's results in the system after a command. -/
theorem exec_ok {sys sys' : System} {op : ZnsOp} {slot : Nat} {c : NvmeCmd} {status : Status}
    (h : sys.exec n op slot c = .ok (status, sys')) :
    op.handler n (sys.fetch slot c) sys.dev = .ok (status, sys'.slots slot, sys'.dev) := by
  unfold System.exec at h
  match hr : op.handler n (sys.fetch slot c) sys.dev with
  | .error f =>
    rw [hr] at h
    cases h
  | .ok (status', req', dev') =>
    rw [hr] at h
    cases h
    simp

/-- **Open and active resource accounting**: in every state that a run reaches from
the initialised namespace, the lists and counters agree with the states of the
zones and respect the limits; no run fails an assertion of the accounting
functions, or one about the state of a zone, or corrupts a list. -/
theorem resources_accounted {n' : ZnsCtrl} {zt : ZoneTable}
    (hinit : znsInitZonedState n = some (n', zt)) (mem : Mem) (mb zdExtensions : Bytes)
    (slots : Nat → NvmeRequest) (evs : List Event) :
    (∀ sys, runE (System.step n') evs ⟨⟨zt, mem, mb, zdExtensions⟩, slots⟩ = .ok sys →
      Accounted n' sys.dev.zt) ∧
    ∀ f, runE (System.step n') evs ⟨⟨zt, mem, mb, zdExtensions⟩, slots⟩ = .error f →
      f ≠ .aor ∧ f ≠ .state ∧ f ≠ .queue := by
  have hinv : Inv n' (fun _ _ => True) zt := initZonedState_inv hinit fun _ _ => trivial
  have hrun := run_inv_true ⟨⟨zt, mem, mb, zdExtensions⟩, slots⟩ hinv evs
  refine ⟨fun sys hsys => (hrun.of_ok hsys).accounted, fun f hf => ?_⟩
  obtain hf | hf | hf := hrun.of_error hf
  · simp [hf]
  · simp [hf]
  · simp [hf]

/-- A namespace with two zones of four blocks, one of which may be open. -/
def twoZones : ZnsCtrl where
  pageSize := 4096
  pageBits := 12
  maxPrpEnts := 512
  cmbsz := 0
  ctrlMemAddr := 0
  ctrlMemSize := 0
  mdts := 0
  zasl := 5
  zoned := true
  crossZoneRead := false
  zoneSizeBs := 2048
  zoneCapBs := 0
  maxActiveZones := 2
  maxOpenZones := 1
  zdExtensionSize := 0
  numZones := 2
  zoneSize := 4
  zoneCapacity := 4
  zoneSizeLog2 := 2
  size := 4096
  lbads := 9
  nsze := 8

/-- Its zone table at the start. -/
def twoZonesTable : ZoneTable := ((znsInitZonedState twoZones).get rfl).2

/-- The table, host memory of zeroes, and requests that have carried no command. -/
def twoZonesStart : System :=
  ⟨⟨twoZonesTable, ⟨fun _ => 0, fun _ => 0⟩, fun _ => 0, fun _ => 0⟩,
    fun _ => ⟨{}, false, ⟨pciDmaSglistInit, []⟩, 0⟩⟩

theorem resources_accounted_small :
    (∀ sys, runE (System.step twoZones)
        [.cmd .append 0 { cdw12 := 1, prp1 := 4096 }, .cmd .mgmtSend 1 { cdw13 := 0x102 }, .shutdown]
        twoZonesStart = .ok sys → Accounted twoZones sys.dev.zt) ∧
    ∀ f, runE (System.step twoZones)
        [.cmd .append 0 { cdw12 := 1, prp1 := 4096 }, .cmd .mgmtSend 1 { cdw13 := 0x102 }, .shutdown]
        twoZonesStart = .error f → f ≠ .aor ∧ f ≠ .state ∧ f ≠ .queue :=
  resources_accounted (n := twoZones) rfl _ _ _ _ _

end Femu.Zns

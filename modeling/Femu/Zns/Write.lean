import Femu.Zns.Bulk
import Femu.Zns.Command

/-!
# Femu.Zns.Write

What a zone write or append can do, said once: `writeZone_safe` runs the handler
from a table that satisfies the invariant and lists its four ways to end
(`WriteResult`), with the results of the stages it went through.
-/

namespace Femu.Zns

open Nvme Lib

variable {n : ZnsCtrl} {Z : Nat → NvmeZone → Prop} {t : ZoneTable} {i : Nat}

/-- The faults that a command can still run into: an address outside the zones or
a namespace without zones, and a transfer that does not come back. -/
def CmdFault (f : Fault) : Prop := f = .zone ∨ f = .assert ∨ f = .dma

theorem noFault_imp {f : Fault} (h : NoFault f) : CmdFault f := h.elim

/-! ## the checks -/

theorem getZoneBySlba_safe (n : ZnsCtrl) (slba : Nat) :
    Safe CmdFault (znsGetZoneBySlba n slba) fun i => i < n.numZones := by
  unfold znsGetZoneBySlba znsZoneIdx
  split
  · simp [CmdFault]
  · split
    · exact .inl rfl
    · simp [CmdFault]

theorem orDma_safe {α : Type} (x : Option α) : Safe CmdFault (orDma x) fun a => x = some a := by
  cases x with
  | none => exact .inr (.inr rfl)
  | some a => exact rfl

/-- A zone that passes the check can be written. -/
theorem checkStateForWrite_safe {z : NvmeZone} (h : z.zs.Usable) :
    Safe NoFault (znsCheckZoneStateForWrite z) fun status =>
      status = nvmeSuccess → z.zs.isActive = true ∨ z.zs = .empty := by
  unfold znsCheckZoneStateForWrite
  cases hzs : z.zs <;>
    simp_all [NvmeZoneState.isActive, NvmeZoneState.Usable, nvmeZoneFull, nvmeSuccess]

/-- A write that passes the check lies below the boundary as seen from the address
of the command, which is the write pointer or, for an append, the start of the
zone. -/
theorem checkZoneWrite_safe {z : NvmeZone} (h : z.zs.Usable) (slba nlb : Nat) (append : Bool) :
    Safe NoFault (znsCheckZoneWrite n z slba nlb append) fun status =>
      status = nvmeSuccess → (z.zs.isActive = true ∨ z.zs = .empty) ∧
        u64 (slba + nlb) ≤ znsZoneWrBoundary z ∧ slba = if append then z.zslba else z.wPtr := by
  have hinvalid : nvmeInvalidField ≠ nvmeSuccess := by decide
  have hinvalidWrite : nvmeZoneInvalidWrite ≠ nvmeSuccess := by decide
  unfold znsCheckZoneWrite
  by_cases hbound : znsZoneWrBoundary z < u64 (slba + nlb)
  · have hne : nvmeZoneBoundaryError ≠ nvmeSuccess := by decide
    simp [hbound, hne]
  · simp only [if_neg hbound]
    refine Safe.bind_eq (checkStateForWrite_safe h) fun status _ hstate => ?_
    simp only [safe_ite]
    refine ⟨fun hst => fun hc => absurd hc hst, fun hst => ?_⟩
    simp only [ne_eq, not_not] at hst
    have hzs := hstate hst
    have hvalid : znsWpIsValid z := by
      unfold znsWpIsValid
      obtain hact | hempty := hzs
      · cases hz : z.zs <;> simp_all [NvmeZoneState.isActive]
      · simp [hempty]
    have hle : u64 (slba + nlb) ≤ znsZoneWrBoundary z := Nat.le_of_not_lt hbound
    rw [require_bind hvalid]
    split
    · simp only [safe_ite]
      refine ⟨fun _ => fun hc => absurd hc hinvalid, fun _ => ⟨fun _ => fun hc =>
        absurd hc hinvalid, fun hslba => fun _ => ?_⟩⟩
      exact ⟨hzs, hle, by simpa using hslba⟩
    · simp only [safe_ite]
      refine ⟨fun _ => fun hc => absurd hc hinvalidWrite, fun hslba => fun _ => ?_⟩
      exact ⟨hzs, hle, by simpa using hslba⟩

/-! ## the ways a write ends -/

/-- How `writeZone` ends on the zone `i`. -/
inductive WriteResult (n : ZnsCtrl) (req : NvmeRequest) (append wrz : Bool) (s : ZnsState)
    (i : Nat) : Handled → Prop
  /-- The check refuses the command. -/
  | refused {status : Status}
      (hcheck : znsCheckZoneWrite n (s.zt.zones i) req.cmd.slba req.nlb append = .ok status)
      (hstatus : status ≠ nvmeSuccess) :
      WriteResult n req append wrz s i (status ||| nvmeDnr, req, s)
  /-- The limits leave no room for the zone, also after another one may have been
  closed. -/
  | noRoom {status : Status} {t₁ : ZoneTable}
      (hcheck : znsCheckZoneWrite n (s.zt.zones i) req.cmd.slba req.nlb append = .ok nvmeSuccess)
      (hopen : znsAutoOpenZone n s.zt i = .ok (status, t₁)) (hstatus : status ≠ nvmeSuccess) :
      WriteResult n req append wrz s i (status ||| nvmeDnr, req, { s with zt := t₁ })
  /-- The write pointer has been advanced, but the host buffer cannot be mapped. -/
  | unmapped {status : Status} {t₁ t₂ : ZoneTable} {req₁ : NvmeRequest} {lba : Nat}
      (hcheck : znsCheckZoneWrite n (s.zt.zones i) req.cmd.slba req.nlb append = .ok nvmeSuccess)
      (hopen : znsAutoOpenZone n s.zt i = .ok (nvmeSuccess, t₁))
      (hadv : znsAdvanceZoneWp n t₁ i req.nlb = .ok (lba, t₂)) (hwrz : wrz = false)
      (hmap : znsMapDptr n s.mem (n.l2b req.nlb) { req with resSlba := lba } = .ok (status, req₁))
      (hstatus : status ≠ nvmeSuccess) :
      WriteResult n req append wrz s i (status ||| nvmeDnr, req₁, { s with zt := t₂ })
  /-- Zeroes are written without a transfer. -/
  | zeroes {t₁ t₂ t₃ : ZoneTable} {lba : Nat}
      (hcheck : znsCheckZoneWrite n (s.zt.zones i) req.cmd.slba req.nlb append = .ok nvmeSuccess)
      (hopen : znsAutoOpenZone n s.zt i = .ok (nvmeSuccess, t₁))
      (hadv : znsAdvanceZoneWp n t₁ i req.nlb = .ok (lba, t₂)) (hwrz : wrz = true)
      (hfin : znsFinalizeZonedWrite n t₂ i req.nlb = .ok t₃) :
      WriteResult n req append wrz s i
        (nvmeSuccess, { req with resSlba := lba }, { s with zt := t₃ })
  /-- The data has been transferred. -/
  | done {t₁ t₂ t₃ : ZoneTable} {req₁ req₂ : NvmeRequest} {s₂ : ZnsState} {lba : Nat}
      (hcheck : znsCheckZoneWrite n (s.zt.zones i) req.cmd.slba req.nlb append = .ok nvmeSuccess)
      (hopen : znsAutoOpenZone n s.zt i = .ok (nvmeSuccess, t₁))
      (hadv : znsAdvanceZoneWp n t₁ i req.nlb = .ok (lba, t₂)) (hwrz : wrz = false)
      (hmap : znsMapDptr n s.mem (n.l2b req.nlb) { req with resSlba := lba } =
        .ok (nvmeSuccess, req₁))
      (hrw : znsBackendRw req₁ (n.l2b (if append then (t₁.zones i).wPtr else req.cmd.slba))
        { s with zt := t₂ } = .ok (req₂, s₂))
      (hfin : znsFinalizeZonedWrite n s₂.zt i req.nlb = .ok t₃) :
      WriteResult n req append wrz s i (nvmeSuccess, req₂, { s₂ with zt := t₃ })

theorem mapDptr_safe (n : ZnsCtrl) (m : Mem) (len : Nat) (req : NvmeRequest) :
    Safe CmdFault (znsMapDptr n m len req) fun r => r.2.cmd = req.cmd ∧ r.2.isWrite = req.isWrite ∧
      r.2.resSlba = req.resSlba := by
  unfold znsMapDptr
  split
  · rw [safe_bind]
    exact (orDma_safe _).imp fun r _ => ⟨rfl, rfl, rfl⟩
  · exact ⟨rfl, rfl, rfl⟩

/-- The host buffer of the command cannot be mapped: its pointers are not PRP
entries, or not good ones. -/
def Unmappable (n : ZnsCtrl) (m : Mem) (req : NvmeRequest) : Prop :=
  req.cmd.psdt ≠ 0 ∨ ∃ status map, nvmeMapPrp .stub n.toDmaCtrl m req.cmd.prp1.toNat
    req.cmd.prp2.toNat (n.l2b req.nlb) req.map = some (status, map) ∧ status ≠ nvmeSuccess

/-- The status of a mapping, and the request after it. -/
theorem mapDptr_cases {m : Mem} {lba : Nat} {req req' : NvmeRequest} {status : Status}
    (h : znsMapDptr n m (n.l2b req.nlb) { req with resSlba := lba } = .ok (status, req')) :
    (status ≠ nvmeSuccess ↔ Unmappable n m req) ∧
      req' = { req with map := req'.map, resSlba := lba } ∧
      (status = nvmeSuccess → nvmeMapPrp .stub n.toDmaCtrl m req.cmd.prp1.toNat
        req.cmd.prp2.toNat (n.l2b req.nlb) req.map = some (nvmeSuccess, req'.map)) := by
  unfold znsMapDptr at h
  split at h
  · rename_i hpsdt
    have hpsdt' : req.cmd.psdt = 0 := hpsdt
    match hmap : nvmeMapPrp .stub n.toDmaCtrl m req.cmd.prp1.toNat req.cmd.prp2.toNat
        (n.l2b req.nlb) req.map with
    | none =>
      rw [hmap] at h
      cases h
    | some (st, map) =>
      rw [hmap] at h
      cases h
      exact ⟨by simp [Unmappable, hpsdt', hmap], rfl, fun hst => by rw [hst]⟩
  · rename_i hpsdt
    have hpsdt' : req.cmd.psdt ≠ 0 := hpsdt
    have hne : nvmeInvalidField ≠ nvmeSuccess := by decide
    cases h
    exact ⟨by simp [Unmappable, hpsdt', hne], rfl, fun hst => absurd hst hne⟩

theorem backendRw_safe (req : NvmeRequest) (off : Nat) (s : ZnsState) :
    Safe CmdFault (znsBackendRw req off s) fun r => r.2.zt = s.zt ∧ r.1.cmd = req.cmd ∧
      r.1.isWrite = req.isWrite ∧ r.1.resSlba = req.resSlba := by
  unfold znsBackendRw
  rw [safe_bind]
  exact (orDma_safe _).imp fun r _ => ⟨rfl, rfl, rfl, rfl⟩

/-- The end of a write, on the zone that was looked up before. -/
theorem finishWrite_safe {Y : Nat → NvmeZone → Prop} {s : ZnsState} (h : Inv n Y s.zt)
    (req : NvmeRequest) (hi : i < n.numZones) (hget : znsGetZoneBySlba n req.cmd.slba = .ok i) :
    Safe CmdFault (finishWrite n req s) fun r => ∃ t', znsFinalizeZonedWrite n s.zt i req.nlb =
      .ok t' ∧ r = (nvmeSuccess, req, { s with zt := t' }) := by
  unfold finishWrite
  rw [hget, ok_bind]
  have hfin := (finalize_inv (Z := fun _ _ => True) h hi req.nlb
    (fun _ _ _ _ => trivial) trivial).mono (fun _ => noFault_imp) fun _ h => h
  exact hfin.bind_eq fun t' ht' _ => ⟨t', ht', rfl⟩

/-- **Step lemma for zone writes and appends**: from a table that satisfies the
invariant the handler ends in one of the ways of `WriteResult`, or with a fault of
its address or its transfer. -/
theorem writeZone_safe {s : ZnsState} (h : Inv n (fun _ _ => True) s.zt) (req : NvmeRequest)
    (append wrz : Bool) :
    Safe CmdFault (writeZone n req append wrz s) fun r =>
      ∃ i, i < n.numZones ∧ znsGetZoneBySlba n req.cmd.slba = .ok i ∧
        WriteResult n req append wrz s i r := by
  unfold writeZone
  refine Safe.bind_eq (getZoneBySlba_safe n req.cmd.slba) fun i hget hi => ?_
  have hcheck := checkZoneWrite_safe (n := n) (h.usable i hi) req.cmd.slba req.nlb append
  refine Safe.bind_eq (hcheck.mono (fun _ => noFault_imp) fun _ h => h) fun status hst _ => ?_
  split
  · exact ⟨i, hi, hget, .refused hst ‹_›⟩
  · have hok : status = nvmeSuccess := by simpa using ‹¬ status ≠ nvmeSuccess›
    subst hok
    have hopened := (autoOpen_inv (i := i) stable_true h).mono (fun _ => noFault_imp) fun _ h => h
    refine Safe.bind_eq hopened fun r hopen hr => ?_
    obtain ⟨status, t₁⟩ := r
    obtain ⟨hinv₁, hsame, hroom⟩ := hr
    dsimp only at hinv₁ hsame hroom ⊢
    split
    · exact ⟨i, hi, hget, .noRoom hst hopen ‹_›⟩
    · have hok : status = nvmeSuccess := by simpa using ‹¬ status ≠ nvmeSuccess›
      subst hok
      rw [← hsame] at hroom
      have hadvanced := (advance_inv (Z := fun _ _ => True) hinv₁ hi req.nlb
        (hroom rfl) (fun _ _ _ _ => trivial) trivial).mono (fun _ => noFault_imp) fun _ h => h
      refine Safe.bind_eq hadvanced fun r hadv hr => ?_
      obtain ⟨lba, t₂⟩ := r
      obtain ⟨-, hinv₂, -⟩ := hr
      dsimp only at hinv₂ ⊢
      split
      · refine (finishWrite_safe hinv₂ { req with resSlba := lba } hi hget).imp fun r hr => ?_
        obtain ⟨t₃, hfin, rfl⟩ := hr
        exact ⟨i, hi, hget, .zeroes hst hopen hadv ‹_› hfin⟩
      · have hwrz : wrz = false := by simpa using ‹¬ wrz = true›
        refine (mapDptr_safe n s.mem (n.l2b req.nlb) _).bind_eq fun r hmap hr => ?_
        obtain ⟨status, req₁⟩ := r
        obtain ⟨hcmd₁, -, -⟩ := hr
        dsimp only at hcmd₁ ⊢
        split
        · exact ⟨i, hi, hget, .unmapped hst hopen hadv hwrz hmap ‹_›⟩
        · have hok : status = nvmeSuccess := by simpa using ‹¬ status ≠ nvmeSuccess›
          subst hok
          refine (backendRw_safe req₁ _ _).bind_eq fun r hrw hr => ?_
          obtain ⟨req₂, s₂⟩ := r
          obtain ⟨hzt, hcmd₂, -, -⟩ := hr
          dsimp only at hzt hcmd₂ ⊢
          rw [← hzt] at hinv₂
          have hget₂ : znsGetZoneBySlba n req₂.cmd.slba = .ok i := by rw [hcmd₂, hcmd₁]; exact hget
          refine (finishWrite_safe hinv₂ req₂ hi hget₂).imp fun r hr => ?_
          obtain ⟨t₃, hfin, rfl⟩ := hr
          have hnlb : req₂.nlb = req.nlb := by simp [NvmeRequest.nlb, hcmd₂, hcmd₁]
          rw [hnlb] at hfin
          exact ⟨i, hi, hget, .done hst hopen hadv hwrz hmap hrw hfin⟩

/-- The zone that a write or append is accepted on, if it is. -/
def Accepts (n : ZnsCtrl) (s : ZnsState) (req : NvmeRequest) (append : Bool) (i : Nat) : Prop :=
  i < n.numZones ∧ znsGetZoneBySlba n req.cmd.slba = .ok i ∧
    znsCheckZoneWrite n (s.zt.zones i) req.cmd.slba req.nlb append = .ok nvmeSuccess ∧
    ∃ t₁, znsAutoOpenZone n s.zt i = .ok (nvmeSuccess, t₁)

/-- An accepted write keeps a property of the zones: of the zone after the whole
write, or, when the buffer cannot be mapped, after its pointer has been advanced. -/
def WriteKeeps (n : ZnsCtrl) (Z : Nat → NvmeZone → Prop) (s : ZnsState) (req : NvmeRequest)
    (append : Bool) : Prop :=
  ∀ i, Accepts n s req append i →
    (Unmappable n s.mem req → Z i (advanced (s.zt.zones i) req.nlb)) ∧
    (¬ Unmappable n s.mem req → Z i (finalized (advanced (s.zt.zones i) req.nlb) req.nlb))

section Results

variable {s : ZnsState} {req : NvmeRequest} {append wrz : Bool} {r : Handled}

/-- The table between the two halves of a write: the zone has been advanced. -/
theorem advanced_inv (hZ : Stable Z) (h : Inv n Z s.zt) (hi : i < n.numZones)
    {t₁ t₂ : ZoneTable} {nlb lba : Nat} (hopen : znsAutoOpenZone n s.zt i = .ok (nvmeSuccess, t₁))
    (hadv : znsAdvanceZoneWp n t₁ i nlb = .ok (lba, t₂)) :
    t₁.zones i = s.zt.zones i ∧ lba = (s.zt.zones i).wPtr ∧
      t₂.zones = Function.update t₁.zones i (advanced (s.zt.zones i) nlb) ∧
      Inv n (fun j z => if j = i then z = advanced (s.zt.zones i) nlb else Z j z) t₂ := by
  obtain ⟨hinv₁, hsame, hroom⟩ := (autoOpen_inv (i := i) hZ h).of_ok hopen
  dsimp only at hinv₁ hsame hroom
  rw [← hsame] at hroom ⊢
  have hadvanced := advance_inv
    (Z := fun j z => if j = i then z = advanced (t₁.zones i) nlb else Z j z) hinv₁ hi nlb (hroom rfl)
    (fun j z hj hz => by simpa [hj] using hz) (by simp)
  obtain ⟨hlba, hinv₂, hzones⟩ := hadvanced.of_ok hadv
  exact ⟨rfl, hlba, hzones, hinv₂⟩

/-- The table after the end of a write. -/
theorem finalized_inv {z : NvmeZone} {t₂ t₃ : ZoneTable} {nlb : Nat} (hi : i < n.numZones)
    (h : Inv n (fun j z' => if j = i then z' = z else Z j z') t₂)
    (hfin : znsFinalizeZonedWrite n t₂ i nlb = .ok t₃) (hz : Z i (finalized z nlb)) :
    Inv n Z t₃ ∧ t₃.zones = Function.update t₂.zones i (finalized z nlb) := by
  have hzone : t₂.zones i = z := by simpa using h.zone i hi
  rw [← hzone] at hz ⊢
  exact (finalize_inv h hi nlb (fun j z' hj hz' => by simpa [hj] using hz') hz).of_ok hfin

theorem WriteResult.inv (hZ : Stable Z) (h : Inv n Z s.zt) (hi : i < n.numZones)
    (hget : znsGetZoneBySlba n req.cmd.slba = .ok i) (hr : WriteResult n req append false s i r)
    (hkeep : WriteKeeps n Z s req append) : Inv n Z r.2.2.zt := by
  cases hr with
  | refused hcheck hstatus => exact h
  | noRoom hcheck hopen hstatus => exact ((autoOpen_inv hZ h).of_ok hopen).1
  | unmapped hcheck hopen hadv hwrz hmap hstatus =>
      obtain ⟨-, -, -, hinv⟩ := advanced_inv hZ h hi hopen hadv
      have hz := (hkeep i ⟨hi, hget, hcheck, _, hopen⟩).1 ((mapDptr_cases hmap).1.mp hstatus)
      refine hinv.weaken fun j z hj => ?_
      split at hj
      · rename_i hji
        rw [hji, hj]
        exact hz
      · exact hj
  | zeroes hcheck hopen hadv hwrz hfin => cases hwrz
  | done hcheck hopen hadv hwrz hmap hrw hfin =>
      obtain ⟨-, -, -, hinv⟩ := advanced_inv hZ h hi hopen hadv
      have hzt := ((backendRw_safe _ _ _).of_ok hrw).1
      have hmapped : ¬ Unmappable n s.mem req := fun hc => (mapDptr_cases hmap).1.mpr hc rfl
      have hz := (hkeep i ⟨hi, hget, hcheck, _, hopen⟩).2 hmapped
      dsimp only at hzt
      rw [← hzt] at hinv
      exact (finalized_inv hi hinv hfin hz).1

end Results

end Femu.Zns

import Femu.Lib.Disk
import Femu.Zns.Append

/-!
# Femu.Zns.Logs

What a zone is for: its blocks are a log. Over every run, as long as the buffers can be
mapped, the appends fit and find the direction of a write in their slot, the backend holds
in each zone the data that the host has written and appended to it since its write pointer
was last at the start, in that order and ending at the write pointer (`zones_are_logs`).
-/

namespace Femu.Zns

open Nvme Lib

variable {n : ZnsCtrl} {s s' : ZnsState} {req : NvmeRequest} {i : Nat}

/-! ## what an event stores -/

/-- The commands that store a buffer. -/
def ZnsOp.stores : ZnsOp → Bool
  | read => false
  | write => true
  | append => true
  | mgmtSend => false

/-- The bytes that an event stores in zone `i`: the buffer of a write or append to the zone
that succeeds. -/
def storedIn (n : ZnsCtrl) (i : Nat) (sys : System) : Event → List UInt8
  | .cmd op slot c =>
    match znsGetZoneBySlba n c.slba, sys.exec n op slot c with
    | .ok k, .ok (status, _) =>
      if op.stores = true ∧ i = k ∧ status = nvmeSuccess then
        hostBuffer n sys.dev (sys.fetch slot c)
      else
        []
    | _, _ => []
  | _ => []

/-- The log of a zone after an event: it starts anew when the write pointer is back at the
start of the zone. -/
def nextLog (n : ZnsCtrl) (i : Nat) (sys : System) (ev : Event) (sys' : System)
    (log : List UInt8) : List UInt8 :=
  if (sys'.dev.zt.zones i).wp = (sys'.dev.zt.zones i).zslba then [] else log ++ storedIn n i sys ev

/-- The log of zone `i` after a run. -/
def zoneLog (n : ZnsCtrl) (i : Nat) : List Event → System → List UInt8 → List UInt8
  | [], _, log => log
  | ev :: evs, sys, log =>
    match sys.step n ev with
    | .ok sys' => zoneLog n i evs sys' (nextLog n i sys ev sys' log)
    | .error _ => log

/-- A transfer that passes the check of its length has a length of 32 bits. -/
def ShortTransfers (n : ZnsCtrl) : Prop := n.mdts ≠ 0 ∨ n.lbads < 16

instance (n : ZnsCtrl) : Decidable (ShortTransfers n) := inferInstanceAs (Decidable (_ ∨ _))

theorem ShortTransfers.len_lt (h : ShortTransfers n)
    (hmdts : nvmeCheckMdts n (n.l2b req.nlb) = nvmeSuccess) : n.l2b req.nlb < 2 ^ 32 := by
  obtain h | h := h
  · unfold nvmeCheckMdts at hmdts
    split at hmdts
    · exact absurd hmdts (or_dnr_ne _)
    · rename_i hfit
      have := Nat.mod_lt (n.pageSize <<< n.mdts) (Nat.two_pow_pos 32)
      simp only [u32] at hfit
      omega
  · have hnlb : req.nlb ≤ 2 ^ 16 := by
      have := Nat.mod_lt req.cmd.cdw12.toNat (Nat.two_pow_pos 16)
      simp only [NvmeRequest.nlb, NvmeCmd.nlb]
      omega
    have hshift : req.nlb * 2 ^ n.lbads ≤ 2 ^ 16 * 2 ^ 15 :=
      Nat.mul_le_mul hnlb (Nat.pow_le_pow_right (by decide) (by omega))
    have hle := u64_le (req.nlb <<< n.lbads)
    rw [Nat.shiftLeft_eq] at hle
    rw [ZnsCtrl.l2b, Nat.shiftLeft_eq]
    omega

/-- The segments of the host's buffer. -/
def hostSegments (n : ZnsCtrl) (s : ZnsState) (req : NvmeRequest) : List ScatterGatherEntry :=
  match nvmeMapPrp .stub n.toDmaCtrl s.mem req.cmd.prp1.toNat req.cmd.prp2.toNat
      (n.l2b req.nlb) req.map with
  | some (_, map) => map.qsg.sg
  | none => []

theorem hostBuffer_eq_gather (n : ZnsCtrl) (s : ZnsState) (req : NvmeRequest) :
    hostBuffer n s req = gather s.mem.host (hostSegments n s req) := by
  unfold hostBuffer hostSegments
  cases nvmeMapPrp .stub n.toDmaCtrl s.mem req.cmd.prp1.toNat req.cmd.prp2.toNat (n.l2b req.nlb)
      req.map with
  | none => rfl
  | some r => rfl

/-- A buffer that has been mapped. -/
theorem hostSegments_of_mapped {map : Mapping} (hlen : n.l2b req.nlb < 2 ^ 32)
    (hmap : nvmeMapPrp .stub n.toDmaCtrl s.mem req.cmd.prp1.toNat req.cmd.prp2.toNat
      (n.l2b req.nlb) req.map = some (nvmeSuccess, map)) :
    map.qsg.Covers (n.l2b req.nlb) ∧ map.qsg.sg = hostSegments n s req ∧
      sgTotal (hostSegments n s req) = n.l2b req.nlb := by
  have hcov := (nvmeMapPrp_covers hmap).2
  rw [u32_eq hlen] at hcov
  have hsg : map.qsg.sg = hostSegments n s req := by simp [hostSegments, hmap]
  exact ⟨hcov, hsg, hsg ▸ hcov.total_eq⟩

/-! ## reads -/

/-- What a successful read has done to memory. -/
structure Loaded (n : ZnsCtrl) (s s' : ZnsState) (req : NvmeRequest) : Prop where
  inside : req.cmd.slba + req.nlb ≤ n.nsze
  len : sgTotal (hostSegments n s req) = n.l2b req.nlb
  mem : s'.mem = ⟨scatter s.mem.host (hostSegments n s req)
    (slice s.mb (n.l2b req.cmd.slba) (n.l2b req.nlb)), s.mem.cmbuf⟩

theorem nsze_of_checkBounds {slba nlb : Nat} (h : znsCheckBounds n slba nlb = nvmeSuccess) :
    slba + nlb ≤ n.nsze := by
  unfold znsCheckBounds at h
  split at h
  · exact absurd h (or_dnr_ne _)
  · omega

/-- A read changes neither the zones nor the backend. -/
theorem read_done (hshort : ShortTransfers n) :
    Safe (fun _ => True) (znsRead n req s) fun r =>
      r.2.2.zt = s.zt ∧ r.2.2.mb = s.mb ∧ (r.1 = nvmeSuccess → Loaded n s r.2.2 req) := by
  have hfail : ∀ status : Status, True ∧ True ∧
      (status ||| nvmeDnr = nvmeSuccess → Loaded n s s req) := fun status =>
    ⟨trivial, trivial, fun hst => absurd hst (or_dnr_ne status)⟩
  unfold znsRead
  simp only [safe_bind, safe_require, safe_ite, safe_pure, implies_true, and_true]
  refine fun _ => ⟨fun _ => hfail _, fun hmdts => ⟨fun _ => hfail _, fun hbounds => ?_⟩⟩
  refine safe_of_ok fun status _ => ⟨fun _ => hfail _, fun _ => safe_of_ok fun r hmap => ?_⟩
  refine ⟨fun _ => hfail _, fun hst => safe_of_ok fun r' hrw => ?_⟩
  let req₀ : NvmeRequest := { req with isWrite := false }
  have hmap : znsMapDptr n s.mem (n.l2b req₀.nlb) { req₀ with resSlba := req.resSlba } =
      .ok (nvmeSuccess, r.2) := by
    rw [← not_not.mp hst]
    exact hmap
  obtain ⟨-, hreq, hmapped⟩ := mapDptr_cases hmap
  have hlen := hshort.len_lt (not_not.mp hmdts)
  obtain ⟨hcov, hsg, htotal⟩ := hostSegments_of_mapped hlen (hmapped rfl)
  have hback := znsBackendRw_eq hcov hrw
  have hw : r.2.isWrite = false := by rw [hreq]
  have hcmd : r.2.cmd = req.cmd := by rw [hreq]
  simp only [hw, Bool.false_eq_true, if_false, hsg, hcmd] at hback
  rw [hback]
  exact ⟨rfl, rfl, fun _ => ⟨nsze_of_checkBounds (not_not.mp hbounds), htotal, rfl⟩⟩

/-! ## zone management -/

theorem mgmtSend_mb : Safe (fun _ => True) (znsZoneMgmtSend n req s) fun r => r.2.2.mb = s.mb := by
  have hzdExt : ∀ zone, Safe (fun _ => True) (sendZdExt n req.cmd zone s) fun r => r.2.mb = s.mb := by
    intro zone
    unfold sendZdExt
    simp only [safe_bind, safe_ite, safe_pure, implies_true, true_and]
    exact safe_of_ok fun r _ _ => safe_true _
  have hsend : ∀ slba zone, Safe (fun _ => True) (sendToZone n req.cmd slba zone s) fun r =>
      r.2.mb = s.mb := by
    intro slba zone
    unfold sendToZone
    simp only [safe_ite, safe_pure, implies_true, true_and]
    intro _
    split
    · simp only [safe_bind, safe_ite, safe_pure, implies_true, safe_true, true_and]
    · simp only [safe_ite, safe_pure, implies_true, hzdExt, true_and]
  unfold znsZoneMgmtSend
  simp only [safe_ite, safe_pure, safe_bind, safe_true, implies_true, true_and, hsend]

/-- What the state machine does to the pointer of a zone: it leaves it, moves it to the start,
or has made the zone full. -/
structure Carried (z z' : NvmeZone) : Prop where
  zslba_eq : z'.zslba = z.zslba
  wp : z'.wp = z'.zslba ∨ (z'.zs = .full ∧ z.wp ≤ z'.wp) ∨
    (z'.wp = z.wp ∧ (z.zs = .full → z'.zs = .full))

theorem Carried.refl (z : NvmeZone) : Carried z z := ⟨rfl, .inr (.inr ⟨rfl, id⟩)⟩

/-- The moves carry the zones, but for a zone `k` of which nothing is said. -/
theorem stable_carried (hgeo : Geometry n) {z₀ : Nat → NvmeZone}
    (h₀ : ∀ j < n.numZones, ZoneOk n j (z₀ j)) (k : Nat) :
    Stable fun j z => j < n.numZones → ZoneOk n j z ∧ (j ≠ k → Carried (z₀ j) z) := by
  intro j z z' hmove hok hj
  refine ⟨stable_zoneOk hgeo j z z' hmove (fun hj => (hok hj).1) hj, fun hjk => ?_⟩
  obtain ⟨hz, hcarried⟩ := hok hj
  obtain ⟨hzslba, hwp⟩ := hcarried hjk
  have hact : ∀ {zs : NvmeZoneState}, zs.isActive = true → zs ≠ .full := by
    intro zs hzs hc
    simp [hc, NvmeZoneState.isActive] at hzs
  -- a move that leaves the pointer of a zone that is not full
  have hsame : z.zs ≠ .full → ∀ zs : NvmeZoneState, z.wp = z.zslba ∨
      (zs = .full ∧ (z₀ j).wp ≤ z.wp) ∨ (z.wp = (z₀ j).wp ∧ ((z₀ j).zs = .full → zs = .full)) := by
    intro hnot zs
    obtain h | h | h := hwp
    · exact .inl h
    · exact absurd h.1 hnot
    · exact .inr (.inr ⟨h.1, fun hc => absurd (h.2 hc) hnot⟩)
  cases hmove with
  | opn h => exact ⟨hzslba, hsame (fun hc => by simp [hc] at h) .explicitlyOpen⟩
  | close h => exact ⟨hzslba, hsame (hact (isActive_of_isOpen h)) .closed⟩
  | finish h =>
      refine ⟨hzslba, .inr (.inl ⟨rfl, ?_⟩)⟩
      have hp := (h₀ j hj).pointers
      have hbound := hgeo.boundary_eq hj hz.zslba_eq hz.zcap_eq
      show (z₀ j).wp ≤ znsZoneWrBoundary z
      rw [hbound, hz.zcap_eq, hzslba, hp.same, ← (h₀ j hj).zcap_eq]
      exact hp.le_capacity
  | reset h => exact ⟨hzslba, .inl rfl⟩
  | extend h => exact ⟨hzslba, hsame (by simp [h]) .closed⟩
  | clear h hwp => exact ⟨hzslba, hsame (hact h) .closed⟩
  | clearEmpty h hwp => exact ⟨hzslba, hsame (hact h) .empty⟩

/-! ## writes and appends -/

/-- A write has put the buffer at the write pointer of zone `k` and has moved the pointer on. -/
structure Extended (n : ZnsCtrl) (s s' : ZnsState) (k nlb : Nat) (buf : List UInt8) : Prop where
  lt : k < n.numZones
  not_full : (s.zt.zones k).zs ≠ .full
  pos : 0 < nlb
  fits : (s.zt.zones k).wp + nlb ≤ (s.zt.zones k).zslba + (s.zt.zones k).zcap
  len : buf.length = nlb * 2 ^ n.lbads
  mb : s'.mb = overwrite s.mb ((s.zt.zones k).wp * 2 ^ n.lbads) buf
  wp : (s'.zt.zones k).wp = (s.zt.zones k).wp + nlb
  zslba_eq : (s'.zt.zones k).zslba = (s.zt.zones k).zslba

/-- A namespace whose zones have their pointers in order, with less than `2^64` bytes. -/
structure LogState (n : ZnsCtrl) (s : ZnsState) : Prop where
  geometry : Geometry n
  nsze_eq : n.nsze = n.numZones * n.zoneSize
  bytes_lt : n.nsze * 2 ^ n.lbads < 2 ^ 64
  inv : Inv n (fun i z => i < n.numZones → ZoneOk n i z) s.zt

theorem LogState.zoneOk (h : LogState n s) {j : Nat} (hj : j < n.numZones) :
    ZoneOk n j (s.zt.zones j) := h.inv.zone j hj hj

/-- The pointer and the start of a zone after a write that fits. -/
theorem finalized_advanced {z : NvmeZone} {nlb : Nat} (hlt : z.wp + nlb < 2 ^ 64) :
    (finalized (advanced z nlb) nlb).wp = z.wp + nlb ∧
      (finalized (advanced z nlb) nlb).zslba = z.zslba := by
  have hadv : (advanced z nlb).wp = z.wp ∧ (advanced z nlb).zslba = z.zslba := by
    unfold advanced
    dsimp only
    split
    · exact ⟨rfl, rfl⟩
    · exact ⟨rfl, rfl⟩
  rw [← u64_eq hlt, ← hadv.1, ← hadv.2]
  unfold finalized
  dsimp only
  split
  · exact ⟨rfl, rfl⟩
  · exact ⟨rfl, rfl⟩

/-- What a write or append whose request has the direction of a write does. -/
theorem doWrite_log (h : LogState n s) (hshort : ShortTransfers n) {append : Bool}
    (hwrite : req.isWrite = true)
    (hmaps : Admitted n req → ∀ i, Accepts n s req append i → ¬ Unmappable n s.mem req)
    (hfits : Admitted n req → ∀ i, Accepts n s req append i →
      (s.zt.zones i).wPtr + req.nlb ≤ (s.zt.zones i).zslba + (s.zt.zones i).zcap) :
    Safe (fun _ => True) (znsDoWrite n req append false s) fun r =>
      (r.1 ≠ nvmeSuccess ∧ r.2.2.mb = s.mb ∧
        ∀ k, znsGetZoneBySlba n req.cmd.slba = .ok k → r.2.2.zt.zones k = s.zt.zones k) ∨
      (r.1 = nvmeSuccess ∧ ∃ k, znsGetZoneBySlba n req.cmd.slba = .ok k ∧
        Extended n s r.2.2 k req.nlb (hostBuffer n s req)) := by
  have htrue : Inv n (fun _ _ => True) s.zt := h.inv.weaken fun _ _ _ => trivial
  refine (doWrite_safe htrue append).mono (fun _ _ => trivial) fun r hr => ?_
  obtain ⟨-, hst, hsame⟩ | ⟨hadm, i, hi, hget, hresult⟩ := hr
  · rw [hsame]
    exact .inl ⟨hst, rfl, fun _ _ => rfl⟩
  cases hresult with
  | refused hcheck hstatus => exact .inl ⟨or_dnr_ne _, rfl, fun _ _ => rfl⟩
  | noRoom hcheck hopen hstatus =>
      refine .inl ⟨or_dnr_ne _, rfl, fun k hk => ?_⟩
      obtain rfl : i = k := by rw [hget] at hk; exact Except.ok.inj hk
      exact ((autoOpen_inv stable_true htrue).of_ok hopen).2.1
  | unmapped hcheck hopen hadv hwrz hmap hstatus =>
      exact absurd ((mapDptr_cases hmap).1.mp hstatus) (hmaps hadm i ⟨hi, hget, hcheck, _, hopen⟩)
  | zeroes hcheck hopen hadv hwrz hfin => cases hwrz
  | done hcheck hopen hadv hwrz hmap hrw hfin =>
      rename_i t₁ t₂ t₃ req₁ req₂ s₂ lba
      refine .inr ⟨rfl, i, hget, ?_⟩
      obtain ⟨hsame, -, hzones, hinv₂⟩ := advanced_inv stable_true htrue hi hopen hadv
      obtain ⟨-, hreq₁, hmapped⟩ := mapDptr_cases hmap
      have hfit := hfits hadm i ⟨hi, hget, hcheck, _, hopen⟩
      have hlen := hshort.len_lt hadm.1
      obtain ⟨hcov, hsg, htotal⟩ := hostSegments_of_mapped hlen (hmapped rfl)
      obtain ⟨hstate, -, hslba⟩ := (checkZoneWrite_safe (h.inv.usable i hi) _ _ _).of_ok hcheck rfl
      have hok := h.zoneOk hi
      have hback := znsBackendRw_eq hcov hrw
      have hw : req₁.isWrite = true := by rw [hreq₁]; exact hwrite
      -- both kinds of command store at the write pointer
      have hat : (if append then (t₁.zones i).wPtr else req.cmd.slba) = (s.zt.zones i).wp := by
        rw [hsame, hok.pointers.same]
        split
        · rfl
        · rename_i hnot
          rw [hslba, if_neg hnot]
      rw [if_pos hw, hat, read_eq_gather, hsg] at hback
      dsimp only at hback
      rw [← hostBuffer_eq_gather] at hback
      have hin : (s.zt.zones i).wp + req.nlb ≤ n.nsze := by
        have hzone := zone_le hi
        have hcap := h.geometry.capacity_le
        rw [h.nsze_eq, hok.pointers.same]
        rw [hok.zslba_eq, hok.zcap_eq] at hfit
        omega
      have hlt : (s.zt.zones i).wp + req.nlb < 2 ^ 64 := by
        have := h.geometry.total_lt
        rw [h.nsze_eq] at hin
        omega
      have hzt : s₂.zt = t₂ := by rw [hback]
      rw [hzt] at hfin
      obtain ⟨-, hzones₃⟩ := finalized_inv (Z := fun _ _ => True) hi hinv₂ hfin trivial
      obtain ⟨hwp, hzslba⟩ := finalized_advanced hlt
      refine ⟨hi, ?_, Nat.succ_pos _, ?_, ?_, ?_, ?_, ?_⟩
      · intro hc
        simp [hc, NvmeZoneState.isActive] at hstate
      · rw [hok.pointers.same]
        exact hfit
      · rw [hostBuffer_eq_gather, length_gather, htotal]
        exact l2b_eq h.bytes_lt (by omega)
      · show s₂.mb = _
        rw [hback, l2b_eq h.bytes_lt (by omega)]
      · show (t₃.zones i).wp = _
        rw [hzones₃, Function.update_self, hwp]
      · show (t₃.zones i).zslba = _
        rw [hzones₃, Function.update_self, hzslba]

/-! ## one event -/

/-- An event that the log can follow: the buffer can be mapped, an append fits and finds the
direction of a write in its slot. -/
def Loggable (n : ZnsCtrl) (sys : System) (ev : Event) : Prop :=
  Maps n sys ev ∧ AppendFits n sys ev ∧
    ∀ slot c, ev = .cmd .append slot c → (sys.slots slot).isWrite = true

/-- What an event does to the zones and the backend: nothing but the moves of the state
machine, or it extends one zone. -/
inductive LogEffect (n : ZnsCtrl) (sys : System) (ev : Event) (sys' : System) : Prop
  | kept (hmb : sys'.dev.mb = sys.dev.mb)
      (hzones : ∀ j < n.numZones, Carried (sys.dev.zt.zones j) (sys'.dev.zt.zones j))
      (hstored : ∀ i, storedIn n i sys ev = [])
  | extended {k nlb : Nat} {buf : List UInt8} (hext : Extended n sys.dev sys'.dev k nlb buf)
      (hothers : ∀ j < n.numZones, j ≠ k →
        Carried (sys.dev.zt.zones j) (sys'.dev.zt.zones j))
      (hstored : ∀ i, storedIn n i sys ev = if i = k then buf else [])

variable {sys sys' : System} {ev : Event}

theorem step_cmd {op : ZnsOp} {slot : Nat} {c : NvmeCmd}
    (h : sys.step n (.cmd op slot c) = .ok sys') :
    ∃ status, sys.exec n op slot c = .ok (status, sys') := by
  simp only [System.step] at h
  cases hexec : sys.exec n op slot c with
  | error f =>
      rw [hexec] at h
      cases h
  | ok res =>
      obtain ⟨status, sys₁⟩ := res
      rw [hexec] at h
      cases h
      exact ⟨status, rfl⟩

theorem storedIn_eq {op : ZnsOp} {slot k : Nat} {c : NvmeCmd} {status : Status}
    (hget : znsGetZoneBySlba n c.slba = .ok k) (h : sys.exec n op slot c = .ok (status, sys'))
    (i : Nat) : storedIn n i sys (.cmd op slot c) =
      if op.stores = true ∧ i = k ∧ status = nvmeSuccess then
        hostBuffer n sys.dev (sys.fetch slot c)
      else [] := by
  simp only [storedIn, hget, h]

/-- A command that does not store, or fails, stores nothing. -/
theorem storedIn_nil {op : ZnsOp} {slot : Nat} {c : NvmeCmd} {status : Status}
    (h : sys.exec n op slot c = .ok (status, sys'))
    (hno : op.stores = false ∨ status ≠ nvmeSuccess) (i : Nat) :
    storedIn n i sys (.cmd op slot c) = [] := by
  cases hget : znsGetZoneBySlba n c.slba with
  | error f => simp only [storedIn, hget]
  | ok k =>
      rw [storedIn_eq hget h, if_neg]
      rintro ⟨hstores, -, hst⟩
      obtain hno | hno := hno
      · rw [hno] at hstores
        cases hstores
      · exact hno hst

/-- The zones but `k` after an event. -/
theorem LogState.carried (h : LogState n sys.dev) {k : Nat}
    (hkeep : EventKeeps n (fun j z => j < n.numZones →
      ZoneOk n j z ∧ (j ≠ k → Carried (sys.dev.zt.zones j) z)) sys ev)
    (hstep : sys.step n ev = .ok sys') {j : Nat} (hj : j < n.numZones) (hjk : j ≠ k) :
    Carried (sys.dev.zt.zones j) (sys'.dev.zt.zones j) := by
  have hinv : Inv n (fun j z => j < n.numZones →
      ZoneOk n j z ∧ (j ≠ k → Carried (sys.dev.zt.zones j) z)) sys.dev.zt :=
    ⟨h.inv.listed, h.inv.counts, h.inv.fits, h.inv.usable,
      fun j hj _ => ⟨h.zoneOk hj, fun _ => .refl _⟩⟩
  have hstable := stable_carried h.geometry (fun j hj => h.zoneOk hj) k
  exact (((step_inv hstable hinv ev hkeep).of_ok hstep).zone j hj hj).2 hjk

/-- A command that runs `zns_do_write` on a request with the direction of a write. -/
theorem effect_of_doWrite (h : LogState n sys.dev) (hshort : ShortTransfers n) {op : ZnsOp}
    {slot : Nat} {c : NvmeCmd} {append : Bool} {status : Status} {req' : NvmeRequest}
    (hstores : op.stores = true) (hstep : sys.step n (.cmd op slot c) = .ok sys')
    (hexec : sys.exec n op slot c = .ok (status, sys'))
    (hrun : znsDoWrite n req append false sys.dev = .ok (status, req', sys'.dev))
    (hreq : req.cmd = c ∧ req.isWrite = true ∧
      hostBuffer n sys.dev req = hostBuffer n sys.dev (sys.fetch slot c))
    (hmaps : Admitted n req → ∀ i, Accepts n sys.dev req append i → ¬ Unmappable n sys.dev.mem req)
    (hfits : Admitted n req → ∀ i, Accepts n sys.dev req append i →
      (sys.dev.zt.zones i).wPtr + req.nlb ≤ (sys.dev.zt.zones i).zslba + (sys.dev.zt.zones i).zcap)
    (hkeep : ∀ k, (∀ i, znsGetZoneBySlba n c.slba = .ok i → i = k) →
      EventKeeps n (fun j z => j < n.numZones →
        ZoneOk n j z ∧ (j ≠ k → Carried (sys.dev.zt.zones j) z)) sys (.cmd op slot c)) :
    LogEffect n sys (.cmd op slot c) sys' := by
  obtain ⟨rfl, hwrite, hbuf⟩ := hreq
  have hresult := (doWrite_log h hshort hwrite hmaps hfits).of_ok hrun
  cases hget : znsGetZoneBySlba n req.cmd.slba with
  | error f =>
      have hnone : ∀ i, znsGetZoneBySlba n req.cmd.slba = .ok i → i = n.numZones := fun i hi => by
        rw [hget] at hi
        cases hi
      obtain ⟨hst, hmb, -⟩ | ⟨-, k, hk, -⟩ := hresult
      · exact .kept hmb (fun j hj => h.carried (hkeep _ hnone) hstep hj (Nat.ne_of_lt hj))
          (storedIn_nil hexec (.inr hst))
      · rw [hget] at hk
        cases hk
  | ok k =>
      have honly : ∀ i, znsGetZoneBySlba n req.cmd.slba = .ok i → i = k := fun i hi => by
        rw [hget] at hi
        exact (Except.ok.inj hi).symm
      have hothers : ∀ j < n.numZones, j ≠ k →
          Carried (sys.dev.zt.zones j) (sys'.dev.zt.zones j) :=
        fun j hj hjk => h.carried (hkeep k honly) hstep hj hjk
      obtain ⟨hst, hmb, hsame⟩ | ⟨hst, k', hk', hext⟩ := hresult
      · refine .kept hmb (fun j hj => ?_) (storedIn_nil hexec (.inr hst))
        by_cases hjk : j = k
        · have hz : sys'.dev.zt.zones k = sys.dev.zt.zones k := hsame k hget
          rw [hjk, hz]
          exact .refl _
        · exact hothers j hj hjk
      · obtain rfl : k' = k := honly k' hk'
        obtain rfl : status = nvmeSuccess := hst
        refine .extended hext hothers fun i => ?_
        rw [storedIn_eq hget hexec, hbuf]
        simp [hstores]

theorem write_eq {r : Handled} (h : znsWrite n req s = .ok r) :
    znsDoWrite n { req with isWrite := true } false false s = .ok r := by
  unfold znsWrite at h
  by_cases hz : n.zoned = true
  · rwa [require_bind hz] at h
  · rw [require, if_neg hz] at h
    cases h

/-- **Step lemma**: the effect of an event. -/
theorem step_effect (h : LogState n sys.dev) (hshort : ShortTransfers n) (hev : Loggable n sys ev)
    (hstep : sys.step n ev = .ok sys') : LogEffect n sys ev sys' := by
  obtain ⟨hmaps, hfits, hdir⟩ := hev
  have hall : ∀ {ev : Event}, sys.step n ev = .ok sys' →
      EventKeeps n (fun j z => j < n.numZones →
        ZoneOk n j z ∧ (j ≠ n.numZones → Carried (sys.dev.zt.zones j) z)) sys ev →
      ∀ j < n.numZones, Carried (sys.dev.zt.zones j) (sys'.dev.zt.zones j) :=
    fun hstep hkeep j hj => h.carried hkeep hstep hj (Nat.ne_of_lt hj)
  -- an accepted write keeps what is asked of the zones
  have hwritten : ∀ (req : NvmeRequest) append k, (∀ i, znsGetZoneBySlba n req.cmd.slba = .ok i → i = k) →
      (∀ i, Accepts n sys.dev req append i → ¬ Unmappable n sys.dev.mem req) →
      (∀ i, Accepts n sys.dev req append i → (sys.dev.zt.zones i).wPtr + req.nlb ≤
        (sys.dev.zt.zones i).zslba + (sys.dev.zt.zones i).zcap) →
      WriteKeeps n (fun j z => j < n.numZones →
        ZoneOk n j z ∧ (j ≠ k → Carried (sys.dev.zt.zones j) z)) sys.dev req append := by
    intro req append k honly hmap hfit i hacc
    have hok := (writeKeeps_zoneOk h.geometry h.inv hmap hfit i hacc).2
    exact ⟨fun hun => absurd hun (hmap i hacc), fun hun hi =>
      ⟨hok hun hi, fun hik => absurd (honly i hacc.2.1) hik⟩⟩
  match ev with
  | .host mem =>
    cases hstep
    exact .kept rfl (fun _ _ => .refl _) fun _ => rfl
  | .shutdown =>
    have hmb : Safe (fun _ => True) (sys.step n .shutdown) fun sys' => sys'.dev.mb = sys.dev.mb := by
      simp only [System.step, safe_bind, safe_pure, safe_true]
    exact .kept (hmb.of_ok hstep) (hall hstep trivial) fun _ => rfl
  | .cmd .read slot c =>
    obtain ⟨status, hexec⟩ := step_cmd hstep
    have hmb := ((read_done hshort).of_ok (exec_ok hexec)).2.1
    exact .kept hmb (hall hstep trivial) (storedIn_nil hexec (.inl rfl))
  | .cmd .mgmtSend slot c =>
    obtain ⟨status, hexec⟩ := step_cmd hstep
    have hmb := mgmtSend_mb.of_ok (exec_ok hexec)
    exact .kept hmb (hall hstep trivial) (storedIn_nil hexec (.inl rfl))
  | .cmd .write slot c =>
    obtain ⟨status, hexec⟩ := step_cmd hstep
    have hnsze : n.nsze < 2 ^ 64 := h.nsze_eq ▸ h.geometry.total_lt
    have hrun := write_eq (exec_ok hexec)
    exact effect_of_doWrite h hshort rfl hstep hexec hrun ⟨rfl, rfl, rfl⟩ hmaps
      (fun hadm => write_fits h.geometry h.inv hadm hnsze)
      fun k honly hadm => hwritten _ _ k honly (hmaps hadm) (write_fits h.geometry h.inv hadm hnsze)
  | .cmd .append slot c =>
    obtain ⟨status, hexec⟩ := step_cmd hstep
    exact effect_of_doWrite h hshort rfl hstep hexec (exec_ok hexec) ⟨rfl, hdir slot c rfl, rfl⟩ hmaps
      hfits fun k honly hadm => hwritten _ _ k honly (hmaps hadm) (hfits hadm)

/-! ## the log of a zone -/

/-- The backend holds the log from the start of the zone on; the log ends at the write pointer
unless the zone has been finished. -/
structure LogOk (n : ZnsCtrl) (mb : Bytes) (z : NvmeZone) (log : List UInt8) : Prop where
  holds : HoldsLog mb (z.zslba * 2 ^ n.lbads) log
  le_wp : z.zslba * 2 ^ n.lbads + log.length ≤ z.wp * 2 ^ n.lbads
  at_wp : z.zs ≠ .full → z.zslba * 2 ^ n.lbads + log.length = z.wp * 2 ^ n.lbads

section Step

variable {mb : Bytes} {z z' : NvmeZone} {log buf : List UInt8}

theorem logOk_nil (h : z.wp = z.zslba) : LogOk n mb z [] :=
  ⟨.nil _ _, by rw [h]; exact Nat.le_refl _, fun _ => by rw [h]; rfl⟩

theorem LogOk.carried (h : LogOk n mb z log) (hc : Carried z z') :
    LogOk n mb z' (if z'.wp = z'.zslba then [] else log) := by
  split
  · exact logOk_nil ‹_›
  · rename_i hne
    have hwp := hc.wp.resolve_left hne
    refine ⟨?_, ?_, ?_⟩
    · rw [hc.zslba_eq]
      exact h.holds
    · rw [hc.zslba_eq]
      obtain ⟨-, hle⟩ | ⟨heq, -⟩ := hwp
      · exact h.le_wp.trans (Nat.mul_le_mul_right _ hle)
      · rw [heq]
        exact h.le_wp
    · intro hnot
      obtain ⟨hfull, -⟩ | ⟨heq, hfull⟩ := hwp
      · exact absurd hfull hnot
      · rw [hc.zslba_eq, heq]
        exact h.at_wp fun hz => hnot (hfull hz)

/-- A write apart from the log leaves it alone. -/
theorem LogOk.apart (h : LogOk n mb z log) {off : Nat}
    (hapart : Apart off buf.length (z.zslba * 2 ^ n.lbads) log.length) :
    LogOk n (overwrite mb off buf) z log :=
  ⟨h.holds.apart hapart, h.le_wp, h.at_wp⟩

/-- The log of the zone that a write extends. -/
theorem LogOk.extend {k nlb : Nat} (h : LogOk n s.mb (s.zt.zones k) log)
    (hext : Extended n s s' k nlb buf) : LogOk n s'.mb (s'.zt.zones k) (log ++ buf) := by
  have hend := h.at_wp hext.not_full
  have hnext : (s'.zt.zones k).zslba * 2 ^ n.lbads + (log ++ buf).length =
      (s'.zt.zones k).wp * 2 ^ n.lbads := by
    rw [hext.zslba_eq, hext.wp, List.length_append, ← Nat.add_assoc, hend, hext.len, Nat.add_mul]
  refine ⟨?_, Nat.le_of_eq hnext, fun _ => hnext⟩
  rw [hext.mb, hext.zslba_eq, ← hend]
  exact h.holds.append buf

/-- A write to one zone is apart from the log of another. -/
theorem LogState.extended_apart (h : LogState n s) {j k nlb : Nat}
    (hlog : LogOk n s.mb (s.zt.zones j) log) (hext : Extended n s s' k nlb buf) (hj : j < n.numZones)
    (hjk : j ≠ k) : Apart ((s.zt.zones k).wp * 2 ^ n.lbads) buf.length
      ((s.zt.zones j).zslba * 2 ^ n.lbads) log.length := by
  have hle := hlog.le_wp
  have hcap := h.geometry.capacity_le
  have hzj := h.zoneOk hj
  have hzk := h.zoneOk hext.lt
  have hstart := hzk.pointers.start_le
  have hend := hzj.pointers.le_capacity
  have hfits := hext.fits
  rw [hzk.zslba_eq] at hstart hfits
  rw [← hzj.pointers.same, hzj.zslba_eq, hzj.zcap_eq] at hend
  rw [hzk.zcap_eq] at hfits
  rw [hext.len]
  rw [hzj.zslba_eq] at hle ⊢
  obtain hlt | hgt := Nat.lt_or_gt_of_ne hjk
  · -- the log ends before the zone that is written
    refine .inr (.inr (.inr (hle.trans (Nat.mul_le_mul_right _ ?_))))
    have hzones : (j + 1) * n.zoneSize ≤ k * n.zoneSize := Nat.mul_le_mul_right _ hlt
    rw [Nat.succ_mul] at hzones
    omega
  · refine .inr (.inr (.inl ?_))
    rw [← Nat.add_mul]
    refine Nat.mul_le_mul_right _ ?_
    have hzones : (k + 1) * n.zoneSize ≤ j * n.zoneSize := Nat.mul_le_mul_right _ hgt
    rw [Nat.succ_mul] at hzones
    omega

/-- **Step lemma**: an event keeps the log of each zone. -/
theorem LogEffect.logOk (h : LogState n sys.dev) (heff : LogEffect n sys ev sys') {j : Nat}
    (hj : j < n.numZones) (hlog : LogOk n sys.dev.mb (sys.dev.zt.zones j) log) :
    LogOk n sys'.dev.mb (sys'.dev.zt.zones j) (nextLog n j sys ev sys' log) := by
  cases heff with
  | kept hmb hzones hstored =>
      rw [nextLog, hstored, List.append_nil, hmb]
      exact hlog.carried (hzones j hj)
  | extended hext hothers hstored =>
      rename_i k nlb buf
      by_cases hjk : j = k
      · subst hjk
        have hmoved : ¬ (sys'.dev.zt.zones j).wp = (sys'.dev.zt.zones j).zslba := by
          have hstart := (h.zoneOk hj).pointers.start_le
          have hpos := hext.pos
          rw [hext.wp, hext.zslba_eq]
          omega
        rw [nextLog, if_neg hmoved, hstored, if_pos rfl]
        exact hlog.extend hext
      · rw [nextLog, hstored, if_neg hjk, List.append_nil, hext.mb]
        exact (hlog.apart (h.extended_apart hlog hext hj hjk)).carried (hothers j hj hjk)

end Step

/-- The state of the namespace after an event that the log can follow. -/
theorem LogState.step (h : LogState n sys.dev) (hev : Loggable n sys ev)
    (hstep : sys.step n ev = .ok sys') : LogState n sys'.dev :=
  ⟨h.geometry, h.nsze_eq, h.bytes_lt,
    (step_zoneOk ⟨h.geometry, h.nsze_eq, h.inv⟩ h.inv ⟨hev.1, hev.2.1⟩).of_ok hstep⟩

/-! ## runs -/

/-- Zone `i` as a log: the backend holds the log, which ends at the write pointer unless the
zone has been finished, and a read of some of its blocks puts that part of the log into the
buffer of the host. -/
structure ZoneIsLog (n : ZnsCtrl) (i : Nat) (sys : System) (log : List UInt8) : Prop where
  ok : LogOk n sys.dev.mb (sys.dev.zt.zones i) log
  reads : ∀ slot c sys', sys.exec n .read slot c = .ok (nvmeSuccess, sys') →
    (sys.dev.zt.zones i).zslba ≤ c.slba →
    (c.slba - (sys.dev.zt.zones i).zslba + (c.nlb + 1)) * 2 ^ n.lbads ≤ log.length →
    SgDisjoint (hostSegments n sys.dev (sys.fetch slot c)) →
    gather sys'.dev.mem.host (hostSegments n sys.dev (sys.fetch slot c)) =
      (log.drop ((c.slba - (sys.dev.zt.zones i).zslba) * 2 ^ n.lbads)).take
        ((c.nlb + 1) * 2 ^ n.lbads)

theorem LogState.reads (h : LogState n sys.dev) (hshort : ShortTransfers n) {log : List UInt8}
    (hlog : LogOk n sys.dev.mb (sys.dev.zt.zones i) log) : ZoneIsLog n i sys log := by
  refine ⟨hlog, fun slot c sys' hexec hslba hle hdis => ?_⟩
  obtain ⟨-, -, hloaded⟩ := (read_done hshort).of_ok (exec_ok hexec)
  obtain ⟨hin, hlen, hmem⟩ := hloaded rfl
  have hin : c.slba + (c.nlb + 1) ≤ n.nsze := hin
  have hlba : n.l2b (sys.fetch slot c).cmd.slba = c.slba * 2 ^ n.lbads :=
    l2b_eq h.bytes_lt (by omega)
  have hnlb : n.l2b (sys.fetch slot c).nlb = (c.nlb + 1) * 2 ^ n.lbads :=
    l2b_eq h.bytes_lt (by omega)
  have hoff : c.slba * 2 ^ n.lbads = (sys.dev.zt.zones i).zslba * 2 ^ n.lbads +
      (c.slba - (sys.dev.zt.zones i).zslba) * 2 ^ n.lbads := by
    rw [← Nat.add_mul, Nat.add_sub_cancel' hslba]
  rw [Nat.add_mul] at hle
  rw [hmem, gather_scatter hdis (by rw [length_slice, hlen]), hlba, hnlb, hoff]
  exact hlog.holds.read hle

/-- **Run lemma**: a run keeps the log of each zone. -/
theorem run_log (hshort : ShortTransfers n) {evs : List Event} (h : LogState n sys.dev)
    (hevs : Along (System.step n) (Loggable n) evs sys)
    (hrun : runE (System.step n) evs sys = .ok sys') (hi : i < n.numZones) {log : List UInt8}
    (hlog : LogOk n sys.dev.mb (sys.dev.zt.zones i) log) :
    LogState n sys'.dev ∧ LogOk n sys'.dev.mb (sys'.dev.zt.zones i) (zoneLog n i evs sys log) := by
  induction evs generalizing sys log with
  | nil =>
      cases hrun
      exact ⟨h, hlog⟩
  | cons ev evs ih =>
      rw [runE] at hrun
      obtain ⟨hev, hevs⟩ := hevs
      cases hstep : sys.step n ev with
      | error f =>
        rw [hstep] at hrun
        cases hrun
      | ok t =>
        rw [hstep, ok_bind] at hrun
        simp only [zoneLog, hstep]
        exact ih (h.step hev hstep) (hevs t hstep) hrun
          ((step_effect h hshort hev hstep).logOk h hi hlog)

/-- The zones of the table at the start are at their starts. -/
theorem initZonedState_wp {n₁ : ZnsCtrl} {zt : ZoneTable} (h : znsInitZonedState n₁ = some (n, zt))
    (hi : i < n.numZones) : (zt.zones i).wp = (zt.zones i).zslba := by
  unfold znsInitZonedState at h
  split at h
  · simp only [Option.some.injEq, Prod.mk.injEq] at h
    obtain ⟨rfl, rfl⟩ := h
    have hi' : i < 0 + n₁.numZones := by simpa using hi
    obtain ⟨lba, hz⟩ := (initZones_cases n₁ (u64 (n₁.numZones * n₁.zoneSize)) n₁.numZones 0 0
      n₁.zoneSize (fun _ => zeroZone) i).1 (Nat.zero_le i) hi'
    exact (congrArg NvmeZone.wp hz).trans (congrArg NvmeZone.zslba hz).symm
  · cases h

/-- **Zones are logs**: in every state that a run reaches from an accepted configuration,
each zone holds what the host has stored in it since its write pointer was last at the start,
in the order of the commands, and the pointer stands at the end of it. -/
theorem zones_are_logs {n₀ n₁ : ZnsCtrl} {zt : ZoneTable}
    (hgeo : znsInitZoneGeometry n₀ = some n₁) (hinit : znsInitZonedState n₁ = some (n, zt))
    (hshort : ShortTransfers n) {mem : Mem} {mb zdExtensions : Bytes} {slots : Nat → NvmeRequest}
    {evs : List Event}
    (hevs : Along (System.step n) (Loggable n) evs ⟨⟨zt, mem, mb, zdExtensions⟩, slots⟩)
    (hrun : runE (System.step n) evs ⟨⟨zt, mem, mb, zdExtensions⟩, slots⟩ = .ok sys) :
    ∀ i < n.numZones,
      ZoneIsLog n i sys (zoneLog n i evs ⟨⟨zt, mem, mb, zdExtensions⟩, slots⟩ []) := by
  have hstart := started_of_init hgeo hinit
  have h : LogState n ⟨zt, mem, mb, zdExtensions⟩ :=
    ⟨hstart.geometry, hstart.nsze_eq, bytes_lt_of_init hgeo hinit, hstart.inv⟩
  intro i hi
  obtain ⟨hend, hlog⟩ := run_log hshort h hevs hrun hi (logOk_nil (initZonedState_wp hinit hi))
  exact hend.reads hshort hlog

/-- Three blocks for the first zone, and three for the second one. -/
def threeFirst : NvmeCmd := { cdw12 := 2, prp1 := 4096 }
def threeSecond : NvmeCmd := { cdw10 := 4, cdw12 := 2, prp1 := 4096 }

/-- Their buffer can be mapped. -/
theorem not_unmappable_three {m : Mem} {c : NvmeCmd} (hnlb : c.cdw12 = 2) (hpsdt : c.psdt = 0)
    (hprp1 : c.prp1 = 4096) (hprp2 : c.prp2 = 0) (hcmd : req.cmd = c) :
    ¬ Unmappable twoZones m req := by
  rintro (h | ⟨status, map, hmap, hstatus⟩)
  · rw [hcmd, hpsdt] at h
    exact h rfl
  · have hlen : twoZones.l2b req.nlb = 1536 := by
      rw [NvmeRequest.nlb, hcmd, NvmeCmd.nlb, hnlb]
      decide
    have hprp₁ : req.cmd.prp1.toNat = 4096 := by rw [hcmd, hprp1]; rfl
    have hprp₂ : req.cmd.prp2.toNat = 0 := by rw [hcmd, hprp2]; rfl
    rw [hlen, hprp₁, hprp₂, map_appendThree, Option.some.injEq, Prod.mk.injEq] at hmap
    exact hstatus hmap.1.symm

theorem zones_are_logs_small :
    ∃ sys, runE (System.step twoZones)
        [hostOnes, .cmd .write 0 threeFirst, .cmd .append 0 threeSecond] twoZonesStart = .ok sys ∧
      ∀ i < twoZones.numZones, ZoneIsLog twoZones i sys (zoneLog twoZones i
        [hostOnes, .cmd .write 0 threeFirst, .cmd .append 0 threeSecond] twoZonesStart []) := by
  have hgeo : znsInitZoneGeometry twoZones = some twoZones := rfl
  have hbefore : (runE (System.step twoZones) [hostOnes, .cmd .write 0 threeFirst]
      twoZonesStart).toOption.map (fun sys => ((sys.slots 0).isWrite, (sys.dev.zt.zones 1).wPtr,
        (sys.dev.zt.zones 1).zslba, (sys.dev.zt.zones 1).zcap)) = some (true, 4, 4, 4) := by
    decide +kernel
  have hends : (runE (System.step twoZones)
      [hostOnes, .cmd .write 0 threeFirst, .cmd .append 0 threeSecond] twoZonesStart).isOk = true := by
    decide +kernel
  have happend : ∀ sys, runE (System.step twoZones) [hostOnes, .cmd .write 0 threeFirst]
      twoZonesStart = .ok sys → Loggable twoZones sys (.cmd .append 0 threeSecond) := by
    intro sys hrun
    simp only [hrun, Except.toOption, Option.map_some, Option.some.injEq, Prod.mk.injEq] at hbefore
    obtain ⟨hdir, hptr, hzslba, hzcap⟩ := hbefore
    refine ⟨fun _ i _ => not_unmappable_three rfl rfl rfl rfl rfl, fun _ i hacc => ?_, ?_⟩
    · have hget : znsGetZoneBySlba twoZones threeSecond.slba = .ok 1 := rfl
      obtain rfl : 1 = i := Except.ok.inj (hget.symm.trans hacc.2.1)
      have hnlb : (sys.fetch 0 threeSecond).nlb = 3 := rfl
      rw [hptr, hzslba, hzcap, hnlb]
      decide
    · rintro slot c hev
      cases hev
      exact hdir
  have hevs : Along (System.step twoZones) (Loggable twoZones)
      [hostOnes, .cmd .write 0 threeFirst, .cmd .append 0 threeSecond] twoZonesStart := by
    refine ⟨⟨trivial, trivial, fun _ _ hev => by cases hev⟩, fun s₁ h₁ => ⟨⟨fun _ i _ =>
      not_unmappable_three rfl rfl rfl rfl rfl, trivial, fun _ _ hev => by cases hev⟩,
      fun s₂ h₂ => ⟨happend s₂ ?_, fun _ _ => trivial⟩⟩⟩
    rw [runE, h₁, ok_bind, runE, h₂]
    rfl
  cases hrun : runE (System.step twoZones)
      [hostOnes, .cmd .write 0 threeFirst, .cmd .append 0 threeSecond] twoZonesStart with
  | error f => simp [hrun, Except.isOk, Except.toBool] at hends
  | ok sys => exact ⟨sys, rfl, zones_are_logs hgeo rfl (by decide) hevs hrun⟩

end Femu.Zns

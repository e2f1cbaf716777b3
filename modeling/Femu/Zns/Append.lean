import Femu.Nvme.DramSpec
import Femu.Zns.WritePointer

/-!
# Femu.Zns.Append

What a zone append that succeeds does to the data. `backend_rw` takes the direction
of the transfer from `req->is_write`, which `zns_read` and `zns_write` set and an
append does not: the request of a slot still holds the direction that the last read
or write on the slot has left in it (`lastIsWrite`). After a write the append stores
the host's buffer; otherwise it copies the backend over the buffer.
-/

namespace Femu.Zns

open Nvme Lib

variable {n : ZnsCtrl} {s : ZnsState} {req : NvmeRequest}

/-! ## the direction that a slot holds -/

/-- The direction in a slot after an event. -/
def leavesIsWrite (slot : Nat) (isWrite : Bool) : Event → Bool
  | .cmd .read k _ => if k = slot then false else isWrite
  | .cmd .write k _ => if k = slot then true else isWrite
  | _ => isWrite

/-- Whether the last read or write among the events on the slot is a write. -/
def lastIsWrite (slot : Nat) (evs : List Event) : Bool := evs.foldl (leavesIsWrite slot) false

theorem doWrite_isWrite (append wrz : Bool) :
    Safe (fun _ => True) (znsDoWrite n req append wrz s) fun r => r.2.1.isWrite = req.isWrite := by
  have hfinish : ∀ req' s', req'.isWrite = req.isWrite →
      Safe (fun _ => True) (finishWrite n req' s') fun r => r.2.1.isWrite = req.isWrite := by
    intro req' s' hreq
    unfold finishWrite
    rw [safe_bind]
    refine safe_of_ok fun i _ => ?_
    rw [safe_bind]
    exact safe_of_ok fun zt _ => hreq
  unfold znsDoWrite writeZone
  simp only [safe_ite, safe_pure, safe_bind, implies_true, true_and]
  refine fun _ _ => safe_of_ok fun i _ => safe_of_ok fun status _ => ?_
  refine fun _ => safe_of_ok fun r _ _ => ?_
  refine safe_of_ok fun r _ => ⟨fun _ => hfinish _ _ rfl, fun _ => ?_⟩
  refine safe_of_ok fun r hr => ?_
  have hmap := ((mapDptr_safe n _ _ _).of_ok hr).2.1
  refine ⟨fun _ => hmap, fun _ => safe_of_ok fun r hr => hfinish _ _ ?_⟩
  rw [((backendRw_safe _ _ _).of_ok hr).2.2.1]
  exact hmap

theorem read_isWrite :
    Safe (fun _ => True) (znsRead n req s) fun r => r.2.1.isWrite = false := by
  unfold znsRead
  simp only [safe_bind, safe_require, safe_ite, safe_pure, implies_true, and_true, true_and]
  refine fun _ _ _ => safe_of_ok fun status _ _ => ?_
  refine safe_of_ok fun r hr => ?_
  have hmap := ((mapDptr_safe n _ _ _).of_ok hr).2.1
  refine ⟨fun _ => hmap, fun _ => safe_of_ok fun r hr => ?_⟩
  rw [((backendRw_safe _ _ _).of_ok hr).2.2.1]
  exact hmap

theorem mgmtSend_req :
    Safe (fun _ => True) (znsZoneMgmtSend n req s) fun r => r.2.1 = req := by
  unfold znsZoneMgmtSend
  simp only [safe_ite, safe_pure, safe_bind, safe_true, implies_true, true_and]

/-- The direction in the request of an executed command. -/
def ZnsOp.isWrite (isWrite : Bool) : ZnsOp → Bool
  | read => false
  | write => true
  | append => isWrite
  | mgmtSend => isWrite

theorem handler_isWrite (op : ZnsOp) :
    Safe (fun _ => True) (op.handler n req s) fun r => r.2.1.isWrite = op.isWrite req.isWrite := by
  match op with
  | .read => exact read_isWrite
  | .write =>
    show Safe _ (znsWrite n req s) _
    unfold znsWrite
    rw [safe_bind, safe_require]
    exact ⟨fun _ => doWrite_isWrite false false, fun _ => trivial⟩
  | .append => exact doWrite_isWrite true false
  | .mgmtSend => exact mgmtSend_req.imp fun r hr => congrArg NvmeRequest.isWrite hr

/-- **Step lemma**: what an event does to the direction in a slot. -/
theorem step_isWrite {sys sys' : System} {ev : Event} (h : sys.step n ev = .ok sys')
    (slot : Nat) : (sys'.slots slot).isWrite = leavesIsWrite slot (sys.slots slot).isWrite ev := by
  match ev with
  | .host mem =>
    cases h
    rfl
  | .shutdown =>
    have : Safe (fun _ => True) (sys.step n .shutdown) fun sys' => sys'.slots = sys.slots := by
      simp only [System.step, safe_bind, safe_pure, safe_true]
    rw [this.of_ok h]
    rfl
  | .cmd op k c =>
    have hexec : Safe (fun _ => True) (sys.step n (.cmd op k c)) fun sys' => ∃ req',
        sys'.slots = Function.update sys.slots k req' ∧
          req'.isWrite = op.isWrite (sys.slots k).isWrite := by
      simp only [System.step, System.exec, safe_bind, safe_pure]
      exact (handler_isWrite op).imp fun r hr => ⟨r.2.1, rfl, hr⟩
    obtain ⟨req', hslots, hreq⟩ := hexec.of_ok h
    rw [hslots]
    by_cases hk : k = slot
    · subst hk
      rw [Function.update_self, hreq]
      cases op <;> simp [ZnsOp.isWrite, leavesIsWrite]
    · rw [Function.update_of_ne (Ne.symm hk)]
      cases op <;> simp [leavesIsWrite, hk]

/-- **Run lemma**: a slot holds the direction of the last read or write on it. -/
theorem run_isWrite {evs : List Event} {sys sys' : System}
    (h : runE (System.step n) evs sys = .ok sys') (slot : Nat) :
    (sys'.slots slot).isWrite = evs.foldl (leavesIsWrite slot) (sys.slots slot).isWrite := by
  induction evs generalizing sys with
  | nil =>
      cases h
      rfl
  | cons ev evs ih =>
      rw [runE] at h
      cases hstep : sys.step n ev with
      | error f =>
        rw [hstep] at h
        cases h
      | ok t =>
        rw [hstep, ok_bind] at h
        rw [List.foldl_cons, ← step_isWrite hstep slot]
        exact ih h

/-! ## the transfer -/

theorem scatter_gather (host : Bytes) (sg : List ScatterGatherEntry) :
    scatter host sg (gather host sg) = host := by
  induction sg with
  | nil => rfl
  | cons e sg ih =>
      have hlen : (slice host e.base e.len).length = e.len := length_slice host e.base e.len
      show scatter (overwrite host e.base ((slice host e.base e.len ++ gather host sg).take e.len)) sg
        ((slice host e.base e.len ++ gather host sg).drop e.len) = host
      rw [List.take_left' hlen, List.drop_left' hlen, overwrite_slice, ih]

/-- The transfer of a request whose list is complete. -/
theorem znsBackendRw_eq {req req' : NvmeRequest} {off len : Nat} {s s' : ZnsState}
    (hcov : req.map.qsg.Covers len) (h : znsBackendRw req off s = .ok (req', s')) :
    s' = if req.isWrite then { s with mb := overwrite s.mb off (req.map.qsg.read s.mem.host) }
      else { s with mem := { s.mem with
        host := scatter s.mem.host req.map.qsg.sg (slice s.mb off len) } } := by
  have hmode : FemuMode.znssd ≠ .ocssd := by decide
  have htotal : sgTotal req.map.qsg.sg = len := hcov.total_eq
  unfold znsBackendRw at h
  match hw : req.isWrite with
  | true =>
    rw [hw, backendRw_write hmode hcov.nsg_eq] at h
    cases h
    rfl
  | false =>
    rw [hw, backendRw_read hmode hcov.nsg_eq, htotal] at h
    cases h
    rfl

/-- What an append that passes the checks of its zone transfers is shorter than
`2^32` bytes. -/
theorem append_len_lt {z : NvmeZone} {slba nlb : Nat}
    (h : znsCheckZoneWrite n z slba nlb true = .ok nvmeSuccess) : n.l2b nlb < 2 ^ 32 := by
  have hne : nvmeInvalidField ≠ nvmeSuccess := by decide
  have hlen : Safe (fun _ => True) (znsCheckZoneWrite n z slba nlb true) fun status =>
      status = nvmeSuccess → n.l2b nlb < 2 ^ 32 := by
    unfold znsCheckZoneWrite
    simp only [if_true, safe_bind, safe_ite, safe_pure, safe_require, implies_true, and_true]
    -- the other ways through the check return an error
    have hrest : znsWpIsValid z →
        (u32 (n.pageSize <<< n.zasl) < n.l2b nlb → nvmeInvalidField = nvmeSuccess →
          n.l2b nlb < 2 ^ 32) ∧
        (¬ u32 (n.pageSize <<< n.zasl) < n.l2b nlb →
          (slba ≠ z.zslba → nvmeInvalidField = nvmeSuccess → n.l2b nlb < 2 ^ 32) ∧
          (¬ slba ≠ z.zslba → True → n.l2b nlb < 2 ^ 32)) :=
      fun _ => ⟨fun _ hc => absurd hc hne, fun hfit => ⟨fun _ hc => absurd hc hne, fun _ _ => by
        have := Nat.mod_lt (n.pageSize <<< n.zasl) (Nat.two_pow_pos 32)
        unfold u32 at hfit
        omega⟩⟩
    refine ⟨fun _ => ⟨fun hst hc => absurd hc hst, fun _ => hrest⟩, fun _ => ?_⟩
    exact safe_of_ok fun status _ => ⟨fun hst hc => absurd hc hst, fun _ => hrest⟩
  exact hlen.of_ok h rfl

/-! ## appends -/

/-- The write pointer of the zone that the command names: where an append writes. -/
def appendLba (n : ZnsCtrl) (s : ZnsState) (c : NvmeCmd) : Nat :=
  match znsGetZoneBySlba n c.slba with
  | .ok i => (s.zt.zones i).wPtr
  | .error _ => 0

/-- The bytes of the host's buffer, as the PRP entries of the command describe it. -/
def hostBuffer (n : ZnsCtrl) (s : ZnsState) (req : NvmeRequest) : List UInt8 :=
  match nvmeMapPrp .stub n.toDmaCtrl s.mem req.cmd.prp1.toNat req.cmd.prp2.toNat
      (n.l2b req.nlb) req.map with
  | some (_, map) => map.qsg.read s.mem.host
  | none => []

/-- The append has stored the buffer in the blocks from `lba` on: they are blocks of
the namespace and hold it, host memory and the rest of the backend are as before. -/
structure AppendStored (n : ZnsCtrl) (s s' : ZnsState) (lba nlb : Nat) (buf : List UInt8) :
    Prop where
  inside : lba + nlb ≤ n.nsze
  data : slice s'.mb (lba * 2 ^ n.lbads) (nlb * 2 ^ n.lbads) = buf
  host : s'.mem = s.mem
  others : ∀ a, a < lba * 2 ^ n.lbads ∨ (lba + nlb) * 2 ^ n.lbads ≤ a → s'.mb a = s.mb a

/-- What a successful append has done. -/
theorem append_done (h : Inv n (fun _ _ => True) s.zt) {req' : NvmeRequest} {s' : ZnsState}
    (hrun : znsZoneAppend n req s = .ok (nvmeSuccess, req', s')) :
    req'.resSlba = appendLba n s req.cmd ∧ n.l2b req.nlb < 2 ^ 32 ∧
      ∃ q : QEMUSGList, q.Covers (n.l2b req.nlb) ∧ hostBuffer n s req = q.read s.mem.host ∧
        (req.isWrite = true → s'.mem = s.mem ∧
          s'.mb = overwrite s.mb (n.l2b (appendLba n s req.cmd)) (q.read s.mem.host)) ∧
        (req.isWrite = false → s'.mb = s.mb ∧ s'.mem = ⟨scatter s.mem.host q.sg
          (slice s.mb (n.l2b (appendLba n s req.cmd)) (n.l2b req.nlb)), s.mem.cmbuf⟩) := by
  obtain ⟨-, hst, -⟩ | ⟨-, i, hi, hget, hresult⟩ := (doWrite_safe h true).of_ok hrun
  · exact absurd rfl hst
  have hlba : appendLba n s req.cmd = (s.zt.zones i).wPtr := by simp [appendLba, hget]
  generalize hr : (nvmeSuccess, req', s') = r at hresult
  cases hresult with
  | refused hcheck hstatus => exact absurd (congrArg Prod.fst hr).symm (or_dnr_ne _)
  | noRoom hcheck hopen hstatus => exact absurd (congrArg Prod.fst hr).symm (or_dnr_ne _)
  | unmapped hcheck hopen hadv hwrz hmap hstatus =>
      exact absurd (congrArg Prod.fst hr).symm (or_dnr_ne _)
  | zeroes hcheck hopen hadv hwrz hfin => cases hwrz
  | done hcheck hopen hadv hwrz hmap hrw hfin =>
      rename_i t₁ t₂ t₃ req₁ req₂ s₂ lba
      simp only [Prod.mk.injEq, true_and] at hr
      obtain ⟨rfl, rfl⟩ := hr
      obtain ⟨hsame, hlba', -, -⟩ := advanced_inv stable_true h hi hopen hadv
      obtain ⟨-, hreq₁, hmapped⟩ := mapDptr_cases hmap
      have hlen := append_len_lt hcheck
      have hcov := (nvmeMapPrp_covers (hmapped rfl)).2
      rw [u32_eq hlen] at hcov
      have hback := znsBackendRw_eq hcov hrw
      simp only [if_true, hsame] at hback
      have hwrite : req₁.isWrite = req.isWrite := by rw [hreq₁]
      have hres : req'.resSlba = lba := by
        rw [((backendRw_safe _ _ _).of_ok hrw).2.2.2, hreq₁]
      refine ⟨by rw [hres, hlba', hlba], hlen, req₁.map.qsg, hcov, ?_, fun hw => ?_, fun hw => ?_⟩
      · simp [hostBuffer, hmapped rfl]
      · rw [hwrite, hw] at hback
        rw [hback, hlba]
        exact ⟨rfl, rfl⟩
      · rw [hwrite, hw] at hback
        rw [hback, hlba]
        exact ⟨rfl, rfl⟩

/-- A length or an address inside a namespace of less than `2^64` bytes. -/
theorem l2b_eq {lba : Nat} (hbytes : n.nsze * 2 ^ n.lbads < 2 ^ 64) (h : lba ≤ n.nsze) :
    n.l2b lba = lba * 2 ^ n.lbads := by
  have hle : lba * 2 ^ n.lbads ≤ n.nsze * 2 ^ n.lbads := Nat.mul_le_mul_right _ h
  rw [ZnsCtrl.l2b, Nat.shiftLeft_eq, u64_eq (by omega)]

/-- **Step lemma**: an append that succeeds stores the buffer if the blocks exist and
the request holds the direction of a write, or when there is nothing to store. -/
theorem append_stored_isWrite (h : Inv n (fun _ _ => True) s.zt)
    (hbytes : n.nsze * 2 ^ n.lbads < 2 ^ 64) {req' : NvmeRequest} {s' : ZnsState}
    (hrun : znsZoneAppend n req s = .ok (nvmeSuccess, req', s')) :
    AppendStored n s s' req'.resSlba req.nlb (hostBuffer n s req) ↔
      appendLba n s req.cmd + req.nlb ≤ n.nsze ∧ (req.isWrite = true ∨
        slice s.mb (appendLba n s req.cmd * 2 ^ n.lbads) (req.nlb * 2 ^ n.lbads) =
          hostBuffer n s req) := by
  obtain ⟨hres, -, q, hcov, hbuf, hstores, hloads⟩ := append_done h hrun
  rw [hres, hbuf]
  have hlen : (q.read s.mem.host).length = n.l2b req.nlb := by
    rw [read_eq_gather, length_gather]
    exact hcov.total_eq
  constructor
  · intro hst
    refine ⟨hst.inside, ?_⟩
    by_cases hw : req.isWrite = true
    · exact .inl hw
    · have hdata := hst.data
      rw [(hloads (by simpa using hw)).1] at hdata
      exact .inr hdata
  · intro ⟨hin, hor⟩
    have haddr : n.l2b (appendLba n s req.cmd) = appendLba n s req.cmd * 2 ^ n.lbads :=
      l2b_eq hbytes (by omega)
    have hnlb : n.l2b req.nlb = req.nlb * 2 ^ n.lbads := l2b_eq hbytes (by omega)
    rw [hnlb] at hlen
    by_cases hw : req.isWrite = true
    · obtain ⟨hmem, hmb⟩ := hstores hw
      rw [haddr] at hmb
      refine ⟨hin, ?_, hmem, fun a ha => ?_⟩
      · rw [hmb, ← hlen, slice_overwrite]
      · rw [hmb]
        obtain ha | ha := ha
        · exact overwrite_of_lt ha
        · refine overwrite_of_ge ?_
          rwa [hlen, ← Nat.add_mul]
    · obtain ⟨hmb, hmem⟩ := hloads (by simpa using hw)
      have hsame := hor.resolve_left hw
      rw [haddr, hnlb, hsame, read_eq_gather, scatter_gather] at hmem
      exact ⟨hin, by rw [hmb, hsame], hmem, fun a _ => by rw [hmb]⟩

/-! ## runs -/

/-- An accepted geometry has less than `2^64` bytes. -/
theorem bytes_lt_of_init {n₀ n₁ : ZnsCtrl} {zt : ZoneTable}
    (hgeo : znsInitZoneGeometry n₀ = some n₁) (hinit : znsInitZonedState n₁ = some (n, zt)) :
    n.nsze * 2 ^ n.lbads < 2 ^ 64 := by
  have htotal := initZoneGeometry_total hgeo
  have hnsze : n.nsze ≤ n₁.numZones * n₁.zoneSize ∧ n.lbads = n₁.lbads := by
    unfold znsInitZonedState at hinit
    split at hinit
    · simp only [Option.some.injEq, Prod.mk.injEq] at hinit
      obtain ⟨rfl, -⟩ := hinit
      exact ⟨u64_le _, rfl⟩
    · cases hinit
  calc n.nsze * 2 ^ n.lbads
      ≤ n₀.size.toNat / 2 ^ n₀.lbads * 2 ^ n₀.lbads := by
        rw [hnsze.2, htotal.2]
        exact Nat.mul_le_mul_right _ (Nat.le_trans hnsze.1 htotal.1)
    _ ≤ n₀.size.toNat := Nat.div_mul_le_self _ _
    _ < 2 ^ 64 := n₀.size.toNat_lt

/-- **Zone append**: in every state that a run reaches, an append on a slot that
succeeds stores the host's buffer, and changes nothing else, exactly if its blocks
lie in the namespace and the last read or write on the slot was a write, or the
blocks hold the contents of the buffer already. -/
theorem append_stored_iff {n₀ n₁ : ZnsCtrl} {zt : ZoneTable}
    (hgeo : znsInitZoneGeometry n₀ = some n₁) (hinit : znsInitZonedState n₁ = some (n, zt))
    {mem : Mem} {mb zdExtensions : Bytes} {slots : Nat → NvmeRequest}
    (hfresh : ∀ k, (slots k).isWrite = false) {evs : List Event} {sys sys' : System}
    (hrun : runE (System.step n) evs ⟨⟨zt, mem, mb, zdExtensions⟩, slots⟩ = .ok sys)
    {slot : Nat} {c : NvmeCmd} (happ : sys.exec n .append slot c = .ok (nvmeSuccess, sys')) :
    AppendStored n sys.dev sys'.dev (sys'.slots slot).resSlba (c.nlb + 1)
        (hostBuffer n sys.dev (sys.fetch slot c)) ↔
      appendLba n sys.dev c + (c.nlb + 1) ≤ n.nsze ∧ (lastIsWrite slot evs = true ∨
        slice sys.dev.mb (appendLba n sys.dev c * 2 ^ n.lbads) ((c.nlb + 1) * 2 ^ n.lbads) =
          hostBuffer n sys.dev (sys.fetch slot c)) := by
  have hinv : Inv n (fun _ _ => True) sys.dev.zt :=
    (run_inv_true ⟨⟨zt, mem, mb, zdExtensions⟩, slots⟩
      (initZonedState_inv hinit fun _ _ => trivial) evs).of_ok hrun
  have hslot := run_isWrite hrun slot
  rw [hfresh slot] at hslot
  have hiff := append_stored_isWrite hinv (bytes_lt_of_init hgeo hinit) (exec_ok happ)
  rwa [show (sys.fetch slot c).isWrite = lastIsWrite slot evs from hslot] at hiff

/-- An append of one block, from the second page of host memory. -/
def appendOne : NvmeCmd := { cdw12 := 0, prp1 := 4096 }

/-- The host fills its memory with ones. -/
def hostOnes : Event := .host ⟨fun _ => 1, fun _ => 0⟩

/-- An append as the first command of its slot: it returns success, and the block it
names still holds zeroes. -/
theorem append_not_stored :
    znsInitZoneGeometry twoZones = some twoZones ∧
      znsInitZonedState twoZones = some (twoZones, twoZonesTable) ∧
      ∃ sys sys', runE (System.step twoZones) [hostOnes] twoZonesStart = .ok sys ∧
        sys.exec twoZones .append 0 appendOne = .ok (nvmeSuccess, sys') ∧
        ¬ AppendStored twoZones sys.dev sys'.dev (sys'.slots 0).resSlba (appendOne.nlb + 1)
          (hostBuffer twoZones sys.dev (sys.fetch 0 appendOne)) := by
  have hends : (runE (System.step twoZones) [hostOnes] twoZonesStart).toOption.map (fun sys =>
      ((hostBuffer twoZones sys.dev (sys.fetch 0 appendOne))[0]?,
        (sys.exec twoZones .append 0 appendOne).toOption.map fun r =>
          (r.1, (r.2.slots 0).resSlba, r.2.dev.mb 0))) =
      some (some 1, some (nvmeSuccess, 0, 0)) := by decide +kernel
  refine ⟨rfl, rfl, ?_⟩
  cases hrun : runE (System.step twoZones) [hostOnes] twoZonesStart with
  | error f => simp [hrun, Except.toOption] at hends
  | ok sys =>
    cases happ : sys.exec twoZones .append 0 appendOne with
    | error f => simp [hrun, happ, Except.toOption] at hends
    | ok r =>
      obtain ⟨status, sys'⟩ := r
      simp only [hrun, happ, Except.toOption, Option.map_some, Option.some.injEq, Prod.mk.injEq]
        at hends
      obtain ⟨hbuf, rfl, hres, hmb⟩ := hends
      refine ⟨sys, sys', rfl, happ, fun hst => ?_⟩
      have hdata := hst.data
      have hlen : 0 < (appendOne.nlb + 1) * 2 ^ twoZones.lbads := by decide
      rw [← hdata, hres, getElem?_slice _ _ hlen, Nat.zero_mul, Nat.zero_add, hmb] at hbuf
      exact absurd hbuf (by decide)

theorem append_stored_small :
    ∃ sys sys', runE (System.step twoZones) [hostOnes, .cmd .write 0 appendOne] twoZonesStart =
        .ok sys ∧ sys.exec twoZones .append 0 appendOne = .ok (nvmeSuccess, sys') ∧
      AppendStored twoZones sys.dev sys'.dev (sys'.slots 0).resSlba (appendOne.nlb + 1)
        (hostBuffer twoZones sys.dev (sys.fetch 0 appendOne)) := by
  have hgeo : znsInitZoneGeometry twoZones = some twoZones := rfl
  have hends : (runE (System.step twoZones) [hostOnes, .cmd .write 0 appendOne]
      twoZonesStart).toOption.map (fun sys => (appendLba twoZones sys.dev appendOne,
        (sys.exec twoZones .append 0 appendOne).toOption.map Prod.fst)) =
      some (1, some nvmeSuccess) := by decide +kernel
  cases hrun : runE (System.step twoZones) [hostOnes, .cmd .write 0 appendOne] twoZonesStart with
  | error f => simp [hrun, Except.toOption] at hends
  | ok sys =>
    cases happ : sys.exec twoZones .append 0 appendOne with
    | error f => simp [hrun, happ, Except.toOption] at hends
    | ok r =>
      obtain ⟨status, sys'⟩ := r
      simp only [hrun, happ, Except.toOption, Option.map_some, Option.some.injEq, Prod.mk.injEq]
        at hends
      obtain ⟨hlba, rfl⟩ := hends
      have hin : appendLba twoZones sys.dev appendOne + (appendOne.nlb + 1) ≤ twoZones.nsze := by
        rw [hlba]
        decide
      exact ⟨sys, sys', rfl, happ,
        (append_stored_iff hgeo rfl (fun _ => rfl) hrun happ).mpr ⟨hin, .inl rfl⟩⟩

end Femu.Zns

import Femu.Lib.Disk
import Femu.Nvme.Cmb
import Femu.Nvme.Compare
import Femu.Nvme.DramSpec

/-!
# Femu.Nvme.Disk

The namespace as a disk. A driver puts commands and buffers into its memory and looks at
the buffers when commands have ended; as long as the code can serve its commands, it sees
a disk (`Lib.DiskOp`) on which each successful Write and Read is one operation
(`namespace_is_disk`), with the data that the PRP entries of the command describe.
-/

namespace Femu.Nvme

open Lib Lib.Traced

/-! ## what a driver sees -/

/-- The offset of the range of a command. -/
def rangeOff (ns : NvmeNamespace) (cmd : NvmeCmd) : Nat := cmd.slba * 2 ^ ns.curLbaf.lbads

/-- The segments that the PRP entries of a command describe. -/
def dataSegments (n : NvmCtrl) (ns : NvmeNamespace) (cmd : NvmeCmd) (m : Mem) :
    List ScatterGatherEntry :=
  prpSegments n.toDmaCtrl m n.maxPrpEnts cmd.prp1.toNat cmd.prp2.toNat (rangeLen ns cmd)

/-- The driver changes memory, or a command runs. Of a command that has ended, `data` is what
the driver finds in the buffer of a Read, and what it had put into that of any other command. -/
inductive DriverEvent
  | memory (m : Mem)
  | command (r : IoReq) (status : Status) (data : List UInt8)

/-- The operations on the disk. -/
def DriverEvent.ops (ns : NvmeNamespace) : DriverEvent → List (DiskOp UInt8)
  | .memory _ => []
  | .command r status data =>
      if status = nvmeSuccess ∧ r.cmd.opcode = nvmeCmdWrite then [.write (rangeOff ns r.cmd) data]
      else if status = nvmeSuccess ∧ r.cmd.opcode = nvmeCmdRead then [.read (rangeOff ns r.cmd) data]
      else []

/-- A command that the code can serve. The check of `slba + nlb` is on 64 bits, so a range that
goes over them can pass it. -/
structure Servable (n : NvmCtrl) (ns : NvmeNamespace) (cmd : NvmeCmd) (m : Mem) : Prop where
  /-- The end of the range is not reduced to one inside the namespace. -/
  noWrap : cmd.opcode = nvmeCmdRead ∨ cmd.opcode = nvmeCmdWrite →
    ¬ cmd.range.Wraps ns.nsze.toNat
  /-- The length of the range fits into 32 bits. -/
  length : cmd.opcode = nvmeCmdRead ∨ cmd.opcode = nvmeCmdWrite → rangeLen ns cmd < 2 ^ 32
  /-- The segments of the buffer of a Read share no byte. -/
  disjoint : cmd.opcode = nvmeCmdRead → SgDisjoint (dataSegments n ns cmd m)

/-- An event of a driver whose commands the code can serve. -/
def DriverStep (c : IoCtrl) (ns : NvmeNamespace) (s : IoState) : DriverEvent → IoState → Prop
  | .memory m, s' => s' = { s with mem := m }
  | .command r status data, s' =>
      (nvmeIoCmd c ns r.tmp r.cmd s).2 = some (status, s') ∧
      data = gather (if r.cmd.opcode = nvmeCmdRead then s'.mem.host else s.mem.host)
        (dataSegments c.toNvmCtrl ns r.cmd s.mem) ∧
      Servable c.toNvmCtrl ns r.cmd s.mem

/-- A controller and a namespace as they are set up: the pages of the controller, and a size
that a 64-bit offset reaches. -/
structure IoCtrl.SetUp (c : IoCtrl) (ns : NvmeNamespace) : Prop where
  paged : c.toDmaCtrl.Paged
  mode : c.femuMode ≠ .ocssd
  size : ns.nsze.toNat * 2 ^ ns.curLbaf.lbads < 2 ^ 64

/-! ## commands that move no data -/

variable {c : IoCtrl} {n : NvmCtrl} {ns : NvmeNamespace} {cmd : NvmeCmd} {s s' : IoState}
  {α : Type}

/-- The program changes neither the memory nor the backend, nor the direction of the request. -/
abbrev KeepsData (m : IoM α) : Prop :=
  Tracks (fun s : IoState => (s.mem, s.mb, s.isWrite)) (fun b _ => b) m

theorem keepsData_setErrorPage (cid : Nat) (status : Status) (location lba nsid : Nat) :
    KeepsData (setErrorPage n cid status location lba nsid) := by
  refine Tracks.ofState fun s a s' hr => ?_
  obtain ⟨errs, -, heq⟩ := Option.map_eq_some_iff.mp hr
  cases heq
  rfl

/-- A command that fails with an error page. -/
theorem keepsData_fail (cid : Nat) (status : Status) (location lba nsid : Nat) (st : Status) :
    KeepsData (do setErrorPage n cid status location lba nsid; return st) :=
  .bind (keepsData_setErrorPage cid status location lba nsid) fun _ => .pure st

theorem keepsData_findNextBit (size offset : Nat) : KeepsData (findNextBit size offset) :=
  .bind (.emit fun _ => rfl) fun _ => .bind .get fun _ => .pure _

theorem keepsData_mapReq (prp1 prp2 len : Nat) : KeepsData (mapReq n prp1 prp2 len) := by
  refine Tracks.ofState fun s a s' hr => ?_
  obtain ⟨r, -, heq⟩ := Option.map_eq_some_iff.mp hr
  cases heq
  rfl

theorem keepsData_femuNvmeRwCheckReq (slba elba nlb ctrl dataSize metaSize : Nat) :
    KeepsData (femuNvmeRwCheckReq n ns cmd slba elba nlb ctrl dataSize metaSize) := by
  refine .ite (keepsData_fail _ _ _ _ _ _) (.bind (.emit fun _ => rfl) fun _ => ?_)
  refine .ite (keepsData_fail _ _ _ _ _ _) (.ite (keepsData_fail _ _ _ _ _ _) (.ite ?_ ?_))
  · exact .bind (keepsData_setErrorPage _ _ _ _ _) fun _ => .ite (.pure _) (.pure _)
  · refine .bind .get fun s => .ite (.pure _) (.bind (keepsData_findNextBit _ _) fun _ => ?_)
    exact .ite (keepsData_fail _ _ _ _ _ _) (.pure _)

theorem keepsData_dsmLoop (rs : List NvmeDsmRange) : KeepsData (dsmLoop n ns cmd rs) := by
  induction rs with
  | nil => exact .pure _
  | cons r rs ih =>
      refine .ite (keepsData_fail _ _ _ _ _ _) (.bind (.emit fun _ => rfl) fun _ => .bind ?_ fun _ => ih)
      exact .bind (.emit fun _ => rfl) fun _ => .bind (.assert _) fun _ => .modify fun _ => rfl

theorem keepsData_nvmeDsm : KeepsData (nvmeDsm n ns cmd) := by
  refine .ite (.pure _) (.bind (.ofState fun s a s' hr => ?_) fun r => ?_)
  · obtain ⟨r, -, heq⟩ := Option.map_eq_some_iff.mp hr
    cases heq
    rfl
  · refine .ite (keepsData_fail _ _ _ _ _ _) (.bind (.modify fun _ => rfl) fun _ => ?_)
    exact keepsData_dsmLoop _

theorem keepsData_compareLoop (tmp : Nat → List UInt8) (i : Nat) (es : List ScatterGatherEntry) :
    KeepsData (compareLoop n tmp i es) := by
  induction es generalizing i with
  | nil => exact .pure _
  | cons e es ih => exact .bind .get fun s => .ite (.pure _) (ih (i + 1))

theorem keepsData_nvmeCompare (tmp : Nat → List UInt8) : KeepsData (nvmeCompare n ns tmp cmd) := by
  refine .ite (keepsData_fail _ _ _ _ _ _) (.bind (.emit fun _ => rfl) fun _ => ?_)
  refine .ite (keepsData_fail _ _ _ _ _ _) (.bind (keepsData_mapReq _ _ _) fun st => ?_)
  refine .ite (keepsData_fail _ _ _ _ _ _) (.bind (keepsData_findNextBit _ _) fun r => ?_)
  refine .ite (.pure _) (.bind .get fun s => .bind (keepsData_compareLoop _ _ _) fun st => ?_)
  exact .bind (.modify fun _ => rfl) fun _ => .pure _

theorem keepsData_nvmeWriteZeros : KeepsData (nvmeWriteZeros n ns cmd) :=
  .ite (keepsData_fail _ _ _ _ _ _) (.bind (.emit fun _ => rfl) fun _ => .pure _)

theorem keepsData_nvmeWriteUncor : KeepsData (nvmeWriteUncor n ns cmd) := by
  refine .ite (keepsData_fail _ _ _ _ _ _) (.bind (.emit fun _ => rfl) fun _ => .bind ?_ fun _ => .pure _)
  exact .bind (.emit fun _ => rfl) fun _ => .bind (.assert _) fun _ => .modify fun _ => rfl

theorem keepsData_optionalCmd {bit : Nat} {m : IoM Status} (hm : KeepsData m) :
    KeepsData (optionalCmd c bit m) :=
  .ite hm (.pure _)

/-- Only a Write and a Read move data. -/
theorem keepsData_nvmeIoCmd (tmp : Nat → List UInt8) (hread : cmd.opcode ≠ nvmeCmdRead)
    (hwrite : cmd.opcode ≠ nvmeCmdWrite) : KeepsData (nvmeIoCmd c ns tmp cmd) := by
  refine .ite (.pure _) (.ite (.ite (.pure _) (.pure _)) ?_)
  refine .ite (keepsData_optionalCmd keepsData_nvmeDsm) (.ite (keepsData_optionalCmd (keepsData_nvmeCompare tmp)) ?_)
  refine .ite (keepsData_optionalCmd keepsData_nvmeWriteZeros)
    (.ite (keepsData_optionalCmd keepsData_nvmeWriteUncor) ?_)
  rw [extIoCmd, if_neg (not_or.mpr ⟨hread, hwrite⟩)]
  exact .pure _

/-! ## Write and Read -/

theorem KeepsData.ends {m : IoM α} (hm : KeepsData m) (s : IoState) :
    Ends m s fun _ _ s' => s'.mem = s.mem ∧ s'.mb = s.mb ∧ s'.isWrite = s.isWrite :=
  (hm.eq_of_const s).imp fun _ _ _ heq => by simpa only [Prod.mk.injEq] using heq

theorem ends_rwCheck (slba elba nlb ctrl dataSize metaSize : Nat) (s : IoState) :
    Ends (femuNvmeRwCheckReq n ns cmd slba elba nlb ctrl dataSize metaSize) s fun _ err s' =>
      (s'.mem = s.mem ∧ s'.mb = s.mb ∧ s'.isWrite = s.isWrite) ∧
        (err = nvmeSuccess → elba ≤ ns.nsze.toNat) :=
  fun err s' hr => ⟨(keepsData_femuNvmeRwCheckReq _ _ _ _ _ _).ends s err s' hr,
    fun herr => femuNvmeRwCheckReq_ok (herr ▸ hr)⟩

theorem ends_mapReq (hp : n.toDmaCtrl.Paged) (prp1 prp2 : Nat) {len : Nat} (hlen : len < 2 ^ 32)
    (s : IoState) :
    Ends (mapReq n prp1 prp2 len) s fun _ st s' =>
      (s'.mem = s.mem ∧ s'.mb = s.mb ∧ s'.isWrite = s.isWrite) ∧
        (st = nvmeSuccess → PrpMapped n.toDmaCtrl s.mem prp1 prp2 len s'.map.qsg) := by
  intro st s' hr
  refine ⟨(keepsData_mapReq _ _ _).ends s st s' hr, fun hst => ?_⟩
  obtain ⟨⟨st', map⟩, hmap, heq⟩ := Option.map_eq_some_iff.mp hr
  cases heq
  obtain ⟨st₁, t, hrun, -, hmapped⟩ := nvmeMapPrp_stub hp s.mem s.map hlen (mapEnds_of_run hp hlen hmap)
  rw [hmap] at hrun
  cases hrun
  exact hmapped hst

theorem ends_backendReq (hmode : n.femuMode ≠ .ocssd) (off : Nat)
    (hnsg : s.map.qsg.nsg = s.map.qsg.sg.length) :
    Ends (backendReq n off) s fun _ _ s' =>
      if s.isWrite then
        s'.mem = s.mem ∧ s'.mb = overwrite s.mb off (gather s.mem.host s.map.qsg.sg)
      else
        s'.mem = { s.mem with
          host := scatter s.mem.host s.map.qsg.sg (slice s.mb off (sgTotal s.map.qsg.sg)) } ∧
        s'.mb = s.mb := by
  unfold backendReq
  simp only [ends_bind, ends_get, ends_emit]
  intro u s' hr
  obtain ⟨⟨host, mb⟩, hrw, heq⟩ := Option.map_eq_some_iff.mp hr
  cases heq
  cases hw : s.isWrite with
  | true =>
      rw [hw, backendRw_write hmode hnsg] at hrw
      cases hrw
      exact ⟨rfl, rfl⟩
  | false =>
      rw [hw, backendRw_read hmode hnsg] at hrw
      cases hrw
      exact ⟨rfl, rfl⟩

/-- What a Write or a Read that has ended did. -/
def Moved (n : NvmCtrl) (ns : NvmeNamespace) (cmd : NvmeCmd) (s : IoState) (status : Status)
    (s' : IoState) : Prop :=
  if status = nvmeSuccess then
    cmd.slba + (cmd.nlb + 1) ≤ ns.nsze.toNat ∧
    if cmd.opcode = nvmeCmdWrite then
      s'.mem = s.mem ∧
      s'.mb = overwrite s.mb (rangeOff ns cmd) (gather s.mem.host (dataSegments n ns cmd s.mem))
    else
      s'.mem = { s.mem with
        host := scatter s.mem.host (dataSegments n ns cmd s.mem)
          (slice s.mb (rangeOff ns cmd) (rangeLen ns cmd)) } ∧
      s'.mb = s.mb
  else
    s'.mem = s.mem ∧ s'.mb = s.mb

theorem sgTotal_dataSegments (hp : n.toDmaCtrl.Paged) (m : Mem) :
    sgTotal (dataSegments n ns cmd m) = rangeLen ns cmd :=
  sum_prpSegments hp m _ _ _

theorem ends_nvmeRw (hp : n.toDmaCtrl.Paged) (hmode : n.femuMode ≠ .ocssd)
    (hsize : ns.nsze.toNat * 2 ^ ns.curLbaf.lbads < 2 ^ 64)
    (hwraps : ¬ cmd.range.Wraps ns.nsze.toNat) (hlen : rangeLen ns cmd < 2 ^ 32) (s : IoState) :
    Ends (nvmeRw n ns cmd) s fun _ status s' => Moved n ns cmd s status s' := by
  have hdata : u64 ((cmd.nlb + 1) * 2 ^ ns.curLbaf.lbads) = rangeLen ns cmd :=
    u64_eq (Nat.lt_trans hlen (by decide))
  have hfail : ∀ {st : Status} {t : IoState}, st ≠ nvmeSuccess → t.mem = s.mem → t.mb = s.mb →
      Moved n ns cmd s st t := fun hst hmem hmb => by
    rw [Moved, if_neg hst]
    exact ⟨hmem, hmb⟩
  simp only [nvmeRw, ends_bind, ends_modify]
  refine (ends_rwCheck _ _ _ _ _ _ _).imp fun _ err s₁ ⟨⟨hmem₁, hmb₁, hw₁⟩, hcheck⟩ => ?_
  rw [ends_ite, ends_pure]
  refine ⟨fun herr => hfail herr hmem₁ hmb₁, fun herr => ?_⟩
  have hin : cmd.slba + (cmd.nlb + 1) ≤ ns.nsze.toNat :=
    NvmeDsmRange.le_of_check ns.nsze.toNat_lt hwraps
      (Nat.not_lt.mpr (hcheck (not_not.mp herr)))
  have hoff : u64 (cmd.slba * 2 ^ ns.curLbaf.lbads) = rangeOff ns cmd := by
    have hmul := Nat.mul_le_mul_right (2 ^ ns.curLbaf.lbads) hin
    rw [Nat.add_mul] at hmul
    exact u64_eq (by omega)
  rw [hdata, hoff, ends_bind]
  refine (ends_mapReq hp _ _ hlen s₁).imp fun _ st s₂ ⟨⟨hmem₂, hmb₂, hw₂⟩, hmapped⟩ => ?_
  rw [ends_ite]
  refine ⟨fun hst => ?_, fun hst => ?_⟩
  · rw [ends_bind]
    refine ((keepsData_setErrorPage _ _ _ _ _).ends s₂).imp fun _ _ s₃ ⟨hmem₃, hmb₃, _⟩ => ?_
    rw [ends_pure]
    exact hfail invalidField_ne_success (hmem₃.trans (hmem₂.trans hmem₁))
      (hmb₃.trans (hmb₂.trans hmb₁))
  · have hq := hmapped (not_not.mp hst)
    simp only [ends_bind, ends_get, ends_assert, ends_modify, ends_pure]
    intro _
    refine (ends_backendReq hmode _ (by exact hq.covers.nsg_eq)).imp fun _ _ s₄ hend => ?_
    have hsg : s₂.map.qsg.sg = dataSegments n ns cmd s.mem := by rw [hq.sg_eq, hmem₁]; rfl
    have hw : s₂.isWrite = (cmd.opcode == nvmeCmdWrite) := hw₂.trans hw₁
    rw [Moved, if_pos rfl]
    refine ⟨hin, ?_⟩
    simp only [hw, beq_iff_eq, hsg, hmem₂, hmem₁, hmb₂, hmb₁] at hend
    rw [sgTotal_dataSegments hp] at hend
    exact hend

/-- The dispatcher on a Write or a Read. -/
theorem nvmeIoCmd_rw (tmp : Nat → List UInt8)
    (hop : cmd.opcode = nvmeCmdRead ∨ cmd.opcode = nvmeCmdWrite) :
    nvmeIoCmd c ns tmp cmd =
      if cmd.nsid.toNat = 0 ∨ numNamespaces < cmd.nsid.toNat then
        return nvmeInvalidNsid ||| nvmeDnr
      else
        nvmeRw c.toNvmCtrl ns cmd := by
  rcases hop with hop | hop <;>
    simp [nvmeIoCmd, extIoCmd, hop, nvmeCmdRead, nvmeCmdWrite, nvmeCmdWriteUncor, nvmeCmdFlush,
      nvmeCmdDsm, nvmeCmdCompare, nvmeCmdWriteZeroes]

theorem ends_nvmeIoCmd_rw (hc : c.SetUp ns) (tmp : Nat → List UInt8)
    (hop : cmd.opcode = nvmeCmdRead ∨ cmd.opcode = nvmeCmdWrite)
    (hwraps : ¬ cmd.range.Wraps ns.nsze.toNat) (hlen : rangeLen ns cmd < 2 ^ 32) (s : IoState) :
    Ends (nvmeIoCmd c ns tmp cmd) s fun _ status s' => Moved c.toNvmCtrl ns cmd s status s' := by
  have hsid : nvmeInvalidNsid ||| nvmeDnr ≠ nvmeSuccess := by decide
  rw [nvmeIoCmd_rw tmp hop, ends_ite, ends_pure, Moved, if_neg hsid]
  exact ⟨fun _ => ⟨rfl, rfl⟩, fun _ => ends_nvmeRw hc.paged hc.mode hc.size hwraps hlen s⟩

/-! ## one event -/

/-- What a read leaves outside of its segments. -/
theorem scatter_apart {host : Bytes} {sg : List ScatterGatherEntry} {bs : List UInt8} {a : Nat}
    (h : ∀ e ∈ sg, ¬ (e.base ≤ a ∧ a < e.base + e.len)) : scatter host sg bs a = host a := by
  have hapart : ∀ e ∈ sg, Apart e.base e.len a 1 := fun e he => by
    have hout := h e he
    unfold Apart
    omega
  exact eq_of_slice_eq (slice_scatter_apart hapart) (Nat.le_refl a) (Nat.lt_succ_self a)

/-- **Step lemma**: what an event does to the backend is what its operations do to a disk, and
it changes no memory but the buffer of a Read. -/
theorem DriverStep.disk (hc : c.SetUp ns) {ev : DriverEvent} (h : DriverStep c ns s ev s') :
    Run (fun m op m' => op.Step m m') s.mb (ev.ops ns) s'.mb ∧
    (∀ a, ns.nsze.toNat * 2 ^ ns.curLbaf.lbads ≤ a → s'.mb a = s.mb a) ∧
    ∀ r status data, ev = .command r status data → s'.mem.cmbuf = s.mem.cmbuf ∧
      ∀ a, s'.mem.host a ≠ s.mem.host a → status = nvmeSuccess ∧ r.cmd.opcode = nvmeCmdRead ∧
        ∃ e ∈ dataSegments c.toNvmCtrl ns r.cmd s.mem, e.base ≤ a ∧ a < e.base + e.len := by
  cases ev with
  | memory m =>
      obtain rfl : s' = { s with mem := m } := h
      exact ⟨.nil _, fun _ _ => rfl, fun _ _ _ hev => by cases hev⟩
  | command r status data =>
      obtain ⟨hrun, hdata, hserve⟩ := h
      by_cases hop : r.cmd.opcode = nvmeCmdRead ∨ r.cmd.opcode = nvmeCmdWrite
      swap
      · -- no data is moved
        rw [not_or] at hop
        obtain ⟨hmem, hmb, -⟩ := (keepsData_nvmeIoCmd r.tmp hop.1 hop.2).ends s _ _ hrun
        rw [DriverEvent.ops, if_neg (fun h => hop.2 h.2), if_neg (fun h => hop.1 h.2), hmb]
        refine ⟨.nil _, fun _ _ => rfl, fun _ _ _ hev => ?_⟩
        cases hev
        rw [hmem]
        exact ⟨rfl, fun a ha => absurd rfl ha⟩
      have hmoved : Moved c.toNvmCtrl ns r.cmd s status s' :=
        ends_nvmeIoCmd_rw hc r.tmp hop (hserve.noWrap hop) (hserve.length hop) s _ _ hrun
      unfold Moved at hmoved
      by_cases hst : status = nvmeSuccess
      swap
      · rw [if_neg hst] at hmoved
        rw [DriverEvent.ops, if_neg (fun h => hst h.1), if_neg (fun h => hst h.1), hmoved.2]
        refine ⟨.nil _, fun _ _ => rfl, fun _ _ _ hev => ?_⟩
        cases hev
        rw [hmoved.1]
        exact ⟨rfl, fun a ha => absurd rfl ha⟩
      rw [if_pos hst] at hmoved
      obtain ⟨hin, hmoved⟩ := hmoved
      have htotal : sgTotal (dataSegments c.toNvmCtrl ns r.cmd s.mem) = rangeLen ns r.cmd :=
        sgTotal_dataSegments hc.paged s.mem
      by_cases hwrite : r.cmd.opcode = nvmeCmdWrite
      · have hread : r.cmd.opcode ≠ nvmeCmdRead := by rw [hwrite]; decide
        rw [if_pos hwrite] at hmoved
        rw [if_neg hread] at hdata
        rw [DriverEvent.ops, if_pos ⟨hst, hwrite⟩, hmoved.2, ← hdata]
        refine ⟨.cons rfl (.nil _), fun a ha => overwrite_of_ge ?_, fun _ _ _ hev => ?_⟩
        · rw [hdata, length_gather, htotal]
          refine Nat.le_trans ?_ ha
          rw [rangeOff, rangeLen, ← Nat.add_mul]
          exact Nat.mul_le_mul_right _ hin
        · cases hev
          rw [hmoved.1]
          exact ⟨rfl, fun a ha => absurd rfl ha⟩
      · have hread := hop.resolve_right hwrite
        rw [if_neg hwrite] at hmoved
        obtain ⟨hmem, hmb⟩ := hmoved
        have hgather : data = slice s.mb (rangeOff ns r.cmd) (rangeLen ns r.cmd) := by
          rw [hdata, if_pos hread, hmem]
          exact gather_scatter (hserve.disjoint hread) (by rw [length_slice, htotal])
        rw [DriverEvent.ops, if_neg (fun h => hwrite h.2), if_pos ⟨hst, hread⟩, hmb]
        refine ⟨.cons ⟨rfl, ?_⟩ (.nil _), fun _ _ => rfl, fun _ _ _ hev => ?_⟩
        · rw [hgather, length_slice]
        · cases hev
          rw [hmem]
          refine ⟨rfl, fun a ha => ⟨hst, hread, ?_⟩⟩
          by_contra hnone
          exact ha (scatter_apart fun e he hin => hnone ⟨e, he, hin⟩)

/-! ## runs -/

/-- The namespace in a state that a driver has reached by the events. -/
structure IsDisk (c : IoCtrl) (ns : NvmeNamespace) (s₀ : IoState) (evs : List DriverEvent)
    (s : IoState) : Prop where
  /-- The events are operations on a disk. -/
  run : Run (fun m op m' => op.Step m m') s₀.mb (evs.flatMap (DriverEvent.ops ns)) s.mb
  /-- Nothing outside of the namespace has changed. -/
  inside : ∀ a, ns.nsze.toNat * 2 ^ ns.curLbaf.lbads ≤ a → s.mb a = s₀.mb a
  /-- A Read gives each byte as it was last written. -/
  reads : ∀ r data s', DriverStep c ns s (.command r nvmeSuccess data) s' →
    r.cmd.opcode = nvmeCmdRead → ∀ i x, data[i]? = some x →
      x = (DiskOp.lastWritten (rangeOff ns r.cmd + i) (evs.flatMap (DriverEvent.ops ns))).getD
        (s₀.mb (rangeOff ns r.cmd + i))
  /-- A command changes no memory but the buffer of a Read. -/
  memory : ∀ r status data s', DriverStep c ns s (.command r status data) s' →
    s'.mem.cmbuf = s.mem.cmbuf ∧
    ∀ a, s'.mem.host a ≠ s.mem.host a → status = nvmeSuccess ∧ r.cmd.opcode = nvmeCmdRead ∧
      ∃ e ∈ dataSegments c.toNvmCtrl ns r.cmd s.mem, e.base ≤ a ∧ a < e.base + e.len

theorem run_disk (hc : c.SetUp ns) {s₀ : IoState} {evs : List DriverEvent}
    (hrun : Run (DriverStep c ns) s₀ evs s) :
    Run (fun m op m' => op.Step m m') s₀.mb (evs.flatMap (DriverEvent.ops ns)) s.mb ∧
      ∀ a, ns.nsze.toNat * 2 ^ ns.curLbaf.lbads ≤ a → s.mb a = s₀.mb a := by
  induction hrun with
  | nil s => exact ⟨.nil _, fun _ _ => rfl⟩
  | @cons s u s' ev evs head tail ih =>
      obtain ⟨hdisk, hin, -⟩ := head.disk hc
      rw [List.flatMap_cons]
      exact ⟨hdisk.append ih.1, fun a ha => (ih.2 a ha).trans (hin a ha)⟩

/-- **The namespace is a disk**: over every run of I/O commands that can be served, the
successful Writes and Reads are operations on a disk, with the bytes that their PRP entries
describe, and nothing else is changed. -/
theorem namespace_is_disk (hc : c.SetUp ns) {s₀ : IoState} {evs : List DriverEvent}
    (hrun : Run (DriverStep c ns) s₀ evs s) : IsDisk c ns s₀ evs s := by
  obtain ⟨hdisk, hin⟩ := run_disk hc hrun
  refine ⟨hdisk, hin, fun r data s' hstep hread i x hx => ?_, fun r status data s' hstep =>
    (hstep.disk hc).2.2 r status data rfl⟩
  have hnext := (hstep.disk hc).1
  have hwrite : r.cmd.opcode ≠ nvmeCmdWrite := by rw [hread]; decide
  rw [DriverEvent.ops, if_neg (fun h => hwrite h.2), if_pos ⟨rfl, hread⟩] at hnext
  exact DiskOp.run_read_last (hdisk.append hnext) hx

/-- The driver writes block 2 from one page and reads it into another one. -/
def writeBlock2 : NvmeCmd := { opcode := nvmeCmdWrite, nsid := 1, prp1 := 4096, cdw10 := 2 }
def readBlock2 : NvmeCmd := { opcode := nvmeCmdRead, nsid := 1, prp1 := 8192, cdw10 := 2 }

/-- Memory that the driver has filled. -/
def filledState : IoState := { freshState with mem := ⟨fun a => a.toUInt8, fun _ => 0⟩ }

theorem namespace_is_disk_small :
    ∃ put got s, Run (DriverStep uncorCtrl eightBlocks) filledState
        [.command ⟨writeBlock2, fun _ => []⟩ nvmeSuccess put,
          .command ⟨readBlock2, fun _ => []⟩ nvmeSuccess got] s ∧
      IsDisk uncorCtrl eightBlocks filledState
        [.command ⟨writeBlock2, fun _ => []⟩ nvmeSuccess put,
          .command ⟨readBlock2, fun _ => []⟩ nvmeSuccess got] s := by
  have hends : ((nvmeIoCmd uncorCtrl eightBlocks (fun _ => []) writeBlock2 filledState).2.bind
      fun w => (nvmeIoCmd uncorCtrl eightBlocks (fun _ => []) readBlock2 w.2).2.map
        fun r => (w.1, r.1)) = some (nvmeSuccess, nvmeSuccess) := by decide +kernel
  obtain ⟨⟨st, s₁⟩, hw, hends⟩ := Option.bind_eq_some_iff.mp hends
  obtain ⟨⟨st', s₂⟩, hr, hst⟩ := Option.map_eq_some_iff.mp hends
  cases hst
  have hwrite : DriverStep uncorCtrl eightBlocks filledState
      (.command ⟨writeBlock2, fun _ => []⟩ nvmeSuccess _) s₁ :=
    ⟨hw, rfl, fun _ h => absurd h.1 (by decide), fun _ => by decide,
      fun _ => List.pairwise_singleton _ _⟩
  have hread : DriverStep uncorCtrl eightBlocks s₁
      (.command ⟨readBlock2, fun _ => []⟩ nvmeSuccess _) s₂ :=
    ⟨hr, rfl, fun _ h => absurd h.1 (by decide), fun _ => by decide,
      fun _ => List.pairwise_singleton _ _⟩
  have hrun := Run.cons hwrite (.cons hread (.nil s₂))
  exact ⟨_, _, s₂, hrun,
    namespace_is_disk ⟨⟨by decide, rfl, rfl⟩, by decide, by decide⟩ hrun⟩

end Femu.Nvme

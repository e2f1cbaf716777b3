import Femu.Lib.Transition
import Femu.Ocssd.Oc12

/-!
# Femu.Ocssd.Oc12Bounds

Which byte offsets an accepted command of the open-channel SSD 1.2 hands on.
`oc12_rw_check_req` compares every address of the list with the number of blocks and lets
this number itself pass, which is the block behind the last one. The list is overwritten
with byte offsets before the transfer, so that `oc12_advance_status` decodes channel and LUN
from an offset: as long as their counts are powers of two, any number decodes to an existing
unit.
-/

namespace Femu.Ocssd

open Nvme Lib Lib.Traced Admin

/-! ## statement -/

/-- The number decodes to a channel and a LUN of the device. -/
def UnitExists (n : Oc12Dev) (oft : Nat) : Prop :=
  n.ln.ppaf.ch.get oft < n.ln.group.numCh ∧ n.ln.ppaf.lun.get oft < n.ln.group.numLun

instance (n : Oc12Dev) (oft : Nat) : Decidable (UnitExists n oft) :=
  inferInstanceAs (Decidable (_ ∧ _))

/-- The sector at the offset lies in the backend and belongs to an existing unit; the unit
that is asserted exists. -/
def Oc12Access.Inside (n : Oc12Dev) (ns : Admin.NvmeNamespace) : Oc12Access → Prop
  | .backend oft => oft + 2 ^ ns.lbaDs ≤ n.nsSize ∧ UnitExists n oft
  | .unit ch lun => ch < n.ln.group.numCh ∧ lun < n.ln.group.numLun

/-- The command passes the checks, its metadata can be accessed, and its PRP entries can be
mapped. -/
def Reaches (n : Oc12Dev) (ns : Admin.NvmeNamespace) (cmd : NvmeCmd) (mptr : UInt64)
    (s s' : Oc12State) : Prop :=
  (cmd.opcode = Nand.nvmeCmdOcRead ∧
    oc12RwPrepare n ns cmd false (oc12ReadMetadata n mptr.toNat) s = some (nvmeSuccess, s')) ∨
  (cmd.opcode = Nand.nvmeCmdOcWrite ∧
    oc12RwPrepare n ns cmd true (oc12WriteMetadata n mptr.toNat) s = some (nvmeSuccess, s'))

/-- The device is set up with the parameters, and its namespace is in one of its formats. -/
structure SetUp (c : OcSetup) (n : Oc12Dev) (ns : Admin.NvmeNamespace) : Prop where
  cfg : CheckConstraints c.cfg
  size : n.nsSize = c.nsSize
  ln : oc12InitMore c.params (UInt64.ofNat c.nsBlks) = some n.ln
  formats : ∃ cmds, Run (fun ns cmd ns' => formatStep c.cfg ns cmd = some ns')
    (initNamespace c.cfg) cmds ns

/-! ## the transfer -/

section Transfer

variable {n : Oc12Dev} {ns : Admin.NvmeNamespace} {cmd : NvmeCmd} {s : Oc12State}
  {Q : Oc12Access → Prop}

theorem within_emitOffsets_bind {α : Type} (ofts : List Nat) (f : Unit → Oc12M α) :
    Within Q (emitOffsets ofts >>= f) s ↔
      (∀ oft ∈ ofts, Q (.backend oft)) ∧ Within Q (f ()) s := by
  induction ofts with
  | nil => simp [emitOffsets]
  | cons oft rest ih => simp [emitOffsets, ih, and_assoc]

/-- The bucket was opened by a number of the list. -/
def AddrBucket.Of (n : Oc12Dev) (ofts : List Nat) (b : AddrBucket) : Prop :=
  ∃ oft ∈ ofts, b.ch = int32 (n.ln.ppaf.ch.get oft) ∧ b.lun = int32 (n.ln.ppaf.lun.get oft)

theorem parsePpaLoop_of {ofts all : List Nat} {prev : Nat} {bs bs' : List AddrBucket}
    (hall : ∀ oft ∈ ofts, oft ∈ all) (hbs : ∀ b ∈ bs, b.Of n all)
    (h : parsePpaLoop n ofts prev bs = some bs') : ∀ b ∈ bs', b.Of n all := by
  induction ofts generalizing prev bs with
  | nil =>
      simp only [parsePpaLoop, Option.some.injEq] at h
      intro b hb
      exact hbs b (by simpa [← h] using hb)
  | cons oft rest ih =>
      have hrest : ∀ oft ∈ rest, oft ∈ all := fun o ho => hall o (List.mem_cons_of_mem oft ho)
      simp only [parsePpaLoop] at h
      split at h
      · cases bs with
        | nil => cases h
        | cons b bs =>
            refine ih hrest (fun b' hb' => ?_) h
            cases List.mem_cons.mp hb' with
            | inl heq => simpa [heq, AddrBucket.Of] using hbs b List.mem_cons_self
            | inr hmem => exact hbs b' (List.mem_cons_of_mem b hmem)
      · simp only [Option.bind_eq_bind, Option.bind_eq_some_iff] at h
        obtain ⟨pageType, -, h⟩ := h
        refine ih hrest (fun b' hb' => ?_) h
        cases List.mem_cons.mp hb' with
        | inl heq => exact ⟨oft, hall oft List.mem_cons_self, by rw [heq], by rw [heq]⟩
        | inr hmem => exact hbs b' hmem

theorem within_oc12AdvanceLoop {bs : List AddrBucket} {total : UInt64}
    (h : ∀ b ∈ bs, Q (.unit b.ch b.lun)) : Within Q (oc12AdvanceLoop n cmd bs total) s := by
  induction bs generalizing s total with
  | nil => simp [oc12AdvanceLoop]
  | cons b bs ih =>
      have hrest : ∀ s total, Within Q (oc12AdvanceLoop n cmd bs total) s :=
        fun _ _ => ih fun b' hb' => h b' (List.mem_cons_of_mem b hb')
      simp [oc12AdvanceLoop, oc12AdvanceChip, h b List.mem_cons_self, hrest, within_ofState_bind]

/-- The latency emulation of numbers that decode to existing units. -/
theorem within_oc12AdvanceStatus (h : ∀ oft ∈ s.slba, UnitExists n oft) :
    Within (Oc12Access.Inside n ns) (oc12AdvanceStatus n cmd) s := by
  simp only [oc12AdvanceStatus, within_get_bind]
  split
  · simp
  · rename_i buckets hparse
    have hof := parsePpaLoop_of (fun _ ho => ho) (by simp) hparse
    have hinside : ∀ b ∈ buckets, Oc12Access.Inside n ns (.unit b.ch b.lun) := by
      intro b hb
      obtain ⟨oft, hoft, hch, hlun⟩ := hof b hb
      obtain ⟨hchlt, hlunlt⟩ := h oft hoft
      have hchle := int32_le (n.ln.ppaf.ch.get oft)
      have hlunle := int32_le (n.ln.ppaf.lun.get oft)
      rw [← hch] at hchle
      rw [← hlun] at hlunle
      exact ⟨by omega, by omega⟩
    have hloop : ∀ s', Within (Oc12Access.Inside n ns) (oc12AdvanceLoop n cmd buckets 0) s' :=
      fun s' => within_oc12AdvanceLoop hinside
    simp [within_bind (oc12AdvanceLoop n cmd buckets 0), hloop]

/-- A command stays inside exactly when the offsets do that it hands on. -/
theorem within_oc12Rw {isWrite : Bool}
    {metadata : List Nat → Oc12State → Except MetaFault Oc12State} :
    Within (Oc12Access.Inside n ns) (oc12Rw n ns cmd isWrite metadata) s ↔
      ∀ s', oc12RwPrepare n ns cmd isWrite metadata s = some (nvmeSuccess, s') →
        ∀ oft ∈ s'.slba, Oc12Access.Inside n ns (.backend oft) := by
  simp only [oc12Rw, within_ofState_bind]
  constructor
  case mp =>
    intro h s' hs'
    have hrest := h nvmeSuccess s' hs'
    simp only [ne_eq, not_true_eq_false, if_false, oc12BackendReq, bind_assoc, within_get_bind,
      within_emitOffsets_bind] at hrest
    exact hrest.1
  case mpr =>
    intro h status s' hs'
    by_cases hst : status = nvmeSuccess
    · rw [hst] at hs'
      have hofts := h s' hs'
      simp only [hst, ne_eq, not_true_eq_false, if_false, oc12BackendReq, bind_assoc,
        within_get_bind, within_emitOffsets_bind, within_ofState_bind]
      refine ⟨hofts, fun _ s₂ hs₂ => ?_⟩
      obtain ⟨r, -, heq⟩ := Option.map_eq_some_iff.mp hs₂
      simp only [Prod.mk.injEq, true_and] at heq
      have hslba : s₂.slba = s'.slba := by rw [← heq]
      have hstatus : Within (Oc12Access.Inside n ns) (oc12AdvanceStatus n cmd) s₂ :=
        within_oc12AdvanceStatus fun oft hoft => (hofts oft (by rwa [hslba] at hoft)).2
      simp [within_bind, hstatus]
    · simp [hst]

end Transfer

/-! ## the checks -/

section Checks

variable {n : Oc12Dev} {ns : Admin.NvmeNamespace} {cmd : NvmeCmd} {s s' : Oc12State}

/-- A list that is accepted has no address behind the number of blocks. -/
theorem le_of_checkReq {isWrite : Bool} {uncorrectable : Nat → Bool} {psl : List Nat}
    {nlb dataSize metaSize : Nat}
    (h : oc12RwCheckReq n ns cmd isWrite uncorrectable psl nlb dataSize metaSize = nvmeSuccess) :
    (∀ ppa ∈ psl, ppa ≤ ns.nsze) ∧ metaSize = 0 := by
  have hrange : nvmeLbaRange ||| nvmeDnr ≠ nvmeSuccess := by decide
  unfold oc12RwCheckReq at h
  dsimp only at h
  split at h
  · exact absurd h invalidField_ne_success
  split at h
  · exact absurd h invalidField_ne_success
  split at h
  · exact absurd h invalidField_ne_success
  split at h
  · exact absurd h hrange
  rename_i hany
  split at h
  · exact absurd h invalidField_ne_success
  split at h
  · exact absurd h invalidField_ne_success
  rename_i hmeta
  refine ⟨fun ppa hppa => ?_, not_not.mp hmeta⟩
  simp only [List.any_eq_true, decide_eq_true_eq, not_exists, not_and, Nat.not_lt, gt_iff_lt]
    at hany
  exact hany ppa hppa

/-- What a command has passed that reaches the transfer. -/
theorem prepare_success {isWrite : Bool}
    {metadata : List Nat → Oc12State → Except MetaFault Oc12State}
    (h : oc12RwPrepare n ns cmd isWrite metadata s = some (nvmeSuccess, s')) :
    (∀ ppa ∈ oc12ReadPpaList n.toDmaCtrl s.mem cmd, ppa ≤ ns.nsze) ∧
      intToU64 ((cmd.nlb + 1) * lbafMs ns) = 0 ∧
      s'.slba = (oc12ReadPpaList n.toDmaCtrl s.mem cmd).map (ppaOffset n ns) := by
  unfold oc12RwPrepare at h
  dsimp only at h
  split at h
  · cases h
  split at h
  · rename_i herr
    simp only [Option.some.injEq, Prod.mk.injEq] at h
    exact absurd h.1 herr
  · rename_i herr
    obtain ⟨hle, hmeta⟩ := le_of_checkReq (not_not.mp herr)
    split at h
    · cases h
    · obtain ⟨r, -, heq⟩ := Option.map_eq_some_iff.mp h
      simp only [Prod.mk.injEq] at heq
      exact ⟨hle, hmeta, by rw [← heq.2]⟩

end Checks

/-! ## the namespace -/

section Namespace

variable {c : FormatCfg} {ns : Admin.NvmeNamespace}

/-- The namespace is in one of the formats of the device. -/
structure InFormat (c : FormatCfg) (ns : Admin.NvmeNamespace) : Prop where
  inv : NsInv c ns
  ms : ∀ i ≤ ns.nlbaf, ns.ms i = c.metaSize.toNat
  idx_le : ns.lbaIdx ≤ ns.nlbaf
  nsze : ns.nsze = c.nsSize / 2 ^ ns.lbaDs ∨
    ns.nsze = c.nsSize / (2 ^ ns.lbaDs + c.metaSize.toNat)

theorem inFormat_init (hcfg : CheckConstraints c) : InFormat c (initNamespace c) := by
  obtain ⟨hinv, hds, hnsze⟩ := init_nsInv hcfg
  have hnlbaf := hinv.nlbaf
  have hindex : c.lbaIndex.toNat < c.nlbaf.toNat := UInt8.lt_iff_toNat_lt.mp hcfg.2.2.1
  have hle : c.nlbaf.toNat ≤ 16 := UInt8.le_iff_toNat_le.mp hcfg.2.1
  have hidx : (initNamespace c).lbaIdx = c.lbaIndex.toNat := by
    refine or_and_low (by omega) ?_
    rw [Nat.shiftLeft_eq]
    omega
  refine ⟨hinv, fun i hi => if_pos (by omega), by omega, .inl ?_⟩
  rw [hds, hnsze]

/-- **Step**: a command leaves the namespace in one of the formats. -/
theorem InFormat.step (h : InFormat c ns) (cmd : NvmeCmd) :
    InFormat c (adminFormat c ns cmd).2 := by
  by_cases hacc : Accepts c ns cmd
  case neg =>
    rw [(adminFormat_of_not_accepts hacc).2]
    exact h
  case pos =>
    obtain ⟨hnsze, hds, -⟩ := h.inv.formatted hacc
    refine ⟨h.inv.format, ?_, ?_, .inr (by rw [hnsze, hds])⟩
    · rw [adminFormat_of_accepts hacc]
      exact h.ms
    · have hidx : (adminFormat c ns cmd).2.lbaIdx = formatIdx cmd := by
        rw [adminFormat_of_accepts hacc]
        exact or_and_low (formatIdx_lt cmd) (formatMetaLoc_mod cmd)
      rw [hidx, adminFormat_of_accepts hacc]
      exact hacc.2.2.1

theorem inFormat_run (hcfg : CheckConstraints c) {cmds : List NvmeCmd}
    (hrun : Run (fun ns cmd ns' => formatStep c ns cmd = some ns') (initNamespace c) cmds ns) :
    InFormat c ns := by
  refine hrun.invariant (I := InFormat c) ?_ (inFormat_init hcfg)
  intro ns cmd ns' h hstep
  cases hstep
  exact h.step cmd

/-- Without metadata the number of blocks is that of the sectors in the device. -/
theorem InFormat.nsze_eq (h : InFormat c ns) (hms : lbafMs ns = 0) :
    ns.nsze = c.nsSize / 2 ^ ns.lbaDs := by
  rw [lbafMs, h.ms _ h.idx_le] at hms
  have hnsze := h.nsze
  rwa [hms, Nat.add_zero, or_self] at hnsze

end Namespace

/-! ## offsets -/

theorem nsSize_lt (c : FormatCfg) : c.nsSize < 2 ^ 52 := by
  have hlt := c.memsz.toNat_lt
  simp only [FormatCfg.nsSize]
  omega

/-- A small number is not changed by an `int`. -/
theorem intToU64_eq {x : Nat} (h : x < 2 ^ 31) : intToU64 x = x := by
  rw [intToU64, u32_eq (by omega), if_pos h]

section Offset

variable {c : OcSetup} {n : Oc12Dev} {ns : Admin.NvmeNamespace} {ppa : Nat}

/-- The sector of an address up to the number of blocks lies in the backend, unless it is
this number. -/
theorem inside_offset_iff (hsize : n.nsSize = c.nsSize)
    (hnsze : ns.nsze = c.nsSize / 2 ^ ns.lbaDs) (hle : ppa ≤ ns.nsze) :
    ppaOffset n ns ppa = ppa <<< ns.lbaDs ∧
      (ppaOffset n ns ppa + 2 ^ ns.lbaDs ≤ n.nsSize ↔ ppa ≠ ns.nsze) := by
  have hpos : 0 < 2 ^ ns.lbaDs := Nat.two_pow_pos _
  have hmul : ppa * 2 ^ ns.lbaDs ≤ c.nsSize := by
    rw [hnsze] at hle
    exact (Nat.le_div_iff_mul_le hpos).mp hle
  have hlt := nsSize_lt c.cfg
  have hoft : ppaOffset n ns ppa = ppa <<< ns.lbaDs := by
    have hstart : startBlock n = 0 := by simp [startBlock]
    rw [ppaOffset, hstart, Nat.zero_add, Nat.shiftLeft_eq]
    change c.nsSize < 2 ^ 52 at hlt
    rw [u64_eq (x := ppa * 2 ^ ns.lbaDs) (by omega), u64_eq (by omega)]
  refine ⟨hoft, ?_⟩
  rw [hoft, hsize, Nat.shiftLeft_eq, ← Nat.succ_mul, ← Nat.le_div_iff_mul_le hpos, ← hnsze]
  omega

end Offset

/-- An accepted command of a namespace with metadata would have to transfer it. -/
theorem lbafMs_eq_zero {c : FormatCfg} {ns : Admin.NvmeNamespace} (h : InFormat c ns)
    {cmd : NvmeCmd} (hmeta : intToU64 ((cmd.nlb + 1) * lbafMs ns) = 0) : lbafMs ns = 0 := by
  have hms : lbafMs ns < 2 ^ 8 := by
    rw [lbafMs, h.ms _ h.idx_le]
    exact c.metaSize.toNat_lt
  have hle : (cmd.nlb + 1) * lbafMs ns ≤ 2 ^ 16 * 2 ^ 8 := Nat.mul_le_mul cmd.nlb_lt hms.le
  rw [intToU64_eq (by omega)] at hmeta
  exact (Nat.mul_eq_zero.mp hmeta).resolve_left (by omega)

/-! ## units -/

section Units

variable {c : OcSetup} {n : Oc12Dev}

/-- A field for a number of values that is a power of two only holds such values. -/
theorem get_lt_of_pow {below : AddrField} {count : Nat} (hpos : 0 < count)
    (hcount : count < 2 ^ 16) (hpow : ∃ a, count = 2 ^ a)
    (hfit : (below.above count).offset + (below.above count).len ≤ 31) (oft : Nat) :
    (below.above count).get oft < count := by
  obtain ⟨a, ha⟩ := hpow
  have ha' : a < 16 := by
    rw [ha] at hcount
    exact (Nat.pow_lt_pow_iff_right (by omega)).mp hcount
  rw [AddrField.get, AddrField.above_mask hfit, field_eq]
  calc
    _ < 2 ^ (below.above count).len := Nat.mod_lt _ (Nat.two_pow_pos _)
    _ ≤ 2 ^ a := Nat.pow_le_pow_right (by omega) (qemuFls_le hpos ha.le (by omega))
    _ = count := ha.symm

/-- With counts that are powers of two every number decodes to an existing unit. -/
theorem unitExists_of_pow (hwf : n.ln.Wf) (hfit : FormatFits n.ln)
    (hch : ∃ a, n.ln.group.numCh = 2 ^ a) (hlun : ∃ b, n.ln.group.numLun = 2 ^ b) (oft : Nat) :
    UnitExists n oft := by
  have hchlt := hwf.small n.ln.group.numCh (by simp)
  have hlunlt := hwf.small n.ln.group.numLun (by simp)
  have hchpos := hwf.ch
  have hlunpos := hwf.lun
  rw [FormatFits] at hfit
  rw [UnitExists]
  rw [hwf.ppaf] at hfit ⊢
  rw [← hwf.numCh_eq] at hch hchlt hchpos ⊢
  rw [← hwf.numLun_eq] at hlun hlunlt hlunpos ⊢
  have hlunfit := Nat.le_trans (Nat.le_add_right _ _) hfit
  exact ⟨get_lt_of_pow hchpos hchlt hch hfit oft, get_lt_of_pow hlunpos hlunlt hlun hlunfit oft⟩

end Units

/-! ## main result -/

/-- **Addresses of the open-channel SSD 1.2**: a read or write stays in the backend and
decodes existing units if and only if, when it reaches the transfer, no address of its list
is the number of blocks, and the offsets decode to existing units; and with counts that are
powers of two every offset does. -/
theorem oc12_addresses_iff {c : OcSetup} {n : Oc12Dev} {ns : Admin.NvmeNamespace}
    (h : SetUp c n ns) (cmd : NvmeCmd) (mptr : UInt64) (s : Oc12State) :
    (Within (Oc12Access.Inside n ns) (oc12IoCmd n ns cmd mptr) s ↔
      ∀ s', Reaches n ns cmd mptr s s' → ∀ ppa ∈ oc12ReadPpaList n.toDmaCtrl s.mem cmd,
        ppa ≠ ns.nsze ∧ UnitExists n (ppa <<< ns.lbaDs)) ∧
    (FormatFits n.ln → (∃ a, n.ln.group.numCh = 2 ^ a) → (∃ b, n.ln.group.numLun = 2 ^ b) →
      ∀ oft, UnitExists n oft) := by
  obtain ⟨cmds, hrun⟩ := h.formats
  have hfmt := inFormat_run h.cfg hrun
  -- the offsets that a command hands on
  have hrw : ∀ isWrite metadata, Within (Oc12Access.Inside n ns)
      (oc12Rw n ns cmd isWrite metadata) s ↔
        ∀ s', oc12RwPrepare n ns cmd isWrite metadata s = some (nvmeSuccess, s') →
          ∀ ppa ∈ oc12ReadPpaList n.toDmaCtrl s.mem cmd,
            ppa ≠ ns.nsze ∧ UnitExists n (ppa <<< ns.lbaDs) := by
    intro isWrite metadata
    rw [within_oc12Rw]
    refine forall_congr' fun s' => forall_congr' fun hs' => ?_
    obtain ⟨hle, hmeta, hslba⟩ := prepare_success hs'
    rw [hslba, List.forall_mem_map]
    refine forall_congr' fun ppa => forall_congr' fun hppa => ?_
    obtain ⟨hoft, hiff⟩ := inside_offset_iff h.size
      (hfmt.nsze_eq (lbafMs_eq_zero hfmt hmeta)) (hle ppa hppa)
    rw [Oc12Access.Inside, hiff, hoft]
  refine ⟨?_, unitExists_of_pow (oc12InitMore_wf h.ln).1⟩
  unfold oc12IoCmd Reaches
  by_cases hread : cmd.opcode = Nand.nvmeCmdOcRead
  · have hne : Nand.nvmeCmdOcRead ≠ Nand.nvmeCmdOcWrite := by decide
    simpa [hread, hne, oc12Read] using hrw false (oc12ReadMetadata n mptr.toNat)
  · by_cases hwrite : cmd.opcode = Nand.nvmeCmdOcWrite
    · have hne : Nand.nvmeCmdOcWrite ≠ Nand.nvmeCmdOcRead := by decide
      simpa [hwrite, hne, oc12Write] using hrw true (oc12WriteMetadata n mptr.toNat)
    · simp [hread, hwrite]

/-! ## the block behind the last one -/

/-- The default device with pages of 4096 bytes. -/
def defaultOc12 (ln : Oc12Ctrl) : Oc12Dev where
  pageSize := 4096
  pageBits := 12
  maxPrpEnts := 512
  cmbsz := 0
  ctrlMemAddr := 0
  ctrlMemSize := 0
  mdts := 0
  nsSize := 2 ^ 30
  ln := ln
  maxSecPerRq := 64
  flashType := .mlc
  statics := Nand.initNandFlash .zero

/-- The state before the first command. -/
def freshOc12 : Oc12State where
  mem := ⟨fun _ => 0, fun _ => 0⟩
  mb := fun _ => 0
  metaBuf := fun _ => 0
  uncorrectable := fun _ => false
  chipNextAvailTime := fun _ => 0
  isWrite := false
  slba := []
  map := ⟨pciDmaSglistInit, []⟩
  stime := 0
  expireTime := 0

/-- A read of one sector. -/
def readPpa (ppa : UInt32) : NvmeCmd :=
  { opcode := Nand.nvmeCmdOcRead, nsid := 1, prp1 := 4096, cdw10 := ppa }

theorem setUp_default {ln : Oc12Ctrl}
    (hln : oc12InitMore ⟨4, 512, 2, 8, 2, 16⟩ 2097152 = some ln) :
    SetUp (defaultSetup 0) (defaultOc12 ln) (initNamespace (defaultSetup 0).cfg) where
  cfg := by decide
  size := by
    change 2 ^ 30 = (defaultSetup 0).nsSize
    decide +kernel
  ln := by
    have hblks : UInt64.ofNat (defaultSetup 0).nsBlks = 2097152 := by decide +kernel
    rw [hblks]
    exact hln
  formats := ⟨[], .nil _⟩

/-- The address 2097152 of a device with as many blocks is accepted, and the sector behind
the backend is read. -/
theorem block_behind_last : ∃ n ns, SetUp (defaultSetup 0) n ns ∧
    (oc12IoCmd n ns (readPpa 2097152) 0 freshOc12).1 = [.backend (2 ^ 30), .unit 0 0] ∧
    ¬ Within (Oc12Access.Inside n ns) (oc12IoCmd n ns (readPpa 2097152) 0) freshOc12 := by
  have htrace : (oc12InitMore ⟨4, 512, 2, 8, 2, 16⟩ 2097152).map (fun ln =>
      (oc12IoCmd (defaultOc12 ln) (initNamespace (defaultSetup 0).cfg) (readPpa 2097152) 0
        freshOc12).1) = some [.backend (2 ^ 30), .unit 0 0] := by decide +kernel
  obtain ⟨ln, hln, htrace⟩ := Option.map_eq_some_iff.mp htrace
  refine ⟨defaultOc12 ln, _, setUp_default hln, htrace, fun h => ?_⟩
  have hinside := (h (.backend (2 ^ 30)) (by rw [htrace]; decide)).1
  change 2 ^ 30 + 2 ^ (initNamespace (defaultSetup 0).cfg).lbaDs ≤ 2 ^ 30 at hinside
  exact absurd hinside (by decide +kernel)

/-- The addresses 131075, 257 and 0 in host memory at 8192, and a read of them. -/
def threePpas : Oc12State :=
  { freshOc12 with
    mem := ⟨fun a => if a = 8192 then 3 else if a = 8194 then 2
      else if a = 8200 ∨ a = 8201 then 1 else 0, fun _ => 0⟩ }
def readThree : NvmeCmd :=
  { opcode := Nand.nvmeCmdOcRead, nsid := 1, prp1 := 4096, cdw10 := 8192, cdw12 := 2 }

/-- A read of sectors of two units. -/
theorem oc12_addresses_three : ∃ n ns, SetUp (defaultSetup 0) n ns ∧
    (oc12IoCmd n ns readThree 0 threePpas).1 = [.backend 67110400, .backend 131584, .backend 0,
      .unit 0 0, .unit 0 1, .unit 0 0] ∧
    Within (Oc12Access.Inside n ns) (oc12IoCmd n ns readThree 0) threePpas := by
  have hends : (oc12InitMore ⟨4, 512, 2, 8, 2, 16⟩ 2097152).map (fun ln =>
      ((oc12IoCmd (defaultOc12 ln) (initNamespace (defaultSetup 0).cfg) readThree 0
        threePpas).1, oc12ReadPpaList (defaultOc12 ln).toDmaCtrl threePpas.mem readThree,
        [131075, 257, 0].all fun ppa => ppa ≠ (initNamespace (defaultSetup 0).cfg).nsze ∧
          UnitExists (defaultOc12 ln) (ppa <<< (initNamespace (defaultSetup 0).cfg).lbaDs))) =
        some ([.backend 67110400, .backend 131584, .backend 0, .unit 0 0, .unit 0 1, .unit 0 0],
          [131075, 257, 0], true) := by decide +kernel
  obtain ⟨ln, hln, heq⟩ := Option.map_eq_some_iff.mp hends
  obtain ⟨htrace, hlist, hppas⟩ : _ ∧ _ ∧ _ := by simpa only [Prod.mk.injEq] using heq
  refine ⟨defaultOc12 ln, _, setUp_default hln, htrace, ?_⟩
  refine (oc12_addresses_iff (setUp_default hln) readThree 0 threePpas).1.mpr
    fun s' _ ppa hppa => ?_
  rw [hlist] at hppa
  exact of_decide_eq_true (List.all_eq_true.mp hppas ppa hppa)

end Femu.Ocssd

import Femu.Lib.Transition
import Femu.Nvme.Defs

/-!
# Femu.Admin.Format

The formats of a namespace (`nvme_ns_init_identify` and `nvme_init_namespace` of `femu.c`,
`nvme_format` of `nvme-admin.c`, `ns_blks` of `nvme.h`). The bitmaps of the namespace are
allocated once, for the blocks of the first format.
-/

namespace Femu.Admin

open Nvme Lib

def nvmeInvalidFormat : Status := 0x010a

/-- `NVME_OACS_FORMAT`. -/
def nvmeOacsFormat : Nat := 2

/-- `BDRV_SECTOR_BITS`. -/
def bdrvSectorBits : Nat := 9

/-! ## configuration -/

/-- The properties of the controller that the formats depend on. There is one namespace. -/
structure FormatCfg where
  memsz : UInt32
  nlbaf : UInt8
  lbaIndex : UInt8
  extended : UInt8
  metaSize : UInt8
  mc : UInt8
  dpc : UInt8
  dps : UInt8
  oacs : UInt16

/-- `n->ns_size`, in bytes. -/
def FormatCfg.nsSize (n : FormatCfg) : Nat := n.memsz.toNat * 2 ^ 20

/-- `nvme_check_constraints` finds nothing wrong with these properties. -/
def CheckConstraints (n : FormatCfg) : Prop :=
  n.extended ≤ 1 ∧ n.nlbaf ≤ 16 ∧ n.lbaIndex < n.nlbaf ∧ (n.metaSize ≠ 0 → n.mc ≠ 0) ∧
    (n.extended ≠ 0 → n.mc.toNat.testBit 0) ∧
    (n.extended = 0 → n.metaSize ≠ 0 → n.mc.toNat.testBit 1) ∧ (n.dps ≠ 0 → 8 ≤ n.metaSize) ∧
    (n.dps ≠ 0 → n.dps.toNat.testBit 3 → n.dpc.toNat.testBit 3) ∧
    (n.dps ≠ 0 → ¬ n.dps.toNat.testBit 3 → n.dpc.toNat.testBit 4) ∧
    (n.dps % 8 ≠ 0 → (n.dpc.toNat % 8).testBit (n.dps.toNat % 8 - 1)) ∧ n.oacs &&& ~~~2 = 0

instance (n : FormatCfg) : Decidable (CheckConstraints n) :=
  inferInstanceAs (Decidable (_ ∧ _ ∧ _ ∧ _ ∧ _ ∧ _ ∧ _ ∧ _ ∧ _ ∧ _ ∧ _))

/-! ## the namespace -/

/-- `NvmeNamespace` with its `id_ns`; `bits` is the length of the bitmaps `util` and
`uncorrectable`. -/
structure NvmeNamespace where
  nlbaf : Nat
  flbas : Nat
  mc : Nat
  dpc : Nat
  dps : Nat
  lbads : Nat → Nat
  ms : Nat → Nat
  nsze : Nat
  ncap : Nat
  nuse : Nat
  nsBlks : Nat
  bits : Nat

/-- `NVME_ID_NS_FLBAS_INDEX`. -/
def NvmeNamespace.lbaIdx (ns : NvmeNamespace) : Nat := ns.flbas &&& 0xf

/-- `NVME_ID_NS_LBADS`. -/
def NvmeNamespace.lbaDs (ns : NvmeNamespace) : Nat := ns.lbads ns.lbaIdx

/-- `ns_blks`. -/
def nsBlks (n : FormatCfg) (ns : NvmeNamespace) (lbaIdx : Nat) : Nat :=
  n.nsSize / (2 ^ ns.lbads lbaIdx + n.metaSize.toNat)

/-- The bits of the words that `bitmap_new` allocates. -/
def bitmapNew (nbits : Nat) : Nat := (nbits + 63) / 64 * 64

/-- `nvme_init_namespace`, with `nvme_ns_init_identify`. -/
def initNamespace (n : FormatCfg) : NvmeNamespace :=
  let ns : NvmeNamespace := {
    nlbaf := n.nlbaf.toNat - 1
    flbas := n.lbaIndex.toNat ||| n.extended.toNat <<< 4
    mc := n.mc.toNat
    dpc := n.dpc.toNat
    dps := n.dps.toNat
    lbads := fun i => if i < n.nlbaf.toNat then bdrvSectorBits + i else if i = 0 then 9 else 0
    ms := fun i => if i < n.nlbaf.toNat then n.metaSize.toNat else 0
    nsze := 0
    ncap := 0
    nuse := 0
    nsBlks := 0
    bits := 0 }
  let numBlks := n.nsSize / 2 ^ ns.lbaDs
  { ns with
    nsze := numBlks
    ncap := numBlks
    nuse := numBlks
    nsBlks := nsBlks n ns ns.lbaIdx
    bits := bitmapNew numBlks }

/-! ## Format NVM -/

/-- The checks of `nvme_format_namespace`. -/
def FormatChecks (ns : NvmeNamespace) (lbaIdx metaLoc pil pi : Nat) : Prop :=
  lbaIdx ≤ ns.nlbaf ∧ (pi ≠ 0 → pil ≠ 0 → ns.dpc.testBit 4) ∧
    (pi ≠ 0 → pil = 0 → ns.dpc.testBit 3) ∧ (pi ≠ 0 → (ns.dpc &&& 7).testBit (pi - 1)) ∧
    (metaLoc ≠ 0 → ns.ms lbaIdx ≠ 0 → ns.mc.testBit 0) ∧
    (metaLoc = 0 → ns.ms lbaIdx ≠ 0 → ns.mc.testBit 1)

instance (ns : NvmeNamespace) (lbaIdx metaLoc pil pi : Nat) :
    Decidable (FormatChecks ns lbaIdx metaLoc pil pi) :=
  inferInstanceAs (Decidable (_ ∧ _ ∧ _ ∧ _ ∧ _ ∧ _))

/-- The assignments of `nvme_format_namespace`. -/
def setFormat (n : FormatCfg) (ns : NvmeNamespace) (lbaIdx metaLoc pil pi : Nat) : NvmeNamespace :=
  { ns with
    flbas := lbaIdx ||| metaLoc
    dps := pil ||| pi
    nsBlks := nsBlks n ns lbaIdx
    nsze := nsBlks n ns lbaIdx
    ncap := nsBlks n ns lbaIdx
    nuse := nsBlks n ns lbaIdx }

/-- `nvme_format_namespace`. -/
def formatNamespace (n : FormatCfg) (ns : NvmeNamespace) (lbaIdx metaLoc pil pi : Nat) :
    Status × NvmeNamespace :=
  let ms := ns.ms lbaIdx
  if lbaIdx > ns.nlbaf then (nvmeInvalidFormat ||| nvmeDnr, ns)
  else if pi ≠ 0 ∧ pil ≠ 0 ∧ !ns.dpc.testBit 4 then (nvmeInvalidFormat ||| nvmeDnr, ns)
  else if pi ≠ 0 ∧ pil = 0 ∧ !ns.dpc.testBit 3 then (nvmeInvalidFormat ||| nvmeDnr, ns)
  else if pi ≠ 0 ∧ !(ns.dpc &&& 7).testBit (pi - 1) then (nvmeInvalidFormat ||| nvmeDnr, ns)
  else if metaLoc ≠ 0 ∧ ms ≠ 0 ∧ !ns.mc.testBit 0 then (nvmeInvalidFormat ||| nvmeDnr, ns)
  else if metaLoc = 0 ∧ ms ≠ 0 ∧ !ns.mc.testBit 1 then (nvmeInvalidFormat ||| nvmeDnr, ns)
  else (nvmeSuccess, setFormat n ns lbaIdx metaLoc pil pi)

theorem formatNamespace_eq (n : FormatCfg) (ns : NvmeNamespace) (lbaIdx metaLoc pil pi : Nat) :
    formatNamespace n ns lbaIdx metaLoc pil pi =
      if FormatChecks ns lbaIdx metaLoc pil pi then
        (nvmeSuccess, setFormat n ns lbaIdx metaLoc pil pi)
      else (nvmeInvalidFormat ||| nvmeDnr, ns) := by
  unfold formatNamespace FormatChecks
  dsimp only
  split_ifs <;> first | rfl | grind

/-- The format that the command selects. -/
def formatIdx (cmd : NvmeCmd) : Nat := cmd.cdw10.toNat &&& 0xf

/-- `meta_loc` of `nvme_format`. -/
def formatMetaLoc (cmd : NvmeCmd) : Nat := cmd.cdw10.toNat &&& 0x10

/-- `pil` of `nvme_format`. -/
def formatPil (cmd : NvmeCmd) : Nat := cmd.cdw10.toNat >>> 5 &&& 0x8

/-- `pi` of `nvme_format`. -/
def formatPi (cmd : NvmeCmd) : Nat := cmd.cdw10.toNat >>> 5 &&& 0x7

/-- `nvme_format`, for the one namespace. -/
def nvmeFormat (n : FormatCfg) (ns : NvmeNamespace) (cmd : NvmeCmd) : Status × NvmeNamespace :=
  if cmd.nsid = 0xffffffff ∨ cmd.nsid = 1 then
    formatNamespace n ns (formatIdx cmd) (formatMetaLoc cmd) (formatPil cmd) (formatPi cmd)
  else (nvmeInvalidNsid ||| nvmeDnr, ns)

/-- The case `NVME_ADM_CMD_FORMAT_NVM` of `nvme_admin_cmd`. -/
def adminFormat (n : FormatCfg) (ns : NvmeNamespace) (cmd : NvmeCmd) : Status × NvmeNamespace :=
  if n.oacs.toNat &&& nvmeOacsFormat ≠ 0 then nvmeFormat n ns cmd
  else (nvmeInvalidOpcode ||| nvmeDnr, ns)

/-- The checks that a command passes when it is accepted. -/
def Accepts (n : FormatCfg) (ns : NvmeNamespace) (cmd : NvmeCmd) : Prop :=
  n.oacs.toNat &&& nvmeOacsFormat ≠ 0 ∧ (cmd.nsid = 0xffffffff ∨ cmd.nsid = 1) ∧
    FormatChecks ns (formatIdx cmd) (formatMetaLoc cmd) (formatPil cmd) (formatPi cmd)

instance (n : FormatCfg) (ns : NvmeNamespace) (cmd : NvmeCmd) : Decidable (Accepts n ns cmd) :=
  inferInstanceAs (Decidable (_ ∧ _ ∧ _))

section format

variable {n : FormatCfg} {ns ns' : NvmeNamespace} {cmd : NvmeCmd}

theorem adminFormat_of_accepts (h : Accepts n ns cmd) :
    adminFormat n ns cmd = (nvmeSuccess,
      setFormat n ns (formatIdx cmd) (formatMetaLoc cmd) (formatPil cmd) (formatPi cmd)) := by
  obtain ⟨hoacs, hnsid, hchecks⟩ := h
  rw [adminFormat, if_pos hoacs, nvmeFormat, if_pos hnsid, formatNamespace_eq, if_pos hchecks]

/-- A command that is refused leaves the namespace unchanged. -/
theorem adminFormat_of_not_accepts (h : ¬ Accepts n ns cmd) :
    (adminFormat n ns cmd).1 ≠ nvmeSuccess ∧ (adminFormat n ns cmd).2 = ns := by
  unfold adminFormat
  split
  case isFalse => exact ⟨(by decide : nvmeInvalidOpcode ||| nvmeDnr ≠ nvmeSuccess), rfl⟩
  case isTrue hoacs =>
    unfold nvmeFormat
    split
    case isFalse => exact ⟨(by decide : nvmeInvalidNsid ||| nvmeDnr ≠ nvmeSuccess), rfl⟩
    case isTrue hnsid =>
      rw [formatNamespace_eq, if_neg fun hchecks => h ⟨hoacs, hnsid, hchecks⟩]
      exact ⟨(by decide : nvmeInvalidFormat ||| nvmeDnr ≠ nvmeSuccess), rfl⟩

/-! ## the size of a namespace -/

/-- What no command changes. -/
structure NsInv (n : FormatCfg) (ns : NvmeNamespace) : Prop where
  nlbaf : ns.nlbaf + 1 = n.nlbaf.toNat
  lbads : ∀ i ≤ ns.nlbaf, ns.lbads i = bdrvSectorBits + i
  bits : ns.bits = bitmapNew (n.nsSize / 2 ^ (bdrvSectorBits + n.lbaIndex.toNat))

theorem NsInv.format (h : NsInv n ns) : NsInv n (adminFormat n ns cmd).2 := by
  by_cases hacc : Accepts n ns cmd
  · rw [adminFormat_of_accepts hacc]
    exact ⟨h.nlbaf, h.lbads, h.bits⟩
  · rw [(adminFormat_of_not_accepts hacc).2]
    exact h

/-- The number of the format is in the lowest bits, the place of the metadata is not. -/
theorem or_and_low {lbaIdx metaLoc : Nat} (hidx : lbaIdx < 16) (hmeta : metaLoc % 16 = 0) :
    (lbaIdx ||| metaLoc) &&& 0xf = lbaIdx := by
  change (lbaIdx ||| metaLoc) &&& (2 ^ 4 - 1) = lbaIdx
  rw [Nat.and_two_pow_sub_one_eq_mod, Nat.or_mod_two_pow, Nat.mod_eq_of_lt hidx]
  change lbaIdx ||| metaLoc % 16 = lbaIdx
  rw [hmeta, Nat.or_zero]

theorem formatIdx_lt (cmd : NvmeCmd) : formatIdx cmd < 16 :=
  Nat.lt_of_le_of_lt Nat.and_le_right (by decide)

theorem formatMetaLoc_mod (cmd : NvmeCmd) : formatMetaLoc cmd % 16 = 0 := by
  change (cmd.cdw10.toNat &&& 16) % 2 ^ 4 = 0
  rw [Nat.and_mod_two_pow]
  exact Nat.and_zero _

/-- What an accepted command leaves. -/
theorem NsInv.formatted (h : NsInv n ns) (hacc : Accepts n ns cmd) :
    (adminFormat n ns cmd).2.nsze =
        n.nsSize / (2 ^ (bdrvSectorBits + formatIdx cmd) + n.metaSize.toNat) ∧
      (adminFormat n ns cmd).2.lbaDs = bdrvSectorBits + formatIdx cmd ∧
      (adminFormat n ns cmd).2.bits = ns.bits := by
  have hlbads := h.lbads _ hacc.2.2.1
  rw [adminFormat_of_accepts hacc]
  refine ⟨?_, ?_, rfl⟩
  · change nsBlks n ns (formatIdx cmd) = _
    rw [nsBlks, hlbads]
  · have hidx : (setFormat n ns (formatIdx cmd) (formatMetaLoc cmd) (formatPil cmd)
        (formatPi cmd)).lbaIdx = formatIdx cmd :=
      or_and_low (formatIdx_lt cmd) (formatMetaLoc_mod cmd)
    rw [NvmeNamespace.lbaDs, hidx]
    exact hlbads

theorem init_nsInv (hcfg : CheckConstraints n) : NsInv n (initNamespace n) ∧
    (initNamespace n).lbaDs = bdrvSectorBits + n.lbaIndex.toNat ∧
    (initNamespace n).nsze = n.nsSize / 2 ^ (bdrvSectorBits + n.lbaIndex.toNat) := by
  have hnlbaf : n.nlbaf.toNat ≤ 16 := UInt8.le_iff_toNat_le.mp hcfg.2.1
  have hindex : n.lbaIndex.toNat < n.nlbaf.toNat := UInt8.lt_iff_toNat_lt.mp hcfg.2.2.1
  have hidx : (initNamespace n).lbaIdx = n.lbaIndex.toNat := by
    refine or_and_low (by omega) ?_
    rw [Nat.shiftLeft_eq]
    omega
  have hlbads : ∀ i < n.nlbaf.toNat, (initNamespace n).lbads i = bdrvSectorBits + i :=
    fun i hi => if_pos hi
  have hds : (initNamespace n).lbaDs = bdrvSectorBits + n.lbaIndex.toNat := by
    rw [NvmeNamespace.lbaDs, hidx, hlbads _ hindex]
  have hnsze : (initNamespace n).nsze = n.nsSize / 2 ^ (initNamespace n).lbaDs := rfl
  have hbits : (initNamespace n).bits = bitmapNew (n.nsSize / 2 ^ (initNamespace n).lbaDs) := rfl
  rw [hds] at hnsze hbits
  have hlast : (initNamespace n).nlbaf = n.nlbaf.toNat - 1 := rfl
  exact ⟨⟨by omega, fun i hi => hlbads i (by omega), hbits⟩, hds, hnsze⟩

end format

/-! ## the bitmaps -/

/-- The bitmaps have a bit for each block, and the blocks are within the device. -/
structure Covers (n : FormatCfg) (ns : NvmeNamespace) : Prop where
  bits : ns.nsze ≤ ns.bits
  size : ns.nsze <<< ns.lbaDs ≤ n.nsSize

/-- The blocks of a format that is accepted, with their metadata, are so large that the bitmaps
have enough bits for them. -/
def LargeEnough (n : FormatCfg) (ns : NvmeNamespace) (cmd : NvmeCmd) : Prop :=
  Accepts n ns cmd → n.nsSize <
    (bitmapNew (n.nsSize / 2 ^ (bdrvSectorBits + n.lbaIndex.toNat)) + 1) *
      (2 ^ (bdrvSectorBits + formatIdx cmd) + n.metaSize.toNat)

instance (n : FormatCfg) (ns : NvmeNamespace) (cmd : NvmeCmd) : Decidable (LargeEnough n ns cmd) :=
  inferInstanceAs (Decidable (_ → _))

def formatStep (n : FormatCfg) (ns : NvmeNamespace) (cmd : NvmeCmd) : Option NvmeNamespace :=
  some (adminFormat n ns cmd).2

section covers

variable {n : FormatCfg} {ns : NvmeNamespace} {cmd : NvmeCmd}

/-- **Step**: a command keeps the bitmaps long enough exactly when its blocks are large enough. -/
theorem Covers.format_iff (h : NsInv n ns) (hcov : Covers n ns) :
    Covers n (adminFormat n ns cmd).2 ↔ LargeEnough n ns cmd := by
  by_cases hacc : Accepts n ns cmd
  case neg =>
    rw [(adminFormat_of_not_accepts hacc).2]
    exact iff_of_true hcov fun hyes => absurd hyes hacc
  case pos =>
    obtain ⟨hnsze, hds, hbits⟩ := h.formatted hacc
    have hpos : 0 < 2 ^ (bdrvSectorBits + formatIdx cmd) + n.metaSize.toNat :=
      Nat.add_pos_left (Nat.two_pow_pos _) _
    have hsize : (adminFormat n ns cmd).2.nsze <<< (adminFormat n ns cmd).2.lbaDs ≤ n.nsSize := by
      rw [hnsze, hds, Nat.shiftLeft_eq]
      exact Nat.le_trans (Nat.mul_le_mul_left _ (Nat.le_add_right _ _)) (Nat.div_mul_le_self _ _)
    have hfit : (adminFormat n ns cmd).2.nsze ≤ (adminFormat n ns cmd).2.bits ↔
        n.nsSize < (bitmapNew (n.nsSize / 2 ^ (bdrvSectorBits + n.lbaIndex.toNat)) + 1) *
          (2 ^ (bdrvSectorBits + formatIdx cmd) + n.metaSize.toNat) := by
      rw [hnsze, hbits, h.bits, ← Nat.lt_succ_iff, Nat.div_lt_iff_lt_mul hpos]
    constructor
    · exact fun hnew _ => hfit.mp hnew.bits
    · exact fun hlarge => ⟨hfit.mpr (hlarge hacc), hsize⟩

theorem init_covers (hcfg : CheckConstraints n) : Covers n (initNamespace n) := by
  obtain ⟨hinv, hds, hnsze⟩ := init_nsInv hcfg
  constructor
  case bits =>
    rw [hnsze, hinv.bits, bitmapNew]
    omega
  case size =>
    rw [hnsze, hds, Nat.shiftLeft_eq]
    exact Nat.div_mul_le_self _ _

end covers

/-- **Formats**: commands whose blocks are large enough keep a bit for each block; a command
keeps this exactly when its blocks are, and one that is refused changes nothing. -/
theorem format_covers {n : FormatCfg} {ns : NvmeNamespace} {cmds : List NvmeCmd}
    (hcfg : CheckConstraints n)
    (hrun : Run (fun ns cmd ns' => LargeEnough n ns cmd ∧ formatStep n ns cmd = some ns')
      (initNamespace n) cmds ns) :
    Covers n ns ∧ ∀ cmd, (Covers n (adminFormat n ns cmd).2 ↔ LargeEnough n ns cmd) ∧
      ((adminFormat n ns cmd).1 ≠ nvmeSuccess → (adminFormat n ns cmd).2 = ns) := by
  have hinv : NsInv n ns ∧ Covers n ns := by
    refine hrun.invariant (I := fun ns => NsInv n ns ∧ Covers n ns) ?_
      ⟨(init_nsInv hcfg).1, init_covers hcfg⟩
    rintro ns cmd ns' ⟨hns, hcov⟩ ⟨hlarge, hstep⟩
    cases hstep
    exact ⟨hns.format, (hcov.format_iff hns).mpr hlarge⟩
  refine ⟨hinv.2, fun cmd => ⟨hinv.2.format_iff hinv.1, fun hst => ?_⟩⟩
  by_cases hacc : Accepts n ns cmd
  · rw [adminFormat_of_accepts hacc] at hst
    exact absurd rfl hst
  · exact (adminFormat_of_not_accepts hacc).2

/-- A device of 1 GiB in blocks of 4096 bytes, formatted to blocks of 8192 bytes and back. -/
theorem format_covers_small :
    ∃ ns, Run (fun ns cmd ns' => LargeEnough ⟨1024, 5, 3, 0, 0, 0, 0, 0, 2⟩ ns cmd ∧
        formatStep ⟨1024, 5, 3, 0, 0, 0, 0, 0, 2⟩ ns cmd = some ns')
      (initNamespace ⟨1024, 5, 3, 0, 0, 0, 0, 0, 2⟩)
      [{ nsid := 1, cdw10 := 4 }, { nsid := 2, cdw10 := 4 }, { nsid := 1, cdw10 := 3 }] ns ∧
      ns.nsze = 262144 ∧ Covers ⟨1024, 5, 3, 0, 0, 0, 0, 0, 2⟩ ns := by
  have hends : (exec (allowed (LargeEnough ⟨1024, 5, 3, 0, 0, 0, 0, 0, 2⟩)
      (formatStep ⟨1024, 5, 3, 0, 0, 0, 0, 0, 2⟩))
      [{ nsid := 1, cdw10 := 4 }, { nsid := 2, cdw10 := 4 }, { nsid := 1, cdw10 := 3 }]
      (initNamespace ⟨1024, 5, 3, 0, 0, 0, 0, 0, 2⟩)).map (·.nsze) = some 262144 := by
    decide +kernel
  obtain ⟨ns, hns, hnsze⟩ := Option.map_eq_some_iff.mp hends
  have hrun := run_of_exec_allowed hns
  exact ⟨ns, hrun, hnsze, (format_covers (by decide) hrun).1⟩

/-- The same device formatted to blocks of 512 bytes has more blocks than bits. -/
theorem format_uncovers :
    ∃ ns, Run (fun ns cmd ns' => formatStep ⟨1024, 5, 3, 0, 0, 0, 0, 0, 2⟩ ns cmd = some ns')
      (initNamespace ⟨1024, 5, 3, 0, 0, 0, 0, 0, 2⟩) [{ nsid := 1, cdw10 := 0 }] ns ∧
      ns.nsze = 2097152 ∧ ns.bits = 262144 ∧ ¬ Covers ⟨1024, 5, 3, 0, 0, 0, 0, 0, 2⟩ ns := by
  have hends : (exec (formatStep ⟨1024, 5, 3, 0, 0, 0, 0, 0, 2⟩) [{ nsid := 1, cdw10 := 0 }]
      (initNamespace ⟨1024, 5, 3, 0, 0, 0, 0, 0, 2⟩)).map (fun ns => (ns.nsze, ns.bits)) =
      some (2097152, 262144) := by decide +kernel
  obtain ⟨ns, hns, heq⟩ := Option.map_eq_some_iff.mp hends
  obtain ⟨hnsze, hbits⟩ := Prod.mk.inj heq
  refine ⟨ns, run_of_exec hns, hnsze, hbits, fun hcov => ?_⟩
  have hle := hcov.bits
  rw [hnsze, hbits] at hle
  exact absurd hle (by decide)

end Femu.Admin

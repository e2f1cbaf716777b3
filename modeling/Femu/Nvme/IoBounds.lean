import Femu.Nvme.Io

/-!
# Femu.Nvme.IoBounds

Which I/O commands stay inside the namespace. The handlers add the start and the
length of a range in 64-bit arithmetic and compare the sum with the size of the
namespace; the sum can wrap around. A handler stays inside the namespace exactly
when none of the ranges that it reaches wraps to a sum that the check accepts.
-/

namespace Femu.Nvme

open Lib Lib.Traced

/-! ## statement -/

/-- The access lies inside the namespace, in unbounded arithmetic. -/
def Access.Inside (ns : NvmeNamespace) : Access → Prop
  | .rangeOk slba nlb => slba + nlb ≤ ns.nsze.toNat
  | .backendRw off len => off + len ≤ ns.nsze.toNat * 2 ^ ns.curLbaf.lbads
  | .bitmapSet start nr => start + nr ≤ ns.nsze.toNat
  | .bitmapClear start nr => start + nr ≤ ns.nsze.toNat
  | .findNextBit size offset => offset < ns.nsze.toNat ∧ size ≤ ns.nsze.toNat

instance (ns : NvmeNamespace) : DecidablePred (Access.Inside ns)
  | .rangeOk _ _ => inferInstanceAs (Decidable (_ ≤ _))
  | .backendRw _ _ => inferInstanceAs (Decidable (_ ≤ _))
  | .bitmapSet _ _ => inferInstanceAs (Decidable (_ ≤ _))
  | .bitmapClear _ _ => inferInstanceAs (Decidable (_ ≤ _))
  | .findNextBit _ _ => inferInstanceAs (Decidable (_ ∧ _))

/-- The handlers that check the range of their command. -/
inductive RangeHandler
  | rw
  | dsm
  | compare (tmp : Nat → List UInt8)
  | writeZeros
  | writeUncor

/-- Run the handler. -/
def RangeHandler.run (n : NvmCtrl) (ns : NvmeNamespace) (cmd : NvmeCmd) : RangeHandler → IoM Status
  | rw => nvmeRw n ns cmd
  | dsm => nvmeDsm n ns cmd
  | compare tmp => nvmeCompare n ns tmp cmd
  | writeZeros => nvmeWriteZeros n ns cmd
  | writeUncor => nvmeWriteUncor n ns cmd

/-- The range of a command with a single range. -/
def NvmeCmd.range (cmd : NvmeCmd) : NvmeDsmRange where
  slba := cmd.slba
  nlb := cmd.nlb + 1
  slba_lt := cmd.slba_lt
  nlb_lt := by have := cmd.nlb_lt; omega

/-- The ranges of a dataset management command, as the host wrote them. -/
def dsmRanges (n : NvmCtrl) (cmd : NvmeCmd) (m : Mem) : List NvmeDsmRange :=
  let nr := dsmNr cmd
  match dmaWritePrp n.toDmaCtrl m (16 * nr) cmd.prp1.toNat cmd.prp2.toNat with
  | none => []
  | some (status, buf) =>
    if status ≠ nvmeSuccess then [] else (List.range nr).map (dsmRange buf)

/-- The ranges that a handler checks, in order. -/
def RangeHandler.ranges (n : NvmCtrl) (cmd : NvmeCmd) (m : Mem) :
    RangeHandler → List NvmeDsmRange
  | dsm => dsmRanges n cmd m
  | _ => [cmd.range]

/-- The sum of the range wraps around to a value that the check accepts. -/
def NvmeDsmRange.Wraps (r : NvmeDsmRange) (nsze : Nat) : Prop :=
  2 ^ 64 ≤ r.slba + r.nlb ∧ r.slba + r.nlb - 2 ^ 64 ≤ nsze

/-- No range that the handler reaches wraps: it goes on to the next range after
one that lies inside the namespace and starts below `2 ^ 63`, where the start of
a bitmap range is not negative. -/
def NoneWraps (nsze : Nat) : List NvmeDsmRange → Prop
  | [] => True
  | r :: rs => ¬ r.Wraps nsze ∧ (r.slba + r.nlb ≤ nsze → r.slba < 2 ^ 63 → NoneWraps nsze rs)

/-! ## the check -/

/-- The check, together with what it is meant to say, leaves out exactly the
ranges that wrap. -/
theorem NvmeDsmRange.check_iff (r : NvmeDsmRange) {nsze : Nat} (hsz : nsze < 2 ^ 64) :
    (¬ u64 (r.slba + r.nlb) > nsze → r.slba + r.nlb ≤ nsze) ↔ ¬ r.Wraps nsze := by
  have h₁ := r.slba_lt
  have h₂ := r.nlb_lt
  simp only [Wraps, u64]
  omega

theorem NvmeDsmRange.le_of_check {r : NvmeDsmRange} {nsze : Nat} (hsz : nsze < 2 ^ 64)
    (hw : ¬ r.Wraps nsze) (hc : ¬ u64 (r.slba + r.nlb) > nsze) : r.slba + r.nlb ≤ nsze :=
  (r.check_iff hsz).mpr hw hc

/-! ## the handlers -/

section Handlers

variable {n : NvmCtrl} {ns : NvmeNamespace} {cmd : NvmeCmd} {s : IoState}

@[simp] theorem within_setErrorPage {Q : Access → Prop} (cid : Nat) (status : Status)
    (location lba nsid : Nat) : Within Q (setErrorPage n cid status location lba nsid) s := by
  simp [setErrorPage]

/-- The error page can be skipped. -/
@[simp] theorem within_errorPage_bind {Q : Access → Prop} {α : Type} (cid : Nat) (status : Status)
    (location lba nsid : Nat) {f : Unit → IoM α} (hf : ∀ s, Within Q (f ()) s) :
    Within Q (setErrorPage n cid status location lba nsid >>= f) s :=
  within_bind_of (within_setErrorPage cid status location lba nsid) fun () s => hf s

@[simp] theorem within_findNextBit_bind {Q : Access → Prop} {α : Type} (size offset : Nat)
    (f : Nat → IoM α) :
    Within Q (findNextBit size offset >>= f) s ↔
      Q (.findNextBit size offset) ∧
        Within Q (f (nextBit s.uncorrectable size offset)) s := by
  have hrun : (findNextBit size offset s).2 =
      some (nextBit s.uncorrectable size offset, s) := rfl
  rw [within_bind, hrun]
  simp [findNextBit]

theorem within_nvmeWriteZeros :
    Within (Access.Inside ns) (nvmeWriteZeros n ns cmd) s ↔
      ¬ cmd.range.Wraps ns.nsze.toNat := by
  rw [← NvmeDsmRange.check_iff _ ns.nsze.toNat_lt]
  simp [nvmeWriteZeros, Access.Inside, NvmeCmd.range]

theorem within_nvmeWriteUncor :
    Within (Access.Inside ns) (nvmeWriteUncor n ns cmd) s ↔
      ¬ cmd.range.Wraps ns.nsze.toNat := by
  rw [← NvmeDsmRange.check_iff _ ns.nsze.toNat_lt]
  simp [nvmeWriteUncor, bitmapSet, Access.Inside, NvmeCmd.range]

theorem within_dsmLoop (rs : List NvmeDsmRange) :
    Within (Access.Inside ns) (dsmLoop n ns cmd rs) s ↔ NoneWraps ns.nsze.toNat rs := by
  induction rs generalizing s with
  | nil => simp [dsmLoop, NoneWraps]
  | cons r rs ih =>
      have hin : r.slba + r.nlb ≤ ns.nsze.toNat → u64 (r.slba + r.nlb) ≤ ns.nsze.toNat :=
        Nat.le_trans (u64_le _)
      rw [NoneWraps, ← r.check_iff ns.nsze.toNat_lt]
      simp [dsmLoop, bitmapClear, Access.Inside, ih]
      tauto

/-- The check itself: what it lets through, and the bits it looks at. -/
theorem within_femuNvmeRwCheckReq {ctrl dataSize metaSize : Nat} :
    Within (Access.Inside ns) (femuNvmeRwCheckReq n ns cmd cmd.slba
        (u64 (cmd.slba + (cmd.nlb + 1))) (cmd.nlb + 1) ctrl dataSize metaSize) s ↔
      ¬ cmd.range.Wraps ns.nsze.toNat := by
  rw [← NvmeDsmRange.check_iff _ ns.nsze.toNat_lt]
  simp only [femuNvmeRwCheckReq]
  simp [Access.Inside, NvmeCmd.range]
  omega

/-- A request that passes the check has an end that the check accepted. -/
theorem femuNvmeRwCheckReq_ok {slba elba nlb ctrl dataSize metaSize : Nat} {s' : IoState}
    (h : (femuNvmeRwCheckReq n ns cmd slba elba nlb ctrl dataSize metaSize s).2 =
      some (nvmeSuccess, s')) : elba ≤ ns.nsze.toNat := by
  by_contra hc
  simp only [femuNvmeRwCheckReq, if_pos (Nat.lt_of_not_le hc), result_bind, result_pure] at h
  obtain ⟨-, -, -, hst, -⟩ := h
  simp [nvmeLbaRange, nvmeDnr, nvmeSuccess] at hst

/-- The lists of the request after a mapping that succeeded cover its length. -/
theorem mapReq_total {prp1 prp2 len : Nat} {s' : IoState}
    (h : (mapReq n prp1 prp2 len s).2 = some (nvmeSuccess, s')) :
    s'.map.qsg.total = u32 len := by
  obtain ⟨⟨status, map⟩, hmap, heq⟩ := Option.map_eq_some_iff.mp h
  simp only [Prod.mk.injEq] at heq
  obtain ⟨rfl, rfl⟩ := heq
  exact (nvmeMapPrp_covers hmap).2.total_eq

/-- A range inside the namespace is handed to the backend as bytes inside the
namespace, whatever the sizes are reduced to on the way. -/
theorem inside_backendRw {slba nlb : Nat} (hin : slba + nlb ≤ ns.nsze.toNat) :
    Access.Inside ns (.backendRw (u64 (slba * 2 ^ ns.curLbaf.lbads))
      (u32 (u64 (nlb * 2 ^ ns.curLbaf.lbads)))) := by
  have h₁ := u64_le (slba * 2 ^ ns.curLbaf.lbads)
  have h₂ := Nat.le_trans (u32_le (u64 (nlb * 2 ^ ns.curLbaf.lbads))) (u64_le _)
  have h₃ := Nat.mul_le_mul_right (2 ^ ns.curLbaf.lbads) hin
  rw [Nat.add_mul] at h₃
  simp only [Access.Inside]
  omega

theorem within_nvmeRw :
    Within (Access.Inside ns) (nvmeRw n ns cmd) s ↔ ¬ cmd.range.Wraps ns.nsze.toNat := by
  simp only [nvmeRw, within_modify_bind]
  rw [within_bind, within_femuNvmeRwCheckReq]
  refine ⟨fun h => h.1, fun hw => ⟨hw, fun err s₁ hcheck => ?_⟩⟩
  by_cases herr : err = nvmeSuccess
  · subst herr
    have hin : cmd.slba + (cmd.nlb + 1) ≤ ns.nsze.toNat :=
      NvmeDsmRange.le_of_check ns.nsze.toNat_lt hw
        (Nat.not_lt.mpr (femuNvmeRwCheckReq_ok hcheck))
    simp only [ne_eq, not_true_eq_false, if_false]
    rw [within_bind]
    refine ⟨by simp [mapReq], fun status s₂ hmap => ?_⟩
    by_cases hst : status = nvmeSuccess
    · subst hst
      have hback := inside_backendRw hin
      rw [← mapReq_total hmap] at hback
      simp [backendReq, within_ofState_bind, hback]
    · simp [hst]
  · simp [herr]

theorem within_compareLoop {Q : Access → Prop} (tmp : Nat → List UInt8) (i : Nat)
    (es : List ScatterGatherEntry) : Within Q (compareLoop n tmp i es) s := by
  induction es generalizing i s with
  | nil => simp [compareLoop]
  | cons e es ih => simp [compareLoop, ih]

@[simp] theorem within_compareLoop_bind {Q : Access → Prop} (tmp : Nat → List UInt8) (i : Nat)
    (es : List ScatterGatherEntry) {f : Status → IoM Status} (hf : ∀ a s, Within Q (f a) s) :
    Within Q (compareLoop n tmp i es >>= f) s :=
  within_bind_of (within_compareLoop tmp i es) hf

theorem within_nvmeCompare (tmp : Nat → List UInt8) :
    Within (Access.Inside ns) (nvmeCompare n ns tmp cmd) s ↔
      ¬ cmd.range.Wraps ns.nsze.toNat := by
  rw [← NvmeDsmRange.check_iff _ ns.nsze.toNat_lt]
  simp only [nvmeCompare, mapReq]
  simp [Access.Inside, NvmeCmd.range, within_ofState_bind]
  constructor
  · exact fun h hc => (h hc).1
  · intro h hc
    have hin := h hc
    exact ⟨hin, fun _ _ _ _ _ => ⟨by omega, hc⟩⟩

theorem within_nvmeDsm :
    Within (Access.Inside ns) (nvmeDsm n ns cmd) s ↔
      NoneWraps ns.nsze.toNat (dsmRanges n cmd s.mem) := by
  unfold nvmeDsm dsmRanges
  by_cases hnr : dsmNr cmd = 0
  · simp only [hnr, if_true, within_pure, true_iff]
    split <;> simp [NoneWraps]
  · cases hdma : dmaWritePrp n.toDmaCtrl s.mem (16 * dsmNr cmd) cmd.prp1.toNat cmd.prp2.toNat with
    | none => simp [hnr, within_ofState_bind, hdma, NoneWraps]
    | some r =>
        by_cases hst : r.1 = nvmeSuccess <;>
          simp [hnr, within_ofState_bind, within_dsmLoop, hdma, hst, NoneWraps]

end Handlers

/-! ## the result -/

/-- **Bounds of the I/O commands**: everything that a handler lets through its
check, and every byte and bit range that it then hands on, lies inside the
namespace if and only if no range that it reaches wraps around to a sum that the
check accepts. -/
theorem accesses_inside_iff (n : NvmCtrl) (ns : NvmeNamespace) (cmd : NvmeCmd)
    (h : RangeHandler) (s : IoState) :
    Within (Access.Inside ns) (h.run n ns cmd) s ↔
      NoneWraps ns.nsze.toNat (h.ranges n cmd s.mem) := by
  cases h with
  | rw => simp [RangeHandler.run, RangeHandler.ranges, NoneWraps, within_nvmeRw]
  | dsm => exact within_nvmeDsm
  | compare tmp => simp [RangeHandler.run, RangeHandler.ranges, NoneWraps, within_nvmeCompare]
  | writeZeros => simp [RangeHandler.run, RangeHandler.ranges, NoneWraps, within_nvmeWriteZeros]
  | writeUncor => simp [RangeHandler.run, RangeHandler.ranges, NoneWraps, within_nvmeWriteUncor]

/-! ## a write that wraps -/

/-- A controller with pages of 4096 bytes and no transfer limit. -/
def plainCtrl : NvmCtrl where
  pageSize := 4096
  pageBits := 12
  maxPrpEnts := 512
  cmbsz := 0
  ctrlMemAddr := 0
  ctrlMemSize := 0
  femuMode := .nossd
  mdts := 0
  elpe := 3

/-- A namespace of eight blocks of 512 bytes. -/
def eightBlocks : NvmeNamespace where
  id := 1
  nsze := 8
  flbas := 0
  lbaf := fun _ => ⟨9, 0⟩
  dps := 0
  startBlock := 0

/-- The state before the first command. -/
def freshState : IoState where
  mem := ⟨fun _ => 0, fun _ => 0⟩
  mb := fun _ => 0
  util := fun _ => false
  uncorrectable := fun _ => false
  errs := ⟨fun _ => ⟨0, 0, 0, 0, 0, 0, 0⟩, 0, 0, 0⟩
  sqid := 1
  isWrite := false
  status := 0
  slba := 0
  nlb := 0
  map := ⟨pciDmaSglistInit, []⟩

/-- A write of one block at the last 64-bit address. -/
def lastBlockWrite : NvmeCmd :=
  { opcode := nvmeCmdWrite, prp1 := 4096, cdw10 := 0xffffffff, cdw11 := 0xffffffff }

/-- The write passes the check of a namespace of eight blocks, succeeds, and
copies the host's block to the last 512 bytes of the 64-bit offset range. -/
theorem last_block_write_accepted :
    ¬ Within (Access.Inside eightBlocks)
        (RangeHandler.rw.run plainCtrl eightBlocks lastBlockWrite) freshState ∧
      (RangeHandler.rw.run plainCtrl eightBlocks lastBlockWrite freshState).1 =
        [.rangeOk (2 ^ 64 - 1) 1, .backendRw (2 ^ 64 - 512) 512] ∧
      ((RangeHandler.rw.run plainCtrl eightBlocks lastBlockWrite freshState).2.map (·.1)) =
        some nvmeSuccess := by
  refine ⟨fun h => ?_, by decide +kernel, by decide +kernel⟩
  exact absurd (h (.rangeOk (2 ^ 64 - 1) 1) (by decide +kernel)) (by decide +kernel)

end Femu.Nvme

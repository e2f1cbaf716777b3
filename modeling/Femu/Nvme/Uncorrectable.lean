import Femu.Nvme.Bitmap
import Femu.Nvme.IoBounds

/-!
# Femu.Nvme.Uncorrectable

Blocks marked by Write Uncorrectable, over histories of I/O commands
(`nvme_io_cmd`). A command that sets bits of `ns->uncorrectable` is the only one
that changes them: no command clears a bit again. A read that reaches the scan of
the bitmap therefore fails exactly when one of its blocks was ever marked, also
if the block was written since.
-/

namespace Femu.Nvme

open Lib Lib.Traced

/-! ## nvme_io_cmd -/

/-- The bits `NVME_ONCS_*` of `oncs`. -/
def nvmeOncsCompare : Nat := 0
def nvmeOncsWriteUncorr : Nat := 1
def nvmeOncsDsm : Nat := 2
def nvmeOncsWriteZeros : Nat := 3

/-- The fields of `FemuCtrl` that `nvme_io_cmd` reads itself. -/
structure IoCtrl extends NvmCtrl where
  oncs : UInt16
  vwc : UInt8
  volatileWc : UInt32

/-- The command is one of the optional commands that the controller supports. -/
def IoCtrl.supports (c : IoCtrl) (bit : Nat) : Bool := c.oncs.toNat.testBit bit

/-- `nvme_flush`. -/
def nvmeFlush : IoM Status := return nvmeSuccess

/-- `ext_ops.io_cmd`: `nop_io_cmd` and `bb_io_cmd` do the same. -/
def extIoCmd (c : IoCtrl) (ns : NvmeNamespace) (cmd : NvmeCmd) : IoM Status :=
  if cmd.opcode = nvmeCmdRead ∨ cmd.opcode = nvmeCmdWrite then
    nvmeRw c.toNvmCtrl ns cmd
  else
    return nvmeInvalidOpcode ||| nvmeDnr

/-- The `case` of a command that the controller may not support. -/
def optionalCmd (c : IoCtrl) (bit : Nat) (m : IoM Status) : IoM Status :=
  if c.supports bit then m else return nvmeInvalidOpcode ||| nvmeDnr

/-- `nvme_io_cmd`: `tmp` is what the buffer of a compare holds. -/
def nvmeIoCmd (c : IoCtrl) (ns : NvmeNamespace) (tmp : Nat → List UInt8) (cmd : NvmeCmd) :
    IoM Status :=
  if cmd.nsid.toNat = 0 ∨ numNamespaces < cmd.nsid.toNat then
    return nvmeInvalidNsid ||| nvmeDnr
  else if cmd.opcode = nvmeCmdFlush then
    if c.vwc = 0 ∨ c.volatileWc = 0 then return nvmeSuccess else nvmeFlush
  else if cmd.opcode = nvmeCmdDsm then
    optionalCmd c nvmeOncsDsm (nvmeDsm c.toNvmCtrl ns cmd)
  else if cmd.opcode = nvmeCmdCompare then
    optionalCmd c nvmeOncsCompare (nvmeCompare c.toNvmCtrl ns tmp cmd)
  else if cmd.opcode = nvmeCmdWriteZeroes then
    optionalCmd c nvmeOncsWriteZeros (nvmeWriteZeros c.toNvmCtrl ns cmd)
  else if cmd.opcode = nvmeCmdWriteUncor then
    optionalCmd c nvmeOncsWriteUncorr (nvmeWriteUncor c.toNvmCtrl ns cmd)
  else
    extIoCmd c ns cmd

/-! ## histories -/

/-- An I/O command, with what the buffer of a compare holds when it runs. -/
structure IoReq where
  cmd : NvmeCmd
  tmp : Nat → List UInt8 := fun _ => []

/-- Run the commands in turn and collect their statuses. -/
def runCmds (c : IoCtrl) (ns : NvmeNamespace) : List IoReq → IoM (List Status)
  | [] => return []
  | r :: rs => do
    let status ← nvmeIoCmd c ns r.tmp r.cmd
    let statuses ← runCmds c ns rs
    return status :: statuses

/-- The block is one of the blocks of the command. -/
def NvmeCmd.Covers (cmd : NvmeCmd) (lba : Nat) : Prop :=
  cmd.slba ≤ lba ∧ lba < cmd.slba + (cmd.nlb + 1)

instance (cmd : NvmeCmd) (lba : Nat) : Decidable (cmd.Covers lba) :=
  inferInstanceAs (Decidable (_ ∧ _))

/-- The command ended successfully and has the opcode. -/
def Succeeded (opcode : UInt8) (e : IoReq × Status) : Prop :=
  e.1.cmd.opcode = opcode ∧ e.2 = nvmeSuccess

instance (opcode : UInt8) (e : IoReq × Status) : Decidable (Succeeded opcode e) :=
  inferInstanceAs (Decidable (_ ∧ _))

/-- A Write Uncorrectable of the history marked the block. -/
def Marked (hist : List (IoReq × Status)) (lba : Nat) : Prop :=
  ∃ e ∈ hist, Succeeded nvmeCmdWriteUncor e ∧ e.1.cmd.Covers lba

/-- The block is marked and was not written since: what a rewrite that clears the
mark would leave. -/
def markedSinceWrite (hist : List (IoReq × Status)) (lba : Nat) : Bool :=
  hist.foldl (fun marked e =>
    if Succeeded nvmeCmdWriteUncor e ∧ e.1.cmd.Covers lba then true
    else if Succeeded nvmeCmdWrite e ∧ e.1.cmd.Covers lba then false
    else marked) false

/-- The checks of `femu_nvme_rw_check_req` before the scan of the bitmap. -/
structure PassesChecks (n : NvmCtrl) (ns : NvmeNamespace) (cmd : NvmeCmd)
    (dataSize metaSize : Nat) : Prop where
  range : cmd.slba + (cmd.nlb + 1) ≤ ns.nsze.toNat
  mdts : ¬ n.overMdts dataSize
  metaSize : metaSize = 0
  pract : ¬ (cmd.control.testBit nvmeRwPrinfoPract ∧ ns.dps.toNat % 8 = 0)

/-- The command names the namespace, lies in its range and gets as far as the scan
of the bitmap. -/
structure ReachesScan (n : NvmCtrl) (ns : NvmeNamespace) (cmd : NvmeCmd) : Prop where
  nsid : cmd.nsid.toNat = 1
  checks : PassesChecks n ns cmd (u64 ((cmd.nlb + 1) * 2 ^ ns.curLbaf.lbads))
    (u32 ((cmd.nlb + 1) * ns.curLbaf.ms.toNat))

/-! ## the bitmap follows the trace -/

/-- What an access does to `ns->uncorrectable`, bit by bit. -/
def markBits (map : Nat → Bool) : Access → Nat → Bool
  | .bitmapSet start nr => setBits map start nr true
  | _ => map

/-- What an access does to the words of `ns->uncorrectable`. -/
def markWords (map : Words) : Access → Words
  | .bitmapSet start nr => bitmapSetWords map start nr
  | _ => map

/-- The bits of the words after the accesses of a trace. -/
theorem bitsOf_foldl_markWords (l : List Access) (w : Words) :
    bitsOf (l.foldl markWords w) = l.foldl markBits (bitsOf w) := by
  induction l generalizing w with
  | nil => rfl
  | cons e l ih =>
      rw [List.foldl_cons, List.foldl_cons, ih]
      cases e with
      | bitmapSet start nr => rw [markWords, markBits, bitsOf_bitmapSetWords]
      | rangeOk | backendRw | bitmapClear | findNextBit => rfl

/-- The access sets no bits of `ns->uncorrectable`. -/
def Access.NoMark : Access → Prop
  | .bitmapSet _ _ => False
  | _ => True

theorem markBits_of_noMark {e : Access} (he : e.NoMark) (map : Nat → Bool) :
    markBits map e = map := by
  cases e with
  | bitmapSet => exact he.elim
  | rangeOk | backendRw | bitmapClear | findNextBit => rfl

section Tracks

/- What the accesses that set bits do is left open: with a `f` that ignores them as
well, the lemmas say which handlers leave the bitmap as it was. -/
variable {f : (Nat → Bool) → Access → Nat → Bool}
  (hf : ∀ {e : Access}, e.NoMark → ∀ map, f map e = map)
  {n : NvmCtrl} {ns : NvmeNamespace} {cmd : NvmeCmd}

/-- The bitmap after a program is determined by its trace. -/
abbrev TracksMarks {α : Type} (f : (Nat → Bool) → Access → Nat → Bool) (m : IoM α) : Prop :=
  Tracks IoState.uncorrectable f m

theorem tracks_setErrorPage (cid : Nat) (status : Status) (location lba nsid : Nat) :
    TracksMarks f (setErrorPage n cid status location lba nsid) := by
  refine Tracks.ofState fun s a s' hr => ?_
  obtain ⟨errs, -, heq⟩ := Option.map_eq_some_iff.mp hr
  cases heq
  rfl

theorem tracks_bitmapSet (start nr : Nat) : TracksMarks markBits (bitmapSet start nr) := by
  intro s
  simp only [bitmapSet, ends_bind, ends_emit, ends_assert, ends_modify]
  exact fun _ => rfl

include hf in
theorem tracks_bitmapClear (start nr : Nat) : TracksMarks f (bitmapClear start nr) :=
  .bind (.emit (hf trivial)) fun _ => .bind (.assert _) fun _ => .modify fun _ => rfl

include hf in
theorem tracks_findNextBit (size offset : Nat) : TracksMarks f (findNextBit size offset) :=
  .bind (.emit (hf trivial)) fun _ => .bind .get fun _ => .pure _

theorem tracks_mapReq (prp1 prp2 len : Nat) : TracksMarks f (mapReq n prp1 prp2 len) := by
  refine Tracks.ofState fun s a s' hr => ?_
  obtain ⟨r, -, heq⟩ := Option.map_eq_some_iff.mp hr
  cases heq
  rfl

include hf in
theorem tracks_backendReq (off : Nat) : TracksMarks f (backendReq n off) := by
  refine .bind .get fun s => .bind (.emit (hf trivial)) fun _ => .ofState fun s a s' hr => ?_
  obtain ⟨r, -, heq⟩ := Option.map_eq_some_iff.mp hr
  cases heq
  rfl

/-- A command that fails with an error page. -/
theorem tracks_fail (cid : Nat) (status : Status) (location lba nsid : Nat) (st : Status) :
    TracksMarks f (do setErrorPage n cid status location lba nsid; return st) :=
  .bind (tracks_setErrorPage cid status location lba nsid) fun _ => .pure st

include hf in
theorem tracks_femuNvmeRwCheckReq (slba elba nlb ctrl dataSize metaSize : Nat) :
    TracksMarks f (femuNvmeRwCheckReq n ns cmd slba elba nlb ctrl dataSize metaSize) := by
  refine .ite (tracks_fail _ _ _ _ _ _) (.bind (.emit (hf trivial)) fun _ => ?_)
  refine .ite (tracks_fail _ _ _ _ _ _) (.ite (tracks_fail _ _ _ _ _ _) (.ite ?_ ?_))
  · exact .bind (tracks_setErrorPage _ _ _ _ _) fun _ => .ite (.pure _) (.pure _)
  · refine .bind .get fun s => .ite (.pure _) (.bind (tracks_findNextBit hf _ _) fun _ => ?_)
    exact .ite (tracks_fail _ _ _ _ _ _) (.pure _)

include hf in
theorem tracks_nvmeRw : TracksMarks f (nvmeRw n ns cmd) := by
  refine .bind (.modify fun _ => rfl) fun _ => ?_
  refine .bind (tracks_femuNvmeRwCheckReq hf _ _ _ _ _ _) fun err => .ite (.pure err) ?_
  refine .bind (tracks_mapReq _ _ _) fun st => .ite (tracks_fail _ _ _ _ _ _) ?_
  refine .bind .get fun s => .bind (.assert _) fun _ => .bind (.modify fun _ => rfl) fun _ => ?_
  exact .bind (tracks_backendReq hf _) fun _ => .pure _

include hf in
theorem tracks_dsmLoop (rs : List NvmeDsmRange) : TracksMarks f (dsmLoop n ns cmd rs) := by
  induction rs with
  | nil => exact .pure _
  | cons r rs ih =>
      refine .ite (tracks_fail _ _ _ _ _ _) (.bind (.emit (hf trivial)) fun _ => ?_)
      exact .bind (tracks_bitmapClear hf _ _) fun _ => ih

include hf in
theorem tracks_nvmeDsm : TracksMarks f (nvmeDsm n ns cmd) := by
  refine .ite (.pure _) (.bind (.ofState fun s a s' hr => ?_) fun r => ?_)
  · obtain ⟨r, -, heq⟩ := Option.map_eq_some_iff.mp hr
    cases heq
    rfl
  · refine .ite (tracks_fail _ _ _ _ _ _) (.bind (.modify fun _ => rfl) fun _ => ?_)
    exact tracks_dsmLoop hf _

theorem tracks_compareLoop (tmp : Nat → List UInt8) (i : Nat) (es : List ScatterGatherEntry) :
    TracksMarks f (compareLoop n tmp i es) := by
  induction es generalizing i with
  | nil => exact .pure _
  | cons e es ih => exact .bind .get fun s => .ite (.pure _) (ih (i + 1))

include hf in
theorem tracks_nvmeCompare (tmp : Nat → List UInt8) :
    TracksMarks f (nvmeCompare n ns tmp cmd) := by
  refine .ite (tracks_fail _ _ _ _ _ _) (.bind (.emit (hf trivial)) fun _ => ?_)
  refine .ite (tracks_fail _ _ _ _ _ _) (.bind (tracks_mapReq _ _ _) fun st => ?_)
  refine .ite (tracks_fail _ _ _ _ _ _) (.bind (tracks_findNextBit hf _ _) fun r => ?_)
  refine .ite (.pure _) (.bind .get fun s => .bind (tracks_compareLoop _ _ _) fun st => ?_)
  exact .bind (.modify fun _ => rfl) fun _ => .pure _

include hf in
theorem tracks_nvmeWriteZeros : TracksMarks f (nvmeWriteZeros n ns cmd) :=
  .ite (tracks_fail _ _ _ _ _ _) (.bind (.emit (hf trivial)) fun _ => .pure _)

theorem tracks_nvmeWriteUncor : TracksMarks markBits (nvmeWriteUncor n ns cmd) :=
  .ite (tracks_fail _ _ _ _ _ _)
    (.bind (.emit fun _ => rfl) fun _ => .bind (tracks_bitmapSet _ _) fun _ => .pure _)

end Tracks

section Histories

variable {c : IoCtrl} {ns : NvmeNamespace} {f : (Nat → Bool) → Access → Nat → Bool}

theorem tracks_optionalCmd {bit : Nat} {m : IoM Status} (hm : TracksMarks f m) :
    TracksMarks f (optionalCmd c bit m) :=
  .ite hm (.pure _)

/-- The dispatcher, but for Write Uncorrectable. -/
theorem tracks_dispatch (hf : ∀ {e : Access}, e.NoMark → ∀ map, f map e = map)
    (tmp : Nat → List UInt8) {cmd : NvmeCmd}
    (huncor : cmd.opcode = nvmeCmdWriteUncor → TracksMarks f (nvmeWriteUncor c.toNvmCtrl ns cmd)) :
    TracksMarks f (nvmeIoCmd c ns tmp cmd) := by
  refine .ite (.pure _) (.ite (.ite (.pure _) (.pure _)) ?_)
  refine .ite (tracks_optionalCmd (tracks_nvmeDsm hf)) ?_
  refine .ite (tracks_optionalCmd (tracks_nvmeCompare hf tmp)) ?_
  refine .ite (tracks_optionalCmd (tracks_nvmeWriteZeros hf)) ?_
  by_cases hop : cmd.opcode = nvmeCmdWriteUncor
  · rw [if_pos hop]
    exact tracks_optionalCmd (huncor hop)
  · rw [if_neg hop]
    exact .ite (tracks_nvmeRw hf) (.pure _)

theorem tracks_runCmds (rs : List IoReq) : TracksMarks markBits (runCmds c ns rs) := by
  induction rs with
  | nil => exact .pure _
  | cons r rs ih =>
      refine .bind (tracks_dispatch markBits_of_noMark r.tmp fun _ => tracks_nvmeWriteUncor) ?_
      exact fun _ => .bind ih fun _ => .pure _

/-- The words of the bitmap after a history hold the bits that its commands see,
and `find_next_bit` on these words finds the bit that they test. -/
theorem uncorrectable_words {rs : List IoReq} {s s' : IoState} {statuses : List Status} {w : Words}
    (hw : bitsOf w = s.uncorrectable) (hrun : (runCmds c ns rs s).2 = some (statuses, s'))
    (size offset : Nat) :
    findNextBitWords ((runCmds c ns rs s).1.foldl markWords w) size offset =
      nextBit s'.uncorrectable size offset := by
  rw [findNextBitWords_eq, bitsOf_foldl_markWords, hw, tracks_runCmds rs s statuses s' hrun]

/-- The dispatcher on a Write Uncorrectable. -/
theorem nvmeIoCmd_writeUncor (tmp : Nat → List UInt8) {cmd : NvmeCmd}
    (hop : cmd.opcode = nvmeCmdWriteUncor) :
    nvmeIoCmd c ns tmp cmd =
      if cmd.nsid.toNat = 0 ∨ numNamespaces < cmd.nsid.toNat then
        return nvmeInvalidNsid ||| nvmeDnr
      else
        optionalCmd c nvmeOncsWriteUncorr (nvmeWriteUncor c.toNvmCtrl ns cmd) := by
  simp [nvmeIoCmd, hop, nvmeCmdWriteUncor, nvmeCmdFlush, nvmeCmdDsm, nvmeCmdCompare,
    nvmeCmdWriteZeroes]

/-- The dispatcher on a Read. -/
theorem nvmeIoCmd_read (tmp : Nat → List UInt8) {cmd : NvmeCmd} (hop : cmd.opcode = nvmeCmdRead) :
    nvmeIoCmd c ns tmp cmd =
      if cmd.nsid.toNat = 0 ∨ numNamespaces < cmd.nsid.toNat then
        return nvmeInvalidNsid ||| nvmeDnr
      else
        nvmeRw c.toNvmCtrl ns cmd := by
  simp [nvmeIoCmd, extIoCmd, hop, nvmeCmdRead, nvmeCmdWriteUncor, nvmeCmdFlush, nvmeCmdDsm,
    nvmeCmdCompare, nvmeCmdWriteZeroes]

theorem ends_nvmeWriteUncor {n : NvmCtrl} (cmd : NvmeCmd) (s : IoState) :
    Ends (nvmeWriteUncor n ns cmd) s fun _ status s' =>
      s'.uncorrectable =
        if status = nvmeSuccess then setBits s.uncorrectable cmd.slba (cmd.nlb + 1) true
        else s.uncorrectable := by
  simp only [nvmeWriteUncor, bitmapSet, ends_ite, ends_bind, ends_emit, ends_assert, ends_modify,
    ends_pure]
  refine ⟨fun _ u s' hr => ?_, fun _ _ => rfl⟩
  rw [if_neg (by decide)]
  exact (tracks_setErrorPage _ _ _ _ _).eq_of_const s u s' hr

/-- What a command does to the bitmap. -/
theorem ends_nvmeIoCmd (tmp : Nat → List UInt8) (cmd : NvmeCmd) (s : IoState) :
    Ends (nvmeIoCmd c ns tmp cmd) s fun _ status s' =>
      s'.uncorrectable =
        if cmd.opcode = nvmeCmdWriteUncor ∧ status = nvmeSuccess then
          setBits s.uncorrectable cmd.slba (cmd.nlb + 1) true
        else
          s.uncorrectable := by
  by_cases hop : cmd.opcode = nvmeCmdWriteUncor
  · simp only [nvmeIoCmd_writeUncor tmp hop, optionalCmd, ends_ite, ends_pure, hop, true_and]
    have hsid : nvmeInvalidNsid ||| nvmeDnr ≠ nvmeSuccess := by decide
    have hopcode : nvmeInvalidOpcode ||| nvmeDnr ≠ nvmeSuccess := by decide
    exact ⟨fun _ => (if_neg hsid).symm, fun _ =>
      ⟨fun _ => ends_nvmeWriteUncor cmd s, fun _ => (if_neg hopcode).symm⟩⟩
  · have hkeep : TracksMarks (fun map _ => map) (nvmeIoCmd c ns tmp cmd) :=
      tracks_dispatch (fun _ _ => rfl) tmp fun h => absurd h hop
    refine (hkeep.eq_of_const s).imp fun _ status s' hs => ?_
    rw [hs, if_neg fun h => hop h.1]

theorem setBits_true_iff {map : Nat → Bool} {start nr i : Nat} :
    setBits map start nr true i = true ↔ map i = true ∨ (start ≤ i ∧ i < start + nr) := by
  unfold setBits
  split <;> simp [*]

theorem marked_cons {r : IoReq} {rs : List IoReq} {st : Status} {sts : List Status} {lba : Nat} :
    Marked ((r :: rs).zip (st :: sts)) lba ↔
      Succeeded nvmeCmdWriteUncor (r, st) ∧ r.cmd.Covers lba ∨ Marked (rs.zip sts) lba := by
  simp [Marked]

/-- After a history a bit is set when it was before, or when a command of the
history marked the block: no command clears a bit. -/
theorem ends_runCmds (rs : List IoReq) (s : IoState) :
    Ends (runCmds c ns rs) s fun _ sts s' => ∀ lba,
      s'.uncorrectable lba = true ↔ s.uncorrectable lba = true ∨ Marked (rs.zip sts) lba := by
  induction rs generalizing s with
  | nil => simp [runCmds, Marked]
  | cons r rs ih =>
      rw [runCmds, ends_bind]
      refine (ends_nvmeIoCmd r.tmp r.cmd s).imp fun _ st s₁ h₁ => ?_
      rw [ends_bind]
      refine (ih s₁).imp fun _ sts s₂ h₂ => ?_
      rw [ends_pure]
      intro lba
      rw [h₂ lba, h₁, marked_cons, ← or_assoc]
      refine or_congr_left ?_
      by_cases hmark : Succeeded nvmeCmdWriteUncor (r, st)
      · have hset : r.cmd.opcode = nvmeCmdWriteUncor ∧ st = nvmeSuccess := hmark
        rw [if_pos hset, setBits_true_iff]
        exact or_congr_right (by simp only [hmark, true_and]; rfl)
      · have hset : ¬ (r.cmd.opcode = nvmeCmdWriteUncor ∧ st = nvmeSuccess) := hmark
        simp [hset, hmark]

end Histories

/-! ## the read -/

section Read

variable {n : NvmCtrl} {c : IoCtrl} {ns : NvmeNamespace} {cmd : NvmeCmd}

/-- What a read sees of the bitmap: the scan finds a marked block of its range,
and only of its range, as long as the end of the range does not wrap around. -/
theorem nextBit_lt_iff {map : Nat → Bool} (hin : cmd.slba + (cmd.nlb + 1) < 2 ^ 64) :
    nextBit map (u64 (cmd.slba + (cmd.nlb + 1))) cmd.slba < u64 (cmd.slba + (cmd.nlb + 1)) ↔
      ∃ lba, cmd.Covers lba ∧ map lba = true := by
  rw [u64_eq hin, (isFirst_nextBit map _ _).lt_iff]
  simp only [NvmeCmd.Covers, and_assoc]

/-- The scan of a range whose end wraps around finds nothing. -/
theorem nextBit_of_wrap {map : Nat → Bool} (hwrap : 2 ^ 64 ≤ cmd.slba + (cmd.nlb + 1)) :
    ¬ nextBit map (u64 (cmd.slba + (cmd.nlb + 1))) cmd.slba < u64 (cmd.slba + (cmd.nlb + 1)) := by
  have hlt := cmd.slba_lt
  have hnlb := cmd.nlb_lt
  have hle : u64 (cmd.slba + (cmd.nlb + 1)) ≤ cmd.slba := by
    simp only [u64]
    omega
  rw [(isFirst_nextBit map _ _).lt_iff]
  rintro ⟨i, hge, hlt', -⟩
  omega

theorem ends_findNextBit (size offset : Nat) (s : IoState) {P : List Access → Nat → IoState → Prop} :
    Ends (findNextBit size offset) s P ↔
      P [.findNextBit size offset] (nextBit s.uncorrectable size offset) s := by
  simp [findNextBit]

/-- A failure with another status is no unrecovered read. -/
theorem ends_fail {st : Status} {Q : Prop} (cid : Nat) (status : Status) (location lba nsid : Nat)
    (s : IoState) (hst : st ≠ nvmeUnrecoveredRead) (hQ : ¬ Q) :
    Ends (setErrorPage n cid status location lba nsid) s fun _ _ _ =>
      (st = nvmeUnrecoveredRead ↔ Q) :=
  fun _ _ _ => iff_of_false hst hQ

theorem PassesChecks.lt {dataSize metaSize : Nat} (h : PassesChecks n ns cmd dataSize metaSize) :
    cmd.slba + (cmd.nlb + 1) < 2 ^ 64 :=
  Nat.lt_of_le_of_lt h.range ns.nsze.toNat_lt

/-- The check of a read fails as unrecovered exactly when it gets to the scan and a
block of its range is marked. -/
theorem ends_femuNvmeRwCheckReq {dataSize metaSize : Nat} {s : IoState} (hread : s.isWrite = false) :
    Ends (femuNvmeRwCheckReq n ns cmd cmd.slba (u64 (cmd.slba + (cmd.nlb + 1))) (cmd.nlb + 1)
        cmd.control dataSize metaSize) s fun _ st _ =>
      (st = nvmeUnrecoveredRead ↔ PassesChecks n ns cmd dataSize metaSize ∧
        ∃ lba, cmd.Covers lba ∧ s.uncorrectable lba = true) := by
  simp only [femuNvmeRwCheckReq, ends_ite, ends_bind, ends_emit, ends_get, ends_pure,
    ends_findNextBit, hread]
  refine ⟨fun hrange => ?_, fun hrange => ⟨fun hmdts => ?_, fun hmdts => ⟨fun hmeta => ?_,
    fun hmeta => ⟨fun hpract => ?_, fun hpract => ⟨?_, fun _ =>
      ⟨fun hscan => ?_, fun hscan => ?_⟩⟩⟩⟩⟩⟩
  · refine ends_fail _ _ _ _ _ s (by decide) fun h => ?_
    rw [u64_eq h.1.lt] at hrange
    exact absurd h.1.range (Nat.not_le_of_lt hrange)
  · exact ends_fail _ _ _ _ _ s (by decide) fun h => h.1.mdts hmdts
  · exact ends_fail _ _ _ _ _ s (by decide) fun h => hmeta h.1.metaSize
  · have hno : ¬ (PassesChecks n ns cmd dataSize metaSize ∧
        ∃ lba, cmd.Covers lba ∧ s.uncorrectable lba = true) := fun h => h.1.pract hpract
    exact fun _ _ _ => ⟨fun _ => iff_of_false (by decide) hno,
      fun _ => iff_of_false (by decide) hno⟩
  · intro h
    cases h
  · -- a range that the scan finds a bit in does not wrap around
    have hlt : cmd.slba + (cmd.nlb + 1) < 2 ^ 64 := by
      by_contra hge
      exact nextBit_of_wrap (Nat.le_of_not_lt hge) hscan
    rw [u64_eq hlt, Nat.not_lt] at hrange
    exact fun _ _ _ => iff_of_true trivial
      ⟨⟨hrange, hmdts, not_not.mp hmeta, hpract⟩, (nextBit_lt_iff hlt).mp hscan⟩
  · exact iff_of_false (by decide) fun h => hscan ((nextBit_lt_iff h.1.lt).mpr h.2)

/-- An error page can be written when there is an error log. -/
theorem setErrorPage_returns (helpe : n.elpe ≠ 0) (cid : Nat) (status : Status)
    (location lba nsid : Nat) (s : IoState) :
    ∃ s', (setErrorPage n cid status location lba nsid s).2 = some ((), s') := by
  simp [setErrorPage, ofState, nvmeSetErrorPage, helpe]

/-- A read that gets to the scan and has a marked block returns the error, as long
as there is an error log to write to. -/
theorem femuNvmeRwCheckReq_unrecovered {dataSize metaSize : Nat} {s : IoState}
    (hread : s.isWrite = false) (helpe : n.elpe ≠ 0) (hpass : PassesChecks n ns cmd dataSize metaSize)
    (hmark : ∃ lba, cmd.Covers lba ∧ s.uncorrectable lba = true) :
    ∃ s', (femuNvmeRwCheckReq n ns cmd cmd.slba (u64 (cmd.slba + (cmd.nlb + 1))) (cmd.nlb + 1)
      cmd.control dataSize metaSize s).2 = some (nvmeUnrecoveredRead, s') := by
  have hrange : ¬ u64 (cmd.slba + (cmd.nlb + 1)) > ns.nsze.toNat := by
    rw [u64_eq hpass.lt]
    exact Nat.not_lt_of_le hpass.range
  have hscan := (nextBit_lt_iff hpass.lt).mpr hmark
  obtain ⟨s', herr⟩ := setErrorPage_returns helpe cmd.cid.toNat nvmeUnrecoveredRead offSlba
    (u64 (cmd.slba + (cmd.nlb + 1))) ns.id s
  refine ⟨s', ?_⟩
  simp only [femuNvmeRwCheckReq, if_neg hrange, if_neg hpass.mdts,
    if_neg (not_not.mpr hpass.metaSize), if_neg hpass.pract]
  refine result_bind.mpr ⟨(), s, rfl, ?_⟩
  rw [get_bind_apply, hread, if_neg Bool.false_ne_true]
  refine result_bind.mpr ⟨_, s, rfl, ?_⟩
  rw [if_pos hscan]
  exact result_bind.mpr ⟨(), s', herr, rfl⟩

/-- `is_write` of a read. -/
theorem isWrite_of_read (hop : cmd.opcode = nvmeCmdRead) : (cmd.opcode == nvmeCmdWrite) = false := by
  rw [hop]
  rfl

theorem ends_nvmeRw_read (hop : cmd.opcode = nvmeCmdRead) (s : IoState) :
    Ends (nvmeRw n ns cmd) s fun _ st _ =>
      (st = nvmeUnrecoveredRead ↔
        PassesChecks n ns cmd (u64 ((cmd.nlb + 1) * 2 ^ ns.curLbaf.lbads))
            (u32 ((cmd.nlb + 1) * ns.curLbaf.ms.toNat)) ∧
          ∃ lba, cmd.Covers lba ∧ s.uncorrectable lba = true) := by
  simp only [nvmeRw, ends_bind, ends_modify]
  refine (ends_femuNvmeRwCheckReq (isWrite_of_read hop)).imp fun _ err s₁ herr => ?_
  by_cases hok : err = nvmeSuccess
  · -- past the check, no status is that of an unrecovered read
    subst hok
    have hno := mt herr.mpr (show nvmeSuccess ≠ nvmeUnrecoveredRead by decide)
    rw [if_neg (not_not.mpr rfl), ends_bind]
    intro st s₂ _
    rw [ends_ite]
    refine ⟨fun _ => ?_, fun _ => ?_⟩
    · rw [ends_bind]
      exact fun _ _ _ => (ends_pure _).mpr (iff_of_false (by decide) hno)
    · simp only [ends_bind, ends_get, ends_assert, ends_modify, ends_pure]
      exact fun _ _ _ _ => iff_of_false (by decide) hno
  · rw [if_pos hok, ends_pure]
    exact herr

/-- A read returns the error exactly when it gets to the scan and a block of its
range is marked. -/
theorem ends_read (tmp : Nat → List UInt8) (hop : cmd.opcode = nvmeCmdRead) (s : IoState) :
    Ends (nvmeIoCmd c ns tmp cmd) s fun _ st _ =>
      (st = nvmeUnrecoveredRead ↔ ReachesScan c.toNvmCtrl ns cmd ∧
        ∃ lba, cmd.Covers lba ∧ s.uncorrectable lba = true) := by
  rw [nvmeIoCmd_read tmp hop, ends_ite, ends_pure]
  refine ⟨fun hnsid => iff_of_false (by decide) fun h => ?_, fun hnsid => ?_⟩
  · have hone := h.1.nsid
    rw [numNamespaces] at hnsid
    omega
  · have hone : cmd.nsid.toNat = 1 := by
      rw [numNamespaces] at hnsid
      omega
    refine (ends_nvmeRw_read hop s).imp fun _ st _ hst => hst.trans ?_
    exact and_congr_left fun _ => ⟨fun h => ⟨hone, h⟩, fun h => h.checks⟩

/-- Such a read does return it. -/
theorem read_unrecovered (tmp : Nat → List UInt8) (hop : cmd.opcode = nvmeCmdRead) (s : IoState)
    (helpe : c.elpe ≠ 0) (hreach : ReachesScan c.toNvmCtrl ns cmd)
    (hmark : ∃ lba, cmd.Covers lba ∧ s.uncorrectable lba = true) :
    ∃ s', (nvmeIoCmd c ns tmp cmd s).2 = some (nvmeUnrecoveredRead, s') := by
  have hnsid : ¬ (cmd.nsid.toNat = 0 ∨ numNamespaces < cmd.nsid.toNat) := by
    have hone := hreach.nsid
    rw [numNamespaces]
    omega
  obtain ⟨s', hcheck⟩ := femuNvmeRwCheckReq_unrecovered (n := c.toNvmCtrl)
    (s := { s with isWrite := cmd.opcode == nvmeCmdWrite }) (isWrite_of_read hop) helpe
    hreach.checks hmark
  refine ⟨s', ?_⟩
  rw [nvmeIoCmd_read tmp hop, if_neg hnsid]
  simp only [nvmeRw]
  rw [modify_bind_apply]
  refine result_bind.mpr ⟨_, _, hcheck, ?_⟩
  rw [if_pos (by decide)]
  exact result_pure.mpr ⟨rfl, rfl⟩

end Read

/-! ## the result -/

/-- A controller that supports Write Uncorrectable. -/
def uncorCtrl : IoCtrl where
  toNvmCtrl := plainCtrl
  oncs := 2
  vwc := 0
  volatileWc := 0

/-- Write Uncorrectable, Write and Read of block 3. -/
def uncorThree : IoReq := ⟨{ opcode := nvmeCmdWriteUncor, nsid := 1, cdw10 := 3 }, fun _ => []⟩
def writeThree : IoReq :=
  ⟨{ opcode := nvmeCmdWrite, nsid := 1, prp1 := 4096, cdw10 := 3 }, fun _ => []⟩
def readThree : IoReq :=
  ⟨{ opcode := nvmeCmdRead, nsid := 1, prp1 := 4096, cdw10 := 3 }, fun _ => []⟩

theorem readThree_reaches : ReachesScan uncorCtrl.toNvmCtrl eightBlocks readThree.cmd :=
  ⟨by decide, ⟨by decide, by decide, by decide, by decide⟩⟩

/-- **Uncorrectable blocks**: after any history of I/O commands, a read returns
`NVME_UNRECOVERED_READ` exactly when it gets to the scan of the bitmap and some
block of its range was marked by a Write Uncorrectable of the history, written
since or not. -/
theorem unrecovered_read_iff (c : IoCtrl) (ns : NvmeNamespace) (hist : List IoReq) (r : IoReq)
    {s₀ s : IoState} {statuses : List Status} (h0 : s₀.uncorrectable = fun _ => false)
    (hrun : (runCmds c ns hist s₀).2 = some (statuses, s)) (hread : r.cmd.opcode = nvmeCmdRead) :
    (∀ st s', (nvmeIoCmd c ns r.tmp r.cmd s).2 = some (st, s') →
      (st = nvmeUnrecoveredRead ↔ ReachesScan c.toNvmCtrl ns r.cmd ∧
        ∃ lba, r.cmd.Covers lba ∧ Marked (hist.zip statuses) lba)) ∧
    (c.elpe ≠ 0 → ReachesScan c.toNvmCtrl ns r.cmd →
      (∃ lba, r.cmd.Covers lba ∧ Marked (hist.zip statuses) lba) →
        ∃ s', (nvmeIoCmd c ns r.tmp r.cmd s).2 = some (nvmeUnrecoveredRead, s')) := by
  have hbits : ∀ lba, s.uncorrectable lba = true ↔ Marked (hist.zip statuses) lba := by
    intro lba
    rw [ends_runCmds hist s₀ statuses s hrun lba, h0]
    simp
  simp only [← hbits]
  exact ⟨ends_read r.tmp hread s, read_unrecovered r.tmp hread s⟩

/-- The read of block 3 after it was marked and written: `find_next_bit` still finds the
block in the words of the bitmap. -/
theorem marked_block_unrecovered :
    ∃ s s', (runCmds uncorCtrl eightBlocks [uncorThree, writeThree] freshState).2 =
        some ([nvmeSuccess, nvmeSuccess], s) ∧
      findNextBitWords ((runCmds uncorCtrl eightBlocks [uncorThree, writeThree] freshState).1.foldl
        markWords fun _ => 0) 4 3 < 4 ∧
      (nvmeIoCmd uncorCtrl eightBlocks readThree.tmp readThree.cmd s).2 =
        some (nvmeUnrecoveredRead, s') := by
  have hends : (runCmds uncorCtrl eightBlocks [uncorThree, writeThree] freshState).2.map (·.1) =
      some [nvmeSuccess, nvmeSuccess] := by decide +kernel
  obtain ⟨⟨statuses, s⟩, hrun, rfl⟩ := Option.map_eq_some_iff.mp hends
  have hmarked : Marked ([uncorThree, writeThree].zip [nvmeSuccess, nvmeSuccess]) 3 :=
    ⟨(uncorThree, nvmeSuccess), by simp, by decide, by decide⟩
  have hset : s.uncorrectable 3 = true :=
    (ends_runCmds [uncorThree, writeThree] freshState _ s hrun 3).mpr (.inr hmarked)
  have hzero : bitsOf (fun _ => 0) = freshState.uncorrectable := by
    funext i
    simp [bitsOf, freshState]
  have hfound := uncorrectable_words hzero hrun 4 3
  obtain ⟨s', hread⟩ := (unrecovered_read_iff uncorCtrl eightBlocks [uncorThree, writeThree]
    readThree rfl hrun rfl).2 (by decide) readThree_reaches ⟨3, by decide, hmarked⟩
  refine ⟨s, s', hrun, ?_, hread⟩
  rw [hfound, (isFirst_nextBit s.uncorrectable 4 3).lt_iff]
  exact ⟨3, by decide, by decide, hset⟩

/-- A successful write of a marked block leaves it unreadable. -/
theorem written_block_unrecovered :
    ((runCmds uncorCtrl eightBlocks [uncorThree, writeThree, readThree] freshState).2.map (·.1)) =
        some [nvmeSuccess, nvmeSuccess, nvmeUnrecoveredRead] ∧
      ReachesScan uncorCtrl.toNvmCtrl eightBlocks readThree.cmd ∧
      ¬ ∃ lba, readThree.cmd.Covers lba ∧
        markedSinceWrite [(uncorThree, nvmeSuccess), (writeThree, nvmeSuccess)] lba = true := by
  refine ⟨by decide +kernel, readThree_reaches, ?_⟩
  rintro ⟨lba, h, hmarked⟩
  have hcovers : writeThree.cmd.Covers lba := h
  have hwrite : Succeeded nvmeCmdWrite (writeThree, nvmeSuccess) := by decide
  have huncor : ¬ Succeeded nvmeCmdWriteUncor (writeThree, nvmeSuccess) := by decide
  simp [markedSinceWrite, hcovers, hwrite, huncor] at hmarked

end Femu.Nvme

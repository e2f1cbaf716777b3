import Mathlib.Logic.Function.Basic
import Femu.Lib.Transition
import Femu.Nvme.Defs

/-!
# Femu.Nand.Timing

The NAND latencies of the open-channel SSD 1.2 (`nand/nand.h`, `nand/nand.c`) and the times of
the flash chips (`timing-model/timing.c`). The tables of `nand.h` are static objects, so each
translation unit that includes the header has tables of its own, zero at the start.

Times and latencies are the 64-bit words that the code adds and compares without a sign. The
latencies with a factor that is no integer are rounded as the compiler rounds them.
-/

namespace Femu.Nand

open Lib Nvme

/-! ## nand.h -/

inductive FlashType
  | slc
  | mlc
  | tlc
  | qlc
  | plc
deriving DecidableEq

/-- `MAX_FLASH_TYPE`, the length of the rows of the tables. -/
def maxFlashType : Nat := 6

/-- `NandFlashTiming`. -/
structure NandFlashTiming where
  pgRdLat : FlashType → Nat → UInt64
  pgWrLat : FlashType → Nat → UInt64
  blkErLat : FlashType → UInt64
  chnlPgXferLat : FlashType → UInt64

/-- The static objects of `nand.h`: the latencies and the kinds of the pages of a block. -/
structure NandStatics where
  timing : NandFlashTiming
  slcTbl : Nat → Nat
  mlcTbl : Nat → Nat
  tlcTbl : Nat → Nat
  qlcTbl : Nat → Nat

def NandStatics.zero : NandStatics where
  timing := ⟨fun _ _ => 0, fun _ _ => 0, fun _ => 0, fun _ => 0⟩
  slcTbl _ := 0
  mlcTbl _ := 0
  tlcTbl _ := 0
  qlcTbl _ := 0

/-- The translation units that use the tables. -/
inductive TransUnit
  | nand
  | timing
  | oc12
deriving DecidableEq

abbrev Statics : Type := TransUnit → NandStatics

/-- Static objects before the first statement of the program. -/
def Statics.zero : Statics := fun _ => .zero

/-- `get_page_type`, for a page of the tables. -/
def getPageType (t : NandStatics) : FlashType → Nat → Option Nat
  | .slc, pg => some (t.slcTbl pg)
  | .mlc, pg => some (t.mlcTbl pg)
  | .tlc, pg => some (t.tlcTbl pg)
  | .qlc, pg => some (t.qlcTbl pg)
  | .plc, _ => none

def getPageReadLatency (t : NandStatics) (flashType : FlashType) (pageType : Nat) :
    Option UInt64 :=
  if pageType < maxFlashType then some (t.timing.pgRdLat flashType pageType) else none

def getPageWriteLatency (t : NandStatics) (flashType : FlashType) (pageType : Nat) :
    Option UInt64 :=
  if pageType < maxFlashType then some (t.timing.pgWrLat flashType pageType) else none

def getBlkEraseLatency (t : NandStatics) (flashType : FlashType) : UInt64 :=
  t.timing.blkErLat flashType

/-! ## nand.c -/

def setPages (tbl : Nat → Nat) (pages : List Nat) (pageType : Nat) : Nat → Nat :=
  pages.foldl (fun tbl pg => Function.update tbl pg pageType) tbl

/-- The loops of the pairings: two pages each time, from page `first` on. -/
def pairPages (next : Nat → Nat) (first : Nat) : (count lpflag : Nat) → (Nat → Nat) → Nat → Nat
  | 0, _, tbl => tbl
  | count + 1, lpflag, tbl =>
      pairPages next (first + 2) count (next lpflag) (setPages tbl [first, first + 1] lpflag)

def initMlcPagePairing (t : NandStatics) : NandStatics :=
  let tbl := setPages t.mlcTbl [0, 1, 2, 3, 4, 5, 7, 8, 502, 503, 506, 507, 509, 510] 0
  let tbl := setPages tbl [6, 9, 504, 505, 508, 511] 1
  { t with mlcTbl := pairPages (fun lpflag => if lpflag = 0 then 1 else 0) 10 246 0 tbl }

def initTlcPagePairing (t : NandStatics) : NandStatics :=
  let tbl := setPages t.tlcTbl [0, 1, 2, 3, 4, 5] 0
  let tbl := setPages tbl [6, 7] 1
  { t with
    tlcTbl := pairPages (fun lpflag => if lpflag = 2 then 0 else lpflag + 1) 8 (84 * 3) 0 tbl }

/-- The loop writes to the table of the TLC flash. -/
def initQlcPagePairing (t : NandStatics) : NandStatics :=
  let tbl := setPages t.qlcTbl [0, 1, 2, 3, 4, 5, 8, 9] 0
  let tbl := setPages tbl [6, 7, 10, 11] 1
  let tbl := setPages tbl [12, 13] 2
  { t with
    qlcTbl := tbl
    tlcTbl := pairPages (fun lpflag => if lpflag = 3 then 0 else lpflag + 1) 8 (61 * 4) 0 t.tlcTbl }

/-- A row of a table, zero where nothing is written. -/
def row (lats : List UInt64) (pageType : Nat) : UInt64 := lats.getD pageType 0

def initNandFlashTiming (t : NandStatics) : NandStatics :=
  { t with
    timing := {
      pgRdLat := fun
        | .slc => row [40000]
        | .mlc => row [48000, 64000]
        | .tlc => row [56500, 77500, 106000]
        | .qlc => row [59325, 85250, 127200, 169600]
        | .plc => row []
      pgWrLat := fun
        | .slc => row [800000]
        | .mlc => row [850000, 2300000]
        | .tlc => row [820500, 2225000, 5734000]
        | .qlc => row [861525, 2447500, 6880800, 9174400]
        | .plc => row []
      blkErLat := fun
        | .slc => 2000000
        | .mlc => 3000000
        | .tlc => 3000000
        | .qlc => 3000000
        | .plc => 0
      chnlPgXferLat := fun
        | .slc => 20000
        | .mlc => 52433
        | .tlc => 52433
        | .qlc => 52433
        | .plc => 0 } }

/-- `init_nand_flash` writes to the tables of its own translation unit. -/
def initNandFlash (st : Statics) : Statics :=
  Function.update st .nand
    (initNandFlashTiming (initQlcPagePairing (initTlcPagePairing (initMlcPagePairing (st .nand)))))

/-! ## timing.c -/

def nvmeCmdOcErase : UInt8 := 0x90
def nvmeCmdOcWrite : UInt8 := 0x91
def nvmeCmdOcRead : UInt8 := 0x92

/-- `FEMU_MAX_NUM_CHIPS`. -/
def femuMaxNumChips : Nat := 128

/-- The latency of an operation by the tables of a translation unit. -/
def opLatency (t : NandStatics) (flashType : FlashType) (opcode : UInt8) (pageType : Nat) :
    Option UInt64 :=
  if opcode = nvmeCmdOcRead ∨ opcode = nvmeCmdRead then getPageReadLatency t flashType pageType
  else if opcode = nvmeCmdOcWrite ∨ opcode = nvmeCmdWrite then
    getPageWriteLatency t flashType pageType
  else if opcode = nvmeCmdOcErase then some (getBlkEraseLatency t flashType)
  -- `assert(0)`
  else none

/-- `advance_chip_timestamp` with the time from which on each chip is free. -/
def advanceChipTimestamp (st : Statics) (flashType : FlashType) (avail : Nat → UInt64)
    (lunid : Nat) (now : UInt64) (opcode : UInt8) (pageType : Nat) :
    Option (UInt64 × (Nat → UInt64)) :=
  if lunid < femuMaxNumChips then
    (opLatency (st .timing) flashType opcode pageType).map fun lat =>
      let ioDoneTs := if now < avail lunid then avail lunid + lat else now + lat
      (ioDoneTs, Function.update avail lunid ioDoneTs)
  else none

/-- The chip starts when it is free and takes the latency of the tables of `timing.c`. -/
theorem advanceChipTimestamp_eq_some {st : Statics} {flashType : FlashType}
    {avail avail' : Nat → UInt64} {lunid pageType : Nat} {now ts : UInt64} {opcode : UInt8} :
    advanceChipTimestamp st flashType avail lunid now opcode pageType = some (ts, avail') ↔
      lunid < femuMaxNumChips ∧ ∃ lat, opLatency (st .timing) flashType opcode pageType = some lat ∧
        ts = max now (avail lunid) + lat ∧ avail' = Function.update avail lunid ts := by
  have hmax : ∀ lat, (if now < avail lunid then avail lunid + lat else now + lat) =
      max now (avail lunid) + lat := by
    intro lat
    have hdef : max now (avail lunid) = if now ≤ avail lunid then avail lunid else now := rfl
    rw [hdef]
    split
    case isTrue hlt => rw [if_pos (UInt64.le_of_lt hlt)]
    case isFalse hge =>
      split
      case isTrue hle => rw [UInt64.le_antisymm hle (UInt64.not_lt.mp hge)]
      case isFalse => rfl
  unfold advanceChipTimestamp
  split
  case isTrue hlun =>
    simp only [Option.map_eq_some_iff, hmax, Prod.mk.injEq, hlun, true_and]
    refine exists_congr fun lat => and_congr_right fun _ => ?_
    exact ⟨fun ⟨hts, havail⟩ => ⟨hts.symm, by rw [← havail, hts]⟩,
      fun ⟨hts, havail⟩ => ⟨hts.symm, by rw [havail, hts]⟩⟩
  case isFalse hlun => simp [hlun]

/-! ## the chips -/

/-- A call of `advance_chip_timestamp`, with the time that the call before it for the same chip
has returned. -/
structure ChipCall where
  lunid : Nat
  now : UInt64
  opcode : UInt8
  pageType : Nat
  prev : UInt64
  ret : UInt64
deriving DecidableEq

/-- `calls` is what has happened. -/
structure Chips where
  statics : Statics
  flashType : FlashType
  avail : Nat → UInt64
  calls : List ChipCall

/-- `oc12_init`, with `oc12_init_misc` and `init_nand_flash`. -/
def Chips.init (flashType : FlashType) : Chips where
  statics := initNandFlash .zero
  flashType := flashType
  avail _ := 0
  calls := []

/-- The time that the last call for the chip has returned, 0 without one. -/
def Chips.lastDone (s : Chips) (lunid : Nat) : UInt64 :=
  ((s.calls.reverse.find? (·.lunid = lunid)).map (·.ret)).getD 0

structure ChipOp where
  lunid : Nat
  now : UInt64
  opcode : UInt8
  pageType : Nat

def chipStep (s : Chips) (op : ChipOp) : Option Chips :=
  (advanceChipTimestamp s.statics s.flashType s.avail op.lunid op.now op.opcode op.pageType).map
    fun (ts, avail) => { s with
      avail := avail
      calls := s.calls ++ [⟨op.lunid, op.now, op.opcode, op.pageType, s.lastDone op.lunid, ts⟩] }

/-- The call takes the latency that `init_nand_flash` has stored, and this is not 0. -/
def TakesStored (flashType : FlashType) (c : ChipCall) : Prop :=
  ∃ lat, opLatency (initNandFlash .zero .nand) flashType c.opcode c.pageType = some lat ∧ 0 < lat ∧
    c.ret = max c.now c.prev + lat

/-! ## the tables -/

/-- In `timing.c` all latencies are 0. -/
theorem opLatency_timing {flashType : FlashType} {opcode : UInt8} {pageType : Nat} {lat : UInt64}
    (hlat : opLatency (initNandFlash .zero .timing) flashType opcode pageType = some lat) :
    lat = 0 := by
  unfold opLatency getPageReadLatency getPageWriteLatency at hlat
  split_ifs at hlat <;> cases hlat <;> rfl

/-! ## runs -/

structure ChipsInv (flashType : FlashType) (s : Chips) : Prop where
  statics : s.statics = initNandFlash .zero
  flash : s.flashType = flashType
  avail : ∀ lunid, s.avail lunid = s.lastDone lunid
  calls : ∀ c ∈ s.calls, c.ret = max c.now c.prev

/-- **Step**: a call returns when the chip is free, with no latency. -/
theorem chipStep_inv {flashType : FlashType} {s t : Chips} {op : ChipOp} (h : ChipsInv flashType s)
    (hstep : chipStep s op = some t) : ChipsInv flashType t := by
  obtain ⟨⟨ts, avail⟩, hadvance, rfl⟩ := Option.map_eq_some_iff.mp hstep
  obtain ⟨-, lat, hlat, hts, rfl⟩ := advanceChipTimestamp_eq_some.mp hadvance
  rw [h.statics] at hlat
  have hzero := opLatency_timing hlat
  rw [hzero, UInt64.add_zero, h.avail] at hts
  constructor
  case statics => exact h.statics
  case flash => exact h.flash
  case avail =>
    intro lunid
    by_cases heq : lunid = op.lunid
    · simp [Chips.lastDone, heq]
    · have hne : op.lunid ≠ lunid := fun h => heq h.symm
      have hold := h.avail lunid
      simpa [Chips.lastDone, heq, hne] using hold
  case calls =>
    intro c hc
    rcases List.mem_append.mp hc with hold | hnew
    · exact h.calls c hold
    · rw [List.mem_singleton] at hnew
      rw [hnew]
      exact hts

/-- **Latencies**: no call takes the latency that is stored for it; each returns as soon as the
chip is free. -/
theorem chips_take_no_time {flashType : FlashType} {s : Chips} {ops : List ChipOp}
    (hrun : Run (fun s op t => chipStep s op = some t) (.init flashType) ops s) :
    ∀ c ∈ s.calls, ¬ TakesStored flashType c ∧ c.ret = max c.now c.prev := by
  have hinv : ChipsInv flashType s := by
    refine hrun.invariant (I := ChipsInv flashType) (fun s op t hs hstep => chipStep_inv hs hstep) ?_
    exact ⟨rfl, rfl, fun _ => rfl, fun c hc => nomatch hc⟩
  intro c hc
  have hret := hinv.calls c hc
  refine ⟨?_, hret⟩
  rintro ⟨lat, -, hpos, hlat⟩
  rw [hret] at hlat
  have hzero : 0 = lat := by
    rw [← UInt64.add_right_inj (c := max c.now c.prev), UInt64.add_zero]
    exact hlat
  exact UInt64.ne_of_lt hpos hzero

/-- A page of SLC flash is read, written and its block erased at once. -/
theorem chips_take_no_time_small :
    ∃ s, Run (fun s op t => chipStep s op = some t) (.init .slc)
      [⟨0, 100, 0x92, 0⟩, ⟨0, 50, 0x91, 0⟩, ⟨1, 70, 0x90, 0⟩] s ∧
      s.calls.map (·.ret) = [100, 100, 70] ∧
      ∀ c ∈ s.calls, ¬ TakesStored .slc c ∧ c.ret = max c.now c.prev := by
  have hends : (exec chipStep [⟨0, 100, 0x92, 0⟩, ⟨0, 50, 0x91, 0⟩, ⟨1, 70, 0x90, 0⟩]
      (.init .slc)).map (fun s => s.calls.map (·.ret)) = some [100, 100, 70] := by decide +kernel
  obtain ⟨s, hs, heq⟩ := Option.map_eq_some_iff.mp hends
  exact ⟨s, run_of_exec hs, heq, chips_take_no_time (run_of_exec hs)⟩

/-- A read of a page of SLC flash does not take the 40 microseconds stored for it. -/
theorem read_takes_no_time :
    ∃ s c, Run (fun s op t => chipStep s op = some t) (.init .slc) [⟨0, 100, 0x92, 0⟩] s ∧
      c ∈ s.calls ∧ c.ret = 100 ∧
      opLatency (initNandFlash .zero .nand) .slc 0x92 0 = some 40000 ∧ ¬ TakesStored .slc c := by
  have hends : (exec chipStep [⟨0, 100, 0x92, 0⟩] (.init .slc)).map (·.calls) =
      some [⟨0, 100, 0x92, 0, 0, 100⟩] := by decide +kernel
  obtain ⟨s, hs, heq⟩ := Option.map_eq_some_iff.mp hends
  have hlat : opLatency (initNandFlash .zero .nand) .slc 0x92 0 = some 40000 := rfl
  refine ⟨s, ⟨0, 100, 0x92, 0, 0, 100⟩, run_of_exec hs, ?_, rfl, hlat, ?_⟩
  · rw [heq]
    exact List.mem_singleton_self _
  · rintro ⟨lat, hstored, -, hret⟩
    cases hlat.symm.trans hstored
    exact absurd hret (by decide)

end Femu.Nand

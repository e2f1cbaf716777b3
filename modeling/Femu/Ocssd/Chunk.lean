import Femu.Lib.Log
import Femu.Ocssd.Oc20

/-!
# Femu.Ocssd.Chunk

The chunks of the open-channel SSD 2.0 (`ocssd/oc20.c`): their table at the start, the
reset of chunks, and runs of the device over the commands of its host.

`oc20_erase` leaves a trace: the indices of the chunks that it has reset. The values
of `rand` are a parameter, one for each address of the command.
-/

namespace Femu.Ocssd

open Lib Lib.Traced Nvme

/-! ## the table at the start -/

/-- The number of sectors of a chunk, after it has gone through an `int` into the
64-bit `cnlb`. -/
def chunkCnlb (geo : Oc20IdGeo) : Nat :=
  if geo.clba.toNat < 2 ^ 31 then geo.clba.toNat else geo.clba.toNat + (2 ^ 64 - 2 ^ 32)

/-- `oc20_init_chunk_info`, for a table of `chksTotal` chunks, fewer than `2^31` in a
parallel unit. The memory behind them is zero. -/
def oc20InitChunkInfo (lns : Oc20Namespace) (chksTotal : Nat) (i : Nat) : Oc20CS :=
  if i < chksTotal then
    let chunks := lns.geo.numChk.toNat
    let punits := lns.geo.numLun.toNat
    { state := oc20ChunkFree
      type := oc20ChunkTypeSeq
      wearIndex := 0
      slba := (i / (chunks * punits)) <<< lns.lbaf.grpOffset |||
        (i % (chunks * punits) / chunks) <<< lns.lbaf.lunOffset |||
        (i % chunks) <<< lns.lbaf.chkOffset
      cnlb := chunkCnlb lns.geo
      wp := 0 }
  else
    ⟨0, 0, 0, 0, 0, 0⟩

/-! ## chunk reset -/

def oc20OfflineChunk : Status := 0x02c0
def oc20InvalidReset : Status := 0x02c1

/-- `OC20_CHUNK_RESETABLE`. -/
def oc20ChunkResetable : UInt8 := oc20ChunkFree ||| oc20ChunkClosed ||| oc20ChunkOpen

/-- `Oc20ParamsMccap`. -/
def oc20ParamsMccapMultipleResets : Nat := 0x2
def oc20ParamsMccapEarlyReset : Nat := 0x4

/-- `params->mccap`, and `lns->resetfail`. -/
structure Oc20Resets where
  mccap : Nat
  resetfail : Option (Nat → Nat)

/-- `resetfail_prob` and the comparison with it: the reset of the chunk is made to
fail. -/
def Oc20Resets.fails (rc : Oc20Resets) (i rand : Nat) : Prop :=
  match rc.resetfail with
  | some prob => prob i ≠ 0 ∧ rand % 100 < prob i
  | none => False

instance (rc : Oc20Resets) (i rand : Nat) : Decidable (rc.fails i rand) := by
  unfold Oc20Resets.fails
  split <;> infer_instance

/-- The number in eight bytes, least significant first. -/
def leBytes8 (x : Nat) : List UInt8 := (List.range 8).map fun k => (x / 256 ^ k).toUInt8

/-- The bytes of an `Oc20CS`. -/
def Oc20CS.bytes (c : Oc20CS) : List UInt8 :=
  [c.state, c.type, c.wearIndex, 0, 0, 0, 0, 0] ++ leBytes8 c.slba ++ leBytes8 c.cnlb ++ leBytes8 c.wp

/-- A reset of chunks. -/
abbrev EraseM : Type → Type := Traced Oc20State Nat

/-- The chunk after its reset. -/
def Oc20CS.freed (c : Oc20CS) : Oc20CS :=
  { c with state := oc20ChunkFree, wearIndex := c.wearIndex + 1, wp := 0 }

/-- The end of `oc20_chunk_set_free`, for a chunk that may be reset. -/
def chunkReset (n : Oc20Ctrl) (i mptr : Nat) : EraseM Status := do
  emit i
  modify fun s =>
    let cnk := (s.chunkInfo i).freed
    { s with
      chunkInfo := Function.update s.chunkInfo i cnk
      mem := if mptr ≠ 0 then nvmeAddrWrite n.toDmaCtrl s.mem mptr cnk.bytes else s.mem }
  return nvmeSuccess

/-- `oc20_chunk_set_free`. -/
def oc20ChunkSetFree (n : Oc20Ctrl) (lns : Oc20Namespace) (rc : Oc20Resets)
    (lba mptr rand : Nat) : EraseM Status :=
  match oc20ChunkGetState lns lba with
  | none => return oc20InvalidReset ||| nvmeDnr
  | some i => do
    let cnk := (← get).chunkInfo i
    if rc.fails i rand then do
      modify fun s => { s with
        chunkInfo := Function.update s.chunkInfo i { cnk with state := oc20ChunkOffline, wp := 0xffff } }
      return oc20InvalidReset ||| nvmeDnr
    else if cnk.state &&& oc20ChunkResetable = 0 then
      return nvmeDnr ||| oc20OfflineChunk
    else if cnk.state = oc20ChunkFree ∧ rc.mccap &&& oc20ParamsMccapMultipleResets = 0 then
      return oc20InvalidReset ||| nvmeDnr
    else if cnk.state = oc20ChunkOpen ∧ rc.mccap &&& oc20ParamsMccapEarlyReset = 0 then
      return oc20InvalidReset ||| nvmeDnr
    else
      chunkReset n i mptr

/-- The loop of `oc20_erase`, from the `k`-th address on. -/
def eraseLoop (n : Oc20Ctrl) (lns : Oc20Namespace) (rc : Oc20Resets) (rand : Nat → Nat) :
    List Nat → Nat → Nat → EraseM Status
  | [], _, _ => return nvmeSuccess
  | lba :: rest, mptr, k =>
    match oc20ChunkGetState lns lba with
    | none => return oc20InvalidReset
    | some _ => do
      let err ← oc20ChunkSetFree n lns rc lba mptr (rand k)
      if err ≠ nvmeSuccess then
        return err
      else
        eraseLoop n lns rc rand rest (if mptr ≠ 0 then u64 (mptr + 32) else mptr) (k + 1)

/-- `oc20_erase`, with the metadata pointer of the command. -/
def oc20Erase (n : Oc20Ctrl) (lns : Oc20Namespace) (rc : Oc20Resets) (rand : Nat → Nat)
    (cmd : NvmeCmd) (mptr : UInt64) : EraseM Status := do
  let lbas := lbaList n.toDmaCtrl (← get).mem cmd true
  modify fun s => { s with lbas := lbas }
  eraseLoop n lns rc rand lbas mptr.toNat 0

/-! ## runs -/

/-- What has happened to the chunks: a sector was written, a chunk was reset. -/
inductive ChunkEvent
  | wrote (lba : Nat)
  | reset (chunk : Nat)
deriving DecidableEq

/-- What happens to the device: everything but the chunk table may be changed by the
host and by other commands, a read or write is executed, chunks are reset. -/
inductive Oc20Event
  | env (s : Oc20State)
  | rw (cmd : NvmeCmd) (vector : Bool)
  | erase (cmd : NvmeCmd) (mptr : UInt64) (rand : Nat → Nat)

/-- The device, and what has happened to its chunks: the addresses of the writes that
have succeeded, and the chunks that have been reset. -/
structure Oc20Run where
  dev : Oc20State
  log : List ChunkEvent

/-- The addresses that a command has written, by its status. -/
def writtenBy (n : Oc20Ctrl) (s : Oc20State) (cmd : NvmeCmd) (vector : Bool) (status : Status) :
    List ChunkEvent :=
  if status = nvmeSuccess ∧ oc20RwIsWrite cmd.opcode then
    (lbaList n.toDmaCtrl s.mem cmd vector).map .wrote
  else
    []

/-- One event. `none` is an abnormal end. -/
def Oc20Run.step (n : Oc20Ctrl) (lns : Oc20Namespace) (rc : Oc20Resets) (r : Oc20Run) :
    Oc20Event → Option Oc20Run
  | .env s => some ⟨{ s with chunkInfo := r.dev.chunkInfo }, r.log⟩
  | .rw cmd vector => (oc20Rw n lns cmd vector r.dev).2.map fun (status, s) =>
    ⟨s, r.log ++ writtenBy n r.dev cmd vector status⟩
  | .erase cmd mptr rand =>
    let (resets, result) := oc20Erase n lns rc rand cmd mptr r.dev
    result.map fun (_, s) => ⟨s, r.log ++ resets.map .reset⟩

end Femu.Ocssd

import Femu.Nvme.Dma

/-!
# Femu.Nvme.Dram

The memory backend (`backend/dram.c`): `backend_rw` copies between the segments
of a scatter-gather list and the logical space of the device.
-/

namespace Femu.Nvme

/-- The local variables of `backend_rw`, with the two memories it works on. -/
structure BackendRun where
  sgCurIndex : Nat
  sgCurByte : Nat
  mbOft : Nat
  host : Bytes
  mb : Bytes

/-- One round of the `while` loop: `dma_memory_rw` on what is left of the current
segment, then on to the next segment and the next backend offset. -/
def backendRwRound (mode : FemuMode) (q : QEMUSGList) (lbal : List Nat) (isWrite : Bool)
    (r : BackendRun) : Option BackendRun := do
  let e ← q.sg[r.sgCurIndex]?
  let curAddr := e.base + r.sgCurByte
  let curLen := e.len - r.sgCurByte
  let r :=
    if isWrite then { r with mb := copyBytes r.mb r.mbOft r.host curAddr curLen }
    else { r with host := copyBytes r.host curAddr r.mb r.mbOft curLen }
  let r := { r with sgCurByte := r.sgCurByte + curLen }
  let r :=
    if r.sgCurByte = e.len then { r with sgCurByte := 0, sgCurIndex := r.sgCurIndex + 1 } else r
  -- the value read past the last address is never used
  if mode = .ocssd then
    return { r with mbOft := lbal.getD r.sgCurIndex 0 }
  return { r with mbOft := r.mbOft + curLen }

/-- `while (sg_cur_index < qsg->nsg)`. A round finishes a segment, so the number
of segments is fuel enough. -/
def backendRwLoop (mode : FemuMode) (q : QEMUSGList) (lbal : List Nat) (isWrite : Bool) :
    Nat → BackendRun → Option BackendRun
  | 0, r => if r.sgCurIndex < q.nsg then none else some r
  | fuel + 1, r =>
    if r.sgCurIndex < q.nsg then
      (backendRwRound mode q lbal isWrite r).bind (backendRwLoop mode q lbal isWrite fuel)
    else
      some r

/-- `backend_rw`: the two memories after the transfer. -/
def backendRw (mode : FemuMode) (q : QEMUSGList) (lbal : List Nat) (isWrite : Bool)
    (host mb : Bytes) : Option (Bytes × Bytes) :=
  (backendRwLoop mode q lbal isWrite q.nsg ⟨0, 0, lbal.getD 0 0, host, mb⟩).map
    fun r => (r.host, r.mb)

end Femu.Nvme

import Femu.Lib.Store
import Femu.Nvme.Defs

/-!
# Femu.Nvme.Dma

Transfers between host memory and the device: the scatter-gather lists that
`nvme_map_prp` builds from a pair of PRP entries (`dma.c`), and the copies of
`dma_write_prp` and `dma_read_prp`.

* `none` is a run that does not come back: an `abort()`, a division by zero, or
  a value read from an array entry that was never written;
* the `qemu_iovec_*` functions stand for the controller memory buffer and are a
  parameter, `IovecApi`: in `wrapper-qemu.c` each of them is a stub that calls
  `abort()`, which is `IovecApi.stub`.
-/

namespace Femu.Nvme

/-! ## memory -/

/-- A byte-addressed memory. -/
abbrev Bytes : Type := Nat → UInt8

/-- The `len` bytes at `addr`. -/
def readBytes (m : Bytes) (addr len : Nat) : List UInt8 :=
  (List.range len).map fun i => m (addr + i)

/-- `memcpy(dst + dstOff, src + srcOff, len)`. -/
def copyBytes (dst : Bytes) (dstOff : Nat) (src : Bytes) (srcOff len : Nat) : Bytes := fun a =>
  if dstOff ≤ a ∧ a < dstOff + len then src (srcOff + (a - dstOff)) else dst a

/-- `memcpy` of a list of bytes to the offset. -/
def writeBytes (m : Bytes) (off : Nat) (bs : List UInt8) : Bytes := fun a =>
  if off ≤ a then (bs[a - off]?).getD (m a) else m a

/-- The number that the bytes encode, least significant byte first. -/
def leNat : List UInt8 → Nat
  | [] => 0
  | b :: bs => b.toNat + 256 * leNat bs

/-- The `k` bytes of a number, least significant byte first. -/
def leBytes (k x : Nat) : List UInt8 := (List.range k).map fun i => (x / 256 ^ i).toUInt8

@[simp] theorem length_leBytes (k x : Nat) : (leBytes k x).length = k := by simp [leBytes]

theorem getElem?_leBytes {k x i : Nat} (h : i < k) :
    (leBytes k x)[i]? = some (x / 256 ^ i).toUInt8 := by
  simp [leBytes, h]

theorem leBytes_succ (k x : Nat) : leBytes (k + 1) x = x.toUInt8 :: leBytes k (x / 256) := by
  simp [leBytes, List.range_succ_eq_map, Nat.pow_succ', Nat.div_div_eq_div_mul]

theorem leNat_lt (bs : List UInt8) : leNat bs < 256 ^ bs.length := by
  induction bs with
  | nil => simp [leNat]
  | cons b bs ih =>
      have hb := b.toNat_lt
      simp only [leNat, List.length_cons, Nat.pow_succ]
      omega

/-- The bytes of the number that the bytes encode. -/
theorem leBytes_leNat (bs : List UInt8) : leBytes bs.length (leNat bs) = bs := by
  induction bs with
  | nil => rfl
  | cons b bs ih =>
      have hb := b.toNat_lt
      have hlow : (leNat (b :: bs)).toUInt8 = b := by
        apply UInt8.toNat.inj
        simp only [leNat, Nat.toUInt8_eq, UInt8.toNat_ofNat']
        omega
      have hrest : leNat (b :: bs) / 256 = leNat bs := by
        simp only [leNat]
        omega
      rw [List.length_cons, leBytes_succ, hlow, hrest, ih]

/-- The number that the bytes of a number encode, if they are enough for it. -/
theorem leNat_leBytes {k x : Nat} (h : x < 256 ^ k) : leNat (leBytes k x) = x := by
  induction k generalizing x with
  | zero =>
      have hx : x = 0 := by simpa using h
      simp [hx, leBytes, leNat]
  | succ k ih =>
      have hrest : x / 256 < 256 ^ k := by
        rw [Nat.pow_succ] at h
        omega
      rw [leBytes_succ, leNat, ih hrest]
      simp only [Nat.toUInt8_eq, UInt8.toNat_ofNat']
      omega

/-- The memories that a transfer can reach: the host's, and the controller
memory buffer. -/
structure Mem where
  host : Bytes
  cmbuf : Bytes

/-- The fields of `FemuCtrl` that `dma.c` reads. -/
structure DmaCtrl where
  pageSize : Nat
  pageBits : Nat
  maxPrpEnts : Nat
  cmbsz : Nat
  ctrlMemAddr : Nat
  ctrlMemSize : Nat

/-- Whether an address lies in the controller memory buffer. -/
def DmaCtrl.inCmb (n : DmaCtrl) (addr : Nat) : Prop :=
  n.cmbsz ≠ 0 ∧ n.ctrlMemAddr ≤ addr ∧ addr < n.ctrlMemAddr + n.ctrlMemSize

instance (n : DmaCtrl) (addr : Nat) : Decidable (n.inCmb addr) :=
  inferInstanceAs (Decidable (_ ∧ _))

/-- `nvme_addr_read`. -/
def nvmeAddrRead (n : DmaCtrl) (m : Mem) (addr size : Nat) : List UInt8 :=
  if n.inCmb addr then readBytes m.cmbuf (addr - n.ctrlMemAddr) size
  else readBytes m.host addr size

/-- `nvme_addr_write`. -/
def nvmeAddrWrite (n : DmaCtrl) (m : Mem) (addr : Nat) (bs : List UInt8) : Mem :=
  if n.inCmb addr then { m with cmbuf := Lib.overwrite m.cmbuf (addr - n.ctrlMemAddr) bs }
  else { m with host := Lib.overwrite m.host addr bs }

/-! ## scatter-gather lists -/

/-- `ScatterGatherEntry`, also used for the entries of an I/O vector. -/
structure ScatterGatherEntry where
  base : Nat
  len : Nat
deriving DecidableEq

/-- `QEMUSGList`. The entries and their number are kept apart, as
`qemu_sglist_destroy` drops the former only. -/
structure QEMUSGList where
  sg : List ScatterGatherEntry
  nsg : Nat
  size : Nat
deriving DecidableEq

/-- `pci_dma_sglist_init`. -/
def pciDmaSglistInit : QEMUSGList := ⟨[], 0, 0⟩

/-- `qemu_sglist_add`. -/
def qemuSglistAdd (q : QEMUSGList) (base len : Nat) : QEMUSGList where
  sg := q.sg ++ [⟨base, len⟩]
  nsg := q.nsg + 1
  size := q.size + len

/-- `qemu_sglist_destroy`. -/
def qemuSglistDestroy (q : QEMUSGList) : QEMUSGList := { q with sg := [] }

/-- `qemu_iovec_add`, `none` being a call that ends the process. -/
structure IovecApi where
  add : List ScatterGatherEntry → Nat → Nat → Option (List ScatterGatherEntry)

/-- The functions of `wrapper-qemu.c`: every call is an `abort()`. -/
def IovecApi.stub : IovecApi := ⟨fun _ _ _ => none⟩

/-! ## nvme_map_prp -/

/-- Whether a PRP entry is refused: a null pointer, or not page aligned. -/
def DmaCtrl.badPrpEnt (n : DmaCtrl) (ent : Nat) : Prop :=
  ent = 0 ∨ ent &&& (n.pageSize - 1) ≠ 0

instance (n : DmaCtrl) (ent : Nat) : Decidable (n.badPrpEnt ent) :=
  inferInstanceAs (Decidable (_ ∨ _))

/-- The entries that are read from a list at `addr` when `len` bytes are left to
map: `prp_trans` bytes, eight for each entry. -/
def readPrpList (n : DmaCtrl) (m : Mem) (addr len : Nat) : List Nat :=
  let nents := u32 (len + n.pageSize - 1) >>> n.pageBits
  let cnt := min n.maxPrpEnts nents
  let bytes := nvmeAddrRead n m addr (cnt * 8)
  (List.range cnt).map fun i => leNat ((bytes.drop (8 * i)).take 8)

/-- What a mapping has built so far. -/
structure Mapping where
  qsg : QEMUSGList
  iov : List ScatterGatherEntry
deriving DecidableEq

/-- Add a segment: `qemu_sglist_add`, or `qemu_iovec_add` at its offset in the
controller memory buffer. -/
def Mapping.add (api : IovecApi) (n : DmaCtrl) (cmb : Bool) (t : Mapping) (ent len : Nat) :
    Option Mapping :=
  if cmb then
    (api.add t.iov (u64 (ent + 2 ^ 64 - n.ctrlMemAddr)) len).map fun iov => { t with iov := iov }
  else
    some { t with qsg := qemuSglistAdd t.qsg ent len }

/-- The entry `prp_list[i]` of a round, with the list and the index after
following the pointer to the next list. The inner `none` goes to `unmap`. -/
def nextPrpEnt (n : DmaCtrl) (m : Mem) (prpList : List Nat) (i len : Nat) :
    Option (Option (List Nat × Nat × Nat)) := do
  let prpEnt ← prpList[i]?
  if i = n.maxPrpEnts - 1 ∧ n.pageSize < len then
    if n.badPrpEnt prpEnt then
      return none
    let read := readPrpList n m prpEnt len
    let prpList := read ++ prpList.drop read.length
    let prpEnt ← prpList[0]?
    return some (prpList, 0, prpEnt)
  return some (prpList, i, prpEnt)

/-- `while (len != 0)` over the PRP list. The Boolean is `false` when the code
goes to `unmap`. A round maps a byte or more, so `len` is fuel enough. -/
def mapPrpLoop (api : IovecApi) (n : DmaCtrl) (m : Mem) (cmb : Bool) :
    Nat → List Nat → Nat → Nat → Mapping → Option (Bool × Mapping)
  | 0, _, _, len, t => if len = 0 then some (true, t) else none
  | fuel + 1, prpList, i, len, t =>
    if len = 0 then
      some (true, t)
    else
      match nextPrpEnt n m prpList i len with
      | none => none
      | some none => some (false, t)
      | some (some (prpList, i, prpEnt)) =>
        if n.badPrpEnt prpEnt then
          some (false, t)
        else
          let transLen := min len n.pageSize
          (t.add api n cmb prpEnt transLen).bind
            (mapPrpLoop api n m cmb fuel prpList (i + 1) (len - transLen))

/-- Map what is left after the first entry. -/
def mapPrpRest (api : IovecApi) (n : DmaCtrl) (m : Mem) (cmb : Bool) (prp2 transLen len : Nat)
    (t : Mapping) : Option (Bool × Mapping) :=
  if len = 0 then
    some (true, t)
  else if prp2 = 0 then
    some (false, t)
  else if n.pageSize < len then
    mapPrpLoop api n m cmb len (readPrpList n m prp2 len) 0 len t
  else if prp2 &&& (n.pageSize - 1) ≠ 0 then
    some (false, t)
  else
    -- the segment in the controller memory buffer takes the first entry's length
    (t.add api n cmb prp2 (if cmb then transLen else len)).map fun t => (true, t)

/-- `nvme_map_prp`, with the lists that the request holds before the call. -/
def nvmeMapPrp (api : IovecApi) (n : DmaCtrl) (m : Mem) (prp1 prp2 len : Nat) (t : Mapping) :
    Option (Status × Mapping) :=
  if n.pageSize = 0 then
    none
  else
    let len := u32 len
    let transLen := min len (n.pageSize - prp1 % n.pageSize)
    let cmb := decide (n.inCmb prp1)
    if prp1 = 0 then
      some (nvmeInvalidField ||| nvmeDnr, t)
    else
      let t := if cmb then ⟨{ t.qsg with nsg := 0 }, []⟩ else { t with qsg := pciDmaSglistInit }
      match (t.add api n cmb prp1 transLen).bind
          (mapPrpRest api n m cmb prp2 transLen (len - transLen)) with
      | none => none
      | some (true, t) => some (nvmeSuccess, t)
      | some (false, t) =>
        let t := if cmb then { t with iov := [] } else { t with qsg := qemuSglistDestroy t.qsg }
        some (nvmeInvalidField ||| nvmeDnr, t)

/-! ## what a successful mapping has built -/

/-- The number of bytes that the segments cover. -/
def QEMUSGList.total (q : QEMUSGList) : Nat := (q.sg.map (·.len)).sum

/-- The counters of a list agree with its segments, which cover `len` bytes. -/
structure QEMUSGList.Covers (q : QEMUSGList) (len : Nat) : Prop where
  nsg_eq : q.nsg = q.sg.length
  size_eq : q.size = q.total
  total_eq : q.total = len

theorem covers_init : pciDmaSglistInit.Covers 0 := ⟨rfl, rfl, rfl⟩

theorem QEMUSGList.Covers.add {q : QEMUSGList} {len : Nat} (h : q.Covers len) (ent k : Nat) :
    (qemuSglistAdd q ent k).Covers (len + k) where
  nsg_eq := by simp [qemuSglistAdd, h.nsg_eq]
  size_eq := by simp [qemuSglistAdd, h.size_eq, total]
  total_eq := by
    have htotal := h.total_eq
    simp only [total] at htotal
    simp [qemuSglistAdd, total, htotal]

/-- Outside the controller memory buffer a segment always goes to the list. -/
theorem Mapping.add_host (api : IovecApi) (n : DmaCtrl) (t : Mapping) (ent len : Nat) :
    t.add api n false ent len = some { t with qsg := qemuSglistAdd t.qsg ent len } := by
  simp [Mapping.add]

theorem mapPrpLoop_covers {api : IovecApi} {n : DmaCtrl} {m : Mem} {fuel : Nat}
    {prpList : List Nat} {i len k : Nat} {t t' : Mapping} (h : t.qsg.Covers k)
    (hr : mapPrpLoop api n m false fuel prpList i len t = some (true, t')) :
    t'.qsg.Covers (k + len) := by
  induction fuel generalizing prpList i len k t with
  | zero =>
      simp only [mapPrpLoop] at hr
      split at hr
      · rename_i hlen
        simp only [Option.some.injEq, Prod.mk.injEq, true_and] at hr
        rwa [← hr, hlen]
      · contradiction
  | succ fuel ih =>
      simp only [mapPrpLoop] at hr
      split at hr
      · rename_i hlen
        simp only [Option.some.injEq, Prod.mk.injEq, true_and] at hr
        rwa [← hr, hlen]
      · split at hr
        · contradiction
        · simp at hr
        · rename_i prpList' i' prpEnt _
          split at hr
          · simp at hr
          · rw [Mapping.add_host, Option.bind_some] at hr
            have := ih (h.add prpEnt (min len n.pageSize)) hr
            rwa [show k + min len n.pageSize + (len - min len n.pageSize) = k + len by omega]
              at this

theorem mapPrpRest_covers {api : IovecApi} {n : DmaCtrl} {m : Mem} {prp2 transLen len k : Nat}
    {t t' : Mapping} (h : t.qsg.Covers k)
    (hr : mapPrpRest api n m false prp2 transLen len t = some (true, t')) :
    t'.qsg.Covers (k + len) := by
  simp only [mapPrpRest] at hr
  split at hr
  · rename_i hlen
    simp only [Option.some.injEq, Prod.mk.injEq, true_and] at hr
    rwa [← hr, hlen]
  · split at hr
    · simp at hr
    · split at hr
      · exact mapPrpLoop_covers h hr
      · split at hr
        · simp at hr
        · simp only [Mapping.add_host, Option.map_some, Option.some.injEq, Prod.mk.injEq,
            true_and] at hr
          rw [← hr]
          simpa using h.add prp2 len

/-- A mapping that succeeds outside the controller memory buffer has built a list
of segments that covers the length. -/
theorem nvmeMapPrp_covers_host {api : IovecApi} {n : DmaCtrl} {m : Mem} {prp1 prp2 len : Nat}
    {t t' : Mapping} (hc : ¬ n.inCmb prp1)
    (hr : nvmeMapPrp api n m prp1 prp2 len t = some (nvmeSuccess, t')) :
    t'.qsg.Covers (u32 len) := by
  simp only [nvmeMapPrp] at hr
  split at hr
  · contradiction
  · split at hr
    · simp [nvmeSuccess, nvmeInvalidField, nvmeDnr] at hr
    · simp only [hc, decide_false, Bool.false_eq_true, if_false, Mapping.add_host,
        Option.bind_some] at hr
      split at hr
      · contradiction
      · rename_i t₁ hrest
        simp only [Option.some.injEq, Prod.mk.injEq, true_and] at hr
        have := mapPrpRest_covers (covers_init.add prp1 _) hrest
        rw [hr] at this
        rwa [show 0 + min (u32 len) (n.pageSize - prp1 % n.pageSize) +
          (u32 len - min (u32 len) (n.pageSize - prp1 % n.pageSize)) = u32 len by omega] at this
      · simp [nvmeSuccess, nvmeInvalidField, nvmeDnr] at hr

/-- When the functions of the controller memory buffer are stubs, a mapping that
succeeds is one of host memory. -/
theorem nvmeMapPrp_covers {n : DmaCtrl} {m : Mem} {prp1 prp2 len : Nat} {t t' : Mapping}
    (hr : nvmeMapPrp .stub n m prp1 prp2 len t = some (nvmeSuccess, t')) :
    ¬ n.inCmb prp1 ∧ t'.qsg.Covers (u32 len) := by
  have hc : ¬ n.inCmb prp1 := by
    intro hc
    simp only [nvmeMapPrp] at hr
    split at hr
    · contradiction
    · split at hr
      · simp [nvmeSuccess, nvmeInvalidField, nvmeDnr] at hr
      · simp [hc, Mapping.add, IovecApi.stub] at hr
  exact ⟨hc, nvmeMapPrp_covers_host hc hr⟩

/-! ## copies from and to host memory -/

/-- The bytes of host memory that a list describes, in order. -/
def QEMUSGList.read (q : QEMUSGList) (host : Bytes) : List UInt8 :=
  q.sg.flatMap fun e => readBytes host e.base e.len

/-- `dma_write_prp`: the status, and the bytes put into the buffer. The buffer of
a list in the controller memory is filled by `qemu_iovec_from_buf`, a stub. -/
def dmaWritePrp (n : DmaCtrl) (m : Mem) (len prp1 prp2 : Nat) : Option (Status × List UInt8) :=
  match nvmeMapPrp .stub n m prp1 prp2 len ⟨pciDmaSglistInit, []⟩ with
  | none => none
  | some (status, t) =>
    if status ≠ nvmeSuccess then
      some (nvmeInvalidField ||| nvmeDnr, [])
    else if 0 < t.qsg.nsg then
      some (nvmeSuccess, t.qsg.read m.host)
    else
      none

/-- `pci_dma_write` to the segments, from the buffer on. -/
def writeSegments : List ScatterGatherEntry → List UInt8 → Bytes → Bytes
  | [], _, host => host
  | e :: sg, bs, host => writeSegments sg (bs.drop e.len) (writeBytes host e.base (bs.take e.len))

/-- `dma_read_prp`: the status and the memory. -/
def dmaReadPrp (n : DmaCtrl) (m : Mem) (buf : List UInt8) (prp1 prp2 : Nat) :
    Option (Status × Mem) :=
  match nvmeMapPrp .stub n m prp1 prp2 buf.length ⟨pciDmaSglistInit, []⟩ with
  | none => none
  | some (status, t) =>
    if status ≠ nvmeSuccess then
      some (nvmeInvalidField ||| nvmeDnr, m)
    else if 0 < t.qsg.nsg then
      some (nvmeSuccess, { m with host := writeSegments t.qsg.sg buf m.host })
    else
      none

end Femu.Nvme

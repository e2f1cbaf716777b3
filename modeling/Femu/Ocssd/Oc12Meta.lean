import Mathlib.Data.Fintype.Prod
import Femu.Lib.Fields
import Femu.Ocssd.Oc20

/-!
# Femu.Ocssd.Oc12Meta

The out-of-band metadata of the open-channel SSD 1.2 (`ocssd/oc12.c`): the geometry that
`oc12_init_more` sets up, the address format, and the slots of `meta_buf` that `ppa2secidx`
selects. A slot holds four bytes of state and then the `sos` bytes of the host.

`ppa2secidx` weighs a field of the address with the number of its own units and not with the
units below it, so that addresses share a slot; and the assertions of the accessors refuse the
last slot of the buffer.
-/

namespace Femu.Ocssd

open Nvme Lib

/-! ## geometry -/

/-- `OcCtrlParams`, without what only the identification of the device reports. -/
structure OcCtrlParams where
  secsPerPg : UInt8
  pgsPerBlk : UInt16
  numCh : UInt8
  numLun : UInt8
  numPln : UInt8
  sos : UInt16

/-- `Oc12Params`, with its calculated values. -/
structure Oc12Params where
  secPerPg : Nat
  pgsPerBlk : Nat
  numCh : Nat
  numLun : Nat
  numPln : Nat
  sos : Nat
  totalSecs : Nat
  totalUnits : Nat

/-- `Oc12IdGroup`. -/
structure Oc12IdGroup where
  numCh : Nat
  numLun : Nat
  numPln : Nat
  numBlk : Nat
  numPg : Nat

/-- A field of the address: its offset, its length and its mask. -/
structure AddrField where
  offset : Nat
  len : Nat
  mask : Nat

/-- `Oc12AddrF`, with the lengths of `Oc12IdAddrFormat`. -/
structure Oc12AddrF where
  sec : AddrField
  pln : AddrField
  pg : AddrField
  blk : AddrField
  lun : AddrField
  ch : AddrField

/-- `Oc12Ctrl`. -/
structure Oc12Ctrl where
  params : Oc12Params
  group : Oc12IdGroup
  ppaf : Oc12AddrF
  metaTbytes : Int
  metaLen : Nat
  intMetaSize : Nat

/-- The bytes behind `meta_buf`. For a negative size `calloc` has returned NULL, and there is
none to access. -/
def Oc12Ctrl.metaSize (ln : Oc12Ctrl) : Nat := ln.metaTbytes.toNat

/-- `meta_tbytes` where it is compared with a `uint64_t`. -/
def Oc12Ctrl.metaLimit (ln : Oc12Ctrl) : Nat := (ln.metaTbytes % 2 ^ 64).toNat

/-- `FEMU_MAX_NUM_CHNLS`. -/
def femuMaxNumChnls : Nat := 32

/-- `qemu_fls`: the bits that the argument takes as a 32-bit word. -/
def qemuFls (i : Int) : Nat :=
  let x := (i % 2 ^ 32).toNat
  if x = 0 then 0 else x.log2 + 1

/-- `((1 << len) - 1) << offset`, an `int` that is stored in a `uint64_t`. Where a shift is
past the width, which C leaves open, the count is reduced as the processor reduces it. -/
def fieldMask (len offset : Nat) : Nat :=
  ((((1#32 <<< (len % 32)) - 1#32) <<< (offset % 32)).signExtend 64).toNat

/-- The field for `count` values after the field `below`. -/
def AddrField.above (below : AddrField) (count : Nat) : AddrField :=
  let offset := below.offset + below.len
  let len := qemuFls (count - 1)
  ⟨offset, len, fieldMask len offset⟩

/-- The address format of `oc12_init_id_ctrl`: channel, LUN, block, page, plane, sector. -/
def oc12InitPpaf (lps : Oc12Params) (c : Oc12IdGroup) : Oc12AddrF :=
  let sec := AddrField.above ⟨0, 0, 0⟩ lps.secPerPg
  let pln := sec.above lps.numPln
  let pg := pln.above lps.pgsPerBlk
  let blk := pg.above c.numBlk
  let lun := blk.above lps.numLun
  ⟨sec, pln, pg, blk, lun, lun.above lps.numCh⟩

/-- The blocks of a channel. -/
def chnlBlks (p : OcCtrlParams) (nsBlks : UInt64) : Nat :=
  nsBlks.toNat / (p.secsPerPg.toNat * p.pgsPerBlk.toNat * p.numCh.toNat)

/-- `oc12_init_more` and `oc12_init_meta`, as far as the metadata goes. It does not come back
from a division by zero or a failed assertion, and it gives up on a number of planes that it
does not support. The size of `meta_buf` is an `int`, and whether there is a buffer of that
size is not checked. -/
def oc12InitMore (p : OcCtrlParams) (nsBlks : UInt64) : Option Oc12Ctrl :=
  let secPerPg := p.secsPerPg.toNat
  let pgsPerBlk := p.pgsPerBlk.toNat
  let numCh := p.numCh.toNat
  let numLun := p.numLun.toNat
  let numPln := p.numPln.toNat
  if secPerPg * pgsPerBlk * numCh = 0 then none
  else if ¬ (numCh ≤ femuMaxNumChnls ∧ numLun ≤ femuMaxNumChips) then none
  else if numLun * numPln = 0 then none
  else if ¬ (numPln = 1 ∨ numPln = 2 ∨ numPln = 4) then none
  else
    let numBlk := chnlBlks p nsBlks / (numLun * numPln) % 2 ^ 16
    let secPerPl := secPerPg * numPln
    let secPerBlk := u32 (secPerPl * pgsPerBlk)
    let secPerLun := u32 (secPerBlk * numBlk)
    let secPerCh := u32 (secPerLun * numLun)
    let totalSecs := u32 (secPerCh * numCh)
    let pgUnits := u32 (secPerPg * numPln)
    let blkUnits := u32 (pgUnits * pgsPerBlk)
    let lunUnits := u32 (blkUnits * numBlk)
    let chUnits := u32 (lunUnits * numLun)
    let totalUnits := u32 (chUnits * numCh)
    let params : Oc12Params :=
      ⟨secPerPg, pgsPerBlk, numCh, numLun, numPln, p.sos.toNat, totalSecs, totalUnits⟩
    let group : Oc12IdGroup := ⟨numCh, numLun, numPln, numBlk, pgsPerBlk⟩
    let metaLen := 4 + p.sos.toNat
    some ⟨params, group, oc12InitPpaf params group, int32 (metaLen * totalSecs), metaLen, 4⟩

/-! ## ppa2secidx -/

/-- `PPA_CH` and its kin. -/
def AddrField.get (f : AddrField) (ppa : Nat) : Nat := (ppa &&& f.mask) >>> f.offset

def ppa2secidx (ln : Oc12Ctrl) (ppa : Nat) : Nat :=
  let c := ln.group
  let ch := ln.ppaf.ch.get ppa
  let lun := ln.ppaf.lun.get ppa
  let pln := ln.ppaf.pln.get ppa
  let blk := ln.ppaf.blk.get ppa
  let pg := ln.ppaf.pg.get ppa
  let sec := ln.ppaf.sec.get ppa
  let r := u64 (sec + ch * c.numCh + lun * c.numLun + pln * c.numPln + blk * c.numBlk + pg * c.numPg)
  if r > ln.params.totalUnits then 2 ^ 64 - 1 else r

/-! ## the accessors -/

/-- How an accessor ends the process, or worse. -/
inductive MetaFault
  | assertion
  | outside
deriving DecidableEq

/-- `memcpy` into `meta_buf`. -/
def putMeta (ln : Oc12Ctrl) (buf : Bytes) (oft : Nat) (bs : List UInt8) : Except MetaFault Bytes :=
  if oft + bs.length ≤ ln.metaSize then .ok (overwrite buf oft bs) else .error .outside

/-- `memcpy` out of `meta_buf`. -/
def getMeta (ln : Oc12Ctrl) (buf : Bytes) (oft len : Nat) : Except MetaFault (List UInt8) :=
  if oft + len ≤ ln.metaSize then .ok (slice buf oft len) else .error .outside

/-- The offset of the slot. -/
def slotOffset (ln : Oc12Ctrl) (ppa : Nat) : Nat := u64 (ppa2secidx ln ppa * ln.metaLen)

/-- The offset of the bytes of the host. -/
def oobOffset (ln : Oc12Ctrl) (ppa : Nat) : Nat :=
  u64 (ppa2secidx ln ppa * ln.metaLen + ln.intMetaSize)

/-- The bytes of `OC12_SEC_WRITTEN`. -/
def oc12SecWritten : List UInt8 := [0xac, 0, 0, 0]

def oc12MetaStateSetWritten (ln : Oc12Ctrl) (buf : Bytes) (ppa : Nat) : Except MetaFault Bytes :=
  let oft := slotOffset ln ppa
  if u64 (oft + ln.metaLen) < ln.metaLimit then
    putMeta ln buf oft (oc12SecWritten.take ln.intMetaSize)
  else .error .assertion

def oc12MetaStateGet (ln : Oc12Ctrl) (buf : Bytes) (ppa : Nat) : Except MetaFault (List UInt8) :=
  let oft := slotOffset ln ppa
  if u64 (oft + ln.metaLen) < ln.metaLimit then getMeta ln buf oft ln.intMetaSize
  else .error .assertion

def oc12WriteOobMeta (ln : Oc12Ctrl) (buf : Bytes) (ppa : Nat) (md : Bytes) :
    Except MetaFault Bytes :=
  let oft := oobOffset ln ppa
  if u64 (oft + ln.params.sos) < ln.metaLimit then putMeta ln buf oft (slice md 0 ln.params.sos)
  else .error .assertion

def oc12ReadOobMeta (ln : Oc12Ctrl) (buf : Bytes) (ppa : Nat) : Except MetaFault (List UInt8) :=
  let oft := oobOffset ln ppa
  if u64 (oft + ln.params.sos) < ln.metaLimit then getMeta ln buf oft ln.params.sos
  else .error .assertion

/-- `oc12_meta_index`. -/
def oc12MetaIndex (ln : Oc12Ctrl) (md : Bytes) (index : Nat) : Bytes :=
  fun a => md (index * ln.params.sos + a)

/-- The loop of `oc12_write` over the addresses, from the `i`-th on; `msl` holds the metadata
that the host passed. -/
def oc12WriteMeta (ln : Oc12Ctrl) (msl : Bytes) : Nat → List Nat → Bytes → Except MetaFault Bytes
  | _, [], buf => .ok buf
  | i, ppa :: psl, buf => do
    let buf ← oc12MetaStateSetWritten ln buf ppa
    let buf ← oc12WriteOobMeta ln buf ppa (oc12MetaIndex ln msl i)
    oc12WriteMeta ln msl (i + 1) psl buf

/-- What the loop of `oc12_read` does for an address. -/
def oc12ReadMeta (ln : Oc12Ctrl) (buf : Bytes) (ppa : Nat) : Except MetaFault (List UInt8) := do
  let _ ← oc12MetaStateGet ln buf ppa
  oc12ReadOobMeta ln buf ppa

/-! ## addresses -/

/-- The fields of a physical page address. -/
structure Oc12Ppa where
  ch : Nat
  lun : Nat
  blk : Nat
  pg : Nat
  pln : Nat
  sec : Nat
deriving DecidableEq

/-- Each field is below its count. -/
structure InGeometry (ln : Oc12Ctrl) (f : Oc12Ppa) : Prop where
  ch : f.ch < ln.group.numCh
  lun : f.lun < ln.group.numLun
  blk : f.blk < ln.group.numBlk
  pg : f.pg < ln.group.numPg
  pln : f.pln < ln.group.numPln
  sec : f.sec < ln.params.secPerPg

instance {ln : Oc12Ctrl} {f : Oc12Ppa} : Decidable (InGeometry ln f) :=
  decidable_of_iff (f.ch < ln.group.numCh ∧ f.lun < ln.group.numLun ∧ f.blk < ln.group.numBlk ∧
      f.pg < ln.group.numPg ∧ f.pln < ln.group.numPln ∧ f.sec < ln.params.secPerPg)
    ⟨fun ⟨hch, hlun, hblk, hpg, hpln, hsec⟩ => ⟨hch, hlun, hblk, hpg, hpln, hsec⟩,
      fun h => ⟨h.ch, h.lun, h.blk, h.pg, h.pln, h.sec⟩⟩

/-- The values of the fields of an address, from the lowest field up. -/
def layout (ln : Oc12Ctrl) (f : Oc12Ppa) : List (AddrField × Nat) :=
  [(ln.ppaf.sec, f.sec), (ln.ppaf.pln, f.pln), (ln.ppaf.pg, f.pg), (ln.ppaf.blk, f.blk),
    (ln.ppaf.lun, f.lun), (ln.ppaf.ch, f.ch)]

/-- The word with the values in their fields. -/
def packFields (l : List (AddrField × Nat)) : Nat := (l.map fun x => x.2 * 2 ^ x.1.offset).sum

/-- The address that the host makes of the fields by the format of the device. -/
def encodePpa (ln : Oc12Ctrl) (f : Oc12Ppa) : Nat := packFields (layout ln f)

/-! ## isolation -/

/-- A write: its addresses and the metadata passed with it. -/
structure Oc12Write where
  ppas : List Oc12Ppa
  msl : Bytes

/-- The metadata part of the writes, one after the other. -/
def runWrites (ln : Oc12Ctrl) : List Oc12Write → Bytes → Except MetaFault Bytes
  | [], buf => .ok buf
  | w :: ws, buf => do
    let buf ← oc12WriteMeta ln w.msl 0 (w.ppas.map (encodePpa ln)) buf
    runWrites ln ws buf

/-- The metadata passed to each address of a write. -/
def Oc12Write.entries (ln : Oc12Ctrl) (w : Oc12Write) : List (Oc12Ppa × List UInt8) :=
  w.ppas.zipIdx.map fun (f, i) => (f, slice (oc12MetaIndex ln w.msl i) 0 ln.params.sos)

/-- The metadata last written to the address; before the first write it is zero. -/
def lastWritten (ln : Oc12Ctrl) (ws : List Oc12Write) (f : Oc12Ppa) : List UInt8 :=
  ((ws.flatMap (·.entries ln)).reverse.find? fun e => e.1 = f).elim
    (List.replicate ln.params.sos 0) Prod.snd

/-- The metadata of the addresses of the geometry are kept apart. -/
structure Isolated (ln : Oc12Ctrl) : Prop where
  inside : ∀ f, InGeometry ln f → slotOffset ln (encodePpa ln f) + ln.metaLen ≤ ln.metaSize
  apart : ∀ f g, InGeometry ln f → InGeometry ln g → f ≠ g →
    Apart (slotOffset ln (encodePpa ln f)) ln.metaLen (slotOffset ln (encodePpa ln g)) ln.metaLen
  reads : ∀ ws : List Oc12Write, (∀ w ∈ ws, ∀ f ∈ w.ppas, InGeometry ln f) →
    ∃ buf, runWrites ln ws (fun _ => 0) = .ok buf ∧
      ∀ f, InGeometry ln f → oc12ReadMeta ln buf (encodePpa ln f) = .ok (lastWritten ln ws f)

/-! ## what oc12_init_more sets up -/

section Geometry

variable {p : OcCtrlParams} {nsBlks : UInt64} {ln : Oc12Ctrl}

/-- The blocks of a plane of a LUN. -/
def numBlk (p : OcCtrlParams) (nsBlks : UInt64) : Nat :=
  chnlBlks p nsBlks / (p.numLun.toNat * p.numPln.toNat) % 2 ^ 16

/-- What holds of a geometry that was set up: there is something of each kind but perhaps no
block, the counts are those of the address format, and the buffer has no more slots than there
are sectors. -/
structure Oc12Ctrl.Wf (ln : Oc12Ctrl) : Prop where
  ch : 0 < ln.group.numCh
  lun : 0 < ln.group.numLun
  pln : 0 < ln.group.numPln
  pg : 0 < ln.group.numPg
  sec : 0 < ln.params.secPerPg
  ppaf : ln.ppaf = oc12InitPpaf ln.params ln.group
  numCh_eq : ln.params.numCh = ln.group.numCh
  numLun_eq : ln.params.numLun = ln.group.numLun
  numPln_eq : ln.params.numPln = ln.group.numPln
  numPg_eq : ln.params.pgsPerBlk = ln.group.numPg
  small : ∀ count ∈ [ln.group.numCh, ln.group.numLun, ln.group.numBlk, ln.group.numPg,
    ln.group.numPln, ln.params.secPerPg], count < 2 ^ 16
  metaLen : ln.metaLen = 4 + ln.params.sos
  intMetaSize : ln.intMetaSize = 4
  tbytes_lt : ln.metaTbytes < 2 ^ 31
  metaSize_le : ln.metaSize ≤ ln.params.secPerPg * ln.group.numPln * ln.group.numPg *
    ln.group.numBlk * ln.group.numLun * ln.group.numCh * ln.metaLen

theorem oc12InitMore_wf (h : oc12InitMore p nsBlks = some ln) :
    ln.Wf ∧ ln.group.numBlk = numBlk p nsBlks := by
  unfold oc12InitMore at h
  dsimp only at h
  split at h
  case isTrue => cases h
  case isFalse hdiv =>
    split at h
    case isTrue => cases h
    case isFalse hassert =>
      split at h
      case isTrue => cases h
      case isFalse hdiv' =>
        split at h
        case isTrue => cases h
        case isFalse hpln =>
          cases h
          rw [Nat.mul_eq_zero, Nat.mul_eq_zero, not_or, not_or] at hdiv
          rw [Nat.mul_eq_zero, not_or] at hdiv'
          obtain ⟨⟨hsec, hpg⟩, hch⟩ := hdiv
          have hsmall : ∀ x : UInt8, x.toNat < 2 ^ 16 := fun x => x.toNat_lt.trans (by decide)
          refine ⟨⟨Nat.pos_of_ne_zero hch, Nat.pos_of_ne_zero hdiv'.1,
            Nat.pos_of_ne_zero hdiv'.2, Nat.pos_of_ne_zero hpg, Nat.pos_of_ne_zero hsec, rfl, rfl,
            rfl, rfl, rfl, ?_, rfl, rfl, int32_lt _, ?_⟩, rfl⟩
          · simpa [Nat.mod_lt] using ⟨hsmall p.numCh, hsmall p.numLun, p.pgsPerBlk.toNat_lt,
              hsmall p.numPln, hsmall p.secsPerPg⟩
          -- the reductions to 32 bits only make the numbers smaller
          have hblk := u32_le (p.secsPerPg.toNat * p.numPln.toNat * p.pgsPerBlk.toNat)
          have hlun := (u32_le _).trans (Nat.mul_le_mul_right (numBlk p nsBlks) hblk)
          have hch' := (u32_le _).trans (Nat.mul_le_mul_right p.numLun.toNat hlun)
          have htotal := (u32_le _).trans (Nat.mul_le_mul_right p.numCh.toNat hch')
          refine (Int.toNat_le.mpr (int32_le _)).trans ?_
          rw [Nat.mul_comm (4 + p.sos.toNat)]
          exact Nat.mul_le_mul_right _ htotal

end Geometry

/-! ## the address format -/

/-- The bits of a field, before they are shifted to their place. -/
theorem toNat_ones {len : Nat} (h : len < 32) : ((1#32 <<< len) - 1#32).toNat = 2 ^ len - 1 := by
  have hlen : 2 ^ len < 2 ^ 32 := Nat.pow_lt_pow_right (by omega) h
  have hone : 0 < 2 ^ len := Nat.two_pow_pos len
  rw [BitVec.toNat_sub, BitVec.toNat_shiftLeft, Nat.shiftLeft_eq]
  simp only [BitVec.toNat_ofNat]
  rw [Nat.mod_eq_of_lt (show 1 < 2 ^ 32 by omega), Nat.one_mul, Nat.mod_eq_of_lt hlen]
  omega

/-- The mask, where C determines it. -/
theorem fieldMask_eq {len offset : Nat} (h : offset + len ≤ 31) :
    fieldMask len offset = (2 ^ len - 1) * 2 ^ offset := by
  have hpow : 2 ^ len * 2 ^ offset ≤ 2 ^ 31 := by
    rw [← Nat.pow_add]
    exact Nat.pow_le_pow_right (by omega) (by omega)
  have hone : 0 < 2 ^ len := Nat.two_pow_pos len
  have hlt : (2 ^ len - 1) * 2 ^ offset < 2 ^ 31 := by
    have hmul := Nat.mul_lt_mul_of_pos_right (show 2 ^ len - 1 < 2 ^ len by omega)
      (Nat.two_pow_pos offset)
    omega
  have hword : (((1#32 <<< len) - 1#32) <<< offset).toNat = (2 ^ len - 1) * 2 ^ offset := by
    rw [BitVec.toNat_shiftLeft, toNat_ones (by omega), Nat.shiftLeft_eq,
      Nat.mod_eq_of_lt (by omega)]
  rw [fieldMask, Nat.mod_eq_of_lt (show len < 32 by omega), Nat.mod_eq_of_lt (show offset < 32 by omega),
    BitVec.signExtend_eq_setWidth_of_msb_false, BitVec.toNat_setWidth, hword]
  · exact Nat.mod_eq_of_lt (by omega)
  · rw [BitVec.msb_eq_decide, hword]
    exact decide_eq_false (by omega)

/-- The bits of a field are enough for its values. -/
theorem lt_two_pow_qemuFls {v count : Nat} (hv : v < count) (hcount : count ≤ 2 ^ 32) :
    v < 2 ^ qemuFls (count - 1) := by
  have hword : (((count : Int) - 1) % 2 ^ 32).toNat = count - 1 := by omega
  rw [qemuFls, hword]
  split
  case isTrue hzero =>
    rw [Nat.pow_zero]
    omega
  case isFalse hne =>
    have hlog := Nat.lt_log2_self (n := count - 1)
    omega

/-- The bits that a count needs. -/
theorem qemuFls_le {count k : Nat} (hpos : 0 < count) (hle : count ≤ 2 ^ k) (hk : k ≤ 32) :
    qemuFls (count - 1) ≤ k := by
  have hpow : 2 ^ k ≤ 2 ^ 32 := Nat.pow_le_pow_right (by omega) hk
  have hword : (((count : Int) - 1) % 2 ^ 32).toNat = count - 1 := by omega
  rw [qemuFls, hword]
  split
  case isTrue => exact Nat.zero_le k
  case isFalse hne => exact (Nat.log2_lt hne).mpr (by omega)

/-- The fields lie side by side from `offset` on, and the values fit into them. -/
def Layout : Nat → List (AddrField × Nat) → Prop
  | _, [] => True
  | offset, (f, v) :: l =>
      f.offset = offset ∧ f.mask = (2 ^ f.len - 1) * 2 ^ f.offset ∧ v < 2 ^ f.len ∧
        Layout (f.offset + f.len) l

/-- Nothing is packed below the first field. -/
theorem Layout.dvd_packFields {offset : Nat} {l : List (AddrField × Nat)} (h : Layout offset l) :
    2 ^ offset ∣ packFields l := by
  induction l generalizing offset with
  | nil => exact Nat.dvd_zero _
  | cons x l ih =>
      obtain ⟨f, v⟩ := x
      obtain ⟨rfl, -, -, hrest⟩ := h
      have hdvd : 2 ^ f.offset ∣ packFields l :=
        (Nat.pow_dvd_pow 2 (Nat.le_add_right _ _)).trans (ih hrest)
      exact Nat.dvd_add (Nat.dvd_mul_left _ _) hdvd

/-- A value is read back between what is below and what is above it. -/
theorem AddrField.get_eq {f : AddrField} {v lo hi : Nat}
    (hmask : f.mask = (2 ^ f.len - 1) * 2 ^ f.offset) (hlo : lo < 2 ^ f.offset)
    (hv : v < 2 ^ f.len) : f.get (lo + (v * 2 ^ f.offset + 2 ^ (f.offset + f.len) * hi)) = v := by
  have hsplit : lo + (v * 2 ^ f.offset + 2 ^ (f.offset + f.len) * hi) =
      lo + 2 ^ f.offset * (v + 2 ^ f.len * hi) := by
    rw [Nat.pow_add, Nat.mul_add, Nat.mul_comm v, Nat.mul_assoc]
  rw [AddrField.get, hmask, field_eq, hsplit, Nat.add_mul_div_left _ _ (Nat.two_pow_pos _), Nat.div_eq_of_lt hlo, Nat.zero_add,
    Nat.add_mul_mod_self_left, Nat.mod_eq_of_lt hv]

/-- A value on top of what lies below its field. -/
theorem add_mul_two_pow_lt {lo v offset len : Nat} (hlo : lo < 2 ^ offset) (hv : v < 2 ^ len) :
    lo + v * 2 ^ offset < 2 ^ (offset + len) := by
  rw [Nat.pow_add]
  calc
    lo + v * 2 ^ offset < 2 ^ offset + v * 2 ^ offset := Nat.add_lt_add_right hlo _
    _ = 2 ^ offset * (v + 1) := by rw [Nat.mul_add, Nat.mul_one, Nat.mul_comm v, Nat.add_comm]
    _ ≤ 2 ^ offset * 2 ^ len := Nat.mul_le_mul_left _ hv

/-- **Address format**: every field is read back from the packed word. -/
theorem Layout.get_packFields {offset lo : Nat} {l : List (AddrField × Nat)} {x : AddrField × Nat}
    (h : Layout offset l) (hlo : lo < 2 ^ offset) (hx : x ∈ l) :
    x.1.get (lo + packFields l) = x.2 := by
  induction l generalizing offset lo with
  | nil => cases hx
  | cons y l ih =>
      obtain ⟨f, v⟩ := y
      obtain ⟨rfl, hmask, hv, hrest⟩ := h
      have hpack : packFields ((f, v) :: l) = v * 2 ^ f.offset + packFields l := rfl
      rw [hpack]
      rcases List.mem_cons.mp hx with rfl | hx
      · obtain ⟨hi, heq⟩ := hrest.dvd_packFields
        rw [heq]
        exact AddrField.get_eq hmask hlo hv
      · rw [← Nat.add_assoc]
        exact ih hrest (add_mul_two_pow_lt hlo hv) hx

/-- A field of the format, before the fields above it. -/
theorem Layout.above {below : AddrField} {count v : Nat} {l : List (AddrField × Nat)}
    (hfit : (below.above count).offset + (below.above count).len ≤ 31) (hv : v < count)
    (hcount : count < 2 ^ 16)
    (hrest : Layout ((below.above count).offset + (below.above count).len) l) :
    Layout (below.offset + below.len) ((below.above count, v) :: l) :=
  ⟨rfl, fieldMask_eq hfit, lt_two_pow_qemuFls hv (by omega), hrest⟩

/-! ## the index -/

section Index

variable {ln : Oc12Ctrl} {f g : Oc12Ppa}

/-- The format takes no more than the bits of a positive `int`. -/
def FormatFits (ln : Oc12Ctrl) : Prop := ln.ppaf.ch.offset + ln.ppaf.ch.len ≤ 31

instance (ln : Oc12Ctrl) : Decidable (FormatFits ln) := inferInstanceAs (Decidable (_ ≤ _))

theorem layout_of_fits (hwf : ln.Wf) (hfit : FormatFits ln) (hf : InGeometry ln f) :
    Layout 0 (layout ln f) := by
  have hsmall := hwf.small
  simp only [List.mem_cons, List.not_mem_nil, or_false, forall_eq_or_imp, forall_eq] at hsmall
  obtain ⟨hch, hlun, hblk, hpg, hpln, hsec⟩ := hsmall
  rw [FormatFits, hwf.ppaf] at hfit
  rw [layout, hwf.ppaf]
  simp only [oc12InitPpaf, hwf.numCh_eq, hwf.numLun_eq, hwf.numPln_eq, hwf.numPg_eq] at hfit ⊢
  -- the offset of a field bounds the end of every field below it
  have hlun' := (Nat.le_add_right _ _).trans hfit
  have hblk' := (Nat.le_add_right _ _).trans hlun'
  have hpg' := (Nat.le_add_right _ _).trans hblk'
  have hpln' := (Nat.le_add_right _ _).trans hpg'
  have hsec' := (Nat.le_add_right _ _).trans hpln'
  exact Layout.above hsec' hf.sec hsec <| Layout.above hpln' hf.pln hpln <|
    Layout.above hpg' hf.pg hpg <| Layout.above hblk' hf.blk hblk <|
    Layout.above hlun' hf.lun hlun <| Layout.above hfit hf.ch hch trivial

/-- What `ppa2secidx` makes of the fields. -/
def secSum (ln : Oc12Ctrl) (f : Oc12Ppa) : Nat :=
  f.sec + f.ch * ln.group.numCh + f.lun * ln.group.numLun + f.pln * ln.group.numPln +
    f.blk * ln.group.numBlk + f.pg * ln.group.numPg

/-- **Index**: the fields of the address come back from the word, each weighed with the number
of its own units. -/
theorem ppa2secidx_encodePpa (hwf : ln.Wf) (hfit : FormatFits ln) (hf : InGeometry ln f) :
    ppa2secidx ln (encodePpa ln f) =
      if secSum ln f > ln.params.totalUnits then 2 ^ 64 - 1 else secSum ln f := by
  have hlayout := layout_of_fits hwf hfit hf
  have hget : ∀ x ∈ layout ln f, x.1.get (encodePpa ln f) = x.2 := by
    intro x hx
    have hread := hlayout.get_packFields (Nat.two_pow_pos 0) hx
    rwa [Nat.zero_add] at hread
  simp only [layout, List.mem_cons, List.not_mem_nil, or_false, forall_eq_or_imp, forall_eq] at hget
  obtain ⟨hsec, hpln, hpg, hblk, hlun, hch⟩ := hget
  have hsmall := hwf.small
  simp only [List.mem_cons, List.not_mem_nil, or_false, forall_eq_or_imp, forall_eq] at hsmall
  have hmul : ∀ {v count : Nat}, v < count → count < 2 ^ 16 → v * count ≤ 2 ^ 16 * 2 ^ 16 :=
    fun hv hcount => Nat.mul_le_mul (hv.trans hcount).le hcount.le
  have hlt : secSum ln f < 2 ^ 64 := by
    have h₁ := hmul hf.ch hsmall.1
    have h₂ := hmul hf.lun hsmall.2.1
    have h₃ := hmul hf.blk hsmall.2.2.1
    have h₄ := hmul hf.pg hsmall.2.2.2.1
    have h₅ := hmul hf.pln hsmall.2.2.2.2.1
    have h₆ := hf.sec.trans hsmall.2.2.2.2.2
    rw [secSum]
    omega
  rw [ppa2secidx]
  simp only [hsec, hpln, hpg, hblk, hlun, hch]
  rw [← secSum, u64_eq hlt]

/-- Addresses of one sum share their slot. -/
theorem slotOffset_eq_of_secSum (hwf : ln.Wf) (hfit : FormatFits ln) (hf : InGeometry ln f)
    (hg : InGeometry ln g) (hsum : secSum ln f = secSum ln g) :
    slotOffset ln (encodePpa ln f) = slotOffset ln (encodePpa ln g) := by
  rw [slotOffset, slotOffset, ppa2secidx_encodePpa hwf hfit hf, ppa2secidx_encodePpa hwf hfit hg,
    hsum]

/-- **Collision**: with fewer planes than sectors in a page, the first sector of the second
plane shares its slot with a sector of the first plane. -/
theorem planes_share_slot (hwf : ln.Wf) (hfit : FormatFits ln) (hpln : 1 < ln.group.numPln)
    (hsec : ln.group.numPln < ln.params.secPerPg) (hf : InGeometry ln f) (hzero : f.sec = 0)
    (hone : f.pln = 1) :
    InGeometry ln { f with pln := 0, sec := ln.group.numPln } ∧
      slotOffset ln (encodePpa ln f) =
        slotOffset ln (encodePpa ln { f with pln := 0, sec := ln.group.numPln }) := by
  have hg : InGeometry ln { f with pln := 0, sec := ln.group.numPln } :=
    { hf with pln := Nat.zero_lt_of_lt hpln, sec := hsec }
  refine ⟨hg, slotOffset_eq_of_secSum hwf hfit hf hg ?_⟩
  simp only [secSum, hzero, hone]
  omega

end Index

/-! ## no geometry isolates its metadata -/

section Isolation

variable {ln : Oc12Ctrl}

/-- The addresses of the geometry, counted. -/
abbrev PpaIndex (ln : Oc12Ctrl) : Type :=
  Fin ln.params.secPerPg × Fin ln.group.numPln × Fin ln.group.numPg × Fin ln.group.numBlk ×
    Fin ln.group.numLun × Fin ln.group.numCh

def PpaIndex.ppa (x : PpaIndex ln) : Oc12Ppa where
  sec := x.1
  pln := x.2.1
  pg := x.2.2.1
  blk := x.2.2.2.1
  lun := x.2.2.2.2.1
  ch := x.2.2.2.2.2

theorem PpaIndex.inGeometry (x : PpaIndex ln) : InGeometry ln x.ppa where
  sec := x.1.isLt
  pln := x.2.1.isLt
  pg := x.2.2.1.isLt
  blk := x.2.2.2.1.isLt
  lun := x.2.2.2.2.1.isLt
  ch := x.2.2.2.2.2.isLt

theorem PpaIndex.ppa_injective {x y : PpaIndex ln} (h : x.ppa = y.ppa) : x = y := by
  obtain ⟨sec, pln, pg, blk, lun, ch⟩ := x
  obtain ⟨sec', pln', pg', blk', lun', ch'⟩ := y
  simp only [PpaIndex.ppa, Oc12Ppa.mk.injEq] at h
  obtain ⟨hch, hlun, hblk, hpg, hpln, hsec⟩ := h
  rw [Fin.ext hch, Fin.ext hlun, Fin.ext hblk, Fin.ext hpg, Fin.ext hpln, Fin.ext hsec]

theorem card_ppaIndex : Fintype.card (PpaIndex ln) = ln.params.secPerPg * ln.group.numPln *
    ln.group.numPg * ln.group.numBlk * ln.group.numLun * ln.group.numCh := by
  simp only [Fintype.card_prod, Fintype.card_fin, Nat.mul_assoc]

/-- A buffer that is there is compared with by its size. -/
theorem metaLimit_eq (hwf : ln.Wf) (hpos : 0 < ln.metaSize) : ln.metaLimit = ln.metaSize := by
  have hlt := hwf.tbytes_lt
  rw [Oc12Ctrl.metaSize] at hpos
  rw [Oc12Ctrl.metaLimit, Oc12Ctrl.metaSize, Int.emod_eq_of_lt (by omega) (by omega)]

/-- The assertion of `oc12_meta_state_set_written` leaves a byte after the slot. -/
theorem slot_lt_of_write (hwf : ln.Wf) {f : Oc12Ppa} {buf : Bytes} (hlen : 0 < ln.metaLen)
    (hin : slotOffset ln (encodePpa ln f) + ln.metaLen ≤ ln.metaSize)
    (hwrite : runWrites ln [⟨[f], fun _ => 0⟩] (fun _ => 0) = .ok buf) :
    slotOffset ln (encodePpa ln f) + ln.metaLen < ln.metaSize := by
  have hlt := hwf.tbytes_lt
  have hlimit := metaLimit_eq hwf (show 0 < ln.metaSize by omega)
  have hsize : ln.metaSize < 2 ^ 31 := by
    rw [Oc12Ctrl.metaSize]
    omega
  by_contra hge
  have hassert : ¬ u64 (slotOffset ln (encodePpa ln f) + ln.metaLen) < ln.metaLimit := by
    rwa [hlimit, u64_eq (by omega)]
  simp only [runWrites, oc12WriteMeta, List.map_cons, oc12MetaStateSetWritten, if_neg hassert] at hwrite
  cases hwrite

/-- With an address at all there are as many slots to keep apart as fit into the buffer, and
the assertions refuse the last one. -/
theorem not_isolated (hwf : ln.Wf) (hblk : 0 < ln.group.numBlk) : ¬ Isolated ln := by
  intro h
  have hlen : 0 < ln.metaLen := by
    have hmeta := hwf.metaLen
    omega
  have hslot : ∀ x : PpaIndex ln,
      slotOffset ln (encodePpa ln x.ppa) + ln.metaLen ≤ ln.metaSize - 1 := by
    intro x
    have hin := h.inside x.ppa x.inGeometry
    obtain ⟨buf, hwrite, -⟩ := h.reads [⟨[x.ppa], fun _ => 0⟩] (by simp [x.inGeometry])
    have hlt := slot_lt_of_write hwf hlen hin hwrite
    omega
  have hcard := card_mul_le_of_apart hlen hslot fun x y hne =>
    h.apart x.ppa y.ppa x.inGeometry y.inGeometry fun heq => hne (PpaIndex.ppa_injective heq)
  rw [card_ppaIndex] at hcard
  have hle := hwf.metaSize_le
  have hpos : 0 < ln.params.secPerPg * ln.group.numPln * ln.group.numPg * ln.group.numBlk *
      ln.group.numLun * ln.group.numCh * ln.metaLen := by
    have h₁ := Nat.mul_pos hwf.sec hwf.pln
    have h₂ := Nat.mul_pos h₁ hwf.pg
    have h₃ := Nat.mul_pos h₂ hblk
    have h₄ := Nat.mul_pos h₃ hwf.lun
    exact Nat.mul_pos (Nat.mul_pos h₄ hwf.ch) hlen
  omega

/-- Without an address there is nothing to keep apart. -/
theorem isolated_of_no_block (hblk : ln.group.numBlk = 0) : Isolated ln := by
  have hnone : ∀ f, ¬ InGeometry ln f := by
    intro f hf
    have hlt := hf.blk
    omega
  refine ⟨fun f hf => absurd hf (hnone f), fun f _ hf => absurd hf (hnone f), fun ws hws => ?_⟩
  refine ⟨fun _ => 0, ?_, fun f hf => absurd hf (hnone f)⟩
  induction ws with
  | nil => rfl
  | cons w ws ih =>
      have hppas : w.ppas = [] :=
        List.eq_nil_iff_forall_not_mem.mpr fun f hf => hnone f (hws w List.mem_cons_self f hf)
      rw [runWrites, hppas]
      exact ih fun w' hw' => hws w' (List.mem_cons_of_mem w hw')

end Isolation

/-- **Isolation**: the metadata of the addresses of a geometry are kept apart exactly when
there is no address, for want of a block on each plane. -/
theorem isolated_iff {p : OcCtrlParams} {nsBlks : UInt64} {ln : Oc12Ctrl}
    (h : oc12InitMore p nsBlks = some ln) : Isolated ln ↔ numBlk p nsBlks = 0 := by
  obtain ⟨hwf, hblk⟩ := oc12InitMore_wf h
  rw [← hblk]
  constructor
  · intro hiso
    by_contra hne
    exact not_isolated hwf (Nat.pos_of_ne_zero hne) hiso
  · exact isolated_of_no_block

/-- The default geometry with one block on each plane. -/
theorem isolated_iff_defaults : ∃ ln, oc12InitMore ⟨4, 512, 2, 8, 2, 16⟩ 65536 = some ln ∧
    (Isolated ln ↔ numBlk ⟨4, 512, 2, 8, 2, 16⟩ 65536 = 0) :=
  ⟨_, rfl, isolated_iff rfl⟩

/-- A write of one page on both planes. The bytes passed with the `i`-th sector are `i + 1`. -/
def pageWrite : Oc12Write where
  ppas := [⟨0, 0, 0, 0, 0, 0⟩, ⟨0, 0, 0, 0, 0, 1⟩, ⟨0, 0, 0, 0, 0, 2⟩, ⟨0, 0, 0, 0, 0, 3⟩,
    ⟨0, 0, 0, 0, 1, 0⟩, ⟨0, 0, 0, 0, 1, 1⟩, ⟨0, 0, 0, 0, 1, 2⟩, ⟨0, 0, 0, 0, 1, 3⟩]
  msl := fun a => UInt8.ofNat (a / 16 + 1)

/-- With the default geometry the write to the second plane replaces what the host passed for
the third sector of the first plane, whose slot is the same. -/
theorem planes_not_isolated : ∃ ln, oc12InitMore ⟨4, 512, 2, 8, 2, 16⟩ 2097152 = some ln ∧
    slotOffset ln (encodePpa ln ⟨0, 0, 0, 0, 1, 0⟩) =
      slotOffset ln (encodePpa ln ⟨0, 0, 0, 0, 0, 2⟩) ∧
    (∃ buf, runWrites ln [pageWrite] (fun _ => 0) = .ok buf ∧
      oc12ReadMeta ln buf (encodePpa ln ⟨0, 0, 0, 0, 0, 2⟩) = .ok (List.replicate 16 5)) ∧
    lastWritten ln [pageWrite] ⟨0, 0, 0, 0, 0, 2⟩ = List.replicate 16 3 ∧ ¬ Isolated ln := by
  have hinit : oc12InitMore ⟨4, 512, 2, 8, 2, 16⟩ 2097152 = some _ := rfl
  refine ⟨_, hinit, ?_, ⟨_, rfl, by decide +kernel⟩, by decide +kernel, fun h => ?_⟩
  · exact (planes_share_slot (oc12InitMore_wf hinit).1 (by decide +kernel) (by decide) (by decide)
      (by decide +kernel) rfl rfl).2
  obtain ⟨buf, hrun, hread⟩ := h.reads [pageWrite] (by decide +kernel)
  cases hrun
  have hsame := hread ⟨0, 0, 0, 0, 0, 2⟩ (by decide +kernel)
  exact absurd hsame (by decide +kernel)

end Femu.Ocssd

import Mathlib.Data.List.Basic
import Femu.Nvme.Dma
import Femu.Ocssd.Decode
import Femu.Ocssd.Oc12Bounds

/-!
# Femu.Ocssd.Bbt

The bad-block tables of the open-channel SSD 1.2 (`oc12_init_bbtbl`, `oc12_bbt_get` and
`oc12_bbt_set` of `ocssd/oc12.c`). There is one table for each LUN, with an entry for each block
of each plane; but the entry that is set is selected by the block alone, so that the blocks of
the planes share it.
-/

namespace Femu.Ocssd

open Nvme Lib

/-! ## the tables -/

/-- `Oc12Bbt`, without the fields that stay as they are. -/
structure Oc12Bbt where
  tblks : Nat
  blk : List UInt8
deriving DecidableEq

/-- `sizeof(Oc12Bbt)`. -/
def oc12BbtSize : Nat := 64

/-- What comes before the entries: `tblid`, `verid`, six bytes that stay zero, `tblks`, and
again what stays zero. -/
def Oc12Bbt.header (bbt : Oc12Bbt) : List UInt8 :=
  [0x42, 0x42, 0x4c, 0x54] ++ leBytes 2 1 ++ List.replicate 6 0 ++ leBytes 4 bbt.tblks ++
    List.replicate 48 0

/-- A table in memory. -/
def Oc12Bbt.bytes (bbt : Oc12Bbt) : List UInt8 := bbt.header ++ bbt.blk

theorem length_header (bbt : Oc12Bbt) : bbt.header.length = oc12BbtSize := by
  simp [Oc12Bbt.header, oc12BbtSize]

/-- `blks_per_lun`. -/
def blksPerLun (c : Oc12IdGroup) : Nat := c.numBlk * c.numPln

/-- `oc12_init_bbtbl`. -/
def oc12InitBbtbl (c : Oc12IdGroup) : List Oc12Bbt :=
  List.replicate (c.numCh * c.numLun) ⟨blksPerLun c, List.replicate (blksPerLun c) 0⟩

/-- `lunid` of an address. -/
def lunid (ln : Oc12Ctrl) (ppa : Nat) : Int :=
  int32 (ln.ppaf.ch.get ppa) * ln.group.numLun + int32 (ln.ppaf.lun.get ppa)

/-- `blk` of an address. -/
def blkIdx (ln : Oc12Ctrl) (ppa : Nat) : Int := int32 (ln.ppaf.blk.get ppa)

/-- An element of an array, by an `int`. -/
def elemAt {α : Type} (xs : List α) (i : Int) : Option α := if 0 ≤ i then xs[i.toNat]? else none

/-- `ns->bbtbl[lunid]->blk[blk] = value`; `none` is an access outside an array. -/
def setBlk (value : UInt8) (lunid blk : Int) (bbtbl : List Oc12Bbt) : Option (List Oc12Bbt) := do
  let bbt ← elemAt bbtbl lunid
  let _ ← elemAt bbt.blk blk
  return bbtbl.set lunid.toNat { bbt with blk := bbt.blk.set blk.toNat value }

/-! ## the commands -/

/-- `Oc12BbtGet`. -/
structure Oc12BbtGet where
  nsid : UInt32
  prp1 : UInt64
  prp2 : UInt64
  spba : UInt64

/-- `Oc12BbtSet`. -/
structure Oc12BbtSet where
  nsid : UInt32
  prp2 : UInt64
  spba : UInt64
  nlb : UInt16
  value : UInt8

/-- The table that a command reports. -/
def bbtBytes (ln : Oc12Ctrl) (bbtbl : List Oc12Bbt) (ppa : Nat) : Option (List UInt8) :=
  (elemAt bbtbl (lunid ln ppa)).map Oc12Bbt.bytes

/-- `oc12_bbt_get`. -/
def oc12BbtGet (n : Oc12Dev) (m : Mem) (cmd : Oc12BbtGet) (bbtbl : List Oc12Bbt) :
    Option (Status × Mem) :=
  if cmd.nsid.toNat = 0 ∨ numNamespaces < cmd.nsid.toNat then
    some (nvmeInvalidNsid ||| nvmeDnr, m)
  else do
    let bytes ← bbtBytes n.ln bbtbl cmd.spba.toNat
    let (status, m) ← dmaReadPrp n.toDmaCtrl m bytes cmd.prp1.toNat cmd.prp2.toNat
    return (if status ≠ nvmeSuccess then nvmeInvalidField ||| nvmeDnr else nvmeSuccess, m)

/-- The addresses of a list in memory. -/
def ppaWords (nlb : Nat) (bytes : List UInt8) : List Nat :=
  (List.range nlb).map fun i => leNat ((bytes.drop (8 * i)).take 8)

/-- The addresses that `oc12_bbt_set` goes through. A list is copied to an array of
`max_sec_per_rq` addresses; `none` is a copy past its end, or a transfer that does not come
back. -/
def bbtSetPpas (n : Oc12Dev) (m : Mem) (cmd : Oc12BbtSet) : Option (Status × List Nat) :=
  let nlb := cmd.nlb.toNat + 1
  if cmd.nsid.toNat = 0 ∨ numNamespaces < cmd.nsid.toNat then
    some (nvmeInvalidNsid ||| nvmeDnr, [])
  else if nlb = 1 then
    if n.maxSecPerRq = 0 then none else some (nvmeSuccess, [cmd.spba.toNat])
  else do
    let (status, bytes) ← dmaWritePrp n.toDmaCtrl m (nlb * 8) cmd.spba.toNat cmd.prp2.toNat
    if status ≠ nvmeSuccess then
      return (nvmeInvalidField ||| nvmeDnr, [])
    else if n.maxSecPerRq.toNat < nlb then
      none
    else
      return (nvmeSuccess, ppaWords nlb bytes)

/-- The loop of `oc12_bbt_set`. -/
def setBlks (ln : Oc12Ctrl) (value : UInt8) : List Nat → List Oc12Bbt → Option (List Oc12Bbt)
  | [], bbtbl => some bbtbl
  | ppa :: ppas, bbtbl => do
    let bbtbl ← setBlk value (lunid ln ppa) (blkIdx ln ppa) bbtbl
    setBlks ln value ppas bbtbl

/-- `oc12_bbt_set`. -/
def oc12BbtSet (n : Oc12Dev) (m : Mem) (cmd : Oc12BbtSet) (bbtbl : List Oc12Bbt) :
    Option (Status × List Oc12Bbt) := do
  let (status, ppas) ← bbtSetPpas n m cmd
  let bbtbl ← setBlks n.ln cmd.value ppas bbtbl
  return (status, bbtbl)

/-! ## statement -/

/-- A block of a plane of a LUN. -/
structure PpaBlock where
  ch : Nat
  lun : Nat
  blk : Nat
  pln : Nat
deriving DecidableEq

def Oc12Ppa.block (f : Oc12Ppa) : PpaBlock := ⟨f.ch, f.lun, f.blk, f.pln⟩

/-- A command on addresses of the geometry, in the memory that it is carried out with. Its list
is refused or reaches the array. -/
structure GeometrySet (n : Oc12Dev) where
  mem : Mem
  cmd : Oc12BbtSet
  ppas : List Oc12Ppa
  inGeometry : ∀ f ∈ ppas, InGeometry n.ln f
  reads : ∃ status, bbtSetPpas n mem cmd = some (status, ppas.map (encodePpa n.ln))

/-- The tables after the commands, one after the other. -/
def runSets (n : Oc12Dev) : List (GeometrySet n) → List Oc12Bbt → Option (List Oc12Bbt)
  | [], bbtbl => some bbtbl
  | c :: cs, bbtbl => do
    let (_, bbtbl) ← oc12BbtSet n c.mem c.cmd bbtbl
    runSets n cs bbtbl

/-- What the commands set, in order. -/
def valuesSet {n : Oc12Dev} (cs : List (GeometrySet n)) : List (PpaBlock × UInt8) :=
  cs.flatMap fun c => c.ppas.map fun f => (f.block, c.cmd.value)

/-- The value last set for a block. -/
def lastSet (es : List (PpaBlock × UInt8)) (b : PpaBlock) : Option UInt8 :=
  (es.reverse.find? fun e => e.1 = b).map Prod.snd

/-- There is an entry of its own for each block: in every run the table of its LUN shows there
what was last set for the block, whatever was set for others. -/
def BbtAgrees (n : Oc12Dev) : Prop :=
  ∃ entry : PpaBlock → Nat, ∀ cs : List (GeometrySet n),
    ∃ bbtbl, runSets n cs (oc12InitBbtbl n.ln.group) = some bbtbl ∧
      ∀ f, InGeometry n.ln f → ∀ v, lastSet (valuesSet cs) f.block = some v →
        ∃ bytes, bbtBytes n.ln bbtbl (encodePpa n.ln f) = some bytes ∧
          bytes[oc12BbtSize + entry f.block]? = some v

/-! ## what a command changes -/

section Set

variable {bbtbl : List Oc12Bbt} {v w : UInt8}

/-- The entry of a table. -/
def blkAt (bbtbl : List Oc12Bbt) (l b : Nat) : Option UInt8 := bbtbl[l]?.bind (·.blk[b]?)

theorem elemAt_natCast {α : Type} (xs : List α) (i : Nat) : elemAt xs i = xs[i]? := by
  simp [elemAt]

theorem elemAt_set {α : Type} {xs : List α} {i : Int} {x : α} (h : elemAt xs i = some x) (y : α) :
    elemAt (xs.set i.toNat y) i = some y := by
  rw [elemAt] at h ⊢
  split at h
  case isTrue hle => rw [if_pos hle, List.getElem?_set_self (List.getElem?_eq_some_iff.mp h).1]
  case isFalse => cases h

/-- The entries follow the header. -/
theorem getElem?_bytes (bbt : Oc12Bbt) (i : Nat) : bbt.bytes[oc12BbtSize + i]? = bbt.blk[i]? := by
  rw [Oc12Bbt.bytes, ← length_header bbt, List.getElem?_append_right (Nat.le_add_right _ _),
    Nat.add_sub_cancel_left]

/-- **Set**: an entry that exists is set. -/
theorem setBlk_of_isSome {l b : Nat} (hin : (blkAt bbtbl l b).isSome) (v : UInt8) :
    ∃ bbtbl', setBlk v l b bbtbl = some bbtbl' ∧
      ∀ l' b', blkAt bbtbl' l' b' = if l' = l ∧ b' = b then some v else blkAt bbtbl l' b' := by
  obtain ⟨x, hx⟩ := Option.isSome_iff_exists.mp hin
  obtain ⟨bbt, hbbt, hx'⟩ := Option.bind_eq_some_iff.mp hx
  have hl := (List.getElem?_eq_some_iff.mp hbbt).1
  have hb := (List.getElem?_eq_some_iff.mp hx').1
  refine ⟨bbtbl.set l { bbt with blk := bbt.blk.set b v }, ?_, fun l' b' => ?_⟩
  · simp [setBlk, elemAt_natCast, hbbt, hx']
  · by_cases hl' : l' = l
    · rw [hl', blkAt, blkAt, List.getElem?_set_self hl, hbbt]
      by_cases hb' : b' = b
      · simp [hb', hb]
      · simp [hb', List.getElem?_set_ne (Ne.symm hb')]
    · simp [blkAt, hl', List.getElem?_set_ne (Ne.symm hl')]

/-- An entry that is set twice has the second value. -/
theorem setBlk_setBlk {bbtbl' : List Oc12Bbt} {l b : Int} (h : setBlk v l b bbtbl = some bbtbl') :
    setBlk w l b bbtbl' = setBlk w l b bbtbl := by
  simp only [setBlk, Option.bind_eq_bind, Option.bind_eq_some_iff, Option.pure_def,
    Option.some.injEq] at h
  obtain ⟨bbt, hbbt, x, hx, rfl⟩ := h
  simp [setBlk, elemAt_set hbbt, elemAt_set hx, hbbt, hx]

/-- **Command**: the addresses are set one after the other. -/
theorem runSets_cons {n : Oc12Dev} (c : GeometrySet n) (cs : List (GeometrySet n)) :
    runSets n (c :: cs) bbtbl =
      (setBlks n.ln c.cmd.value (c.ppas.map (encodePpa n.ln)) bbtbl).bind (runSets n cs) := by
  obtain ⟨status, hreads⟩ := c.reads
  rw [runSets, oc12BbtSet, hreads]
  cases hset : setBlks n.ln c.cmd.value (c.ppas.map (encodePpa n.ln)) bbtbl with
  | none => simp only [Option.bind_eq_bind, Option.bind_some, hset, Option.bind_none]
  | some bbtbl' =>
      simp only [Option.bind_eq_bind, Option.bind_some, hset, Option.pure_def]

/-- A command for one address. -/
theorem setBlks_singleton (ln : Oc12Ctrl) (ppa : Nat) :
    setBlks ln v [ppa] bbtbl = setBlk v (lunid ln ppa) (blkIdx ln ppa) bbtbl := by
  rw [setBlks]
  generalize setBlk v (lunid ln ppa) (blkIdx ln ppa) bbtbl = r
  cases r with
  | none => rfl
  | some bbtbl' => rfl

end Set

/-! ## tables that keep the blocks apart -/

section Apart

variable {n : Oc12Dev} {bbtbl : List Oc12Bbt} {es : List (PpaBlock × UInt8)} {f : Oc12Ppa}

@[simp] theorem lastSet_nil (b : PpaBlock) : lastSet [] b = none := rfl

/-- A further value counts for its block. -/
theorem lastSet_snoc (es : List (PpaBlock × UInt8)) (c : PpaBlock) (v : UInt8) (b : PpaBlock) :
    lastSet (es ++ [(c, v)]) b = if c = b then some v else lastSet es b := by
  by_cases h : c = b
  · simp [lastSet, h]
  · simp [lastSet, h]

/-- Each table has, block for block, what was last set, and zero where nothing was. -/
def Shows (ln : Oc12Ctrl) (bbtbl : List Oc12Bbt) (es : List (PpaBlock × UInt8)) : Prop :=
  ∀ f, InGeometry ln f →
    blkAt bbtbl (f.ch * ln.group.numLun + f.lun) f.blk = some ((lastSet es f.block).getD 0)

/-- What keeps the blocks apart: one plane, and masks that reach. -/
structure OneEntryEach (ln : Oc12Ctrl) : Prop where
  wf : ln.Wf
  narrow : FieldsNarrow ln
  plane : ln.group.numPln = 1
  reach : MasksReach ln

/-- The number of a LUN is its own. -/
theorem lun_lt (hf : InGeometry n.ln f) :
    f.ch * n.ln.group.numLun + f.lun < n.ln.group.numCh * n.ln.group.numLun := by
  have hch := Nat.mul_le_mul_right n.ln.group.numLun hf.ch
  have hlun := hf.lun
  rw [Nat.succ_mul] at hch
  omega

theorem shows_init (hplane : n.ln.group.numPln = 1) :
    Shows n.ln (oc12InitBbtbl n.ln.group) [] := by
  intro f hf
  have hblk := hf.blk
  simp [blkAt, oc12InitBbtbl, blksPerLun, hplane, lun_lt hf, hblk]

/-- The address selects the table of its LUN and the entry of its block. -/
theorem OneEntryEach.decode (h : OneEntryEach n.ln) (hf : InGeometry n.ln f) :
    lunid n.ln (encodePpa n.ln f) = (f.ch * n.ln.group.numLun + f.lun : Nat) ∧
      blkIdx n.ln (encodePpa n.ln f) = (f.blk : Nat) := by
  obtain ⟨hunit, hblk⟩ := decode_of_reach h.wf h.narrow h.reach hf
  have hsmall := h.wf.small
  simp only [List.mem_cons, List.not_mem_nil, or_false, forall_eq_or_imp, forall_eq] at hsmall
  obtain ⟨-, hlunLt, hblkLt, -⟩ := hsmall
  have hch := fits_of_inGeometry h.wf hf (n.ln.ppaf.ch, f.ch) (by simp [layout])
  have hch' : 2 ^ n.ln.ppaf.ch.len ≤ 2 ^ 5 := Nat.pow_le_pow_right (by omega) h.narrow.chLen
  have hmul : f.ch * n.ln.group.numLun ≤ 2 ^ 5 * 2 ^ 16 :=
    Nat.mul_le_mul (hch.le.trans hch') hlunLt.le
  have hlun := hf.lun
  have hblk' := hf.blk
  have hle := Nat.le_mul_of_pos_right (n.ln.ppaf.ch.get (encodePpa n.ln f)) h.wf.lun
  rw [lunid, blkIdx, int32_eq (by omega), int32_eq (by omega), int32_eq (by omega), hblk]
  exact ⟨by exact_mod_cast hunit, rfl⟩

/-- **Step**: the block of the address is set, and no other one. -/
theorem OneEntryEach.setBlk (h : OneEntryEach n.ln) (hshows : Shows n.ln bbtbl es)
    (hf : InGeometry n.ln f) (v : UInt8) :
    ∃ bbtbl', setBlk v (lunid n.ln (encodePpa n.ln f)) (blkIdx n.ln (encodePpa n.ln f)) bbtbl =
        some bbtbl' ∧ Shows n.ln bbtbl' (es ++ [(f.block, v)]) := by
  obtain ⟨hlun, hblk⟩ := h.decode hf
  have hin : (blkAt bbtbl (f.ch * n.ln.group.numLun + f.lun) f.blk).isSome := by
    rw [hshows f hf, Option.isSome_some]
  obtain ⟨bbtbl', hset, hat⟩ := setBlk_of_isSome hin v
  rw [hlun, hblk]
  refine ⟨bbtbl', hset, fun g hg => ?_⟩
  rw [hat, lastSet_snoc]
  have hiff : (g.ch * n.ln.group.numLun + g.lun = f.ch * n.ln.group.numLun + f.lun ∧
      g.blk = f.blk) ↔ f.block = g.block := by
    have hfp := hf.pln
    have hgp := hg.pln
    rw [h.plane] at hfp hgp
    simp only [Oc12Ppa.block, PpaBlock.mk.injEq]
    constructor
    · intro ⟨hunit, hb⟩
      obtain ⟨hch, hlun⟩ := digits_unique hg.lun hf.lun hunit
      exact ⟨hch.symm, hlun.symm, hb.symm, by omega⟩
    · intro ⟨hch, hlun, hb, _⟩
      rw [hch, hlun, hb]
      exact ⟨rfl, rfl⟩
  by_cases heq : f.block = g.block
  · rw [if_pos (hiff.mpr heq), if_pos heq, Option.getD_some]
  · rw [if_neg fun h => heq (hiff.mp h), if_neg heq]
    exact hshows g hg

/-- The loop of a command. -/
theorem OneEntryEach.setBlks (h : OneEntryEach n.ln) (hshows : Shows n.ln bbtbl es)
    {fs : List Oc12Ppa} (hfs : ∀ f ∈ fs, InGeometry n.ln f) (v : UInt8) :
    ∃ bbtbl', setBlks n.ln v (fs.map (encodePpa n.ln)) bbtbl = some bbtbl' ∧
      Shows n.ln bbtbl' (es ++ fs.map fun f => (f.block, v)) := by
  induction fs generalizing bbtbl es with
  | nil => exact ⟨bbtbl, rfl, by simpa using hshows⟩
  | cons f fs ih =>
      obtain ⟨bbtbl₁, hset, hshows₁⟩ := h.setBlk hshows (hfs f List.mem_cons_self) v
      obtain ⟨bbtbl₂, hrest, hshows₂⟩ :=
        ih hshows₁ fun g hg => hfs g (List.mem_cons_of_mem f hg)
      refine ⟨bbtbl₂, ?_, by simpa using hshows₂⟩
      rw [List.map_cons, Ocssd.setBlks, hset]
      exact hrest

/-- **Run**: after any commands the tables show what was last set. -/
theorem OneEntryEach.runSets (h : OneEntryEach n.ln) (hshows : Shows n.ln bbtbl es)
    (cs : List (GeometrySet n)) :
    ∃ bbtbl', runSets n cs bbtbl = some bbtbl' ∧ Shows n.ln bbtbl' (es ++ valuesSet cs) := by
  induction cs generalizing bbtbl es with
  | nil => exact ⟨bbtbl, rfl, by simpa [valuesSet] using hshows⟩
  | cons c cs ih =>
      obtain ⟨bbtbl₁, hset, hshows₁⟩ := h.setBlks hshows c.inGeometry c.cmd.value
      obtain ⟨bbtbl₂, hrest, hshows₂⟩ := ih hshows₁
      refine ⟨bbtbl₂, ?_, by simpa [valuesSet] using hshows₂⟩
      rw [runSets_cons, hset]
      exact hrest

/-- Each block has its entry in the table of its LUN. -/
theorem OneEntryEach.agrees (h : OneEntryEach n.ln) : BbtAgrees n := by
  refine ⟨PpaBlock.blk, fun cs => ?_⟩
  obtain ⟨bbtbl, hrun, hshows⟩ := h.runSets (shows_init h.plane) cs
  refine ⟨bbtbl, hrun, fun f hf v hv => ?_⟩
  have hat := hshows f hf
  rw [List.nil_append, hv, Option.getD_some] at hat
  obtain ⟨bbt, hbbt, hx⟩ := Option.bind_eq_some_iff.mp hat
  refine ⟨bbt.bytes, ?_, by rw [getElem?_bytes]; exact hx⟩
  rw [bbtBytes, (h.decode hf).1, elemAt_natCast, hbbt, Option.map_some]

/-- Without an address that is set there is nothing to keep apart. -/
theorem agrees_of_nothing_set (h : ∀ c : GeometrySet n, c.ppas = []) : BbtAgrees n := by
  refine ⟨PpaBlock.blk, fun cs => ⟨oc12InitBbtbl n.ln.group, ?_, fun f _ v hv => ?_⟩⟩
  · induction cs with
    | nil => rfl
    | cons c cs ih =>
        rw [runSets_cons, h c]
        exact ih
  · have hnone : valuesSet cs = [] := by simp [valuesSet, h]
    rw [hnone, lastSet_nil] at hv
    cases hv

/-- An array without room is never filled. -/
theorem ppas_eq_nil_of_no_room (hmax : n.maxSecPerRq = 0) (c : GeometrySet n) : c.ppas = [] := by
  obtain ⟨status, hreads⟩ := c.reads
  have hroom : n.maxSecPerRq.toNat < c.cmd.nlb.toNat + 1 := by simp [hmax]
  unfold bbtSetPpas at hreads
  simp only [if_pos hroom, if_pos hmax] at hreads
  split at hreads
  case isTrue =>
    have hnil : c.ppas.map (encodePpa n.ln) = [] := (congrArg Prod.snd (Option.some.inj hreads)).symm
    exact List.map_eq_nil_iff.mp hnil
  case isFalse =>
    split at hreads
    case isTrue => cases hreads
    case isFalse =>
      obtain ⟨⟨status', bytes⟩, -, hreads⟩ := Option.bind_eq_some_iff.mp hreads
      dsimp only at hreads
      split at hreads
      case isTrue =>
        have hnil : c.ppas.map (encodePpa n.ln) = [] :=
          (congrArg Prod.snd (Option.some.inj hreads)).symm
        exact List.map_eq_nil_iff.mp hnil
      case isFalse => cases hreads

end Apart

/-! ## addresses that share an entry -/

section Shared

variable {n : Oc12Dev} {bbtbl : List Oc12Bbt} {f g : Oc12Ppa}

/-- A command for one address. -/
theorem exists_set (hmax : n.maxSecPerRq ≠ 0) (hf : InGeometry n.ln f)
    (hlt : encodePpa n.ln f < 2 ^ 64) (v : UInt8) :
    ∃ c : GeometrySet n, c.ppas = [f] ∧ c.cmd.value = v := by
  refine ⟨⟨⟨fun _ => 0, fun _ => 0⟩, ⟨1, 0, UInt64.ofNat (encodePpa n.ln f), 0, v⟩, [f],
    by simpa using hf, nvmeSuccess, ?_⟩, rfl, rfl⟩
  simp [bbtSetPpas, numNamespaces, hmax, UInt64.toNat_ofNat_of_lt' hlt]

/-- Such a command in a run. -/
theorem runSets_single {c : GeometrySet n} (hc : c.ppas = [f]) (cs : List (GeometrySet n)) :
    runSets n (c :: cs) bbtbl =
      (setBlk c.cmd.value (lunid n.ln (encodePpa n.ln f)) (blkIdx n.ln (encodePpa n.ln f))
        bbtbl).bind (runSets n cs) := by
  rw [runSets_cons, hc, List.map_singleton, setBlks_singleton]

/-- **Collision**: of two blocks that share an entry, the one that was set first is lost. -/
theorem not_agrees_of_shared (hmax : n.maxSecPerRq ≠ 0) (hf : InGeometry n.ln f)
    (hg : InGeometry n.ln g) (hfl : encodePpa n.ln f < 2 ^ 64) (hgl : encodePpa n.ln g < 2 ^ 64)
    (hne : f.block ≠ g.block)
    (hlun : lunid n.ln (encodePpa n.ln f) = lunid n.ln (encodePpa n.ln g))
    (hblk : blkIdx n.ln (encodePpa n.ln f) = blkIdx n.ln (encodePpa n.ln g)) :
    ¬ BbtAgrees n := by
  intro ⟨entry, hagrees⟩
  obtain ⟨c, hc, hcv⟩ := exists_set hmax hf hfl 1
  obtain ⟨c', hc', hcv'⟩ := exists_set hmax hf hfl 2
  obtain ⟨d, hd, hdv⟩ := exists_set hmax hg hgl 0
  -- whatever was set for the first block, the tables are those after the second command
  have hsame : ∀ e : GeometrySet n, e.ppas = [f] → ∀ bbtbl,
      runSets n [e, d] (oc12InitBbtbl n.ln.group) = some bbtbl →
        runSets n [d] (oc12InitBbtbl n.ln.group) = some bbtbl := by
    intro e he bbtbl hrun
    rw [runSets_single he, hlun, hblk] at hrun
    obtain ⟨bbtbl₁, hset, hrest⟩ := Option.bind_eq_some_iff.mp hrun
    rw [runSets_single hd] at hrest ⊢
    rwa [setBlk_setBlk hset] at hrest
  have hlast : ∀ e : GeometrySet n, e.ppas = [f] →
      lastSet (valuesSet [e, d]) f.block = some e.cmd.value := by
    intro e he
    simp [valuesSet, he, hd, lastSet, Ne.symm hne]
  obtain ⟨bbtbl₁, hrun₁, hshows₁⟩ := hagrees [c, d]
  obtain ⟨bbtbl₂, hrun₂, hshows₂⟩ := hagrees [c', d]
  have heq : bbtbl₁ = bbtbl₂ :=
    Option.some.inj ((hsame c hc _ hrun₁).symm.trans (hsame c' hc' _ hrun₂))
  obtain ⟨bytes₁, hbytes₁, hget₁⟩ := hshows₁ f hf _ (hlast c hc)
  obtain ⟨bytes₂, hbytes₂, hget₂⟩ := hshows₂ f hf _ (hlast c' hc')
  rw [heq, hbytes₂] at hbytes₁
  cases hbytes₁
  rw [hget₁, hcv, hcv'] at hget₂
  exact absurd (Option.some.inj hget₂) (by decide)

/-- An address that selects no entry cannot be set. -/
theorem not_agrees_of_outside (hmax : n.maxSecPerRq ≠ 0) (hf : InGeometry n.ln f)
    (hfl : encodePpa n.ln f < 2 ^ 64)
    (hout : n.ln.group.numCh * n.ln.group.numLun ≤ lunid n.ln (encodePpa n.ln f) ∨
      blksPerLun n.ln.group ≤ blkIdx n.ln (encodePpa n.ln f)) : ¬ BbtAgrees n := by
  intro ⟨entry, hagrees⟩
  obtain ⟨c, hc, -⟩ := exists_set hmax hf hfl 0
  obtain ⟨bbtbl, hrun, -⟩ := hagrees [c]
  rw [runSets_single hc] at hrun
  obtain ⟨bbtbl', hset, -⟩ := Option.bind_eq_some_iff.mp hrun
  simp only [setBlk, Option.bind_eq_bind, Option.bind_eq_some_iff] at hset
  obtain ⟨bbt, hbbt, x, hx, -⟩ := hset
  have helem : ∀ {α : Type} {xs : List α} {i : Int} {y : α}, elemAt xs i = some y →
      i < xs.length ∧ y ∈ xs := by
    intro α xs i y hi
    rw [elemAt] at hi
    split at hi
    case isTrue hle =>
      have hlt := (List.getElem?_eq_some_iff.mp hi).1
      exact ⟨by omega, List.mem_of_getElem? hi⟩
    case isFalse => cases hi
  obtain ⟨hlun, hmem⟩ := helem hbbt
  have hblk := (helem hx).1
  rw [oc12InitBbtbl, List.length_replicate] at hlun
  rw [oc12InitBbtbl, List.mem_replicate] at hmem
  rw [hmem.2, List.length_replicate] at hblk
  push_cast at hlun
  omega

/-- The first sector of the LUN. -/
def firstOf (ch lun pln : Nat) : Oc12Ppa := ⟨ch, lun, 0, 0, pln, 0⟩

theorem firstOf_inGeometry (hwf : n.ln.Wf) (hblk : 0 < n.ln.group.numBlk) {ch lun pln : Nat}
    (hch : ch < n.ln.group.numCh) (hlun : lun < n.ln.group.numLun)
    (hpln : pln < n.ln.group.numPln) : InGeometry n.ln (firstOf ch lun pln) :=
  ⟨hch, hlun, hblk, hwf.pg, hpln, hwf.sec⟩

/-- The plane is not decoded. -/
theorem decode_plane (hwf : n.ln.Wf) (hf : InGeometry n.ln f) (hg : InGeometry n.ln g)
    (hch : f.ch = g.ch) (hlun : f.lun = g.lun) (hblk : f.blk = g.blk) :
    lunid n.ln (encodePpa n.ln f) = lunid n.ln (encodePpa n.ln g) ∧
      blkIdx n.ln (encodePpa n.ln f) = blkIdx n.ln (encodePpa n.ln g) := by
  have hgetBlk := AddrField.get_congr (f := n.ln.ppaf.blk) (x := encodePpa n.ln f)
    (y := encodePpa n.ln g)
    (by rw [encodePpa_div_blk hwf hf, encodePpa_div_blk hwf hg, hch, hlun, hblk])
  have hgetLun := AddrField.get_congr (f := n.ln.ppaf.lun) (x := encodePpa n.ln f)
    (y := encodePpa n.ln g)
    (by rw [encodePpa_div_lun hwf hf, encodePpa_div_lun hwf hg, hch, hlun])
  have hgetCh := AddrField.get_congr (f := n.ln.ppaf.ch) (x := encodePpa n.ln f)
    (y := encodePpa n.ln g)
    (by rw [encodePpa_div_ch hwf hf, encodePpa_div_ch hwf hg, hch])
  rw [lunid, lunid, blkIdx, blkIdx, hgetBlk, hgetLun, hgetCh]
  exact ⟨rfl, rfl⟩

/-- With two planes the first block of the second one shares its entry. -/
theorem not_agrees_of_planes (hwf : n.ln.Wf) (hnarrow : FieldsNarrow n.ln)
    (hmax : n.maxSecPerRq ≠ 0) (hblk : 0 < n.ln.group.numBlk) (hpln : 1 < n.ln.group.numPln) :
    ¬ BbtAgrees n := by
  have hf := firstOf_inGeometry hwf hblk hwf.ch hwf.lun hwf.pln
  have hg := firstOf_inGeometry hwf hblk hwf.ch hwf.lun hpln
  obtain ⟨hlun, hblk'⟩ := decode_plane hwf hf hg rfl rfl rfl
  exact not_agrees_of_shared hmax hf hg (encodePpa_lt hwf hnarrow hf)
    (encodePpa_lt hwf hnarrow hg) (by simp [firstOf, Oc12Ppa.block]) hlun hblk'

/-- The last LUN and channel of an address. -/
theorem unit_lt (hwf : n.ln.Wf) (hnarrow : FieldsNarrow n.ln) (hf : InGeometry n.ln f) :
    f.lun + 2 ^ n.ln.ppaf.lun.len * f.ch < 2 ^ 12 := by
  have hlun := fits_of_inGeometry hwf hf (n.ln.ppaf.lun, f.lun) (by simp [layout])
  have hch := fits_of_inGeometry hwf hf (n.ln.ppaf.ch, f.ch) (by simp [layout])
  obtain ⟨-, -, hlunLen, hchLen⟩ := hnarrow
  dsimp only at hlun hch
  rw [Nat.mul_comm]
  exact (add_mul_two_pow_lt hlun hch).trans_le (Nat.pow_le_pow_right (by omega) (by omega))

/-- The block with the greatest fields. -/
def lastPpa (ln : Oc12Ctrl) : Oc12Ppa :=
  ⟨ln.group.numCh - 1, ln.group.numLun - 1, ln.group.numBlk - 1, 0, 0, 0⟩

theorem lastPpa_inGeometry (hwf : n.ln.Wf) (hblk : 0 < n.ln.group.numBlk) :
    InGeometry n.ln (lastPpa n.ln) :=
  ⟨Nat.sub_one_lt_of_lt hwf.ch, Nat.sub_one_lt_of_lt hwf.lun, Nat.sub_one_lt_of_lt hblk, hwf.pg,
    hwf.pln, hwf.sec⟩

/-- Where the masks do not reach, the last block of the device selects no entry. -/
theorem not_agrees_of_lost (hwf : n.ln.Wf) (hnarrow : FieldsNarrow n.ln) (hmax : n.maxSecPerRq ≠ 0)
    (hblk : 0 < n.ln.group.numBlk) (hplane : n.ln.group.numPln = 1) (hreach : ¬ MasksReach n.ln) :
    ¬ BbtAgrees n := by
  have hf := lastPpa_inGeometry hwf hblk
  have hch := hwf.ch
  have hlun := hwf.lun
  have hunit := unit_lt hwf hnarrow hf
  refine not_agrees_of_outside hmax hf (encodePpa_lt hwf hnarrow hf) ?_
  by_cases hoff : n.ln.ppaf.lun.offset < 32
  case neg =>
    -- the block has the LUN and the channel on top, and one of them is not 0
    right
    have hpos : 0 < (lastPpa n.ln).lun + 2 ^ n.ln.ppaf.lun.len * (lastPpa n.ln).ch := by
      have hne : ¬ (n.ln.group.numLun = 1 ∧ n.ln.group.numCh = 1) := fun hone => hreach
        ⟨.inr hone, .inr (.inl hone.2)⟩
      have hle := Nat.le_mul_of_pos_left (n.ln.group.numCh - 1) (Nat.two_pow_pos n.ln.ppaf.lun.len)
      simp only [lastPpa]
      omega
    have hone : 0 < 2 ^ n.ln.ppaf.blk.len := Nat.two_pow_pos _
    have hpow : 2 ^ n.ln.ppaf.blk.len ≤ 2 ^ 16 := Nat.pow_le_pow_right (by omega) hnarrow.blkLen
    have hlt := Nat.mul_le_mul hpow hunit.le
    have hge := Nat.mul_pos hone hpos
    have hsmall := hwf.small n.ln.group.numBlk (by simp)
    have hlast : (lastPpa n.ln).blk = n.ln.group.numBlk - 1 := rfl
    rw [blkIdx, get_blk_wide hwf hnarrow hf (by omega), int32_eq (by omega), blksPerLun, hplane]
    omega
  case pos =>
    -- the LUN has the channel on top, and the count of the LUNs is no power of two
    left
    have hlost : ¬ n.ln.ppaf.ch.offset < 32 ∧ n.ln.group.numCh ≠ 1 ∧
        n.ln.group.numLun ≠ 2 ^ n.ln.ppaf.lun.len := by
      simpa [MasksReach, hoff] using hreach
    have hfit := fits_of_inGeometry hwf hf (n.ln.ppaf.lun, (lastPpa n.ln).lun) (by simp [layout])
    have hlast : (lastPpa n.ln).lun = n.ln.group.numLun - 1 := rfl
    have hlast' : (lastPpa n.ln).ch = n.ln.group.numCh - 1 := rfl
    dsimp only at hfit
    obtain ⟨k, hk⟩ : ∃ k, n.ln.group.numCh = k + 1 := ⟨n.ln.group.numCh - 1, by omega⟩
    have hmul := Nat.mul_le_mul_right k
      (show n.ln.group.numLun + 1 ≤ 2 ^ n.ln.ppaf.lun.len by omega)
    rw [hlast, hlast', hk, Nat.add_sub_cancel] at hunit
    rw [lunid, get_ch_lost hwf hnarrow (by omega), get_lun_wide hwf hnarrow hf hoff (by omega),
      int32_eq (by omega), int32_eq (by rw [hlast, hlast', hk, Nat.add_sub_cancel]; omega), hlast,
      hlast', hk, Nat.add_sub_cancel]
    rw [Nat.succ_mul] at hmul
    have hgoal : (k + 1) * n.ln.group.numLun ≤
        n.ln.group.numLun - 1 + 2 ^ n.ln.ppaf.lun.len * k := by
      rw [Nat.succ_mul, Nat.mul_comm k]
      omega
    rw [Int.natCast_zero, Int.zero_mul, Int.zero_add]
    exact_mod_cast hgoal

end Shared

/-- **Bad blocks**: what is set for a block is reported exactly if nothing can be set at all, or
the device has one plane and its masks reach channel and LUN. -/
theorem bbt_agrees_iff {p : OcCtrlParams} {nsBlks : UInt64} {n : Oc12Dev}
    (h : oc12InitMore p nsBlks = some n.ln) :
    BbtAgrees n ↔ n.maxSecPerRq = 0 ∨ n.ln.group.numBlk = 0 ∨
      (n.ln.group.numPln = 1 ∧ MasksReach n.ln) := by
  have hwf := (oc12InitMore_wf h).1
  by_cases hmax : n.maxSecPerRq = 0
  · exact iff_of_true (agrees_of_nothing_set (ppas_eq_nil_of_no_room hmax)) (.inl hmax)
  by_cases hblk : n.ln.group.numBlk = 0
  · have hnone : ∀ c : GeometrySet n, c.ppas = [] := by
      intro c
      refine List.eq_nil_iff_forall_not_mem.mpr fun f hf => ?_
      have hlt := (c.inGeometry f hf).blk
      omega
    exact iff_of_true (agrees_of_nothing_set hnone) (.inr (.inl hblk))
  have hpos := Nat.pos_of_ne_zero hblk
  have hnarrow := fieldsNarrow_of_init h hpos
  rw [or_iff_right hmax, or_iff_right hblk]
  constructor
  case mpr =>
    intro ⟨hplane, hreach⟩
    exact OneEntryEach.agrees ⟨hwf, hnarrow, hplane, hreach⟩
  case mp =>
    intro hagrees
    have hplane : n.ln.group.numPln = 1 := by
      by_contra hne
      have hpln := hwf.pln
      exact not_agrees_of_planes hwf hnarrow hmax hpos (by omega) hagrees
    refine ⟨hplane, ?_⟩
    by_contra hreach
    exact not_agrees_of_lost hwf hnarrow hmax hpos hplane hreach hagrees

/-- The default device, but with one plane. -/
theorem bbt_agrees_single_plane : ∃ ln, oc12InitMore ⟨4, 512, 2, 8, 1, 16⟩ 2097152 = some ln ∧
    BbtAgrees (defaultOc12 ln) := by
  have hmap : (oc12InitMore ⟨4, 512, 2, 8, 1, 16⟩ 2097152).map (fun ln =>
      decide (ln.group.numPln = 1 ∧ MasksReach ln)) = some true := by decide +kernel
  obtain ⟨ln, hln, hreach⟩ := Option.map_eq_some_iff.mp hmap
  exact ⟨ln, hln, (bbt_agrees_iff (n := defaultOc12 ln) hln).mpr
    (.inr (.inr (of_decide_eq_true hreach)))⟩

/-- A command that sets one address. -/
def setOne (ln : Oc12Ctrl) (f : Oc12Ppa) (value : UInt8) : Oc12BbtSet where
  nsid := 1
  prp2 := 0
  spba := UInt64.ofNat (encodePpa ln f)
  nlb := 0
  value := value

/-- The first block of the first plane is marked with 1, and then that of the second plane with
2: the marks in the table of the first LUN. -/
def marksOfPlanes (ln : Oc12Ctrl) : Option (List UInt8) := do
  let n := defaultOc12 ln
  let (_, bbtbl) ← oc12BbtSet n freshOc12.mem (setOne ln ⟨0, 0, 0, 0, 0, 0⟩ 1)
    (oc12InitBbtbl ln.group)
  let (_, bbtbl) ← oc12BbtSet n freshOc12.mem (setOne ln ⟨0, 0, 0, 0, 1, 0⟩ 2) bbtbl
  let bbt ← bbtbl[0]?
  return bbt.blk.filter (· ≠ 0)

/-- On the default device, with its two planes, only the second mark is left. -/
theorem planes_share_entry : ∃ ln, oc12InitMore ⟨4, 512, 2, 8, 2, 16⟩ 2097152 = some ln ∧
    marksOfPlanes ln = some [2] ∧ ¬ BbtAgrees (defaultOc12 ln) := by
  have hmap : (oc12InitMore ⟨4, 512, 2, 8, 2, 16⟩ 2097152).map (fun ln =>
      (marksOfPlanes ln, decide (0 < ln.group.numBlk ∧ 1 < ln.group.numPln))) =
        some (some [2], true) := by decide +kernel
  obtain ⟨ln, hln, heq⟩ := Option.map_eq_some_iff.mp hmap
  obtain ⟨hrun, hcounts⟩ := Prod.mk.inj heq
  obtain ⟨hblk, hpln⟩ := of_decide_eq_true hcounts
  have hroom : (defaultOc12 ln).maxSecPerRq ≠ 0 := show (64 : UInt8) ≠ 0 by decide
  exact ⟨ln, hln, hrun, not_agrees_of_planes (n := defaultOc12 ln) (oc12InitMore_wf hln).1
    (fieldsNarrow_of_init hln hblk) hroom hblk hpln⟩

end Femu.Ocssd

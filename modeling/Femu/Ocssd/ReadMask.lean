import Mathlib.Algebra.Ring.Nat
import Mathlib.Data.Nat.Bitwise
import Femu.Ocssd.Oc20Bounds

/-!
# Femu.Ocssd.ReadMask

The mask `predef` of the sectors of a read that cannot be read
(`oc20_rw_check_read_req`). Its bits are made by shifting an `int`: bit 31 is
extended over the upper half of the mask, and the upper half is never reached
otherwise.
-/

namespace Femu.Ocssd

open Lib Lib.Traced Nvme

variable {lns : Oc20Namespace} {mwCunits : Nat} {chunkInfo : Nat → Oc20CS} {lbas : List Nat}

/-! ## sectors that can be read -/

/-- The sector passes `oc20_rw_check_chunk_read`. -/
def Readable (lns : Oc20Namespace) (mwCunits : Nat) (chunkInfo : Nat → Oc20CS) (lba : Nat) : Prop :=
  oc20RwCheckChunkRead lns mwCunits chunkInfo lba = nvmeSuccess

instance decidableReadable (lba : Nat) : Decidable (Readable lns mwCunits chunkInfo lba) :=
  inferInstanceAs (Decidable (_ = _))

theorem dulb_ne_success : nvmeDulb ≠ nvmeSuccess := by decide

/-- The check of a sector succeeds, or marks the sector. -/
theorem checkChunkRead_of_not_readable {lba : Nat} (h : ¬ Readable lns mwCunits chunkInfo lba) :
    oc20RwCheckChunkRead lns mwCunits chunkInfo lba = nvmeDulb := by
  revert h
  unfold Readable oc20RwCheckChunkRead
  split
  case h_1 => exact fun _ => rfl
  case h_2 =>
    dsimp only
    split
    case isTrue =>
      split
      case isTrue => exact fun _ => rfl
      case isFalse => exact fun h => absurd rfl h
    case isFalse =>
      split
      case isTrue => exact fun h => absurd rfl h
      case isFalse =>
        split
        case isTrue => exact fun h => absurd rfl h
        case isFalse => exact fun _ => rfl

/-- A sector of a sequential chunk can be read when it exists, has been written, and
is not among the last `mw_cunits` sectors of an open chunk. -/
theorem readable_iff {lba : Nat}
    (htype : (chunkInfo (oc20LbaToChunkIndex lns lba)).type ≠ oc20ChunkTypeRan) :
    Readable lns mwCunits chunkInfo lba ↔ oc20LbaValid lns lba ∧
      ((chunkInfo (oc20LbaToChunkIndex lns lba)).state = oc20ChunkClosed ∧
          lns.lbaf.getSectr lba < (chunkInfo (oc20LbaToChunkIndex lns lba)).wp ∨
        (chunkInfo (oc20LbaToChunkIndex lns lba)).state = oc20ChunkOpen ∧
          lns.lbaf.getSectr lba + mwCunits <
            (chunkInfo (oc20LbaToChunkIndex lns lba)).wp) := by
  unfold Readable oc20RwCheckChunkRead oc20ChunkGetState
  by_cases hvalid : oc20LbaValid lns lba
  case neg => simp [hvalid, dulb_ne_success]
  case pos =>
    rw [if_pos hvalid]
    simp only [if_neg htype, hvalid, true_and]
    split
    case isTrue hclosed => exact iff_of_true rfl (.inl hclosed)
    case isFalse hclosed =>
      split
      case isTrue hopen => exact iff_of_true rfl (.inr ⟨hopen.1, by omega⟩)
      case isFalse hopen =>
        refine iff_of_false dulb_ne_success fun h => ?_
        obtain h | h := h
        · exact hclosed h
        · exact hopen ⟨h.1, by omega, by omega⟩

/-! ## the mask -/

/-- The bits of `1 << i`: one bit, or the upper half with bit 31. -/
theorem testBit_oneShl (i j : Nat) :
    (oneShl i).testBit j = true ↔ if i % 32 = 31 then 31 ≤ j ∧ j < 64 else j = i % 32 := by
  unfold oneShl
  split
  case isTrue =>
    have hmask : 2 ^ 64 - 2 ^ 31 = (2 ^ 33 - 1) <<< 31 := by decide
    rw [hmask, Nat.testBit_shiftLeft, Nat.testBit_two_pow_sub_one]
    simp only [Bool.and_eq_true, decide_eq_true_eq]
    omega
  case isFalse =>
    rw [Nat.testBit_two_pow, decide_eq_true_eq]
    exact eq_comm

/-- The loop marks the sectors that cannot be read, and always succeeds. -/
theorem checkReadLoop_spec (k predef : Nat) :
    (checkReadLoop lns mwCunits chunkInfo lbas k predef).2 = nvmeSuccess ∧
      ∀ j, (checkReadLoop lns mwCunits chunkInfo lbas k predef).1.testBit j = true ↔
        predef.testBit j = true ∨ ∃ i lba, lbas[i]? = some lba ∧
          ¬ Readable lns mwCunits chunkInfo lba ∧ (oneShl (k + i)).testBit j = true := by
  induction lbas generalizing k predef with
  | nil => simp [checkReadLoop]
  | cons lba rest ih =>
      have hrest : ∀ j, (∃ i lba', (lba :: rest)[i]? = some lba' ∧
          ¬ Readable lns mwCunits chunkInfo lba' ∧ (oneShl (k + i)).testBit j = true) ↔
            ¬ Readable lns mwCunits chunkInfo lba ∧ (oneShl k).testBit j = true ∨
              ∃ i lba', rest[i]? = some lba' ∧ ¬ Readable lns mwCunits chunkInfo lba' ∧
                (oneShl (k + 1 + i)).testBit j = true := by
        intro j
        rw [← Nat.or_exists_add_one]
        simp [Nat.add_right_comm, Nat.add_assoc]
      by_cases hread : Readable lns mwCunits chunkInfo lba
      case pos =>
        have hstep : checkReadLoop lns mwCunits chunkInfo (lba :: rest) k predef =
            checkReadLoop lns mwCunits chunkInfo rest (k + 1) predef :=
          if_neg fun hc => hc hread
        obtain ⟨hstatus, hbits⟩ := ih (k + 1) predef
        rw [hstep]
        refine ⟨hstatus, fun j => ?_⟩
        rw [hbits, hrest]
        simp [hread]
      case neg =>
        have herr := checkChunkRead_of_not_readable hread
        have hstep : checkReadLoop lns mwCunits chunkInfo (lba :: rest) k predef =
            checkReadLoop lns mwCunits chunkInfo rest (k + 1) (predef ||| oneShl k) := by
          rw [checkReadLoop, herr, if_pos dulb_ne_success, if_pos (by decide)]
        obtain ⟨hstatus, hbits⟩ := ih (k + 1) (predef ||| oneShl k)
        rw [hstep]
        refine ⟨hstatus, fun j => ?_⟩
        rw [hbits, hrest, Nat.testBit_or, Bool.or_eq_true, or_assoc]
        simp [hread]

/-- The read is accepted, and bit `i` of its mask is set exactly if it has an `i`-th
sector, which cannot be read. -/
def MaskExact (lns : Oc20Namespace) (mwCunits : Nat) (chunkInfo : Nat → Oc20CS)
    (lbas : List Nat) : Prop :=
  (checkReadLoop lns mwCunits chunkInfo lbas 0 0).2 = nvmeSuccess ∧
    ∀ i, (checkReadLoop lns mwCunits chunkInfo lbas 0 0).1.testBit i = true ↔
      ∃ lba, lbas[i]? = some lba ∧ ¬ Readable lns mwCunits chunkInfo lba

/-- Shifts of an `int` give a set of indices below 64 as a mask only if the indices
stay below 31, or if there are all 64 of them. -/
theorem shifts_exact_iff {marked : Nat → Prop} (hlt : ∀ i, marked i → i < 64) :
    (∀ j, (∃ i, marked i ∧ if i % 32 = 31 then 31 ≤ j ∧ j < 64 else j = i % 32) ↔ marked j) ↔
      (∀ i, marked i → i < 31) ∨ ∀ i < 64, marked i := by
  constructor
  case mp =>
    intro h
    by_cases hlow : ∀ i, marked i → i < 31
    case pos => exact .inl hlow
    case neg =>
      right
      push Not at hlow
      obtain ⟨i, hi, hge⟩ := hlow
      -- bit `i` is set by an index that sets the upper half
      have hlast : ∃ e, marked e ∧ e % 32 = 31 := by
        obtain ⟨e, he, hbit⟩ := (h i).mpr hi
        by_cases hmod : e % 32 = 31
        case pos => exact ⟨e, he, hmod⟩
        case neg =>
          rw [if_neg hmod] at hbit
          exact ⟨i, hi, by omega⟩
      obtain ⟨e, he, hmod⟩ := hlast
      have hupper : ∀ j, 31 ≤ j → j < 64 → marked j := fun j hj hj' =>
        (h j).mp ⟨e, he, by rw [if_pos hmod]; exact ⟨hj, hj'⟩⟩
      intro j hj
      by_cases hup : 31 ≤ j
      case pos => exact hupper j hup hj
      case neg =>
        refine (h j).mp ⟨j + 32, hupper (j + 32) (by omega) (by omega), ?_⟩
        rw [if_neg (by omega)]
        omega
  case mpr =>
    intro h j
    obtain hlow | hall := h
    case inl =>
      constructor
      case mp =>
        intro hex
        obtain ⟨i, hi, hbit⟩ := hex
        have hlt := hlow i hi
        rw [if_neg (by omega), Nat.mod_eq_of_lt (by omega)] at hbit
        exact hbit ▸ hi
      case mpr =>
        intro hj
        have hlt := hlow j hj
        refine ⟨j, hj, ?_⟩
        rw [if_neg (by omega)]
        omega
    case inr =>
      constructor
      case mp =>
        intro hex
        obtain ⟨i, hi, hbit⟩ := hex
        refine hall j ?_
        split at hbit <;> omega
      case mpr =>
        intro hj
        have hlt := hlt j hj
        by_cases hup : 31 ≤ j
        case pos => exact ⟨31, hall 31 (by omega), by rw [if_pos rfl]; exact ⟨hup, hlt⟩⟩
        case neg =>
          refine ⟨j, hj, ?_⟩
          rw [if_neg (by omega)]
          omega

/-- **Read mask**: the mask of a read is exact if and only if no sector from the
thirty-second on is marked, or if there are 64 of them and all are marked. -/
theorem read_mask_iff (hlen : lbas.length ≤ oc20CmdMaxLbas) :
    MaskExact lns mwCunits chunkInfo lbas ↔
      (∀ i lba, lbas[i]? = some lba → ¬ Readable lns mwCunits chunkInfo lba → i < 31) ∨
        lbas.length = oc20CmdMaxLbas ∧ ∀ lba ∈ lbas, ¬ Readable lns mwCunits chunkInfo lba := by
  obtain ⟨marked, hmarked⟩ : ∃ marked : Nat → Prop, ∀ i, marked i ↔
      ∃ lba, lbas[i]? = some lba ∧ ¬ Readable lns mwCunits chunkInfo lba := ⟨_, fun _ => Iff.rfl⟩
  obtain ⟨hstatus, hbits⟩ :
      (checkReadLoop lns mwCunits chunkInfo lbas 0 0).2 = nvmeSuccess ∧ _ := checkReadLoop_spec 0 0
  have hlt : ∀ i, marked i → i < 64 := by
    intro i hi
    obtain ⟨lba, hget, -⟩ := (hmarked i).mp hi
    obtain ⟨hi, -⟩ := List.getElem?_eq_some_iff.mp hget
    exact hi.trans_le hlen
  have hexact : MaskExact lns mwCunits chunkInfo lbas ↔
      ∀ j, (∃ i, marked i ∧ if i % 32 = 31 then 31 ≤ j ∧ j < 64 else j = i % 32) ↔ marked j := by
    rw [MaskExact, and_iff_right hstatus]
    refine forall_congr' fun j => ?_
    have hset : (checkReadLoop lns mwCunits chunkInfo lbas 0 0).1.testBit j = true ↔
        ∃ i, marked i ∧ if i % 32 = 31 then 31 ≤ j ∧ j < 64 else j = i % 32 := by
      rw [hbits]
      simp [hmarked, testBit_oneShl, ← and_assoc]
    rw [hset, hmarked]
  have hall : (∀ i < 64, marked i) ↔
      lbas.length = oc20CmdMaxLbas ∧ ∀ lba ∈ lbas, ¬ Readable lns mwCunits chunkInfo lba := by
    constructor
    case mp =>
      intro h
      refine ⟨Nat.le_antisymm hlen ?_, fun lba hmem => ?_⟩
      · obtain ⟨lba, hget, -⟩ := (hmarked 63).mp (h 63 (by omega))
        obtain ⟨hlt, -⟩ := List.getElem?_eq_some_iff.mp hget
        exact hlt
      · obtain ⟨i, hi, hget⟩ := List.mem_iff_getElem.mp hmem
        obtain ⟨lba', hget', hread⟩ := (hmarked i).mp (h i (hi.trans_le hlen))
        rw [List.getElem?_eq_getElem hi, hget, Option.some.injEq] at hget'
        exact hget' ▸ hread
    case mpr =>
      intro h i hi
      have hi' : i < lbas.length := h.1 ▸ hi
      exact (hmarked i).mpr ⟨lbas[i], List.getElem?_eq_getElem hi', h.2 _ (List.getElem_mem hi')⟩
  rw [hexact, shifts_exact_iff hlt, hall]
  refine or_congr_left (forall_congr' fun i => ?_)
  rw [hmarked]
  simp

/-- 32 sectors of a chunk that has not been written. -/
def unwrittenLbas : List Nat := List.replicate 32 0

/-- The last of 32 unwritten sectors marks the upper half of the mask. -/
theorem upper_half_marked :
    (checkReadLoop threeChunks 24 freshOc20.chunkInfo unwrittenLbas 0 0).2 = nvmeSuccess ∧
      (checkReadLoop threeChunks 24 freshOc20.chunkInfo unwrittenLbas 0 0).1 = 2 ^ 64 - 1 ∧
      ¬ MaskExact threeChunks 24 freshOc20.chunkInfo unwrittenLbas := by
  have hmask : (checkReadLoop threeChunks 24 freshOc20.chunkInfo unwrittenLbas 0 0).1 =
      2 ^ 64 - 1 := by decide +kernel
  have hstatus : (checkReadLoop threeChunks 24 freshOc20.chunkInfo unwrittenLbas 0 0).2 =
      nvmeSuccess := by decide +kernel
  refine ⟨hstatus, hmask, fun hexact => ?_⟩
  have hbit := hexact.2 32
  rw [hmask] at hbit
  obtain ⟨lba, hget, -⟩ := hbit.mp (by decide)
  cases hget

/-- The first chunk is written and closed, the others are free. -/
def firstClosed (i : Nat) : Oc20CS :=
  if i = 0 then ⟨oc20ChunkClosed, oc20ChunkTypeSeq, 0, 0, 4, 4⟩ else freshOc20.chunkInfo i

/-- A read of sectors of the written chunk and of free ones. -/
theorem read_mask_five :
    (checkReadLoop threeChunks 24 firstClosed [0, 4, 1, 16, 3] 0 0).1 = 2 ^ 1 + 2 ^ 3 ∧
      MaskExact threeChunks 24 firstClosed [0, 4, 1, 16, 3] := by
  refine ⟨by decide, (read_mask_iff (by decide)).mpr (.inl fun i lba hget _ => ?_)⟩
  obtain ⟨hi, -⟩ := List.getElem?_eq_some_iff.mp hget
  have hfive : i < 5 := hi
  omega

end Femu.Ocssd

import Femu.Lib.Bits
import Femu.Nvme.Io

/-!
# Femu.Nvme.Bitmap

The bitmaps of a namespace as the words that `bitmap_set`, `bitmap_clear`
(`bitmap.c`) and `find_next_bit` (`bitops.c`) work on, and the proof that the
bits of these words are what the I/O commands of `Io` see.

The functions read and write whole words; the first and the last word of a range
are masked. The loops end because a round takes at least one bit, so the number
of bits is fuel enough.
-/

namespace Femu.Nvme

open Lib

/-! ## bitmap_set and bitmap_clear -/

/-- `BITMAP_FIRST_WORD_MASK`. -/
def bitmapFirstWordMask (start : Nat) : BitVec 64 := BitVec.allOnes 64 <<< (start % 64)

/-- `BITMAP_LAST_WORD_MASK`: `-(nbits) & 63` places are shifted out. -/
def bitmapLastWordMask (nbits : Nat) : BitVec 64 :=
  BitVec.allOnes 64 >>> (-(nbits : Int) % 64).toNat

/-- The local variables of `bitmap_set` and `bitmap_clear`: `bits` is
`bits_to_set` in the one and `bits_to_clear` in the other. -/
structure MaskRun where
  map : Words
  p : Nat
  nr : Nat
  bits : Nat
  mask : BitVec 64

/-- `while (nr - bits >= 0)`, where `op` puts the mask on a word. -/
def maskLoop (op : BitVec 64 → BitVec 64 → BitVec 64) : Nat → MaskRun → MaskRun
  | 0, r => r
  | fuel + 1, r =>
    if r.bits ≤ r.nr then
      maskLoop op fuel {
        map := Function.update r.map r.p (op (r.map r.p) r.mask)
        p := r.p + 1
        nr := r.nr - r.bits
        bits := 64
        mask := BitVec.allOnes 64 }
    else
      r

/-- The last word of the range, whose end is `size`. -/
def maskLast (op : BitVec 64 → BitVec 64 → BitVec 64) (size : Nat) (r : MaskRun) : Words :=
  if r.nr ≠ 0 then
    Function.update r.map r.p (op (r.map r.p) (r.mask &&& bitmapLastWordMask size))
  else
    r.map

/-- What `bitmap_set` and `bitmap_clear` share. -/
def maskRange (op : BitVec 64 → BitVec 64 → BitVec 64) (map : Words) (start nr : Nat) : Words :=
  maskLast op (start + nr) (maskLoop op nr {
    map := map
    p := start / 64
    nr := nr
    bits := 64 - start % 64
    mask := bitmapFirstWordMask start })

/-- `bitmap_set`. -/
def bitmapSetWords : Words → Nat → Nat → Words := maskRange fun word mask => word ||| mask

/-- `bitmap_clear`. -/
def bitmapClearWords : Words → Nat → Nat → Words := maskRange fun word mask => word &&& ~~~mask

section Mask

variable {op : BitVec 64 → BitVec 64 → BitVec 64} {b : Bool}

/-- The operation sets the bits under the mask to `b` and leaves the others. -/
def PutsMask (op : BitVec 64 → BitVec 64 → BitVec 64) (b : Bool) : Prop :=
  ∀ word mask i, (op word mask).getLsbD i = if mask.getLsbD i = true then b else word.getLsbD i

theorem putsMask_or : PutsMask (fun word mask => word ||| mask) true := by
  intro word mask i
  cases hm : mask.getLsbD i <;> simp [hm]

theorem putsMask_andNot : PutsMask (fun word mask => word &&& ~~~mask) false := by
  intro word mask i
  rw [BitVec.getLsbD_and, BitVec.getLsbD_not]
  by_cases hi : i < 64
  · cases mask.getLsbD i <;> simp [hi]
  · rw [BitVec.getLsbD_of_ge word i (Nat.le_of_not_lt hi)]
    simp

/-- The bits of an array after a mask is put on one of its words. -/
theorem bitsOf_putMask (hop : PutsMask op b) (map : Words) (p : Nat) (mask : BitVec 64) {j n : Nat}
    (hn : n ≤ 64) (hmask : ∀ i, mask.getLsbD i = decide (j ≤ i ∧ i < n)) (i : Nat) :
    bitsOf (Function.update map p (op (map p) mask)) i =
      if 64 * p + j ≤ i ∧ i < 64 * p + n then b else bitsOf map i := by
  rw [bitsOf_update]
  by_cases hword : 64 * p ≤ i ∧ i < 64 * p + 64
  · have hat := bitsOf_add map p (show i - 64 * p < 64 by omega)
    rw [show 64 * p + (i - 64 * p) = i by omega] at hat
    have hiff : (j ≤ i - 64 * p ∧ i - 64 * p < n) ↔ 64 * p + j ≤ i ∧ i < 64 * p + n := by omega
    rw [if_pos hword, hop, hmask, hat]
    simp only [decide_eq_true_eq, hiff]
  · have hout : ¬ (64 * p + j ≤ i ∧ i < 64 * p + n) := by omega
    rw [if_neg hword, if_neg hout]

/-- The bits left under both masks of a range that begins and ends in one word. -/
theorem getLsbD_lastMask {p j nr : Nat} (hnr : 0 < nr) (hlt : j + nr < 64) (i : Nat) :
    (BitVec.allOnes 64 <<< j &&& bitmapLastWordMask (64 * p + j + nr)).getLsbD i =
      decide (j ≤ i ∧ i < j + nr) := by
  have hshift : (-((64 * p + j + nr : Nat) : Int) % 64).toNat = 64 - (j + nr) := by omega
  rw [bitmapLastWordMask, hshift, BitVec.getLsbD_and, getLsbD_highMask,
    getLsbD_lowMask (Nat.le_of_lt hlt), ← Bool.decide_and]
  congr 1
  exact propext (by omega)

/-- The loop and the last word put `b` on the rest of the range: it starts at the
mask of the current word. -/
theorem bitsOf_maskLoop (hop : PutsMask op b) (fuel : Nat) (r : MaskRun) {j : Nat}
    (hfuel : r.nr ≤ fuel) (hj : j < 64) (hbits : r.bits = 64 - j)
    (hmask : r.mask = BitVec.allOnes 64 <<< j) (i : Nat) :
    bitsOf (maskLast op (64 * r.p + j + r.nr) (maskLoop op fuel r)) i =
      if 64 * r.p + j ≤ i ∧ i < 64 * r.p + j + r.nr then b else bitsOf r.map i := by
  induction fuel generalizing r j with
  | zero =>
      have hnr : r.nr = 0 := by omega
      have hout : ¬ (64 * r.p + j ≤ i ∧ i < 64 * r.p + j + 0) := by omega
      rw [maskLoop, maskLast, hnr, if_neg (by simp), if_neg hout]
  | succ fuel ih =>
      rw [maskLoop]
      by_cases hle : r.bits ≤ r.nr
      · -- the mask covers the rest of the word
        rw [if_pos hle]
        have hend : 64 * r.p + j + r.nr = 64 * (r.p + 1) + 0 + (r.nr - r.bits) := by omega
        have hones : BitVec.allOnes 64 = BitVec.allOnes 64 <<< 0 := by simp
        have hnext := ih
          { map := Function.update r.map r.p (op (r.map r.p) r.mask)
            p := r.p + 1
            nr := r.nr - r.bits
            bits := 64
            mask := BitVec.allOnes 64 }
          (j := 0) (by simp only; omega) (by omega) rfl hones
        have hput := bitsOf_putMask hop r.map r.p r.mask (Nat.le_refl 64)
          (fun i => by rw [hmask, getLsbD_highMask]) i
        rw [hend, hnext]
        simp only [hput]
        split_ifs <;> first | rfl | omega
      · rw [if_neg hle, maskLast]
        by_cases hnr : r.nr = 0
        · have hout : ¬ (64 * r.p + j ≤ i ∧ i < 64 * r.p + j + 0) := by omega
          rw [hnr, if_neg (by simp), if_neg hout]
        · rw [if_pos hnr, hmask, bitsOf_putMask hop r.map r.p _ (show j + r.nr ≤ 64 by omega)
            (getLsbD_lastMask (by omega) (by omega)) i, ← Nat.add_assoc]

/-- Masking the words of a range puts `b` on the bits of the range. -/
theorem bitsOf_maskRange (hop : PutsMask op b) (map : Words) (start nr : Nat) :
    bitsOf (maskRange op map start nr) = setBits (bitsOf map) start nr b := by
  funext i
  have hstart : 64 * (start / 64) + start % 64 = start := by omega
  have hloop := bitsOf_maskLoop hop nr
    ⟨map, start / 64, nr, 64 - start % 64, bitmapFirstWordMask start⟩
    (Nat.le_refl nr) (Nat.mod_lt start (by omega)) rfl rfl i
  rw [hstart] at hloop
  rw [maskRange, hloop, setBits]

end Mask

/-- **bitmap_set** sets the bits of its range and no others. -/
theorem bitsOf_bitmapSetWords (map : Words) (start nr : Nat) :
    bitsOf (bitmapSetWords map start nr) = setBits (bitsOf map) start nr true :=
  bitsOf_maskRange putsMask_or map start nr

/-- **bitmap_clear** clears the bits of its range and no others. -/
theorem bitsOf_bitmapClearWords (map : Words) (start nr : Nat) :
    bitsOf (bitmapClearWords map start nr) = setBits (bitsOf map) start nr false :=
  bitsOf_maskRange putsMask_andNot map start nr

/-! ## find_next_bit -/

/-- The variables `p`, `result` and `size` of `find_next_bit`. -/
structure ScanRun where
  p : Nat
  result : Nat
  size : Nat

/-- `found_middle`. -/
def foundMiddle (tmp : BitVec 64) (result : Nat) : Nat := result + tmp.ctz.toNat

/-- `found_first`: what is left of the range ends in the word. -/
def foundFirst (tmp : BitVec 64) (result size : Nat) : Nat :=
  let tmp := tmp &&& (BitVec.allOnes 64 >>> (64 - size))
  if tmp = 0#64 then result + size else foundMiddle tmp result

/-- The rest after the loops. -/
def scanLast (addr : Words) (r : ScanRun) : Nat :=
  if r.size = 0 then r.result else foundFirst (addr r.p) r.result r.size

/-- `while (size >= BITS_PER_LONG)`. -/
def scanWords (addr : Words) : Nat → ScanRun → Nat
  | 0, r => scanLast addr r
  | fuel + 1, r =>
    if 64 ≤ r.size then
      if addr r.p ≠ 0#64 then foundMiddle (addr r.p) r.result
      else scanWords addr fuel ⟨r.p + 1, r.result + 64, r.size - 64⟩
    else
      scanLast addr r

/-- `while (size >= 4*BITS_PER_LONG)`: four words at a time, as long as all of
them are zero. -/
def scanFours (addr : Words) : Nat → ScanRun → Nat
  | 0, r => scanWords addr r.size r
  | fuel + 1, r =>
    if 4 * 64 ≤ r.size then
      if addr r.p ≠ 0#64 then foundMiddle (addr r.p) r.result
      else if addr (r.p + 1) ||| addr (r.p + 2) ||| addr (r.p + 3) ≠ 0#64 then
        scanWords addr r.size r
      else
        scanFours addr fuel ⟨r.p + 4, r.result + 4 * 64, r.size - 4 * 64⟩
    else
      scanWords addr r.size r

/-- `find_next_bit`. -/
def findNextBitWords (addr : Words) (size offset : Nat) : Nat :=
  let p := offset / 64
  let result := 64 * (offset / 64)
  if size ≤ offset then
    size
  else
    let size := size - result
    let offset := offset % 64
    if offset ≠ 0 then
      let tmp := addr p &&& (BitVec.allOnes 64 <<< offset)
      if size < 64 then
        foundFirst tmp result size
      else if tmp ≠ 0#64 then
        foundMiddle tmp result
      else
        scanFours addr size ⟨p + 1, result + 64, size - 64⟩
    else
      scanFours addr size ⟨p, result, size⟩

section Scan

variable {w : Words} {p size : Nat}

/-- An unmasked word is masked from its first bit on. -/
theorem getLsbD_unmasked (v : BitVec 64) (i : Nat) :
    v.getLsbD i = (decide (0 ≤ i ∧ i < 64) && v.getLsbD i) := by
  by_cases hi : i < 64
  · simp [hi]
  · rw [BitVec.getLsbD_of_ge v i (Nat.le_of_not_lt hi), Bool.and_false]

/-- A word that is not zero holds the first bit. -/
theorem isFirst_word (hword : w p ≠ 0#64) (hsize : 64 ≤ size) :
    IsFirst (bitsOf w) (64 * p + size) (64 * p) (foundMiddle (w p) (64 * p)) :=
  isFirst_of_masked hword (Nat.le_refl 64) (by omega) (getLsbD_unmasked (w p))

/-- No bit is set in a word that is zero. -/
theorem bitsOf_of_word_zero (hword : w p = 0#64) :
    ∀ i, 64 * p ≤ i → i < 64 * p + 64 → bitsOf w i = false :=
  bitsOf_of_masked_zero hword (Nat.le_refl 64) (getLsbD_unmasked (w p))

theorem isFirst_foundFirst {tmp : BitVec 64} {j : Nat} (hsize : size ≤ 64)
    (hbits : ∀ i, tmp.getLsbD i = (decide (j ≤ i ∧ i < 64) && (w p).getLsbD i)) :
    IsFirst (bitsOf w) (64 * p + size) (64 * p + j) (foundFirst tmp (64 * p) size) := by
  have hmasked : ∀ i, (tmp &&& (BitVec.allOnes 64 >>> (64 - size))).getLsbD i =
      (decide (j ≤ i ∧ i < size) && (w p).getLsbD i) := by
    intro i
    have hiff : ((j ≤ i ∧ i < 64) ∧ i < size) ↔ (j ≤ i ∧ i < size) := by omega
    rw [BitVec.getLsbD_and, hbits, getLsbD_lowMask hsize, Bool.and_right_comm, ← Bool.decide_and]
    simp only [hiff]
  rw [foundFirst]
  by_cases htmp : tmp &&& (BitVec.allOnes 64 >>> (64 - size)) = 0#64
  · rw [if_pos htmp]
    exact IsFirst.of_none (bitsOf_of_masked_zero htmp hsize hmasked)
  · rw [if_neg htmp]
    exact isFirst_of_masked htmp hsize (Nat.le_refl _) hmasked

theorem isFirst_scanLast (hsize : size < 64) :
    IsFirst (bitsOf w) (64 * p + size) (64 * p) (scanLast w ⟨p, 64 * p, size⟩) := by
  rw [scanLast]
  by_cases hzero : size = 0
  · rw [if_pos hzero, hzero]
    exact IsFirst.of_empty (Nat.le_refl _)
  · rw [if_neg hzero]
    exact isFirst_foundFirst (Nat.le_of_lt hsize) (getLsbD_unmasked (w p))

/-- The scan word by word. -/
theorem isFirst_scanWords (fuel : Nat) (hfuel : size ≤ fuel) :
    IsFirst (bitsOf w) (64 * p + size) (64 * p) (scanWords w fuel ⟨p, 64 * p, size⟩) := by
  induction fuel generalizing p size with
  | zero => exact isFirst_scanLast (by omega)
  | succ fuel ih =>
      rw [scanWords]
      by_cases hsize : 64 ≤ size
      · rw [if_pos hsize]
        by_cases hword : w p ≠ 0#64
        · rw [if_pos hword]
          exact isFirst_word hword hsize
        · rw [if_neg hword]
          have hrest := @ih (p + 1) (size - 64) (by omega)
          rw [show 64 * (p + 1) + (size - 64) = 64 * p + size by omega] at hrest
          exact hrest.skip (bitsOf_of_word_zero (not_not.mp hword)) (by omega)
      · rw [if_neg hsize]
        exact isFirst_scanLast (by omega)

/-- The scan four words at a time. -/
theorem isFirst_scanFours (fuel : Nat) (hfuel : size ≤ fuel) :
    IsFirst (bitsOf w) (64 * p + size) (64 * p) (scanFours w fuel ⟨p, 64 * p, size⟩) := by
  induction fuel generalizing p size with
  | zero => exact isFirst_scanWords _ (Nat.le_refl _)
  | succ fuel ih =>
      rw [scanFours]
      by_cases hsize : 4 * 64 ≤ size
      · rw [if_pos hsize]
        by_cases hword : w p ≠ 0#64
        · rw [if_pos hword]
          exact isFirst_word hword (by omega)
        · rw [if_neg hword]
          by_cases hmore : w (p + 1) ||| w (p + 2) ||| w (p + 3) ≠ 0#64
          · rw [if_pos hmore]
            exact isFirst_scanWords _ (Nat.le_refl _)
          · rw [if_neg hmore]
            have hzero := not_not.mp hmore
            rw [BitVec.or_eq_zero_iff, BitVec.or_eq_zero_iff] at hzero
            obtain ⟨⟨h₁, h₂⟩, h₃⟩ := hzero
            have hrest := @ih (p + 4) (size - 4 * 64) (by omega)
            rw [show 64 * (p + 4) + (size - 4 * 64) = 64 * p + size by omega] at hrest
            refine hrest.skip (fun i hle hlt => ?_) (by omega)
            have hcases : i < 64 * p + 64 ∨ i / 64 = p + 1 ∨ i / 64 = p + 2 ∨ i / 64 = p + 3 := by
              omega
            obtain hi | hi | hi | hi := hcases
            · exact bitsOf_of_word_zero (not_not.mp hword) i hle hi
            · exact bitsOf_of_word_zero h₁ i (by omega) (by omega)
            · exact bitsOf_of_word_zero h₂ i (by omega) (by omega)
            · exact bitsOf_of_word_zero h₃ i (by omega) (by omega)
      · rw [if_neg hsize]
        exact isFirst_scanWords _ (Nat.le_refl _)

/-- `find_next_bit` finds the first bit that is set. -/
theorem isFirst_findNextBitWords (w : Words) (size offset : Nat) :
    IsFirst (bitsOf w) size offset (findNextBitWords w size offset) := by
  rw [findNextBitWords]
  by_cases hempty : size ≤ offset
  · rw [if_pos hempty]
    exact IsFirst.of_empty hempty
  · rw [if_neg hempty]
    have hoff : 64 * (offset / 64) + offset % 64 = offset := by omega
    have hend : 64 * (offset / 64) + (size - 64 * (offset / 64)) = size := by omega
    have hscan := @isFirst_scanFours w (offset / 64) _ _ (Nat.le_refl (size - 64 * (offset / 64)))
    rw [hend] at hscan
    by_cases hzero : offset % 64 = 0
    · have hstart : 64 * (offset / 64) = offset := by omega
      rw [if_neg (not_not.mpr hzero)]
      exact hscan.skip (fun i hle hlt => absurd hlt (by omega)) (Nat.le_of_eq hstart.symm)
    · -- the bits below the offset are masked out of the first word
      have hbits : ∀ i, (w (offset / 64) &&& (BitVec.allOnes 64 <<< (offset % 64))).getLsbD i =
          (decide (offset % 64 ≤ i ∧ i < 64) && (w (offset / 64)).getLsbD i) := by
        intro i
        rw [BitVec.getLsbD_and, getLsbD_highMask, Bool.and_comm]
      rw [if_pos hzero]
      by_cases hsize : size - 64 * (offset / 64) < 64
      · rw [if_pos hsize]
        have hfound := isFirst_foundFirst (Nat.le_of_lt hsize) hbits
        rwa [hend, hoff] at hfound
      · rw [if_neg hsize]
        by_cases htmp : w (offset / 64) &&& (BitVec.allOnes 64 <<< (offset % 64)) ≠ 0#64
        · rw [if_pos htmp]
          have hle : 64 * (offset / 64) + 64 ≤ size := by omega
          have hfound := isFirst_of_masked htmp (Nat.le_refl 64) hle hbits
          rwa [hoff] at hfound
        · rw [if_neg htmp]
          have hnone := bitsOf_of_masked_zero (not_not.mp htmp) (Nat.le_refl 64) hbits
          rw [hoff] at hnone
          have hrest := @isFirst_scanFours w (offset / 64 + 1) (size - 64 * (offset / 64) - 64)
            (size - 64 * (offset / 64)) (by omega)
          rw [show 64 * (offset / 64 + 1) + (size - 64 * (offset / 64) - 64) = size by omega] at hrest
          exact hrest.skip (fun i hle hlt => hnone i hle (by omega)) (by omega)

/-- The bit that the handlers see. -/
theorem isFirst_nextBit (map : Nat → Bool) (size offset : Nat) :
    IsFirst map size offset (nextBit map size offset) := by
  rw [nextBit]
  cases hfind : (List.range' offset (size - offset)).find? map with
  | none =>
      refine IsFirst.of_none fun i hle hlt => ?_
      have hnot := List.find?_range'_eq_none.mp hfind i hle (by omega)
      simpa using hnot
  | some r =>
      obtain ⟨hset, hmem, hbefore⟩ := List.find?_range'_eq_some.mp hfind
      rw [List.mem_range'_1] at hmem
      refine ⟨by simp only [Option.getD_some]; omega, fun i hle hlt => ?_, fun _ => ⟨hmem.1, hset⟩⟩
      simpa using hbefore i hle hlt

/-- **find_next_bit** returns the bit that the handlers see. -/
theorem findNextBitWords_eq (w : Words) (size offset : Nat) :
    findNextBitWords w size offset = nextBit (bitsOf w) size offset :=
  (isFirst_findNextBitWords w size offset).unique (isFirst_nextBit (bitsOf w) size offset)

end Scan

end Femu.Nvme

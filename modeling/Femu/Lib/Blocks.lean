import Mathlib.Algebra.BigOperators.Ring.List
import Mathlib.Algebra.Ring.Nat
import Mathlib.Tactic.Common

/-!
# Femu.Lib.Blocks

A sequence cut into blocks of given lengths.

* `BlockAt lens p j k` — place `p` of the sequence is place `k` of block `j`;
* `flatten_eq_iff` — two lists cut in different ways are equal if and only if they agree
  at each place;
* `pieces len n xs` — the first `n` blocks of one length of a list;
* `BlockAt.start` — where all blocks but the last are a multiple of a length, so is the
  distance of a block from the start.
-/

namespace Femu.Lib

variable {α : Type}

/-- Place `p` of blocks of the given lengths is place `k` of block `j`. -/
def BlockAt (lens : List Nat) (p j k : Nat) : Prop :=
  ∃ len, lens[j]? = some len ∧ k < len ∧ p = (lens.take j).sum + k

@[simp] theorem blockAt_cons_zero {len : Nat} {lens : List Nat} {p k : Nat} :
    BlockAt (len :: lens) p 0 k ↔ k < len ∧ p = k := by
  simp [BlockAt]

@[simp] theorem blockAt_cons_succ {len : Nat} {lens : List Nat} {p j k : Nat} :
    BlockAt (len :: lens) p (j + 1) k ↔ ∃ q, p = len + q ∧ BlockAt lens q j k := by
  constructor
  case mp =>
    intro h
    obtain ⟨l, hl, hk, hp⟩ := h
    refine ⟨(lens.take j).sum + k, ?_, l, ?_, hk, rfl⟩
    · rw [hp, List.take_succ_cons, List.sum_cons, Nat.add_assoc]
    · simpa using hl
  case mpr =>
    intro h
    obtain ⟨q, hp, l, hl, hk, hq⟩ := h
    refine ⟨l, by simpa using hl, hk, ?_⟩
    rw [hp, hq, List.take_succ_cons, List.sum_cons, Nat.add_assoc]

/-- Every place is in a block. -/
theorem exists_blockAt {lens : List Nat} {p : Nat} (h : p < lens.sum) :
    ∃ j k, BlockAt lens p j k := by
  induction lens generalizing p with
  | nil => simp at h
  | cons len lens ih =>
      rw [List.sum_cons] at h
      by_cases hp : p < len
      case pos => exact ⟨0, p, blockAt_cons_zero.mpr ⟨hp, rfl⟩⟩
      case neg =>
        obtain ⟨j, k, hjk⟩ := ih (show p - len < lens.sum by omega)
        exact ⟨j + 1, k, blockAt_cons_succ.mpr ⟨p - len, by omega, hjk⟩⟩

/-- The places of blocks of one length. -/
theorem blockAt_replicate {n len p i r : Nat} :
    BlockAt (List.replicate n len) p i r ↔ i < n ∧ r < len ∧ p = i * len + r := by
  simp only [BlockAt, List.getElem?_replicate, List.take_replicate, List.sum_replicate_nat]
  constructor
  case mp =>
    intro h
    obtain ⟨l, hl, hr, hp⟩ := h
    split at hl
    case isTrue hi =>
      cases hl
      rw [Nat.min_eq_left (by omega)] at hp
      exact ⟨hi, hr, hp⟩
    case isFalse => contradiction
  case mpr =>
    intro h
    obtain ⟨hi, hr, hp⟩ := h
    refine ⟨len, if_pos hi, hr, ?_⟩
    rw [Nat.min_eq_left (by omega)]
    exact hp

/-- A place of a list is the same place of its block. -/
theorem getElem?_flatten_of_blockAt {xss : List (List α)} {p j k : Nat}
    (h : BlockAt (xss.map List.length) p j k) : xss.flatten[p]? = xss[j]?.bind fun xs => xs[k]? := by
  induction xss generalizing p j with
  | nil =>
      obtain ⟨l, hl, -⟩ := h
      simp at hl
  | cons xs xss ih =>
      rw [List.map_cons] at h
      rw [List.flatten_cons]
      cases j with
      | zero =>
          obtain ⟨hk, rfl⟩ := blockAt_cons_zero.mp h
          simp [List.getElem?_append_left hk]
      | succ j =>
          obtain ⟨q, rfl, hq⟩ := blockAt_cons_succ.mp h
          rw [List.getElem?_append_right (by omega), Nat.add_sub_cancel_left, ih hq]
          simp

/-- Two lists of one length are equal if and only if they have the same elements at each
place, whatever the blocks in which they are cut. -/
theorem flatten_eq_iff {xss yss : List (List α)}
    (hsum : (xss.map List.length).sum = (yss.map List.length).sum) :
    xss.flatten = yss.flatten ↔
      ∀ p j k i r, BlockAt (xss.map List.length) p j k → BlockAt (yss.map List.length) p i r →
        (xss[j]?.bind fun xs => xs[k]?) = yss[i]?.bind fun ys => ys[r]? := by
  constructor
  case mp =>
    intro h p j k i r hx hy
    rw [← getElem?_flatten_of_blockAt hx, ← getElem?_flatten_of_blockAt hy, h]
  case mpr =>
    intro h
    refine List.ext_getElem? fun p => ?_
    by_cases hp : p < (xss.map List.length).sum
    case pos =>
      obtain ⟨j, k, hx⟩ := exists_blockAt hp
      obtain ⟨i, r, hy⟩ := exists_blockAt (hsum ▸ hp)
      rw [getElem?_flatten_of_blockAt hx, getElem?_flatten_of_blockAt hy, h p j k i r hx hy]
    case neg =>
      have hp' : ¬ p < (yss.map List.length).sum := hsum ▸ hp
      rw [List.getElem?_eq_none (by rw [List.length_flatten]; omega),
        List.getElem?_eq_none (by rw [List.length_flatten]; omega)]

/-! ## blocks of one length -/

/-- Cut `n` pieces of length `len` from the front of a list. -/
def pieces (len : Nat) : Nat → List α → List (List α)
  | 0, _ => []
  | n + 1, xs => xs.take len :: pieces len n (xs.drop len)

@[simp] theorem length_pieces (len n : Nat) (xs : List α) : (pieces len n xs).length = n := by
  induction n generalizing xs with
  | zero => rfl
  | succ n ih => rw [pieces, List.length_cons, ih]

theorem length_of_mem_pieces {len n : Nat} {xs : List α} (hlen : n * len ≤ xs.length) :
    ∀ p ∈ pieces len n xs, p.length = len := by
  induction n generalizing xs with
  | zero => simp [pieces]
  | succ n ih =>
      rw [Nat.add_mul, Nat.one_mul] at hlen
      refine List.forall_mem_cons.mpr ⟨?_, ih ?_⟩
      · rw [List.length_take]
        omega
      · rw [List.length_drop]
        omega

/-- The pieces of blocks that are put together are the blocks. -/
theorem pieces_flatMap {β : Type} {len : Nat} {as : List β} {f : β → List α}
    (hf : ∀ a ∈ as, (f a).length = len) : pieces len as.length (as.flatMap f) = as.map f := by
  induction as with
  | nil => rfl
  | cons a as ih =>
      obtain ⟨ha, has⟩ := List.forall_mem_cons.mp hf
      rw [List.length_cons, pieces, List.flatMap_cons, List.take_left' ha, List.drop_left' ha,
        ih has, List.map_cons]

/-! ## where blocks start -/

/-- Where all blocks but the last are multiples of a length, so is the start of a block. -/
theorem dvd_sum_take {lens : List Nat} {len j : Nat} (h : ∀ l ∈ lens.dropLast, len ∣ l)
    (hj : j < lens.length) : len ∣ (lens.take j).sum := by
  refine List.dvd_sum fun l hl => h l ?_
  rw [List.dropLast_eq_take]
  exact (List.take_sublist_take_left (by omega)).subset hl

/-- A stretch of such a length that starts at a multiple of it lies in one block. -/
theorem BlockAt.start {lens : List Nat} {len i r j k : Nat} (h : ∀ l ∈ lens.dropLast, len ∣ l)
    (hat : BlockAt lens (i * len + r) j k) (hr : r < len) :
    r ≤ k ∧ BlockAt lens (i * len) j (k - r) := by
  obtain ⟨l, hl, hk, hp⟩ := hat
  obtain ⟨a, ha⟩ := dvd_sum_take h (List.getElem?_eq_some_iff.mp hl).1
  rw [ha, Nat.mul_comm len a] at hp
  have hle : a ≤ i := by
    by_contra hlt
    have := Nat.mul_le_mul_right len (show i + 1 ≤ a by omega)
    rw [Nat.add_mul] at this
    omega
  have hmul := Nat.mul_le_mul_right len hle
  refine ⟨by omega, l, hl, by omega, ?_⟩
  rw [ha, Nat.mul_comm len a]
  omega

end Femu.Lib

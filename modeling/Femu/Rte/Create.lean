import Mathlib.Data.Nat.Size
import Mathlib.Order.Bounds.Basic
import Femu.Rte.Ring

/-!
# Femu.Rte.Create

`rte_ring_create`: the sizes of a ring. The masks of the slots and the differences of the
cursors need a size that is a power of two with room for one slot more than the
capacity (`RteRing.WellFormed`). Two kinds of sizes pass the check of
`rte_ring_get_memsize` without that: an empty ring, and an exact size that
`rte_align32pow2` rounds up to `2^32`, that is, to 0.
-/

namespace Femu.Rte

/-! ## the functions -/

/-- `POWEROF2`. -/
def powerOf2 (x : UInt32) : Bool := ((x - 1) &&& x) == 0

/-- `rte_align32pow2`. -/
def rteAlign32pow2 (x : UInt32) : UInt32 :=
  let x := x - 1
  let x := x ||| x >>> 1
  let x := x ||| x >>> 2
  let x := x ||| x >>> 4
  let x := x ||| x >>> 8
  let x := x ||| x >>> 16
  x + 1

def ringFSpEnq : UInt32 := 0x0001
def ringFScDeq : UInt32 := 0x0002
def ringFExactSz : UInt32 := 0x0004
def rteRingSzMask : UInt32 := 0x0fffffff

/-- `sizeof(struct rte_ring)`. -/
def sizeofRteRing : Nat := 296

/-- `rte_ring_get_memsize`. -/
def rteRingGetMemsize (count : UInt32) : Option Nat :=
  if powerOf2 count = false ∨ count > rteRingSzMask then none
  else some (sizeofRteRing + count.toNat * 8)

/-- `rte_ring_init`, with its return value, on memory that holds `mem` behind the ring. -/
def rteRingInit {α : Type} (mem : Nat → α) (count flags : UInt32) : Int × RteRing α :=
  let r : RteRing α :=
    { size := 0, mask := 0, capacity := 0
      prod := ⟨0, 0, flags &&& ringFSpEnq ≠ 0⟩
      cons := ⟨0, 0, flags &&& ringFScDeq ≠ 0⟩
      ring := mem }
  if flags &&& ringFExactSz ≠ 0 then
    let size := rteAlign32pow2 (count + 1)
    (0, { r with size := size, mask := size - 1, capacity := count })
  else if powerOf2 count = false ∨ count > rteRingSzMask then
    (-22, r)
  else
    (0, { r with size := count, mask := count - 1, capacity := count - 1 })

/-- `rte_ring_create`. What `rte_ring_init` returns is not looked at. -/
def rteRingCreate {α : Type} (mem : Nat → α) (count flags : UInt32) : Option (RteRing α) :=
  (rteRingGetMemsize
    (if flags &&& ringFExactSz ≠ 0 then rteAlign32pow2 (count + 1) else count)).map
    fun _ => (rteRingInit mem count flags).2

/-- `enum femu_ring_type`. -/
inductive FemuRingType
  | spSc
  | mpSc
  | mpMc
deriving DecidableEq

/-- The flags of a type. -/
def FemuRingType.flags : FemuRingType → UInt32
  | .spSc => ringFSpEnq ||| ringFScDeq
  | .mpSc => ringFScDeq
  | .mpMc => 0

/-- `femu_ring_create`, whose count is a `size_t`. -/
def femuRingCreate {α : Type} (mem : Nat → α) (type : FemuRingType) (count : UInt64) :
    Option (RteRing α) :=
  rteRingCreate mem count.toUInt32 type.flags

/-- `FEMU_MAX_INF_REQS`. -/
def femuMaxInfReqs : UInt64 := 65536

/-- A ring that works: the size is a power of two above the capacity. -/
structure RteRing.WellFormed {α : Type} (r : RteRing α) : Prop where
  size_eq : ∃ e ≤ 31, r.size.toNat = 2 ^ e
  mask_eq : r.mask = r.size - 1
  capacity_lt : r.capacity.toNat < r.size.toNat

/-! ## powers of two -/

/-- The bits of `z` are those at which `y` has one of its next `k` bits. -/
def Smeared (k y z : Nat) : Prop := ∀ i, z.testBit i = true ↔ ∃ d < k, y.testBit (i + d) = true

theorem smeared_one (y : Nat) : Smeared 1 y y := by
  intro i
  constructor
  · exact fun h => ⟨0, Nat.one_pos, h⟩
  · rintro ⟨d, hd, h⟩
    obtain rfl : d = 0 := by omega
    exact h

/-- Shifting by `k` and joining doubles the reach. -/
theorem Smeared.double {k y z : Nat} (h : Smeared k y z) : Smeared (k + k) y (z ||| z >>> k) := by
  intro i
  rw [Nat.testBit_or, Nat.testBit_shiftRight, Bool.or_eq_true, h i, h (k + i)]
  constructor
  · rintro (⟨d, hd, hbit⟩ | ⟨d, hd, hbit⟩)
    · exact ⟨d, by omega, hbit⟩
    · refine ⟨k + d, by omega, ?_⟩
      rwa [show i + (k + d) = k + i + d by omega]
  · rintro ⟨d, hd, hbit⟩
    by_cases hdk : d < k
    · exact .inl ⟨d, hdk, hbit⟩
    · refine .inr ⟨d - k, by omega, ?_⟩
      rwa [show k + i + (d - k) = i + d by omega]

/-- Once the reach is the width, all bits below the highest one are set. -/
theorem Smeared.eq {w y z : Nat} (h : Smeared w y z) (hy : y < 2 ^ w) : z = 2 ^ y.size - 1 := by
  apply Nat.eq_of_testBit_eq
  intro i
  rw [Nat.testBit_two_pow_sub_one, Bool.eq_iff_iff, h i, decide_eq_true_iff, Nat.lt_size]
  constructor
  · rintro ⟨d, -, hbit⟩
    exact Nat.le_trans (Nat.pow_le_pow_right Nat.two_pos (Nat.le_add_right i d))
      (Nat.ge_two_pow_of_testBit hbit)
  · intro hle
    obtain ⟨j, hj, hbit⟩ := Nat.exists_ge_and_testBit_of_ge_two_pow hle
    have hjw : j < w := by
      by_contra hge
      have hlt := Nat.ge_two_pow_of_testBit hbit
      have hpow : 2 ^ w ≤ 2 ^ j := Nat.pow_le_pow_right Nat.two_pos (Nat.not_lt.mp hge)
      omega
    refine ⟨j - i, by omega, ?_⟩
    rwa [Nat.add_sub_cancel' hj]

theorem toNat_or_shiftRight (x : UInt32) {k : Nat} (hk : k < 32) :
    (x ||| x >>> .ofNat k).toNat = x.toNat ||| x.toNat >>> k := by
  rw [UInt32.toNat_or, UInt32.toNat_shiftRight, UInt32.toNat_ofNat', Nat.mod_mod_of_dvd _ (by decide),
    Nat.mod_eq_of_lt hk]

/-- **The next power of two**, for everything that has one of 32 bits; 0 for the rest. -/
theorem toNat_rteAlign32pow2 (x : UInt32) :
    (rteAlign32pow2 x).toNat = 2 ^ (x - 1).toNat.size % 2 ^ 32 := by
  have hy : (x - 1).toNat < 2 ^ 32 := (x - 1).toNat_lt
  have h1 := (smeared_one (x - 1).toNat).double
  rw [← toNat_or_shiftRight _ (by decide)] at h1
  have h2 := h1.double
  rw [← toNat_or_shiftRight _ (by decide)] at h2
  have h4 := h2.double
  rw [← toNat_or_shiftRight _ (by decide)] at h4
  have h8 := h4.double
  rw [← toNat_or_shiftRight _ (by decide)] at h8
  have h16 := h8.double
  rw [← toNat_or_shiftRight _ (by decide)] at h16
  have hlast := h16.eq hy
  have hpos : 0 < 2 ^ (x - 1).toNat.size := Nat.two_pow_pos _
  have hsum : ∀ z : UInt32, z.toNat = 2 ^ (x - 1).toNat.size - 1 →
      (z + 1).toNat = 2 ^ (x - 1).toNat.size % 2 ^ 32 := by
    intro z hz
    rw [UInt32.toNat_add, hz, show (1 : UInt32).toNat = 1 from rfl, Nat.sub_add_cancel hpos]
  exact hsum _ hlast

/-! ## what is created -/

theorem toNat_sub_one {x : UInt32} (h : x.toNat ≠ 0) : (x - 1).toNat = x.toNat - 1 := by
  have hlt := x.toNat_lt
  rw [UInt32.toNat_sub, show (1 : UInt32).toNat = 1 from rfl]
  omega

theorem powerOf2_iff (x : UInt32) : powerOf2 x = true ↔ x.toNat = 0 ∨ ∃ e, x.toNat = 2 ^ e := by
  unfold powerOf2
  rw [beq_iff_eq, ← UInt32.toNat_inj, UInt32.toNat_and, show (0 : UInt32).toNat = 0 from rfl]
  by_cases hx : x.toNat = 0
  · simp [hx]
  · rw [toNat_sub_one hx, Nat.and_comm, Nat.and_sub_one_eq_zero_iff_isPowerOfTwo hx]
    exact ⟨.inr, fun h => h.resolve_left hx⟩

theorem memsize_isSome (x : UInt32) :
    (rteRingGetMemsize x).isSome = true ↔ x.toNat = 0 ∨ ∃ e ≤ 27, x.toNat = 2 ^ e := by
  have hle : ¬ x > rteRingSzMask ↔ x.toNat < 2 ^ 28 := by
    rw [gt_iff_lt, UInt32.lt_iff_toNat_lt, show rteRingSzMask.toNat = 2 ^ 28 - 1 from rfl]
    omega
  have hacc : (rteRingGetMemsize x).isSome = true ↔ powerOf2 x = true ∧ x.toNat < 2 ^ 28 := by
    unfold rteRingGetMemsize
    rw [← hle]
    split
    case isTrue h => simp only [Option.isSome_none, Bool.false_eq_true, false_iff]; grind
    case isFalse h => simp only [Option.isSome_some, true_iff]; grind
  rw [hacc, powerOf2_iff]
  constructor
  · rintro ⟨h0 | ⟨e, he⟩, hlt⟩
    · exact .inl h0
    · rw [he] at hlt
      exact .inr ⟨e, Nat.lt_succ_iff.mp ((Nat.pow_lt_pow_iff_right (by decide)).mp hlt), he⟩
  · rintro (h0 | ⟨e, he, hx⟩)
    · exact ⟨.inl h0, by omega⟩
    · have hpow : 2 ^ e ≤ 2 ^ 27 := Nat.pow_le_pow_right Nat.two_pos he
      exact ⟨.inr ⟨e, hx⟩, by omega⟩

/-- The count of a call of `rte_ring_create` is one that gives a ring that works. -/
def GoodCount (count flags : UInt32) : Prop :=
  if flags &&& ringFExactSz ≠ 0 then count.toNat < 2 ^ 27 else ∃ e ≤ 27, count.toNat = 2 ^ e

/-- It is one that gives a ring whose size is 0. -/
def BrokenCount (count flags : UInt32) : Prop :=
  if flags &&& ringFExactSz ≠ 0 then 2 ^ 31 ≤ count.toNat else count.toNat = 0

/-- A ring with nothing in it, of the capacity that was asked for and no larger than it
has to be. -/
structure RteRing.Fresh {α : Type} (r : RteRing α) (count flags : UInt32) : Prop where
  wellFormed : r.WellFormed
  capacity : r.capacity.toNat =
    if flags &&& ringFExactSz ≠ 0 then count.toNat else count.toNat - 1
  least : ∀ e, r.capacity.toNat < 2 ^ e → r.size.toNat ≤ 2 ^ e
  empty : ∀ d, (r.ht d).head = 0 ∧ (r.ht d).tail = 0

variable {α : Type} {mem : Nat → α} {count flags : UInt32}

/-- The size that an exact count is rounded up to. -/
theorem exact_size (count : UInt32) :
    (rteAlign32pow2 (count + 1)).toNat =
      if count.toNat < 2 ^ 31 then 2 ^ count.toNat.size else 0 := by
  rw [toNat_rteAlign32pow2, show count + 1 - 1 = count by simp]
  split
  case isTrue hlt =>
    have hsize : count.toNat.size ≤ 31 := Nat.size_le.mpr hlt
    have hpow : 2 ^ count.toNat.size ≤ 2 ^ 31 := Nat.pow_le_pow_right Nat.two_pos hsize
    exact Nat.mod_eq_of_lt (by omega)
  case isFalse hge =>
    have hle : count.toNat.size ≤ 32 := Nat.size_le.mpr count.toNat_lt
    have hlt : 31 < count.toNat.size := Nat.lt_size.mpr (Nat.not_lt.mp hge)
    rw [show count.toNat.size = 32 by omega, Nat.mod_self]

/-- A ring of an exact size. -/
theorem create_exact (hflags : flags &&& ringFExactSz ≠ 0) :
    rteRingCreate mem count flags =
      if count.toNat < 2 ^ 27 ∨ 2 ^ 31 ≤ count.toNat then some (rteRingInit mem count flags).2
      else none := by
  have hsome : (rteRingGetMemsize (rteAlign32pow2 (count + 1))).isSome = true ↔
      count.toNat < 2 ^ 27 ∨ 2 ^ 31 ≤ count.toNat := by
    rw [memsize_isSome, exact_size]
    by_cases hlt : count.toNat < 2 ^ 31
    · have hpos : 2 ^ count.toNat.size ≠ 0 := Nat.ne_of_gt (Nat.two_pow_pos _)
      have hpow : (∃ e ≤ 27, 2 ^ count.toNat.size = 2 ^ e) ↔ count.toNat < 2 ^ 27 := by
        rw [← Nat.size_le]
        constructor
        · rintro ⟨e, he, heq⟩
          rwa [Nat.pow_right_injective (Nat.le_refl 2) heq]
        · exact fun hle => ⟨_, hle, rfl⟩
      rw [if_pos hlt, hpow]
      exact ⟨fun h => .inl (h.resolve_left hpos), fun h => .inr (h.resolve_right (by omega))⟩
    · rw [if_neg hlt]
      exact ⟨fun _ => .inr (by omega), fun _ => .inl rfl⟩
  unfold rteRingCreate
  rw [if_pos hflags]
  split
  case isTrue h =>
    obtain ⟨sz, hsz⟩ := Option.isSome_iff_exists.mp (hsome.mpr h)
    rw [hsz, Option.map_some]
  case isFalse h =>
    rw [Option.not_isSome_iff_eq_none.mp fun hs => h (hsome.mp hs), Option.map_none]

/-- A ring of a given size. -/
theorem create_plain (hflags : ¬ flags &&& ringFExactSz ≠ 0) :
    rteRingCreate mem count flags =
      if (rteRingGetMemsize count).isSome = true then some (rteRingInit mem count flags).2
      else none := by
  unfold rteRingCreate
  rw [if_neg hflags]
  cases rteRingGetMemsize count <;> rfl

theorem init_empty (d : Side) :
    ((rteRingInit mem count flags).2.ht d).head = 0 ∧
      ((rteRingInit mem count flags).2.ht d).tail = 0 := by
  unfold rteRingInit
  cases d <;> simp only <;> split <;> (try split) <;> exact ⟨rfl, rfl⟩

/-- An exact size that is not rounded up to 0 is fresh. -/
theorem init_exact_fresh (hflags : flags &&& ringFExactSz ≠ 0) (hlt : count.toNat < 2 ^ 31) :
    (rteRingInit mem count flags).2.Fresh count flags := by
  have hsize := exact_size count
  rw [if_pos hlt] at hsize
  have hinit : (rteRingInit mem count flags).2.size = rteAlign32pow2 (count + 1) ∧
      (rteRingInit mem count flags).2.mask = rteAlign32pow2 (count + 1) - 1 ∧
      (rteRingInit mem count flags).2.capacity = count := by
    unfold rteRingInit
    rw [if_pos hflags]
    exact ⟨rfl, rfl, rfl⟩
  obtain ⟨hs, hm, hc⟩ := hinit
  refine ⟨⟨⟨_, Nat.size_le.mpr hlt, by rw [hs, hsize]⟩, by rw [hm, hs], ?_⟩, ?_, ?_, init_empty⟩
  · rw [hs, hc, hsize]
    exact Nat.lt_size_self _
  · rw [if_pos hflags, hc]
  · intro e he
    rw [hs, hsize]
    rw [hc] at he
    exact Nat.pow_le_pow_right Nat.two_pos (Nat.size_le.mpr he)

/-- A size that is a power of two is fresh. -/
theorem init_plain_fresh (hflags : ¬ flags &&& ringFExactSz ≠ 0) {e : Nat} (he : e ≤ 27)
    (hcount : count.toNat = 2 ^ e) : (rteRingInit mem count flags).2.Fresh count flags := by
  have hpos : 0 < 2 ^ e := Nat.two_pow_pos e
  have hpow : 2 ^ e ≤ 2 ^ 27 := Nat.pow_le_pow_right Nat.two_pos he
  have hsub := toNat_sub_one (x := count) (by omega)
  have hok : ¬ (powerOf2 count = false ∨ count > rteRingSzMask) := by
    rintro (h | h)
    · rw [(powerOf2_iff count).mpr (.inr ⟨e, hcount⟩)] at h
      cases h
    · rw [gt_iff_lt, UInt32.lt_iff_toNat_lt, show rteRingSzMask.toNat = 2 ^ 28 - 1 from rfl] at h
      omega
  have hinit : (rteRingInit mem count flags).2.size = count ∧
      (rteRingInit mem count flags).2.mask = count - 1 ∧
      (rteRingInit mem count flags).2.capacity = count - 1 := by
    unfold rteRingInit
    rw [if_neg hflags, if_neg hok]
    exact ⟨rfl, rfl, rfl⟩
  obtain ⟨hs, hm, hc⟩ := hinit
  refine ⟨⟨⟨e, by omega, by rw [hs, hcount]⟩, by rw [hm, hs], ?_⟩, ?_, ?_, init_empty⟩
  · rw [hs, hc, hsub]
    omega
  · rw [if_neg hflags, hc, hsub]
  · intro k hk
    rw [hc, hsub] at hk
    rw [hs]
    omega

/-- A ring that works has a size that is not 0. -/
theorem RteRing.WellFormed.size_pos {r : RteRing α} (h : r.WellFormed) : 0 < r.size.toNat := by
  obtain ⟨e, -, he⟩ := h.size_eq
  rw [he]
  exact Nat.two_pow_pos e

/-- A good count gives a fresh ring. -/
theorem create_fresh (h : GoodCount count flags) :
    ∃ r, rteRingCreate mem count flags = some r ∧ r.Fresh count flags := by
  unfold GoodCount at h
  split at h
  case isTrue hflags =>
    rw [create_exact hflags]
    exact ⟨_, if_pos (.inl h), init_exact_fresh hflags (by omega)⟩
  case isFalse hflags =>
    obtain ⟨e, he, hcount⟩ := h
    rw [create_plain hflags]
    have hsome := (memsize_isSome count).mpr (.inr ⟨e, he, hcount⟩)
    exact ⟨_, if_pos hsome, init_plain_fresh hflags he hcount⟩

/-- **Created rings**: a count gives a fresh ring exactly if it is good; of the others, the
broken ones get a ring of size 0 and the rest none. -/
theorem ring_created (mem : Nat → α) (count flags : UInt32) :
    (GoodCount count flags →
      ∃ r, rteRingCreate mem count flags = some r ∧ r.Fresh count flags) ∧
    (BrokenCount count flags →
      ∃ r, rteRingCreate mem count flags = some r ∧ r.size = 0 ∧ ¬ r.WellFormed) ∧
    (¬ GoodCount count flags → ¬ BrokenCount count flags →
      rteRingCreate mem count flags = none) := by
  refine ⟨create_fresh, ?_⟩
  unfold GoodCount BrokenCount
  by_cases hflags : flags &&& ringFExactSz ≠ 0
  · simp only [if_pos hflags, create_exact hflags]
    refine ⟨fun hbroken => ?_, fun hgood hbroken => ?_⟩
    · have hsize : (rteRingInit mem count flags).2.size = 0 := by
        rw [← UInt32.toNat_inj]
        unfold rteRingInit
        rw [if_pos hflags]
        exact (exact_size count).trans (if_neg (by omega))
      refine ⟨_, if_pos (.inr hbroken), hsize, fun hwf => ?_⟩
      have hpos := hwf.size_pos
      rw [hsize] at hpos
      exact absurd hpos (by decide)
    · exact if_neg (by omega)
  · simp only [if_neg hflags, create_plain hflags]
    refine ⟨fun hbroken => ?_, fun hgood hbroken => ?_⟩
    · obtain rfl : count = 0 := UInt32.toNat_inj.mp hbroken
      have hsome := (memsize_isSome 0).mpr (.inl rfl)
      have hsize : (rteRingInit mem 0 flags).2.size = 0 := by
        unfold rteRingInit
        rw [if_neg hflags]
        split <;> rfl
      refine ⟨_, if_pos hsome, hsize, fun hwf => ?_⟩
      have hpos := hwf.size_pos
      rw [hsize] at hpos
      exact absurd hpos (by decide)
    · refine if_neg fun hsome => ?_
      rcases (memsize_isSome count).mp hsome with h0 | hpow
      · exact hbroken h0
      · exact hgood hpow

/-- The rings of the pollers are fresh. -/
theorem femuRing_fresh (mem : Nat → α) (type : FemuRingType) :
    ∃ r, femuRingCreate mem type femuMaxInfReqs = some r ∧ r.Fresh 65536 type.flags := by
  refine create_fresh ?_
  unfold GoodCount
  cases type <;> rw [if_neg (by decide)] <;> exact ⟨16, by decide, rfl⟩

end Femu.Rte

import Mathlib.Logic.Function.Basic
import Mathlib.Tactic.Set

/-!
# Femu.Pqueue

The priority queue of `lib/pqueue.c`: a binary heap stored in an array whose
slot 0 is unused, over nodes that live elsewhere.  The queue reaches a node's
priority and its slot number only through the five callbacks of
`pqueue_init`, so the model threads the node store `σ` through every
operation and takes the callbacks as a record.

Memory is not modelled: `realloc` of the slot array is assumed to succeed, so
`avail` and `step` have no counterpart.

* `Placed` — every occupied slot's node records that slot;
* `Mem` — the nodes in the queue;
* `insert_spec`, `changePriority_spec`, `pop_spec` — what each operation does
  to both, and that it writes no other node's slot number.
-/

namespace Femu

/-- The callbacks given to `pqueue_init`. -/
structure PqueueOps (σ ν : Type) where
  cmppri : Nat → Nat → Bool
  getpri : σ → ν → Nat
  setpri : σ → ν → Nat → σ
  getpos : σ → ν → Nat
  setpos : σ → ν → Nat → σ

/-- What the callbacks owe the queue: slot numbers and priorities are two
independent fields of a node. -/
structure PqueueOps.Lawful {σ ν : Type} (o : PqueueOps σ ν) : Prop where
  getpos_setpos : ∀ st x p, o.getpos (o.setpos st x p) x = p
  getpos_setpos_ne : ∀ st x y p, y ≠ x → o.getpos (o.setpos st x p) y = o.getpos st y
  getpri_setpos : ∀ st x y p, o.getpri (o.setpos st x p) y = o.getpri st y
  getpos_setpri : ∀ st x y r, o.getpos (o.setpri st x r) y = o.getpos st y

/-- `pqueue_t`: `size` is one more than the number of nodes, since slot 0 is
not used. -/
structure Pqueue (ν : Type) where
  size : Nat
  d : Nat → ν

namespace Pqueue

variable {σ ν : Type}

/-- `q->d[i] = x`. -/
def set (q : Pqueue ν) (i : Nat) (x : ν) : Pqueue ν :=
  { q with d := Function.update q.d i x }

@[simp] theorem set_size (q : Pqueue ν) (i : Nat) (x : ν) : (q.set i x).size = q.size := rfl

@[simp] theorem set_d_self (q : Pqueue ν) (i : Nat) (x : ν) : (q.set i x).d i = x := by
  simp [set]

theorem set_d_ne (q : Pqueue ν) {i j : Nat} (x : ν) (h : j ≠ i) : (q.set i x).d j = q.d j := by
  simp [set, h]

/-! ## the operations -/

/-- `pqueue_init`: an empty queue. -/
def init [Inhabited ν] : Pqueue ν := ⟨1, fun _ => default⟩

/-- `pqueue_size`. -/
def count (q : Pqueue ν) : Nat := q.size - 1

/-- The loop of `bubble_up`: move parents of lower rank down until the hole
`i` is where a node of priority `movingPri` belongs. -/
def bubbleUpLoop (o : PqueueOps σ ν) (movingPri : Nat) (q : Pqueue ν) (st : σ) (i : Nat) :
    Pqueue ν × σ × Nat :=
  if 1 < i ∧ o.cmppri (o.getpri st (q.d (i / 2))) movingPri then
    bubbleUpLoop o movingPri (q.set i (q.d (i / 2))) (o.setpos st (q.d (i / 2)) i) (i / 2)
  else (q, st, i)
termination_by i
decreasing_by omega

/-- `bubble_up`. -/
def bubbleUp (o : PqueueOps σ ν) (q : Pqueue ν) (st : σ) (i : Nat) : Pqueue ν × σ :=
  let moving := q.d i
  let (q, st, i) := bubbleUpLoop o (o.getpri st moving) q st i
  (q.set i moving, o.setpos st moving i)

/-- `maxchild`: the child of `i` that ranks first, 0 if there is none. -/
def maxchild (o : PqueueOps σ ν) (q : Pqueue ν) (st : σ) (i : Nat) : Nat :=
  let child := 2 * i
  if q.size ≤ child then 0
  else if child + 1 < q.size ∧ o.cmppri (o.getpri st (q.d child)) (o.getpri st (q.d (child + 1)))
  then child + 1
  else child

theorem maxchild_cases (o : PqueueOps σ ν) (q : Pqueue ν) (st : σ) (i : Nat) :
    maxchild o q st i = 0 ∨ maxchild o q st i < q.size ∧
      (maxchild o q st i = 2 * i ∨ maxchild o q st i = 2 * i + 1) := by
  unfold maxchild
  grind

/-- The loop of `percolate_down`: move the first-ranked child up until the hole
`i` is where a node of priority `movingPri` belongs. -/
def percolateDownLoop (o : PqueueOps σ ν) (movingPri : Nat) (q : Pqueue ν) (st : σ) (i : Nat) :
    Pqueue ν × σ × Nat :=
  if maxchild o q st i ≠ 0 ∧ o.cmppri movingPri (o.getpri st (q.d (maxchild o q st i))) then
    percolateDownLoop o movingPri (q.set i (q.d (maxchild o q st i)))
      (o.setpos st (q.d (maxchild o q st i)) i) (maxchild o q st i)
  else (q, st, i)
termination_by q.size - i
decreasing_by
  have := maxchild_cases o q st i
  simp only [set_size]
  omega

/-- `percolate_down`. -/
def percolateDown (o : PqueueOps σ ν) (q : Pqueue ν) (st : σ) (i : Nat) : Pqueue ν × σ :=
  let moving := q.d i
  let (q, st, i) := percolateDownLoop o (o.getpri st moving) q st i
  (q.set i moving, o.setpos st moving i)

/-- `pqueue_insert`. -/
def insert (o : PqueueOps σ ν) (q : Pqueue ν) (st : σ) (x : ν) : Pqueue ν × σ :=
  bubbleUp o ⟨q.size + 1, Function.update q.d q.size x⟩ st q.size

/-- `pqueue_change_priority`. -/
def changePriority (o : PqueueOps σ ν) (q : Pqueue ν) (st : σ) (newPri : Nat) (x : ν) :
    Pqueue ν × σ :=
  let oldPri := o.getpri st x
  let st := o.setpri st x newPri
  let posn := o.getpos st x
  if o.cmppri oldPri newPri then bubbleUp o q st posn else percolateDown o q st posn

/-- `pqueue_peek`: `none` for an empty queue. -/
def peek (q : Pqueue ν) : Option ν := if q.size = 1 then none else some (q.d 1)

/-- `pqueue_pop`: `none` for an empty queue. -/
def pop (o : PqueueOps σ ν) (q : Pqueue ν) (st : σ) : Option ν × Pqueue ν × σ :=
  if q.size = 1 then (none, q, st)
  else
    let head := q.d 1
    let q := { q with size := q.size - 1 }
    (some head, percolateDown o (q.set 1 (q.d q.size)) st 1)

/-! ## members and their slots -/

/-- `x` is a node of the queue. -/
def Mem (q : Pqueue ν) (x : ν) : Prop := ∃ k, 1 ≤ k ∧ k < q.size ∧ q.d k = x

/-- Every occupied slot's node records that slot as its position. -/
def Placed (o : PqueueOps σ ν) (q : Pqueue ν) (st : σ) : Prop :=
  ∀ k, 1 ≤ k → k < q.size → o.getpos st (q.d k) = k

/-- A node's recorded position is its slot. -/
theorem Placed.getpos_of_mem {o : PqueueOps σ ν} {q : Pqueue ν} {st : σ} (hp : Placed o q st)
    {x : ν} (hx : q.Mem x) :
    1 ≤ o.getpos st x ∧ o.getpos st x < q.size ∧ q.d (o.getpos st x) = x := by
  obtain ⟨k, h1, hk, rfl⟩ := hx
  rw [hp k h1 hk]
  exact ⟨h1, hk, rfl⟩

/-- A queue with a hole at slot `hole` and the node `x` in hand: the other slots
are placed and none of them holds `x`. -/
structure Sifting (o : PqueueOps σ ν) (q : Pqueue ν) (st : σ) (hole : Nat) (x : ν) : Prop where
  one_le : 1 ≤ hole
  lt_size : hole < q.size
  placed : ∀ k, 1 ≤ k → k < q.size → k ≠ hole → o.getpos st (q.d k) = k
  ne : ∀ k, 1 ≤ k → k < q.size → k ≠ hole → q.d k ≠ x

/-- The nodes of a queue with a hole at `hole` and `x` in hand. -/
def MemSift (q : Pqueue ν) (hole : Nat) (x y : ν) : Prop :=
  y = x ∨ ∃ k, 1 ≤ k ∧ k < q.size ∧ k ≠ hole ∧ q.d k = y

variable {o : PqueueOps σ ν}

/-- One step of either sift: the node of slot `c` moves into the hole, which
leaves the hole at `c` and the same nodes. -/
theorem Sifting.move (law : o.Lawful) {q : Pqueue ν} {st : σ} {hole c : Nat} {x : ν}
    (h : Sifting o q st hole x) (h1 : 1 ≤ c) (hc : c < q.size) (hne : c ≠ hole) :
    Sifting o (q.set hole (q.d c)) (o.setpos st (q.d c) hole) c x ∧
      ∀ y, MemSift (q.set hole (q.d c)) c x y ↔ MemSift q hole x y := by
  refine ⟨⟨h1, hc, ?_, ?_⟩, ?_⟩
  · intro k hk1 hk hkc
    by_cases hkh : k = hole
    · subst hkh
      rw [set_d_self, law.getpos_setpos]
    · rw [set_d_ne _ _ hkh]
      have hd : q.d k ≠ q.d c := by
        intro he
        have hk' := h.placed k hk1 hk hkh
        rw [he, h.placed c h1 hc hne] at hk'
        exact hkc hk'.symm
      rw [law.getpos_setpos_ne _ _ _ _ hd]
      exact h.placed k hk1 hk hkh
  · intro k hk1 hk hkc
    by_cases hkh : k = hole
    · subst hkh
      rw [set_d_self]
      exact h.ne c h1 hc hne
    · rw [set_d_ne _ _ hkh]
      exact h.ne k hk1 hk hkh
  · intro y
    constructor
    · rintro (rfl | ⟨k, hk1, hk, hkc, rfl⟩)
      · exact .inl rfl
      · by_cases hkh : k = hole
        · subst hkh
          exact .inr ⟨c, h1, hc, hne, by rw [set_d_self]⟩
        · exact .inr ⟨k, hk1, hk, hkh, by rw [set_d_ne _ _ hkh]⟩
    · rintro (rfl | ⟨k, hk1, hk, hkh, rfl⟩)
      · exact .inl rfl
      · by_cases hkc : k = c
        · subst hkc
          exact .inr ⟨hole, h.one_le, h.lt_size, fun he => hkh he.symm, by rw [set_d_self]⟩
        · exact .inr ⟨k, hk1, hk, hkc, by rw [set_d_ne _ _ hkh]⟩

/-- Dropping the node in hand into the hole ends a sift. -/
theorem Sifting.finish (law : o.Lawful) {q : Pqueue ν} {st : σ} {hole : Nat} {x : ν}
    (h : Sifting o q st hole x) :
    Placed o (q.set hole x) (o.setpos st x hole) ∧
      ∀ y, (q.set hole x).Mem y ↔ MemSift q hole x y := by
  refine ⟨?_, ?_⟩
  · intro k hk1 hk
    by_cases hkh : k = hole
    · subst hkh
      rw [set_d_self, law.getpos_setpos]
    · rw [set_d_ne _ _ hkh, law.getpos_setpos_ne _ _ _ _ (h.ne k hk1 hk hkh)]
      exact h.placed k hk1 hk hkh
  · intro y
    constructor
    · rintro ⟨k, hk1, hk, rfl⟩
      by_cases hkh : k = hole
      · subst hkh
        exact .inl (set_d_self ..)
      · exact .inr ⟨k, hk1, hk, hkh, by rw [set_d_ne _ _ hkh]⟩
    · rintro (rfl | ⟨k, hk1, hk, hkh, rfl⟩)
      · exact ⟨hole, h.one_le, h.lt_size, set_d_self ..⟩
      · exact ⟨k, hk1, hk, set_d_ne _ _ hkh⟩

/-- What a sift from a hole at `hole` with `x` in hand leaves: a placed queue of
the same size with the same nodes. -/
structure Sifted (o : PqueueOps σ ν) (q : Pqueue ν) (hole : Nat) (x : ν)
    (q' : Pqueue ν) (st' : σ) : Prop where
  placed : Placed o q' st'
  size : q'.size = q.size
  mem : ∀ y, q'.Mem y ↔ MemSift q hole x y

theorem bubbleUpLoop_sifted (law : o.Lawful) (pri : Nat) {x : ν} (q : Pqueue ν) (st : σ) (i : Nat)
    (h : Sifting o q st i x) {q' : Pqueue ν} {st' : σ} {i' : Nat}
    (hr : bubbleUpLoop o pri q st i = (q', st', i')) :
    Sifted o q i x (q'.set i' x) (o.setpos st' x i') := by
  fun_induction bubbleUpLoop o pri q st i with
  | case1 q st i hc ih =>
      have hi := h.lt_size
      obtain ⟨hmove, hmem⟩ := h.move law (c := i / 2) (by omega) (by omega) (by omega)
      have hs := ih hmove hr
      exact ⟨hs.placed, hs.size, fun y => (hs.mem y).trans (hmem y)⟩
  | case2 q st i _ =>
      cases hr
      obtain ⟨hp, hm⟩ := h.finish law
      exact ⟨hp, rfl, hm⟩

theorem percolateDownLoop_sifted (law : o.Lawful) (pri : Nat) {x : ν} (q : Pqueue ν) (st : σ)
    (i : Nat) (h : Sifting o q st i x) {q' : Pqueue ν} {st' : σ} {i' : Nat}
    (hr : percolateDownLoop o pri q st i = (q', st', i')) :
    Sifted o q i x (q'.set i' x) (o.setpos st' x i') := by
  fun_induction percolateDownLoop o pri q st i with
  | case1 q st i hc ih =>
      have hi := h.one_le
      have hch := maxchild_cases o q st i
      obtain ⟨hmove, hmem⟩ :=
        h.move law (c := maxchild o q st i) (by omega) (by omega) (by omega)
      have hs := ih hmove hr
      exact ⟨hs.placed, hs.size, fun y => (hs.mem y).trans (hmem y)⟩
  | case2 q st i _ =>
      cases hr
      obtain ⟨hp, hm⟩ := h.finish law
      exact ⟨hp, rfl, hm⟩

theorem bubbleUp_sifted (law : o.Lawful) {q : Pqueue ν} {st : σ} {i : Nat}
    (h : Sifting o q st i (q.d i)) :
    Sifted o q i (q.d i) (bubbleUp o q st i).1 (bubbleUp o q st i).2 :=
  bubbleUpLoop_sifted law _ q st i h rfl

theorem percolateDown_sifted (law : o.Lawful) {q : Pqueue ν} {st : σ} {i : Nat}
    (h : Sifting o q st i (q.d i)) :
    Sifted o q i (q.d i) (percolateDown o q st i).1 (percolateDown o q st i).2 :=
  percolateDownLoop_sifted law _ q st i h rfl

/-! ## what a sift leaves alone -/

section Frame

/- A sift writes slot numbers only, and only of nodes of the queue: a property of
the store that every such write keeps is kept by the whole sift. -/

variable {R : σ → Prop}

theorem bubbleUpLoop_frame (pri : Nat) (q : Pqueue ν) (st : σ) (i : Nat) (hi : i < q.size)
    (S : ν → Prop) (hS : ∀ k, 1 ≤ k → k < q.size → S (q.d k))
    (hR : ∀ st y p, S y → R st → R (o.setpos st y p)) (h : R st) :
    R (bubbleUpLoop o pri q st i).2.1 := by
  fun_induction bubbleUpLoop o pri q st i with
  | case1 q st i hc ih =>
      have hpar : S (q.d (i / 2)) := hS _ (by omega) (by omega)
      refine ih (by simp only [set_size]; omega) ?_ (hR _ _ _ hpar h)
      intro k hk1 hk
      by_cases hki : k = i
      · subst hki
        rwa [set_d_self]
      · rw [set_d_ne _ _ hki]
        exact hS k hk1 hk
  | case2 q st i _ => exact h

theorem percolateDownLoop_frame (pri : Nat) (q : Pqueue ν) (st : σ) (i : Nat) (hi : 1 ≤ i)
    (S : ν → Prop) (hS : ∀ k, 1 ≤ k → k < q.size → S (q.d k))
    (hR : ∀ st y p, S y → R st → R (o.setpos st y p)) (h : R st) :
    R (percolateDownLoop o pri q st i).2.1 := by
  fun_induction percolateDownLoop o pri q st i with
  | case1 q st i hc ih =>
      have hch := maxchild_cases o q st i
      have hchild : S (q.d (maxchild o q st i)) := hS _ (by omega) (by omega)
      refine ih (by omega) ?_ (hR _ _ _ hchild h)
      intro k hk1 hk
      by_cases hki : k = i
      · subst hki
        rwa [set_d_self]
      · rw [set_d_ne _ _ hki]
        exact hS k hk1 hk
  | case2 q st i _ => exact h

theorem bubbleUp_frame {q : Pqueue ν} {st : σ} {i : Nat} (h1 : 1 ≤ i) (hi : i < q.size)
    (hR : ∀ st y p, q.Mem y → R st → R (o.setpos st y p)) (h : R st) :
    R (bubbleUp o q st i).2 :=
  hR _ _ _ ⟨i, h1, hi, rfl⟩
    (bubbleUpLoop_frame _ q st i hi q.Mem (fun k hk1 hk => ⟨k, hk1, hk, rfl⟩) hR h)

theorem percolateDown_frame {q : Pqueue ν} {st : σ} {i : Nat} (S : ν → Prop) (h1 : 1 ≤ i)
    (hi : S (q.d i)) (hS : ∀ k, 1 ≤ k → k < q.size → S (q.d k))
    (hR : ∀ st y p, S y → R st → R (o.setpos st y p)) (h : R st) :
    R (percolateDown o q st i).2 :=
  hR _ _ _ hi (percolateDownLoop_frame _ q st i h1 S hS hR h)

end Frame

/-! ## the operations' specifications -/

/-- A placed queue is a sift that holds the node of one of its slots in hand. -/
theorem Placed.sifting {q : Pqueue ν} {st : σ} (hp : Placed o q st) {i : Nat} (h1 : 1 ≤ i)
    (hi : i < q.size) : Sifting o q st i (q.d i) where
  one_le := h1
  lt_size := hi
  placed k hk1 hk _ := hp k hk1 hk
  ne k hk1 hk hne he := by
    have hk' := hp k hk1 hk
    rw [he, hp i h1 hi] at hk'
    exact hne hk'.symm

theorem memSift_self {q : Pqueue ν} {i : Nat} (h1 : 1 ≤ i) (hi : i < q.size) (y : ν) :
    MemSift q i (q.d i) y ↔ q.Mem y := by
  constructor
  · rintro (rfl | ⟨k, hk1, hk, _, rfl⟩)
    · exact ⟨i, h1, hi, rfl⟩
    · exact ⟨k, hk1, hk, rfl⟩
  · rintro ⟨k, hk1, hk, rfl⟩
    by_cases hki : k = i
    · exact .inl (by rw [hki])
    · exact .inr ⟨k, hk1, hk, hki, rfl⟩

/-- `pqueue_insert` adds the node and keeps every node placed. -/
theorem insert_spec (law : o.Lawful) {q : Pqueue ν} {st : σ} {x : ν} (hp : Placed o q st)
    (hsz : 1 ≤ q.size) (hx : ¬ q.Mem x) :
    Placed o (insert o q st x).1 (insert o q st x).2 ∧
      (insert o q st x).1.size = q.size + 1 ∧
      ∀ y, (insert o q st x).1.Mem y ↔ y = x ∨ q.Mem y := by
  have hold : ∀ k, k < q.size → Function.update q.d q.size x k = q.d k := by
    intro k hk
    rw [Function.update_of_ne (by omega)]
  have hsift : Sifting o ⟨q.size + 1, Function.update q.d q.size x⟩ st q.size
      (Function.update q.d q.size x q.size) := by
    refine ⟨hsz, Nat.lt_succ_self _, ?_, ?_⟩
    · intro k hk1 hk hne
      have hlt : k < q.size := by change k < q.size + 1 at hk; omega
      change o.getpos st (Function.update q.d q.size x k) = k
      rw [hold k hlt]
      exact hp k hk1 hlt
    · intro k hk1 hk hne he
      have hlt : k < q.size := by change k < q.size + 1 at hk; omega
      change Function.update q.d q.size x k = _ at he
      rw [hold k hlt, Function.update_self] at he
      exact hx ⟨k, hk1, hlt, he⟩
  have hs := bubbleUp_sifted law hsift
  refine ⟨hs.placed, hs.size, fun y => (hs.mem y).trans ?_⟩
  unfold MemSift Mem
  simp only [Function.update_self]
  constructor
  · rintro (rfl | ⟨k, hk1, hk, hne, rfl⟩)
    · exact .inl rfl
    · exact .inr ⟨k, hk1, by omega, (hold k (by omega)).symm⟩
  · rintro (rfl | ⟨k, hk1, hk, rfl⟩)
    · exact .inl rfl
    · exact .inr ⟨k, hk1, by omega, by omega, hold k hk⟩

/-- `pqueue_insert` writes slot numbers of the queue's nodes and of the new one only. -/
theorem insert_frame {R : σ → Prop} {q : Pqueue ν} {st : σ} {x : ν} (hsz : 1 ≤ q.size)
    (hR : ∀ st y p, (y = x ∨ q.Mem y) → R st → R (o.setpos st y p)) (h : R st) :
    R (insert o q st x).2 := by
  refine bubbleUp_frame hsz (Nat.lt_succ_self _) ?_ h
  rintro st' y p ⟨k, hk1, hk, rfl⟩
  apply hR
  by_cases hks : k = q.size
  · subst hks
    exact .inl (Function.update_self ..)
  · change k < q.size + 1 at hk
    exact .inr ⟨k, hk1, by omega, (Function.update_of_ne hks ..).symm⟩

/-- `pqueue_change_priority` of a node of the queue keeps the nodes and their slots in step. -/
theorem changePriority_spec (law : o.Lawful) {q : Pqueue ν} {st : σ} {x : ν} (newPri : Nat)
    (hp : Placed o q st) (hx : q.Mem x) :
    Placed o (changePriority o q st newPri x).1 (changePriority o q st newPri x).2 ∧
      (changePriority o q st newPri x).1.size = q.size ∧
      ∀ y, (changePriority o q st newPri x).1.Mem y ↔ q.Mem y := by
  have hp' : Placed o q (o.setpri st x newPri) := by
    intro k hk1 hk
    rw [law.getpos_setpri]
    exact hp k hk1 hk
  obtain ⟨h1, hlt, -⟩ := hp'.getpos_of_mem hx
  have hsift := hp'.sifting h1 hlt
  unfold changePriority
  simp only
  split
  · have hs := bubbleUp_sifted law hsift
    exact ⟨hs.placed, hs.size, fun y => (hs.mem y).trans (memSift_self h1 hlt y)⟩
  · have hs := percolateDown_sifted law hsift
    exact ⟨hs.placed, hs.size, fun y => (hs.mem y).trans (memSift_self h1 hlt y)⟩

/-- `pqueue_change_priority` writes the node's priority, and slot numbers of the
queue's nodes only. -/
theorem changePriority_frame (law : o.Lawful) {R : σ → Prop} {q : Pqueue ν} {st : σ} {x : ν}
    (newPri : Nat) (hp : Placed o q st) (hx : q.Mem x)
    (hR : ∀ st y p, q.Mem y → R st → R (o.setpos st y p)) (h : R (o.setpri st x newPri)) :
    R (changePriority o q st newPri x).2 := by
  obtain ⟨h1, hlt, hd⟩ := hp.getpos_of_mem hx
  unfold changePriority
  simp only [law.getpos_setpri]
  split
  · exact bubbleUp_frame h1 hlt hR h
  · exact percolateDown_frame q.Mem h1 (by rwa [hd]) (fun k hk1 hk => ⟨k, hk1, hk, rfl⟩) hR h

/-- `pqueue_peek` finds slot 1 of a queue that is not empty. -/
theorem peek_eq_some {q : Pqueue ν} {x : ν} (hsz : 1 ≤ q.size) (h : q.peek = some x) :
    1 < q.size ∧ q.d 1 = x ∧ q.Mem x := by
  unfold peek at h
  split at h
  · contradiction
  · cases h
    exact ⟨by omega, rfl, 1, Nat.le_refl 1, by omega, rfl⟩

/-- `pqueue_pop` takes the node of slot 1 out and keeps the others placed. -/
theorem pop_spec (law : o.Lawful) {q : Pqueue ν} {st : σ} (hp : Placed o q st)
    (hsz : 1 < q.size) :
    (pop o q st).1 = some (q.d 1) ∧
      Placed o (pop o q st).2.1 (pop o q st).2.2 ∧
      (pop o q st).2.1.size = q.size - 1 ∧
      ∀ y, (pop o q st).2.1.Mem y ↔ q.Mem y ∧ y ≠ q.d 1 := by
  have hne : q.size ≠ 1 := by omega
  rw [pop, if_neg hne]
  set q' : Pqueue ν := { q with size := q.size - 1 }.set 1 (q.d (q.size - 1)) with hq'
  have hd1 : q'.d 1 = q.d (q.size - 1) := set_d_self ..
  have hdk : ∀ k, k ≠ 1 → q'.d k = q.d k := fun k hk => set_d_ne _ _ hk
  have hinj : ∀ j k, 1 ≤ j → j < q.size → 1 ≤ k → k < q.size → q.d j = q.d k → j = k := by
    intro j k hj1 hj hk1 hk he
    have := hp j hj1 hj
    rwa [he, hp k hk1 hk, eq_comm] at this
  by_cases h2 : q.size = 2
  · -- the only node leaves: the sift finds no child and drops it back into slot 1
    have hsize' : (percolateDown o q' st 1).1.size = 1 := by
      have hs1 : q'.size = 1 := by change q.size - 1 = 1; omega
      have : percolateDownLoop o (o.getpri st (q'.d 1)) q' st 1 = (q', st, 1) := by
        unfold percolateDownLoop maxchild
        simp [hs1]
      simp only [percolateDown, this]
      exact hs1
    refine ⟨rfl, ?_, by rw [hsize']; omega, ?_⟩
    · intro k hk1 hk
      rw [hsize'] at hk
      omega
    · intro y
      constructor
      · rintro ⟨k, hk1, hk, -⟩
        rw [hsize'] at hk
        omega
      · rintro ⟨⟨k, hk1, hk, rfl⟩, hy⟩
        exact absurd (by rw [show k = 1 by omega]) hy
  · have hlt : 1 < q'.size := by change 1 < q.size - 1; omega
    have hsift : Sifting o q' st 1 (q'.d 1) := by
      refine ⟨Nat.le_refl 1, hlt, ?_, ?_⟩
      · intro k hk1 hk hk0
        change k < q.size - 1 at hk
        rw [hdk k hk0]
        exact hp k hk1 (by omega)
      · intro k hk1 hk hk0 he
        change k < q.size - 1 at hk
        rw [hdk k hk0, hd1] at he
        have := hinj k (q.size - 1) hk1 (by omega) (by omega) (by omega) he
        omega
    have hs := percolateDown_sifted law hsift
    refine ⟨rfl, hs.placed, hs.size, fun y => (hs.mem y).trans ?_⟩
    unfold MemSift
    rw [hd1]
    constructor
    · rintro (rfl | ⟨k, hk1, hk, hk0, rfl⟩)
      · refine ⟨⟨q.size - 1, by omega, by omega, rfl⟩, fun he => ?_⟩
        have := hinj _ 1 (by omega) (by omega) (Nat.le_refl 1) hsz he
        omega
      · change k < q.size - 1 at hk
        rw [hdk k hk0]
        refine ⟨⟨k, hk1, by omega, rfl⟩, fun he => hk0 ?_⟩
        exact hinj k 1 hk1 (by omega) (Nat.le_refl 1) hsz he
    · rintro ⟨⟨k, hk1, hk, rfl⟩, hy⟩
      have hk0 : k ≠ 1 := fun he => hy (by rw [he])
      by_cases hkl : k = q.size - 1
      · exact .inl (by rw [hkl])
      · exact .inr ⟨k, hk1, by change k < q.size - 1; omega, hk0, hdk k hk0⟩

/-- `pqueue_pop` writes slot numbers of the queue's nodes only. -/
theorem pop_frame {R : σ → Prop} {q : Pqueue ν} {st : σ} (hsz : 1 < q.size)
    (hR : ∀ st y p, q.Mem y → R st → R (o.setpos st y p)) (h : R st) :
    R (pop o q st).2.2 := by
  have hne : q.size ≠ 1 := by omega
  rw [pop, if_neg hne]
  have hslot : ∀ k, 1 ≤ k → k < q.size →
      q.Mem (({ q with size := q.size - 1 }.set 1 (q.d (q.size - 1))).d k) := by
    intro k hk1 hk
    by_cases hk0 : k = 1
    · subst hk0
      rw [set_d_self]
      exact ⟨q.size - 1, by omega, by omega, rfl⟩
    · rw [set_d_ne _ _ hk0]
      exact ⟨k, hk1, hk, rfl⟩
  refine percolateDown_frame q.Mem (Nat.le_refl 1) (hslot 1 (Nat.le_refl 1) hsz) ?_ hR h
  intro k hk1 hk
  exact hslot k hk1 (by change k < q.size - 1 at hk; omega)

end Pqueue

end Femu

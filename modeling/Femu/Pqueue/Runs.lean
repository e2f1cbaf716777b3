import Mathlib.Data.List.ReduceOption
import Mathlib.Data.Multiset.MapFold
import Femu.Lib.PriorityQueue
import Femu.Pqueue.Order

/-!
# Femu.Pqueue.Runs

The heap of `lib/pqueue.c` as a priority queue: over any run of calls, and of changes that the
program makes to its other nodes, it holds the nodes that were inserted and not taken out,
each one in the slot that it records, and gives a node of the lowest priority
(`pqueue_refines`). `pqueue_is_valid` finds out whether an array is in order.
-/

namespace Femu.Pqueue

open Lib

variable {σ ν : Type} {o : PqueueOps σ ν} {q : Pqueue ν} {st : σ} {i : Nat} {x : ν}

/-! ## the rest of the source -/

/-- `pqueue_remove`. -/
def remove (o : PqueueOps σ ν) (q : Pqueue ν) (st : σ) (x : ν) : Pqueue ν × σ :=
  let posn := o.getpos st x
  let q := Pqueue.set { q with size := q.size - 1 } posn (q.d (q.size - 1))
  if o.cmppri (o.getpri st x) (o.getpri st (q.d posn)) then bubbleUp o q st posn
  else percolateDown o q st posn

/-- `subtree_is_valid`, called with slots only. -/
def subtreeIsValid (o : PqueueOps σ ν) (q : Pqueue ν) (st : σ) (pos : Nat) (hpos : 0 < pos) : Bool :=
  (if 2 * pos < q.size then
    !o.cmppri (o.getpri st (q.d pos)) (o.getpri st (q.d (2 * pos))) &&
      subtreeIsValid o q st (2 * pos) (by omega)
  else true) &&
  (if 2 * pos + 1 < q.size then
    !o.cmppri (o.getpri st (q.d pos)) (o.getpri st (q.d (2 * pos + 1))) &&
      subtreeIsValid o q st (2 * pos + 1) (by omega)
  else true)
termination_by q.size - pos
decreasing_by
  · omega
  · omega

/-- `pqueue_is_valid`. -/
def isValid (o : PqueueOps σ ν) (q : Pqueue ν) (st : σ) : Bool :=
  subtreeIsValid o q st 1 Nat.one_pos

/-! ## the check -/

/-- Slot `k` lies below slot `pos`. -/
inductive Under (pos : Nat) : Nat → Prop
  | child {k : Nat} (h : k / 2 = pos) : Under pos k
  | deeper {k : Nat} (h : Under pos (k / 2)) : Under pos k

theorem under_one {k : Nat} (h : 2 ≤ k) : Under 1 k := by
  induction k using Nat.strongRecOn with
  | ind k ih =>
      by_cases hk : k / 2 = 1
      · exact .child hk
      · exact .deeper (ih (k / 2) (by omega) (by omega))

/-- A slot below another one is one of its children, or below one. -/
theorem under_iff {pos k : Nat} :
    Under pos k ↔ (k = 2 * pos ∨ Under (2 * pos) k) ∨ k = 2 * pos + 1 ∨ Under (2 * pos + 1) k := by
  constructor
  · intro h
    induction h with
    | @child k h =>
        obtain rfl | rfl : k = 2 * pos ∨ k = 2 * pos + 1 := by omega
        · exact .inl (.inl rfl)
        · exact .inr (.inl rfl)
    | deeper h ih =>
        obtain (h | h) | h | h := ih
        · exact .inl (.inr (.child h))
        · exact .inl (.inr (.deeper h))
        · exact .inr (.inr (.child h))
        · exact .inr (.inr (.deeper h))
  · have hlift : ∀ {c : Nat}, c / 2 = pos → Under c k → Under pos k := by
      intro c hc h
      induction h with
      | child h => exact .deeper (.child (by rw [h, hc]))
      | deeper h ih => exact .deeper ih
    rintro ((rfl | h) | rfl | h)
    · exact .child (by omega)
    · exact hlift (by omega) h
    · exact .child (by omega)
    · exact hlift (by omega) h

theorem under_pos {pos k : Nat} (h : Under pos k) : pos ≤ k := by
  induction h with
  | child h => omega
  | deeper h ih => omega

/-- The check of a slot with all that is below it, seen from its parent. -/
theorem child_iff (low : LowestFirst o) {pos c : Nat} (hc : c / 2 = pos) {below : Bool}
    (ih : c < q.size → (below = true ↔
      ∀ k, Under c k → k < q.size → o.getpri st (q.d (k / 2)) ≤ o.getpri st (q.d k))) :
    (if c < q.size then !o.cmppri (o.getpri st (q.d pos)) (o.getpri st (q.d c)) && below
      else true) = true ↔
      ∀ k, k = c ∨ Under c k → k < q.size → o.getpri st (q.d (k / 2)) ≤ o.getpri st (q.d k) := by
  subst hc
  by_cases hlt : c < q.size
  · rw [if_pos hlt, Bool.and_eq_true, ih hlt, low, Bool.not_eq_true', decide_eq_false_iff_not,
      Nat.not_lt]
    constructor
    · rintro ⟨hself, hbelow⟩ k (rfl | hk) hks
      · exact hself
      · exact hbelow k hk hks
    · intro h
      exact ⟨h c (.inl rfl) hlt, fun k hk => h k (.inr hk)⟩
  · rw [if_neg hlt]
    refine ⟨fun _ k hk hks => ?_, fun _ => rfl⟩
    obtain rfl | hk := hk
    · exact absurd hks hlt
    · have := under_pos hk
      omega

theorem subtreeIsValid_iff (low : LowestFirst o) (pos : Nat) (hpos : 0 < pos) :
    subtreeIsValid o q st pos hpos = true ↔
      ∀ k, Under pos k → k < q.size → o.getpri st (q.d (k / 2)) ≤ o.getpri st (q.d k) := by
  fun_induction subtreeIsValid o q st pos hpos with
  | case1 pos hpos ihl ihr =>
      rw [Bool.and_eq_true]
      refine (and_congr (child_iff low (by omega) ihl) (child_iff low (by omega) ihr)).trans ?_
      constructor
      · rintro ⟨hleft, hright⟩ k hk hks
        obtain hk | hk := under_iff.mp hk
        · exact hleft k hk hks
        · exact hright k hk hks
      · intro h
        exact ⟨fun k hk => h k (under_iff.mpr (.inl hk)), fun k hk => h k (under_iff.mpr (.inr hk))⟩

/-- **The check of the order** is exact. -/
theorem isValid_iff (low : LowestFirst o) : isValid o q st = true ↔ Heap o q st := by
  rw [isValid, subtreeIsValid_iff low]
  constructor
  · intro h k hk2 hk
    exact h k (under_one hk2) hk
  · intro h k hk hlt
    refine h k ?_ hlt
    cases hk with
    | child hk => omega
    | deeper hk =>
        have := under_pos hk
        omega

/-! ## taking a node out -/

/-- Two slots do not hold the same node. -/
theorem Placed.inj (hp : Placed o q st) {j k : Nat} (hj1 : 1 ≤ j) (hj : j < q.size) (hk1 : 1 ≤ k)
    (hk : k < q.size) (heq : q.d j = q.d k) : j = k := by
  have hpos := hp j hj1 hj
  rwa [heq, hp k hk1 hk, eq_comm] at hpos

/-- The nodes of a queue without one of them. -/
theorem nodes_of_removed {q' : Pqueue ν} {st' : σ} (hp : Placed o q st) (hp' : Placed o q' st')
    (hx : q.Mem x) (hmem : ∀ y, q'.Mem y ↔ q.Mem y ∧ y ≠ x) : nodes q = x ::ₘ nodes q' := by
  refine (Multiset.Nodup.ext hp.nodup ?_).mpr fun y => ?_
  · exact Multiset.nodup_cons.mpr ⟨fun hin => ((hmem x).mp (mem_nodes.mp hin)).2 rfl, hp'.nodup⟩
  · rw [mem_nodes, Multiset.mem_cons, mem_nodes, hmem]
    constructor
    · intro hy
      by_cases heq : y = x
      · exact .inl heq
      · exact .inr ⟨hy, heq⟩
    · rintro (rfl | ⟨hy, -⟩)
      · exact hx
      · exact hy

/-- The node of the last slot is taken out where it is. -/
theorem remove_last (low : LowestFirst o) (h : Ordered o q st) (hx : q.Mem x)
    (hlast : o.getpos st x = q.size - 1) :
    remove o q st x = ({ q with size := q.size - 1 }, o.setpos st x (q.size - 1)) := by
  obtain ⟨h1, hlt, hat⟩ := h.placed.getpos_of_mem hx
  rw [hlast] at h1 hat
  have hsame : Pqueue.set { q with size := q.size - 1 } (q.size - 1) x =
      { q with size := q.size - 1 } := by
    rw [Pqueue.set, ← hat, Function.update_eq_self]
  have hlow : ∀ next curr, o.cmppri next curr = decide (curr < next) := low
  -- the sift finds no child
  have hloop : ∀ pri, percolateDownLoop o pri { q with size := q.size - 1 } st (q.size - 1) =
      ({ q with size := q.size - 1 }, st, q.size - 1) := by
    intro pri
    have hnone : maxchild o { q with size := q.size - 1 } st (q.size - 1) = 0 :=
      if_pos (by dsimp only; omega)
    unfold percolateDownLoop
    rw [if_neg (fun hc => hc.1 hnone)]
  simp only [remove, hlast, hat, hsame, hlow, Nat.lt_irrefl, decide_false, Bool.false_eq_true,
    if_false, percolateDown, hloop]

/-- The last node takes the place of another one. -/
theorem remove_sifted (law : o.Lawful) (low : LowestFirst o) (h : Ordered o q st) (hx : q.Mem x)
    (hlt : o.getpos st x < q.size - 1) :
    Sifted o (Pqueue.set { q with size := q.size - 1 } (o.getpos st x) (q.d (q.size - 1)))
        (o.getpos st x) (q.d (q.size - 1)) (remove o q st x).1 (remove o q st x).2 ∧
      Heap o (remove o q st x).1 (remove o q st x).2 := by
  obtain ⟨h1, -, hat⟩ := h.placed.getpos_of_mem hx
  generalize hp : o.getpos st x = p at h1 hat hlt
  obtain ⟨q₁, hq₁⟩ : ∃ q₁, q₁ = Pqueue.set { q with size := q.size - 1 } p (q.d (q.size - 1)) :=
    ⟨_, rfl⟩
  have hsize : q₁.size = q.size - 1 := by rw [hq₁]; rfl
  have hself : q₁.d p = q.d (q.size - 1) := by rw [hq₁]; exact set_d_self ..
  have hold : ∀ k, k ≠ p → q₁.d k = q.d k := fun k hk => by rw [hq₁]; exact set_d_ne _ _ hk
  have hsift : Sifting o q₁ st p (q₁.d p) := by
    refine ⟨h1, by rw [hsize]; exact hlt, fun k hk1 hk hkp => ?_, fun k hk1 hk hkp he => ?_⟩
    · rw [hsize] at hk
      rw [hold k hkp]
      exact h.placed k hk1 (by omega)
    · rw [hsize] at hk
      rw [hold k hkp, hself] at he
      have := h.placed.inj hk1 (by omega) (by omega) (by omega) he
      omega
  have hhole : HeapHole o q₁ st p := by
    have hq := h.heap.heapHole h1 (show p < q.size by omega)
    refine ⟨h1, fun k hk2 hk hkp hph => ?_, fun k hp2 hk hkp => ?_⟩
    · rw [hsize] at hk
      rw [hold k hkp, hold _ hph]
      exact hq.ord k hk2 (by omega) hkp hph
    · rw [hsize] at hk
      rw [hold k (by omega), hold _ (by omega)]
      exact hq.skip k hp2 (by omega) hkp
  have hremove : remove o q st x =
      if o.cmppri (o.getpri st x) (o.getpri st (q₁.d p)) then bubbleUp o q₁ st p
      else percolateDown o q₁ st p := by
    rw [hq₁]
    simp only [remove, hp]
  rw [hremove, ← hq₁, ← hself]
  split
  case isTrue hlower =>
    rw [low, decide_eq_true_eq] at hlower
    refine ⟨bubbleUp_sifted law hsift, ?_⟩
    refine bubbleUpLoop_heap law low _ _ _ _ rfl hhole hsift.lt_size (fun k hk hkp => ?_) rfl
    rw [hsize] at hk
    have hchild := h.heap k (by omega) (by omega)
    rw [hkp, hat] at hchild
    rw [hold k (by omega)]
    omega
  case isFalse hhigher =>
    rw [low, decide_eq_true_eq] at hhigher
    refine ⟨percolateDown_sifted law hsift, ?_⟩
    refine percolateDownLoop_heap law low _ _ _ _ rfl hhole (fun hp2 => ?_) rfl
    have hparent := h.heap p hp2 (by omega)
    rw [hat] at hparent
    rw [hold _ (by omega)]
    omega

/-- Taking any node out. -/
theorem Ordered.remove (law : o.Lawful) (low : LowestFirst o) (h : Ordered o q st) (hx : q.Mem x) :
    Ordered o (q.remove o st x).1 (q.remove o st x).2 ∧
      nodes q = x ::ₘ nodes (q.remove o st x).1 := by
  obtain ⟨h1, hlt, hat⟩ := h.placed.getpos_of_mem hx
  by_cases hlast : o.getpos st x = q.size - 1
  · rw [remove_last low h hx hlast]
    rw [hlast] at h1 hat
    have hne : ∀ k, 1 ≤ k → k < q.size - 1 → q.d k ≠ x := fun k hk1 hk heq => by
      have := h.placed.inj hk1 (by omega) h1 (by omega) (heq.trans hat.symm)
      omega
    have hplaced : Placed o { q with size := q.size - 1 } (o.setpos st x (q.size - 1)) :=
      fun k hk1 hk => by
        rw [law.getpos_setpos_ne _ _ _ _ (hne k hk1 hk)]
        exact h.placed k hk1 (Nat.lt_of_lt_pred hk)
    refine ⟨⟨h1, hplaced, Heap.setpos law _ fun k hk2 hk => h.heap k hk2 (Nat.lt_of_lt_pred hk)⟩, ?_⟩
    refine nodes_of_removed h.placed hplaced hx fun y => ⟨?_, ?_⟩
    · rintro ⟨k, hk1, hk, rfl⟩
      exact ⟨⟨k, hk1, Nat.lt_of_lt_pred hk, rfl⟩, hne k hk1 hk⟩
    · rintro ⟨⟨k, hk1, hk, rfl⟩, hy⟩
      have hkl : k ≠ q.size - 1 := fun hc => hy (by rw [hc, hat])
      exact ⟨k, hk1, by dsimp only; omega, rfl⟩
  · obtain ⟨hsifted, hheap⟩ := remove_sifted law low h hx (by omega)
    refine ⟨⟨?_, hsifted.placed, hheap⟩, nodes_of_removed h.placed hsifted.placed hx fun y => ?_⟩
    · rw [hsifted.size]
      show 1 ≤ q.size - 1
      omega
    rw [hsifted.mem, MemSift]
    constructor
    · rintro (rfl | ⟨k, hk1, hk, hkp, rfl⟩)
      · refine ⟨⟨q.size - 1, by omega, by omega, rfl⟩, fun heq => hlast ?_⟩
        exact h.placed.inj h1 hlt (by omega) (by omega) (hat.trans heq.symm)
      · have hk : k < q.size - 1 := hk
        rw [set_d_ne _ _ hkp]
        refine ⟨⟨k, hk1, by omega, rfl⟩, fun heq => hkp ?_⟩
        exact h.placed.inj hk1 (by omega) h1 hlt (heq.trans hat.symm)
    · rintro ⟨⟨k, hk1, hk, rfl⟩, hy⟩
      by_cases hkl : k = q.size - 1
      · exact .inl (by rw [hkl])
      · have hkp : k ≠ o.getpos st x := fun hc => hy (by rw [hc, hat])
        exact .inr ⟨k, hk1, by show k < q.size - 1; omega, hkp, set_d_ne _ _ hkp⟩

/-! ## runs -/

/-- The entries of the queue: its nodes, with their priorities. -/
def entries (o : PqueueOps σ ν) (s : Pqueue ν × σ) : Multiset (ν × Nat) :=
  (nodes s.1).map fun x => (x, o.getpri s.2 x)

/-- `setpri` sets the priority of a node, and of no other. -/
structure PriorityField (o : PqueueOps σ ν) : Prop where
  getpri_setpri : ∀ st x pri, o.getpri (o.setpri st x pri) x = pri
  getpri_setpri_ne : ∀ st x y pri, y ≠ x → o.getpri (o.setpri st x pri) y = o.getpri st y

/-- A call with what it returns, or a change of nodes that are not in the queue. The callers
insert no node twice, and name nodes of the queue only. -/
def Step (o : PqueueOps σ ν) (s : Pqueue ν × σ) : Option (PriorityOp ν) → Pqueue ν × σ → Prop
  | some (.insert x pri), s' =>
      ¬ s.1.Mem x ∧ o.getpri s.2 x = pri ∧ s' = s.1.insert o s.2 x
  | some (.change x pri), s' => s.1.Mem x ∧ s' = s.1.changePriority o s.2 pri x
  | some (.remove x), s' => s.1.Mem x ∧ s' = s.1.remove o s.2 x
  | some (.peek r), s' => s.1.peek = r ∧ s' = s
  | some (.pop r), s' => s.1.pop o s.2 = (r, s')
  | none, s' => s'.1 = s.1 ∧ ∀ y, s.1.Mem y →
      o.getpos s'.2 y = o.getpos s.2 y ∧ o.getpri s'.2 y = o.getpri s.2 y

theorem entries_congr {st' : σ} (h : ∀ y, q.Mem y → o.getpri st' y = o.getpri st y) :
    entries o (q, st') = entries o (q, st) :=
  Multiset.map_congr rfl fun y hy => by rw [h y (mem_nodes.mp hy)]

/-- A node more. -/
theorem entries_cons {q' : Pqueue ν} (h : nodes q = x ::ₘ nodes q') :
    entries o (q, st) = (x, o.getpri st x) ::ₘ entries o (q', st) := by
  simp only [entries, h, Multiset.map_cons]

theorem entries_empty (h : q.size = 1) : entries o (q, st) = 0 := by
  rw [entries, nodes, h]
  rfl

/-- The first node has the lowest priority. -/
theorem Heap.comesFirst (h : Heap o q st) (hsz : 1 < q.size) :
    ComesFirst (entries o (q, st)) (q.d 1, o.getpri st (q.d 1)) := by
  refine ⟨Multiset.mem_map.mpr ⟨q.d 1, mem_nodes.mpr ⟨1, Nat.le_refl 1, hsz, rfl⟩, rfl⟩,
    fun f hf => ?_⟩
  obtain ⟨y, hy, rfl⟩ := Multiset.mem_map.mp hf
  exact h.first_le (mem_nodes.mp hy)

/-! ## the operations leave the priorities alone -/

theorem insert_getpri (law : o.Lawful) (hsz : 1 ≤ q.size) (y : ν) :
    o.getpri (q.insert o st x).2 y = o.getpri st y :=
  insert_frame (R := fun st' => o.getpri st' y = o.getpri st y) hsz
    (fun _ _ _ _ hst => by rw [law.getpri_setpos]; exact hst) rfl

theorem pop_getpri (law : o.Lawful) (hsz : 1 < q.size) (y : ν) :
    o.getpri (q.pop o st).2.2 y = o.getpri st y :=
  pop_frame (R := fun st' => o.getpri st' y = o.getpri st y) hsz
    (fun _ _ _ _ hst => by rw [law.getpri_setpos]; exact hst) rfl

theorem remove_getpri (law : o.Lawful) (low : LowestFirst o) (h : Ordered o q st) (hx : q.Mem x)
    (y : ν) : o.getpri (q.remove o st x).2 y = o.getpri st y := by
  obtain ⟨h1, hlt, -⟩ := h.placed.getpos_of_mem hx
  by_cases hlast : o.getpos st x = q.size - 1
  · rw [remove_last low h hx hlast, law.getpri_setpos]
  have hset : ∀ st' z p, o.getpri st' y = o.getpri st y →
      o.getpri (o.setpos st' z p) y = o.getpri st y := fun _ _ _ hst => by
    rw [law.getpri_setpos]
    exact hst
  simp only [remove]
  split
  · refine bubbleUp_frame (R := fun st' => o.getpri st' y = o.getpri st y) h1 ?_
      (fun st' z p _ => hset st' z p) rfl
    show o.getpos st x < q.size - 1
    omega
  · exact percolateDown_frame (R := fun st' => o.getpri st' y = o.getpri st y) (fun _ => True)
      h1 trivial (fun _ _ _ => trivial) (fun st' z p _ => hset st' z p) rfl

theorem changePriority_getpri (law : o.Lawful) (hp : Placed o q st) (hx : q.Mem x) (pri : Nat)
    (y : ν) : o.getpri (q.changePriority o st pri x).2 y = o.getpri (o.setpri st x pri) y :=
  changePriority_frame law (R := fun st' => o.getpri st' y = o.getpri (o.setpri st x pri) y) pri hp hx
    (fun _ _ _ _ hst => by rw [law.getpri_setpos]; exact hst) rfl

/-! ## one call -/

variable {s s' : Pqueue ν × σ}

/-- What a call does to the entries. -/
def Acts (o : PqueueOps σ ν) (s s' : Pqueue ν × σ) : Option (PriorityOp ν) → Prop
  | some op => op.Step (entries o s) (entries o s')
  | none => entries o s' = entries o s

theorem acts_change (law : o.Lawful) (field : PriorityField o) (h : Ordered o q st) (hx : q.Mem x)
    (pri : Nat) : Acts o (q, st) (q.changePriority o st pri x) (some (.change x pri)) := by
  obtain ⟨hplaced, -, hmem⟩ := changePriority_spec law pri h.placed hx
  have hnodes : nodes (q.changePriority o st pri x).1 = nodes q :=
    (Multiset.Nodup.ext hplaced.nodup h.placed.nodup).mpr fun y => by
      rw [mem_nodes, mem_nodes, hmem]
  obtain ⟨rest, hrest⟩ := Multiset.exists_cons_of_mem (mem_nodes.mpr hx)
  have hnot : x ∉ rest := by
    have hnodup := h.placed.nodup
    rw [hrest] at hnodup
    exact (Multiset.nodup_cons.mp hnodup).1
  refine ⟨o.getpri st x, rest.map fun y => (y, o.getpri st y), ?_, ?_⟩
  · simp only [entries, hrest, Multiset.map_cons]
  · rw [entries, hnodes, hrest, Multiset.map_cons, changePriority_getpri law h.placed hx,
      field.getpri_setpri]
    refine congrArg _ (Multiset.map_congr rfl fun y hy => ?_)
    rw [changePriority_getpri law h.placed hx,
      field.getpri_setpri_ne _ _ _ _ fun heq => hnot (by rwa [heq] at hy)]

/-- **Step lemma**: a call keeps the order of the heap, and does to the entries what the
call of a priority queue does. -/
theorem Step.refines (law : o.Lawful) (low : LowestFirst o) (field : PriorityField o)
    {ev : Option (PriorityOp ν)} (h : Ordered o s.1 s.2) (hstep : Step o s ev s') :
    Ordered o s'.1 s'.2 ∧ Acts o s s' ev := by
  obtain ⟨q, st⟩ := s
  match ev with
  | some (.insert x pri) =>
    obtain ⟨hx, rfl, rfl⟩ := hstep
    obtain ⟨hordered, hnodes⟩ := h.insert law low hx
    refine ⟨hordered, ?_⟩
    have hkeep : entries o ((q.insert o st x).1, st) = (x, o.getpri st x) ::ₘ entries o (q, st) :=
      entries_cons hnodes
    rw [Acts, PriorityOp.Step, ← hkeep]
    exact entries_congr fun y _ => insert_getpri law h.size y
  | some (.change x pri) =>
    obtain ⟨hx, rfl⟩ := hstep
    exact ⟨h.changePriority law low hx (field.getpri_setpri _ _ _)
      fun y hy => field.getpri_setpri_ne _ _ _ _ hy, acts_change law field h hx pri⟩
  | some (.remove x) =>
    obtain ⟨hx, rfl⟩ := hstep
    obtain ⟨hordered, hnodes⟩ := h.remove law low hx
    refine ⟨hordered, o.getpri st x, ?_⟩
    rw [entries_cons hnodes]
    exact congrArg _ (entries_congr fun y _ => remove_getpri law low h hx y).symm
  | some (.peek r) =>
    obtain ⟨hpeek, rfl⟩ := hstep
    refine ⟨h, ?_⟩
    cases r with
    | none =>
        have hsz : q.size = 1 := by
          by_contra hne
          rw [Pqueue.peek, if_neg hne] at hpeek
          cases hpeek
        exact ⟨entries_empty hsz, entries_empty hsz⟩
    | some x =>
        obtain ⟨hsz, rfl, -⟩ := peek_eq_some h.size hpeek
        exact ⟨rfl, _, h.heap.comesFirst hsz⟩
  | some (.pop r) =>
    have hpop : q.pop o st = (r, s') := hstep
    by_cases hsz : q.size = 1
    · rw [pop, if_pos hsz] at hpop
      cases hpop
      exact ⟨h, entries_empty hsz, entries_empty hsz⟩
    · have hsz : 1 < q.size := Nat.lt_of_le_of_ne h.size (Ne.symm hsz)
      obtain ⟨hordered, hnodes⟩ := h.pop law low hsz
      have hhead := (pop_spec law h.placed hsz).1
      have hpri (y : ν) : o.getpri (q.pop o st).2.2 y = o.getpri st y := pop_getpri law hsz y
      rw [hpop] at hordered hnodes hhead hpri
      obtain rfl : r = some (q.d 1) := hhead
      refine ⟨hordered, _, h.heap.comesFirst hsz, ?_⟩
      rw [entries_cons hnodes]
      exact congrArg _ (entries_congr fun y _ => hpri y).symm
  | none =>
    obtain ⟨hq, hother⟩ := hstep
    obtain ⟨q', st'⟩ := s'
    obtain rfl : q' = q := hq
    exact ⟨h.congr (fun y hy => (hother y hy).1) fun y hy => (hother y hy).2,
      entries_congr fun y hy => (hother y hy).2⟩

/-! ## any run -/

/-- The queue after some calls: they were calls of a priority queue, which holds the nodes of the
heap. Each node is in the slot that it records, the check of the order succeeds, and nodes
that are popped from now on come in the order of their priorities. -/
structure IsPriorityQueue (o : PqueueOps σ ν) (evs : List (Option (PriorityOp ν)))
    (s : Pqueue ν × σ) : Prop where
  run : Run PriorityOp.Step 0 evs.reduceOption (entries o s)
  count : s.1.count = Multiset.card (entries o s)
  placed : Placed o s.1 s.2
  valid : s.1.isValid o s.2 = true
  sorts : ∀ xs s', Run (Step o) s (xs.map fun x => some (.pop (some x))) s' →
    ∃ es : List (ν × Nat), es.map Prod.fst = xs ∧ entries o s = es + entries o s' ∧
      es.Pairwise (fun e f => e.2 ≤ f.2) ∧ ∀ e ∈ es, ∀ f ∈ entries o s', e.2 ≤ f.2

/-- **Run lemma**: a run of calls is a run of a priority queue. -/
theorem run_refines (law : o.Lawful) (low : LowestFirst o) (field : PriorityField o)
    {evs : List (Option (PriorityOp ν))} (hrun : Run (Step o) s evs s') (h : Ordered o s.1 s.2) :
    Ordered o s'.1 s'.2 ∧ Run PriorityOp.Step (entries o s) evs.reduceOption (entries o s') := by
  induction hrun with
  | nil s => exact ⟨h, .nil _⟩
  | @cons s t s' ev evs head tail ih =>
      obtain ⟨hordered, hacts⟩ := head.refines law low field h
      obtain ⟨hend, hrun⟩ := ih hordered
      refine ⟨hend, ?_⟩
      cases ev with
      | none =>
          have hsame : entries o t = entries o s := hacts
          rw [← hsame]
          exact hrun
      | some op => exact .cons hacts hrun

/-- Pops are calls, each of them. -/
theorem reduceOption_pops (xs : List ν) :
    (xs.map fun x => some (PriorityOp.pop (some x))).reduceOption =
      xs.map fun x => PriorityOp.pop (some x) := by
  induction xs with
  | nil => rfl
  | cons x xs ih => rw [List.map_cons, List.reduceOption_cons_of_some, ih, List.map_cons]

/-- **The heap is a priority queue**, for callbacks that put the lowest priority first, over
any run of calls and of changes to nodes outside of it. -/
theorem pqueue_refines [Inhabited ν] (law : o.Lawful) (low : LowestFirst o)
    (field : PriorityField o) {st₀ : σ} {evs : List (Option (PriorityOp ν))}
    (hrun : Run (Step o) (init, st₀) evs s) : IsPriorityQueue o evs s := by
  obtain ⟨h, hentries⟩ := run_refines law low field hrun init_ordered
  refine ⟨hentries, ?_, h.placed, (isValid_iff low).mpr h.heap, fun xs s' hpops => ?_⟩
  · simp [entries, nodes, count]
  · obtain ⟨-, hpops⟩ := run_refines law low field hpops h
    rw [reduceOption_pops] at hpops
    exact PriorityOp.run_pops hpops

/-- Nodes that are numbers, with a priority and a slot each. -/
def numberOps : PqueueOps (Nat → Nat × Nat) Nat where
  cmppri next curr := decide (curr < next)
  getpri st x := (st x).1
  setpri st x pri := Function.update st x (pri, (st x).2)
  getpos st x := (st x).2
  setpos st x pos := Function.update st x ((st x).1, pos)

theorem numberOps_lawful : numberOps.Lawful where
  getpos_setpos st x p := by simp [numberOps]
  getpos_setpos_ne st x y p h := by simp [numberOps, h]
  getpri_setpos st x y p := by
    by_cases h : y = x
    · simp [numberOps, h]
    · simp [numberOps, h]
  getpos_setpri st x y r := by
    by_cases h : y = x
    · simp [numberOps, h]
    · simp [numberOps, h]

theorem numberOps_field : PriorityField numberOps where
  getpri_setpri st x pri := by simp [numberOps]
  getpri_setpri_ne st x y pri h := by simp [numberOps, h]

theorem pqueue_refines_small :
    ∃ r s, Run (Step numberOps) (init, fun x => (x, 0))
        [some (.insert 5 5), some (.insert 3 3), some (.change 5 1), some (.pop r)] s ∧
      IsPriorityQueue numberOps
        [some (.insert 5 5), some (.insert 3 3), some (.change 5 1), some (.pop r)] s := by
  let st : Nat → Nat × Nat := fun x => (x, 0)
  have hempty : ∀ x, ¬ (init : Pqueue Nat).Mem x := by
    rintro x ⟨k, hk1, hk, -⟩
    exact absurd hk (Nat.not_lt.mpr hk1)
  have hstart : Ordered numberOps init st := init_ordered
  obtain ⟨hp₁, hsz₁, hm₁⟩ :=
    insert_spec numberOps_lawful hstart.placed (Nat.le_refl 1) (hempty 5)
  have h3 : ¬ ((init : Pqueue Nat).insert numberOps st 5).1.Mem 3 := by
    rw [hm₁]
    rintro (h | h)
    · exact absurd h (by decide)
    · exact hempty 3 h
  have h5 := (insert_spec numberOps_lawful hp₁ (by rw [hsz₁]; exact Nat.le_add_left _ _) h3).2.2 5
  have hpri : numberOps.getpri ((init : Pqueue Nat).insert numberOps st 5).2 3 = 3 :=
    insert_getpri numberOps_lawful (Nat.le_refl 1) 3
  have hinsert₁ : Step numberOps (init, st) (some (.insert 5 5)) _ := ⟨hempty 5, rfl, rfl⟩
  have hinsert₂ : Step numberOps _ (some (.insert 3 3)) _ := ⟨h3, hpri, rfl⟩
  have hchange : Step numberOps _ (some (.change 5 1)) _ :=
    ⟨h5.mpr (.inr ((hm₁ 5).mpr (.inl rfl))), rfl⟩
  have hpop : ∀ s, Step numberOps s (some (.pop (s.1.pop numberOps s.2).1)) (s.1.pop numberOps s.2).2 :=
    fun _ => rfl
  have hrun := Run.cons hinsert₁ (.cons hinsert₂ (.cons hchange (.cons (hpop _) (.nil _))))
  exact ⟨_, _, hrun, pqueue_refines numberOps_lawful (fun _ _ => rfl) numberOps_field hrun⟩

end Femu.Pqueue

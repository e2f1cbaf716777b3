import Mathlib.Data.Multiset.AddSub
import Mathlib.Data.List.Nodup
import Femu.Pqueue

/-!
# Femu.Pqueue.Order

The order of the heap of `lib/pqueue.c`, for callbacks that put the lowest priority first: a
node never comes before its parent, so `pqueue_peek` finds a node of the lowest priority.
Both sifts move a hole through the slots, and drop the node in hand where it is in order with
its neighbours.

* `Heap` — the order of the slots;
* `nodes` — the nodes as a multiset;
* `insert_heap`, `pop_heap` — what the operations do to both.
-/

namespace Femu.Pqueue

variable {σ ν : Type} {o : PqueueOps σ ν} {q : Pqueue ν} {st : σ} {hole c i : Nat} {x : ν}

/-- The callbacks put the lowest priority first. -/
def LowestFirst (o : PqueueOps σ ν) : Prop := ∀ next curr, o.cmppri next curr = decide (curr < next)

/-- No node has a lower priority than its parent. -/
def Heap (o : PqueueOps σ ν) (q : Pqueue ν) (st : σ) : Prop :=
  ∀ k, 2 ≤ k → k < q.size → o.getpri st (q.d (k / 2)) ≤ o.getpri st (q.d k)

/-- The first node has the lowest priority. -/
theorem Heap.first_le (h : Heap o q st) (hx : q.Mem x) :
    o.getpri st (q.d 1) ≤ o.getpri st x := by
  obtain ⟨k, hk1, hk, rfl⟩ := hx
  induction k using Nat.strongRecOn with
  | ind k ih =>
      by_cases hk2 : k = 1
      · rw [hk2]
      · exact Nat.le_trans (ih (k / 2) (by omega) (by omega) (by omega)) (h k (by omega) hk)

/-- A queue with a node has a first one. -/
theorem exists_peek (hx : q.Mem x) : ∃ y, q.peek = some y := by
  obtain ⟨k, hk1, hk, -⟩ := hx
  have hne : q.size ≠ 1 := by omega
  exact ⟨q.d 1, if_neg hne⟩

/-! ## a hole -/

/-- The slots around the one at `hole` are in order, the ones above and below it with each
other. -/
structure HeapHole (o : PqueueOps σ ν) (q : Pqueue ν) (st : σ) (hole : Nat) : Prop where
  one_le : 1 ≤ hole
  ord : ∀ k, 2 ≤ k → k < q.size → k ≠ hole → k / 2 ≠ hole →
    o.getpri st (q.d (k / 2)) ≤ o.getpri st (q.d k)
  skip : ∀ k, 2 ≤ hole → k < q.size → k / 2 = hole →
    o.getpri st (q.d (hole / 2)) ≤ o.getpri st (q.d k)

/-- The node in hand comes after what is above the hole. -/
def Above (o : PqueueOps σ ν) (q : Pqueue ν) (st : σ) (hole : Nat) (x : ν) : Prop :=
  2 ≤ hole → o.getpri st (q.d (hole / 2)) ≤ o.getpri st x

/-- The node in hand comes before what is below the hole. -/
def Below (o : PqueueOps σ ν) (q : Pqueue ν) (st : σ) (hole : Nat) (x : ν) : Prop :=
  ∀ k, k < q.size → k / 2 = hole → o.getpri st x ≤ o.getpri st (q.d k)

/-- A heap without the node of one of its slots. -/
theorem Heap.heapHole (h : Heap o q st) (h1 : 1 ≤ hole) (hlt : hole < q.size) :
    HeapHole o q st hole where
  one_le := h1
  ord k hk2 hk _ _ := h k hk2 hk
  skip k hh hk hkh := by
    have habove := h hole hh hlt
    have hbelow := h k (by omega) hk
    rw [hkh] at hbelow
    exact Nat.le_trans habove hbelow

/-- The node of the hole does not matter. -/
theorem HeapHole.congr {st' : σ} (h : HeapHole o q st hole)
    (hpri : ∀ k, 1 ≤ k → k < q.size → k ≠ hole → o.getpri st' (q.d k) = o.getpri st (q.d k)) :
    HeapHole o q st' hole where
  one_le := h.one_le
  ord k hk2 hk hkh hph := by
    rw [hpri (k / 2) (by omega) (by omega) hph, hpri k (by omega) hk hkh]
    exact h.ord k hk2 hk hkh hph
  skip k hh hk hkh := by
    rw [hpri (hole / 2) (by omega) (by omega) (by omega), hpri k (by omega) hk (by omega)]
    exact h.skip k hh hk hkh

theorem HeapHole.finish (h : HeapHole o q st hole) (habove : Above o q st hole x)
    (hbelow : Below o q st hole x) : Heap o (q.set hole x) st := by
  intro k hk2 hk
  rw [set_size] at hk
  by_cases hkh : k = hole
  · subst hkh
    rw [set_d_self, set_d_ne _ _ (by omega)]
    exact habove hk2
  · rw [set_d_ne _ _ hkh]
    by_cases hph : k / 2 = hole
    · rw [hph, set_d_self]
      exact hbelow k hk hph
    · rw [set_d_ne _ _ hph]
      exact h.ord k hk2 hk hkh hph

/-- The parent moves down into the hole. -/
theorem HeapHole.moveDown (h : HeapHole o q st hole) (hh : 2 ≤ hole) (hlt : hole < q.size) :
    HeapHole o (q.set hole (q.d (hole / 2))) st (hole / 2) := by
  constructor
  case one_le => omega
  case ord =>
    intro k hk2 hk hkh hph
    rw [set_size] at hk
    have hne : k ≠ hole := by
      rintro rfl
      exact hph rfl
    rw [set_d_ne _ _ hne]
    by_cases hkp : k / 2 = hole
    · rw [hkp, set_d_self]
      exact h.skip k hh hk hkp
    · rw [set_d_ne _ _ hkp]
      exact h.ord k hk2 hk hne hkp
  case skip =>
    intro k hp hk hkp
    rw [set_size] at hk
    have hup := h.ord (hole / 2) hp (by omega) (by omega) (by omega)
    rw [set_d_ne _ _ (by omega)]
    by_cases hkh : k = hole
    · rw [hkh, set_d_self]
      exact hup
    · rw [set_d_ne _ _ hkh]
      have hsib := h.ord k (by omega) hk hkh (by omega)
      rw [hkp] at hsib
      exact Nat.le_trans hup hsib

theorem below_moveDown (h : HeapHole o q st hole) (hh : 2 ≤ hole)
    (hx : o.getpri st x ≤ o.getpri st (q.d (hole / 2))) :
    Below o (q.set hole (q.d (hole / 2))) st (hole / 2) x := by
  intro k hk hkp
  rw [set_size] at hk
  by_cases hkh : k = hole
  · rw [hkh, set_d_self]
    exact hx
  · rw [set_d_ne _ _ hkh]
    have hsib := h.ord k (by omega) hk hkh (by omega)
    rw [hkp] at hsib
    exact Nat.le_trans hx hsib

/-- The first child `c` moves up into the hole. -/
theorem HeapHole.moveUp (h : HeapHole o q st hole) (hc : c < q.size) (hchild : c / 2 = hole)
    (hfirst : ∀ k, k < q.size → k / 2 = hole → o.getpri st (q.d c) ≤ o.getpri st (q.d k)) :
    HeapHole o (q.set hole (q.d c)) st c := by
  have h1 := h.one_le
  constructor
  case one_le => omega
  case ord =>
    intro k hk2 hk hkc hpc
    rw [set_size] at hk
    by_cases hkh : k = hole
    · subst hkh
      rw [set_d_self, set_d_ne _ _ (by omega)]
      exact h.skip c hk2 hc hchild
    · rw [set_d_ne _ _ hkh]
      by_cases hkp : k / 2 = hole
      · rw [hkp, set_d_self]
        exact hfirst k hk hkp
      · rw [set_d_ne _ _ hkp]
        exact h.ord k hk2 hk hkh hkp
  case skip =>
    intro k hc2 hk hkc
    rw [set_size] at hk
    rw [hchild, set_d_self, set_d_ne _ _ (by omega)]
    have hbelow := h.ord k (by omega) hk (by omega) (by omega)
    rw [hkc] at hbelow
    exact hbelow

theorem above_moveUp (hchild : c / 2 = hole) (hx : o.getpri st (q.d c) ≤ o.getpri st x) :
    Above o (q.set hole (q.d c)) st c x := by
  intro _
  rw [hchild, set_d_self]
  exact hx

/-! ## the sifts -/

/-- The order depends on the priorities only. -/
theorem Heap.setpos (law : o.Lawful) (p : Nat) (h : Heap o q st) : Heap o q (o.setpos st x p) := by
  intro k hk2 hk
  rw [law.getpri_setpos, law.getpri_setpos]
  exact h k hk2 hk

theorem HeapHole.setpos (law : o.Lawful) (p : Nat) (h : HeapHole o q st hole) :
    HeapHole o q (o.setpos st x p) hole where
  one_le := h.one_le
  ord k := by
    rw [law.getpri_setpos, law.getpri_setpos]
    exact h.ord k
  skip k := by
    rw [law.getpri_setpos, law.getpri_setpos]
    exact h.skip k

theorem Above.setpos {y : ν} (law : o.Lawful) (p : Nat) (h : Above o q st hole x) :
    Above o q (o.setpos st y p) hole x := by
  unfold Above
  rw [law.getpri_setpos, law.getpri_setpos]
  exact h

theorem Below.setpos {y : ν} (law : o.Lawful) (p : Nat) (h : Below o q st hole x) :
    Below o q (o.setpos st y p) hole x := by
  intro k hk hkh
  rw [law.getpri_setpos, law.getpri_setpos]
  exact h k hk hkh

theorem bubbleUpLoop_heap (law : o.Lawful) (low : LowestFirst o) (pri : Nat) (q : Pqueue ν) (st : σ)
    (i : Nat) (hpri : o.getpri st x = pri) (h : HeapHole o q st i) (hi : i < q.size)
    (hbelow : Below o q st i x) {q' : Pqueue ν} {st' : σ} {i' : Nat}
    (hr : bubbleUpLoop o pri q st i = (q', st', i')) : Heap o (q'.set i' x) (o.setpos st' x i') := by
  fun_induction bubbleUpLoop o pri q st i with
  | case1 q st i hc ih =>
      rw [low, decide_eq_true_eq, ← hpri] at hc
      refine ih ?_ ((h.moveDown hc.1 hi).setpos law i) ?_ ?_ hr
      · rw [law.getpri_setpos, hpri]
      · rw [set_size]
        omega
      · exact (below_moveDown h hc.1 (Nat.le_of_lt hc.2)).setpos law i
  | case2 q st i hc =>
      cases hr
      rw [low, decide_eq_true_eq, ← hpri] at hc
      exact (h.finish (fun hi2 => by omega) hbelow).setpos law _

/-- `maxchild` finds no child only where there is none, and else one that comes first. -/
theorem maxchild_first (low : LowestFirst o) (q : Pqueue ν) (st : σ) (hi : 1 ≤ i) :
    (maxchild o q st i = 0 → q.size ≤ 2 * i) ∧
      (maxchild o q st i ≠ 0 → ∀ k, k < q.size → k / 2 = i →
        o.getpri st (q.d (maxchild o q st i)) ≤ o.getpri st (q.d k)) := by
  have hchild : ∀ k, k / 2 = i → k = 2 * i ∨ k = 2 * i + 1 := fun k hk => by omega
  have hlow : ∀ next curr, o.cmppri next curr = decide (curr < next) := low
  unfold maxchild
  simp only [hlow, decide_eq_true_eq]
  split
  case isTrue hnone => exact ⟨fun _ => hnone, fun h => absurd rfl h⟩
  case isFalse =>
    split
    case isTrue hright =>
      refine ⟨fun h => by omega, fun _ k hk hki => ?_⟩
      rcases hchild k hki with rfl | rfl
      · exact Nat.le_of_lt hright.2
      · exact Nat.le_refl _
    case isFalse hleft =>
      refine ⟨fun h => by omega, fun _ k hk hki => ?_⟩
      rcases hchild k hki with rfl | rfl
      · exact Nat.le_refl _
      · omega

theorem percolateDownLoop_heap (law : o.Lawful) (low : LowestFirst o) (pri : Nat) (q : Pqueue ν)
    (st : σ) (i : Nat) (hpri : o.getpri st x = pri) (h : HeapHole o q st i)
    (habove : Above o q st i x) {q' : Pqueue ν} {st' : σ} {i' : Nat}
    (hr : percolateDownLoop o pri q st i = (q', st', i')) :
    Heap o (q'.set i' x) (o.setpos st' x i') := by
  fun_induction percolateDownLoop o pri q st i with
  | case1 q st i hc ih =>
      rw [low, decide_eq_true_eq, ← hpri] at hc
      obtain ⟨hlt, hchild⟩ := (maxchild_cases o q st i).resolve_left hc.1
      have hhalf : maxchild o q st i / 2 = i := by omega
      have hfirst := (maxchild_first low q st h.one_le).2 hc.1
      refine ih ?_ ((h.moveUp hlt hhalf hfirst).setpos law i) ?_ hr
      · rw [law.getpri_setpos, hpri]
      · exact (above_moveUp hhalf (Nat.le_of_lt hc.2)).setpos law i
  | case2 q st i hc =>
      cases hr
      rw [low, decide_eq_true_eq, ← hpri] at hc
      obtain ⟨hnone, hfirst⟩ := maxchild_first low q' st' h.one_le
      refine (h.finish habove fun k hk hki => ?_).setpos law _
      by_cases hzero : maxchild o q' st' i' = 0
      · have hsize := hnone hzero
        omega
      · exact Nat.le_trans (by omega) (hfirst hzero k hk hki)

/-! ## the nodes -/

def nodes (q : Pqueue ν) : Multiset ν := ((List.range' 1 (q.size - 1)).map q.d : List ν)

@[simp] theorem mem_nodes : x ∈ nodes q ↔ q.Mem x := by
  simp only [nodes, Multiset.mem_coe, List.mem_map, List.mem_range'_1, Mem]
  refine exists_congr fun k => ?_
  rw [and_assoc]
  exact and_congr_right fun hk => and_congr_left' (by omega)

@[simp] theorem nodes_init [Inhabited ν] : nodes (init : Pqueue ν) = 0 := rfl

/-- A node that knows its slot is in no other. -/
theorem Placed.nodup (hp : Placed o q st) : (nodes q).Nodup := by
  rw [nodes, Multiset.coe_nodup]
  refine List.Nodup.map_on (fun j hj k hk heq => ?_) List.nodup_range'
  rw [List.mem_range'_1] at hj hk
  have hpos := hp j hj.1 (by omega)
  rw [heq, hp k hk.1 (by omega)] at hpos
  exact hpos.symm

/-! ## the operations -/

/-- What the poller keeps of its queue. -/
structure Ordered (o : PqueueOps σ ν) (q : Pqueue ν) (st : σ) : Prop where
  size : 1 ≤ q.size
  placed : Placed o q st
  heap : Heap o q st

theorem init_ordered [Inhabited ν] : Ordered o init st where
  size := Nat.le_refl 1
  placed _ hk1 hk := absurd hk (Nat.not_lt.mpr hk1)
  heap _ hk2 hk := absurd hk (Nat.not_lt.mpr (Nat.le_of_succ_le hk2))

/-- Inserting a node that is not in the queue. -/
theorem Ordered.insert (law : o.Lawful) (low : LowestFirst o) (h : Ordered o q st)
    (hx : ¬ q.Mem x) :
    Ordered o (q.insert o st x).1 (q.insert o st x).2 ∧
      nodes (q.insert o st x).1 = x ::ₘ nodes q := by
  obtain ⟨hplaced, hsize, hmem⟩ := insert_spec law h.placed h.size hx
  have hsize1 := h.size
  constructor
  · refine ⟨by omega, hplaced, ?_⟩
    have hold : ∀ k, k < q.size → Function.update q.d q.size x k = q.d k :=
      fun k hk => Function.update_of_ne (Nat.ne_of_lt hk) ..
    -- the new slot is the last one, with none below it
    refine bubbleUpLoop_heap law low _ _ st q.size rfl ⟨h.size, fun k hk2 hk hne _ => ?_,
      fun k _ hk hkh => ?_⟩ (Nat.lt_succ_self _) (fun k hk hkh => ?_) rfl
    · have hlt : k < q.size := Nat.lt_of_le_of_ne (Nat.le_of_lt_succ hk) hne
      dsimp only
      rw [hold k hlt, hold (k / 2) (by omega)]
      exact h.heap k hk2 hlt
    · dsimp only at hk
      omega
    · dsimp only at hk
      omega
  · refine (Multiset.Nodup.ext hplaced.nodup ?_).mpr fun y => ?_
    · exact Multiset.nodup_cons.mpr ⟨fun hin => hx (mem_nodes.mp hin), h.placed.nodup⟩
    · rw [mem_nodes, hmem, Multiset.mem_cons, mem_nodes]

/-- Taking the first node out. -/
theorem Ordered.pop (law : o.Lawful) (low : LowestFirst o) (h : Ordered o q st)
    (hsz : 1 < q.size) :
    Ordered o (q.pop o st).2.1 (q.pop o st).2.2 ∧
      nodes q = q.d 1 ::ₘ nodes (q.pop o st).2.1 := by
  obtain ⟨-, hplaced, hsize, hmem⟩ := pop_spec law h.placed hsz
  have hfirst : q.Mem (q.d 1) := ⟨1, Nat.le_refl 1, hsz, rfl⟩
  constructor
  · refine ⟨by omega, hplaced, ?_⟩
    rw [Pqueue.pop, if_neg (by omega)]
    have hold : ∀ k, k ≠ 1 →
        (Pqueue.set { q with size := q.size - 1 } 1 (q.d (q.size - 1))).d k = q.d k :=
      fun _ hk => set_d_ne _ _ hk
    refine percolateDownLoop_heap law low _ _ st 1 rfl ⟨Nat.le_refl 1, fun k hk2 hk hne hph => ?_,
      fun _ h2 => absurd h2 (by omega)⟩ (fun h2 => absurd h2 (by omega)) rfl
    rw [hold k hne, hold _ hph]
    rw [set_size] at hk
    exact h.heap k hk2 (by dsimp only at hk; omega)
  · refine (Multiset.Nodup.ext h.placed.nodup ?_).mpr fun y => ?_
    · refine Multiset.nodup_cons.mpr ⟨fun hin => ?_, hplaced.nodup⟩
      exact ((hmem _).mp (mem_nodes.mp hin)).2 rfl
    · rw [mem_nodes, Multiset.mem_cons, mem_nodes, hmem]
      constructor
      · intro hy
        by_cases heq : y = q.d 1
        · exact .inl heq
        · exact .inr ⟨hy, heq⟩
      · rintro (rfl | ⟨hy, -⟩)
        · exact hfirst
        · exact hy

/-- Changing the priority of a node, the others keeping theirs. -/
theorem Ordered.changePriority (law : o.Lawful) (low : LowestFirst o) (h : Ordered o q st)
    (hx : q.Mem x) {newPri : Nat} (hset : o.getpri (o.setpri st x newPri) x = newPri)
    (hother : ∀ y, y ≠ x → o.getpri (o.setpri st x newPri) y = o.getpri st y) :
    Ordered o (q.changePriority o st newPri x).1 (q.changePriority o st newPri x).2 := by
  obtain ⟨hplaced, hsize, -⟩ := changePriority_spec law newPri h.placed hx
  obtain ⟨hpos1, hpos, hat⟩ := h.placed.getpos_of_mem hx
  refine ⟨by have := h.size; omega, hplaced, ?_⟩
  have hne : ∀ k, 1 ≤ k → k < q.size → k ≠ o.getpos st x →
      o.getpri (o.setpri st x newPri) (q.d k) = o.getpri st (q.d k) := by
    intro k hk1 hk hkp
    refine hother _ fun heq => hkp ?_
    rw [← heq, h.placed k hk1 hk]
  have hhole := (h.heap.heapHole hpos1 hpos).congr hne
  have hpri : o.getpri (o.setpri st x newPri) (q.d (o.getpos st x)) = newPri := by rw [hat, hset]
  simp only [Pqueue.changePriority, law.getpos_setpri]
  split
  case isTrue hlower =>
    rw [low, decide_eq_true_eq] at hlower
    refine bubbleUpLoop_heap law low _ _ _ _ rfl hhole hpos (fun k hk hkh => ?_) rfl
    have hchild := h.heap k (by omega) hk
    rw [hkh, hat] at hchild
    rw [hpri, hne k (by omega) hk (by omega)]
    omega
  case isFalse hhigher =>
    rw [low, decide_eq_true_eq] at hhigher
    refine percolateDownLoop_heap law low _ _ _ _ rfl hhole (fun hh => ?_) rfl
    have hparent := h.heap _ hh hpos
    rw [hat] at hparent
    rw [hpri, hne _ (by omega) (by omega) (by omega)]
    omega

/-- Nodes outside the queue do not matter. -/
theorem Ordered.congr {st' : σ} (h : Ordered o q st)
    (hpos : ∀ y, q.Mem y → o.getpos st' y = o.getpos st y)
    (hpri : ∀ y, q.Mem y → o.getpri st' y = o.getpri st y) : Ordered o q st' where
  size := h.size
  placed k hk1 hk := (hpos _ ⟨k, hk1, hk, rfl⟩).trans (h.placed k hk1 hk)
  heap k hk2 hk := by
    rw [hpri _ ⟨k / 2, by omega, by omega, rfl⟩, hpri _ ⟨k, by omega, hk, rfl⟩]
    exact h.heap k hk2 hk

end Femu.Pqueue

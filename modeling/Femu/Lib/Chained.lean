import Mathlib.Algebra.Ring.Nat
import Mathlib.Tactic.Common

/-!
# Femu.Lib.Chained

A list that is stored in chained blocks: a block has a number of slots, each
slot holds an item, and when the items that remain do not fit, the last slot of
the block holds the link to the next block instead.

`chained` lists the slots in the order in which a reader of the list meets them.
It is given block by block, by the number of links it takes; `chained_item` and
`chained_link` are the steps of a reader that goes slot by slot.
-/

namespace Femu.Lib

variable {α : Type}

/-- What a reader finds in a slot. -/
inductive Cell (α : Type)
  | item (a : α)
  | link (a : α)
deriving DecidableEq

namespace Cell

/-- The content of a slot, whatever it stands for. -/
def val : Cell α → α
  | item a => a
  | link a => a

/-- The content of a slot that holds an item. -/
def item? : Cell α → Option α
  | item a => some a
  | link _ => none

@[simp] theorem val_item (a : α) : (item a).val = a := rfl

@[simp] theorem val_link (a : α) : (link a).val = a := rfl

@[simp] theorem item?_item (a : α) : (item a).item? = some a := rfl

@[simp] theorem item?_link (a : α) : (link a).item? = none := rfl

end Cell

/-- The items that a reader has met, in order. -/
def payload (cs : List (Cell α)) : List α := cs.filterMap Cell.item?

@[simp] theorem payload_nil : payload ([] : List (Cell α)) = [] := rfl

@[simp] theorem payload_item (a : α) (cs : List (Cell α)) :
    payload (.item a :: cs) = a :: payload cs := by simp [payload]

@[simp] theorem payload_link (a : α) (cs : List (Cell α)) :
    payload (.link a :: cs) = payload cs := List.filterMap_cons_none rfl

/-- The first `n` slots of a block, all of them items. -/
def items (f : Nat → α) (n : Nat) : List (Cell α) := (List.range n).map fun i => .item (f i)

@[simp] theorem items_zero (f : Nat → α) : items f 0 = [] := rfl

theorem items_succ (f : Nat → α) (n : Nat) :
    items f (n + 1) = .item (f 0) :: items (fun i => f (i + 1)) n := by
  simp [items, List.range_succ_eq_map, Function.comp_def]

@[simp] theorem payload_items (f : Nat → α) (n : Nat) :
    payload (items f n) = (List.range n).map f := by
  simp [payload, items, List.filterMap_map, Function.comp_def]

/-! ## chained blocks -/

variable (slot : α → Nat → α) (cap : Nat)

/-- The number of links that `n` items take when the first block has `room`
slots and every later one has `cap`: a link gives up one slot of its block. -/
def links (room n : Nat) : Nat := (n - room + (cap - 2)) / (cap - 1)

/-- The slots of a list of `n` items that follows a given number of links. The
function `f` is the content of the first block, `slot p` that of block `p`. -/
def chainedBy : Nat → Nat → (Nat → α) → Nat → List (Cell α)
  | 0, _, f, n => items f n
  | k + 1, room, f, n =>
    items f (room - 1) ++
      .link (f (room - 1)) :: chainedBy k cap (slot (f (room - 1))) (n - (room - 1))

/-- The slots of a list of `n` items whose first block is `f`, with `room` slots. -/
def chained (room : Nat) (f : Nat → α) (n : Nat) : List (Cell α) :=
  chainedBy slot cap (links cap room n) room f n

variable {slot cap}

theorem links_of_le (hcap : 2 ≤ cap) {room n : Nat} (h : n ≤ room) : links cap room n = 0 := by
  rw [links, Nat.sub_eq_zero_of_le h]
  exact Nat.div_eq_of_lt (by omega)

theorem links_of_lt (hcap : 2 ≤ cap) {room n : Nat} (hroom : 0 < room) (h : room < n) :
    links cap room n = links cap cap (n - (room - 1)) + 1 := by
  simp only [links]
  by_cases hlast : n - (room - 1) < cap
  · -- the items that remain fit into the next block
    rw [show n - (room - 1) - cap + (cap - 2) = cap - 2 by omega,
      Nat.div_eq_of_lt (show cap - 2 < cap - 1 by omega)]
    exact Nat.div_eq_of_lt_le (by omega) (by omega)
  · rw [← Nat.add_div_right _ (show 0 < cap - 1 by omega)]
    congr 1
    omega

/-- Items that fit into the first block leave its last slot to an item. -/
theorem chained_of_le (hcap : 2 ≤ cap) {room n : Nat} (f : Nat → α) (h : n ≤ room) :
    chained slot cap room f n = items f n := by
  rw [chained, links_of_le hcap h, chainedBy]

/-- Otherwise the last slot of the block is the link to the next one. -/
theorem chained_of_lt (hcap : 2 ≤ cap) {room n : Nat} (f : Nat → α) (hroom : 0 < room)
    (h : room < n) :
    chained slot cap room f n =
      items f (room - 1) ++ .link (f (room - 1)) ::
        chained slot cap cap (slot (f (room - 1))) (n - (room - 1)) := by
  rw [chained, links_of_lt hcap hroom h, chainedBy, chained]

theorem link_notMem_items (f : Nat → α) (n : Nat) (ptr : α) : Cell.link ptr ∉ items f n := by
  simp [items]

/-- The last slot of a block is a link if and only if more than one item remains
when a reader comes to it. -/
theorem chained_link_iff (hcap : 2 ≤ cap) {room : Nat} (f : Nat → α) (n : Nat) (hroom : 0 < room) :
    (∃ ptr cs, chained slot cap room f n = items f (room - 1) ++ .link ptr :: cs) ↔
      1 < n - (room - 1) := by
  constructor
  case mp =>
    intro h
    obtain ⟨ptr, cs, h⟩ := h
    by_contra hlast
    rw [chained_of_le hcap f (show n ≤ room by omega)] at h
    have hmem : Cell.link ptr ∈ items f n := by simp [h]
    exact link_notMem_items f n ptr hmem
  case mpr =>
    intro h
    exact ⟨_, _, chained_of_lt hcap f hroom (by omega)⟩

theorem chained_zero (hcap : 2 ≤ cap) (room : Nat) (f : Nat → α) :
    chained slot cap room f 0 = [] := by
  rw [chained_of_le hcap f (Nat.zero_le room), items_zero]

/-- A slot that is not the last of its block, or that the last item goes to,
holds an item. -/
theorem chained_item (hcap : 2 ≤ cap) {room n : Nat} (f : Nat → α) (hroom : 0 < room)
    (h : 1 < room ∨ n = 0) :
    chained slot cap room f (n + 1) =
      .item (f 0) :: chained slot cap (room - 1) (fun i => f (i + 1)) n := by
  by_cases hle : n + 1 ≤ room
  · rw [chained_of_le hcap f hle, chained_of_le hcap _ (by omega), items_succ]
  · obtain ⟨r, rfl⟩ : ∃ r, room = r + 2 := ⟨room - 2, by omega⟩
    have hrest : chained slot cap (r + 1) (fun i => f (i + 1)) n = _ :=
      chained_of_lt hcap _ (by omega) (by omega)
    simp only [Nat.add_sub_cancel] at hrest
    rw [chained_of_lt hcap f hroom (by omega), show r + 2 - 1 = r + 1 by omega, hrest, items_succ,
      List.cons_append, show n + 1 - (r + 1) = n - r by omega]

/-- The last slot of a block is a link when more than one item remains. -/
theorem chained_link (hcap : 2 ≤ cap) {n : Nat} (f : Nat → α) (h : 1 < n) :
    chained slot cap 1 f n = .link (f 0) :: chained slot cap cap (slot (f 0)) n := by
  rw [chained_of_lt hcap f Nat.one_pos h]
  simp

/-- The blocks hold all the items. -/
theorem length_payload_chained (hcap : 2 ≤ cap) {room : Nat} (f : Nat → α) (n : Nat)
    (hroom : 0 < room) : (payload (chained slot cap room f n)).length = n := by
  induction n generalizing room f with
  | zero => rw [chained_zero hcap, payload_nil, List.length_nil]
  | succ n ih =>
    by_cases hone : room = 1
    · rw [hone]
      cases n with
      | zero => rw [chained_item hcap f Nat.one_pos (Or.inr rfl), chained_zero hcap]; simp
      | succ n =>
        have hlink : chained slot cap 1 f (n + 1 + 1) = _ := chained_link hcap f (by omega)
        rw [hlink, chained_item hcap _ (by omega) (Or.inl (by omega))]
        simp [ih (fun i => slot (f 0) (i + 1)) (show 0 < cap - 1 by omega)]
    · rw [chained_item hcap f hroom (Or.inl (by omega))]
      simp [ih (fun i => f (i + 1)) (show 0 < room - 1 by omega)]

theorem forall_mem_items {P : α → Prop} {f : Nat → α} (hf : ∀ i, P (f i)) (n : Nat) :
    ∀ c ∈ items f n, P c.val := by
  intro c hc
  obtain ⟨i, -, rfl⟩ := List.mem_map.mp hc
  exact hf i

/-- What holds of the content of every slot holds of what a reader meets. -/
theorem forall_mem_chained {P : α → Prop} (hslot : ∀ p i, P (slot p i)) {f : Nat → α}
    (hf : ∀ i, P (f i)) (room n : Nat) : ∀ c ∈ chained slot cap room f n, P c.val := by
  suffices hblocks : ∀ k room f n, (∀ i, P (f i)) → ∀ c ∈ chainedBy slot cap k room f n, P c.val by
    exact hblocks _ room f n hf
  intro k
  induction k with
  | zero => exact fun _ f n hf => forall_mem_items hf n
  | succ k ih =>
    intro room f n hf c hc
    rw [chainedBy, List.mem_append, List.mem_cons] at hc
    obtain hc | rfl | hc := hc
    · exact forall_mem_items hf _ c hc
    · exact hf _
    · exact ih cap _ _ (hslot _) c hc

end Femu.Lib

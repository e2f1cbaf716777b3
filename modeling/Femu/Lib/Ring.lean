import Mathlib.Logic.Function.Basic
import Mathlib.Tactic.Common

/-!
# Femu.Lib.Ring

Rings of `n` slots that hand entries over by a flag in each slot. Entries are
numbered by the order of their slots: entry `k` goes into slot `k % n`.

`Holds n s live P` says that the slots hold the entries in `live`, entry `k` with a
value that satisfies `P k`, and nothing else. Filling a slot, raising its flag and clearing it each
have one rule, whoever does it and in whatever order.
-/

namespace Femu.Lib

variable {α : Type}

/-- A slot: what it contains, and the flag that hands it over. -/
structure Slot (α : Type) where
  ready : Bool
  val : α

/-- Write the content of slot `i`. -/
def fillSlot (s : Nat → Slot α) (i : Nat) (a : α) : Nat → Slot α :=
  Function.update s i { s i with val := a }

/-- Set the flag of slot `i`. -/
def setReady (s : Nat → Slot α) (i : Nat) (b : Bool) : Nat → Slot α :=
  Function.update s i { s i with ready := b }

section Updates

variable (s : Nat → Slot α) (i j : Nat) (a : α) (b : Bool)

@[simp] theorem fillSlot_ready : (fillSlot s i a j).ready = (s j).ready := by
  by_cases h : j = i <;> simp [fillSlot, h]

theorem fillSlot_val : (fillSlot s i a j).val = if j = i then a else (s j).val := by
  by_cases h : j = i <;> simp [fillSlot, h]

theorem setReady_ready : (setReady s i b j).ready = if j = i then b else (s j).ready := by
  by_cases h : j = i <;> simp [setReady, h]

@[simp] theorem setReady_val : (setReady s i b j).val = (s j).val := by
  by_cases h : j = i <;> simp [setReady, h]

end Updates

/-- Entries less than a ring apart are in different slots. -/
theorem mod_ne_of_lt {n j k : Nat} (hlt : j < k) (hk : k < j + n) : j % n ≠ k % n := by
  intro h
  have hdvd : n ∣ k - j := Nat.dvd_of_mod_eq_zero (Nat.sub_mod_eq_zero_of_mod_eq h.symm)
  exact absurd (Nat.le_of_dvd (by omega) hdvd) (by omega)

/-- Of two entries in one slot, the later is at least a ring later. -/
theorem le_of_mod_eq {n j k : Nat} (hlt : j < k) (h : j % n = k % n) : j + n ≤ k := by
  by_contra hcon
  exact mod_ne_of_lt hlt (by omega) h

theorem add_one_mod_eq {n i k : Nat} (h : i = k % n) : (i + 1) % n = (k + 1) % n := by
  rw [h, Nat.mod_add_mod]

/-! ## cursors -/

/-- The number of slots from `head` on up to `tail`. -/
def gap (n head tail : Nat) : Nat := (tail + n - head) % n

section Gap

variable {n head tail : Nat}

@[simp] theorem gap_self : gap n head head = 0 := by
  rw [gap, Nat.add_sub_cancel_left, Nat.mod_self]

theorem gap_eq (hh : head < n) (ht : tail < n) :
    gap n head tail = if head ≤ tail then tail - head else tail + n - head := by
  unfold gap
  split
  case isTrue hle =>
    have hwrap : tail + n - head = tail - head + n := by omega
    rw [hwrap, Nat.add_mod_right, Nat.mod_eq_of_lt (by omega)]
  case isFalse hgt => exact Nat.mod_eq_of_lt (by omega)

theorem gap_eq_zero_iff (hh : head < n) (ht : tail < n) : gap n head tail = 0 ↔ head = tail := by
  rw [gap_eq hh ht]
  split <;> omega

/-- The successor of a cursor, without a division. -/
theorem succ_mod_eq (hh : head < n) : (head + 1) % n = if head + 1 ≥ n then 0 else head + 1 := by
  split
  case isTrue hge =>
    have hn : head + 1 = n := by omega
    rw [hn, Nat.mod_self]
  case isFalse hlt => exact Nat.mod_eq_of_lt (by omega)

theorem gap_succ_head (hh : head < n) (ht : tail < n) (hne : head ≠ tail) :
    gap n ((head + 1) % n) tail + 1 = gap n head tail := by
  have hsucc := succ_mod_eq hh
  rw [gap_eq (Nat.mod_lt _ (by omega)) ht, gap_eq hh ht, hsucc]
  split_ifs <;> omega

theorem gap_succ_tail (hh : head < n) (ht : tail < n) (hroom : gap n head tail + 1 < n) :
    gap n head ((tail + 1) % n) = gap n head tail + 1 := by
  have hsucc := succ_mod_eq ht
  rw [gap_eq hh ht] at hroom ⊢
  rw [gap_eq hh (Nat.mod_lt _ (by omega)), hsucc]
  split_ifs at hroom ⊢ <;> omega

/-- With a slot to spare the tail does not run into the head. -/
theorem succ_tail_ne_head (hh : head < n) (ht : tail < n) (hroom : gap n head tail + 1 < n) :
    (tail + 1) % n ≠ head := by
  have hsucc := succ_mod_eq ht
  rw [gap_eq hh ht] at hroom
  rw [hsucc]
  split_ifs at hroom ⊢ <;> omega

end Gap

/-! ## slots with a flag -/

/-- The slots hold the entries in `live`, entry `k` in slot `k % n` with a value that
is right for it (`P k`). -/
structure Holds (n : Nat) (s : Nat → Slot α) (live : Nat → Prop) (P : Nat → α → Prop) : Prop where
  ready_iff : ∀ i < n, (s i).ready = true ↔ ∃ k, live k ∧ k % n = i
  val : ∀ k, live k → P k (s (k % n)).val
  inj : ∀ j k, live j → live k → j % n = k % n → j = k

namespace Holds

variable {n k : Nat} {s : Nat → Slot α} {live live' : Nat → Prop} {P Q : Nat → α → Prop} {a : α}

/-- A ring with no flag raised holds nothing. -/
theorem empty (h : ∀ i, (s i).ready = false) (hlive : ∀ k, ¬ live k) : Holds n s live P where
  ready_iff i _ := by simp [h, hlive]
  val k hk := absurd hk (hlive k)
  inj j _ hj := absurd hj (hlive j)

theorem congr (h : Holds n s live P) (hlive : ∀ k, live' k ↔ live k)
    (hP : ∀ k a, live k → P k a → Q k a) : Holds n s live' Q where
  ready_iff i hi := by simp only [h.ready_iff i hi, hlive]
  val k hk := hP k _ ((hlive k).mp hk) (h.val k ((hlive k).mp hk))
  inj j k hj hk := h.inj j k ((hlive j).mp hj) ((hlive k).mp hk)

theorem ready (h : Holds n s live P) (hn : 0 < n) (hk : live k) : (s (k % n)).ready = true :=
  (h.ready_iff _ (Nat.mod_lt _ hn)).mpr ⟨k, hk, rfl⟩

/-- The entry whose flag is seen raised. -/
theorem exists_live (h : Holds n s live P) (hn : 0 < n) (hr : (s (k % n)).ready = true) :
    ∃ j, live j ∧ j % n = k % n :=
  (h.ready_iff _ (Nat.mod_lt _ hn)).mp hr

/-- A slot whose flag is down holds no entry. -/
theorem mod_ne (h : Holds n s live P) (hn : 0 < n) (hk : (s (k % n)).ready = false) {j : Nat}
    (hj : live j) : j % n ≠ k % n := by
  intro heq
  have hr := h.ready hn hj
  rw [heq, hk] at hr
  exact Bool.false_ne_true hr

/-- A slot that is not handed over can be written. -/
theorem fill (h : Holds n s live P) (hn : 0 < n) (hk : (s (k % n)).ready = false) :
    Holds n (fillSlot s (k % n) a) live P where
  ready_iff i hi := by simp only [fillSlot_ready, h.ready_iff i hi]
  val j hj := by
    rw [fillSlot_val, if_neg (h.mod_ne hn hk hj)]
    exact h.val j hj
  inj := h.inj

/-- Raising the flag of a slot that was not handed over adds its entry. -/
theorem publish (h : Holds n s live P) (hn : 0 < n) (hk : (s (k % n)).ready = false)
    (hval : P k (s (k % n)).val) :
    Holds n (setReady s (k % n) true) (fun j => live j ∨ j = k) P where
  ready_iff i hi := by
    rw [setReady_ready]
    split
    case isTrue heq => simp only [true_iff]; exact ⟨k, .inr rfl, heq.symm⟩
    case isFalse hne =>
      rw [h.ready_iff i hi]
      refine exists_congr fun j => and_congr_left fun hj => ⟨.inl, fun hor => ?_⟩
      rcases hor with hlive | rfl
      · exact hlive
      · exact absurd hj.symm hne
  val j hj := by
    rw [setReady_val]
    rcases hj with hlive | rfl
    · exact h.val j hlive
    · exact hval
  inj i j hi hj heq := by
    rcases hi with hi | rfl <;> rcases hj with hj | rfl
    · exact h.inj i j hi hj heq
    · exact absurd heq (h.mod_ne hn hk hi)
    · exact absurd heq.symm (h.mod_ne hn hk hj)
    · rfl

/-- Clearing the flag of an entry takes it out. -/
theorem clear (h : Holds n s live P) (hk : live k) :
    Holds n (setReady s (k % n) false) (fun j => live j ∧ j ≠ k) P where
  ready_iff i hi := by
    rw [setReady_ready]
    split
    case isTrue heq =>
      simp only [Bool.false_eq_true, false_iff, not_exists]
      rintro j ⟨⟨hlive, hne⟩, hj⟩
      exact hne (h.inj j k hlive hk (hj.trans heq))
    case isFalse hne =>
      rw [h.ready_iff i hi]
      refine exists_congr fun j => and_congr_left fun hj => ⟨fun hlive => ⟨hlive, ?_⟩, And.left⟩
      rintro rfl
      exact hne hj.symm
  val j hj := by
    rw [setReady_val]
    exact h.val j hj.1
  inj i j hi hj := h.inj i j hi.1 hj.1

end Holds

end Femu.Lib

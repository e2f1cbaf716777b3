import Femu.Lib.Ring

/-!
# Femu.Lib.PhaseRing

Rings of `n` slots that hand entries over by a phase in the entry itself. A cursor changes
its phase whenever it wraps; an entry is written with the phase of the producer's cursor,
and the consumer takes the entry at its own cursor when the phases agree. No slot is ever
cleared.
-/

namespace Femu.Lib

/-! ## cursors with a phase -/

structure Cursor where
  pos : Nat
  phase : Bool
deriving DecidableEq

def Cursor.next (n : Nat) (c : Cursor) : Cursor :=
  if c.pos + 1 ≥ n then ⟨0, !c.phase⟩ else ⟨c.pos + 1, c.phase⟩

/-- The cursor after `k` entries. -/
def cursorAt (n k : Nat) : Cursor := ⟨k % n, k / n % 2 = 0⟩

section Cursors

variable {n k : Nat}

@[simp] theorem cursorAt_pos : (cursorAt n k).pos = k % n := rfl

@[simp] theorem cursorAt_zero : cursorAt n 0 = ⟨0, true⟩ := by
  simp [cursorAt]

theorem cursorAt_succ (hn : 0 < n) : cursorAt n (k + 1) = (cursorAt n k).next n := by
  have hlt : k % n < n := Nat.mod_lt k hn
  have hk : n * (k / n) + k % n = k := Nat.div_add_mod k n
  unfold Cursor.next cursorAt
  dsimp only
  split
  case isTrue hwrap =>
    have hnext : k + 1 = n * (k / n + 1) := by
      rw [Nat.mul_add]
      omega
    rw [hnext, Nat.mul_mod_right, Nat.mul_div_cancel_left _ hn, ← decide_not]
    congr 2
    exact propext (by omega)
  case isFalse hin =>
    have hnext : k + 1 = k % n + 1 + n * (k / n) := by omega
    rw [hnext, Nat.add_mul_mod_self_left, Nat.add_mul_div_left _ _ hn, Nat.mod_eq_of_lt (by omega),
      Nat.div_eq_of_lt (by omega), Nat.zero_add]

/-- A ring later the phase is the other one. -/
theorem cursorAt_phase_add (hn : 0 < n) : (cursorAt n (k + n)).phase = !(cursorAt n k).phase := by
  have hdiv : (k + n) / n = k / n + 1 := Nat.add_div_right k hn
  simp only [cursorAt, hdiv, ← decide_not]
  exact decide_eq_decide.mpr (by omega)

end Cursors

/-! ## slots with a phase -/

/-- The slots after the entries in `sent`, of which `got` have been consumed. The slots that are
written next have the phase of a ring before. -/
structure Tagged {α : Type} (n : Nat) (tag : α → Bool) (mem : Nat → α) (sent : List α)
    (got : Nat) : Prop where
  le : got ≤ sent.length
  room : sent.length ≤ got + n
  stale : ∀ k, sent.length ≤ k → k < sent.length + n →
    tag (mem (k % n)) = !(cursorAt n k).phase
  val : ∀ k a, got ≤ k → sent[k]? = some a → mem (k % n) = a

namespace Tagged

variable {α : Type} {n got : Nat} {tag : α → Bool} {mem : Nat → α} {sent : List α} {a : α}

/-- A ring that has not been written to. -/
theorem empty (h : ∀ i < n, tag (mem i) = false) : Tagged n tag mem [] 0 where
  le := Nat.le_refl _
  room := Nat.zero_le _
  stale k _ hk := by
    rw [List.length_nil, Nat.zero_add] at hk
    rw [Nat.mod_eq_of_lt hk, h k hk, cursorAt, Nat.div_eq_of_lt hk]
    rfl
  val k b _ hb := by simp at hb

/-- Writing the next entry, with a slot left for it. -/
theorem post (h : Tagged n tag mem sent got) (hn : 0 < n) (hroom : sent.length < got + n)
    (htag : tag a = (cursorAt n sent.length).phase) :
    Tagged n tag (Function.update mem (sent.length % n) a) (sent ++ [a]) got := by
  have hlen : (sent ++ [a]).length = sent.length + 1 := by simp
  constructor
  case le => exact Nat.le_trans h.le (by omega)
  case room => omega
  case stale =>
    intro k hk hlt
    rw [hlen] at hk hlt
    rcases Nat.lt_or_ge k (sent.length + n) with hin | hlast
    · rw [Function.update_of_ne (mod_ne_of_lt (by omega) hin).symm]
      exact h.stale k (by omega) hin
    · obtain rfl : k = sent.length + n := by omega
      rw [Nat.add_mod_right, Function.update_self, htag, cursorAt_phase_add hn, Bool.not_not]
  case val =>
    intro k b hk hb
    rcases Nat.lt_trichotomy k sent.length with hlt | rfl | hgt
    · rw [Function.update_of_ne (mod_ne_of_lt hlt (by omega))]
      rw [List.getElem?_append_left hlt] at hb
      exact h.val k b hk hb
    · rw [List.getElem?_concat_length] at hb
      rw [Function.update_self]
      exact Option.some.inj hb
    · rw [List.getElem?_eq_none (by omega)] at hb
      cases hb

/-- The phase of the slot at the consumer's cursor tells whether its entry has been written. -/
theorem phase_iff (h : Tagged n tag mem sent got) (hn : 0 < n) :
    tag (mem (got % n)) = (cursorAt n got).phase ↔ got < sent.length := by
  constructor
  · intro hphase
    by_contra hge
    have hstale := h.stale got (by omega) (Nat.lt_of_le_of_lt h.le (by omega))
    rw [hphase] at hstale
    exact (Bool.eq_not_self _).mp hstale
  · intro hlt
    have hlater := h.stale (got + n) h.room (by omega)
    rw [Nat.add_mod_right, cursorAt_phase_add hn, Bool.not_not] at hlater
    exact hlater

/-- Consuming an entry that has been written. -/
theorem consume (h : Tagged n tag mem sent got) (hlt : got < sent.length) :
    sent[got]? = some (mem (got % n)) ∧ Tagged n tag mem sent (got + 1) := by
  have hget : sent[got]? = some sent[got] := List.getElem?_eq_getElem hlt
  have hval : mem (got % n) = sent[got] := h.val got _ (Nat.le_refl _) hget
  have hroom := h.room
  refine ⟨by rw [hget, hval], ⟨hlt, by omega, h.stale, fun k a hk => h.val k a (by omega)⟩⟩

end Tagged

end Femu.Lib

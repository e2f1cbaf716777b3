import Mathlib.Logic.Function.Basic
import Mathlib.Tactic.Common

/-!
# Femu.Lib.Claims

Numbers that are handed out in intervals, one after the other, and given back from the
lowest one on. `Claims claim lo hi` says that the intervals of the actors cut `[lo, hi)`
into pieces: `take` adds one at the end, `release` removes the first.
-/

namespace Femu.Lib

variable {T : Type}

/-- The actors hold the numbers from `lo` up to `hi`, each of them an interval
`[k, k + n)` as `(k, n)`, or nothing. -/
structure Claims (claim : T → Option (Nat × Nat)) (lo hi : Nat) : Prop where
  le : lo ≤ hi
  pos : ∀ t k n, claim t = some (k, n) → 0 < n
  inside : ∀ t k n, claim t = some (k, n) → lo ≤ k ∧ k + n ≤ hi
  apart : ∀ t u k n j m, claim t = some (k, n) → claim u = some (j, m) → t ≠ u →
    k + n ≤ j ∨ j + m ≤ k
  cover : ∀ i, lo ≤ i → i < hi → ∃ t k n, claim t = some (k, n) ∧ k ≤ i ∧ i < k + n

namespace Claims

variable {claim claim' : T → Option (Nat × Nat)} {lo hi k n j m : Nat} {t u : T}

theorem empty (h : ∀ t, claim t = none) : Claims claim lo lo where
  le := Nat.le_refl lo
  pos t k n ht := by simp [h t] at ht
  inside t k n ht := by simp [h t] at ht
  apart t u k n j m ht := by simp [h t] at ht
  cover i hlo hhi := by omega

theorem congr (h : Claims claim lo hi) (hc : ∀ t, claim' t = claim t) : Claims claim' lo hi := by
  rwa [show claim' = claim from funext hc]

/-- Nobody holds anything only if there is nothing to hold. -/
theorem eq_of_none (h : Claims claim lo hi) (hnone : ∀ t, claim t = none) : lo = hi := by
  by_contra hne
  have hlt : lo < hi := Nat.lt_of_le_of_ne h.le hne
  obtain ⟨t, k, n, ht, -⟩ := h.cover lo (Nat.le_refl lo) hlt
  rw [hnone t] at ht
  cases ht

/-- Someone holds the first interval. -/
theorem exists_first (h : Claims claim lo hi) (hlt : lo < hi) : ∃ t n, claim t = some (lo, n) := by
  obtain ⟨t, k, n, ht, hk, -⟩ := h.cover lo (Nat.le_refl lo) hlt
  have hlo := (h.inside t k n ht).1
  obtain rfl : k = lo := Nat.le_antisymm hk hlo
  exact ⟨t, n, ht⟩

/-- Intervals that share a number are the same. -/
theorem unique (h : Claims claim lo hi) (ht : claim t = some (k, n)) (hu : claim u = some (j, m))
    {i : Nat} (hk : k ≤ i) (hkn : i < k + n) (hj : j ≤ i) (hjm : i < j + m) : t = u := by
  by_contra hne
  rcases h.apart t u k n j m ht hu hne with hle | hle <;> omega

/-- A new interval at the end. -/
theorem take [DecidableEq T] (h : Claims claim lo hi) (ht : claim t = none) (hn : 0 < n) :
    Claims (Function.update claim t (some (hi, n))) lo (hi + n) := by
  have hother : ∀ u j m, Function.update claim t (some (hi, n)) u = some (j, m) →
      (u = t ∧ j = hi ∧ m = n) ∨ (u ≠ t ∧ claim u = some (j, m)) := by
    intro u j m hu
    by_cases hut : u = t
    · subst hut
      rw [Function.update_self] at hu
      cases hu
      exact .inl ⟨rfl, rfl, rfl⟩
    · rw [Function.update_of_ne hut] at hu
      exact .inr ⟨hut, hu⟩
  constructor
  case le => exact Nat.le_trans h.le (Nat.le_add_right hi n)
  case pos =>
    intro u j m hu
    rcases hother u j m hu with ⟨-, -, rfl⟩ | ⟨-, hu⟩
    · exact hn
    · exact h.pos u j m hu
  case inside =>
    intro u j m hu
    rcases hother u j m hu with ⟨-, rfl, rfl⟩ | ⟨-, hu⟩
    · exact ⟨h.le, Nat.le_refl _⟩
    · have hin := h.inside u j m hu
      exact ⟨hin.1, by omega⟩
  case apart =>
    intro u v j m i l hu hv huv
    rcases hother u j m hu with ⟨rfl, rfl, rfl⟩ | ⟨-, hold⟩
    · rcases hother v i l hv with ⟨rfl, -, -⟩ | ⟨-, hold⟩
      · exact absurd rfl huv
      · exact .inr (h.inside v i l hold).2
    · rcases hother v i l hv with ⟨-, rfl, rfl⟩ | ⟨-, hold'⟩
      · exact .inl (h.inside u j m hold).2
      · exact h.apart u v j m i l hold hold' huv
  case cover =>
    intro i hlo hhi
    by_cases hi' : i < hi
    · obtain ⟨u, j, m, hu, hj, hjm⟩ := h.cover i hlo hi'
      have hut : u ≠ t := by
        rintro rfl
        rw [ht] at hu
        cases hu
      exact ⟨u, j, m, by rwa [Function.update_of_ne hut], hj, hjm⟩
    · exact ⟨t, hi, n, Function.update_self .., Nat.not_lt.mp hi', hhi⟩

/-- The first interval is given back. -/
theorem release [DecidableEq T] (h : Claims claim lo hi) (ht : claim t = some (lo, n)) :
    Claims (Function.update claim t none) (lo + n) hi := by
  have hother : ∀ u j m, Function.update claim t none u = some (j, m) →
      u ≠ t ∧ claim u = some (j, m) := by
    intro u j m hu
    by_cases hut : u = t
    · rw [hut, Function.update_self] at hu
      cases hu
    · rw [Function.update_of_ne hut] at hu
      exact ⟨hut, hu⟩
  constructor
  case le => exact (h.inside t lo n ht).2
  case pos => exact fun u j m hu => h.pos u j m (hother u j m hu).2
  case inside =>
    intro u j m hu
    obtain ⟨hut, hu⟩ := hother u j m hu
    have hin := h.inside u j m hu
    have hpos := h.pos u j m hu
    have hpos' := h.pos t lo n ht
    rcases h.apart u t j m lo n hu ht hut with hle | hle
    · omega
    · exact ⟨hle, hin.2⟩
  case apart =>
    exact fun u v j m i l hu hv huv =>
      h.apart u v j m i l (hother u j m hu).2 (hother v i l hv).2 huv
  case cover =>
    intro i hlo hhi
    obtain ⟨u, j, m, hu, hj, hjm⟩ := h.cover i (by omega) hhi
    have hut : u ≠ t := by
      rintro rfl
      rw [ht] at hu
      cases hu
      omega
    exact ⟨u, j, m, by rwa [Function.update_of_ne hut], hj, hjm⟩

end Claims

end Femu.Lib

import Mathlib.Data.Set.Function
import Mathlib.Data.Finset.Card
import Mathlib.Logic.Function.Basic

/-!
# Femu.Lib.TwoWay

A forward table and a backward table that are inverse to each other on given
domains, and how the pair moves when an entry is dropped or put.  Outside the
domains the tables may hold anything.
-/

namespace Femu.Lib

variable {α β : Type}

/-- On `A` the table `f` leads into `B`, on `B` the table `g` leads into `A`, and
the two undo each other. -/
structure TwoWay (A : Set α) (B : Set β) (f : α → β) (g : β → α) : Prop where
  mapsTo : ∀ a ∈ A, f a ∈ B
  mapsTo' : ∀ b ∈ B, g b ∈ A
  left : ∀ a ∈ A, g (f a) = a
  right : ∀ b ∈ B, f (g b) = b

namespace TwoWay

variable {A A' : Set α} {B B' : Set β} {f f' : α → β} {g g' : β → α}

/-- Two entries of the forward table that agree are the same entry. -/
theorem injOn (h : TwoWay A B f g) : Set.InjOn f A := by
  intro a ha a' ha' he
  rw [← h.left a ha, he, h.left a' ha']

/-- Two entries of the backward table that agree are the same entry. -/
theorem injOn' (h : TwoWay A B f g) : Set.InjOn g B := by
  intro b hb b' hb' he
  rw [← h.right b hb, he, h.right b' hb']

/-- Only the entries within the domains matter. -/
theorem congr (h : TwoWay A B f g) (hA : A' = A) (hB : B' = B) (hf : ∀ a ∈ A, f' a = f a)
    (hg : ∀ b ∈ B, g' b = g b) : TwoWay A' B' f' g' := by
  subst hA hB
  exact
    { mapsTo := fun a ha => by rw [hf a ha]; exact h.mapsTo a ha
      mapsTo' := fun b hb => by rw [hg b hb]; exact h.mapsTo' b hb
      left := fun a ha => by rw [hf a ha, hg _ (h.mapsTo a ha), h.left a ha]
      right := fun b hb => by rw [hg b hb, hf _ (h.mapsTo' b hb), h.right b hb] }

/-- **Drop**: an entry leaves both domains. -/
theorem drop (h : TwoWay A B f g) {a : α} (ha : a ∈ A) :
    TwoWay (A \ {a}) (B \ {f a}) f g where
  mapsTo x hx := ⟨h.mapsTo x hx.1, fun he => hx.2 (h.injOn hx.1 ha he)⟩
  mapsTo' b hb := ⟨h.mapsTo' b hb.1, fun he => hb.2 (by
    rw [Set.mem_singleton_iff] at he ⊢
    rw [← he, h.right b hb.1])⟩
  left x hx := h.left x hx.1
  right b hb := h.right b hb.1

/-- **Put**: a new entry joins both domains. -/
theorem put [DecidableEq α] [DecidableEq β] (h : TwoWay A B f g) {a : α} {b : β} (ha : a ∉ A)
    (hb : b ∉ B) :
    TwoWay (insert a A) (insert b B) (Function.update f a b) (Function.update g b a) where
  mapsTo x hx := by
    rcases hx with rfl | hx
    · simp
    · rw [Function.update_of_ne (ne_of_mem_of_not_mem hx ha)]
      exact .inr (h.mapsTo x hx)
  mapsTo' y hy := by
    rcases hy with rfl | hy
    · simp
    · rw [Function.update_of_ne (ne_of_mem_of_not_mem hy hb)]
      exact .inr (h.mapsTo' y hy)
  left x hx := by
    rcases hx with rfl | hx
    · simp
    · rw [Function.update_of_ne (ne_of_mem_of_not_mem hx ha),
        Function.update_of_ne (ne_of_mem_of_not_mem (h.mapsTo x hx) hb), h.left x hx]
  right y hy := by
    rcases hy with rfl | hy
    · simp
    · rw [Function.update_of_ne (ne_of_mem_of_not_mem hy hb),
        Function.update_of_ne (ne_of_mem_of_not_mem (h.mapsTo' y hy) ha), h.right y hy]

/-- A finite part of the backward domain is no larger than any finite set that
covers the forward domain. -/
theorem card_le (h : TwoWay A B f g) {S : Finset β} {R : Finset α} (hS : ∀ b ∈ S, b ∈ B)
    (hR : ∀ a ∈ A, a ∈ R) : S.card ≤ R.card :=
  Finset.card_le_card_of_injOn g (fun b hb => hR _ (h.mapsTo' b (hS b hb)))
    fun _ hb _ hb' he => h.injOn' (hS _ hb) (hS _ hb') he

end TwoWay

end Femu.Lib

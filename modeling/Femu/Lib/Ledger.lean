import Mathlib.Data.Multiset.AddSub
import Mathlib.Data.Multiset.Filter

/-!
# Femu.Lib.Ledger

A fixed stock of tokens, each of which is lent out with a tag and comes back when the tag
is given back. A token can also be set aside or get lost with its tag.

What is in the ledger is balanced at any time: each token is in one of the four places,
and each tag that was taken has been given back, is on its way or is lost.
-/

namespace Femu.Lib

variable {ι γ : Type}

@[ext]
structure Ledger (ι γ : Type) where
  free : Multiset ι
  aside : Multiset ι
  /-- the tokens that are lent out, with their tags -/
  flight : Multiset (ι × γ)
  lost : Multiset (ι × γ)
  taken : Multiset γ
  given : Multiset γ

namespace Ledger

/-- The ledger of a stock of which nothing has been lent out yet. -/
def new (stock : Multiset ι) : Ledger ι γ := ⟨stock, 0, 0, 0, 0, 0⟩

inductive Step : Ledger ι γ → Ledger ι γ → Prop
  | stay (l : Ledger ι γ) : Step l l
  | take {l : Ledger ι γ} {i : ι} {f : Multiset ι} (g : γ) (h : l.free = i ::ₘ f) :
      Step l { l with free := f, flight := (i, g) ::ₘ l.flight, taken := g ::ₘ l.taken }
  | refuse {l : Ledger ι γ} {i : ι} {f : Multiset ι} (g : γ) (h : l.free = i ::ₘ f) :
      Step l { l with free := f, lost := (i, g) ::ₘ l.lost, taken := g ::ₘ l.taken }
  | lose {l : Ledger ι γ} {x : ι × γ} {f : Multiset (ι × γ)} (h : l.flight = x ::ₘ f) :
      Step l { l with flight := f, lost := x ::ₘ l.lost }
  | give {l : Ledger ι γ} {x : ι × γ} {f : Multiset (ι × γ)} (h : l.flight = x ::ₘ f) :
      Step l { l with flight := f, free := x.1 ::ₘ l.free, given := x.2 ::ₘ l.given }
  | setAside {l : Ledger ι γ} {i : ι} {f : Multiset ι} (h : l.free = i ::ₘ f) :
      Step l { l with free := f, aside := i ::ₘ l.aside }

/-- Every token is accounted for, and so is every tag. -/
structure Balanced (stock : Multiset ι) (l : Ledger ι γ) : Prop where
  tokens : l.free + l.aside + l.flight.map Prod.fst + l.lost.map Prod.fst = stock
  tags : l.taken = l.given + l.flight.map Prod.snd + l.lost.map Prod.snd

variable {stock : Multiset ι} {l l' : Ledger ι γ}

theorem new_balanced : Balanced stock (new stock : Ledger ι γ) := by
  constructor <;> simp [new]

/-- **Step**: no step changes the balance. -/
theorem Step.balanced (h : Step l l') (hl : Balanced stock l) : Balanced stock l' := by
  obtain ⟨htokens, htags⟩ := hl
  cases h with
  | stay => exact ⟨htokens, htags⟩
  | take g hfree => exact ⟨by rw [← htokens, hfree]; simp, by rw [htags]; simp⟩
  | refuse g hfree => exact ⟨by rw [← htokens, hfree]; simp, by rw [htags]; simp⟩
  | lose hflight =>
      rw [hflight] at htokens htags
      exact ⟨by rw [← htokens]; simp, by rw [htags]; simp⟩
  | give hflight =>
      rw [hflight] at htokens htags
      exact ⟨by rw [← htokens]; simp, by rw [htags]; simp⟩
  | setAside hfree => exact ⟨by rw [← htokens, hfree]; simp, htags⟩

/-- The free tokens and those on their way are the whole stock, and the tags taken are
those given back and on their way, exactly when nothing was set aside or lost. -/
theorem Balanced.exact_iff (h : Balanced stock l) :
    (l.free + l.flight.map Prod.fst = stock ∧ l.taken = l.given + l.flight.map Prod.snd) ↔
      l.aside = 0 ∧ l.lost = 0 := by
  constructor
  · rintro ⟨hexact, -⟩
    have hcard := congrArg Multiset.card (h.tokens.trans hexact.symm)
    simp only [Multiset.card_add, Multiset.card_map] at hcard
    simp only [← Multiset.card_eq_zero]
    omega
  · rintro ⟨haside, hlost⟩
    have htokens := h.tokens
    have htags := h.tags
    simp only [haside, hlost, Multiset.map_zero, Multiset.add_zero] at htokens htags
    exact ⟨htokens, htags⟩

/-- Nothing is on its way exactly when as many tags were given back or lost as taken. -/
theorem Balanced.flight_eq_zero_iff (h : Balanced stock l) :
    l.flight = 0 ↔ l.taken.card = l.given.card + l.lost.card := by
  have hcard := congrArg Multiset.card h.tags
  simp only [Multiset.card_add, Multiset.card_map] at hcard
  rw [← Multiset.card_eq_zero]
  omega

/-- A free token is not on its way. -/
theorem Balanced.disjoint (h : Balanced stock l) (hstock : stock.Nodup) {i : ι} {g : γ}
    (hi : i ∈ l.free) : (i, g) ∉ l.flight := by
  intro hflight
  obtain ⟨f, hf⟩ := Multiset.exists_cons_of_mem hi
  obtain ⟨f', hf'⟩ := Multiset.exists_cons_of_mem hflight
  have htwice := h.tokens
  simp only [hf, hf', Multiset.map_cons, Multiset.cons_add, Multiset.add_cons] at htwice
  exact Multiset.nodup_iff_ne_cons_cons.mp hstock _ _ htwice.symm

end Ledger

end Femu.Lib

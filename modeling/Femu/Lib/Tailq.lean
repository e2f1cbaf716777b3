import Mathlib.Data.List.Nodup
import Femu.Lib.Outcome

/-!
# Femu.Lib.Tailq

`QTAILQ_FOREACH_SAFE`: a walk over a linked list whose body may change the list.
The successor of an element is read before the body runs on the element, so the
walk is right as long as the body leaves alone what comes after the element.

A list is kept as the `List` of its elements. `walk` follows the successors in
the list as it is at each step; `walk_rule` reduces a walk whose body only
touches the current element to an induction over the list at the start.
-/

namespace Femu.Lib

variable {σ ε α : Type}

/-! ## the part of a list still to be visited -/

/-- `rest` is what comes after some elements of the list. -/
def Suffix (rest l : List α) : Prop := ∃ pre, l = pre ++ rest ∧ l.Nodup

theorem Suffix.nodup {rest l : List α} (h : Suffix rest l) : l.Nodup := by
  obtain ⟨pre, rfl, hn⟩ := h
  exact hn

theorem suffix_self {l : List α} (h : l.Nodup) : Suffix l l := ⟨[], rfl, h⟩

/-- Taking the current element out leaves what comes after it. -/
theorem Suffix.erase [DecidableEq α] {a : α} {rest l : List α} (h : Suffix (a :: rest) l) :
    Suffix rest (l.erase a) := by
  obtain ⟨pre, rfl, hn⟩ := h
  have ha : a ∉ pre := fun hp =>
    (List.nodup_append.mp hn).2.2 a hp a (List.mem_cons_self ..) rfl
  refine ⟨pre, ?_, hn.erase a⟩
  rw [List.erase_append_right _ ha, List.erase_cons_head]

/-- Putting an element in front leaves what comes after. -/
theorem Suffix.cons {a : α} {rest l : List α} (h : Suffix rest l) (ha : a ∉ l) :
    Suffix rest (a :: l) := by
  obtain ⟨pre, rfl, hn⟩ := h
  exact ⟨a :: pre, rfl, List.nodup_cons.mpr ⟨ha, hn⟩⟩

/-- What comes after the current element stays when the list does. -/
theorem Suffix.tail {a : α} {rest l : List α} (h : Suffix (a :: rest) l) : Suffix rest l := by
  obtain ⟨pre, rfl, hn⟩ := h
  exact ⟨pre ++ [a], by simp, hn⟩

/-! ## walks -/

section Walk

variable [DecidableEq α]

/-- `QTAILQ_NEXT`: the element after the first occurrence of `a`. -/
def nextIn (a : α) : List α → Option α
  | [] => none
  | b :: l => if b = a then l.head? else nextIn a l

/-- The element after `a`, where what comes before does not contain it. -/
theorem nextIn_append {a : α} {pre post : List α} (h : a ∉ pre) :
    nextIn a (pre ++ a :: post) = post.head? := by
  induction pre with
  | nil => simp [nextIn]
  | cons b pre ih =>
      simp only [List.mem_cons, not_or] at h
      rw [List.cons_append, nextIn, if_neg (Ne.symm h.1)]
      exact ih h.2

/-- `QTAILQ_FOREACH_SAFE(var, head, entry, next)` with the cursor at `var`. The
body returns the new state and whether to leave the loop; `lost` is the error of
a cursor that is not in the list. The fuel bounds the number of rounds. -/
def walk (head : σ → List α) (body : σ → α → Except ε (σ × Bool)) (lost : ε) :
    Nat → Option α → σ → Except ε σ
  | _, none, s => .ok s
  | 0, some _, _ => .error lost
  | fuel + 1, some a, s =>
    if a ∈ head s then
      match body s a with
      | .error e => .error e
      | .ok (s', true) => .ok s'
      | .ok (s', false) => walk head body lost fuel (nextIn a (head s)) s'
    else
      .error lost

/-- `QTAILQ_FOREACH_SAFE`, from the first element on. -/
def forEachSafe (head : σ → List α) (body : σ → α → Except ε (σ × Bool)) (lost : ε) (s : σ) :
    Except ε σ :=
  walk head body lost (head s).length (head s).head? s

/-- **Rule for safe walks**: let `I rest` hold of the state when `rest` is still to
be visited, `rest` being a suffix of the list. If the body, run on the first
element of `rest`, keeps `I` of the remainder, or leaves the loop with `J`, then
the walk ends with `J`. -/
theorem walk_rule {A : ε → Prop} {head : σ → List α} {body : σ → α → Except ε (σ × Bool)}
    {lost : ε} {I : List α → σ → Prop} {J : σ → Prop}
    (hI : ∀ rest s, I rest s → Suffix rest (head s))
    (hbody : ∀ a rest s, I (a :: rest) s →
      Safe A (body s a) fun r => if r.2 then J r.1 else I rest r.1)
    (hJ : ∀ s, I [] s → J s) {fuel : Nat} {rest : List α} {s : σ} (hfuel : rest.length ≤ fuel)
    (hs : I rest s) : Safe A (walk head body lost fuel rest.head? s) J := by
  induction rest generalizing fuel s with
  | nil => simpa [walk] using hJ s hs
  | cons a rest ih =>
      obtain ⟨fuel, rfl⟩ : ∃ k, fuel = k + 1 := ⟨fuel - 1, by simp at hfuel; omega⟩
      obtain ⟨pre, hl, hn⟩ := hI (a :: rest) s hs
      have hmem : a ∈ head s := by simp [hl]
      have hpre : a ∉ pre := by
        rw [hl] at hn
        exact fun hp => (List.nodup_append.mp hn).2.2 a hp a (List.mem_cons_self ..) rfl
      have hnext : nextIn a (head s) = rest.head? := by rw [hl, nextIn_append hpre]
      have hpost := hbody a rest s hs
      simp only [List.head?_cons, walk, hmem, if_true]
      match hrun : body s a with
      | .error e => simpa [hrun] using hpost
      | .ok (s', true) => simpa [hrun] using hpost
      | .ok (s', false) =>
        rw [hnext]
        exact ih (by simpa using hfuel) (by simpa [hrun] using hpost)

/-- The rule for a walk over the whole list. -/
theorem forEachSafe_rule {A : ε → Prop} {head : σ → List α}
    {body : σ → α → Except ε (σ × Bool)} {lost : ε} {I : List α → σ → Prop} {J : σ → Prop}
    (hI : ∀ rest s, I rest s → Suffix rest (head s))
    (hbody : ∀ a rest s, I (a :: rest) s →
      Safe A (body s a) fun r => if r.2 then J r.1 else I rest r.1)
    (hJ : ∀ s, I [] s → J s) {s : σ} (hs : I (head s) s) :
    Safe A (forEachSafe head body lost s) J :=
  walk_rule hI hbody hJ (Nat.le_refl _) hs

/-- A walk over a state that carries more, for instance a log of what the body
does, is the walk over the part that the body works on. -/
theorem walk_map {τ : Type} {view : τ → σ} {head : σ → List α} {head' : τ → List α}
    {body : σ → α → Except ε (σ × Bool)} {body' : τ → α → Except ε (τ × Bool)} {lost : ε}
    (hhead : ∀ s, head' s = head (view s))
    (hbody : ∀ s a, body (view s) a = (body' s a).map fun r => (view r.1, r.2)) (fuel : Nat)
    (cursor : Option α) (s : τ) :
    walk head body lost fuel cursor (view s) =
      (walk head' body' lost fuel cursor s).map view := by
  induction fuel generalizing cursor s with
  | zero => cases cursor <;> rfl
  | succ fuel ih =>
      cases cursor with
      | none => rfl
      | some a =>
          simp only [walk, hbody, hhead]
          split
          · cases hrun : body' s a with
            | error e => rfl
            | ok r =>
                obtain ⟨s', stop⟩ := r
                cases stop
                · exact ih _ _
                · rfl
          · rfl

theorem forEachSafe_map {τ : Type} {view : τ → σ} {head : σ → List α} {head' : τ → List α}
    {body : σ → α → Except ε (σ × Bool)} {body' : τ → α → Except ε (τ × Bool)} {lost : ε}
    (hhead : ∀ s, head' s = head (view s))
    (hbody : ∀ s a, body (view s) a = (body' s a).map fun r => (view r.1, r.2)) (s : τ) :
    forEachSafe head body lost (view s) = (forEachSafe head' body' lost s).map view := by
  unfold forEachSafe
  rw [hhead]
  exact walk_map hhead hbody _ _ s

end Walk

end Femu.Lib

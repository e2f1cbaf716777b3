import Mathlib.Data.List.Basic
import Mathlib.Data.Option.Basic

/-!
# Femu.Lib.Traced

State programs that leave a trace of what they touch and may end abnormally.
The trace survives an abnormal end, so that a statement about what a program
touched also covers the runs that crash afterwards.

`Within Q m s` says that everything `m` touches when started in `s` satisfies
`Q`. Its rules follow the structure of the program and are equivalences, so that
`simp` turns a statement about a whole program into the conditions on its
single accesses. `Ends m s P` says what holds at a normal end, and
`Tracks view f m` that a part of the state can be read off the trace.
-/

namespace Femu.Lib

variable {σ ε α β : Type}

/-- A program over states `σ`: the trace left, and the value and state at the
end, `none` being an abnormal end. -/
def Traced (σ ε α : Type) : Type := σ → List ε × Option (α × σ)

namespace Traced

/-- Return a value. -/
protected def pure (a : α) : Traced σ ε α := fun s => ([], some (a, s))

/-- Run `m`, then `f` on its value. -/
protected def bind (m : Traced σ ε α) (f : α → Traced σ ε β) : Traced σ ε β := fun s =>
  match m s with
  | (l, none) => (l, none)
  | (l, some (a, s')) => (l ++ (f a s').1, (f a s').2)

instance : Monad (Traced σ ε) where
  pure := Traced.pure
  bind := Traced.bind

/-- Record an access. -/
def emit (e : ε) : Traced σ ε Unit := fun s => ([e], some ((), s))

/-- End abnormally. -/
def abort : Traced σ ε α := fun _ => ([], none)

/-- A computation that touches nothing. -/
def ofState (f : σ → Option (α × σ)) : Traced σ ε α := fun s => ([], f s)

/-- Read the state. -/
def get : Traced σ ε σ := ofState fun s => some (s, s)

/-- Change the state. -/
def modify (f : σ → σ) : Traced σ ε Unit := ofState fun s => some ((), f s)

/-- `assert(c)`. -/
def assert (c : Prop) [Decidable c] : Traced σ ε Unit :=
  if c then Pure.pure () else abort

/-! ## everything touched satisfies a property -/

/-- Everything that `m` touches when started in `s` satisfies `Q`. -/
def Within (Q : ε → Prop) (m : Traced σ ε α) (s : σ) : Prop :=
  ∀ e ∈ (m s).1, Q e

variable {Q : ε → Prop} {s : σ}

@[simp] theorem within_pure (a : α) :
    Within Q (Pure.pure a : Traced σ ε α) s := by
  simp [Within, Pure.pure, Traced.pure]

@[simp] theorem within_ofState (f : σ → Option (α × σ)) : Within Q (ofState f) s := by
  simp [Within, ofState]

@[simp] theorem within_abort : Within Q (abort : Traced σ ε α) s := by
  simp [Within, abort]

@[simp] theorem within_get : Within Q (get : Traced σ ε σ) s := within_ofState _

@[simp] theorem within_modify (f : σ → σ) : Within Q (modify f : Traced σ ε Unit) s :=
  within_ofState _

@[simp] theorem within_assert (c : Prop) [Decidable c] :
    Within Q (assert c : Traced σ ε Unit) s := by
  unfold assert
  split
  · exact within_pure ()
  · exact within_abort

@[simp] theorem within_emit (e : ε) : Within Q (emit e) s ↔ Q e := by
  simp [Within, emit]

/-- A sequence stays within `Q` when both parts do, the second one from every
state the first one leaves. -/
theorem within_bind (m : Traced σ ε α) (f : α → Traced σ ε β) :
    Within Q (m >>= f) s ↔
      Within Q m s ∧ ∀ a s', (m s).2 = some (a, s') → Within Q (f a) s' := by
  show (∀ e ∈ (Traced.bind m f s).1, Q e) ↔ _
  unfold Traced.bind Within
  match h : m s with
  | (l, none) => simp
  | (l, some (a, s')) => simp [or_imp, forall_and]

/-! ## sequences that start with a simple step -/

theorem forall_unit {p : Unit → Prop} : (∀ a, p a) ↔ p () :=
  ⟨fun h => h (), fun h _ => h⟩

@[simp] theorem pure_bind (a : α) (f : α → Traced σ ε β) :
    (Pure.pure a : Traced σ ε α) >>= f = f a := by
  show Traced.bind (Traced.pure a) f = f a
  funext s
  simp [Traced.bind, Traced.pure]

@[simp] theorem bind_assoc {γ : Type} (m : Traced σ ε α) (f : α → Traced σ ε β)
    (g : β → Traced σ ε γ) : (m >>= f) >>= g = m >>= fun a => f a >>= g := by
  show Traced.bind (Traced.bind m f) g = Traced.bind m fun a => Traced.bind (f a) g
  funext s
  unfold Traced.bind
  match m s with
  | (l, none) => rfl
  | (l, some (a, s')) =>
    match h : f a s' with
    | (l', none) => simp [h]
    | (l', some (b, s'')) => simp [h]

@[simp] theorem abort_bind (f : α → Traced σ ε β) : (abort : Traced σ ε α) >>= f = abort := rfl

@[simp] theorem within_emit_bind (e : ε) (f : Unit → Traced σ ε β) :
    Within Q (emit e >>= f) s ↔ Q e ∧ Within Q (f ()) s := by
  simp [within_bind, forall_unit, show (emit e s).2 = some ((), s) from rfl]

@[simp] theorem within_get_bind (f : σ → Traced σ ε β) :
    Within Q (get >>= f) s ↔ Within Q (f s) s := by
  simp [within_bind, get, ofState]

@[simp] theorem within_modify_bind (g : σ → σ) (f : Unit → Traced σ ε β) :
    Within Q (modify g >>= f) s ↔ Within Q (f ()) (g s) := by
  simp [within_bind, forall_unit, modify, ofState]

@[simp] theorem within_assert_bind (c : Prop) [Decidable c] (f : Unit → Traced σ ε β) :
    Within Q (assert c >>= f) s ↔ (c → Within Q (f ()) s) := by
  by_cases hc : c
  · simp [assert, hc]
  · simp [assert, hc]

/-- A program that touches nothing can be skipped when what follows stays
within `Q` whatever it is given. -/
theorem within_bind_of {m : Traced σ ε α} {f : α → Traced σ ε β} (hm : Within Q m s)
    (hf : ∀ a s, Within Q (f a) s) : Within Q (m >>= f) s :=
  (within_bind m f).mpr ⟨hm, fun a s' _ => hf a s'⟩

theorem within_ofState_bind (g : σ → Option (α × σ)) (f : α → Traced σ ε β) :
    Within Q (ofState g >>= f) s ↔ ∀ a s', g s = some (a, s') → Within Q (f a) s' := by
  simp [within_bind, ofState]

@[simp] theorem within_ite {c : Prop} [Decidable c] (m m' : Traced σ ε α) :
    Within Q (if c then m else m') s ↔ (c → Within Q m s) ∧ (¬ c → Within Q m' s) := by
  by_cases hc : c <;> simp [hc]

/-! ## results -/

/-- A sequence returns what the second part returns from where the first part
ends. -/
theorem result_bind {m : Traced σ ε α} {f : α → Traced σ ε β} {b : β} {s'' : σ} :
    ((m >>= f) s).2 = some (b, s'') ↔
      ∃ a s', (m s).2 = some (a, s') ∧ (f a s').2 = some (b, s'') := by
  show (Traced.bind m f s).2 = _ ↔ _
  unfold Traced.bind
  match h : m s with
  | (l, none) => simp
  | (l, some (a, s')) => simp [and_assoc]

@[simp] theorem get_bind_apply (f : σ → Traced σ ε β) : (get >>= f) s = f s s := by
  show Traced.bind get f s = _
  simp [Traced.bind, get, ofState]

@[simp] theorem modify_bind_apply (g : σ → σ) (f : Unit → Traced σ ε β) :
    (modify g >>= f) s = f () (g s) := by
  show Traced.bind (modify g) f s = _
  simp [Traced.bind, modify, ofState]

theorem ofState_bind_some {g : σ → Option (α × σ)} {a : α} {s' : σ} (h : g s = some (a, s'))
    (f : α → Traced σ ε β) : (ofState g >>= f) s = f a s' := by
  show Traced.bind (ofState g) f s = _
  simp [Traced.bind, ofState, h]

@[simp] theorem emit_bind_apply (e : ε) (f : Unit → Traced σ ε β) :
    (emit e >>= f) s = (e :: (f () s).1, (f () s).2) := by
  show Traced.bind (emit e) f s = _
  simp [Traced.bind, emit]

@[simp] theorem pure_apply (a : α) : (Pure.pure a : Traced σ ε α) s = ([], some (a, s)) := rfl

@[simp] theorem abort_apply : (abort : Traced σ ε α) s = ([], none) := rfl

theorem result_ofState_bind (g : σ → Option (α × σ)) (f : α → Traced σ ε β) {b : β} {s'' : σ} :
    ((ofState g >>= f) s).2 = some (b, s'') ↔
      ∃ a s', g s = some (a, s') ∧ (f a s').2 = some (b, s'') :=
  result_bind

@[simp] theorem result_pure {a b : α} {s' : σ} :
    ((Pure.pure a : Traced σ ε α) s).2 = some (b, s') ↔ a = b ∧ s = s' := by
  show some (a, s) = _ ↔ _
  simp

/-! ## what holds at the end -/

/-- Whenever `m` started in `s` ends normally, its trace, value and state satisfy
`P`. -/
def Ends (m : Traced σ ε α) (s : σ) (P : List ε → α → σ → Prop) : Prop :=
  ∀ a s', (m s).2 = some (a, s') → P (m s).1 a s'

section Ends

variable {P Q : List ε → α → σ → Prop}

theorem Ends.imp {m : Traced σ ε α} (h : Ends m s P) (hPQ : ∀ l a s', P l a s' → Q l a s') :
    Ends m s Q :=
  fun a s' hr => hPQ _ a s' (h a s' hr)

@[simp] theorem ends_pure (a : α) : Ends (Pure.pure a : Traced σ ε α) s P ↔ P [] a s := by
  simp only [Ends, result_pure]
  exact ⟨fun h => h a s ⟨rfl, rfl⟩, fun h _ _ ⟨ha, hs⟩ => ha ▸ hs ▸ h⟩

@[simp] theorem ends_abort : Ends (abort : Traced σ ε α) s P ↔ True := by
  simp [Ends, abort]

@[simp] theorem ends_bind (m : Traced σ ε β) (f : β → Traced σ ε α) :
    Ends (m >>= f) s P ↔ Ends m s fun l b s' => Ends (f b) s' fun l' => P (l ++ l') := by
  show (∀ a s', (Traced.bind m f s).2 = some (a, s') → P (Traced.bind m f s).1 a s') ↔ _
  unfold Traced.bind Ends
  match h : m s with
  | (l, none) => simp
  | (l, some (b, s')) => simp

@[simp] theorem ends_emit (e : ε) {P : List ε → Unit → σ → Prop} :
    Ends (emit e) s P ↔ P [e] () s := by
  simp [Ends, emit, forall_unit]

@[simp] theorem ends_get {P : List ε → σ → σ → Prop} :
    Ends (get : Traced σ ε σ) s P ↔ P [] s s := by
  simp [Ends, get, ofState]

@[simp] theorem ends_modify (f : σ → σ) {P : List ε → Unit → σ → Prop} :
    Ends (modify f : Traced σ ε Unit) s P ↔ P [] () (f s) := by
  simp [Ends, modify, ofState, forall_unit]

@[simp] theorem ends_assert (c : Prop) [Decidable c] {P : List ε → Unit → σ → Prop} :
    Ends (assert c : Traced σ ε Unit) s P ↔ (c → P [] () s) := by
  by_cases hc : c
  · simp [assert, hc]
  · simp [assert, hc]

theorem ends_ofState (f : σ → Option (α × σ)) :
    Ends (ofState f : Traced σ ε α) s P ↔ ∀ a s', f s = some (a, s') → P [] a s' := Iff.rfl

@[simp] theorem ends_ite {c : Prop} [Decidable c] (m m' : Traced σ ε α) :
    Ends (if c then m else m') s P ↔ (c → Ends m s P) ∧ (¬ c → Ends m' s P) := by
  by_cases hc : c
  · simp [hc]
  · simp [hc]

end Ends

/-! ## a part of the state that follows the trace -/

/-- The part `view` of the state is determined by the trace: `f` says what an
access does to it. -/
def Tracks (view : σ → β) (f : β → ε → β) (m : Traced σ ε α) : Prop :=
  ∀ s, Ends m s fun l _ s' => view s' = l.foldl f (view s)

namespace Tracks

variable {γ : Type} {view : σ → γ} {f : γ → ε → γ}

protected theorem pure (a : α) : Tracks view f (Pure.pure a : Traced σ ε α) := by
  intro s
  simp

protected theorem bind {m : Traced σ ε β} {g : β → Traced σ ε α} (hm : Tracks view f m)
    (hg : ∀ b, Tracks view f (g b)) : Tracks view f (m >>= g) := by
  intro s
  rw [ends_bind]
  refine (hm s).imp fun l b s' hl => (hg b s').imp fun l' a s'' hl' => ?_
  rw [hl', hl, List.foldl_append]

/-- A computation that leaves the view as it was. -/
theorem ofState {g : σ → Option (α × σ)} (h : ∀ s a s', g s = some (a, s') → view s' = view s) :
    Tracks view f (ofState g) := fun s a s' hr => h s a s' hr

/-- An access that does not touch the view. -/
theorem emit {e : ε} (h : ∀ b, f b e = b) : Tracks view f (emit e) := by
  intro s
  simp [h]

theorem get : Tracks view f (get : Traced σ ε σ) := by
  intro s
  simp

theorem modify {g : σ → σ} (h : ∀ s, view (g s) = view s) :
    Tracks view f (modify g : Traced σ ε Unit) := by
  intro s
  simp [h]

theorem assert (c : Prop) [Decidable c] : Tracks view f (assert c : Traced σ ε Unit) := by
  intro s
  simp

theorem ite {c : Prop} [Decidable c] {m m' : Traced σ ε α} (hm : Tracks view f m)
    (hm' : Tracks view f m') : Tracks view f (if c then m else m') := by
  split
  · exact hm
  · exact hm'

/-- A program that tracks the view whatever its accesses are taken to do leaves it
as it was. -/
theorem eq_of_const {m : Traced σ ε α} (hm : Tracks view (fun b _ => b) m) (s : σ) :
    Ends m s fun _ _ s' => view s' = view s :=
  (hm s).imp fun l _ _ hl => hl.trans (List.foldl_fixed l)

end Tracks

end Traced

end Femu.Lib

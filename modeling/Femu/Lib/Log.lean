import Mathlib.Data.List.Induction

/-!
# Femu.Lib.Log

Histories: lists of events, oldest first, that a system only ever appends to.

* `Always P log` — each event of `log` stands in relation `P` to the events
  before it;
* `since reset val log` — the values taken since the last reset, in order.

`countP_reset_eq_one` is the rule for resources handed out in cycles: if a value
is never taken twice without a reset in between, and never reset without having
been taken, then exactly one reset lies between two consecutive takings.
-/

namespace Femu.Lib

variable {ε β : Type}

/-! ## what holds at every event -/

/-- Each event of the log satisfies `P`, given the events before it. -/
def Always (P : List ε → ε → Prop) (log : List ε) : Prop :=
  ∀ pre e post, log = pre ++ e :: post → P pre e

theorem always_nil (P : List ε → ε → Prop) : Always P [] := by
  intro pre e post h
  have := congrArg List.length h
  simp at this

/-- Appending an event adds the condition on that event. -/
theorem always_snoc {P : List ε → ε → Prop} {log : List ε} {x : ε} :
    Always P (log ++ [x]) ↔ Always P log ∧ P log x := by
  constructor
  · intro h
    refine ⟨fun pre e post he => h pre e (post ++ [x]) ?_, h log x [] rfl⟩
    rw [he, List.append_assoc, List.cons_append]
  · rintro ⟨h, hx⟩ pre e post he
    rcases List.eq_nil_or_concat post with rfl | ⟨post, y, rfl⟩
    · obtain ⟨rfl, h2⟩ := List.append_inj' he rfl
      cases h2
      exact hx
    · refine h pre e post ?_
      rw [List.concat_eq_append, ← List.cons_append, ← List.append_assoc] at he
      exact (List.append_inj' he rfl).1

theorem Always.of_mem {P : List ε → ε → Prop} {log : List ε} (h : Always P log) {e : ε}
    (he : e ∈ log) : ∃ pre, P pre e := by
  obtain ⟨pre, post, hlog⟩ := List.append_of_mem he
  exact ⟨pre, h pre e post hlog⟩

theorem Always.mono {P Q : List ε → ε → Prop} {log : List ε} (h : Always P log)
    (hPQ : ∀ pre e, P pre e → Q pre e) : Always Q log :=
  fun pre e post he => hPQ pre e (h pre e post he)

theorem Always.of_prefix {P : List ε → ε → Prop} {log log' : List ε} (h : Always P log')
    (hlog : log <+: log') : Always P log := by
  obtain ⟨rest, rfl⟩ := hlog
  intro pre e post he
  exact h pre e (post ++ rest) (by rw [he, List.append_assoc, List.cons_append])

/-- What comes first in a log comes before every event that is not in it. -/
theorem prefix_of_not_mem {xs ys before after : List ε} {x : ε}
    (h : before ++ x :: after <+: xs ++ ys) (hx : x ∉ xs) : xs <+: before := by
  have hfirst : before ++ [x] <+: xs ++ ys := by
    refine List.IsPrefix.trans ⟨after, ?_⟩ h
    rw [List.append_assoc]
    rfl
  rcases List.prefix_or_prefix_of_prefix (List.prefix_append xs ys) hfirst with hle | hle
  · rcases List.prefix_concat_iff.mp hle with heq | hle
    · exact absurd (heq ▸ List.mem_append_right _ (List.mem_singleton_self x)) hx
    · exact hle
  · exact absurd (hle.subset (List.mem_append_right _ (List.mem_singleton_self x))) hx

/-! ## values taken since the last reset -/

/-- The values taken since the last reset. -/
def since (reset : ε → Bool) (val : ε → Option β) (log : List ε) : List β :=
  log.foldl (fun acc e => if reset e then [] else acc ++ (val e).toList) []

section since

variable {reset : ε → Bool} {val : ε → Option β}

@[simp] theorem since_nil : since reset val [] = [] := rfl

theorem since_snoc (log : List ε) (e : ε) :
    since reset val (log ++ [e]) =
      if reset e then [] else since reset val log ++ (val e).toList := by
  simp [since]

/-- An event that neither resets nor takes leaves the values alone. -/
theorem since_snoc_of_none {log : List ε} {e : ε} (hr : reset e = false) (hv : val e = none) :
    since reset val (log ++ [e]) = since reset val log := by
  simp [since_snoc, hr, hv]

end since

/-! ## resources handed out in cycles -/

/-- **Cycle rule**: suppose that a value is only taken when it is not held, and
reset only when it is.  Then exactly one reset lies between one taking of the
value and the next. -/
theorem countP_reset_eq_one {reset : ε → Bool} (val : ε → Option β) {x : β}
    {pre mid post : List ε} {e e' : ε}
    (hok : Always (fun pre e => (val e = some x → reset e = false ∧ x ∉ since reset val pre) ∧
      (reset e = true → x ∈ since reset val pre)) (pre ++ e :: (mid ++ e' :: post)))
    (he : val e = some x) (he' : val e' = some x) (hmid : ∀ d ∈ mid, val d ≠ some x) :
    mid.countP reset = 1 := by
  have key : ∀ m rest, mid = m ++ rest →
      (m.countP reset = 0 ∧ x ∈ since reset val (pre ++ e :: m)) ∨
        (m.countP reset = 1 ∧ x ∉ since reset val (pre ++ e :: m)) := by
    intro m
    induction m using List.reverseRecOn with
    | nil =>
        intro rest _
        have hr := ((hok pre e _ rfl).1 he).1
        left
        simp [since_snoc, hr, he]
    | append_singleton m d ih =>
        intro rest hrest
        have hd := hok (pre ++ e :: m) d (rest ++ e' :: post) (by simp [hrest])
        have hlog : pre ++ e :: (m ++ [d]) = (pre ++ e :: m) ++ [d] := by simp
        have ih := ih (d :: rest) (by simp [hrest])
        rw [List.countP_append, hlog, since_snoc]
        by_cases hr : reset d = true
        · -- a reset needs the value to be held, so it is the first one
          have hheld := hd.2 hr
          have h0 : m.countP reset = 0 := by
            rcases ih with h | h
            · exact h.1
            · exact absurd hheld h.2
          right
          simp [hr, h0]
        · have hne := hmid d (by simp [hrest])
          rcases ih with ⟨hc, hx⟩ | ⟨hc, hx⟩
          · left
            simp [hr, hc, hx]
          · right
            simp [hr, hc, hx, hne]
  rcases key mid [] (by simp) with ⟨-, hheld⟩ | ⟨hone, -⟩
  · have hfree := ((hok (pre ++ e :: mid) e' post (by simp)).1 he').2
    exact absurd hheld hfree
  · exact hone

end Femu.Lib

import Mathlib.Logic.Function.Basic
import Femu.Lib.Transition

/-!
# Femu.Lib.Flash

What a flash memory is for: pages that are programmed, read, and erased a block at a
time.

* `FlashOp.read_last` — a read gives what was programmed last, and the block of the page
  has not been erased since;
* `FlashOp.program_once` — between two times that a page is programmed its block is
  erased.
-/

namespace Femu.Lib

/-- What a user of a flash memory does: `ι` are its pages, `β` its blocks. -/
inductive FlashOp (ι β α : Type)
  | program (a : ι) (x : α)
  | read (a : ι) (x : α)
  | erase (b : β)

namespace FlashOp

variable {ι β α : Type} [DecidableEq ι] [DecidableEq β] {block : ι → β}

/-- One operation, on what the pages hold that have been programmed. -/
def Step (block : ι → β) (m : ι → Option α) : FlashOp ι β α → (ι → Option α) → Prop
  | .program a x, m' => m a = none ∧ m' = Function.update m a (some x)
  | .read a x, m' => m' = m ∧ m a = some x
  | .erase b, m' => m' = fun a => if block a = b then none else m a

/-- The operation neither programs the page nor erases its block. -/
def Spares (block : ι → β) (a : ι) : FlashOp ι β α → Prop
  | .program a' _ => a' ≠ a
  | .read _ _ => True
  | .erase b => b ≠ block a

variable {m m' : ι → Option α} {op : FlashOp ι β α} {ops pre mid post : List (FlashOp ι β α)}
  {a : ι} {x y : α}

theorem Step.apply_of_spares (h : Step block m op m') (hop : op.Spares block a) : m' a = m a := by
  cases op with
  | program a' x => rw [h.2, Function.update_of_ne (Ne.symm hop)]
  | read a' x => rw [h.1]
  | erase b =>
      have hm : m' = fun a => if block a = b then none else m a := h
      rw [hm]
      exact if_neg (Ne.symm hop)

/-- A page that holds something after a step either held it before, or was programmed. -/
theorem Step.some_cases (h : Step block m op m') (hx : m' a = some x) :
    (m a = some x ∧ op.Spares block a) ∨ op = .program a x := by
  by_cases hop : op.Spares block a
  case pos => exact .inl ⟨by rw [← h.apply_of_spares hop, hx], hop⟩
  case neg =>
    right
    cases op with
    | program a' x' =>
        obtain rfl : a' = a := not_not.mp hop
        rw [h.2, Function.update_self, Option.some.injEq] at hx
        rw [hx]
    | read a' x' => exact absurd trivial hop
    | erase b =>
        have hm : m' = fun a => if block a = b then none else m a := h
        have hnone : m' a = none := by
          rw [hm]
          exact if_pos (not_not.mp hop).symm
        rw [hnone] at hx
        cases hx

/-- **What a page holds** it has held from the start, or since it was programmed. -/
theorem run_some (h : Run (Step block) m ops m') (hx : m' a = some x) :
    (m a = some x ∧ ∀ op ∈ ops, op.Spares block a) ∨
      ∃ pre mid, ops = pre ++ .program a x :: mid ∧ ∀ op ∈ mid, op.Spares block a := by
  induction h with
  | nil => exact .inl ⟨hx, by simp⟩
  | @cons m u m' op ops head tail ih =>
      obtain ⟨hu, hops⟩ | ⟨pre, mid, rfl, hmid⟩ := ih hx
      · obtain ⟨hm, hop⟩ | rfl := head.some_cases hu
        · exact .inl ⟨hm, List.forall_mem_cons.mpr ⟨hop, hops⟩⟩
        · exact .inr ⟨[], ops, rfl, hops⟩
      · exact .inr ⟨op :: pre, mid, rfl, hmid⟩

/-- A page that holds something holds something until its block is erased. -/
theorem run_ne_none (h : Run (Step block) m ops m') (hm : m a ≠ none)
    (hops : .erase (block a) ∉ ops) : m' a ≠ none := by
  induction h with
  | nil => exact hm
  | @cons m u m' op ops head tail ih =>
      rw [List.mem_cons, not_or] at hops
      refine ih ?_ hops.2
      by_cases hop : op.Spares block a
      case pos => rwa [head.apply_of_spares hop]
      case neg =>
        cases op with
        | program a' x =>
            obtain rfl : a' = a := not_not.mp hop
            rw [head.2, Function.update_self]
            exact Option.some_ne_none x
        | read a' x => exact absurd trivial hop
        | erase b => exact absurd (congrArg FlashOp.erase (not_not.mp hop).symm) hops.1

/-- **A read** gives what was programmed last, and since then the page has been spared. -/
theorem read_last (h : Run (Step block) (fun _ => none)
    (pre ++ .read a x :: post) m') :
    ∃ pre' mid, pre = pre' ++ .program a x :: mid ∧ ∀ op ∈ mid, op.Spares block a := by
  obtain ⟨u, hpre, hread⟩ := h.of_append
  cases hread with
  | cons head tail =>
      obtain ⟨hnone, -⟩ | hprogram := run_some hpre head.2
      · cases hnone
      · exact hprogram

/-- **A page is programmed once** before its block is erased. -/
theorem program_once (h : Run (Step block) m
    (pre ++ .program a x :: (mid ++ .program a y :: post)) m') : .erase (block a) ∈ mid := by
  by_contra hmid
  obtain ⟨u, -, hrest⟩ := h.of_append
  cases hrest with
  | @cons _ v _ _ _ head tail =>
      obtain ⟨w, hrun, hnext⟩ := tail.of_append
      cases hnext with
      | cons head' tail' =>
          have hv : v a ≠ none := by
            rw [head.2, Function.update_self]
            exact Option.some_ne_none x
          exact run_ne_none hrun hv hmid head'.1

/-- Reads of what pages hold. -/
theorem run_reads (block : ι → β) {ps : List (ι × α)} (h : ∀ p ∈ ps, m p.1 = some p.2) :
    Run (Step block) m (ps.map fun p => .read p.1 p.2) m := by
  induction ps with
  | nil => exact .nil m
  | cons p ps ih =>
      obtain ⟨hp, hps⟩ := List.forall_mem_cons.mp h
      exact .cons ⟨rfl, hp⟩ (ih hps)

/-- Pages that hold nothing are programmed one after the other. -/
theorem run_programs (block : ι → β) {as : List ι} {xs : List α}
    (hlen : as.length = xs.length) (hnodup : as.Nodup) (hm : ∀ a ∈ as, m a = none) :
    ∃ m', Run (Step block) m (List.zipWith .program as xs) m' ∧
      (∀ p ∈ as.zip xs, m' p.1 = some p.2) ∧ ∀ a ∉ as, m' a = m a := by
  induction as generalizing xs m with
  | nil => exact ⟨m, .nil m, by simp, fun _ _ => rfl⟩
  | cons a as ih =>
      cases xs with
      | nil => cases hlen
      | cons x xs =>
          obtain ⟨ha, has⟩ := List.nodup_cons.mp hnodup
          have hnext : ∀ b ∈ as, Function.update m a (some x) b = none := by
            intro b hb
            rw [Function.update_of_ne (ne_of_mem_of_not_mem hb ha)]
            exact hm b (List.mem_cons_of_mem a hb)
          obtain ⟨m', hrun, hin, hout⟩ := ih (Nat.succ.inj hlen) has hnext
          refine ⟨m', .cons ⟨hm a List.mem_cons_self, rfl⟩ hrun, ?_, fun b hb => ?_⟩
          · rw [List.zip_cons_cons, List.forall_mem_cons]
            refine ⟨?_, hin⟩
            rw [hout a ha, Function.update_self]
          · rw [List.mem_cons, not_or] at hb
            rw [hout b hb.2, Function.update_of_ne hb.1]

end FlashOp

end Femu.Lib

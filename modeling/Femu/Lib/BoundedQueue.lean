import Femu.Lib.Transition

/-!
# Femu.Lib.BoundedQueue

A queue of at most `cap` entries that several actors put entries into and get entries
from, several at a time: what a queue does when nobody can see it between two calls. Along
any run every entry that was put comes out once, in the order in which the entries
were put (`run_fifo`).
-/

namespace Femu.Lib

variable {T α : Type}

/-- What an actor does to the queue in one call. -/
inductive QueueEvent (T α : Type)
  | put (t : T) (xs : List α)
  | get (t : T) (xs : List α)
deriving DecidableEq

namespace QueueEvent

def actor : QueueEvent T α → T
  | .put t _ | .get t _ => t

/-- What has been put by the events, in order. -/
def puts : List (QueueEvent T α) → List α
  | [] => []
  | .put _ xs :: es => xs ++ puts es
  | .get _ _ :: es => puts es

/-- What the events have got, in order. -/
def gets : List (QueueEvent T α) → List α
  | [] => []
  | .put _ _ :: es => gets es
  | .get _ xs :: es => xs ++ gets es

end QueueEvent

/-- One call on a queue of at most `cap` entries. -/
def QueueStep (cap : Nat) (q : List α) : QueueEvent T α → List α → Prop
  | .put _ xs, q' => q' = q ++ xs ∧ q'.length ≤ cap
  | .get _ xs, q' => q = xs ++ q'

/-- **First in, first out**: what came out of the queue and what is still in it is
what was put into it. -/
theorem run_fifo {cap : Nat} {q q' : List α} {es : List (QueueEvent T α)}
    (h : Run (QueueStep cap) q es q') :
    q ++ QueueEvent.puts es = QueueEvent.gets es ++ q' := by
  induction h with
  | nil q => simp [QueueEvent.puts, QueueEvent.gets]
  | @cons q r q' e es head tail ih =>
      cases e with
      | put t xs =>
          rw [QueueEvent.puts, QueueEvent.gets, ← ih, head.1, List.append_assoc]
      | get t xs =>
          have hq : q = xs ++ r := head
          rw [QueueEvent.puts, QueueEvent.gets, hq, List.append_assoc, ih, List.append_assoc]

end Femu.Lib

import Mathlib.Tactic.Common

/-!
# Femu.Lib.Buffer

A buffer that is filled from the front: each write goes behind what has been
written, into a part that is still blank.
-/

namespace Femu.Lib

variable {ε α : Type}

/-- Write to a buffer; `lost` is the error of a write past its end. -/
def put (lost : ε) (buf : List α) (off : Nat) (xs : List α) : Except ε (List α) :=
  if off + xs.length ≤ buf.length then .ok (buf.take off ++ xs ++ buf.drop (off + xs.length))
  else .error lost

/-- A write behind what has been written. -/
theorem put_blank {lost : ε} {pre xs : List α} {blank : α} {k : Nat} (h : xs.length ≤ k) :
    put lost (pre ++ List.replicate k blank) pre.length xs =
      .ok (pre ++ xs ++ List.replicate (k - xs.length) blank) := by
  unfold put
  rw [if_pos (by simpa using h)]
  simp [List.drop_append]

end Femu.Lib

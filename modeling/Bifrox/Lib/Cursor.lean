/-
Readers that move a cursor past the last item that they got; one that got nothing fetches at
the same position again.
-/
import Mathlib.Data.List.Basic

namespace Bifrox.Cursor

open List

variable {α : Type*} (position : α → Nat) (fetch : Nat → List α)

/-- What a reader has got after some fetches. -/
def drain : (fetches next : Nat) → List α
  | 0, _ => []
  | fetches + 1, next =>
    match (fetch next).getLast? with
    | none => drain fetches next
    | some last => fetch next ++ drain fetches (position last + 1)

/-- A fetch at `next` returns each wanted item from there on, or moves the cursor short of
it. -/
def Advances (wanted : α → Prop) (next : Nat) : Prop :=
  ∀ a, wanted a → next ≤ position a →
    a ∈ fetch next ∨ ∃ last, (fetch next).getLast? = some last ∧ position last < position a

variable {position fetch} {wanted : α → Prop}

section From

variable (hfrom : ∀ next, ∀ a ∈ fetch next, next ≤ position a)
include hfrom

end From

end Bifrox.Cursor

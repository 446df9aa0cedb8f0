/-
Unsigned numbers as Rust's `str::parse` reads them: decimal digits, at least one,
after an optional plus sign, with a value below the bound of the type.
-/
import Mathlib.Data.List.Basic

namespace Decimal

def stripPlus (text : List Char) : List Char :=
  if text.head? = some '+' then text.tail else text

def parseBelow (bound : Nat) (text : List Char) : Option Nat :=
  if stripPlus text ≠ [] ∧ (stripPlus text).all Char.isDigit ∧
      Nat.ofDigitChars 10 (stripPlus text) 0 < bound then
    some (Nat.ofDigitChars 10 (stripPlus text) 0)
  else none

theorem isDigit_of_mem_toDigits {n : Nat} {c : Char} (h : c ∈ Nat.toDigits 10 n) :
    c.isDigit = true :=
  Nat.isDigit_of_mem_toDigits (by decide) (by decide) h

theorem stripPlus_toDigits (n : Nat) : stripPlus (Nat.toDigits 10 n) = Nat.toDigits 10 n := by
  unfold stripPlus
  rw [if_neg]
  intro hplus
  exact absurd (isDigit_of_mem_toDigits (List.mem_of_head? hplus)) (by decide)

theorem parseBelow_toDigits {bound n : Nat} (h : n < bound) :
    parseBelow bound (Nat.toDigits 10 n) = some n := by
  have hdigits : (Nat.toDigits 10 n).all Char.isDigit = true :=
    List.all_eq_true.mpr fun _ => isDigit_of_mem_toDigits
  have hvalue : Nat.ofDigitChars 10 (Nat.toDigits 10 n) 0 = n :=
    Nat.ofDigitChars_toDigits (by decide) (by decide)
  rw [parseBelow, stripPlus_toDigits, hvalue, if_pos ⟨Nat.toDigits_ne_nil, hdigits, h⟩]

end Decimal

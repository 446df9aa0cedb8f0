/-
Base64 with the standard alphabet and canonical padding: the last group is padded to
four characters, and the bits the padding stands for are zero.
-/
import Mathlib.Data.List.Basic

namespace Base64

open Option

def symbol (n : Nat) : Char :=
  if n < 26 then Char.ofNat (65 + n)
  else if n < 52 then Char.ofNat (71 + n)
  else if n < 62 then Char.ofNat (n - 4)
  else if n = 62 then '+'
  else '/'

def value (c : Char) : Option Nat :=
  if 'A' ≤ c ∧ c ≤ 'Z' then some (c.toNat - 65)
  else if 'a' ≤ c ∧ c ≤ 'z' then some (c.toNat - 71)
  else if '0' ≤ c ∧ c ≤ '9' then some (c.toNat + 4)
  else if c = '+' then some 62
  else if c = '/' then some 63
  else none

def encode : List UInt8 → List Char
  | [] => []
  | [a] => [symbol (a.toNat / 4), symbol (a.toNat % 4 * 16), '=', '=']
  | [a, b] =>
    [symbol (a.toNat / 4), symbol (a.toNat % 4 * 16 + b.toNat / 16), symbol (b.toNat % 16 * 4), '=']
  | a :: b :: c :: rest =>
    symbol (a.toNat / 4) :: symbol (a.toNat % 4 * 16 + b.toNat / 16) ::
      symbol (b.toNat % 16 * 4 + c.toNat / 64) :: symbol (c.toNat % 64) :: encode rest

def decode : List Char → Option (List UInt8)
  | [] => some []
  | w :: x :: y :: z :: rest =>
    if z ≠ '=' then do
      let p ← value w
      let q ← value x
      let r ← value y
      let s ← value z
      let bytes ← decode rest
      some (UInt8.ofNat (p * 4 + q / 16) :: UInt8.ofNat (q % 16 * 16 + r / 4) ::
        UInt8.ofNat (r % 4 * 64 + s) :: bytes)
    else if rest ≠ [] then none
    else if y ≠ '=' then do
      let p ← value w
      let q ← value x
      let r ← value y
      if r % 4 = 0 then
        some [UInt8.ofNat (p * 4 + q / 16), UInt8.ofNat (q % 16 * 16 + r / 4)]
      else none
    else do
      let p ← value w
      let q ← value x
      if q % 16 = 0 then some [UInt8.ofNat (p * 4 + q / 16)] else none
  | _ => none

theorem value_symbol : ∀ n < 64, value (symbol n) = some n := by decide

theorem symbol_ne_comma (n : Nat) : symbol n ≠ ',' := by
  by_cases hn : n < 63
  · revert n
    decide
  · have hslash : symbol n = '/' := by
      simp (disch := omega) only [symbol, if_neg]
    rw [hslash]
    decide

theorem symbol_ne_padding : ∀ n < 64, symbol n ≠ '=' := by decide

theorem ofNat_eq_of_toNat (byte : UInt8) {n : Nat} (h : n = byte.toNat) : UInt8.ofNat n = byte := by
  rw [h, UInt8.ofNat_toNat]

theorem decode_encode (bytes : List UInt8) : decode (encode bytes) = some bytes := by
  induction bytes using encode.induct with
  | case1 => rfl
  | case2 a =>
    have ha := a.toNat_lt
    simp (disch := omega) only [encode, decode, value_symbol, bind_eq_bind,
      bind_some, ne_eq, not_true_eq_false, if_false]
    rw [if_pos (by omega), ofNat_eq_of_toNat a (by omega)]
  | case3 a b =>
    have ha := a.toNat_lt
    have hb := b.toNat_lt
    simp (disch := omega) only [encode, decode, value_symbol, symbol_ne_padding,
      bind_eq_bind, bind_some, ne_eq, not_true_eq_false, not_false_eq_true, if_true,
      if_false]
    rw [if_pos (by omega), ofNat_eq_of_toNat a (by omega), ofNat_eq_of_toNat b (by omega)]
  | case4 a b c rest ih =>
    have ha := a.toNat_lt
    have hb := b.toNat_lt
    have hc := c.toNat_lt
    simp (disch := omega) only [encode, decode, value_symbol, symbol_ne_padding, ih,
      bind_eq_bind, bind_some, ne_eq, not_false_eq_true, if_true]
    rw [ofNat_eq_of_toNat a (by omega), ofNat_eq_of_toNat b (by omega),
      ofNat_eq_of_toNat c (by omega)]

theorem comma_notMem_encode (bytes : List UInt8) : ',' ∉ encode bytes := by
  induction bytes using encode.induct with
  | case1 => exact List.not_mem_nil
  | case2 => simp [encode, (symbol_ne_comma _).symm]
  | case3 => simp [encode, (symbol_ne_comma _).symm]
  | case4 a b c rest ih => simp [encode, (symbol_ne_comma _).symm, ih]

end Base64

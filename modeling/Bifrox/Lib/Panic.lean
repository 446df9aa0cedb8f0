/-
Computations that can panic.

`x = some r` says that `x` does not panic and ends as `r` does, so a checked function is compared
with a plain one by an equation.
-/
import Bifrox.Lib.BigEndian

namespace Panic

open BigEndian (Bytes put split length_put split_put)

variable {ε α β : Type}

/-- `none` is a panic. -/
abbrev Checked (ε α : Type) := ExceptT ε Option α

def panic : Checked ε α := (none : Option (Except ε α))

def refuse (c : Prop) [Decidable c] (e : ε) : Checked ε Unit := if c then throw e else pure ()

def assert (c : Prop) [Decidable c] : Checked ε Unit := if c then pure () else panic

def returns (r : Except ε α) : Checked ε α := (some r : Option (Except ε α))

def getField (w : Nat) (cursor : Bytes) : Checked ε (Nat × Bytes) :=
  if w ≤ cursor.length then pure (split w cursor) else panic

def slice (n : Nat) (cursor : Bytes) : Checked ε Bytes :=
  if n ≤ cursor.length then pure (cursor.take n) else panic

def advance (n : Nat) (cursor : Bytes) : Checked ε Bytes :=
  if n ≤ cursor.length then pure (cursor.drop n) else panic

def addU64 (a b : Nat) : Checked ε Nat := if a + b < 2 ^ 64 then pure (a + b) else panic

def subU64 (a b : Nat) : Checked ε Nat := if b ≤ a then pure (a - b) else panic

/-- Two's complement numbers of 64 bits whose sum is one. -/
def FitsI64 (a b : Int64) : Prop := -2 ^ 63 ≤ a.toInt + b.toInt ∧ a.toInt + b.toInt < 2 ^ 63

instance (a b : Int64) : Decidable (FitsI64 a b) := inferInstanceAs (Decidable (_ ∧ _))

def addI64 (a b : Int64) : Checked ε Int64 := if FitsI64 a b then pure (a + b) else panic

def toUsize (a : Int32) : Checked ε Nat := if 0 ≤ a then pure a.toInt.toNat else panic

/-! ## Steps that do not panic -/

@[simp] theorem pure_bind (a : α) (f : α → Checked ε β) : (pure a >>= f : Checked ε β) = f a := rfl

@[simp] theorem returns_ok_bind (a : α) (f : α → Checked ε β) :
    (returns (.ok a) >>= f : Checked ε β) = f a := rfl

theorem returns_bind (r : Except ε α) (f : α → Except ε β) :
    (returns r >>= fun a => returns (f a) : Checked ε β) = returns (r >>= f) := by
  cases r <;> rfl

section Operations

variable {w n a b : Nat} {cursor : Bytes} {c : Prop}

theorem refuse_pos [Decidable c] (h : c) (e : ε) : refuse c e = throw e := if_pos h

theorem refuse_neg [Decidable c] (h : ¬ c) (e : ε) : refuse c e = pure () := if_neg h

theorem assert_pos [Decidable c] (h : c) : (assert c : Checked ε Unit) = pure () :=
  if_pos h

theorem getField_of_le (h : w ≤ cursor.length) :
    (getField w cursor : Checked ε (Nat × Bytes)) = pure (split w cursor) := if_pos h

theorem getField_put (w x : Nat) (rest : Bytes) :
    (getField w (put w x ++ rest) : Checked ε (Nat × Bytes)) = pure (x % 256 ^ w, rest) := by
  rw [getField_of_le (by rw [List.length_append, length_put]; omega), split_put]

theorem slice_of_le (h : n ≤ cursor.length) :
    (slice n cursor : Checked ε Bytes) = pure (cursor.take n) := if_pos h

theorem advance_of_le (h : n ≤ cursor.length) :
    (advance n cursor : Checked ε Bytes) = pure (cursor.drop n) := if_pos h

theorem addU64_of_lt (h : a + b < 2 ^ 64) : (addU64 a b : Checked ε Nat) = pure (a + b) := if_pos h

theorem subU64_of_le (h : b ≤ a) : (subU64 a b : Checked ε Nat) = pure (a - b) := if_pos h

theorem addI64_of_fits {a b : Int64} (h : FitsI64 a b) :
    (addI64 a b : Checked ε Int64) = pure (a + b) := if_pos h

theorem toUsize_of_nonneg {a : Int32} (h : 0 ≤ a) :
    (toUsize a : Checked ε Nat) = pure a.toInt.toNat := if_pos h

end Operations

end Panic

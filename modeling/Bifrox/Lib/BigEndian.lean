/-
Big-endian fixed-width fields.

A field of width `w` is written by `put w n` and read back by `get`; `split` is the cursor read
that wire decoders are made of.
-/
import Mathlib.Data.List.Induction
import Mathlib.Tactic.Ring

namespace BigEndian

open List

abbrev Bytes := List UInt8

/-- The low `w` bytes of `n`, most significant first. -/
def put : Nat → Nat → Bytes
  | 0, _ => []
  | w + 1, n => UInt8.ofNat (n / 256 ^ w) :: put w n

variable (bs : Bytes)

/-- The value of a byte string read most significant byte first. -/
def get : Nat := bs.foldl (fun acc b => acc * 256 + b.toNat) 0

def split (w : Nat) (bs : Bytes) : Nat × Bytes := (get (bs.take w), bs.drop w)

variable (w n : Nat)

@[simp] theorem length_put : (put w n).length = w := by
  induction w with
  | zero => rfl
  | succ w ih => rw [put, length_cons, ih]

/-- The fold with a running accumulator: the accumulator is shifted past the
bytes still to be read. -/
theorem foldl_put (w n acc : Nat) :
    (put w n).foldl (fun acc b => acc * 256 + b.toNat) acc = acc * 256 ^ w + n % 256 ^ w := by
  induction w generalizing acc with
  | zero => simp [put, Nat.mod_one]
  | succ w ih =>
    have hbyte : (UInt8.ofNat (n / 256 ^ w)).toNat = n / 256 ^ w % 256 := UInt8.toNat_ofNat'
    have hmod : n % 256 ^ (w + 1) = n % 256 ^ w + 256 ^ w * (n / 256 ^ w % 256) := by
      rw [Nat.pow_succ, Nat.mod_mul]
    rw [put, foldl_cons, ih, hbyte, hmod]
    ring

theorem get_put : get (put w n) = n % 256 ^ w := by
  rw [get, foldl_put, Nat.zero_mul, Nat.zero_add]

@[simp] theorem split_put (rest : Bytes) : split w (put w n ++ rest) = (n % 256 ^ w, rest) := by
  have htake : (put w n ++ rest).take w = put w n := by
    rw [take_append_of_le_length (by simp), take_of_length_le (by simp)]
  have hdrop : (put w n ++ rest).drop w = rest := by
    rw [drop_append_of_le_length (by simp), drop_of_length_le (by simp), nil_append]
  rw [split, htake, hdrop, get_put]

theorem split_put_self : split w (put w n) = (n % 256 ^ w, []) := by
  rw [← split_put, append_nil]

/-! ## Reading first

A decoder that rewrites what it read puts back the same bytes, so a decoded
value also bounds the length of its source. -/

theorem get_append_singleton (b : UInt8) : get (bs ++ [b]) = get bs * 256 + b.toNat := by
  rw [get, foldl_append, foldl_cons, foldl_nil, get]

theorem get_lt : get bs < 256 ^ bs.length := by
  induction bs using List.reverseRecOn with
  | nil => simp [get]
  | append_singleton bs b =>
    have hb : b.toNat < 256 := b.toNat_lt
    rw [get_append_singleton, length_append, length_singleton, Nat.pow_succ]
    omega

theorem put_succ_append : put (w + 1) n = put w (n / 256) ++ [UInt8.ofNat n] := by
  induction w with
  | zero => simp [put]
  | succ w ih =>
    rw [put, ih, put, cons_append, Nat.div_div_eq_div_mul, Nat.pow_succ']

theorem put_get : put bs.length (get bs) = bs := by
  induction bs using List.reverseRecOn with
  | nil => rfl
  | append_singleton bs b ih =>
    have hb : b.toNat < 256 := b.toNat_lt
    have hdiv : (get bs * 256 + b.toNat) / 256 = get bs := by omega
    have hbyte : UInt8.ofNat (get bs * 256 + b.toNat) = b := by
      apply UInt8.toNat_inj.mp
      rw [UInt8.toNat_ofNat', Nat.mul_add_mod_of_lt hb]
    rw [get_append_singleton, length_append, length_singleton, put_succ_append, hdiv, ih, hbyte]

theorem put_split {w : Nat} {bs : Bytes} (h : w ≤ bs.length) :
    put w (split w bs).1 ++ (split w bs).2 = bs := by
  have hlen : (bs.take w).length = w := by rw [length_take, Nat.min_eq_left h]
  have hput := put_get (bs.take w)
  rw [hlen] at hput
  rw [split, hput, take_append_drop]

theorem put_split_self {w : Nat} {bs : Bytes} (h : bs.length = w) : put w (split w bs).1 = bs := by
  have hsplit := put_split (Nat.le_of_eq h.symm)
  rwa [split, drop_of_length_le (Nat.le_of_eq h), append_nil] at hsplit

theorem split_fst_lt (w : Nat) (bs : Bytes) : (split w bs).1 < 256 ^ w := by
  have hle : (bs.take w).length ≤ w := by rw [length_take]; exact Nat.min_le_left _ _
  exact lt_of_lt_of_le (get_lt _) (Nat.pow_le_pow_right (by omega) hle)

end BigEndian

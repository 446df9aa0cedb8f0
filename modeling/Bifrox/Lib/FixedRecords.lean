/-
Files of records that all take up the same number of bytes.

A reader cuts the file into records from its start.  What is left over at the end is not read, but
is in the way of records that are written after it.
-/
import Bifrox.Lib.BigEndian

namespace FixedRecords

open List
open BigEndian (Bytes)

/-- How a record is stored.  A record fits if its fields do. -/
structure Format (α : Type) where
  size : Nat
  encode : α → Bytes
  decode : Bytes → α
  Fits : α → Prop
  size_pos : 0 < size
  length_encode (a : α) : (encode a).length = size
  decode_encode {a : α} : Fits a → decode (encode a) = a
  fits_decode (bytes : Bytes) : Fits (decode bytes)

namespace Format

variable {α : Type} (f : Format α)

def readAll (file : Bytes) : List α :=
  (range (file.length / f.size)).map fun i => f.decode ((file.drop (i * f.size)).take f.size)

def encodeAll (records : List α) : Bytes := records.flatMap f.encode

/-- What is left over at the end of a file. -/
def leftover (file : Bytes) : Bytes := file.drop (file.length / f.size * f.size)

/-- Bytes have one reading. -/
def Faithful : Prop := ∀ bytes, bytes.length = f.size → f.encode (f.decode bytes) = bytes

/-- Whole records ahead of others are read as if they stood alone. -/
theorem readAll_append {front : Bytes} (h : f.size ∣ front.length) (back : Bytes) :
    f.readAll (front ++ back) = f.readAll front ++ f.readAll back := by
  obtain ⟨k, hk⟩ := h
  simp only [readAll, length_append, hk, Nat.mul_add_div f.size_pos, range_add, map_append,
    map_map, Nat.mul_div_cancel_left k f.size_pos]
  congr 1
  · apply map_congr_left
    intro i hi
    have hle : (i + 1) * f.size ≤ k * f.size := Nat.mul_le_mul_right _ (mem_range.mp hi)
    rw [Nat.succ_mul, Nat.mul_comm k, ← hk] at hle
    rw [drop_append_of_le_length (by omega), take_append_of_le_length (by rw [length_drop]; omega)]
  · apply map_congr_left
    intro i _
    have hsum : (k + i) * f.size = front.length + i * f.size := by
      rw [Nat.add_mul, hk, Nat.mul_comm k]
    rw [Function.comp_apply, hsum, ← drop_drop, drop_left]

theorem readAll_encode {a : α} (h : f.Fits a) : f.readAll (f.encode a) = [a] := by
  have htake : (f.encode a).take f.size = f.encode a :=
    take_of_length_le (by simp [f.length_encode])
  simp [readAll, f.length_encode, Nat.div_self f.size_pos, htake, f.decode_encode h]

theorem readAll_encodeAll {records : List α} (h : ∀ a ∈ records, f.Fits a) :
    f.readAll (f.encodeAll records) = records := by
  induction records with
  | nil => simp [encodeAll, readAll]
  | cons a records ih =>
    have hdvd : f.size ∣ (f.encode a).length := by rw [f.length_encode]
    rw [encodeAll, flatMap_cons, f.readAll_append hdvd, f.readAll_encode (h a mem_cons_self),
      ← encodeAll, ih fun a ha => h a (mem_cons_of_mem _ ha)]
    rfl

theorem readAll_of_length_lt {bytes : Bytes} (h : bytes.length < f.size) :
    f.readAll bytes = [] := by
  rw [readAll, Nat.div_eq_of_lt h]
  rfl

theorem encodeAll_readAll (hf : f.Faithful) (bytes : Bytes) :
    f.encodeAll (f.readAll bytes) = bytes.take (bytes.length / f.size * f.size) := by
  rw [readAll]
  have hle := Nat.div_mul_le_self bytes.length f.size
  generalize bytes.length / f.size = n at hle ⊢
  induction n with
  | zero => simp [encodeAll]
  | succ n ih =>
    rw [Nat.succ_mul] at hle ⊢
    have hlast : ((bytes.drop (n * f.size)).take f.size).length = f.size := by
      rw [length_take, length_drop]
      omega
    rw [range_succ, map_append, encodeAll, flatMap_append, ← encodeAll, ih (by omega), take_add]
    simp [hf _ hlast]

/-- Records written after others are read back with them exactly if they are not shifted by what
is left over, or shifted into themselves. -/
theorem readAll_append_encodeAll_iff (hf : f.Faithful) (file : Bytes) {records : List α}
    (h : ∀ a ∈ records, f.Fits a) :
    f.readAll (file ++ f.encodeAll records) = f.readAll file ++ records ↔
      f.encodeAll records <+: f.leftover file ++ f.encodeAll records := by
  obtain ⟨whole, hdvd, hfile⟩ : ∃ whole, f.size ∣ whole.length ∧
      file = whole ++ f.leftover file := by
    refine ⟨file.take (file.length / f.size * f.size), ?_, (take_append_drop ..).symm⟩
    rw [length_take, Nat.min_eq_left (Nat.div_mul_le_self _ _)]
    exact Nat.dvd_mul_left ..
  have hshort : (f.leftover file).length < f.size := by
    rw [leftover, length_drop, Nat.mul_comm, ← Nat.mod_def]
    exact Nat.mod_lt _ f.size_pos
  generalize f.leftover file = rest at hfile hshort ⊢
  rw [hfile, append_assoc, f.readAll_append hdvd, f.readAll_append hdvd,
    f.readAll_of_length_lt hshort, append_nil, append_cancel_left_eq]
  constructor
  · intro hread
    have htake := f.encodeAll_readAll hf (rest ++ f.encodeAll records)
    have hstart := take_prefix ((rest ++ f.encodeAll records).length / f.size * f.size)
      (rest ++ f.encodeAll records)
    rwa [← htake, hread] at hstart
  · rintro ⟨rest', hrest⟩
    have hlength := congrArg length hrest
    have hdvd : f.size ∣ (f.encodeAll records).length := by
      simp [encodeAll, length_flatMap, f.length_encode, map_const']
    rw [length_append, length_append] at hlength
    rw [← hrest, f.readAll_append hdvd, f.readAll_encodeAll h,
      f.readAll_of_length_lt (by omega), append_nil]

end Format
end FixedRecords

/-
The frame of a batch: header, checksum and payload as bytes.

Every byte that a decode consumes is a byte that an encode of the result writes.
-/
import Bifrox.Protocol.BatchCodec

namespace Bifrox.Protocol

open BigEndian

namespace RecordBatch

variable {c : Crates}

structure Valid (c : Crates) (b : RecordBatch) : Prop where
  magic : b.magic = batchMagicByte
  crc : b.crc = b.calculateCrc c
  baseOffset_lt : b.baseOffset < 2 ^ 64
  length_lt : b.recordData.length < 2 ^ 32 - 48

theorem decode_cons (magic : UInt8) (body : Bytes) : ∀ word : Bytes, word.length = 4 →
    decode c (magic :: (word ++ body)) =
      if magic ≠ batchMagicByte then .error (.invalidMagic batchMagicByte magic)
      else if get word < batchLengthCoveredFixed then
        .error (.invalidBatchLength (get word) batchLengthCoveredFixed)
      else if body.length < get word then .error (.bufferTooShort (get word) body.length)
      else (verifyCrc c (parse magic body (get word - batchLengthCoveredFixed))).map fun _ =>
        (parse magic body (get word - batchLengthCoveredFixed), 5 + get word)
  | [_, _, _, _], _ => rfl

theorem decode_of_length_lt {src : Bytes} (h : src.length < 5) :
    decode c src = .error (.bufferTooShort 5 src.length) := by
  match src with
  | [] | [_] | [_, _] | [_, _, _] | [_, _, _, _] => rfl
  | _ :: _ :: _ :: _ :: _ :: _ => exact absurd h (by simp)

theorem ofNat_toNat_mod_uint16 (x : UInt16) : UInt16.ofNat (x.toNat % 256 ^ 2) = x := by
  rw [Nat.mod_eq_of_lt (show x.toNat < 256 ^ 2 from x.toNat_lt), UInt16.ofNat_toNat]

theorem ofNat_toNat_mod_uint32 (x : UInt32) : UInt32.ofNat (x.toNat % 256 ^ 4) = x := by
  rw [Nat.mod_eq_of_lt (show x.toNat < 256 ^ 4 from x.toNat_lt), UInt32.ofNat_toNat]

theorem ofNat_toNat_mod_uint64 (x : UInt64) : UInt64.ofNat (x.toNat % 256 ^ 8) = x := by
  rw [Nat.mod_eq_of_lt (show x.toNat < 256 ^ 8 from x.toNat_lt), UInt64.ofNat_toNat]

variable {b : RecordBatch}

theorem parse_crcInput (hbase : b.baseOffset < 2 ^ 64) (rest : Bytes) :
    parse b.magic (put 4 b.crc.toNat ++ (b.crcInput ++ rest)) b.recordData.length = b := by
  have hmod : b.baseOffset % 256 ^ 8 = b.baseOffset := Nat.mod_eq_of_lt (by omega)
  simp only [parse, crcInput, List.append_assoc, split_put, hmod, ofNat_toNat_mod_uint16,
    ofNat_toNat_mod_uint32, ofNat_toNat_mod_uint64, List.take_left, Int16.toInt16_toUInt16,
    Int32.toInt32_toUInt32]

/-! ## Encodings decode -/

theorem length_crcInput (b : RecordBatch) : b.crcInput.length = 44 + b.recordData.length := by
  simp only [crcInput, List.length_append, length_put]
  omega

theorem length_encode (b : RecordBatch) : b.encode.length = b.encodedSize := by
  simp only [encode, encodedSize, List.length_append, List.length_singleton, length_put,
    length_crcInput, batchHeaderSize]
  omega

theorem encode_append (b : RecordBatch) (rest : Bytes) :
    b.encode ++ rest = b.magic :: (put 4 (batchLengthCoveredFixed + b.recordData.length) ++
      (put 4 b.crc.toNat ++ (b.crcInput ++ rest))) := by
  simp only [encode, List.cons_append, List.nil_append, List.append_assoc]

theorem get_lengthWord (hlength : b.recordData.length < 2 ^ 32 - 48) :
    get (put 4 (batchLengthCoveredFixed + b.recordData.length)) =
      batchLengthCoveredFixed + b.recordData.length := by
  rw [get_put]
  refine Nat.mod_eq_of_lt ?_
  simp only [batchLengthCoveredFixed, batchHeaderSize]
  omega

theorem decode_encode_append (hmagic : b.magic = batchMagicByte) (hcrc : b.crc = b.calculateCrc c)
    (hbase : b.baseOffset < 2 ^ 64) (hlength : b.recordData.length < 2 ^ 32 - 48) (rest : Bytes) :
    decode c (b.encode ++ rest) = .ok (b, b.encode.length) := by
  have hword := get_lengthWord hlength
  have hbody : ¬ (put 4 b.crc.toNat ++ (b.crcInput ++ rest)).length <
      batchLengthCoveredFixed + b.recordData.length := by
    simp only [List.length_append, length_put, length_crcInput, batchLengthCoveredFixed,
      batchHeaderSize]
    omega
  have hparse : parse b.magic (put 4 b.crc.toNat ++ (b.crcInput ++ rest))
      (batchLengthCoveredFixed + b.recordData.length - batchLengthCoveredFixed) = b := by
    rw [Nat.add_sub_cancel_left]
    exact parse_crcInput hbase rest
  have hverify : b.verifyCrc c = .ok () := if_neg (not_not_intro hcrc.symm)
  rw [encode_append, decode_cons _ _ _ (length_put _ _), if_neg (not_not_intro hmagic), hword,
    if_neg (Nat.not_lt.mpr (Nat.le_add_right _ _)), if_neg hbody, hparse, hverify, length_encode]
  show Except.ok (b, 5 + (batchLengthCoveredFixed + b.recordData.length)) = _
  rw [encodedSize, batchLengthCoveredFixed, ← Nat.add_assoc]
  rfl

/-- A piece of an encoding is always too short, and never anything else. -/
theorem decode_of_piece (hmagic : b.magic = batchMagicByte)
    (hlength : b.recordData.length < 2 ^ 32 - 48) {piece : Bytes} (hpiece : piece <+: b.encode)
    (hne : piece ≠ b.encode) :
    ∃ required found, decode c piece = .error (.bufferTooShort required found) := by
  by_cases hshort : piece.length < 5
  · exact ⟨5, piece.length, decode_of_length_lt hshort⟩
  have hlt : piece.length < b.encode.length :=
    Nat.lt_of_le_of_ne hpiece.length_le fun heq => hne (hpiece.eq_of_length heq)
  rw [length_encode, encodedSize, batchHeaderSize] at hlt
  -- the piece has the whole length word
  obtain ⟨body, rfl⟩ : ∃ body, piece = b.magic ::
      (put 4 (batchLengthCoveredFixed + b.recordData.length) ++ body) := by
    have hhead : b.magic :: put 4 (batchLengthCoveredFixed + b.recordData.length) <+: piece := by
      refine List.prefix_of_prefix_length_le ?_ hpiece ?_
      · have henc := encode_append b []
        rw [List.append_nil] at henc
        rw [henc, ← List.cons_append]
        exact List.prefix_append _ _
      · rw [List.length_cons, length_put]
        omega
    obtain ⟨body, hbody⟩ := hhead
    exact ⟨body, by rw [← hbody, List.cons_append]⟩
  have hword := get_lengthWord hlength
  have hbody : body.length < batchLengthCoveredFixed + b.recordData.length := by
    simp only [List.length_cons, List.length_append, length_put] at hlt
    simp only [batchLengthCoveredFixed, batchHeaderSize]
    omega
  refine ⟨batchLengthCoveredFixed + b.recordData.length, body.length, ?_⟩
  rw [decode_cons _ _ _ (length_put _ _), if_neg (not_not_intro hmagic), hword,
    if_neg (Nat.not_lt.mpr (Nat.le_add_right _ _)), if_pos hbody]

/-! ## What decodes is an encoding -/

variable {n : Nat}

theorem toNat_ofNat_uint16 (h : n < 256 ^ 2) : (UInt16.ofNat n).toNat = n :=
  UInt16.toNat_ofNat_of_lt' h

theorem toNat_ofNat_uint32 (h : n < 256 ^ 4) : (UInt32.ofNat n).toNat = n :=
  UInt32.toNat_ofNat_of_lt' h

theorem toNat_ofNat_uint64 (h : n < 256 ^ 8) : (UInt64.ofNat n).toNat = n :=
  UInt64.toNat_ofNat_of_lt' h

theorem exists_put {w : Nat} {cur : Bytes} (h : w + n ≤ cur.length) :
    ∃ x rest, x < 256 ^ w ∧ cur = put w x ++ rest ∧ n ≤ rest.length := by
  refine ⟨(split w cur).1, (split w cur).2, split_fst_lt w cur, (put_split (by omega)).symm, ?_⟩
  rw [split, List.length_drop]
  omega

theorem take_put_append (w x k : Nat) (rest : Bytes) :
    (put w x ++ rest).take (w + k) = put w x ++ rest.take k := by
  rw [List.take_append, length_put, Nat.add_sub_cancel_left,
    List.take_of_length_le (by rw [length_put]; omega)]

/-- The fields that a header was read from are the ones it is written with. -/
theorem parse_spec (magic : UInt8) {body : Bytes} (h : batchLengthCoveredFixed + n ≤ body.length) :
    put 4 (parse magic body n).crc.toNat ++ (parse magic body n).crcInput =
        body.take (batchLengthCoveredFixed + n) ∧ (parse magic body n).recordData.length = n := by
  rw [batchLengthCoveredFixed, batchHeaderSize] at h
  obtain ⟨crc, body, hcrc, rfl, h₁⟩ := exists_put (show 4 + (44 + n) ≤ body.length by omega)
  obtain ⟨baseOffset, body, hbase, rfl, h₂⟩ := exists_put (show 8 + (36 + n) ≤ body.length by omega)
  obtain ⟨delta, body, hdelta, rfl, h₃⟩ := exists_put (show 4 + (32 + n) ≤ body.length by omega)
  obtain ⟨timestamp, body, htime, rfl, h₄⟩ := exists_put (show 8 + (24 + n) ≤ body.length by omega)
  obtain ⟨producer, body, hproducer, rfl, h₅⟩ :=
    exists_put (show 8 + (16 + n) ≤ body.length by omega)
  obtain ⟨epoch, body, hepoch, rfl, h₆⟩ := exists_put (show 2 + (14 + n) ≤ body.length by omega)
  obtain ⟨sequence, body, hseq, rfl, h₇⟩ := exists_put (show 4 + (10 + n) ≤ body.length by omega)
  obtain ⟨leader, body, hleader, rfl, h₈⟩ := exists_put (show 4 + (6 + n) ≤ body.length by omega)
  obtain ⟨attributes, body, hattr, rfl, h₉⟩ := exists_put (show 2 + (4 + n) ≤ body.length by omega)
  obtain ⟨count, body, hcount, rfl, hn⟩ := exists_put (show 4 + n ≤ body.length by omega)
  have htake : batchLengthCoveredFixed + n =
      4 + (8 + (4 + (8 + (8 + (2 + (4 + (4 + (2 + (4 + n))))))))) := by
    rw [batchLengthCoveredFixed, batchHeaderSize]
    omega
  simp only [htake, take_put_append, parse, crcInput, split_put, Nat.mod_eq_of_lt, hcrc, hbase,
    hdelta, htime, hproducer, hepoch, hseq, hleader, hattr, hcount, toNat_ofNat_uint16,
    toNat_ofNat_uint32, toNat_ofNat_uint64, UInt16.toUInt16_toInt16, UInt32.toUInt32_toInt32,
    List.length_take, Nat.min_eq_left hn, and_self]

theorem exists_header (magic : UInt8) {body : Bytes}
    (h : batchLengthCoveredFixed + n ≤ body.length) :
    ∃ b rest, parse magic body n = b ∧ b.magic = magic ∧ b.recordData.length = n ∧
      b.baseOffset < 2 ^ 64 ∧ body = put 4 b.crc.toNat ++ (b.crcInput ++ rest) := by
  obtain ⟨hfields, hdata⟩ := parse_spec magic h
  refine ⟨_, body.drop (batchLengthCoveredFixed + n), rfl, rfl, hdata, split_fst_lt 8 _, ?_⟩
  rw [← List.append_assoc, hfields, List.take_append_drop]

theorem encode_of_decode {src : Bytes} (h : decode c src = .ok (b, n)) :
    b.encode = src.take n ∧ n ≤ src.length ∧ b.Valid c := by
  by_cases hshort : src.length < 5
  · rw [decode_of_length_lt hshort] at h
    cases h
  obtain ⟨magic, rest, rfl⟩ := List.exists_cons_of_ne_nil (List.ne_nil_of_length_pos
    (show 0 < src.length by omega))
  rw [List.length_cons] at hshort
  obtain ⟨length, body, hlength, rfl, -⟩ := exists_put (show 4 + 0 ≤ rest.length by omega)
  rw [decode_cons _ _ _ (length_put _ _), get_put, Nat.mod_eq_of_lt hlength] at h
  split at h
  · cases h
  split at h
  · cases h
  split at h
  · cases h
  · next hmagic hmin hroom =>
    obtain ⟨hfields, hdata⟩ := parse_spec magic (show batchLengthCoveredFixed +
      (length - batchLengthCoveredFixed) ≤ body.length by omega)
    cases hverify : verifyCrc c (parse magic body (length - batchLengthCoveredFixed)) with
    | error =>
      rw [hverify] at h
      cases h
    | ok =>
      rw [hverify] at h
      cases h
      have hcovered : batchLengthCoveredFixed + (length - batchLengthCoveredFixed) = length := by
        omega
      rw [hcovered] at hfields
      refine ⟨?_, ?_, not_not.mp hmagic, ?_, split_fst_lt 8 _, ?_⟩
      · rw [encode, hdata, hcovered, hfields, show 5 + length = (4 + length) + 1 by omega,
          List.take_succ_cons, take_put_append]
        rfl
      · rw [List.length_cons, List.length_append, length_put]
        omega
      · unfold verifyCrc at hverify
        split at hverify
        · cases hverify
        · next hcrc => exact (not_not.mp hcrc).symm
      · rw [hdata, batchLengthCoveredFixed, batchHeaderSize]
        omega

/-- The frame is exact: a batch is read back from its bytes with anything behind them, a shorter
piece of the bytes is too short, and what decodes starts with the bytes of its batch. -/
theorem frame_exact (c : Crates) (b : RecordBatch) (hmagic : b.magic = batchMagicByte)
    (hcrc : b.crc = b.calculateCrc c) (hbase : b.baseOffset < 2 ^ 64)
    (hlength : b.recordData.length < 2 ^ 32 - 48) :
    (∀ rest, decode c (b.encode ++ rest) = .ok (b, b.encode.length)) ∧
      (∀ piece, piece <+: b.encode → piece ≠ b.encode →
        ∃ required found, decode c piece = .error (.bufferTooShort required found)) ∧
      ∀ src b' n, decode c src = .ok (b', n) → b'.encode = src.take n ∧ n ≤ src.length :=
  ⟨decode_encode_append hmagic hcrc hbase hlength,
    fun _ hpiece hne => decode_of_piece hmagic hlength hpiece hne,
    fun _ _ _ h => ⟨(encode_of_decode h).1, (encode_of_decode h).2.1⟩⟩

theorem decode_encode_keyed : decode .storing ((keyed 1 none).encode ++ [0]) =
    .ok (keyed 1 none, (keyed 1 none).encode.length) :=
  (frame_exact .storing (keyed 1 none) rfl rfl (by decide) (by decide)).1 [0]

end RecordBatch

end Bifrox.Protocol

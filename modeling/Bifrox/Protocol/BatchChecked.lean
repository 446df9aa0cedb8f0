/-
Batch decoding with every operation that can panic (`src/protocol/batch.rs`).

The decoder is written down once more with checked operations, and agrees with the plain one
wherever it does not panic.
-/
import Bifrox.Lib.Panic
import Bifrox.Protocol.BatchFrame

namespace Bifrox.Protocol

open List BigEndian Panic

/-! ## The decoder -/

def decodeOptBytesChecked (cursor : Bytes) : Checked BatchError (Option Bytes × Bytes) := do
  refuse (cursor.length < 4) .truncatedRecord
  let (word, cursor) ← getField 4 cursor
  let len := (UInt32.ofNat word).toInt32
  if len = -1 then return (none, cursor)
  refuse (len < -1) .truncatedRecord
  let len ← toUsize len
  refuse (cursor.length < len) .truncatedRecord
  let bytes ← slice len cursor
  let cursor ← advance len cursor
  return (some bytes, cursor)

def decodeEntriesChecked (baseOffset : Nat) (baseTimestamp : UInt64) :
    Nat → Bytes → Checked BatchError (List BatchRecord × Bytes)
  | 0, cursor => return ([], cursor)
  | n + 1, cursor => do
    refuse (cursor.length < 12) .truncatedRecord
    let (offsetDelta, cursor) ← getField 4 cursor
    let (timestampDelta, cursor) ← getField 8 cursor
    let (key, cursor) ← decodeOptBytesChecked cursor
    let (value, cursor) ← decodeOptBytesChecked cursor
    let offset ← addU64 baseOffset offsetDelta
    let timestamp ← addI64 baseTimestamp.toInt64 (UInt64.ofNat timestampDelta).toInt64
    let (records, cursor) ← decodeEntriesChecked baseOffset baseTimestamp n cursor
    return ({ offset, timestamp := timestamp.toUInt64, key, value } :: records, cursor)

def decodeRecordsChecked (recordCount : UInt32) (baseOffset : Nat) (baseTimestamp : UInt64)
    (data : Bytes) : Checked BatchError (List BatchRecord) := do
  let (records, cursor) ← decodeEntriesChecked baseOffset baseTimestamp recordCount.toNat data
  refuse (cursor ≠ []) (.trailingRecordData recordCount cursor.length)
  return records

namespace RecordBatch

def declaredSizeChecked (recordData : Bytes) : Checked BatchError Nat := do
  refuse (recordData.length < 4) .truncatedRecord
  assert ((recordData.take 4).length = 4)
  return lz4DeclaredSize recordData

variable (c : Crates)

def rawDataChecked (b : RecordBatch) : Checked BatchError Bytes := do
  refuse (b.recordData.length > maxDecompressedBatchBytes)
    (.io "batch exceeds decoded record or byte limit")
  match ← returns b.compression with
  | .none => return b.recordData
  | .lz4 =>
    let declared ← declaredSizeChecked b.recordData
    refuse (declared > maxDecompressedBatchBytes) (.io "decompressed batch limit exceeded")
    returns ((c.lz4DecompressSizePrepended b.recordData).mapError .io)
  | .zstd =>
    let limit ← addU64 maxDecompressedBatchBytes 1
    let raw ← returns ((c.zstdReadToEnd limit b.recordData).mapError .io)
    refuse (raw.length > maxDecompressedBatchBytes) (.io "decompressed batch limit exceeded")
    return raw

def recordsChecked (b : RecordBatch) : Checked BatchError (List BatchRecord) := do
  let raw ← b.rawDataChecked c
  refuse (b.recordCount.toNat > raw.length / recordEntryMinSize) .truncatedRecord
  refuse (b.recordCount > 100000) (.io "decoded record count exceeds limit")
  decodeRecordsChecked b.recordCount b.baseOffset b.baseTimestamp raw

def decodeChecked (src : Bytes) : Checked BatchError (RecordBatch × Nat) := do
  refuse (src.length < 5) (.bufferTooShort 5 src.length)
  let (magic, src) ← getField 1 src
  let magic := UInt8.ofNat magic
  refuse (magic ≠ batchMagicByte) (.invalidMagic batchMagicByte magic)
  let (batchLength, src) ← getField 4 src
  refuse (batchLength < batchLengthCoveredFixed)
    (.invalidBatchLength batchLength batchLengthCoveredFixed)
  refuse (src.length < batchLength) (.bufferTooShort batchLength src.length)
  let totalConsumed ← addU64 5 batchLength
  let (crc, src) ← getField 4 src
  let (baseOffset, src) ← getField 8 src
  let (lastOffsetDelta, src) ← getField 4 src
  let (baseTimestamp, src) ← getField 8 src
  let (producerId, src) ← getField 8 src
  let (producerEpoch, src) ← getField 2 src
  let (baseSequence, src) ← getField 4 src
  let (leaderEpoch, src) ← getField 4 src
  let (attributes, src) ← getField 2 src
  let (recordCount, src) ← getField 4 src
  let recordDataLength ← subU64 batchLength batchLengthCoveredFixed
  assert (recordDataLength ≤ src.length)
  let recordData ← slice recordDataLength src
  let batch : RecordBatch :=
    { magic, crc := UInt32.ofNat crc, baseOffset,
      lastOffsetDelta := UInt32.ofNat lastOffsetDelta,
      baseTimestamp := UInt64.ofNat baseTimestamp,
      producerId := UInt64.ofNat producerId,
      producerEpoch := (UInt16.ofNat producerEpoch).toInt16,
      baseSequence := (UInt32.ofNat baseSequence).toInt32,
      leaderEpoch := UInt32.ofNat leaderEpoch,
      attributes := UInt16.ofNat attributes,
      recordCount := UInt32.ofNat recordCount, recordData }
  returns (batch.verifyCrc c)
  return (batch, totalConsumed)

def decodeThenRecords (src : Bytes) : Checked BatchError (List BatchRecord) := do
  let (b, _) ← decodeChecked c src
  b.recordsChecked c

end RecordBatch

/-! ## Entries -/

theorem decodeOptBytesChecked_eq (cursor : Bytes) :
    decodeOptBytesChecked cursor = returns (decodeOptBytes cursor) := by
  rw [decodeOptBytesChecked, decodeOptBytes]
  by_cases hshort : cursor.length < 4
  · rw [if_pos hshort, refuse_pos hshort]
    rfl
  rw [if_neg hshort, refuse_neg hshort, getField_of_le (Nat.le_of_not_lt hshort)]
  simp only [pure_bind]
  generalize (UInt32.ofNat (split 4 cursor).1).toInt32 = len
  by_cases hnull : len = -1
  · rw [if_pos hnull, if_pos hnull]
    rfl
  rw [if_neg hnull, if_neg hnull]
  by_cases hneg : len < -1
  · rw [if_pos hneg, refuse_pos hneg]
    rfl
  have hpos : 0 ≤ len := by
    rw [Int32.le_iff_toInt_le]
    rw [Int32.lt_iff_toInt_lt] at hneg
    have hne : len.toInt ≠ (-1 : Int32).toInt := fun h => hnull (Int32.toInt_inj.mp h)
    rw [toInt_neg_one] at hne hneg
    show (0 : Int) ≤ _
    omega
  rw [if_neg hneg, refuse_neg hneg, toUsize_of_nonneg hpos]
  simp only [pure_bind]
  by_cases hroom : (split 4 cursor).2.length < len.toInt.toNat
  · rw [if_pos hroom, refuse_pos hroom]
    rfl
  have hle := Nat.le_of_not_lt hroom
  rw [if_neg hroom, refuse_neg hroom, slice_of_le hle, advance_of_le hle]
  rfl

def sumsFit (baseOffset : Nat) (baseTimestamp : UInt64) : Nat → Bytes → Bool
  | 0, _ => true
  | n + 1, cursor =>
    let (offsetDelta, cursor) := split 4 cursor
    let (timestampDelta, cursor) := split 8 cursor
    match decodeOptBytes cursor with
    | .error _ => true
    | .ok (_, cursor) =>
      match decodeOptBytes cursor with
      | .error _ => true
      | .ok (_, cursor) =>
        decide (baseOffset + offsetDelta < 2 ^ 64) &&
          (decide (FitsI64 baseTimestamp.toInt64 (UInt64.ofNat timestampDelta).toInt64) &&
            sumsFit baseOffset baseTimestamp n cursor)

/-- Entries panic exactly when there is a sum that does not fit. -/
theorem decodeEntriesChecked_eq (baseOffset : Nat) (baseTimestamp : UInt64) (n : Nat)
    (cursor : Bytes) :
    decodeEntriesChecked baseOffset baseTimestamp n cursor =
      if sumsFit baseOffset baseTimestamp n cursor then
        returns (decodeEntries baseOffset baseTimestamp n cursor)
      else panic := by
  induction n generalizing cursor with
  | zero => rfl
  | succ n ih =>
    rw [decodeEntriesChecked, decodeEntries, sumsFit]
    by_cases hshort : cursor.length < 12
    · have hnone : decodeOptBytes (split 8 (split 4 cursor).2).2 = .error .truncatedRecord := by
        have hlen : (split 8 (split 4 cursor).2).2.length < 4 := by
          simp only [split, length_drop]
          omega
        rw [decodeOptBytes, if_pos hlen]
      rw [if_pos hshort, refuse_pos hshort]
      simp only [hnone, if_true]
      rfl
    have hfirst : 4 ≤ cursor.length := by omega
    have hsecond : 8 ≤ (split 4 cursor).2.length := by
      simp only [split, length_drop]
      omega
    rw [if_neg hshort, refuse_neg hshort, getField_of_le hfirst]
    simp only [pure_bind, getField_of_le hsecond, decodeOptBytesChecked_eq]
    generalize decodeOptBytes (split 8 (split 4 cursor).2).2 = field
    cases field with
    | error => rfl
    | ok key =>
      show (returns (decodeOptBytes key.2) >>= _ : Checked BatchError _) = if _ then returns
        (decodeOptBytes key.2 >>= _) else _
      obtain ⟨field, hfield⟩ : ∃ field, decodeOptBytes key.2 = field := ⟨_, rfl⟩
      simp only [hfield]
      cases field with
      | error => rfl
      | ok value =>
        simp only [returns_ok_bind]
        by_cases hoffset : baseOffset + (split 4 cursor).1 < 2 ^ 64
        · by_cases htime : FitsI64 baseTimestamp.toInt64
            (UInt64.ofNat (split 8 (split 4 cursor).2).1).toInt64
          · rw [addU64_of_lt hoffset, addI64_of_fits htime]
            simp only [pure_bind, ih, hoffset, htime, decide_true, Bool.true_and,
              Int64.toUInt64_add, UInt64.toUInt64_toInt64]
            cases sumsFit baseOffset baseTimestamp n value.2 with
            | false => rfl
            | true => exact returns_bind (decodeEntries baseOffset baseTimestamp n value.2) _
          · rw [addU64_of_lt hoffset, addI64, if_neg htime]
            simp only [htime, decide_false, Bool.false_and, Bool.and_false]
            rfl
        · rw [addU64, if_neg hoffset]
          simp only [hoffset, decide_false, Bool.false_and]
          rfl

theorem decodeRecordsChecked_eq (recordCount : UInt32) (baseOffset : Nat) (baseTimestamp : UInt64)
    (data : Bytes) :
    decodeRecordsChecked recordCount baseOffset baseTimestamp data =
      if sumsFit baseOffset baseTimestamp recordCount.toNat data then
        returns (decodeRecords recordCount baseOffset baseTimestamp data)
      else panic := by
  rw [decodeRecordsChecked, decodeRecords, decodeEntriesChecked_eq]
  cases sumsFit baseOffset baseTimestamp recordCount.toNat data with
  | false => rfl
  | true =>
    cases decodeEntries baseOffset baseTimestamp recordCount.toNat data with
    | error => rfl
    | ok p =>
      show (refuse (p.2 ≠ []) _ >>= _ : Checked BatchError _) = returns (if _ then _ else _)
      by_cases hrest : p.2 ≠ []
      · rw [refuse_pos hrest, if_pos hrest]
        rfl
      · rw [refuse_neg hrest, if_neg hrest]
        rfl

/-! ## Batches -/

namespace RecordBatch

theorem declaredSizeChecked_eq (recordData : Bytes) : declaredSizeChecked recordData =
      returns (if recordData.length < 4 then .error .truncatedRecord
        else .ok (lz4DeclaredSize recordData)) := by
  rw [declaredSizeChecked]
  by_cases hshort : recordData.length < 4
  · rw [refuse_pos hshort, if_pos hshort]
    rfl
  · have htake : (recordData.take 4).length = 4 := by
      rw [length_take]
      omega
    rw [refuse_neg hshort, if_neg hshort, assert_pos htake]
    rfl

variable (c : Crates) (b : RecordBatch)

theorem rawDataChecked_eq : b.rawDataChecked c = returns (b.rawData c) := by
  rw [rawDataChecked, rawData]
  by_cases hsize : b.recordData.length > maxDecompressedBatchBytes
  · rw [refuse_pos hsize, if_pos hsize]
    rfl
  rw [refuse_neg hsize, if_neg hsize]
  cases b.compression with
  | error => rfl
  | ok codec =>
    cases codec with
    | none => rfl
    | lz4 =>
      show (declaredSizeChecked b.recordData >>= _ : Checked BatchError _) = returns (if _ then _
        else if _ then _ else _)
      rw [declaredSizeChecked_eq]
      by_cases hshort : b.recordData.length < 4
      · rw [if_pos hshort, if_pos hshort]
        rfl
      rw [if_neg hshort, if_neg hshort, returns_ok_bind]
      by_cases hlarge : lz4DeclaredSize b.recordData > maxDecompressedBatchBytes
      · rw [refuse_pos hlarge, if_pos hlarge]
        rfl
      rw [refuse_neg hlarge, if_neg hlarge]
      cases c.lz4DecompressSizePrepended b.recordData <;> rfl
    | zstd =>
      have hlimit : maxDecompressedBatchBytes + 1 < 2 ^ 64 := by decide
      simp only [pure_bind, returns_ok_bind, addU64_of_lt hlimit]
      cases c.zstdReadToEnd (maxDecompressedBatchBytes + 1) b.recordData with
      | error => rfl
      | ok raw =>
        show (refuse (raw.length > maxDecompressedBatchBytes) _ >>= _ : Checked BatchError _) =
          returns (if raw.length > maxDecompressedBatchBytes then _ else _)
        by_cases hlarge : raw.length > maxDecompressedBatchBytes
        · rw [refuse_pos hlarge, if_pos hlarge]
          rfl
        · rw [refuse_neg hlarge, if_neg hlarge]
          rfl

def fits : Bool :=
  match b.rawData c with
  | .error _ => true
  | .ok raw =>
    decide (b.recordCount.toNat > raw.length / recordEntryMinSize) ||
      (decide (b.recordCount > 100000) ||
        sumsFit b.baseOffset b.baseTimestamp b.recordCount.toNat raw)

theorem recordsChecked_eq :
    b.recordsChecked c = if b.fits c then returns (b.records c) else panic := by
  rw [recordsChecked, records, fits, rawDataChecked_eq]
  cases b.rawData c with
  | error => rfl
  | ok raw =>
    show (refuse (b.recordCount.toNat > raw.length / recordEntryMinSize) _ >>= _ :
      Checked BatchError _) = if _ then returns (if _ then _ else if _ then _ else _) else _
    by_cases hroom : b.recordCount.toNat > raw.length / recordEntryMinSize
    · rw [refuse_pos hroom]
      simp only [hroom, decide_true, Bool.true_or, if_true]
      rfl
    rw [refuse_neg hroom]
    simp only [hroom, decide_false, Bool.false_or, if_false, pure_bind]
    by_cases hmany : b.recordCount > 100000
    · rw [refuse_pos hmany]
      simp only [hmany, decide_true, Bool.true_or, if_true]
      rfl
    rw [refuse_neg hmany]
    simp only [hmany, decide_false, Bool.false_or, if_false, pure_bind]
    exact decodeRecordsChecked_eq b.recordCount b.baseOffset b.baseTimestamp raw

/-- No bytes make the decoder of the frame panic. -/
theorem decodeChecked_eq (src : Bytes) : decodeChecked c src = returns (decode c src) := by
  rw [decodeChecked]
  by_cases hshort : src.length < 5
  · rw [refuse_pos hshort, decode_of_length_lt hshort]
    rfl
  obtain ⟨magic, rest, rfl⟩ := exists_cons_of_ne_nil (ne_nil_of_length_pos
    (show 0 < src.length by omega))
  rw [length_cons] at hshort
  have hmagic : split 1 (magic :: rest) = (magic.toNat, rest) := by
    simp [split, BigEndian.get]
  have hone : 1 ≤ (magic :: rest).length := Nat.le_add_left _ _
  have hfour : 4 ≤ rest.length := by omega
  obtain ⟨length, body, hlength, rfl, -⟩ := exists_put (show 4 + 0 ≤ rest.length by omega)
  rw [refuse_neg (by rw [length_cons]; omega), decode_cons _ _ _ (length_put _ _), get_put,
    Nat.mod_eq_of_lt hlength, getField_of_le hone, hmagic]
  simp only [pure_bind, UInt8.ofNat_toNat]
  by_cases hwrong : magic ≠ batchMagicByte
  · rw [if_pos hwrong, refuse_pos hwrong]
    rfl
  rw [if_neg hwrong, refuse_neg hwrong, getField_of_le hfour, split_put, Nat.mod_eq_of_lt hlength]
  simp only [pure_bind]
  by_cases hmin : length < batchLengthCoveredFixed
  · rw [if_pos hmin, refuse_pos hmin]
    rfl
  rw [if_neg hmin, refuse_neg hmin]
  simp only [pure_bind]
  by_cases hroom : body.length < length
  · rw [if_pos hroom, refuse_pos hroom]
    rfl
  rw [if_neg hroom, refuse_neg hroom, addU64_of_lt (by omega)]
  obtain ⟨b, rest, hparse, rfl, hdata, hbase, rfl⟩ := exists_header magic
    (show batchLengthCoveredFixed + (length - batchLengthCoveredFixed) ≤ body.length by omega)
  have hmod : b.baseOffset % 256 ^ 8 = b.baseOffset := Nat.mod_eq_of_lt (by omega)
  have hslice : length - batchLengthCoveredFixed ≤ (b.recordData ++ rest).length := by
    rw [length_append]
    omega
  have htake : (b.recordData ++ rest).take (length - batchLengthCoveredFixed) = b.recordData := by
    rw [← hdata, take_left]
  rw [hparse]
  simp only [pure_bind, crcInput, append_assoc, getField_put,
    subU64_of_le (Nat.le_of_not_lt hmin), assert_pos hslice, slice_of_le hslice, htake, hmod,
    ofNat_toNat_mod_uint16, ofNat_toNat_mod_uint32, ofNat_toNat_mod_uint64,
    Int16.toInt16_toUInt16, Int32.toInt32_toUInt32]
  cases b.verifyCrc c <;> rfl

theorem decodeThenRecords_eq (src : Bytes) : decodeThenRecords c src =
      (returns (decode c src) >>= fun p => if p.1.fits c then returns (p.1.records c) else panic :
        Checked BatchError (List BatchRecord)) := by
  rw [decodeThenRecords, decodeChecked_eq]
  simp only [recordsChecked_eq]

/-- A decode and the records after it do not panic exactly if all the sums that they need fit. -/
theorem decodeThenRecords_iff_fits (src : Bytes) :
    decodeThenRecords c src = returns (decode c src >>= fun p => p.1.records c) ↔
      ∀ b n, decode c src = .ok (b, n) → b.fits c = true := by
  rw [decodeThenRecords_eq]
  cases decode c src with
  | error => exact iff_of_true rfl nofun
  | ok p =>
    rw [returns_ok_bind]
    constructor
    · rintro hreturns b n hp
      cases hp
      by_contra hpanics
      rw [if_neg hpanics] at hreturns
      cases hreturns
    · intro h
      rw [if_pos (h p.1 p.2 rfl)]
      rfl

theorem decodeThenRecords_keyed : decodeThenRecords .storing (keyed 1 none).encode =
    returns (decode .storing (keyed 1 none).encode >>= fun p => p.1.records .storing) := by
  refine (decodeThenRecords_iff_fits .storing _).mpr fun b n h => ?_
  have hdecode := decode_encode_append (c := .storing) (b := keyed 1 none) rfl rfl (by decide)
    (by decide) []
  rw [append_nil, h] at hdecode
  cases hdecode
  decide

/-- A record whose offset is one more than the largest number. -/
def overflowing : RecordBatch :=
  withCrc c
    { magic := batchMagicByte, crc := 0, baseOffset := 2 ^ 64 - 1, lastOffsetDelta := 1,
      baseTimestamp := 0, producerId := 0, producerEpoch := 0, baseSequence := 0, leaderEpoch := 0,
      attributes := 0, recordCount := 1, recordData := encodeRecord 1 0 0 none none }

theorem exists_decodeThenRecords_eq_panic :
    ¬ ∃ c : Crates, ∀ src, decodeThenRecords c src ≠ panic := by
  rintro ⟨c, hnever⟩
  have hdecode := decode_encode_append (c := c) (b := overflowing c) rfl rfl
    (show 2 ^ 64 - 1 < 2 ^ 64 by decide)
    (show (encodeRecord 1 0 0 none none).length < 2 ^ 32 - 48 by decide) []
  rw [append_nil] at hdecode
  have hraw : (overflowing c).rawData c = .ok (encodeRecord 1 0 0 none none) := by
    have hsmall : ¬ (overflowing c).recordData.length > maxDecompressedBatchBytes :=
      show ¬ (encodeRecord 1 0 0 none none).length > maxDecompressedBatchBytes by decide
    have hcodec : (overflowing c).compression = .ok .none :=
      show BatchCompression.fromBits (0 &&& attrCompressionMask) = .ok .none by decide
    rw [rawData, if_neg hsmall, hcodec]
    rfl
  have hsums : sumsFit (2 ^ 64 - 1) 0 1 (encodeRecord 1 0 0 none none) = false := by decide
  have hfits : (overflowing c).fits c = false := by
    rw [fits, hraw]
    show (decide (1 > (encodeRecord 1 0 0 none none).length / recordEntryMinSize) ||
      (decide ((1 : UInt32) > 100000) ||
        sumsFit (2 ^ 64 - 1) 0 1 (encodeRecord 1 0 0 none none))) = false
    rw [hsums]
    decide
  refine hnever (overflowing c).encode ?_
  rw [decodeThenRecords_eq, hdecode, returns_ok_bind,
    if_neg (by rw [hfits]; exact Bool.false_ne_true)]

end RecordBatch

end Bifrox.Protocol

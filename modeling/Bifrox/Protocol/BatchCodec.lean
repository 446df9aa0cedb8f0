/-
Round trips of the batch format.

The entries written for a list of records decode to those records, and bytes that decode are the
entries of what they decode to.
-/
import Bifrox.Lib.Fallible
import Bifrox.Protocol.Batch

namespace Bifrox.Protocol

open List BigEndian Except RecordBatch

/-- Decompression undoes compression: the compressors round trip below 4 GiB, `lz4_flex` prepends
the uncompressed size, and a limited `zstd` read returns the first bytes of the whole output. -/
structure Crates.Inverts (c : Crates) : Prop where
  lz4_roundTrip : ∀ raw : Bytes, raw.length < 2 ^ 32 →
    c.lz4DecompressSizePrepended (c.lz4CompressPrependSize raw) = .ok raw
  lz4_header : ∀ raw : Bytes, 4 ≤ (c.lz4CompressPrependSize raw).length
  lz4_declares : ∀ raw : Bytes, raw.length < 2 ^ 32 →
    lz4DeclaredSize (c.lz4CompressPrependSize raw) = raw.length
  zstd_roundTrip : ∀ (n : Nat) (raw : Bytes), c.zstdReadToEnd n (c.zstdEncodeAll raw) =
    .ok (raw.take n)

/-- All that the compressors document: `lz4_flex` also never inflates beyond the size. -/
structure Crates.Lawful (c : Crates) : Prop extends c.Inverts where
  lz4_bounded : ∀ bs raw : Bytes, c.lz4DecompressSizePrepended bs = .ok raw →
    raw.length ≤ lz4DeclaredSize bs

/-- Compressors that store their input, the simplest lawful ones. -/
def Crates.storing : Crates where
  crc32 := fun _ => 0
  lz4CompressPrependSize := fun raw => (put 4 raw.length).reverse ++ raw
  lz4DecompressSizePrepended := fun bs => .ok ((bs.drop 4).take (lz4DeclaredSize bs))
  zstdEncodeAll := id
  zstdReadToEnd := fun n bs => .ok (bs.take n)

theorem Crates.storing_lawful : Crates.storing.Lawful := by
  have hdecl : ∀ raw : Bytes, raw.length < 2 ^ 32 →
      lz4DeclaredSize ((put 4 raw.length).reverse ++ raw) = raw.length := by
    intro raw hraw
    rw [lz4DeclaredSize, take_left' (by simp), reverse_reverse, get_put]
    exact Nat.mod_eq_of_lt hraw
  refine ⟨⟨fun raw hraw => ?_, fun raw => ?_, hdecl, fun n raw => rfl⟩, fun bs raw h => ?_⟩
  · have hcomp : storing.lz4CompressPrependSize raw = (put 4 raw.length).reverse ++ raw := rfl
    show ok _ = ok raw
    rw [hcomp, hdecl raw hraw, drop_left' (by simp), take_length]
  · show 4 ≤ ((put 4 raw.length).reverse ++ raw).length
    simp
  · cases h
    rw [length_take]
    exact Nat.min_le_left _ _

/-- The bounds under which a record can be written at a base offset and read
back. -/
structure BatchRecord.EncodesAt (base : Nat) (r : BatchRecord) : Prop where
  base_le : base ≤ r.offset
  delta_lt : r.offset - base < 2 ^ 32
  key_lt : ∀ k, r.key = some k → k.length < 2 ^ 31
  value_lt : ∀ v, r.value = some v → v.length < 2 ^ 31

/-! ## Optional byte strings -/

theorem toInt_toInt32_ofNat (n : Nat) : (UInt32.ofNat n).toInt32.toInt = (n : Int).bmod (2 ^ 32) :=
  Int32.toInt_ofNat'

theorem toInt_neg_one : (-1 : Int32).toInt = -1 := by decide

theorem decodeOptBytes_encode {x : Option Bytes} (hx : ∀ b, x = some b → b.length < 2 ^ 31)
    {rest : Bytes} : decodeOptBytes (encodeOptBytes x ++ rest) = .ok (x, rest) := by
  cases x with
  | none =>
    have hlen : ¬ (encodeOptBytes none ++ rest).length < 4 := by simp [encodeOptBytes]
    have hneg : (UInt32.ofNat ((2 ^ 32 - 1) % 256 ^ 4)).toInt32 = -1 := by decide
    rw [decodeOptBytes, if_neg hlen, encodeOptBytes, split_put]
    simp only [hneg, if_true]
  | some b =>
    have hb : b.length < 2 ^ 31 := hx b rfl
    have hlen : ¬ (encodeOptBytes (some b) ++ rest).length < 4 := by simp [encodeOptBytes]
    have hmod : b.length % 256 ^ 4 = b.length := Nat.mod_eq_of_lt (by omega)
    have hval : (UInt32.ofNat b.length).toInt32.toInt = b.length := by
      rw [toInt_toInt32_ofNat, Int.bmod_def]
      omega
    have hne : (UInt32.ofNat b.length).toInt32 ≠ -1 := by
      intro he
      rw [he, toInt_neg_one] at hval
      omega
    have hge : ¬ (UInt32.ofNat b.length).toInt32 < -1 := by
      rw [Int32.lt_iff_toInt_lt, hval, toInt_neg_one]
      omega
    rw [decodeOptBytes, if_neg hlen, encodeOptBytes, append_assoc, split_put, hmod]
    simp only [if_neg hne, if_neg hge, hval, Int.toNat_natCast]
    rw [if_neg (by simp), take_left, drop_left]

variable {cursor rest : Bytes}

theorem eq_encode_of_decodeOptBytes {x : Option Bytes} (h : decodeOptBytes cursor = .ok (x, rest)) :
    cursor = encodeOptBytes x ++ rest ∧ ∀ b, x = some b → b.length < 2 ^ 31 := by
  obtain ⟨hlen, h⟩ := ite_error_eq_ok_iff.mp h
  have hput := put_split (Nat.le_of_not_lt hlen)
  have hword : (split 4 cursor).1 < 2 ^ 32 := split_fst_lt 4 cursor
  generalize split 4 cursor = p at h hput hword
  obtain ⟨word, tail⟩ := p
  have hnat := toInt_toInt32_ofNat word
  rw [Int.bmod_def] at hnat
  simp only at h hput hword
  split at h
  · next hneg =>
    cases h
    rw [hneg, toInt_neg_one] at hnat
    have hw : word = 2 ^ 32 - 1 := by omega
    refine ⟨?_, fun b hb => by cases hb⟩
    rw [← hput, hw, encodeOptBytes]
  · next hne =>
    simp only [ite_error_eq_ok_iff] at h
    obtain ⟨hge, hfit, h⟩ := h
    have hpos : -1 ≤ (UInt32.ofNat word).toInt32.toInt := by
      rw [Int32.lt_iff_toInt_lt, toInt_neg_one] at hge
      omega
    have hne' : (UInt32.ofNat word).toInt32.toInt ≠ -1 := by
      intro he
      exact hne (Int32.toInt_inj.mp (he.trans toInt_neg_one.symm))
    have hw : (UInt32.ofNat word).toInt32.toInt.toNat = word ∧ word < 2 ^ 31 := by omega
    rw [hw.1] at h hfit
    cases h
    have hl : (tail.take word).length = word := by
      rw [length_take]
      omega
    refine ⟨?_, fun b hb => ?_⟩
    · rw [← hput, encodeOptBytes, hl, append_assoc, take_append_drop]
    · cases hb
      omega

/-! ## Record entries -/

theorem length_encodeOptBytes (x : Option Bytes) : 4 ≤ (encodeOptBytes x).length := by
  cases x <;> simp [encodeOptBytes]

theorem length_encodeRecord (delta : Nat) (baseTimestamp timestamp : UInt64)
    (key value : Option Bytes) :
    recordEntryMinSize ≤ (encodeRecord delta baseTimestamp timestamp key value).length := by
  have hk := length_encodeOptBytes key
  have hv := length_encodeOptBytes value
  simp only [encodeRecord, length_append, length_put, recordEntryMinSize]
  omega

theorem timestamp_roundTrip (base timestamp : UInt64) :
    base + UInt64.ofNat ((timestamp - base).toNat % 256 ^ 8) = timestamp := by
  have hlt : (timestamp - base).toNat < 2 ^ 64 := (timestamp - base).toNat_lt
  have hmod : (timestamp - base).toNat % 256 ^ 8 = (timestamp - base).toNat :=
    Nat.mod_eq_of_lt (by omega)
  rw [hmod, UInt64.ofNat_toNat, UInt64.add_comm, UInt64.sub_add_cancel]

variable {rs : List BatchRecord}

theorem encodeAt_cons_append (base : Nat) (baseTimestamp : UInt64) (r : BatchRecord)
    (rest : Bytes) : encodeAt base baseTimestamp (r :: rs) ++ rest =
      encodeRecord (r.offset - base) baseTimestamp r.timestamp r.key r.value ++
        (encodeAt base baseTimestamp rs ++ rest) :=
  append_assoc ..

theorem BatchRecord.EncodesAt.offset_eq {base : Nat} {r : BatchRecord} (h : r.EncodesAt base) :
    base + (r.offset - base) % 256 ^ 4 = r.offset := by
  have hlt := h.delta_lt
  have hle := h.base_le
  omega

theorem decodeEntries_encodeAt (base : Nat) (baseTimestamp : UInt64)
    (h : ∀ r ∈ rs, r.EncodesAt base) (rest : Bytes) :
    decodeEntries base baseTimestamp rs.length
      (encodeAt base baseTimestamp rs ++ rest) = .ok (rs, rest) := by
  induction rs with
  | nil => rfl
  | cons r rs ih =>
    have hr : r.EncodesAt base := h r (mem_cons_self ..)
    have hlen : ¬ (encodeRecord (r.offset - base) baseTimestamp r.timestamp r.key r.value ++
        (encodeAt base baseTimestamp rs ++ rest)).length < 12 := by
      have hmin := length_encodeRecord (r.offset - base) baseTimestamp r.timestamp r.key r.value
      rw [recordEntryMinSize] at hmin
      rw [length_append]
      omega
    rw [encodeAt_cons_append, length_cons, decodeEntries, if_neg hlen, encodeRecord]
    simp only [append_assoc, split_put, decodeOptBytes_encode hr.key_lt,
      decodeOptBytes_encode hr.value_lt, bind, Except.bind,
      ih (fun r' hr' => h r' (mem_cons_of_mem _ hr')), hr.offset_eq, timestamp_roundTrip]

theorem decodeEntries_succ {base n : Nat} {baseTimestamp : UInt64}
    (h : decodeEntries base baseTimestamp (n + 1) cursor = .ok (rs, rest)) :
    ∃ r rs' tail, rs = r :: rs' ∧ r.EncodesAt base ∧
      cursor = encodeRecord (r.offset - base) baseTimestamp r.timestamp r.key r.value ++ tail ∧
      decodeEntries base baseTimestamp n tail = .ok (rs', rest) := by
  simp only [decodeEntries, bind_eq_ok_iff, ite_error_eq_ok_iff, Prod.exists] at h
  obtain ⟨hlen, key, curKey, hkey, value, curValue, hvalue, rs', tail, hrest, h⟩ := h
  obtain ⟨hkey, hkeyLt⟩ := eq_encode_of_decodeOptBytes hkey
  obtain ⟨hvalue, hvalueLt⟩ := eq_encode_of_decodeOptBytes hvalue
  have hput4 := put_split (show 4 ≤ cursor.length by omega)
  have hlt4 := split_fst_lt 4 cursor
  have hlen4 : (split 4 cursor).2.length = cursor.length - 4 := length_drop
  generalize split 4 cursor = p at h hkey hput4 hlt4 hlen4
  have hput8 := put_split (show 8 ≤ p.2.length by omega)
  have hlt8 := split_fst_lt 8 p.2
  generalize split 8 p.2 = q at h hkey hput8 hlt8
  cases h
  refine ⟨_, rs', curValue, rfl, ⟨Nat.le_add_right .., ?_, hkeyLt, hvalueLt⟩, ?_, hrest⟩
  · show base + p.1 - base < 2 ^ 32
    omega
  · have hts : (baseTimestamp + UInt64.ofNat q.1 - baseTimestamp).toNat = q.1 := by
      rw [UInt64.add_comm, UInt64.add_sub_cancel, UInt64.toNat_ofNat']
      exact Nat.mod_eq_of_lt (by omega)
    rw [← hput4, ← hput8, hkey, hvalue, encodeRecord, Nat.add_sub_cancel_left, hts]
    simp only [append_assoc]

theorem decodeEntries_rebase (base base' : Nat) (baseTimestamp : UInt64) (n : Nat)
    (cursor : Bytes) : decodeEntries base' baseTimestamp n cursor =
      (decodeEntries base baseTimestamp n cursor).map (fun (rs, rest) =>
        (rs.map (fun r => { r with offset := base' + (r.offset - base) }), rest)) := by
  induction n generalizing cursor with
  | zero => rfl
  | succ n ih =>
    rw [decodeEntries, decodeEntries]
    split
    · rfl
    · simp only [bind, Except.bind]
      cases decodeOptBytes (split 8 (split 4 cursor).2).2 with
      | error => rfl
      | ok key =>
        simp only
        cases decodeOptBytes key.2 with
        | error => rfl
        | ok value =>
          simp only [ih value.2]
          cases decodeEntries base baseTimestamp n value.2 with
          | error => rfl
          | ok => simp only [Except.map, map_cons, Nat.add_sub_cancel_left]

theorem eq_encodeAt_of_decodeEntries {base n : Nat} {baseTimestamp : UInt64}
    (h : decodeEntries base baseTimestamp n cursor = .ok (rs, rest)) :
    rs.length = n ∧ (∀ r ∈ rs, r.EncodesAt base) ∧
      cursor = encodeAt base baseTimestamp rs ++ rest := by
  induction n generalizing cursor rs with
  | zero =>
    cases h
    exact ⟨rfl, fun r hr => (not_mem_nil hr).elim, rfl⟩
  | succ n ih =>
    obtain ⟨r, rs', tail, rfl, hr, rfl, hrest⟩ := decodeEntries_succ h
    obtain ⟨hlen, hall, rfl⟩ := ih hrest
    refine ⟨by rw [length_cons, hlen], ?_, ?_⟩
    · intro r' hr'
      rcases mem_cons.mp hr' with rfl | hmem
      · exact hr
      · exact hall r' hmem
    · exact (encodeAt_cons_append base baseTimestamp r rest).symm

/-! ## Whole batches -/

namespace RecordBatch

theorem length_encodeAt_ge (base : Nat) (baseTimestamp : UInt64) (rs : List BatchRecord) :
    recordEntryMinSize * rs.length ≤ (encodeAt base baseTimestamp rs).length := by
  induction rs with
  | nil => simp
  | cons r rs ih =>
    have hmin := length_encodeRecord (r.offset - base) baseTimestamp r.timestamp r.key r.value
    simp only [encodeAt, flatMap_cons, length_append, length_cons] at ih ⊢
    rw [Nat.mul_add]
    omega

variable {base : Nat} {rs : List BatchRecord}

theorem length_encodeAt_le_of_sublist {baseTimestamp : UInt64} {kept : List BatchRecord}
    (h : kept.Sublist rs) :
    (encodeAt base baseTimestamp kept).length ≤ (encodeAt base baseTimestamp rs).length := by
  induction h with
  | slnil => exact le_refl _
  | cons r _ ih =>
    simp only [encodeAt, flatMap_cons, length_append] at ih ⊢
    omega
  | cons_cons r _ ih =>
    simp only [encodeAt, flatMap_cons, length_append] at ih ⊢
    omega

theorem attributesFor_compression {transactional : Bool} {codec : BatchCompression} :
    BatchCompression.fromBits (attributesFor transactional codec &&& attrCompressionMask) =
      .ok codec := by
  cases transactional <;> cases codec <;> decide

theorem attributesFor_control {transactional : Bool} {codec : BatchCompression} :
    attributesFor transactional codec &&& attrControlFlag = 0 := by
  cases transactional <;> cases codec <;> decide

theorem isControl_setControl (c : Crates) (b : RecordBatch) :
    (b.setControl c).isControl = true := by
  have hflag : (b.attributes ||| attrControlFlag) &&& attrControlFlag = attrControlFlag := by
    apply UInt16.toBitVec_inj.mp
    rw [UInt16.toBitVec_and, UInt16.toBitVec_or]
    ext i hi
    simp +contextual
  show decide ((b.attributes ||| attrControlFlag) &&& attrControlFlag ≠ 0) = true
  rw [hflag]
  rfl

theorem encodable_eq_self (h : ∀ r ∈ rs, r.EncodesAt base) : encodable base rs = rs := by
  rw [encodable, filter_eq_self]
  intro r hr
  exact decide_eq_true (h r hr).base_le

variable {c : Crates} {b : RecordBatch}

theorem rawData_of_compress (hc : c.Inverts) {raw : Bytes} {codec : BatchCompression}
    (hcodec : b.compression = .ok codec) (hdata : b.recordData = compress c raw codec)
    (hraw : raw.length ≤ maxDecompressedBatchBytes)
    (hfit : (compress c raw codec).length ≤ maxDecompressedBatchBytes) : b.rawData c = .ok raw := by
  have hsmall : raw.length < 2 ^ 32 := lt_of_le_of_lt hraw (by decide)
  rw [rawData, hdata, if_neg (Nat.not_lt.mpr hfit), hcodec]
  cases codec with
  | none => rfl
  | lz4 =>
    have hheader : ¬ (compress c raw .lz4).length < 4 := Nat.not_lt.mpr (hc.lz4_header raw)
    have hdecl : lz4DeclaredSize (compress c raw .lz4) = raw.length := hc.lz4_declares raw hsmall
    have hback : c.lz4DecompressSizePrepended (compress c raw .lz4) = .ok raw :=
      hc.lz4_roundTrip raw hsmall
    simp only [bind, Except.bind, if_neg hheader, hdecl, if_neg (Nat.not_lt.mpr hraw), hback]
  | zstd =>
    have hback : c.zstdReadToEnd (maxDecompressedBatchBytes + 1) (compress c raw .zstd) =
        .ok raw := by
      rw [compress, hc.zstd_roundTrip, take_of_length_le (by omega)]
    simp only [bind, Except.bind, hback, if_neg (Nat.not_lt.mpr hraw)]

theorem length_rawData (hc : c.Lawful) {raw : Bytes} (h : b.rawData c = .ok raw) :
    raw.length ≤ maxDecompressedBatchBytes := by
  rw [rawData, Except.ite_error_eq_ok_iff, Except.bind_eq_ok_iff] at h
  obtain ⟨hlen, codec, -, h⟩ := h
  cases codec with
  | none =>
    cases h
    omega
  | lz4 =>
    simp only [Except.ite_error_eq_ok_iff] at h
    obtain ⟨-, hdecl, h⟩ := h
    split at h
    · cases h
    · next hok =>
      cases h
      exact le_trans (hc.lz4_bounded _ _ hok) (Nat.le_of_not_lt hdecl)
  | zstd =>
    dsimp only at h
    split at h
    · cases h
    · obtain ⟨hsize, h⟩ := ite_error_eq_ok_iff.mp h
      cases h
      omega

/-- A batch stamped with another base offset has the same records, shifted. -/
theorem records_assign {leaderEpoch : UInt32} :
    (b.assignBaseOffsetAndLeaderEpoch c base leaderEpoch).records c =
      (b.records c).map
        (List.map (fun r => { r with offset := base + (r.offset - b.baseOffset) })) := by
  have hraw : (b.assignBaseOffsetAndLeaderEpoch c base leaderEpoch).rawData c = b.rawData c := rfl
  have hcount : (b.assignBaseOffsetAndLeaderEpoch c base leaderEpoch).recordCount = b.recordCount :=
    rfl
  rw [records, records, hraw, hcount]
  cases b.rawData c with
  | error => rfl
  | ok raw =>
    simp only [bind, Except.bind]
    by_cases hfit : b.recordCount.toNat > raw.length / recordEntryMinSize
    · rw [if_pos hfit, if_pos hfit]
      rfl
    · rw [if_neg hfit, if_neg hfit]
      by_cases hmany : b.recordCount > 100000
      · rw [if_pos hmany, if_pos hmany]
        rfl
      · rw [if_neg hmany, if_neg hmany]
        show decodeRecords b.recordCount base b.baseTimestamp raw = _
        rw [decodeRecords, decodeRecords, decodeEntries_rebase b.baseOffset base]
        cases decodeEntries b.baseOffset b.baseTimestamp b.recordCount.toNat raw with
        | error => rfl
        | ok =>
          simp only [Except.map, bind, Except.bind]
          split <;> rfl

theorem records_spec (h : b.records c = .ok rs) :
    rs.length = b.recordCount.toNat ∧ rs.length ≤ 100000 ∧ (∀ r ∈ rs, r.EncodesAt b.baseOffset) ∧
      b.rawData c = .ok (encodeAt b.baseOffset b.baseTimestamp rs) := by
  simp only [records, decodeRecords, bind_eq_ok_iff, ite_error_eq_ok_iff, Prod.exists] at h
  obtain ⟨raw, hraw, -, hcount, rs', cursor, hentries, hnil, h⟩ := h
  obtain ⟨hlen, hall, rfl⟩ := eq_encodeAt_of_decodeEntries hentries
  have hcur : cursor = [] := by simpa using hnil
  cases h
  have hle : b.recordCount.toNat ≤ 100000 := UInt32.le_iff_toNat_le.mp (UInt32.not_lt.mp hcount)
  refine ⟨hlen, by omega, hall, ?_⟩
  rw [hraw, hcur, append_nil]

theorem encodesAt_of_sublist {kept : List BatchRecord} (h : b.records c = .ok rs)
    (hsub : kept.Sublist rs) : ∀ r ∈ kept, r.EncodesAt b.baseOffset :=
  fun r hr => (records_spec h).2.2.1 r (hsub.subset hr)

theorem toNat_ofNat_length (h : rs.length ≤ 100000) : (UInt32.ofNat rs.length).toNat = rs.length :=
  UInt32.toNat_ofNat_of_lt' (by unfold UInt32.size; omega)

/-- The two checks that `records` makes on the number of records. -/
theorem length_checks (base : Nat) (baseTimestamp : UInt64) (h : rs.length ≤ 100000) :
    ¬ rs.length > (encodeAt base baseTimestamp rs).length / recordEntryMinSize ∧
      ¬ UInt32.ofNat rs.length > 100000 := by
  rw [gt_iff_lt, gt_iff_lt, UInt32.not_lt, UInt32.le_iff_toNat_le, toNat_ofNat_length h, Nat.not_lt,
    Nat.le_div_iff_mul_le (by decide), Nat.mul_comm]
  exact ⟨length_encodeAt_ge base baseTimestamp rs, h⟩

section CreateWithOffsets

variable {c : Crates} {base : Nat} {baseTimestamp producerId : UInt64} {leaderEpoch : UInt32}
  {producerEpoch : Int16} {baseSequence : Int32} {transactional : Bool}
  {codec : BatchCompression} {rs : List BatchRecord}

theorem records_of_compress (hc : c.Inverts) {b : RecordBatch} (hbase : b.baseOffset = base)
    (htime : b.baseTimestamp = baseTimestamp) (hcodec : b.compression = .ok codec)
    (hdata : b.recordData = compress c (encodeAt base baseTimestamp rs) codec)
    (hn : b.recordCount = UInt32.ofNat rs.length) (hrs : ∀ r ∈ rs, r.EncodesAt base)
    (hcount : rs.length ≤ 100000)
    (hraw : (encodeAt base baseTimestamp rs).length ≤ maxDecompressedBatchBytes)
    (hfit : (compress c (encodeAt base baseTimestamp rs) codec).length ≤
      maxDecompressedBatchBytes) : b.records c = .ok rs := by
  have hnat := toNat_ofNat_length hcount
  obtain ⟨hroom, hlimit⟩ := length_checks base baseTimestamp hcount
  rw [records, rawData_of_compress hc hcodec hdata hraw hfit]
  simp only [bind, Except.bind, hn, hnat, hbase, htime, if_neg hroom, if_neg hlimit]
  have hentries := decodeEntries_encodeAt base baseTimestamp hrs []
  rw [append_nil] at hentries
  rw [decodeRecords, hnat, hentries]
  rfl

theorem records_createWithOffsets_of_sublist (hc : c.Lawful) {b : RecordBatch}
    {kept : List BatchRecord} (hb : b.records c = .ok rs) (hsub : kept.Sublist rs)
    (hfit : (compress c (encodeAt b.baseOffset b.baseTimestamp kept) codec).length ≤
      maxDecompressedBatchBytes) :
    (createWithOffsets c b.baseOffset b.baseTimestamp leaderEpoch producerId producerEpoch
      baseSequence transactional codec kept).records c = .ok kept := by
  obtain ⟨-, hcount, -, hraw⟩ := records_spec hb
  have hkept := encodesAt_of_sublist hb hsub
  refine records_of_compress hc.toInverts rfl rfl attributesFor_compression
    ?_ ?_ hkept (le_trans hsub.length_le hcount)
    (le_trans (length_encodeAt_le_of_sublist hsub) (length_rawData hc hraw)) hfit
  · show compress c (encodeAt _ _ (encodable b.baseOffset kept)) codec = _
    rw [encodable_eq_self hkept]
    rfl
  · show UInt32.ofNat (encodable b.baseOffset kept).length = _
    rw [encodable_eq_self hkept]

end CreateWithOffsets

/-! ## Well-formed batches -/

theorem toNat_max (a b : UInt32) : (max a b).toNat = max a.toNat b.toNat := by
  by_cases h : a ≤ b
  · have he : max a b = b := if_pos h
    rw [he, Nat.max_eq_right (UInt32.le_iff_toNat_le.mp h)]
  · have he : max a b = a := if_neg h
    have hlt := UInt32.le_iff_toNat_le.not.mp h
    rw [he, Nat.max_eq_left (by omega)]

theorem maxDelta_concat (rs : List BatchRecord) (r : BatchRecord) :
    maxDelta base (rs ++ [r]) = max (maxDelta base rs) (UInt32.ofNat (r.offset - base)) := by
  rw [maxDelta, foldl_append, foldl_cons, foldl_nil, maxDelta]

theorem maxDelta_le_iff {x : Nat} (h : ∀ r ∈ rs, r.EncodesAt base) :
    (maxDelta base rs).toNat ≤ x ↔ ∀ r ∈ rs, r.offset - base ≤ x := by
  induction rs using List.reverseRecOn with
  | nil => exact iff_of_true (Nat.zero_le x) nofun
  | append_singleton rs r ih =>
    obtain ⟨hrs, hr⟩ := forall_mem_append.mp h
    have hlt := (hr r (mem_singleton_self r)).delta_lt
    rw [maxDelta_concat, toNat_max, UInt32.toNat_ofNat', Nat.mod_eq_of_lt hlt, Nat.max_le, ih hrs,
      forall_mem_append, forall_mem_singleton]

theorem maxDelta_of_increasing {init : List BatchRecord} {last : BatchRecord}
    (hinc : (init ++ [last]).Pairwise (fun r r' => r.offset < r'.offset))
    (hall : ∀ r ∈ init ++ [last], r.EncodesAt base) :
    base + (maxDelta base (init ++ [last])).toNat = last.offset := by
  have hlast : last.EncodesAt base := hall last (by simp)
  have hle : (maxDelta base init).toNat ≤ last.offset - base := by
    refine (maxDelta_le_iff fun r hr => hall r (mem_append_left _ hr)).mpr fun r hr => ?_
    rw [pairwise_append] at hinc
    have hlt : r.offset < last.offset := hinc.2.2 r hr last (mem_singleton_self _)
    omega
  have hbase := hlast.base_le
  have hd := hlast.delta_lt
  rw [maxDelta_concat, toNat_max, UInt32.toNat_ofNat']
  omega

/-- No record lies beyond the last offset the header declares. -/
def InRange (c : Crates) (b : RecordBatch) : Prop :=
  ∀ rs, b.records c = .ok rs → ∀ r ∈ rs, r.offset ≤ b.lastOffset

/-- The payload agrees with the header: it decodes to records at increasing
offsets, the last of which is the last offset of the batch. -/
def WellFormed (c : Crates) (b : RecordBatch) : Prop :=
  ∃ init last, b.records c = .ok (init ++ [last]) ∧
    (init ++ [last]).Pairwise (fun r r' => r.offset < r'.offset) ∧ last.offset = b.lastOffset

theorem WellFormed.increasing (h : b.WellFormed c) (hrs : b.records c = .ok rs) :
    rs.Pairwise (fun r r' => r.offset < r'.offset) := by
  obtain ⟨init, last, hok, hinc, -⟩ := h
  rw [hok] at hrs
  cases hrs
  exact hinc

theorem WellFormed.inRange (h : b.WellFormed c) : b.InRange c := by
  obtain ⟨init, last, hok, hinc, hlast⟩ := h
  intro rs hrs r hr
  rw [hok] at hrs
  cases hrs
  rw [pairwise_append] at hinc
  rcases mem_append.mp hr with hmem | hmem
  · have hlt := hinc.2.2 r hmem last (mem_singleton_self _)
    omega
  · rw [mem_singleton.mp hmem]
    omega

def keyed (key : UInt8) (value : Option UInt8) : RecordBatch :=
  create .storing 0 0 0 0 0 0 false .none [(0, some [key], value.map (fun v => [v]))]

def stamped (timestamp : UInt64) : RecordBatch :=
  create .storing 0 timestamp 0 0 0 0 false .none [(timestamp, some [1], some [1])]

theorem InRange.of_one (r : BatchRecord) (hrecords : b.records c = .ok [r])
    (hlast : r.offset = b.lastOffset) : b.InRange c :=
  WellFormed.inRange ⟨[], r, hrecords, List.pairwise_singleton _ _, hlast⟩

theorem records_of_length_gt (h : b.recordData.length > maxDecompressedBatchBytes) :
    ∃ e, b.records c = .error e := by
  refine ⟨.io "batch exceeds decoded record or byte limit", ?_⟩
  rw [records, rawData, if_pos h]
  rfl

section Rebuild

variable {c : Crates} {b : RecordBatch} {rs kept : List BatchRecord} {producerId : UInt64}
  {leaderEpoch : UInt32} {producerEpoch : Int16} {baseSequence : Int32} {transactional : Bool}
  {codec : BatchCompression}

theorem records_createWithOffsets_or_error (hc : c.Lawful) (hrs : b.records c = .ok rs)
    (hsub : kept.Sublist rs) :
    let b' := createWithOffsets c b.baseOffset b.baseTimestamp leaderEpoch producerId producerEpoch
      baseSequence transactional codec kept
    b'.records c = .ok kept ∨ ∃ e, b'.records c = .error e := by
  by_cases hfit : (compress c (encodeAt b.baseOffset b.baseTimestamp kept) codec).length ≤
      maxDecompressedBatchBytes
  · exact .inl (records_createWithOffsets_of_sublist hc hrs hsub hfit)
  · refine .inr (records_of_length_gt ?_)
    show (compress c (encodeAt b.baseOffset b.baseTimestamp
      (encodable b.baseOffset kept)) codec).length > _
    rw [encodable_eq_self (encodesAt_of_sublist hrs hsub)]
    omega

theorem InRange.createWithOffsets (hc : c.Lawful) (hrs : b.records c = .ok rs)
    (hsub : kept.Sublist rs) :
    (createWithOffsets c b.baseOffset b.baseTimestamp leaderEpoch producerId producerEpoch
      baseSequence transactional codec kept).InRange c := by
  have hall := encodesAt_of_sublist hrs hsub
  intro rs' hrs' r hr
  rcases records_createWithOffsets_or_error hc hrs hsub with hok | ⟨e, herr⟩
  · rw [hok] at hrs'
    cases hrs'
    have hle := (maxDelta_le_iff hall).mp (le_refl _) r hr
    have hbase := (hall r hr).base_le
    show r.offset ≤ b.baseOffset + (maxDelta b.baseOffset (encodable b.baseOffset kept)).toNat
    rw [encodable_eq_self hall]
    omega
  · rw [herr] at hrs'
    cases hrs'

theorem InRange.lastOffset_createWithOffsets_le (h : b.InRange c) (hrs : b.records c = .ok rs)
    (hsub : kept.Sublist rs) :
    (RecordBatch.createWithOffsets c b.baseOffset b.baseTimestamp leaderEpoch producerId
      producerEpoch baseSequence transactional codec kept).lastOffset ≤ b.lastOffset := by
  show b.baseOffset + (maxDelta b.baseOffset (encodable b.baseOffset kept)).toNat ≤ _
  have hall := encodesAt_of_sublist hrs hsub
  rw [encodable_eq_self hall, lastOffset, Nat.add_le_add_iff_left, maxDelta_le_iff hall]
  intro r hr
  have hr' := h rs hrs r (hsub.subset hr)
  rw [lastOffset] at hr'
  omega

theorem lastOffset_createWithOffsets (hb : b.WellFormed c) (hrs : b.records c = .ok rs)
    {init : List BatchRecord} {last : BatchRecord} (hsub : (init ++ [last]).Sublist rs) :
    (createWithOffsets c b.baseOffset b.baseTimestamp leaderEpoch producerId producerEpoch
      baseSequence transactional codec (init ++ [last])).lastOffset = last.offset := by
  have hall := encodesAt_of_sublist hrs hsub
  show b.baseOffset + (maxDelta b.baseOffset (encodable b.baseOffset (init ++ [last]))).toNat = _
  rw [encodable_eq_self hall]
  exact maxDelta_of_increasing ((hb.increasing hrs).sublist hsub) hall

theorem WellFormed.createWithOffsets (hc : c.Lawful) (hb : b.WellFormed c)
    (hrs : b.records c = .ok rs) (hsub : kept.Sublist rs) (hne : kept ≠ [])
    (hfit : (compress c (encodeAt b.baseOffset b.baseTimestamp kept) codec).length ≤
      maxDecompressedBatchBytes) :
    (createWithOffsets c b.baseOffset b.baseTimestamp leaderEpoch producerId
      producerEpoch baseSequence transactional codec kept).WellFormed c := by
  obtain ⟨init, last, rfl⟩ : ∃ init last, kept = init ++ [last] :=
    ⟨kept.dropLast, kept.getLast hne, (dropLast_concat_getLast hne).symm⟩
  refine ⟨init, last, records_createWithOffsets_of_sublist hc hrs hsub hfit, ?_,
    (lastOffset_createWithOffsets hb hrs hsub).symm⟩
  exact (hb.increasing hrs).sublist hsub

end Rebuild

end RecordBatch

end Bifrox.Protocol

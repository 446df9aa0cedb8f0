/-
The contents of a batch round trip.

A batch that is stamped with another base offset has the same records at shifted offsets, as long
as the shifted offsets are numbers of 64 bits.
-/
import Bifrox.Protocol.BatchChecked

namespace Bifrox.Protocol

open List BigEndian Panic BatchRecord

namespace RecordBatch

structure Writable (c : Crates) (base : Nat) (baseTimestamp : UInt64) (codec : BatchCompression)
    (rs : List BatchRecord) : Prop where
  count : rs.length ≤ 100000
  ascending : rs.Pairwise fun r r' => r.offset < r'.offset
  offset : ∀ r ∈ rs, base ≤ r.offset ∧ r.offset - base < 2 ^ 32
  timestamp : ∀ r ∈ rs, r.timestamp.toNat < 2 ^ 63
  baseTimestamp_lt : baseTimestamp.toNat < 2 ^ 63
  raw : (encodeAt base baseTimestamp rs).length ≤ maxDecompressedBatchBytes
  stored : (compress c (encodeAt base baseTimestamp rs) codec).length ≤ maxDecompressedBatchBytes

inductive Built (c : Crates) (base : Nat) (baseTimestamp : UInt64) (codec : BatchCompression)
    (rs : List BatchRecord) : RecordBatch → Prop where
  | explicit (leaderEpoch : UInt32) (producerId : UInt64) (producerEpoch : Int16)
    (baseSequence : Int32) (transactional : Bool) :
    Built c base baseTimestamp codec rs
      (createWithOffsets c base baseTimestamp leaderEpoch producerId producerEpoch baseSequence
        transactional codec rs)
  | contiguous (leaderEpoch : UInt32) (producerId : UInt64) (producerEpoch : Int16)
    (baseSequence : Int32) (transactional : Bool)
    (offsets : rs.map offset = List.range' base rs.length) :
    Built c base baseTimestamp codec rs
      (create c base baseTimestamp leaderEpoch producerId producerEpoch baseSequence transactional
        codec (rs.map fun r => (r.timestamp, r.key, r.value)))

/-- The highest delta of records at a base offset, zero if there are none. -/
def highestDelta (base : Nat) (rs : List BatchRecord) : Nat :=
  (rs.map fun r => r.offset - base).foldr max 0

def shift (base base' : Nat) (r : BatchRecord) : BatchRecord :=
  { r with offset := base' + (r.offset - base) }

/-! ## Entries -/

variable {rs : List BatchRecord}

variable {baseTimestamp : UInt64}

theorem Writable.encodesAt {c : Crates} {base : Nat} {codec : BatchCompression}
    (h : Writable c base baseTimestamp codec rs) : ∀ r ∈ rs, r.EncodesAt base := by
  intro r hr
  obtain ⟨hle, hlt⟩ := h.offset r hr
  have hsmall : ∀ b, r.key = some b ∨ r.value = some b → b.length < 2 ^ 31 := by
    intro b hb
    have hall : b.length ≤ (encodeAt base baseTimestamp rs).length := by
      obtain ⟨pre, post, rfl⟩ := append_of_mem hr
      simp only [encodeAt, flatMap_append, flatMap_cons, length_append, encodeRecord]
      rcases hb with hb | hb <;> simp only [hb, encodeOptBytes, length_append] <;> omega
    have hraw := h.raw
    simp only [maxDecompressedBatchBytes] at hraw
    omega
  exact ⟨hle, hlt, fun k hk => hsmall k (.inl hk), fun v hv => hsmall v (.inr hv)⟩

theorem encodeSequential_eq {base : Nat} {i : Nat}
    (h : rs.map offset = List.range' (base + i) rs.length) :
    encodeSequential baseTimestamp i (rs.map fun r => (r.timestamp, r.key, r.value)) =
      encodeAt base baseTimestamp rs := by
  induction rs generalizing i with
  | nil => rfl
  | cons r rs ih =>
    rw [map_cons, length_cons, List.range'_succ] at h
    obtain ⟨hoffset, hrest⟩ := List.cons.inj h
    have hcons : encodeAt base baseTimestamp (r :: rs) =
        encodeRecord (r.offset - base) baseTimestamp r.timestamp r.key r.value ++
          encodeAt base baseTimestamp rs := rfl
    rw [map_cons, encodeSequential, ih hrest, hcons, hoffset, Nat.add_sub_cancel_left]

theorem toInt_toInt64 (x : UInt64) : x.toInt64.toInt = (x.toNat : Int).bmod (2 ^ 64) :=
  BitVec.toInt_eq_toNat_bmod x.toBitVec

theorem fitsI64_timestamp {base timestamp : UInt64} (hbase : base.toNat < 2 ^ 63)
    (htimestamp : timestamp.toNat < 2 ^ 63) :
    FitsI64 base.toInt64 (UInt64.ofNat ((timestamp - base).toNat % 256 ^ 8)).toInt64 := by
  have hb : base.toInt64.toInt = base.toNat := by
    rw [toInt_toInt64, Int.bmod_eq_of_le (by omega) (by omega)]
  have hdiff : (timestamp - base).toInt64.toInt = (timestamp.toNat : Int) - base.toNat := by
    rw [toInt_toInt64, UInt64.toNat_sub, Int.bmod_def]
    omega
  rw [ofNat_toNat_mod_uint64, FitsI64, hb, hdiff]
  omega

/-- The sums of the offsets are the only ones of a batch that may not fit. -/
theorem sumsFit_encodeAt {base : Nat} (hrs : ∀ r ∈ rs, r.EncodesAt base)
    (hbase : baseTimestamp.toNat < 2 ^ 63)
    (htimestamp : ∀ r ∈ rs, r.timestamp.toNat < 2 ^ 63) (rest : Bytes) :
    sumsFit base baseTimestamp rs.length (encodeAt base baseTimestamp rs ++ rest) =
      rs.all fun r => r.offset < 2 ^ 64 := by
  induction rs with
  | nil => rfl
  | cons r rs ih =>
    have hr := hrs r mem_cons_self
    rw [encodeAt_cons_append, length_cons, sumsFit, encodeRecord]
    simp only [append_assoc, split_put, decodeOptBytes_encode hr.key_lt,
      decodeOptBytes_encode hr.value_lt, hr.offset_eq,
      fitsI64_timestamp hbase (htimestamp r mem_cons_self), decide_true, Bool.true_and, all_cons]
    rw [ih (fun r' hr' => hrs r' (mem_cons_of_mem _ hr'))
      fun r' hr' => htimestamp r' (mem_cons_of_mem _ hr')]

/-! ## The highest delta -/

section HighestDelta

variable {base x : Nat} {rs : List BatchRecord}

theorem highestDelta_le_iff : highestDelta base rs ≤ x ↔ ∀ r ∈ rs, r.offset - base ≤ x := by
  induction rs with
  | nil => exact iff_of_true (Nat.zero_le x) nofun
  | cons r rs ih => rw [forall_mem_cons, ← ih, ← Nat.max_le, highestDelta, map_cons, foldr_cons,
      highestDelta]

theorem add_highestDelta_lt_iff {n : Nat} (h : x < n) :
    x + highestDelta base rs < n ↔ ∀ r ∈ rs, x + (r.offset - base) < n := by
  have hle : x + highestDelta base rs < n ↔ highestDelta base rs ≤ n - 1 - x := by omega
  rw [hle, highestDelta_le_iff]
  exact forall₂_congr fun r _ => by omega

theorem toNat_maxDelta (hrs : ∀ r ∈ rs, r.EncodesAt base) :
    (maxDelta base rs).toNat = highestDelta base rs :=
  eq_of_forall_ge_iff fun _ => (maxDelta_le_iff hrs).trans highestDelta_le_iff.symm

theorem highestDelta_range' (h : rs.map offset = List.range' base rs.length) :
    highestDelta base rs = rs.length - 1 := by
  have hmem : ∀ r ∈ rs, base ≤ r.offset ∧ r.offset < base + rs.length := by
    intro r hr
    have hoffset : r.offset ∈ rs.map offset := mem_map_of_mem hr
    rw [h, mem_range'_1] at hoffset
    exact hoffset
  refine Nat.le_antisymm (highestDelta_le_iff.mpr fun r hr => ?_) ?_
  · have := hmem r hr
    omega
  · cases hlength : rs.length with
    | zero => exact Nat.zero_le _
    | succ n =>
      have hlast : base + n ∈ rs.map offset := by
        rw [h, hlength, mem_range'_1]
        omega
      obtain ⟨r, hr, hoffset⟩ := mem_map.mp hlast
      have hle := highestDelta_le_iff.mp (le_refl (highestDelta base rs)) r hr
      omega

end HighestDelta

/-! ## Batches -/

theorem toNat_pred_length {n : Nat} (h : n ≤ 100000) :
    (if UInt32.ofNat n = 0 then 0 else UInt32.ofNat n - 1).toNat = n - 1 := by
  have hnat : (UInt32.ofNat n).toNat = n :=
    UInt32.toNat_ofNat_of_lt' (by unfold UInt32.size; omega)
  cases n with
  | zero => rfl
  | succ n =>
    have hne : UInt32.ofNat (n + 1) ≠ 0 := by
      intro hzero
      rw [hzero] at hnat
      exact absurd hnat (Nat.succ_ne_zero n).symm
    have hle : (1 : UInt32) ≤ UInt32.ofNat (n + 1) := by
      rw [UInt32.le_iff_toNat_le, hnat]
      exact Nat.le_add_left _ _
    rw [if_neg hne, UInt32.toNat_sub_of_le _ _ hle, hnat]
    rfl

section Built

variable {c : Crates} {base : Nat} {baseTimestamp : UInt64} {codec : BatchCompression}
  {rs : List BatchRecord} {b : RecordBatch}

theorem Built.spec (hb : Built c base baseTimestamp codec rs b)
    (h : Writable c base baseTimestamp codec rs) :
    b.baseOffset = base ∧ b.baseTimestamp = baseTimestamp ∧ b.compression = .ok codec ∧
      b.recordData = compress c (encodeAt base baseTimestamp rs) codec ∧
      b.recordCount = UInt32.ofNat rs.length ∧ b.lastOffsetDelta.toNat = highestDelta base rs := by
  have hrs := h.encodesAt
  cases hb with
  | explicit leaderEpoch producerId producerEpoch baseSequence transactional =>
    refine ⟨rfl, rfl, attributesFor_compression, ?_, ?_, ?_⟩
    · show compress c (encodeAt base baseTimestamp (encodable base rs)) codec = _
      rw [encodable_eq_self hrs]
    · show UInt32.ofNat (encodable base rs).length = _
      rw [encodable_eq_self hrs]
    · show (maxDelta base (encodable base rs)).toNat = _
      rw [encodable_eq_self hrs, toNat_maxDelta hrs]
  | contiguous leaderEpoch producerId producerEpoch baseSequence transactional offsets =>
    have hlength : (rs.map fun r => (r.timestamp, r.key, r.value)).length = rs.length :=
      length_map _
    refine ⟨rfl, rfl, attributesFor_compression, ?_, ?_, ?_⟩
    · show compress c (encodeSequential baseTimestamp 0 _) codec = _
      rw [encodeSequential_eq (i := 0) offsets]
    · show UInt32.ofNat (rs.map fun r => (r.timestamp, r.key, r.value)).length = _
      rw [hlength]
    · show (if UInt32.ofNat (rs.map fun r => (r.timestamp, r.key, r.value)).length = 0 then 0
        else UInt32.ofNat (rs.map fun r => (r.timestamp, r.key, r.value)).length - 1).toNat = _
      rw [hlength, highestDelta_range' offsets, toNat_pred_length h.count]

theorem recordsChecked_of_compress (hc : c.Inverts) (hbase : b.baseOffset = base)
    (htime : b.baseTimestamp = baseTimestamp) (hcodec : b.compression = .ok codec)
    (hdata : b.recordData = compress c (encodeAt base baseTimestamp rs) codec)
    (hn : b.recordCount = UInt32.ofNat rs.length) (h : Writable c base baseTimestamp codec rs) :
    b.recordsChecked c = if rs.all (·.offset < 2 ^ 64) then returns (.ok rs) else panic := by
  have hraw := rawData_of_compress hc hcodec hdata h.raw h.stored
  have hsums := sumsFit_encodeAt h.encodesAt h.baseTimestamp_lt h.timestamp []
  rw [append_nil] at hsums
  have hfits : b.fits c = rs.all (·.offset < 2 ^ 64) := by
    obtain ⟨hroom, hlimit⟩ := length_checks base baseTimestamp h.count
    simp only [fits, hraw, hbase, htime, hn, toNat_ofNat_length h.count, hsums, hroom, hlimit,
      decide_false, Bool.false_or]
  rw [recordsChecked_eq, hfits, records_of_compress hc hbase htime hcodec hdata hn h.encodesAt
    h.count h.raw h.stored]

theorem encodeAt_shift (base base' : Nat) (baseTimestamp : UInt64) (rs : List BatchRecord) :
    encodeAt base' baseTimestamp (rs.map (shift base base')) = encodeAt base baseTimestamp rs := by
  rw [encodeAt, flatMap_map, encodeAt]
  congr 1
  funext r
  show encodeRecord (base' + (r.offset - base) - base') _ _ _ _ = _
  rw [Nat.add_sub_cancel_left]
  rfl

theorem Writable.shift (h : Writable c base baseTimestamp codec rs) (base' : Nat) :
    Writable c base' baseTimestamp codec (rs.map (shift base base')) where
  count := by
    rw [length_map]
    exact h.count
  ascending := by
    rw [pairwise_map]
    refine h.ascending.imp_of_mem fun {r r'} hr _ hlt => ?_
    have := (h.offset r hr).1
    show base' + (r.offset - base) < base' + (r'.offset - base)
    omega
  offset r hr := by
    obtain ⟨r, hmem, rfl⟩ := mem_map.mp hr
    obtain ⟨hle, hdelta⟩ := h.offset r hmem
    show base' ≤ base' + (r.offset - base) ∧ base' + (r.offset - base) - base' < 2 ^ 32
    omega
  timestamp r hr := by
    obtain ⟨r, hmem, rfl⟩ := mem_map.mp hr
    exact h.timestamp r hmem
  baseTimestamp_lt := h.baseTimestamp_lt
  raw := by
    rw [encodeAt_shift]
    exact h.raw
  stored := by
    rw [encodeAt_shift]
    exact h.stored

/-- The records that a batch was built from come back, and do so also at shifted offsets exactly
if the highest of these is a number of 64 bits. -/
theorem Built.contents_iff (hc : c.Inverts) (h : Writable c base baseTimestamp codec rs)
    (hoffset : ∀ r ∈ rs, r.offset < 2 ^ 64) (hb : Built c base baseTimestamp codec rs b)
    (base' : Nat) (hbase' : base' < 2 ^ 64) (leaderEpoch : UInt32) :
    (b.recordsChecked c = returns (.ok rs) ∧ b.lastOffsetDelta.toNat = highestDelta base rs ∧
      (b.assignBaseOffsetAndLeaderEpoch c base' leaderEpoch).recordsChecked c =
        returns (.ok (rs.map (RecordBatch.shift base base'))) ∧
      (b.assignBaseOffsetAndLeaderEpoch c base' leaderEpoch).recordData = b.recordData) ↔
      base' + highestDelta base rs < 2 ^ 64 := by
  obtain ⟨hbase, htime, hcodec, hdata, hn, hdelta⟩ := hb.spec h
  have hrecords := recordsChecked_of_compress hc hbase htime hcodec hdata hn h
  rw [if_pos (all_eq_true.mpr fun r hr => decide_eq_true (hoffset r hr))] at hrecords
  have hdata' : (b.assignBaseOffsetAndLeaderEpoch c base' leaderEpoch).recordData =
      compress c (encodeAt base' baseTimestamp (rs.map (RecordBatch.shift base base'))) codec := by
    rw [encodeAt_shift]
    exact hdata
  have hn' : (b.assignBaseOffsetAndLeaderEpoch c base' leaderEpoch).recordCount =
      UInt32.ofNat (rs.map (RecordBatch.shift base base')).length := by
    rw [length_map]
    exact hn
  have hshifted := recordsChecked_of_compress
    (b := b.assignBaseOffsetAndLeaderEpoch c base' leaderEpoch) hc rfl htime hcodec hdata' hn'
    (h.shift base')
  have hsums : (rs.map (RecordBatch.shift base base')).all (·.offset < 2 ^ 64) = true ↔
      base' + highestDelta base rs < 2 ^ 64 := by
    rw [add_highestDelta_lt_iff hbase', all_map, all_eq_true]
    exact forall₂_congr fun r _ => decide_eq_true_iff
  constructor
  · rintro ⟨-, -, hstamped, -⟩
    by_contra hlarge
    rw [hshifted, if_neg fun hall => hlarge (hsums.mp hall)] at hstamped
    cases hstamped
  · exact fun hfits => ⟨hrecords, hdelta, hshifted.trans (if_pos (hsums.mpr hfits)), rfl⟩

end Built

/-! ## Two batches -/

/-- Two records, one with an empty value and one without a value. -/
def twoRecords : List BatchRecord := [⟨0, 0, none, some []⟩, ⟨1, 0, none, none⟩]

def twoBatch : RecordBatch :=
  create .storing 0 0 0 0 0 0 false .none (twoRecords.map fun r => (r.timestamp, r.key, r.value))

theorem built_twoBatch : Built .storing 0 0 .none twoRecords twoBatch :=
  .contiguous 0 0 0 0 false rfl

theorem contents_twoBatch : (twoBatch.assignBaseOffsetAndLeaderEpoch .storing 5 1).recordsChecked
    .storing = returns (.ok [⟨5, 0, none, some []⟩, ⟨6, 0, none, none⟩]) :=
  ((built_twoBatch.contents_iff Crates.storing_lawful.toInverts ⟨by decide, by decide, by decide,
    by decide, by decide, by decide, by decide⟩ (by decide) 5 (by decide) 1).mpr (by decide)).2.2.1

/-- The second offset is past the largest number. -/
theorem recordsChecked_twoBatch_eq_panic :
    (twoBatch.assignBaseOffsetAndLeaderEpoch .storing (2 ^ 64 - 1) 1).recordsChecked .storing =
      panic := by
  have hfits : (twoBatch.assignBaseOffsetAndLeaderEpoch .storing (2 ^ 64 - 1) 1).fits .storing =
      false := by decide
  rw [recordsChecked_eq, hfits]
  rfl

end RecordBatch

end Bifrox.Protocol

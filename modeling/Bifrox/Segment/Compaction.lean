/-
Log compaction (`SegmentManager::compact_segments`).

The map of the latest records is global but the rewriting is not: a segment below the dirty ratio
is left alone, and a pass rewrites at most four.
-/
import Bifrox.Protocol.BatchCodec
import Bifrox.Segment.Manager

namespace Bifrox.Segment

open Protocol BigEndian RecordBatch

/-- One record read out of the log, with the control flag of its batch. -/
structure Record where
  offset : Nat
  timestamp : Nat
  key : Option Bytes
  value : Option Bytes
  isControl : Bool
deriving DecidableEq

def Record.ofBatchRecord (isControl : Bool) (r : BatchRecord) : Record :=
  { offset := r.offset, timestamp := r.timestamp.toNat, key := r.key, value := r.value, isControl }

/-- The records of one entry.  A batch that does not decode has none. -/
def recordsOf (c : Crates) (b : RecordBatch) : List Record :=
  match b.records c with
  | .ok rs => rs.map (Record.ofBatchRecord b.isControl)
  | .error _ => []

variable {c : Crates} {b : RecordBatch}

theorem base_le_of_mem_recordsOf {r : Record} (h : r ∈ recordsOf c b) :
    b.baseOffset ≤ r.offset ∧ r.isControl = b.isControl := by
  rw [recordsOf] at h
  split at h
  · rename_i rs hrs
    obtain ⟨r', hr', rfl⟩ := List.mem_map.mp h
    exact ⟨((records_spec hrs).2.2.1 r' hr').base_le, rfl⟩
  · cases h

theorem le_lastOffset_of_mem_recordsOf (h : b.InRange c) {r : Record} (hr : r ∈ recordsOf c b) :
    r.offset ≤ b.lastOffset := by
  rw [recordsOf] at hr
  split at hr
  · rename_i rs hrs
    obtain ⟨r', hr', rfl⟩ := List.mem_map.mp hr
    exact h rs hrs r' hr'
  · cases hr

def recordsFromEntries (c : Crates) (entries : List RecordBatch) : List Record :=
  entries.flatMap (recordsOf c)

/-! ## Phase 1: the latest record of each key -/

structure LatestRecord where
  offset : Nat
  timestamp : Nat
  isTombstone : Bool

/-- The key under which a record is deduplicated, if it is. -/
def Record.dedupKey (r : Record) : Option Bytes := if r.isControl then none else r.key

/-- One step of the scan, as seen by the map's entry for `key`. -/
def observe (key : Bytes) (latest : Option LatestRecord) (r : Record) : Option LatestRecord :=
  if r.dedupKey = some key then
    let new : LatestRecord := { offset := r.offset, timestamp := r.timestamp,
                                isTombstone := r.value.isNone }
    match latest with
    | some old => if r.offset > old.offset then some new else some old
    | none => some new
  else latest

def latestOf (records : List Record) (key : Bytes) : Option LatestRecord :=
  records.foldl (observe key) none

variable (config : EngineConfig) {rs kept : List BatchRecord}

def isPurged (records : List Record) (now : Nat) (key : Bytes) : Bool :=
  match config.deleteRetentionMillis, latestOf records key with
  | some deleteRetentionMs, some latest =>
    latest.isTombstone && now - latest.timestamp > deleteRetentionMs
  | _, _ => false

def latestOffset (records : List Record) (now : Nat) (key : Bytes) : Option Nat :=
  if isPurged config records now key then none
  else (latestOf records key).map LatestRecord.offset

def survives (records : List Record) (now : Nat) (r : Record) : Bool :=
  if r.isControl then true
  else
    match r.key with
    | none => true
    | some key =>
      match latestOffset config records now key with
      | some offset => r.offset = offset
      | none => !isPurged config records now key

/-! ## Phase 2: rewriting segments -/

def rebuild (c : Crates) (b : RecordBatch) (survivors : List BatchRecord) : RecordBatch :=
  createWithOffsets c b.baseOffset b.baseTimestamp b.leaderEpoch b.producerId
    b.producerEpoch b.baseSequence b.isTransactional
    (match b.compression with
      | .ok codec => codec
      | .error _ => .none)
    survivors

def survivors (keep : Record → Bool) (b : RecordBatch) (rs : List BatchRecord) : List BatchRecord :=
  rs.filter (fun r => keep (Record.ofBatchRecord b.isControl r))

/-- What becomes of one entry: the entry that is kept, if any, the number of
records discarded and the bytes saved. -/
def compactEntry (c : Crates) (keep : Record → Bool) (b : RecordBatch) :
    Option RecordBatch × Nat × Nat :=
  match b.records c with
  | .error _ => (some b, 0, 0)
  | .ok rs =>
    let kept := survivors keep b rs
    let discarded := rs.length - kept.length
    if kept = [] then (none, discarded, b.encodedSize)
    else if kept.length = rs.length then (some b, discarded, 0)
    else
      let rebuilt := rebuild c b kept
      (some rebuilt, discarded, b.encodedSize - rebuilt.encodedSize)

def keptEntries (c : Crates) (keep : Record → Bool) (log : List RecordBatch) : List RecordBatch :=
  log.filterMap (fun b => (compactEntry c keep b).1)

def discardedCount (c : Crates) (keep : Record → Bool) (log : List RecordBatch) : Nat :=
  (log.map (fun b => (compactEntry c keep b).2.1)).sum

def discardedBytes (c : Crates) (keep : Record → Bool) (log : List RecordBatch) : Nat :=
  (log.map (fun b => (compactEntry c keep b).2.2)).sum

def isRewritten (c : Crates) (config : EngineConfig) (keep : Record → Bool) (p : SegmentPair) :
    Bool :=
  discardedCount c keep p.log ≠ 0 &&
    !config.belowMinDirtyRatio (discardedBytes c keep p.log) (sizeOf p.log)

/-- The time index of a rewritten segment, filled in step with its offset
index. -/
def scanTimeIndex (interval : Nat) :
    (bytesSinceLastIndex : Nat) → (isFirst : Bool) → List TimeIndexEntry → List RecordBatch →
      List TimeIndexEntry
  | _, _, entries, [] => entries
  | bytesSince, isFirst, entries, b :: rest =>
    if bytesSince ≥ interval ∨ isFirst then
      scanTimeIndex interval b.encodedSize false
        (TimeIndexEntry.append entries b.baseTimestamp.toNat b.baseOffset) rest
    else scanTimeIndex interval (bytesSince + b.encodedSize) false entries rest

/-- The segment written in place of `p`: the kept entries under the same base,
with the aborted ranges carried over. -/
def rewritePair (p : SegmentPair) (kept : List RecordBatch) : SegmentPair :=
  { baseOffset := p.baseOffset
    log := kept
    index := rebuildIndex p.baseOffset config.indexIntervalBytes kept
    timeIndex := scanTimeIndex config.indexIntervalBytes 0 true [] kept
    txnIndex := p.txnIndex
    linked := true }

def maxSegmentsCompactedPerCall : Nat := 4

/-- The loop over closed segments with `budget` rewrites left: the segments
afterwards, the base offsets whose files were unlinked, and the number of
records discarded. -/
def compactLoop (c : Crates) (config : EngineConfig) (keep : Record → Bool) :
    (budget : Nat) → List SegmentPair → List SegmentPair × List Nat × Nat
  | _, [] => ([], [], 0)
  | 0, pairs => (pairs, [], 0)
  | budget + 1, p :: rest =>
    if isRewritten c config keep p then
      let kept := keptEntries c keep p.log
      let (pairs, unlinked, count) := compactLoop c config keep budget rest
      let count := discardedCount c keep p.log + count
      if kept = [] then (pairs, p.baseOffset :: unlinked, count)
      else (rewritePair config p kept :: pairs, unlinked, count)
    else
      let (pairs, unlinked, count) := compactLoop c config keep (budget + 1) rest
      (p :: pairs, unlinked, count)

/-- Unlinking files takes the name away from every segment that uses it. -/
def SegmentPair.unlink (bases : List Nat) (p : SegmentPair) : SegmentPair :=
  if p.baseOffset ∈ bases then { p with linked := false } else p

namespace SegmentManager

def unlinkBases (s : SegmentManager) (bases : List Nat) : SegmentManager :=
  { s with
    historical := s.historical.map (SegmentPair.unlink bases)
    active := s.active.unlink bases }

def allRecords (c : Crates) (s : SegmentManager) : List Record :=
  recordsFromEntries c s.retained

def keeps (c : Crates) (s : SegmentManager) (now : Nat) : Record → Bool :=
  survives s.config (s.allRecords c) now

def compactSegments (c : Crates) (s : SegmentManager) (now : Nat) : SegmentManager × Nat :=
  if s.historical = [] then (s, 0)
  else if (s.allRecords c).all (fun r => r.dedupKey.isNone) then (s, 0)
  else
    let (pairs, unlinked, count) :=
      compactLoop c s.config (s.keeps c now) maxSegmentsCompactedPerCall s.historical
    ({ s with historical := pairs }.unlinkBases unlinked, count)

end SegmentManager

theorem mem_recordsFromEntries {es : List RecordBatch} {r : Record} :
    r ∈ recordsFromEntries c es ↔ ∃ b ∈ es, r ∈ recordsOf c b :=
  List.mem_flatMap

theorem recordsFromEntries_append (c : Crates) (es es' : List RecordBatch) :
    recordsFromEntries c (es ++ es') = recordsFromEntries c es ++ recordsFromEntries c es' :=
  List.flatMap_append

theorem recordsFromEntries_singleton : recordsFromEntries c [b] = recordsOf c b :=
  List.flatMap_singleton ..

/-! ## Rebuilt batches -/

theorem recordData_rebuild (hrs : b.records c = .ok rs)
    (hsub : kept.Sublist rs) {codec : BatchCompression} (hcodec : b.compression = .ok codec) :
    (rebuild c b kept).recordData =
      compress c (encodeAt b.baseOffset b.baseTimestamp kept) codec := by
  rw [rebuild, hcodec]
  show compress c (encodeAt b.baseOffset b.baseTimestamp (encodable b.baseOffset kept)) codec = _
  rw [encodable_eq_self (encodesAt_of_sublist hrs hsub)]

theorem compression_of_records {rs : List BatchRecord} (hrs : b.records c = .ok rs) :
    ∃ codec, b.compression = .ok codec := by
  cases hcomp : b.compression with
  | ok codec => exact ⟨codec, rfl⟩
  | error =>
    obtain ⟨-, -, -, hraw⟩ := records_spec hrs
    rw [rawData, hcomp] at hraw
    split at hraw
    · cases hraw
    · cases hraw

theorem records_rebuild (hc : c.Lawful) (hrs : b.records c = .ok rs) (hsub : kept.Sublist rs)
    (hfit : (rebuild c b kept).recordData.length ≤ maxDecompressedBatchBytes) :
    (rebuild c b kept).records c = .ok kept := by
  obtain ⟨codec, hcodec⟩ := compression_of_records hrs
  rw [recordData_rebuild hrs hsub hcodec] at hfit
  rw [rebuild, hcodec]
  exact records_createWithOffsets_of_sublist hc hrs hsub hfit

/-- The payload a pass would give a batch can be decoded again. -/
def BatchFits (c : Crates) (keep : Record → Bool) (b : RecordBatch) : Prop :=
  ∀ rs, b.records c = .ok rs →
    (rebuild c b (survivors keep b rs)).recordData.length ≤ maxDecompressedBatchBytes

/-- So can every batch that a pass at time `now` would rebuild. -/
def RebuildFits (c : Crates) (s : SegmentManager) (now : Nat) : Prop :=
  ∀ b ∈ s.retained, BatchFits c (s.keeps c now) b

/-! ## What a pass does to one entry -/

/-- `b'` is `b`, or `b` rebuilt from the records that pass the test. -/
def Compacts (c : Crates) (keep : Record → Bool) (b b' : RecordBatch) : Prop :=
  b' = b ∨ ∃ rs, b.records c = .ok rs ∧ survivors keep b rs ≠ [] ∧
    b' = rebuild c b (survivors keep b rs)

theorem survivors_sublist (keep : Record → Bool) (b : RecordBatch) (rs : List BatchRecord) :
    (survivors keep b rs).Sublist rs :=
  List.filter_sublist

theorem compactEntry_compacts {keep : Record → Bool} {b' : RecordBatch}
    (h : (compactEntry c keep b).1 = some b') : Compacts c keep b b' := by
  rw [compactEntry] at h
  split at h
  · cases h
    exact .inl rfl
  · rename_i rs hrs
    by_cases hnil : survivors keep b rs = []
    · rw [if_pos hnil] at h
      cases h
    · rw [if_neg hnil] at h
      by_cases hall : (survivors keep b rs).length = rs.length
      · rw [if_pos hall] at h
        cases h
        exact .inl rfl
      · rw [if_neg hall] at h
        cases h
        exact .inr ⟨rs, hrs, hnil, rfl⟩

section Compacts

variable {c : Crates} {keep : Record → Bool} {b b' : RecordBatch}

theorem Compacts.refl (c : Crates) (keep : Record → Bool) (b : RecordBatch) :
    Compacts c keep b b := .inl rfl

theorem Compacts.baseOffset_eq (h : Compacts c keep b b') : b'.baseOffset = b.baseOffset := by
  rcases h with rfl | ⟨rs, -, -, rfl⟩ <;> rfl

theorem Compacts.inRange (hc : c.Lawful) (h : Compacts c keep b b') (hb : b.InRange c) :
    b'.InRange c := by
  rcases h with rfl | ⟨rs, hrs, -, rfl⟩
  · exact hb
  · exact RecordBatch.InRange.createWithOffsets hc hrs (survivors_sublist keep b rs)

theorem Compacts.lastOffset_le (h : Compacts c keep b b') (hb : b.InRange c) :
    b'.lastOffset ≤ b.lastOffset := by
  rcases h with rfl | ⟨rs, hrs, -, rfl⟩
  · exact le_refl _
  · exact hb.lastOffset_createWithOffsets_le hrs (survivors_sublist keep b rs)

end Compacts

end Bifrox.Segment

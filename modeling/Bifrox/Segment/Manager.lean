/-
The segment manager: one partition's log on one broker (`src/segment/manager.rs`).

Each segment holds whole batches, so a segment file is modelled by the list of its entries, and a
byte position by the encoded sizes of the entries before it.  Wall-clock reads become arguments.

A segment is opened by path, and its path is its base offset.  The field `linked` records whether
the name in the directory still leads to the segment's files.
-/
import Bifrox.Segment.Index

namespace Bifrox.Segment

open Protocol

structure SegmentPair where
  baseOffset : Nat
  log : List RecordBatch
  index : List IndexEntry
  timeIndex : List TimeIndexEntry
  txnIndex : List TxnIndexEntry
  linked : Bool
deriving DecidableEq

def sizeOf (log : List RecordBatch) : Nat := (log.map RecordBatch.encodedSize).sum

namespace SegmentPair

def physicalSize (p : SegmentPair) : Nat := sizeOf p.log

def nextOffset (p : SegmentPair) : Nat :=
  match p.log.getLast? with
  | some b => b.lastOffset + 1
  | none => p.baseOffset

def fresh (baseOffset : Nat) : SegmentPair :=
  { baseOffset, log := [], index := [], timeIndex := [], txnIndex := [], linked := true }

end SegmentPair

/-- The settings the log reads.  `belowMinDirtyRatio discarded total` is the
comparison of `discarded / max total 1`, taken in floating point, with
`min_cleanable_dirty_ratio`. -/
structure EngineConfig where
  maxSegmentBytes : Nat
  indexIntervalBytes : Nat
  segmentMs : Option Nat
  retentionMillis : Option Nat
  retentionBytes : Option Nat
  deleteRetentionMillis : Option Nat
  belowMinDirtyRatio : Nat → Nat → Bool

/-- Segments of a megabyte, no retention, and every dirty segment compacted. -/
def EngineConfig.plain : EngineConfig where
  maxSegmentBytes := 1000000
  indexIntervalBytes := 4096
  segmentMs := none
  retentionMillis := none
  retentionBytes := none
  deleteRetentionMillis := none
  belowMinDirtyRatio := fun _ _ => false

structure SegmentManager where
  config : EngineConfig
  historical : List SegmentPair
  active : SegmentPair
  bytesSinceLastIndex : Nat
  highWatermark : Nat
  activeCreatedAtMs : Nat

inductive VerbatimAppendResult where
  | appended
  | alreadyApplied
  | gap (expected : Nat)
deriving DecidableEq

namespace SegmentManager

variable (s : SegmentManager)

def segments : List SegmentPair := s.historical ++ [s.active]

def retained : List RecordBatch := s.segments.flatMap SegmentPair.log

/-! ## Opening -/

/-- The segments found by name in the directory.  Of two segments with one name
the later one owns the files. -/
def onDisk : List SegmentPair → List SegmentPair
  | [] => []
  | p :: rest =>
    if p.linked ∧ rest.all (fun q => q.linked → q.baseOffset ≠ p.baseOffset) then
      p :: onDisk rest
    else onDisk rest

/-- Open a directory that holds the given segments.  A closed segment keeps the
index it was finalized with, and the last one is scanned and indexed afresh. -/
def openDir (config : EngineConfig) (files : List SegmentPair) (now : Nat) : SegmentManager :=
  let active := match files.getLast? with
    | some p => { p with index := rebuildIndex p.baseOffset config.indexIntervalBytes p.log }
    | none => SegmentPair.fresh 0
  { config, historical := files.dropLast, active, bytesSinceLastIndex := 0,
    highWatermark := active.nextOffset, activeCreatedAtMs := now }

def reopen (now : Nat) : SegmentManager :=
  openDir s.config (onDisk s.segments) now

def create (config : EngineConfig) (now : Nat) : SegmentManager := openDir config [] now

/-! ## Appending -/

/-- Open the files of the next active segment.  They exist already when the
current one is empty, and then the side indexes are read back from them. -/
def openNext : SegmentPair :=
  if s.active.baseOffset = s.highWatermark ∧ s.active.linked then s.active
  else SegmentPair.fresh s.highWatermark

def rotateSegment (now : Nat) : SegmentManager :=
  { s with
    historical := s.historical ++ [s.active]
    active := s.openNext
    bytesSinceLastIndex := 0
    activeCreatedAtMs := now }

def shouldRollByTime (now : Nat) : Bool :=
  match s.config.segmentMs with
  | some segmentMs =>
    segmentMs > 0 && s.active.physicalSize > 0 && now - s.activeCreatedAtMs ≥ segmentMs
  | none => false

def rollsBeforeAppend (frameSize now : Nat) : Bool :=
  s.active.physicalSize + frameSize > s.config.maxSegmentBytes || s.shouldRollByTime now

def maybeRotateBeforeAppend (frameSize now : Nat) : SegmentManager :=
  if s.rollsBeforeAppend frameSize now then s.rotateSegment now else s

/-- Write a stamped batch at the end of the active segment, with a sparse index
entry once per interval. -/
def storeBatch (b : RecordBatch) : SegmentManager :=
  let a := s.active
  let indexed := s.bytesSinceLastIndex ≥ s.config.indexIntervalBytes ∨ a.index = []
  { s with
    active := { a with
      log := a.log ++ [b]
      index := if indexed then a.index ++ [IndexEntry.at a.baseOffset b.baseOffset a.physicalSize]
        else a.index
      timeIndex := if indexed then
          TimeIndexEntry.append a.timeIndex b.baseTimestamp.toNat b.baseOffset
        else a.timeIndex }
    bytesSinceLastIndex := (if indexed then 0 else s.bytesSinceLastIndex) + b.encodedSize
    highWatermark := b.lastOffset + 1 }

def appendBatch (c : Crates) (s : SegmentManager) (batch : RecordBatch) (leaderEpoch : UInt32)
    (now : Nat) : SegmentManager × RecordBatch :=
  let batch := batch.assignBaseOffsetAndLeaderEpoch c s.highWatermark leaderEpoch
  ((s.maybeRotateBeforeAppend batch.encodedSize now).storeBatch batch, batch)

def appendBatchVerbatim (batch : RecordBatch) (now : Nat) : SegmentManager × VerbatimAppendResult :=
  if batch.lastOffset < s.highWatermark then (s, .alreadyApplied)
  else if batch.baseOffset > s.highWatermark then (s, .gap s.highWatermark)
  else if batch.baseOffset < s.highWatermark then (s, .gap s.highWatermark)
  else ((s.maybeRotateBeforeAppend batch.encodedSize now).storeBatch batch, .appended)

/-! ## Looking up a segment -/

def findSegmentPair (offset : Nat) : SegmentPair :=
  if offset ≥ s.active.baseOffset ∨ s.historical = [] then s.active
  else
    match s.historical.reverse.find? (fun p => offset ≥ p.baseOffset) with
    | some p => p
    | none => s.historical.headD s.active

def modifyLast {α : Type} (found : α → Bool) (f : α → α) : List α → Option (List α)
  | [] => none
  | x :: xs =>
    match modifyLast found f xs with
    | some ys => some (x :: ys)
    | none => if found x then some (f x :: xs) else none

def modifySegmentPair (offset : Nat) (f : SegmentPair → SegmentPair) : SegmentManager :=
  if offset ≥ s.active.baseOffset ∨ s.historical = [] then { s with active := f s.active }
  else
    match modifyLast (fun p => offset ≥ p.baseOffset) f s.historical with
    | some historical => { s with historical }
    | none => { s with historical := s.historical.modifyHead f }

/-! ## Aborted ranges -/

def appendAbortedTxn (producerId : UInt64) (firstOffset lastOffset : Nat) : SegmentManager :=
  s.modifySegmentPair firstOffset (fun p =>
    { p with txnIndex := p.txnIndex ++ [{ producerId, firstOffset, lastOffset }] })

def abortedRanges : List (Nat × Nat) :=
  (s.segments.flatMap SegmentPair.txnIndex).map (fun e => (e.firstOffset, e.lastOffset))

def isOffsetAborted (offset : Nat) : Bool :=
  isAborted s.active.txnIndex offset || s.historical.any (fun p => isAborted p.txnIndex offset)

/-! ## Fetching -/

def entriesFrom : Nat → List RecordBatch → List RecordBatch
  | 0, log => log
  | _ + 1, [] => []
  | position + 1, b :: rest => entriesFrom (position + 1 - b.encodedSize) rest

def entriesWithin : Nat → List RecordBatch → List RecordBatch
  | _, [] => []
  | length, b :: rest =>
    if b.encodedSize ≤ length then b :: entriesWithin (length - b.encodedSize) rest else []

structure EntriesRange where
  physicalStart : Nat
  physicalLen : Nat

/-- The header walk of a fetch, from `cursor` on.  `firstIncluded` is where the
answer begins and `stop` where it ends so far. -/
def frameEntries (startOffset maxOffsetExclusive : Nat) :
    (budget cursor : Nat) → (firstIncluded : Option Nat) → (stop : Nat) →
      List RecordBatch → Option (Nat × Nat)
  | _, _, firstIncluded, stop, [] => firstIncluded.map (fun first => (first, stop))
  | budget, cursor, firstIncluded, stop, b :: rest =>
    let next := cursor + b.encodedSize
    if next > budget ∧ firstIncluded.isSome then firstIncluded.map (fun first => (first, stop))
    else
      -- nothing is included yet, so the budget is widened for this entry alone
      let budget := max budget next
      if b.lastOffset ≥ maxOffsetExclusive then firstIncluded.map (fun first => (first, stop))
      else if b.lastOffset ≥ startOffset then
        frameEntries startOffset maxOffsetExclusive budget next
          (some (firstIncluded.getD cursor)) next rest
      else frameEntries startOffset maxOffsetExclusive budget next firstIncluded stop rest

def seekPosition (p : SegmentPair) (startOffset : Nat) : Nat :=
  match findNearestPhysicalPos p.baseOffset p.index startOffset with
  | some e => e.physicalPosition
  | none => 0

def planEntriesRange (startOffset maxBytes maxOffsetExclusive : Nat) : Option EntriesRange :=
  let p := s.findSegmentPair startOffset
  let basePos := seekPosition p startOffset
  (frameEntries startOffset maxOffsetExclusive maxBytes 0 none 0
    (entriesFrom basePos p.log)).map (fun (first, stop) =>
      { physicalStart := basePos + first, physicalLen := stop - first })

/-- The stored entries that answer a fetch, as whole batches. -/
def fetchEntries (startOffset maxBytes maxOffsetExclusive : Nat) : List RecordBatch :=
  match s.planEntriesRange startOffset maxBytes maxOffsetExclusive with
  | none => []
  | some range =>
    entriesWithin range.physicalLen
      (entriesFrom range.physicalStart (s.findSegmentPair startOffset).log)

end SegmentManager

end Bifrox.Segment

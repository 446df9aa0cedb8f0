/-
Removal of closed segments (`apply_delete_retention` and `trim_before`), and the operations of a
log as one step function.
-/
import Bifrox.Segment.Compaction

namespace Bifrox.Segment

open Protocol

/-- The newest indexed timestamp, or the file time of a segment with no indexed batch. -/
def recordAgeMs (mtime : Nat → Nat) (p : SegmentPair) : Nat :=
  match TimeIndexEntry.maxTimestamp p.timeIndex with
  | some timestamp => timestamp
  | none => mtime p.baseOffset

def expiredByTime (config : EngineConfig) (now : Nat) (mtime : Nat → Nat) (p : SegmentPair) :
    Bool :=
  match config.retentionMillis with
  | some maxAgeMs => now > recordAgeMs mtime p && now - recordAgeMs mtime p > maxAgeMs
  | none => false

def aboveRetentionBytes (config : EngineConfig) (totalBytes : Nat) : Bool :=
  match config.retentionBytes with
  | some maxBytes => totalBytes > maxBytes
  | none => false

def totalSize (pairs : List SegmentPair) : Nat := (pairs.map SegmentPair.physicalSize).sum

/-- The loop over closed segments: those kept so far, then those still to be
looked at.  Returns the segments that remain and the base offsets unlinked. -/
def retentionLoop (config : EngineConfig) (now : Nat) (mtime : Nat → Nat) (activeSize : Nat) :
    (kept rest : List SegmentPair) → List SegmentPair × List Nat
  | kept, [] => (kept, [])
  | kept, p :: rest =>
    if expiredByTime config now mtime p ||
        aboveRetentionBytes config (totalSize kept + totalSize (p :: rest) + activeSize) then
      let (pairs, unlinked) := retentionLoop config now mtime activeSize kept rest
      (pairs, p.baseOffset :: unlinked)
    else retentionLoop config now mtime activeSize (kept ++ [p]) rest

def nextBaseOffset (activeBase : Nat) : List SegmentPair → Nat
  | q :: _ => q.baseOffset
  | [] => activeBase

/-- The loop of `trim_before`: a segment goes while its successor starts at or
below `offset`. -/
def trimLoop (offset activeBase : Nat) : List SegmentPair → List SegmentPair × List Nat
  | [] => ([], [])
  | p :: rest =>
    if nextBaseOffset activeBase rest > offset then (p :: rest, [])
    else
      let (pairs, unlinked) := trimLoop offset activeBase rest
      (pairs, p.baseOffset :: unlinked)

namespace SegmentManager

def applyDeleteRetention (s : SegmentManager) (now : Nat) (mtime : Nat → Nat) : SegmentManager :=
  let (pairs, unlinked) :=
    retentionLoop s.config now mtime s.active.physicalSize [] s.historical
  { s with historical := pairs }.unlinkBases unlinked

def trimBefore (s : SegmentManager) (offset : Nat) : SegmentManager :=
  let (pairs, unlinked) := trimLoop offset s.active.baseOffset s.historical
  { s with historical := pairs }.unlinkBases unlinked

end SegmentManager

/-- The operations of a log.  Clock readings and file times are inputs. -/
inductive Op where
  | append (batch : RecordBatch) (leaderEpoch : UInt32) (now : Nat)
  | appendVerbatim (batch : RecordBatch) (now : Nat)
  | rotate (now : Nat)
  | appendAbortedTxn (producerId : UInt64) (firstOffset lastOffset : Nat)
  | compact (now : Nat)
  | deleteRetention (now : Nat) (mtime : Nat → Nat)
  | trimBefore (offset : Nat)
  | reopen (now : Nat)

def step (c : Crates) (s : SegmentManager) : Op → SegmentManager
  | .append batch leaderEpoch now => (s.appendBatch c batch leaderEpoch now).1
  | .appendVerbatim batch now => (s.appendBatchVerbatim batch now).1
  | .rotate now => s.rotateSegment now
  | .appendAbortedTxn producerId firstOffset lastOffset =>
    s.appendAbortedTxn producerId firstOffset lastOffset
  | .compact now => (s.compactSegments c now).1
  | .deleteRetention now mtime => s.applyDeleteRetention now mtime
  | .trimBefore offset => s.trimBefore offset
  | .reopen now => s.reopen now

end Bifrox.Segment

/-
The three sparse indexes of a segment (`src/segment/{index,timeindex,txnindex}.rs`).

Positions are natural numbers.  The source refuses a position above `u32::MAX`,
and the configured segment size is capped at that limit.
-/
import Bifrox.Lib.Search
import Bifrox.Protocol.Batch

namespace Bifrox.Segment

open Protocol

structure IndexEntry where
  relativeOffset : Nat
  physicalPosition : Nat
deriving DecidableEq

/-- The offset column of the index, a `u32`. -/
def relativeTo (baseOffset offset : Nat) : Nat := (offset - baseOffset) % 2 ^ 32

def IndexEntry.at (baseOffset offset position : Nat) : IndexEntry :=
  { relativeOffset := relativeTo baseOffset offset, physicalPosition := position }

def findNearestPhysicalPos (baseOffset : Nat) (entries : List IndexEntry) (targetOffset : Nat) :
    Option IndexEntry :=
  let relTarget := relativeTo baseOffset targetOffset
  match Search.search (fun e => compare e.relativeOffset relTarget) entries with
  | .ok i => entries[i]?
  | .error 0 => entries.head?
  | .error (i + 1) => entries[i]?

/-- The entry a lookup returns is the first one or lies at or before the target
in the offset column. -/
theorem findNearestPhysicalPos_eq_some {baseOffset targetOffset : Nat} {entries : List IndexEntry}
    {e : IndexEntry} (h : findNearestPhysicalPos baseOffset entries targetOffset = some e) :
    e ∈ entries ∧ (entries.head? = some e ∨
      e.relativeOffset ≤ relativeTo baseOffset targetOffset) := by
  rw [findNearestPhysicalPos] at h
  split at h
  · rename_i i hok
    obtain ⟨x, hx, heq⟩ := Search.search_ok hok
    rw [hx] at h
    cases h
    refine ⟨List.mem_of_getElem? hx, .inr (le_of_eq ?_)⟩
    exact Nat.compare_eq_eq.mp heq
  · exact ⟨List.mem_of_mem_head? h, .inl h⟩
  · rename_i i herr
    obtain ⟨x, hx, hlt⟩ := Search.search_error_succ herr
    rw [hx] at h
    cases h
    refine ⟨List.mem_of_getElem? hx, .inr (le_of_lt ?_)⟩
    exact Nat.compare_eq_lt.mp hlt

/-! ## Building the offset index from a scan

Recovery and compaction walk the entries of a log and index the first one and
then one per `interval` bytes. -/

def scanIndex (baseOffset interval : Nat) :
    (position bytesSinceLastIndex : Nat) → (isFirst : Bool) → List RecordBatch → List IndexEntry
  | _, _, _, [] => []
  | position, bytesSince, isFirst, b :: rest =>
    if bytesSince ≥ interval ∨ isFirst then
      IndexEntry.at baseOffset b.baseOffset position ::
        scanIndex baseOffset interval (position + b.encodedSize) b.encodedSize false rest
    else
      scanIndex baseOffset interval (position + b.encodedSize) (bytesSince + b.encodedSize)
        false rest

def rebuildIndex (baseOffset interval : Nat) (log : List RecordBatch) : List IndexEntry :=
  scanIndex baseOffset interval 0 0 true log

/-! ## Time and transaction indexes -/

structure TimeIndexEntry where
  timestamp : Nat
  logicalOffset : Nat
deriving DecidableEq

/-- Append an entry, clamped so that the timestamp column never decreases. -/
def TimeIndexEntry.append (entries : List TimeIndexEntry) (timestamp logicalOffset : Nat) :
    List TimeIndexEntry :=
  let monotonicTimestamp := match entries.getLast? with
    | some last => max timestamp last.timestamp
    | none => timestamp
  entries ++ [{ timestamp := monotonicTimestamp, logicalOffset }]

def TimeIndexEntry.maxTimestamp (entries : List TimeIndexEntry) : Option Nat :=
  (entries.map TimeIndexEntry.timestamp).max?

structure TxnIndexEntry where
  producerId : UInt64
  firstOffset : Nat
  lastOffset : Nat
deriving DecidableEq

def TxnIndexEntry.covers (e : TxnIndexEntry) (offset : Nat) : Bool :=
  offset ≥ e.firstOffset && offset ≤ e.lastOffset

def isAborted (entries : List TxnIndexEntry) (offset : Nat) : Bool :=
  entries.any (fun e => e.covers offset)

end Bifrox.Segment

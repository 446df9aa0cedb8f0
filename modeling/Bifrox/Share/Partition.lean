/-
Share partitions (`src/server/share/partition.rs`).

Offsets are `Nat`.  The length of a batch is computed in 64 bits and wraps around for one
whose ends are the wrong way round, and the delivery count is a `UInt16`, which wraps
around too.  Times are nanoseconds; every call is given the clock that it reads.
-/
import Mathlib.Data.Char
import Mathlib.Data.List.Lex
import Mathlib.Data.Prod.Lex
import Bifrox.Lib.OrderedMap
import Bifrox.Lib.Text
import Bifrox.Segment.Compaction

namespace Bifrox.Share

open Segment (Record)

/-! ## State -/

inductive ShareRecordState where
  | available
  | acquired
  | acknowledged
  | archived
deriving DecidableEq

def ShareRecordState.isDone : ShareRecordState → Bool
  | .acknowledged | .archived => true
  | .available | .acquired => false

structure InFlightBatch where
  firstOffset : Nat
  lastOffset : Nat
  state : ShareRecordState
  acquiredBy : Option Text
  acquiredAt : Option Nat
  lockTimeout : Nat
  deliveryCount : UInt16

structure ExpiryTimer where
  expireAt : Nat
  firstOffset : Nat
  lastOffset : Nat
  memberId : Text

namespace ExpiryTimer

def fields (timer : ExpiryTimer) : Nat ×ₗ Nat ×ₗ Nat ×ₗ Text :=
  toLex (timer.expireAt, toLex (timer.firstOffset, toLex (timer.lastOffset, timer.memberId)))

theorem fields_injective : Function.Injective fields := by
  intro a b h
  cases a
  cases b
  simpa [fields] using h

instance : LinearOrder ExpiryTimer := LinearOrder.lift' fields fields_injective

end ExpiryTimer

abbrev Batches : Type := OrderedMap Nat InFlightBatch

abbrev Timers : Type := OrderedMap ExpiryTimer Unit

structure SharePartition where
  defaultLockTimeout : Nat
  maxDeliveryAttempts : UInt16
  startOffset : Nat
  nextFetchOffset : Nat
  batches : Batches
  timers : Timers
  stateVersion : Nat

structure AcquiredRecordInfo where
  offset : Nat
  deliveryCount : UInt16
  frame : Record

inductive AcknowledgeType where
  | accept
  | release
  | reject
  | renew
  | yield
deriving DecidableEq

structure AckBatch where
  firstOffset : Nat
  lastOffset : Nat
  ackType : AcknowledgeType

structure PersistedBatch where
  firstOffset : Nat
  lastOffset : Nat
  state : ShareRecordState
  deliveryCount : UInt16

/-- `PartitionManager::fetch` with the budget that a share partition gives it: the records
from an offset on, or an error. -/
abbrev Reader : Type := Nat → Option (List Record)

def offsets (first last : Nat) : List Nat := List.range' first (last + 1 - first)

namespace InFlightBatch

variable (batch : InFlightBatch)

def length : Nat :=
  if batch.firstOffset ≤ batch.lastOffset then batch.lastOffset - batch.firstOffset + 1
  else 2 ^ 64 + batch.lastOffset + 1 - batch.firstOffset

variable (first last : Nat)

/-- The same lease on a part of the batch. -/
def piece : InFlightBatch :=
  { batch with firstOffset := first, lastOffset := last }

def acquire (memberId : Text) (now timeout : Nat) : InFlightBatch :=
  { batch with
    state := .acquired
    acquiredBy := some memberId
    acquiredAt := some now
    lockTimeout := timeout
    deliveryCount := batch.deliveryCount + 1 }

/-- The timer of a lease, on a part of the batch. -/
def timerOn : Option ExpiryTimer :=
  match batch.acquiredAt, batch.acquiredBy with
  | some acquiredAt, some owner =>
    some
      { expireAt := acquiredAt + batch.lockTimeout
        firstOffset := first
        lastOffset := last
        memberId := owner }
  | _, _ => none

end InFlightBatch

def Timers.add (timers : Timers) : Option ExpiryTimer → Timers
  | some timer => timers.insert timer ()
  | none => timers

def Timers.cancel (timers : Timers) : Option ExpiryTimer → Timers
  | some timer => timers.erase timer
  | none => timers

def Batches.matchingKeys (batches : Batches) (first last : Nat) : List Nat :=
  batches.keysWhere fun key batch => key ≤ last && first ≤ batch.lastOffset

namespace SharePartition

/-! ## Opening -/

/-- `SharePartition::restore`.  A lease does not survive, a delivery count does. -/
def restore (defaultLockTimeout : Nat) (maxDeliveryAttempts : UInt16) (startOffset : Nat)
    (persisted : List PersistedBatch) : SharePartition where
  defaultLockTimeout := defaultLockTimeout
  maxDeliveryAttempts := maxDeliveryAttempts
  startOffset := startOffset
  nextFetchOffset := persisted.foldl (fun next batch => max next (batch.lastOffset + 1)) startOffset
  batches := persisted.foldl (fun batches batch => batches.insert batch.firstOffset
      { firstOffset := batch.firstOffset
        lastOffset := batch.lastOffset
        state := if batch.state = .acquired then .available else batch.state
        acquiredBy := none
        acquiredAt := none
        lockTimeout := defaultLockTimeout
        deliveryCount := batch.deliveryCount }) ∅
  timers := ∅
  stateVersion := 0

def new (defaultLockTimeout : Nat) (maxDeliveryAttempts : UInt16) (startOffset : Nat) :
    SharePartition :=
  restore defaultLockTimeout maxDeliveryAttempts startOffset []

variable (s : SharePartition)

def snapshot : Nat × List PersistedBatch :=
  (s.startOffset, s.batches.entries.map fun entry =>
    { firstOffset := entry.2.firstOffset
      lastOffset := entry.2.lastOffset
      state := entry.2.state
      deliveryCount := entry.2.deliveryCount })

/-- A broker that comes back, with the last state that was persisted. -/
def restart : SharePartition :=
  restore s.defaultLockTimeout s.maxDeliveryAttempts s.snapshot.1 s.snapshot.2

/-! ## The watermark -/

def watermarkStep (start : Nat) (entry : Nat × InFlightBatch) : Option Nat :=
  if entry.1 = start ∧ entry.2.state.isDone then some (entry.2.lastOffset + 1) else none

def advanceWatermark : SharePartition :=
  let popped := s.batches.popWhile watermarkStep s.startOffset
  { s with startOffset := popped.1, batches := popped.2 }

theorem mem_of_mem_advanceWatermark {s : SharePartition} {entry : Nat × InFlightBatch}
    (h : entry ∈ s.advanceWatermark.batches.entries) : entry ∈ s.batches.entries :=
  (OrderedMap.popEntries_suffix watermarkStep s.startOffset s.batches.entries).subset h

/-! ## Expiry -/

/-- What a sweep does to a batch whose lease has run out. -/
def lapse (maxDeliveryAttempts : UInt16) (batch : InFlightBatch) : InFlightBatch :=
  { batch with
    state := if maxDeliveryAttempts ≤ batch.deliveryCount then .archived else .available
    acquiredBy := none
    acquiredAt := none }

variable (now : Nat)

/-- The member still holds the batch, and its time is up. -/
def hasLapsed (memberId : Text) (batch : InFlightBatch) : Bool :=
  batch.state = .acquired && batch.acquiredBy = some memberId &&
    batch.acquiredAt.any fun acquiredAt => batch.lockTimeout ≤ now - acquiredAt

/-- Batches while they are acknowledged or swept. -/
structure Settling where
  batches : Batches
  timers : Timers
  dlqOffsets : List Nat
  mutated : Bool

def lapseKey (maxDeliveryAttempts : UInt16) (now : Nat) (memberId : Text) (w : Settling)
    (key : Nat) : Settling :=
  match w.batches.lookup key with
  | none => w
  | some batch =>
    if hasLapsed now memberId batch then
      { w with
        batches := (w.batches.erase key).insert key (lapse maxDeliveryAttempts batch)
        dlqOffsets :=
          if maxDeliveryAttempts ≤ batch.deliveryCount then
            w.dlqOffsets ++ offsets batch.firstOffset batch.lastOffset
          else w.dlqOffsets
        mutated := true }
    else w

/-- One timer that has run out. -/
def expire (maxDeliveryAttempts : UInt16) (now : Nat) (w : Settling) (timer : ExpiryTimer) :
    Settling :=
  (w.batches.matchingKeys timer.firstOffset timer.lastOffset).foldl
    (lapseKey maxDeliveryAttempts now timer.memberId) w

def timerStep (maxDeliveryAttempts : UInt16) (now : Nat) (w : Settling)
    (entry : ExpiryTimer × Unit) : Option Settling :=
  if now < entry.1.expireAt then none else some (expire maxDeliveryAttempts now w entry.1)

def settling : Settling where
  batches := s.batches
  timers := s.timers
  dlqOffsets := []
  mutated := false

/-- The timers that have run out are taken off one by one. -/
def sweepTimers : Settling :=
  let popped := s.timers.popWhile (timerStep s.maxDeliveryAttempts now) s.settling
  { popped.1 with timers := popped.2 }

/-- The partition after a call that has settled batches. -/
def settle (w : Settling) : SharePartition :=
  ({ s with
    batches := w.batches
    timers := w.timers
    stateVersion := if w.mutated then s.stateVersion + 1 else s.stateVersion } :
    SharePartition).advanceWatermark

def sweepTimersInternal : SharePartition × List Nat :=
  (s.settle (s.sweepTimers now), (s.sweepTimers now).dlqOffsets)

def checkLockTimeouts : SharePartition × List Nat :=
  s.sweepTimersInternal now

def shouldSweep : Bool :=
  s.timers.entries.head?.any fun entry => entry.1.expireAt ≤ now

/-- `sweep_timers_inline`.  The offsets for the dead letter queue are dropped. -/
def sweepTimersInline : SharePartition :=
  if s.shouldSweep now then (s.sweepTimersInternal now).1 else s

/-! ## Acquiring -/

structure AcquireRequest where
  memberId : Text
  maxRecords : Nat
  lockTimeout : Option Nat

structure Acquisition where
  batches : Batches
  acquiredInfos : List AcquiredRecordInfo
  newAcquiredRanges : List (Nat × Nat)

variable (fetch : Reader)

def deliver (batch : InFlightBatch) : List AcquiredRecordInfo :=
  (((fetch batch.firstOffset).getD []).filter fun frame =>
    batch.firstOffset ≤ frame.offset && frame.offset ≤ batch.lastOffset).map fun frame =>
      { offset := frame.offset, deliveryCount := batch.deliveryCount, frame := frame }

variable (memberId : Text)

/-- A batch that is available is acquired, or as much of it as is needed. -/
def acquireKey (maxRecords now timeout : Nat) (a : Acquisition) (key : Nat) : Acquisition :=
  if maxRecords ≤ a.acquiredInfos.length then a
  else
    match a.batches.lookup key with
    | none => a
    | some batch =>
      if batch.state ≠ .available then a
      else if batch.length ≤ maxRecords - a.acquiredInfos.length then
        let acquired := batch.acquire memberId now timeout
        { batches := (a.batches.erase key).insert acquired.firstOffset acquired
          acquiredInfos := a.acquiredInfos ++ deliver fetch acquired
          newAcquiredRanges :=
            a.newAcquiredRanges ++ [(acquired.firstOffset, acquired.lastOffset)] }
      else
        let splitOffset := batch.firstOffset + (maxRecords - a.acquiredInfos.length) - 1
        let acquired := (batch.piece batch.firstOffset splitOffset).acquire memberId now timeout
        let remainder := { batch.piece (splitOffset + 1) batch.lastOffset with
          state := .available
          acquiredBy := none
          acquiredAt := none }
        { batches := ((a.batches.erase key).insert acquired.firstOffset acquired).insert
            remainder.firstOffset remainder
          acquiredInfos := a.acquiredInfos ++ deliver fetch acquired
          newAcquiredRanges :=
            a.newAcquiredRanges ++ [(acquired.firstOffset, acquired.lastOffset)] }

/-- The batches that are available, taken in order. -/
def acquireAvailable (maxRecords now timeout : Nat) (batches : Batches) : Acquisition :=
  (batches.keysWhere fun _ batch => batch.state = .available).foldl
    (acquireKey fetch memberId maxRecords now timeout)
    { batches := batches, acquiredInfos := [], newAcquiredRanges := [] }

def freshFrames (nextFetchOffset needed : Nat) : List Record :=
  (((fetch nextFetchOffset).getD []).filter fun frame => nextFetchOffset ≤ frame.offset).take needed

def freshBatch (now timeout first last : Nat) : InFlightBatch where
  firstOffset := first
  lastOffset := last
  state := .acquired
  acquiredBy := some memberId
  acquiredAt := some now
  lockTimeout := timeout
  deliveryCount := 1

/-- Fresh offsets are read from the log when more records are needed. -/
def acquireFresh (maxRecords now timeout nextFetchOffset : Nat)
    (a : Acquisition) : Acquisition × Nat :=
  if a.acquiredInfos.length < maxRecords then
    let frames := freshFrames fetch nextFetchOffset (maxRecords - a.acquiredInfos.length)
    match frames.head?, frames.getLast? with
    | some first, some last =>
      ({ batches := a.batches.insert first.offset
          (freshBatch memberId now timeout first.offset last.offset)
         acquiredInfos := a.acquiredInfos ++ frames.map fun frame =>
          { offset := frame.offset, deliveryCount := 1, frame := frame }
         newAcquiredRanges := a.newAcquiredRanges ++ [(first.offset, last.offset)] },
        last.offset + 1)
    | _, _ => (a, nextFetchOffset)
  else (a, nextFetchOffset)

theorem acquireFresh_cases (maxRecords now timeout nextFetchOffset : Nat) (a : Acquisition) :
    acquireFresh fetch memberId maxRecords now timeout nextFetchOffset a = (a, nextFetchOffset) ∨
      ∃ frames first last,
        frames = freshFrames fetch nextFetchOffset (maxRecords - a.acquiredInfos.length) ∧
        frames.head? = some first ∧ frames.getLast? = some last ∧
        acquireFresh fetch memberId maxRecords now timeout nextFetchOffset a =
          ({ batches := a.batches.insert first.offset
              (freshBatch memberId now timeout first.offset last.offset)
             acquiredInfos := a.acquiredInfos ++ frames.map fun frame =>
              { offset := frame.offset, deliveryCount := 1, frame := frame }
             newAcquiredRanges := a.newAcquiredRanges ++ [(first.offset, last.offset)] },
            last.offset + 1) := by
  unfold acquireFresh
  by_cases hneeded : a.acquiredInfos.length < maxRecords
  · rw [if_pos hneeded]
    rcases hfirst : (freshFrames fetch nextFetchOffset
        (maxRecords - a.acquiredInfos.length)).head? with _ | first
    · exact .inl (by simp only [hfirst])
    · rcases hlast : (freshFrames fetch nextFetchOffset
          (maxRecords - a.acquiredInfos.length)).getLast? with _ | last
      · exact .inl (by simp only [hfirst, hlast])
      · exact .inr ⟨_, first, last, rfl, hfirst, hlast, by simp only [hfirst, hlast]⟩
  · rw [if_neg hneeded]
    exact .inl rfl

/-- What `acquire_records` does while it holds both locks. -/
def acquireLocked (request : AcquireRequest) (timeout now : Nat) (fetch : Reader) :
    SharePartition × List AcquiredRecordInfo :=
  let a := acquireAvailable fetch request.memberId request.maxRecords now timeout s.batches
  let fresh :=
    acquireFresh fetch request.memberId request.maxRecords now timeout s.nextFetchOffset a
  let ranges := fresh.1.newAcquiredRanges
  ({ s with
      nextFetchOffset := fresh.2
      batches := fresh.1.batches
      timers := ranges.foldl (fun timers range => timers.insert
          { expireAt := now + timeout
            firstOffset := range.1
            lastOffset := range.2
            memberId := request.memberId } ()) s.timers
      stateVersion := if ranges = [] then s.stateVersion else s.stateVersion + 1 },
    fresh.1.acquiredInfos)

def acquireRecords (request : AcquireRequest) (now : Nat) (fetch : Reader) :
    SharePartition × List AcquiredRecordInfo :=
  if request.maxRecords = 0 then (s, [])
  else
    let timeout := request.lockTimeout.getD s.defaultLockTimeout
    (s.sweepTimersInline now).acquireLocked request timeout now fetch

/-! ## Acknowledging -/

/-- The state that an acknowledgement leads to. -/
def ackState (maxDeliveryAttempts : UInt16) (batch : InFlightBatch) :
    AcknowledgeType → ShareRecordState
  | .accept => .acknowledged
  | .release => if maxDeliveryAttempts ≤ batch.deliveryCount then .archived else .available
  | .reject => .archived
  | .renew => .acquired
  | .yield => .available

/-- The delivery count after an acknowledgement: a batch that is handed back counts one
delivery less (`saturating_sub`). -/
def ackCount (batch : InFlightBatch) : AcknowledgeType → UInt16
  | .yield => if batch.deliveryCount = 0 then 0 else batch.deliveryCount - 1
  | .accept | .release | .reject | .renew => batch.deliveryCount

def acked (maxDeliveryAttempts : UInt16) (memberId : Text) (now : Nat) (ackType : AcknowledgeType)
    (batch : InFlightBatch) (first last : Nat) : InFlightBatch :=
  let state := ackState maxDeliveryAttempts batch ackType
  { firstOffset := first
    lastOffset := last
    state := state
    acquiredBy := if state = .acquired then some memberId else none
    acquiredAt := if state = .acquired then some now else none
    lockTimeout := batch.lockTimeout
    deliveryCount := ackCount batch ackType }

def isHeldBy (batch : InFlightBatch) : Bool :=
  batch.state = .acquired && batch.acquiredBy = some memberId

/-- The batch of a key is cut in up to three parts, and the middle one acknowledged. -/
def ackKey (maxDeliveryAttempts : UInt16) (memberId : Text) (now : Nat) (ack : AckBatch)
    (w : Settling) (key : Nat) : Settling :=
  match w.batches.lookup key with
  | none => w
  | some batch =>
    if isHeldBy memberId batch then
      let first := max batch.firstOffset ack.firstOffset
      let last := min batch.lastOffset ack.lastOffset
      let middle := acked maxDeliveryAttempts memberId now ack.ackType batch first last
      let hasLeft : Bool := batch.firstOffset < first
      let hasRight : Bool := last < batch.lastOffset
      -- left, middle, right, in this order: a later part replaces one with the same key
      let batches := w.batches.erase key
      let batches := if hasLeft then
        batches.insert batch.firstOffset (batch.piece batch.firstOffset (first - 1)) else batches
      let batches := batches.insert first middle
      let batches := if hasRight then
        batches.insert (last + 1) (batch.piece (last + 1) batch.lastOffset) else batches
      let timers := w.timers.cancel (batch.timerOn batch.firstOffset batch.lastOffset)
      let timers := if hasLeft then
        timers.add (batch.timerOn batch.firstOffset (first - 1)) else timers
      let timers := if ack.ackType = .renew then
        timers.add (some
          { expireAt := now + batch.lockTimeout
            firstOffset := first
            lastOffset := last
            memberId := memberId }) else timers
      let timers := if hasRight then
        timers.add (batch.timerOn (last + 1) batch.lastOffset) else timers
      { batches := batches
        timers := timers
        dlqOffsets :=
          if middle.state = .archived then w.dlqOffsets ++ offsets first last else w.dlqOffsets
        mutated := true }
    else w

def ackRange (maxDeliveryAttempts : UInt16) (memberId : Text) (now : Nat) (w : Settling)
    (ack : AckBatch) : Settling :=
  (w.batches.matchingKeys ack.firstOffset ack.lastOffset).foldl
    (ackKey maxDeliveryAttempts memberId now ack) w

def ackRanges (acks : List AckBatch) (now : Nat) : Settling :=
  acks.foldl (ackRange s.maxDeliveryAttempts memberId now) s.settling

def acknowledge (acks : List AckBatch) (now : Nat) : SharePartition × List Nat :=
  (s.settle (s.ackRanges memberId acks now), (s.ackRanges memberId acks now).dlqOffsets)

end SharePartition

/-! ## Calls -/

open SharePartition

inductive ShareCall where
  | acquire (request : AcquireRequest) (now : Nat) (fetch : Reader)
  | acknowledge (memberId : Text) (acks : List AckBatch) (now : Nat)
  | checkLockTimeouts (now : Nat)

namespace SharePartition

variable (s : SharePartition)

def serve : ShareCall → SharePartition
  | .acquire request now fetch => (s.acquireRecords request now fetch).1
  | .acknowledge memberId acks now => (s.acknowledge memberId acks now).1
  | .checkLockTimeouts now => (s.checkLockTimeouts now).1

def handedOut : ShareCall → List AcquiredRecordInfo
  | .acquire request now fetch => (s.acquireRecords request now fetch).2
  | .acknowledge _ _ _ | .checkLockTimeouts _ => []

def deadLetters : ShareCall → List Nat
  | .acquire _ _ _ => []
  | .acknowledge memberId acks now => (s.acknowledge memberId acks now).2
  | .checkLockTimeouts now => (s.checkLockTimeouts now).2

end SharePartition

/-- A log that has a record at each of the offsets. -/
def logOf (offsets : List Nat) : Reader := fun start =>
  some ((offsets.filter fun offset => start ≤ offset).map fun offset =>
    { offset := offset, timestamp := 0, key := none, value := none, isControl := false })

def ask (memberId : Text) (maxRecords : Nat) : AcquireRequest where
  memberId := memberId
  maxRecords := maxRecords
  lockTimeout := none

end Bifrox.Share

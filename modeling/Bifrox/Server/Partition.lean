/-
A partition: its log, the idempotence state of its producers, and what of both
is on disk.

`PartitionManager::open` reads back both and does not compare them.  Sequence numbers are `i32` and
wrap.
-/
import Bifrox.Segment.Layout

namespace Bifrox.Server

open Protocol Segment BigEndian

/-! ## Idempotent producers -/

structure ProducerStateEntry where
  epoch : Int16
  lastSequence : Int32
  lastOffset : Nat
deriving DecidableEq

abbrev ProducerStates : Type := UInt64 → Option ProducerStateEntry

/-- `base_sequence.wrapping_add(record_count as i32 - 1)`, or nothing when the
subtraction overflows. -/
def lastSequence (b : RecordBatch) : Option Int32 :=
  if b.recordCount.toInt32 = Int32.minValue then none
  else some (b.baseSequence + (b.recordCount.toInt32 - 1))

namespace ProducerStates

variable (states : ProducerStates)

/-- Whether a batch is the next one of its producer.  The error says whether it
is a duplicate, and of which last offset. -/
def validateSequence (producerId : UInt64) (epoch : Int16)
    (baseSequence : Int32) : Except (Bool × Nat) Unit :=
  match states producerId with
  | some entry =>
    if epoch < entry.epoch then .error (false, 0)
    else if epoch = entry.epoch then
      if baseSequence ≤ entry.lastSequence then .error (true, entry.lastOffset)
      -- nothing exceeds the greatest sequence, so this sum does not overflow
      else if baseSequence > entry.lastSequence + 1 then .error (false, 0)
      else .ok ()
    else .ok ()
  | none => .ok ()

def update (producerId : UInt64) (entry : ProducerStateEntry) : ProducerStates :=
  Function.update states producerId (some entry)

/-- The states after a batch was stored.  Only a non-zero producer id is
tracked. -/
def record (stored : RecordBatch) : Option ProducerStates :=
  if stored.producerId ≠ 0 then
    (lastSequence stored).map (fun lastSequence => states.update stored.producerId
      { epoch := stored.producerEpoch, lastSequence, lastOffset := stored.lastOffset })
  else some states

def empty : ProducerStates := fun _ => none

end ProducerStates

/-! ## The partition -/

inductive FlushPolicy where
  | syncEveryBatch
  | asyncPeriodic (maxBytes : Nat)
  | unbufferedSync

structure PartitionManager where
  log : SegmentManager
  states : ProducerStates
  snapshot : ProducerStates
  /-- How many entries of the active segment are on disk. -/
  synced : Nat
  unsyncedBytes : Nat
  committedHw : Nat
  leaderEpoch : UInt32
  flushPolicy : FlushPolicy

inductive ProduceResult where
  | stored (batch : RecordBatch)
  | duplicate (lastOffset : Nat)
  | outOfOrder
  | panicked
deriving DecidableEq

namespace PartitionManager

variable (pm : PartitionManager)

def logEndOffset : Nat := pm.log.highWatermark

/-! ### Reaching the disk -/

def syncLog : PartitionManager :=
  { pm with synced := pm.log.active.log.length }

def flushDurable : PartitionManager :=
  { pm.syncLog with unsyncedBytes := 0 }

def flushIfSyncPolicy : PartitionManager :=
  match pm.flushPolicy with
  | .asyncPeriodic _ => pm
  | .syncEveryBatch | .unbufferedSync => pm.flushDurable

def takeSnapshot : PartitionManager := { pm with snapshot := pm.states }

def flush : PartitionManager := pm.flushDurable.takeSnapshot

/-- The log is synced before the checkpoint that promises it is committed. -/
def advanceCommittedHw (candidate : Nat) : PartitionManager :=
  let candidate := min candidate pm.logEndOffset
  if candidate ≤ pm.committedHw then pm else { pm.syncLog with committedHw := candidate }

/-- Count appended bytes, and sync when the periodic policy's threshold is
reached. -/
def countUnsynced (size : Nat) : PartitionManager :=
  match pm.flushPolicy with
  | .asyncPeriodic maxBytes =>
    if maxBytes > 0 ∧ pm.unsyncedBytes + size ≥ maxBytes then pm.flushDurable
    else { pm with unsyncedBytes := pm.unsyncedBytes + size }
  | _ => { pm with unsyncedBytes := pm.unsyncedBytes + size }

/-! ### Appending -/

/-- Put a longer log in place.  A segment is synced when it is closed, so after
a roll the entries not on disk are those of the new segment. -/
def withLog (frameSize now : Nat) (log : SegmentManager) : PartitionManager :=
  { pm with
    log
    synced := if pm.log.rollsBeforeAppend frameSize now then 0 else pm.synced }

variable (c : Crates)

def appendBatch (pm : PartitionManager) (batch : RecordBatch) (leaderEpoch : UInt32)
    (now : Nat) : PartitionManager × RecordBatch :=
  let (log, stored) := pm.log.appendBatch c batch leaderEpoch now
  (pm.withLog stored.encodedSize now log, stored)

def snapshotIfRolled (baseBefore : Nat) : PartitionManager :=
  if baseBefore ≠ pm.log.active.baseOffset then pm.takeSnapshot else pm

/-- `produce_batch_eos` after the check of the sequence number. -/
def storeBatch (pm : PartitionManager) (batch : RecordBatch) (now : Nat) :
    PartitionManager × ProduceResult :=
  let baseBefore := pm.log.active.baseOffset
  let (pm, stored) := pm.appendBatch c batch pm.leaderEpoch now
  match pm.states.record stored with
  | none => (pm, .panicked)
  | some states =>
    (({ pm with states }.snapshotIfRolled baseBefore).countUnsynced stored.encodedSize,
      .stored stored)

def produceBatchEos (pm : PartitionManager) (batch : RecordBatch) (now : Nat) :
    PartitionManager × ProduceResult :=
  if batch.producerId ≠ 0 then
    match pm.states.validateSequence batch.producerId batch.producerEpoch batch.baseSequence with
    | .error (true, lastOffset) => (pm, .duplicate lastOffset)
    | .error (false, _) => (pm, .outOfOrder)
    | .ok () => pm.storeBatch c batch now
  else pm.storeBatch c batch now

def ctrlCommit : UInt8 := 1

def ctrlAbort : UInt8 := 2

def controlMarker (controlType : UInt8) (producerId : UInt64) (transactionId : Bytes)
    (timestamp : UInt64) : RecordBatch :=
  let value := controlType :: put 8 producerId.toNat ++ put 2 transactionId.length ++ transactionId
  (RecordBatch.create c 0 timestamp 0 producerId 0 0 true .none
    [(timestamp, none, some value)]).setControl c

def produceControlMarker (pm : PartitionManager) (controlType : UInt8)
    (producerId : UInt64) (transactionId : Bytes) (timestamp : UInt64) (now : Nat) :
    PartitionManager × RecordBatch :=
  let (pm, marker) :=
    pm.appendBatch c (controlMarker c controlType producerId transactionId timestamp) 0 now
  (pm.advanceCommittedHw (marker.baseOffset + 1), marker)

def appendAbortedTxn (producerId : UInt64) (firstOffset lastOffset : Nat) : PartitionManager :=
  { pm with log := pm.log.appendAbortedTxn producerId firstOffset lastOffset }

/-- Entries fetched from a leader go into the log as they are.  The states of
their producers are not touched. -/
def appendReplicaEntriesVerbatim (pm : PartitionManager) :
    List (RecordBatch × Nat) → PartitionManager
  | [] => pm
  | (batch, now) :: rest =>
    match pm.log.appendBatchVerbatim batch now with
    | (log, .appended) =>
      let pm := pm.withLog batch.encodedSize now log
      { pm with unsyncedBytes := pm.unsyncedBytes + batch.encodedSize }.appendReplicaEntriesVerbatim
        rest
    | (_, .alreadyApplied) => pm.appendReplicaEntriesVerbatim rest
    | (_, .gap _) => pm

def fetchEntries (startOffset maxBytes : Nat) : List RecordBatch :=
  pm.log.fetchEntries startOffset maxBytes pm.committedHw

/-! ### Opening -/

/-- `PartitionManager::open` on a directory with these segments, checkpoint and
snapshot. -/
def openDir (config : EngineConfig) (flushPolicy : FlushPolicy) (files : List SegmentPair)
    (checkpoint : Option Nat) (snapshot : ProducerStates) (now : Nat) :
    Except String PartitionManager :=
  let log := SegmentManager.openDir config files now
  let opened (committedHw : Nat) : PartitionManager :=
    { log, states := snapshot, snapshot, synced := log.active.log.length, unsyncedBytes := 0,
      committedHw, leaderEpoch := 0, flushPolicy }
  match checkpoint with
  | some value =>
    if value > log.highWatermark then .error "commit checkpoint exceeds recovered log"
    else .ok (opened value)
  | none =>
    if log.highWatermark > 0 then
      .error "legacy log lacks committed.offset; restore a verified commit checkpoint before opening"
    else .ok (opened 0)

def create (config : EngineConfig) (flushPolicy : FlushPolicy) (now : Nat) : PartitionManager :=
  { log := SegmentManager.create config now, states := .empty, snapshot := .empty, synced := 0,
    unsyncedBytes := 0, committedHw := 0, leaderEpoch := 0, flushPolicy }

/-- The segments on disk at a crash: entries that were not synced are lost. -/
def durableSegments : List SegmentPair :=
  pm.log.historical ++ [{ pm.log.active with log := pm.log.active.log.take pm.synced }]

/-- A crash, followed by a start on what is on disk. -/
def crash (now : Nat) : Except String PartitionManager :=
  openDir pm.log.config pm.flushPolicy (SegmentManager.onDisk pm.durableSegments)
    (some pm.committedHw) pm.snapshot now

end PartitionManager

/-! ## What the operations change -/

section Operations

variable {c : Crates} {pm : PartitionManager} {batch : RecordBatch} {now : Nat}
  {producerId : UInt64}

theorem countUnsynced_keeps {size : Nat} :
    (pm.countUnsynced size).states = pm.states ∧ (pm.countUnsynced size).log = pm.log ∧
      (pm.countUnsynced size).snapshot = pm.snapshot := by
  rw [PartitionManager.countUnsynced]
  split
  · split <;> exact ⟨rfl, rfl, rfl⟩
  · exact ⟨rfl, rfl, rfl⟩

theorem snapshotIfRolled_keeps {baseBefore : Nat} :
    let pm' := pm.snapshotIfRolled baseBefore
    pm'.states = pm.states ∧ pm'.log = pm.log ∧
      (pm'.snapshot = pm.snapshot ∨ pm'.snapshot = pm.states) := by
  rw [PartitionManager.snapshotIfRolled]
  split
  · exact ⟨rfl, rfl, .inr rfl⟩
  · exact ⟨rfl, rfl, .inl rfl⟩

def storedBatch (c : Crates) (pm : PartitionManager) (batch : RecordBatch) : RecordBatch :=
  batch.assignBaseOffsetAndLeaderEpoch c pm.logEndOffset pm.leaderEpoch

theorem storeBatch_cases (c : Crates) (pm : PartitionManager) (batch : RecordBatch) (now : Nat) :
    let r := pm.storeBatch c batch now
    (pm.states.record (storedBatch c pm batch) = none ∧ r.2 = .panicked ∧ r.1.states = pm.states) ∨
      ∃ states, pm.states.record (storedBatch c pm batch) = some states ∧
      r.2 = .stored (storedBatch c pm batch) ∧ r.1.states = states := by
  have hrecord : (pm.appendBatch c batch pm.leaderEpoch now).1.states.record
      (pm.appendBatch c batch pm.leaderEpoch now).2 =
        pm.states.record (storedBatch c pm batch) := rfl
  rw [PartitionManager.storeBatch]
  simp only [hrecord]
  cases pm.states.record (storedBatch c pm batch) with
  | none => exact .inl ⟨rfl, rfl, rfl⟩
  | some states =>
    refine .inr ⟨states, rfl, rfl, ?_⟩
    show (PartitionManager.countUnsynced _ _).states = states
    rw [countUnsynced_keeps.1, snapshotIfRolled_keeps.1]

theorem produceBatchEos_of_ok
    (hok : pm.states.validateSequence batch.producerId batch.producerEpoch batch.baseSequence =
      .ok ()) : pm.produceBatchEos c batch now = pm.storeBatch c batch now := by
  rw [PartitionManager.produceBatchEos, hok]
  exact ite_self _

theorem produceBatchEos_of_error (c : Crates) (now : Nat) (hpid : batch.producerId ≠ 0)
    {isDuplicate : Bool} {lastOffset : Nat}
    (herr : pm.states.validateSequence batch.producerId batch.producerEpoch batch.baseSequence =
      .error (isDuplicate, lastOffset)) :
    pm.produceBatchEos c batch now =
      (pm, if isDuplicate then .duplicate lastOffset else .outOfOrder) := by
  rw [PartitionManager.produceBatchEos, if_pos hpid, herr]
  cases isDuplicate with
  | true => rfl
  | false => rfl

theorem storeBatch_states_other (hne : batch.producerId ≠ producerId) :
    (pm.storeBatch c batch now).1.states producerId = pm.states producerId := by
  rcases storeBatch_cases c pm batch now with ⟨-, -, hstates⟩ | ⟨states, hrecord, -, hstates⟩
  · rw [hstates]
  · rw [hstates]
    rw [ProducerStates.record] at hrecord
    split at hrecord
    · obtain ⟨seq, -, rfl⟩ := Option.map_eq_some_iff.mp hrecord
      exact Function.update_of_ne hne.symm _ _
    · cases hrecord
      rfl

def refusal (e : Bool × Nat) : ProduceResult := if e.1 then .duplicate e.2 else .outOfOrder

theorem produceBatchEos_cases (c : Crates) (pm : PartitionManager) (batch : RecordBatch)
    (now : Nat) :
    (batch.producerId ≠ 0 ∧ ∃ e, pm.states.validateSequence batch.producerId batch.producerEpoch
      batch.baseSequence = .error e ∧ pm.produceBatchEos c batch now = (pm, refusal e)) ∨
    ((batch.producerId ≠ 0 → pm.states.validateSequence batch.producerId batch.producerEpoch
      batch.baseSequence = .ok ()) ∧
      pm.produceBatchEos c batch now = pm.storeBatch c batch now) := by
  by_cases hid : batch.producerId ≠ 0
  · cases hval : pm.states.validateSequence batch.producerId batch.producerEpoch
        batch.baseSequence with
    | ok _ => exact .inr ⟨fun _ => rfl, produceBatchEos_of_ok hval⟩
    | error e => exact .inl ⟨hid, e, rfl, produceBatchEos_of_error c now hid hval⟩
  · refine .inr ⟨fun hne => absurd hne hid, ?_⟩
    rw [PartitionManager.produceBatchEos, if_neg hid]

theorem produceBatchEos_states_other (hne : batch.producerId ≠ producerId) :
    (pm.produceBatchEos c batch now).1.states producerId = pm.states producerId := by
  rcases produceBatchEos_cases c pm batch now with ⟨-, e, -, heq⟩ | ⟨-, heq⟩ <;> rw [heq]
  exact storeBatch_states_other hne

theorem advanceCommittedHw_log (pm : PartitionManager) (candidate : Nat) :
    (pm.advanceCommittedHw candidate).log = pm.log ∧
      (pm.advanceCommittedHw candidate).states = pm.states := by
  rw [PartitionManager.advanceCommittedHw]
  split <;> exact ⟨rfl, rfl⟩

theorem flushIfSyncPolicy_log (pm : PartitionManager) :
    pm.flushIfSyncPolicy.log = pm.log ∧ pm.flushIfSyncPolicy.states = pm.states := by
  rw [PartitionManager.flushIfSyncPolicy]
  split
  · exact ⟨rfl, rfl⟩
  · exact ⟨rfl, rfl⟩
  · exact ⟨rfl, rfl⟩

theorem storeBatch_log :
    (pm.storeBatch c batch now).1.log = (pm.log.appendBatch c batch pm.leaderEpoch now).1 := by
  rw [PartitionManager.storeBatch]
  simp only
  split
  · rfl
  · rw [countUnsynced_keeps.2.1, snapshotIfRolled_keeps.2.1]
    rfl

theorem storeBatch_logEndOffset (c : Crates) (pm : PartitionManager) (batch : RecordBatch)
    (now : Nat) : (pm.storeBatch c batch now).1.logEndOffset =
      (storedBatch c pm batch).lastOffset + 1 := by
  rw [PartitionManager.logEndOffset, storeBatch_log]
  rfl

theorem logEndOffset_le_storedBatch (c : Crates) (pm : PartitionManager) (batch : RecordBatch) :
    pm.logEndOffset ≤ (storedBatch c pm batch).lastOffset :=
  base_le_lastOffset (storedBatch c pm batch)

end Operations

end Bifrox.Server

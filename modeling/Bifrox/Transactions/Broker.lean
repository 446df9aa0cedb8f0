/-
Transactions on a broker without peers (`src/server/engine.rs`, `src/server/transaction.rs`).

A durable write can fail before or after its record is in the log.  Every operation holds one lock,
so operations are single steps; a crash inside of one is a failure that is followed by a restart.
A transaction instance is known by its id and by a number that is new whenever a state is made for
an id without one.
-/
import Bifrox.Lib.Attempt
import Bifrox.Transactions.Registrations

namespace Bifrox.Transactions

open Function Attempt
open Attempt (ensure demand)
open Metadata (Broker PartitionRange Short TransactionState TxStateRecord decodeTxStateRecord)
open Server (ProduceError TopicError TxStatus validateClientTopicName)

/-! ## Logs -/

/-- How much of a log a crash leaves: all that is on disk, and possibly more. -/
def keep (durable length wanted : Nat) : Nat := max durable (min wanted length)

/-- A record of the state log, with the number of its instance. -/
structure StateEntry where
  record : TxStateRecord
  origin : Nat

namespace StateEntry

def id (e : StateEntry) : Text := e.record.transactionId

def keyed (e : StateEntry) : Text × StateEntry := (e.id, e)

/-- What a replay makes of the record.  Records that it cannot decode are passed by. -/
def read (e : StateEntry) : Option (Text × StateEntry) :=
  (decodeTxStateRecord e.record.encode).map fun record => keyed { e with record }

/-- What the record takes up: a batch of one record without a key, not compressed. -/
def size (e : StateEntry) : Nat := 73 + e.record.encode.length

end StateEntry

/-- The watermark is the one on disk. -/
structure StateLog where
  entries : List StateEntry
  durable : Nat
  highWatermark : Nat

namespace StateLog

variable (log : StateLog)

def append (e : StateEntry) : StateLog :=
  { log with entries := log.entries ++ [e] }

def checkpoint : StateLog :=
  { log with durable := log.entries.length, highWatermark := log.entries.length }

def write (e : StateEntry) : Write → StateLog
  | .lost => log
  | .appended => log.append e
  | .checkpointed | .completed => (log.append e).checkpoint

def crash (wanted : Nat) : StateLog :=
  let kept := keep log.durable log.entries.length wanted
  { log with entries := log.entries.take kept, durable := kept }

/-- Whether a fetch of one MiB at the offset returns the record there.  It reads from the place
that the index gives for the offset on, and at least the record at that place. -/
def isRead (seeks : Nat → Nat) (offset : Nat) : Bool :=
  let read := (log.entries.take (offset + 1)).drop (seeks offset)
  (read.map StateEntry.size).sum ≤ max (1024 * 1024) ((read.head?.map StateEntry.size).getD 0)

/-- How far the replay gets: it ends with a fetch that returns nothing. -/
def reached (seeks : Nat → Nat) : Nat :=
  ((List.range log.highWatermark).takeWhile (log.isRead seeks)).length

/-- The last record of each transaction among those that the replay has reached. -/
def latestStates (reached : Nat) : Table Text StateEntry :=
  .ofList ((log.entries.take reached).filterMap StateEntry.read)

end StateLog

structure ControlMarker where
  decision : Decision
  producerId : UInt64
  transactionId : Text
  origin : Nat
deriving DecidableEq

inductive DataEntry where
  | record (producerId : UInt64)
  | marker (m : ControlMarker)

structure DataLog where
  entries : List DataEntry
  durable : Nat

namespace DataLog

def append (log : DataLog) (new : List DataEntry) : DataLog :=
  { log with entries := log.entries ++ new }

def write (log : DataLog) (e : DataEntry) : Write → DataLog
  | .lost => log
  | .appended => log.append [e]
  | .checkpointed | .completed =>
    { log.append [e] with durable := (log.append [e]).entries.length }

def crash (log : DataLog) (wanted : Nat) : DataLog :=
  let kept := keep log.durable log.entries.length wanted
  { entries := log.entries.take kept, durable := kept }

end DataLog

variable (data : Text → UInt32 → DataLog)

def putLog (topic : Text) (partition : UInt32) (log : DataLog) : Text → UInt32 → DataLog :=
  update data topic (update (data topic) partition log)

theorem putLog_self (topic : Text) (partition : UInt32)
    (log : DataLog) : putLog data topic partition log topic partition = log := by
  rw [putLog, update_self, update_self]

theorem putLog_cases (topic : Text) (partition : UInt32)
    (log : DataLog) (topic' : Text) (partition' : UInt32) :
    (topic' = topic ∧ partition' = partition) ∨
      putLog data topic partition log topic' partition' = data topic' partition' := by
  by_cases ht : topic' = topic
  · subst ht
    rw [putLog, update_self]
    by_cases hp : partition' = partition
    · exact .inl ⟨rfl, hp⟩
    · exact .inr (update_of_ne hp _ _)
  · rw [putLog, update_of_ne ht]
    exact .inr rfl

/-! ## The broker -/

structure Running where
  state : TransactionState
  origin : Nat

namespace Running

def record (r : Running) : TxStateRecord := r.state.record

def status (r : Running) : TxStatus := r.record.status

def entry (r : Running) : StateEntry := ⟨r.record, r.origin⟩

end Running

/-- A first offset that holds the last stable offset of a partition back. -/
structure Pin where
  topic : Text
  partition : UInt32
  firstOffset : UInt64
  transactionId : Text
deriving DecidableEq

structure TxBroker where
  producers : ProducerBroker
  transactions : Table Text Running
  lsoIndex : List Pin
  stateLog : StateLog
  data : Text → UInt32 → DataLog
  origins : Nat
  /-- The states that completed operations have put in memory. -/
  seen : List StateEntry
  received : List ControlMarker

inductive TxFailure where
  | transaction (error : TxError)
  | topic (error : TopicError)
  | refused (error : ProduceError)
  | storage
  /-- The assertion of `write_pascal_string`. -/
  | panicked
  | producerIdRequired
  | notActive (id : Text)
  | inactiveOrMismatch
  | uncertain
  | unresolvedTail

/-- How the append of a batch ends. -/
inductive Append where
  | failed
  | unsynced
  | stored
  | duplicate (lastOffset : Nat)

/-- How the writes of the end of a transaction end. -/
structure EndWrites where
  prepare : Write
  markers : List Write
  terminal : Write

structure TxBatch where
  id : Text
  topic : Text
  partition : UInt32
  producerId : UInt64
  producerEpoch : Int16
  recordCount : Nat

/-- What a crash leaves of the logs beyond what is on disk, and the record of the state log at
which a fetch for each offset starts to read. -/
structure Crash where
  metadata : Nat
  opened : Finset (Text × UInt32)
  state : Nat
  seeks : Nat → Nat
  data : Text → UInt32 → Nat
  now : UInt64

inductive TxEvent where
  | beginTransaction (id : Text) (producerId now : UInt64) (write : Write)
  | addPartitionsToTxn (id : Text) (producerId : UInt64) (producerEpoch : Int16)
    (topics : List (Text × List UInt32)) (now : UInt64) (write : Write)
  | produceBatch (batch : TxBatch) (refusal : Option ProduceError) (first : Write)
    (append : Append) (second : Write)
  | commitTransaction (id : Text) (writes : EndWrites)
  | abortTransaction (id : Text) (writes : EndWrites)
  | endTransaction (id : Text) (producerId : UInt64) (producerEpoch : Int16) (committed : Bool)
    (writes : EndWrites)
  | initProducerId (id : Text) (writes : EndWrites) (write : Write)
  | initProducerIdCoordinated (id : Text) (writes : EndWrites) (write : Write)
  | sweep (id : Text) (status : Option TxStatus) (writes : EndWrites)
  | restart (c : Crash)

namespace TxBroker

abbrev Attempt := EStateM TxFailure TxBroker

section State

variable (s : TxBroker) (id : Text)

def state : Option TransactionState := (s.transactions.lookup id).map Running.state

def getStatus : Option TxStatus := (s.state id).map fun state => state.record.status

def isOngoing : Bool := (s.getStatus id).any fun status => !isTerminal status

def pinLso (pins : List Pin) (range : PartitionRange) : List Pin :=
  if range.startOffset = noOffset then pins
  else pins.insert ⟨range.topic, range.partition, range.startOffset, id⟩

def retireFromLsoIndex (ranges : List PartitionRange) (pins : List Pin) : List Pin :=
  pins.filter fun pin => !(ranges.any fun range =>
    pin = ⟨range.topic, range.partition, range.startOffset, id⟩)

/-- The number of the instance of an id. -/
def originOf : Nat := ((s.transactions.lookup id).map Running.origin).getD s.origins

def countOrigin (origin : Nat) : TxBroker := { s with origins := max s.origins (origin + 1) }

def writeState (e : StateEntry) (write : Write) : TxBroker :=
  { s with stateLog := s.stateLog.write e write }

/-- The last part of `transition`. -/
def install (r : Running) : TxBroker :=
  { s with
    transactions := s.transactions.insert id r
    lsoIndex := r.record.partitions.foldl (pinLso id) s.lsoIndex
    seen := r.entry :: s.seen }

def writeMarker (topic : Text) (partition : UInt32) (m : ControlMarker) (write : Write) :
    TxBroker :=
  { s with
    data := putLog s.data topic partition ((s.data topic partition).write (.marker m) write)
    received := if write = .lost then s.received else m :: s.received }

def appendRecords (batch : TxBatch) : TxBroker :=
  { s with
    data := putLog s.data batch.topic batch.partition ((s.data batch.topic batch.partition).append
        -- a batch without records takes an offset
        (List.replicate (max batch.recordCount 1) (.record batch.producerId))) }

/-- The end offsets that the markers of a transaction have. -/
abbrev EndOffsets := List (Text × UInt32 × UInt64)

def completeWithStatus (r : Running) (status : TxStatus) (ends : EndOffsets) : TxBroker :=
  let partitions := ends.foldl (fun ranges entry => ranges.map fun range =>
    if isFor entry.1 entry.2.1 range then { range with endOffset := entry.2.2 } else range)
    r.record.partitions
  { s with
    transactions := s.transactions.insert id
      { r with state := { r.state with record := { r.record with status, partitions } } }
    lsoIndex := retireFromLsoIndex id r.record.partitions s.lsoIndex }

def cleanup : TxBroker :=
  if (s.transactions.lookup id).any fun r => isTerminal r.status then
    { s with transactions := s.transactions.erase id }
  else s

end State

/-! ## Transitions -/

/-- Texts that do not fit in a record make the encoder panic. -/
def Encodable (record : TxStateRecord) : Prop :=
  Short record.transactionId ∧ ∀ range ∈ record.partitions, Short range.topic

instance (record : TxStateRecord) : Decidable (Encodable record) :=
  inferInstanceAs (Decidable (_ ∧ _))

def persist (e : StateEntry) (write : Write) : Attempt Unit := do
  ensure (Encodable e.record) .panicked
  modify (writeState · e write)
  ensure (write = .completed) .storage

variable (id : Text)

/-- Memory follows when the new state was written. -/
def transition
    (change : Option TransactionState → Except TxError TransactionState) (write : Write) :
    Attempt Running := do
  let s ← get
  let state ← lift .transaction (change (s.state id))
  let r : Running := ⟨state, s.originOf id⟩
  modify (countOrigin · r.origin)
  persist r.entry write
  modify (install · id r)
  return r

def beginChange (producerId now : UInt64) (old : Option TransactionState) :
    Except TxError TransactionState :=
  if old.isSome then .error (.alreadyExists id) else .ok (newState id producerId now)

def enlistAll (topics : List (Text × List UInt32)) (ranges : List PartitionRange) :
    List PartitionRange :=
  topics.foldl (fun ranges entry => entry.2.foldl (enlist entry.1) ranges) ranges

theorem subset_enlistAll (topics : List (Text × List UInt32)) (ranges : List PartitionRange) :
    ranges ⊆ enlistAll topics ranges := by
  refine List.foldlRecOn (motive := (ranges ⊆ ·)) topics _ (fun _ h => h) fun _ hsub entry _ => ?_
  refine List.foldlRecOn (motive := (ranges ⊆ ·)) entry.2 _ hsub fun _ hsub _ _ => ?_
  rw [enlist]
  split
  · exact hsub
  · exact fun _ hrange => List.mem_append_left _ (hsub hrange)

def withPartitions (state : TransactionState) (partitions : List PartitionRange) :
    TransactionState :=
  { state with record := { state.record with partitions } }

/-- A transaction that does not exist is begun. -/
def addPartitionsChange (producerId : UInt64) (topics : List (Text × List UInt32))
    (now : UInt64) (old : Option TransactionState) : Except TxError TransactionState :=
  let next := old.getD (newState id producerId now)
  if next.record.producerId ≠ producerId ∨ next.record.status ≠ .ongoing then
    .error .notOngoingOrFenced
  else .ok (withPartitions next (enlistAll topics next.record.partitions))

def registerRange (topic : Text) (partition : UInt32) (start : UInt64)
    (ranges : List PartitionRange) : List PartitionRange :=
  updateRange topic partition
    (fun range => { range with startOffset := min range.startOffset start })
    ⟨topic, partition, start, noOffset⟩ ranges

def registerChange (id topic : Text) (partition : UInt32) (start : UInt64)
    (old : Option TransactionState) : Except TxError TransactionState :=
  match old with
  | none => .error (.notFound id)
  | some next =>
    if next.record.status ≠ .ongoing then .error .notOngoing
    else .ok (withPartitions next (registerRange topic partition start next.record.partitions))

def prepareChange (decision : Decision) (old : Option TransactionState) :
    Except TxError TransactionState :=
  match old with
  | none => .error (.notFound id)
  | some next =>
    if next.record.status ≠ .ongoing ∧ next.record.status ≠ decision.prepared then
      .error .differentDecision
    else .ok { next with record := { next.record with status := decision.prepared } }

/-! ## Operations -/

def beginTransaction (producerId now : UInt64) (write : Write) : Attempt Unit := do
  let _ ← transition id (beginChange id producerId now) write

section Requests

variable (broker : Broker) (id : Text)

def addPartitionsToTxn (producerId : UInt64) (producerEpoch : Int16)
    (topics : List (Text × List UInt32)) (now : UInt64) (write : Write) : Attempt Unit := do
  let s ← get
  lift .transaction
    (validateIfInitialized s.producers.engine.transactionalProducers id producerId producerEpoch)
  lift .topic (topics.forM fun entry => validateClientTopicName broker.settings entry.1)
  let _ ← transition id (addPartitionsChange id producerId topics now) write

/-- The first offset that a batch was given, or had been given before. -/
def appendBatch (batch : TxBatch) : Append → Attempt Nat
  | .failed => throw .storage
  | .unsynced => do
    modify (appendRecords · batch)
    throw .storage
  | .stored => do
    let s ← get
    modify (appendRecords · batch)
    return (s.data batch.topic batch.partition).entries.length
  | .duplicate lastOffset => do
    -- `num_records as u64 - 1` underflows on an empty batch
    ensure (batch.recordCount ≠ 0) .panicked
    return lastOffset - (batch.recordCount - 1)

/-- `produce_batch_local` with a transaction.  The checks of the request that do not depend on
the transaction end in `refusal`. -/
def produceBatchLocal (batch : TxBatch) (refusal : Option ProduceError) (first : Write)
    (append : Append) (second : Write) : Attempt Unit := do
  let s ← get
  ensure ((s.producers.engine.transactionalProducers.lookup batch.id).isSome →
    batch.producerId ≠ 0) .producerIdRequired
  lift .transaction (validateIfInitialized s.producers.engine.transactionalProducers
    batch.id batch.producerId batch.producerEpoch)
  ensure (s.isOngoing batch.id) (.notActive batch.id)
  lift .refused (refusal.elim (.ok ()) .error)
  lift .topic (validateClientTopicName broker.settings batch.topic)
  let state ← demand (s.state batch.id) (.transaction (.notFound batch.id))
  ensure (state.record.status = .ongoing ∧
    (batch.producerId = 0 ∨ state.record.producerId = batch.producerId)) .inactiveOrMismatch
  let latestOffset := (s.data batch.topic batch.partition).entries.length
  let _ ← transition batch.id
    (registerChange batch.id batch.topic batch.partition (.ofNat latestOffset)) first
  let firstOffset ← appendBatch batch append
  let _ ← transition batch.id
    (registerChange batch.id batch.topic batch.partition (.ofNat firstOffset)) second

def produceControlMarker (range : PartitionRange) (m : ControlMarker) (write : Write) :
    Attempt UInt64 := do
  let s ← get
  modify (writeMarker · range.topic range.partition m write)
  ensure (write = .completed) .storage
  return .ofNat (s.data range.topic range.partition).entries.length

def writeMarkers (m : ControlMarker) : List PartitionRange → List Write → Attempt EndOffsets
  | [], _ => return []
  | _ :: _, [] => throw .storage
  | range :: ranges, write :: writes => do
    let endOffset ← produceControlMarker range m write
    let ends ← writeMarkers m ranges writes
    return (range.topic, range.partition, endOffset) :: ends

def resolveEnd (ends : EndOffsets) (range : PartitionRange) : PartitionRange :=
  { range with
    endOffset := ((ends.find? fun entry => isFor entry.1 entry.2.1 range).map
      fun entry => entry.2.2).getD range.endOffset }

def endTransactionInner (decision : Decision) (id : Text) (writes : EndWrites) : Attempt Unit := do
  let r ← transition id (prepareChange id decision) writes.prepare
  let ends ← writeMarkers ⟨decision, r.record.producerId, id, r.origin⟩ r.record.partitions
    writes.markers
  let partitions := r.record.partitions.map (resolveEnd ends)
  persist ⟨{ r.record with status := decision.terminal, transactionId := id, partitions },
    r.origin⟩ writes.terminal
  let s ← get
  let r ← demand (s.transactions.lookup id) (.transaction (.notFound id))
  modify (completeWithStatus · id r decision.terminal ends)
  modify (cleanup · id)

def commitTransactionInner : Text → EndWrites → Attempt Unit := endTransactionInner .commit

def abortTransactionInner : Text → EndWrites → Attempt Unit := endTransactionInner .abort

def endTransaction (producerId : UInt64) (producerEpoch : Int16) (committed : Bool)
    (writes : EndWrites) : Attempt Unit := do
  let s ← get
  lift .transaction (validateTransactionalProducer
    s.producers.engine.transactionalProducers id producerId producerEpoch)
  if committed then commitTransactionInner id writes else abortTransactionInner id writes

variable (writes : EndWrites)

def finishPreviousTransaction : Attempt Unit := do
  let s ← get
  if s.getStatus id = some .prepareCommit then commitTransactionInner id writes
  else if s.getStatus id = some .ongoing ∨ s.getStatus id = some .prepareAbort then
    abortTransactionInner id writes
  else pure ()

def initProducerId (write : Write) : Attempt Unit := do
  finishPreviousTransaction id writes
  modify fun s => { s with producers := s.producers.initProducerId id write }

def initProducerIdCoordinated (write : Write) : Attempt Unit := do
  let s ← get
  ensure (s.producers.uncertain = false) .uncertain
  modify fun s => { s with producers := s.producers.applyCommitted broker }
  ensure (s.producers.log.length = s.producers.highWatermark) .unresolvedTail
  finishPreviousTransaction id writes
  modify fun s => { s with producers := s.producers.proposeRegistration broker id write }

/-- What a sweep does with a transaction.  The status was read before the lock was taken. -/
def sweepExpired (status : Option TxStatus) (writes : EndWrites) : Attempt Unit :=
  if status = some .prepareCommit then commitTransactionInner id writes
  else abortTransactionInner id writes

/-! ## Restarts -/

/-- `restore_transaction`, for a transaction in flight. -/
def restoreTransaction (now : UInt64) (e : StateEntry) : Option Running :=
  if isTerminal e.record.status then none else some ⟨⟨e.record, now⟩, e.origin⟩

/-- The pins of the transactions that a restart has found are made anew. -/
def restoredPins (entries : List StateEntry) (latest : Table Text Running) : List Pin :=
  (entries.map StateEntry.id).foldl (fun pins id =>
    match latest.lookup id with
    | some r => r.record.partitions.foldl (pinLso id) pins
    | none => pins) []

def restart (s : TxBroker) (c : Crash) : TxBroker :=
  let reached := s.stateLog.reached c.seeks
  let transactions := (s.stateLog.latestStates reached).filterMap
    fun _ e => restoreTransaction c.now e
  { s with
    producers := s.producers.restart broker
      (keep s.producers.durable s.producers.log.length c.metadata) c.opened
    transactions
    lsoIndex := restoredPins (s.stateLog.entries.take reached) transactions
    stateLog := s.stateLog.crash c.state
    data := fun topic partition => (s.data topic partition).crash (c.data topic partition) }

def step (s : TxBroker) : TxEvent → TxBroker
  | .beginTransaction id producerId now write =>
    after (beginTransaction id producerId now write) s
  | .addPartitionsToTxn id producerId producerEpoch topics now write =>
    after (addPartitionsToTxn broker id producerId producerEpoch topics now write) s
  | .produceBatch batch refusal first append second =>
    after (produceBatchLocal broker batch refusal first append second) s
  | .commitTransaction id writes => after (commitTransactionInner id writes) s
  | .abortTransaction id writes => after (abortTransactionInner id writes) s
  | .endTransaction id producerId producerEpoch committed writes =>
    after (endTransaction id producerId producerEpoch committed writes) s
  | .initProducerId id writes write => after (initProducerId id writes write) s
  | .initProducerIdCoordinated id writes write =>
    after (initProducerIdCoordinated broker id writes write) s
  | .sweep id status writes => after (sweepExpired id status writes) s
  | .restart c => s.restart broker c

def start : TxBroker where
  producers := .start broker
  transactions := ∅
  lsoIndex := []
  stateLog := { entries := [], durable := 0, highWatermark := 0 }
  data := fun _ _ => { entries := [], durable := 0 }
  origins := 0
  seen := []
  received := []

end Requests

end TxBroker

end Bifrox.Transactions

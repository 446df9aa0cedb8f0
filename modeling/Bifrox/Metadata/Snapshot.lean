/-
The snapshot of the metadata (`build_metadata_snapshot_records`,
`write_metadata_snapshot`, `read_metadata_snapshot` and `replay_metadata_log` in
`src/server/engine.rs`).

`Iteration` holds the orders in which the maps are gone through.
-/
import Bifrox.Metadata.Codec
import Bifrox.Metadata.Engine

namespace Bifrox.Metadata

open List Decoder
open Sasl (ScramMechanism ScramCredential)
open Server (AclBinding TransactionalProducerState)

/-! ## The records of a snapshot -/

structure Iteration where
  brokers : List (UInt32 × Text)
  topics : List (Text × TopicConfig)
  assignments : Text → List (UInt32 × PartitionAssignment)
  configs : Text → List (Text × Text)
  acls : List AclBinding
  credentials : List ((Text × ScramMechanism) × ScramCredential)
  producers : List (Text × TransactionalProducerState)
  transactions : List (Text × TransactionState)

structure Iteration.Of (it : Iteration) (s : Engine) : Prop where
  brokers : s.brokerAddrs.Lists it.brokers
  topics : s.topicRegistry.Lists it.topics
  assignments : s.topicRegistry.All fun topic cfg => cfg.partitions.Lists (it.assignments topic)
  configs : s.topicRegistry.All fun topic cfg => cfg.configs.Lists (it.configs topic)
  acls : ∀ binding, binding ∈ it.acls ↔ binding ∈ s.acls
  credentials : s.scramCredentials.Lists it.credentials
  producers : s.transactionalProducers.Lists it.producers
  transactions : s.transactions.Lists it.transactions

namespace Engine

def brokerRecord (s : Engine) (entry : UInt32 × Text) : MetadataRecord :=
  .brokerRegister entry.1 entry.2 (((s.brokerRoles.lookup entry.1).map rolesToBytes).getD [])

def assignmentRecord (topic : Text) (entry : UInt32 × PartitionAssignment) : MetadataRecord :=
  .partitionLeadershipChange topic entry.1 entry.2.leaderId entry.2.leaderEpoch entry.2.isr
    (some entry.2.replicas)

def configRecords (topic : Text) (configs : List (Text × Text)) : List MetadataRecord :=
  if configs = [] then [] else [.topicConfigChanged topic configs]

def topicRecords (it : Iteration) (entry : Text × TopicConfig) : List MetadataRecord :=
  .topicCreated entry.1 entry.2.numPartitions entry.2.replicationFactor ::
    ((it.assignments entry.1).map (assignmentRecord entry.1) ++
      configRecords entry.1 (it.configs entry.1))

def credentialRecord (credential : ScramCredential) : MetadataRecord :=
  .scramCredentialUpsert credential.username credential.iterations credential.salt
    credential.storedKey credential.serverKey (scramMechanismToByte credential.mechanism)

def producerRecord (entry : Text × TransactionalProducerState) : MetadataRecord :=
  .transactionalProducerRegistration entry.1 entry.2.producerId entry.2.producerEpoch

/-- A state without a revision is left out. -/
def transactionRecord (s : Engine) (state : TransactionState) : Option MetadataRecord :=
  (s.transactionRevisions.lookup state.record.transactionId).map fun revision =>
    .transactionState revision state.createdAtMs state.record

/-- The filter that the bindings are listed with matches every one of them. -/
def buildMetadataSnapshotRecords (s : Engine) (it : Iteration) : List MetadataRecord :=
  it.brokers.map s.brokerRecord ++ (it.topics.flatMap (topicRecords it) ++
      (it.acls.map .aclCreated ++ (it.credentials.map (fun entry => credentialRecord entry.2) ++
          (it.producers.map producerRecord ++
            it.transactions.filterMap (fun entry => s.transactionRecord entry.2)))))

end Engine

/-! ## The file -/

inductive SnapshotError where
  | truncated
  | invalidCount
  | truncatedRecord
  | record (error : DecodeError)
  | trailing

def putFramed (record : MetadataRecord) : Bytes :=
  BigEndian.put 4 record.encode.length ++ record.encode

def writeMetadataSnapshot (snapshotOffset : UInt64) (records : List MetadataRecord) : Bytes :=
  putU64 snapshotOffset ++ (BigEndian.put 4 records.length ++ records.flatMap putFramed)

def decodeFramed (bytes : Bytes) : Decoder SnapshotError MetadataRecord := fun src =>
  match MetadataRecord.decode bytes with
  | .ok record => .ok (record, src)
  | .error e => .error (.record e)

def readFramed : Decoder SnapshotError MetadataRecord := do
  let len ← number 4 .truncatedRecord
  let bytes ← take len .truncatedRecord
  decodeFramed bytes

/-- The number of records is compared with the length of the whole file. -/
def readSnapshot : Decoder SnapshotError (UInt64 × List MetadataRecord) := do
  check (12 ≤ ·) .truncated
  let snapshotOffset ← u64 .truncated
  let recordCount ← number 4 .truncated
  check (fun left => recordCount ≤ (left + 12) / 4) .invalidCount
  let records ← many readFramed recordCount
  check (· = 0) .trailing
  return (snapshotOffset, records)

def readMetadataSnapshot (buf : Bytes) : Except SnapshotError (UInt64 × List MetadataRecord) :=
  match readSnapshot buf with
  | .ok (snapshot, _) => .ok snapshot
  | .error e => .error e

/-- Load a snapshot into an engine and go on with the records of the log after it. -/
def replayMetadataLog (broker : Broker) (s : Engine) (snapshot : Bytes)
    (log : List MetadataRecord) : Except SnapshotError Engine :=
  match readMetadataSnapshot snapshot with
  | .ok (_, records) =>
    .ok (Run.run (Engine.applyMetadataRecord broker)
      (Run.run (Engine.applyMetadataRecord broker) s records) log)
  | .error e => .error e

theorem reads_framed {record : MetadataRecord} (h : record.Storable) :
    Reads readFramed (putFramed record) record := by
  have hdecode : Reads (decodeFramed record.encode) [] record := by
    intro rest
    rw [decodeFramed, MetadataRecord.decode_encode h.fits]
    rfl
  have hbytes := (reads_take SnapshotError.truncatedRecord).bind hdecode
  rw [append_nil] at hbytes
  exact (reads_number _ (w := 4) h.length_lt).bind hbytes

theorem le_length_flatMap_putFramed (records : List MetadataRecord) :
    records.length * 4 ≤ (records.flatMap putFramed).length := by
  induction records with
  | nil => simp
  | cons =>
    rw [flatMap_cons, length_append, length_cons, putFramed, length_append,
      BigEndian.length_put]
    omega

theorem readMetadataSnapshot_write {records : List MetadataRecord}
    (hstorable : ∀ record ∈ records, record.Storable) (hcount : records.length < 2 ^ 32)
    (snapshotOffset : UInt64) :
    readMetadataSnapshot (writeMetadataSnapshot snapshotOffset records) =
      .ok (snapshotOffset, records) := by
  have hlen := le_length_flatMap_putFramed records
  have hrecords := reads_many fun record hrecord => reads_framed (hstorable record hrecord)
  have htail := hrecords.bindAll (f := fun records => do
      check (· = 0) .trailing
      return (snapshotOffset, records))
    (ReadsAll.checked rfl rfl)
  rw [append_nil] at htail
  have hread : ReadsAll readSnapshot (writeMetadataSnapshot snapshotOffset records)
      (snapshotOffset, records) := by
    refine ReadsAll.checked ?_ ((reads_u64 _).bindAll
      ((reads_number _ (w := 4) hcount).bindAll (ReadsAll.checked ?_ htail)))
    · rw [writeMetadataSnapshot, length_append, length_append, length_putU64,
        BigEndian.length_put, decide_eq_true_iff]
      omega
    · rw [decide_eq_true_iff]
      omega
  rw [readMetadataSnapshot, hread]

end Bifrox.Metadata

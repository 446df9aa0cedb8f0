/-
The records of the metadata log (`src/replication/metadata.rs`) and the state of a
transaction that one of them carries (`encode_tx_state_record` and
`decode_tx_state_record` in `src/server/transaction.rs`).

The source asserts that a string fits in its length field; here a longer one is cut, and what is
proved about records is about those whose strings fit.  The state of a transaction is kept decoded:
a record is only ever read with bytes that decode.
-/
import Bifrox.Lib.Decoder
import Bifrox.Server.Acl
import Bifrox.Server.Transaction

namespace Bifrox.Metadata

open Decoder (Bytes putText putPrefixed putU16 putU32 putU64 check byte take number lift many
  orAtEnd u16 u32 u64)
open Server (AclBinding TxStatus)

/-! ## Records -/

structure PartitionRange where
  topic : Text
  partition : UInt32
  startOffset : UInt64
  endOffset : UInt64
deriving DecidableEq

structure TxStateRecord where
  status : TxStatus
  producerId : UInt64
  transactionId : Text
  partitions : List PartitionRange
deriving DecidableEq

inductive MetadataRecord where
  | transactionState (revision createdAtMs : UInt64) (state : TxStateRecord)
  | topicPartition (topic : Text) (partition leaderId : UInt32) (replicas : List UInt32)
  | brokerRegister (nodeId : UInt32) (bindAddr : Text) (roles : Bytes)
  | topicCreated (topic : Text) (numPartitions : UInt32) (replicationFactor : UInt16)
  | topicDeleted (topic : Text)
  | partitionLeadershipChange (topic : Text) (partition leaderId leaderEpoch : UInt32)
    (isr : List UInt32) (replicas : Option (List UInt32))
  | aclCreated (binding : AclBinding)
  | aclDeleted (binding : AclBinding)
  | brokerUnregister (nodeId : UInt32)
  | scramCredentialUpsert (username : Text) (iterations : UInt32)
    (salt storedKey serverKey : Bytes) (mechanism : UInt8)
  | scramCredentialDelete (username : Text)
  | transactionalProducerRegistration (transactionalId : Text) (producerId : UInt64)
    (producerEpoch : Int16)
  | topicConfigChanged (topic : Text) (configs : List (Text × Text))
deriving DecidableEq

/-! ## Encoding -/

def txStatusByte : TxStatus → UInt8
  | .ongoing => 0x01
  | .prepareCommit => 0x02
  | .prepareAbort => 0x03
  | .committed => 0x04
  | .aborted => 0x05

def PartitionRange.encode (range : PartitionRange) : Bytes :=
  putText range.topic ++ (putU32 range.partition ++
    (putU64 range.startOffset ++ putU64 range.endOffset))

def putPartitionRanges (ranges : List PartitionRange) : Bytes :=
  BigEndian.put 4 ranges.length ++ ranges.flatMap PartitionRange.encode

def TxStateRecord.encode (state : TxStateRecord) : Bytes :=
  txStatusByte state.status :: (putU64 state.producerId ++ (putText state.transactionId ++
    putPartitionRanges state.partitions))

def putIds (ids : List UInt32) : Bytes := BigEndian.put 4 ids.length ++ ids.flatMap putU32

def putBinding (binding : AclBinding) : Bytes :=
  binding.resourceType :: (putText binding.resourceName ++ (binding.patternType ::
    (putText binding.principal ++ (putText binding.host ++
      [binding.operation, binding.permissionType]))))

def putConfig (config : Text × Text) : Bytes := putText config.1 ++ putText config.2

namespace MetadataRecord

def tag : MetadataRecord → UInt8
  | topicPartition .. => 0x01
  | brokerRegister .. => 0x02
  | topicCreated .. => 0x03
  | topicDeleted .. => 0x04
  | partitionLeadershipChange .. => 0x05
  | aclCreated .. => 0x06
  | aclDeleted .. => 0x07
  | brokerUnregister .. => 0x08
  | scramCredentialUpsert .. => 0x09
  | scramCredentialDelete .. => 0x0A
  | transactionalProducerRegistration .. => 0x0B
  | topicConfigChanged .. => 0x0C
  | transactionState .. => 0x0D

def body : MetadataRecord → Bytes
  | transactionState revision createdAtMs state =>
    putU64 revision ++ (putU64 createdAtMs ++ state.encode)
  | topicPartition topic partition leaderId replicas =>
    putText topic ++ (putU32 partition ++ (putU32 leaderId ++ putIds replicas))
  | brokerRegister nodeId bindAddr roles =>
    putU32 nodeId ++ (putText bindAddr ++ (UInt8.ofNat roles.length :: roles))
  | topicCreated topic numPartitions replicationFactor =>
    putText topic ++ (putU32 numPartitions ++ putU16 replicationFactor)
  | topicDeleted topic => putText topic
  | partitionLeadershipChange topic partition leaderId leaderEpoch isr replicas =>
    putText topic ++ (putU32 partition ++ (putU32 leaderId ++ (putU32 leaderEpoch ++
      (putIds isr ++ (replicas.map putIds).getD []))))
  | aclCreated binding => putBinding binding
  | aclDeleted binding => putBinding binding
  | brokerUnregister nodeId => putU32 nodeId
  | scramCredentialUpsert username iterations salt storedKey serverKey mechanism =>
    putText username ++ (putU32 iterations ++ (putPrefixed salt ++ (putPrefixed storedKey ++
      (putPrefixed serverKey ++ [mechanism]))))
  | scramCredentialDelete username => putText username
  | transactionalProducerRegistration transactionalId producerId producerEpoch =>
    putText transactionalId ++ (putU64 producerId ++ putU16 producerEpoch.toUInt16)
  | topicConfigChanged topic configs =>
    putText topic ++ (BigEndian.put 4 configs.length ++ configs.flatMap putConfig)

def encode (record : MetadataRecord) : Bytes := record.tag :: record.body

end MetadataRecord

/-! ## Decoding -/

/-- An error of `decode`.  `panicked` is a read past the end of the buffer, which the
checks before it rule out. -/
inductive DecodeError where
  | unexpectedEof (message : String)
  | invalidData (message : String)
  | invalidUtf8
  | unknownType (tag : UInt8)
  | panicked
deriving DecidableEq

def TxStatus.ofByte (byte : UInt8) : Option TxStatus :=
  if byte = 0x01 then some .ongoing
  else if byte = 0x02 then some .prepareCommit
  else if byte = 0x03 then some .prepareAbort
  else if byte = 0x04 then some .committed
  else if byte = 0x05 then some .aborted
  else none

def maxItems : Nat := 100000

def readPartitionRange : Decoder Unit PartitionRange := do
  let topic ← Decoder.text () () ()
  let partition ← u32 ()
  let startOffset ← u64 ()
  let endOffset ← u64 ()
  return { topic, partition, startOffset, endOffset }

def readPartitionRanges : Decoder Unit (List PartitionRange) := do
  let count ← number 4 ()
  check (fun left => count ≤ maxItems && count ≤ left / 22) ()
  many readPartitionRange count

/-- The steps of `decode_tx_state_record`, which has one way to fail. -/
def readTxStateRecord : Decoder Unit TxStateRecord := do
  check (11 ≤ ·) ()
  let statusByte ← byte ()
  let producerId ← u64 ()
  let transactionId ← Decoder.text () () ()
  let partitions ← readPartitionRanges
  check (· = 0) ()
  let status ← lift (TxStatus.ofByte statusByte) ()
  return { status, producerId, transactionId, partitions }

def decodeTxStateRecord (src : Bytes) : Option TxStateRecord :=
  match readTxStateRecord src with
  | .ok (state, _) => some state
  | .error _ => none

abbrev need (n : Nat) (message : String) : Decoder DecodeError Unit :=
  check (n ≤ ·) (.unexpectedEof message)

def readString : Decoder DecodeError Text :=
  Decoder.text (.unexpectedEof "Incomplete pascal string length")
    (.unexpectedEof "Incomplete pascal string bytes") .invalidUtf8

def readLenPrefixedBytes (fieldName : String) : Decoder DecodeError Bytes :=
  Decoder.prefixed (.unexpectedEof ("Incomplete " ++ fieldName ++ " length"))
    (.unexpectedEof ("Incomplete " ++ fieldName ++ " bytes"))

abbrev limit (count : Nat) : Decoder DecodeError Unit :=
  check (fun left => count ≤ maxItems && count ≤ left / 4)
    (.invalidData "metadata collection exceeds frame or item limit")

def readIds (message : String) : Decoder DecodeError (List UInt32) := do
  let count ← number 4 .panicked
  limit count
  need (count * 4) message
  many (u32 .panicked) count

def readBinding : Decoder DecodeError AclBinding := do
  need 1 "Incomplete ACL metadata"
  let resourceType ← byte .panicked
  let resourceName ← readString
  need 1 "Incomplete ACL pattern_type"
  let patternType ← byte .panicked
  let principal ← readString
  let host ← readString
  need 2 "Incomplete ACL operations"
  let operation ← byte .panicked
  let permissionType ← byte .panicked
  return { resourceType, resourceName, patternType, principal, host, operation, permissionType }

def readConfig : Decoder DecodeError (Text × Text) := do
  let key ← readString
  let value ← readString
  return (key, value)

/-- The state of a transaction is all that is left of the record. -/
def readRestAsTxState : Decoder DecodeError TxStateRecord := fun src =>
  match decodeTxStateRecord src with
  | some state => .ok (state, [])
  | none => .error (.invalidData "invalid transaction state")

def readTransactionState : Decoder DecodeError MetadataRecord := do
  need 16 "transaction state header"
  let revision ← u64 .panicked
  let createdAtMs ← u64 .panicked
  let state ← readRestAsTxState
  return .transactionState revision createdAtMs state

def readTopicPartition : Decoder DecodeError MetadataRecord := do
  let topic ← readString
  need 12 "Incomplete topic metadata"
  let partition ← u32 .panicked
  let leaderId ← u32 .panicked
  let replicas ← readIds "Incomplete replicas list"
  return .topicPartition topic partition leaderId replicas

def readRoles : Decoder DecodeError Bytes := do
  let count ← byte .panicked
  take count.toNat (.unexpectedEof "Incomplete broker roles list")

def readBrokerRegister : Decoder DecodeError MetadataRecord := do
  need 6 "Incomplete broker metadata"
  let nodeId ← u32 .panicked
  let bindAddr ← readString
  let roles ← orAtEnd 1 [] readRoles
  return .brokerRegister nodeId bindAddr roles

def readTopicCreated : Decoder DecodeError MetadataRecord := do
  let topic ← readString
  need 6 "Incomplete TopicCreated metadata"
  let numPartitions ← u32 .panicked
  let replicationFactor ← u16 .panicked
  return .topicCreated topic numPartitions replicationFactor

def readTopicDeleted : Decoder DecodeError MetadataRecord := do
  let topic ← readString
  return .topicDeleted topic

def readRoster : Decoder DecodeError (Option (List UInt32)) := do
  let replicas ← readIds "Incomplete replica list"
  return some replicas

def readPartitionLeadershipChange : Decoder DecodeError MetadataRecord := do
  let topic ← readString
  need 16 "Incomplete PartitionLeadershipChange metadata"
  let partition ← u32 .panicked
  let leaderId ← u32 .panicked
  let leaderEpoch ← u32 .panicked
  let isr ← readIds "Incomplete ISR list"
  let replicas ← orAtEnd 4 none readRoster
  return .partitionLeadershipChange topic partition leaderId leaderEpoch isr replicas

def readBrokerUnregister : Decoder DecodeError MetadataRecord := do
  need 4 "Incomplete BrokerUnregister node_id"
  let nodeId ← u32 .panicked
  return .brokerUnregister nodeId

def readScramCredentialUpsert : Decoder DecodeError MetadataRecord := do
  let username ← readString
  need 4 "Incomplete SCRAM credential iterations"
  let iterations ← u32 .panicked
  let salt ← readLenPrefixedBytes "salt"
  let storedKey ← readLenPrefixedBytes "stored_key"
  let serverKey ← readLenPrefixedBytes "server_key"
  let mechanism ← orAtEnd 1 0 (byte .panicked)
  return .scramCredentialUpsert username iterations salt storedKey serverKey mechanism

def readTransactionalProducerRegistration : Decoder DecodeError MetadataRecord := do
  let transactionalId ← readString
  need 10 "Incomplete transactional producer state"
  let producerId ← u64 .panicked
  let producerEpoch ← u16 .panicked
  return .transactionalProducerRegistration transactionalId producerId producerEpoch.toInt16

def readTopicConfigChanged : Decoder DecodeError MetadataRecord := do
  let topic ← readString
  need 4 "Incomplete TopicConfigChanged count"
  let count ← number 4 .panicked
  limit count
  let configs ← many readConfig count
  return .topicConfigChanged topic configs

def readRecord (tag : UInt8) : Decoder DecodeError MetadataRecord :=
  match tag.toNat with
  | 0x01 => readTopicPartition
  | 0x02 => readBrokerRegister
  | 0x03 => readTopicCreated
  | 0x04 => readTopicDeleted
  | 0x05 => readPartitionLeadershipChange
  | 0x06 => do return .aclCreated (← readBinding)
  | 0x07 => do return .aclDeleted (← readBinding)
  | 0x08 => readBrokerUnregister
  | 0x09 => readScramCredentialUpsert
  | 0x0A => do return .scramCredentialDelete (← readString)
  | 0x0B => readTransactionalProducerRegistration
  | 0x0C => readTopicConfigChanged
  | 0x0D => readTransactionState
  | _ => fun _ => .error (.unknownType tag)

def MetadataRecord.decode : Bytes → Except DecodeError MetadataRecord
  | [] => .error (.unexpectedEof "Empty metadata record")
  | tag :: src =>
    match readRecord tag src with
    | .ok (record, _) => .ok record
    | .error e => .error e

/-! ## What the fields have room for -/

def Short (text : Text) : Prop := text.utf8.length < 2 ^ 16

instance (text : Text) : Decidable (Short text) := inferInstanceAs (Decidable (_ < _))

structure TxStateRecord.Fits (state : TxStateRecord) : Prop where
  transactionId : Short state.transactionId
  count : state.partitions.length ≤ maxItems
  topics : ∀ range ∈ state.partitions, Short range.topic

structure BindingFits (binding : AclBinding) : Prop where
  resourceName : Short binding.resourceName
  principal : Short binding.principal
  host : Short binding.host

/-- The fields of a record are within what its encoding and the decoder allow. -/
def MetadataRecord.Fits : MetadataRecord → Prop
  | transactionState _ _ state => state.Fits
  | topicPartition topic _ _ replicas => Short topic ∧ replicas.length ≤ maxItems
  | brokerRegister _ bindAddr roles => Short bindAddr ∧ roles.length < 2 ^ 8
  | topicCreated topic _ _ => Short topic
  | topicDeleted topic => Short topic
  | partitionLeadershipChange topic _ _ _ isr replicas =>
    Short topic ∧ isr.length ≤ maxItems ∧ ∀ roster ∈ replicas, roster.length ≤ maxItems
  | aclCreated binding => BindingFits binding
  | aclDeleted binding => BindingFits binding
  | brokerUnregister _ => True
  | scramCredentialUpsert username _ salt storedKey serverKey _ =>
    Short username ∧ salt.length < 2 ^ 16 ∧ storedKey.length < 2 ^ 16 ∧ serverKey.length < 2 ^ 16
  | scramCredentialDelete username => Short username
  | transactionalProducerRegistration transactionalId _ _ => Short transactionalId
  | topicConfigChanged topic configs =>
    Short topic ∧ configs.length ≤ maxItems ∧ ∀ config ∈ configs, Short config.1 ∧ Short config.2

/-- The limits on the fields of the record bound its length. -/
def MetadataRecord.isBounded : MetadataRecord → Bool
  | transactionState .. => false
  | topicConfigChanged .. => false
  | _ => true

/-- The record can be put in a snapshot, where it stands after its length. -/
structure MetadataRecord.Storable (record : MetadataRecord) : Prop where
  fits : record.Fits
  length_lt : record.encode.length < 2 ^ 32

end Bifrox.Metadata

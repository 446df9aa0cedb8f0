/-
The metadata of a broker and the records that change it (`apply_metadata_record` and
what it calls in `src/server/engine.rs`).

An open partition is its leadership and its settings, and the access control list is the set of
its bindings.  Opening a partition's directory always succeeds here, and so does removing it.
-/
import Bifrox.Metadata.Record
import Bifrox.Metadata.TopicSettings
import Bifrox.Sasl.Scram
import Bifrox.Server.Topics

namespace Bifrox.Metadata

open Decoder (Bytes)
open Sasl (ScramMechanism ScramCredential)
open Server (AclBinding TransactionalProducerState EngineSettings TopicError isSystemTopic
  validateTopicName)

/-! ## Roles and mechanisms as bytes -/

inductive ProcessRole where
  | controller
  | broker

def ProcessRole.toByte : ProcessRole → UInt8
  | .controller => 1
  | .broker => 2

def ProcessRole.fromByte (byte : UInt8) : Option ProcessRole :=
  if byte = 1 then some .controller else if byte = 2 then some .broker else none

def rolesToBytes (roles : List ProcessRole) : Bytes := roles.map ProcessRole.toByte

def parseProcessRoleBytes (bytes : Bytes) : List ProcessRole :=
  if bytes.filterMap ProcessRole.fromByte = [] then [.controller, .broker]
  else bytes.filterMap ProcessRole.fromByte

def scramMechanismToByte : ScramMechanism → UInt8
  | .sha256 => 0
  | .sha512 => 1

def scramMechanismFromByte (byte : UInt8) : ScramMechanism :=
  if byte = 1 then .sha512 else .sha256

theorem ProcessRole.fromByte_toByte (role : ProcessRole) : fromByte role.toByte = some role := by
  cases role <;> rfl

theorem parseProcessRoleBytes_rolesToBytes {roles : List ProcessRole} (h : roles ≠ []) :
    parseProcessRoleBytes (rolesToBytes roles) = roles := by
  have hroles : (rolesToBytes roles).filterMap ProcessRole.fromByte = roles := by
    rw [rolesToBytes, List.filterMap_map]
    exact (List.filterMap_congr fun role _ => role.fromByte_toByte).trans List.filterMap_some
  rw [parseProcessRoleBytes, hroles, if_neg h]

theorem parseProcessRoleBytes_ne_nil (bytes : Bytes) : parseProcessRoleBytes bytes ≠ [] := by
  rw [parseProcessRoleBytes]
  split
  · exact List.cons_ne_nil _ _
  · assumption

theorem length_parseProcessRoleBytes_lt {bytes : Bytes} (h : bytes.length < 2 ^ 8) :
    (parseProcessRoleBytes bytes).length < 2 ^ 8 := by
  rw [parseProcessRoleBytes]
  split
  · decide
  · exact Nat.lt_of_le_of_lt (List.length_filterMap_le _ _) h

theorem scramMechanismFromByte_toByte (mechanism : ScramMechanism) :
    scramMechanismFromByte (scramMechanismToByte mechanism) = mechanism := by
  cases mechanism <;> rfl

/-! ## State -/

structure PartitionAssignment where
  leaderId : UInt32
  leaderEpoch : UInt32
  replicas : List UInt32
  isr : List UInt32
deriving DecidableEq

structure TopicConfig where
  numPartitions : UInt32
  replicationFactor : UInt16
  cleanupPolicy : CleanupPolicy
  partitions : Table UInt32 PartitionAssignment
  configs : Configs

/-- What of a partition manager the metadata decides. -/
structure OpenPartition where
  assignment : PartitionAssignment
  settings : PartitionSettings

structure TransactionState where
  record : TxStateRecord
  createdAtMs : UInt64

/-- The configuration of the broker.  Its own address and roles fit in a record. -/
structure Broker where
  settings : EngineSettings
  nodeId : UInt32
  bindAddr : Text
  roles : List ProcessRole
  cleanupPolicy : CleanupPolicy
  compressionCodec : CompressionCodec
  minCleanableDirtyRatio : UInt64
  minInsyncReplicas : Nat
  floats : Floats
  bindAddr_short : Short bindAddr
  roles_ne_nil : roles ≠ []
  length_roles_lt : roles.length < 2 ^ 8

@[ext]
structure Engine where
  brokerAddrs : Table UInt32 Text
  brokerRoles : Table UInt32 (List ProcessRole)
  topicRegistry : Table Text TopicConfig
  partitions : Table (Text × UInt32) OpenPartition
  acls : Finset AclBinding
  scramCredentials : Table (Text × ScramMechanism) ScramCredential
  transactionalProducers : Table Text TransactionalProducerState
  nextProducerId : Nat
  transactions : Table Text TransactionState
  transactionRevisions : Table Text UInt64

namespace Broker

variable (broker : Broker)

def defaultSettings : PartitionSettings where
  cleanupPolicy := broker.cleanupPolicy
  compressionCodec := broker.compressionCodec
  retentionMillis := broker.settings.config.retentionMillis
  retentionBytes := broker.settings.config.retentionBytes
  deleteRetentionMillis := broker.settings.config.deleteRetentionMillis
  minCleanableDirtyRatio := broker.minCleanableDirtyRatio

def defaultAssignment : PartitionAssignment where
  leaderId := broker.nodeId
  leaderEpoch := 0
  replicas := [broker.nodeId]
  isr := [broker.nodeId]

def defaultPartition : OpenPartition where
  assignment := broker.defaultAssignment
  settings := broker.defaultSettings

/-- An engine that has applied no record yet, with a set of partitions open. -/
def fresh (opened : Finset (Text × UInt32)) : Engine where
  brokerAddrs := (∅ : Table UInt32 Text).insert broker.nodeId broker.bindAddr
  brokerRoles := (∅ : Table UInt32 (List ProcessRole)).insert broker.nodeId broker.roles
  topicRegistry := ∅
  partitions := Table.const opened broker.defaultPartition
  acls := ∅
  scramCredentials := ∅
  transactionalProducers := ∅
  nextProducerId := 1
  transactions := ∅
  transactionRevisions := ∅

end Broker

namespace Engine

variable (broker : Broker)

/-! ## Opening partitions -/

variable (s : Engine)

def HasRoom : Prop :=
  s.partitions.card + broker.settings.systemPartitions < broker.settings.maxPartitionsPerBroker

instance (s : Engine) : Decidable (s.HasRoom broker) := inferInstanceAs (Decidable (_ < _))

variable (topic : Text)

def checkPartition (partition : UInt32) : Except TopicError Unit :=
  match validateTopicName broker.settings topic with
  | .error e => .error e
  | .ok () =>
    if partition.toNat ≥ broker.settings.produce.maxPartitionsPerTopic ∧ ¬ isSystemTopic topic then
      .error (.exceedsTopicLimit partition topic broker.settings.produce.maxPartitionsPerTopic)
    else if ¬ isSystemTopic topic ∧ (s.partitions.lookup (topic, partition)).isNone ∧
        ¬ s.HasRoom broker then
      .error (.atBrokerLimit topic partition broker.settings.maxPartitionsPerBroker)
    else .ok ()

/-- A partition that is opened learns its cleanup policy and its leadership from the
registry, and nothing from the topic's configs. -/
def openPartition (partition : UInt32) : OpenPartition :=
  match s.topicRegistry.lookup topic with
  | none => broker.defaultPartition
  | some cfg =>
    { assignment := (cfg.partitions.lookup partition).getD broker.defaultAssignment
      settings := { broker.defaultSettings with cleanupPolicy := cfg.cleanupPolicy } }

def getOrCreatePartition (partition : UInt32) : Except TopicError Engine :=
  match s.checkPartition broker topic partition with
  | .error e => .error e
  | .ok () =>
    match s.partitions.lookup (topic, partition) with
    | some _ => .ok s
    | none =>
      .ok { s with
        partitions :=
          s.partitions.insert (topic, partition) (s.openPartition broker topic partition) }

def orKeep : Except TopicError Engine → Engine
  | .ok s' => s'
  | .error _ => s

/-! ## The effects of records -/

def nonEmpty (replicas : Option (List UInt32)) : Option (List UInt32) :=
  replicas.filter (· ≠ [])

/-- The roster that is known: the record's own, the registry's, the open partition's. -/
def knownReplicas (partition : UInt32) (replicas : Option (List UInt32)) : Option (List UInt32) :=
  (nonEmpty replicas).or <|
    (nonEmpty (((s.topicRegistry.lookup topic).bind (·.partitions.lookup partition)).map
      (·.replicas))).or <|
      nonEmpty ((s.partitions.lookup (topic, partition)).map (·.assignment.replicas))

def widen (replicas isr : List UInt32) : List UInt32 :=
  isr.foldl (fun replicas node => if node ∈ replicas then replicas else replicas ++ [node]) replicas

def roster (partition : UInt32) (isr : List UInt32)
    (replicas : Option (List UInt32)) : List UInt32 :=
  widen ((s.knownReplicas topic partition replicas).getD isr) isr

/-- Only a registered topic has its assignments kept. -/
def assignPartition (partition : UInt32) (assignment : PartitionAssignment) : Engine :=
  match s.topicRegistry.lookup topic with
  | some cfg =>
    { s with
      topicRegistry := s.topicRegistry.insert topic
        { cfg with partitions := cfg.partitions.insert partition assignment } }
  | none => s

def updateLeadership (partition : UInt32) (assignment : PartitionAssignment) : Engine :=
  match s.partitions.lookup (topic, partition) with
  | some pm =>
    { s with partitions := s.partitions.insert (topic, partition) { pm with assignment } }
  | none => s

def changeLeadership (partition : UInt32) (assignment : PartitionAssignment) : Engine :=
  let s := s.assignPartition topic partition assignment
  match s.getOrCreatePartition broker topic partition with
  | .ok s' => s'.updateLeadership topic partition assignment
  | .error _ => s

def createTopic (numPartitions : UInt32) (replicationFactor : UInt16) : Engine :=
  { s with
    topicRegistry := s.topicRegistry.insert topic
      { numPartitions
        replicationFactor
        cleanupPolicy := broker.cleanupPolicy
        partitions := ∅
        configs := ∅ } }

def applyTopicDeletion : Engine :=
  { s with
    topicRegistry := s.topicRegistry.erase topic
    partitions := s.partitions.retain (fun key => key.1 ≠ topic) }

/-- Configs are stored for a registered topic, and pushed to the open partitions of any. -/
def setTopicConfigs (configsMap : Configs) : Engine :=
  { s with
    topicRegistry :=
      match s.topicRegistry.lookup topic with
      | some cfg => s.topicRegistry.insert topic { cfg with configs := configsMap }
      | none => s.topicRegistry
    partitions := s.partitions.map fun key pm =>
      if key.1 = topic then { pm with settings := configsMap.push broker.floats pm.settings }
      else pm }

def applyTopicConfigChange (configs : List (Text × Text)) : Engine :=
  s.setTopicConfigs broker topic (Table.ofList configs)

def registerBroker (nodeId : UInt32) (bindAddr : Text) (roles : Bytes) : Engine :=
  { s with
    brokerAddrs := s.brokerAddrs.insert nodeId bindAddr
    brokerRoles := s.brokerRoles.insert nodeId (parseProcessRoleBytes roles) }

def unregisterBroker (nodeId : UInt32) : Engine :=
  { s with
    brokerAddrs := s.brokerAddrs.erase nodeId
    brokerRoles := s.brokerRoles.erase nodeId }

def applyScramCredentialState (credential : ScramCredential) : Engine :=
  { s with
    scramCredentials :=
      s.scramCredentials.insert (credential.username, credential.mechanism) credential }

def removeScramCredentialState (username : Text) : Engine :=
  { s with scramCredentials := s.scramCredentials.retain (fun key => key.1 ≠ username) }

/-- The id after one that is in use.  `saturating_add` stays at the largest. -/
def nextCandidate (producerId : UInt64) : Nat := min (producerId.toNat + 1) (2 ^ 64 - 1)

def restoreTransactionalProducer (id : Text) (producer : TransactionalProducerState) : Engine :=
  { s with
    transactionalProducers := s.transactionalProducers.insert id producer
    nextProducerId := max s.nextProducerId (nextCandidate producer.producerId) }

/-- A state with an old revision is not installed. -/
def installReplicatedTransaction (revision : UInt64) (state : TransactionState) : Engine :=
  if (s.transactionRevisions.lookup state.record.transactionId).any (revision ≤ ·) then s
  else
    { s with
      transactions := s.transactions.insert state.record.transactionId state
      transactionRevisions := s.transactionRevisions.insert state.record.transactionId revision }

def applyMetadataRecord : MetadataRecord → Engine
  | .transactionState revision createdAtMs record =>
    s.installReplicatedTransaction revision { record, createdAtMs }
  | .topicPartition topic partition _ _ =>
    s.orKeep (s.getOrCreatePartition broker topic partition)
  | .topicCreated topic numPartitions replicationFactor =>
    s.createTopic broker topic numPartitions replicationFactor
  | .partitionLeadershipChange topic partition leaderId leaderEpoch isr replicas =>
    s.changeLeadership broker topic partition
      { leaderId, leaderEpoch, replicas := s.roster topic partition isr replicas, isr }
  | .brokerRegister nodeId bindAddr roles => s.registerBroker nodeId bindAddr roles
  | .brokerUnregister nodeId => s.unregisterBroker nodeId
  | .topicDeleted topic => s.applyTopicDeletion topic
  | .aclCreated binding => { s with acls := insert binding s.acls }
  | .aclDeleted binding => { s with acls := s.acls.erase binding }
  | .scramCredentialUpsert username iterations salt storedKey serverKey mechanism =>
    s.applyScramCredentialState
      { username
        mechanism := scramMechanismFromByte mechanism
        iterations
        salt
        storedKey
        serverKey }
  | .scramCredentialDelete username => s.removeScramCredentialState username
  | .transactionalProducerRegistration transactionalId producerId producerEpoch =>
    s.restoreTransactionalProducer transactionalId { producerId, producerEpoch }
  | .topicConfigChanged topic configs => s.applyTopicConfigChange broker topic configs

end Engine

end Bifrox.Metadata

/-
The topics of a broker (`src/server/engine.rs`).

An open partition and its directory are one entry of `partitions`.  The broker's own topics are
not part of the model; they count towards the limit on open partitions.  The metadata log is the
list of its records: a record's offset is its position.
-/
import Mathlib.Data.List.DropRight
import Mathlib.Data.List.Infix
import Bifrox.Lib.Assoc
import Bifrox.Lib.Decimal
import Bifrox.Server.Durability
import Bifrox.Server.Produce

namespace Bifrox.Server

open Protocol Segment Decimal List

abbrev TopicName : Type := List Char

inductive TopicError where
  | reservedTopic
  | invalidName (topic : TopicName)
  | illegalCharacters (topic : TopicName)
  | invalidPartitionCount
  | unknownTopic (topic : TopicName)
  | exceedsTopicLimit (partition : UInt32) (topic : TopicName) (limit : Nat)
  | atBrokerLimit (topic : TopicName) (partition : UInt32) (limit : Nat)
  | notOpened (error : String)
deriving DecidableEq

/-- The settings of the broker.  `isAlphanumeric` is that of Rust's `char`. -/
structure EngineSettings where
  isAlphanumeric : Char → Bool
  config : EngineConfig
  flushPolicy : FlushPolicy
  produce : ProduceLimits
  autoCreateTopicsEnable : Bool
  maxPartitionsPerBroker : Nat
  systemPartitions : Nat

/-! ## Names of topics and directories -/

variable (topic : TopicName)

def isSystemTopic : Bool := ['_', '_'].isPrefixOf topic

def validateTopicName (settings : EngineSettings) (topic : TopicName) : Except TopicError Unit :=
  if topic = [] ∨ (topic.map Char.utf8Size).sum > 249 ∨ topic = ['.'] ∨ topic = ['.', '.'] ∨
      '/' ∈ topic ∨ '\\' ∈ topic ∨ ['.', '.'] <:+: topic then
    .error (.invalidName topic)
  else if topic.all (fun ch => settings.isAlphanumeric ch || ch = '.' || ch = '_' || ch = '-') then
    .ok ()
  else .error (.illegalCharacters topic)

def validateClientTopicName (settings : EngineSettings) (topic : TopicName) :
    Except TopicError Unit :=
  match validateTopicName settings topic with
  | .error e => .error e
  | .ok () => if isSystemTopic topic then .error .reservedTopic else .ok ()

def parseU32 (text : List Char) : Option UInt32 :=
  if stripPlus text ≠ [] ∧ (stripPlus text).all Char.isDigit ∧
      Nat.ofDigitChars 10 (stripPlus text) 0 < 2 ^ 32 then
    some (UInt32.ofNat (Nat.ofDigitChars 10 (stripPlus text) 0))
  else none

def dirName (partition : UInt32) : List Char :=
  topic ++ '-' :: Nat.toDigits 10 partition.toNat

variable (name : List Char)

def splitDirName : Option (List Char × List Char) :=
  if '-' ∈ name then
    some ((name.rdropWhile (· ≠ '-')).dropLast, name.rtakeWhile (· ≠ '-'))
  else none

def parseDirName : Option (TopicName × UInt32) :=
  (splitDirName name).bind (fun (topic, text) => (parseU32 text).map (fun p => (topic, p)))

/-- Whether `topic_partition_dirs` takes a directory for one of the topic. -/
def ownsDir : Bool :=
  (topic ++ ['-']).isPrefixOf name && (parseU32 (name.drop (topic.length + 1))).isSome

theorem parseU32_eq (text : List Char) :
    parseU32 text = (Decimal.parseBelow (2 ^ 32) text).map UInt32.ofNat := by
  unfold parseU32 Decimal.parseBelow
  split <;> rfl

theorem parseU32_toDigits (n : UInt32) : parseU32 (Nat.toDigits 10 n.toNat) = some n := by
  rw [parseU32_eq, Decimal.parseBelow_toDigits n.toNat_lt, Option.map_some, UInt32.ofNat_toNat]

theorem dash_not_mem_of_parseU32 {text : List Char} (h : (parseU32 text).isSome) : '-' ∉ text := by
  intro hdash
  have hmem : '-' ∈ stripPlus text := by
    rw [stripPlus]
    split
    · rename_i hplus
      obtain ⟨rest, rfl⟩ := head?_eq_some_iff.mp hplus
      exact (mem_cons.mp hdash).resolve_left (by decide)
    · exact hdash
  rw [parseU32] at h
  split at h
  · rename_i hnumber
    exact absurd (all_eq_true.mp hnumber.2.1 '-' hmem) (by decide)
  · cases h

theorem splitDirName_of_not_mem (topic : List Char) {text : List Char} (h : '-' ∉ text) :
    splitDirName (topic ++ '-' :: text) = some (topic, text) := by
  have hrev : ∀ ch ∈ text.reverse, (decide (ch ≠ '-')) = true := by
    intro ch hch
    exact decide_eq_true (fun heq => h (heq ▸ mem_reverse.mp hch))
  have hreverse : (topic ++ '-' :: text).reverse = text.reverse ++ '-' :: topic.reverse := by
    simp
  rw [splitDirName, if_pos (by simp), rdropWhile, rtakeWhile, hreverse,
    dropWhile_append_of_pos hrev, takeWhile_append_of_pos hrev]
  simp

theorem parseDirName_dirName (partition : UInt32) :
    parseDirName (dirName topic partition) = some (topic, partition) := by
  have hparse := parseU32_toDigits partition
  have hdash := dash_not_mem_of_parseU32 (Option.isSome_of_eq_some hparse)
  rw [parseDirName, dirName, splitDirName_of_not_mem topic hdash]
  simp [hparse]

/-- The directories of a topic are those of its partitions, also when another
topic's name goes on with a dash. -/
theorem ownsDir_dirName {topic name : TopicName} {partition : UInt32} :
    ownsDir topic (dirName name partition) = true ↔ name = topic := by
  have hparse := parseU32_toDigits partition
  have hdash := dash_not_mem_of_parseU32 (Option.isSome_of_eq_some hparse)
  constructor
  · intro h
    obtain ⟨hstart, hnumber⟩ := Bool.and_eq_true_iff.mp h
    obtain ⟨text, htext⟩ := isPrefixOf_iff_prefix.mp hstart
    have hsplit : dirName name partition = topic ++ '-' :: text := by simp [← htext]
    rw [hsplit] at hnumber
    have hfree : '-' ∉ text := dash_not_mem_of_parseU32 (by simpa using hnumber)
    have hcut := splitDirName_of_not_mem name hdash
    rw [← dirName, hsplit, splitDirName_of_not_mem topic hfree] at hcut
    exact (Prod.mk.inj (Option.some.inj hcut)).1.symm
  · rintro rfl
    refine Bool.and_eq_true_iff.mpr ⟨?_, ?_⟩
    · exact isPrefixOf_iff_prefix.mpr ⟨Nat.toDigits 10 partition.toNat, by simp [dirName]⟩
    · simp [dirName, hparse]

/-! ## The engine -/

/-- A record of the metadata log.  Records about brokers, access rights,
transactions and topic settings open and remove no partition. -/
inductive MetadataRecord where
  | topicPartition (topic : TopicName) (partition : UInt32)
  | topicCreated (topic : TopicName) (numPartitions : UInt32) (replicationFactor : UInt16)
  | partitionLeadershipChange (topic : TopicName) (partition leaderEpoch : UInt32)
  | topicDeleted (topic : TopicName)
  | other
deriving DecidableEq

structure TopicConfig where
  numPartitions : UInt32
  replicationFactor : UInt16
  partitions : AList (fun _ : UInt32 => UInt32)

structure StorageEngine where
  partitions : AList (fun _ : TopicName × UInt32 => PartitionManager)
  topicRegistry : AList (fun _ : TopicName => TopicConfig)
  metadata : List MetadataRecord
  /-- The metadata snapshot: the offset up to which it covers the log, and its
  records. -/
  metadataSnapshot : Option (Nat × List MetadataRecord)

/-- Open a partition's directory again.  What was written is in its files, synced
or not.  A graceful stop also writes the producer states. -/
def PartitionManager.reopen (pm : PartitionManager) (graceful : Bool) (now : Nat) :
    Except String PartitionManager :=
  (if graceful then pm.flush else pm).syncLog.crash now

namespace StorageEngine

def empty : StorageEngine :=
  { partitions := ∅, topicRegistry := ∅, metadata := [], metadataSnapshot := none }

variable (s : StorageEngine)

def withPartition (topic : TopicName) (partition : UInt32)
    (pm : PartitionManager) : StorageEngine :=
  { s with partitions := s.partitions.insert (topic, partition) pm }

variable (settings : EngineSettings)

def HasRoom (s : StorageEngine) : Prop :=
  s.partitions.keys.length + settings.systemPartitions < settings.maxPartitionsPerBroker

instance (settings : EngineSettings) (s : StorageEngine) : Decidable (s.HasRoom settings) :=
  inferInstanceAs (Decidable (_ < _))

def checkPartition (s : StorageEngine) (topic : TopicName)
    (partition : UInt32) : Except TopicError Unit :=
  match validateTopicName settings topic with
  | .error e => .error e
  | .ok () =>
    if partition.toNat ≥ settings.produce.maxPartitionsPerTopic ∧ ¬ isSystemTopic topic then
      .error (.exceedsTopicLimit partition topic settings.produce.maxPartitionsPerTopic)
    else if ¬ isSystemTopic topic ∧ (topic, partition) ∉ s.partitions ∧ ¬ s.HasRoom settings then
      .error (.atBrokerLimit topic partition settings.maxPartitionsPerBroker)
    else .ok ()

/-- A partition just opened learns its leader epoch from the registry. -/
def assigned (topic : TopicName) (partition : UInt32) (pm : PartitionManager) : PartitionManager :=
  match (s.topicRegistry.lookup topic).bind (fun cfg => cfg.partitions.lookup partition) with
  | some leaderEpoch => { pm with leaderEpoch }
  | none => pm

/-- `opened` is what opening the partition's directory gives. -/
def getOrCreatePartition (s : StorageEngine) (topic : TopicName)
    (partition : UInt32) (opened : Except String PartitionManager) :
    Except TopicError StorageEngine :=
  match s.checkPartition settings topic partition with
  | .error e => .error e
  | .ok () =>
    match s.partitions.lookup (topic, partition), opened with
    | some _, _ => .ok s
    | none, .error e => .error (.notOpened e)
    | none, .ok pm => .ok (s.withPartition topic partition (s.assigned topic partition pm))

/-- A partition that is not open has no directory, so that opening it creates it. -/
def createPartition (s : StorageEngine) (topic : TopicName)
    (partition : UInt32) (now : Nat) : Except TopicError StorageEngine :=
  s.getOrCreatePartition settings topic partition
    (.ok (PartitionManager.create settings.config settings.flushPolicy now))

def getOrCreatePartitionForClient (s : StorageEngine)
    (topic : TopicName) (partition : UInt32) (now : Nat) : Except TopicError StorageEngine :=
  match validateClientTopicName settings topic with
  | .error e => .error e
  | .ok () =>
    if (topic, partition) ∈ s.partitions then .ok s
    else if isSystemTopic topic ∨ topic ∈ s.topicRegistry ∨ settings.autoCreateTopicsEnable then
      s.createPartition settings topic partition now
    else .error (.unknownTopic topic)

/-! ### Records -/

def applyTopicDeletion (topic : TopicName) : StorageEngine :=
  { s with
    topicRegistry := s.topicRegistry.erase topic
    partitions := s.partitions.eraseAll
      (s.partitions.keys.filter (fun key => ownsDir topic (dirName key.1 key.2))) }

def orKeep : Except TopicError StorageEngine → StorageEngine
  | .ok s' => s'
  | .error _ => s

/-- Only a registered topic has its assignments kept. -/
def assignPartition (topic : TopicName) (partition leaderEpoch : UInt32) : StorageEngine :=
  match s.topicRegistry.lookup topic with
  | some cfg =>
    let partitions := cfg.partitions.insert partition leaderEpoch
    { s with topicRegistry := s.topicRegistry.insert topic { cfg with partitions } }
  | none => s

def setLeaderEpoch (topic : TopicName) (partition leaderEpoch : UInt32) : StorageEngine :=
  match s.partitions.lookup (topic, partition) with
  | some pm => s.withPartition topic partition { pm with leaderEpoch }
  | none => s

def applyMetadataRecord (now : Nat) (s : StorageEngine) : MetadataRecord → StorageEngine
  | .topicPartition topic partition =>
    s.orKeep (s.createPartition settings topic partition now)
  | .topicCreated topic numPartitions replicationFactor =>
    { s with topicRegistry :=
      s.topicRegistry.insert topic { numPartitions, replicationFactor, partitions := ∅ } }
  | .partitionLeadershipChange topic partition leaderEpoch =>
    let s := s.assignPartition topic partition leaderEpoch
    match s.createPartition settings topic partition now with
    | .ok s => s.setLeaderEpoch topic partition leaderEpoch
    | .error _ => s
  | .topicDeleted topic => s.applyTopicDeletion topic
  | .other => s

def replay (now : Nat) (s : StorageEngine) (records : List MetadataRecord) : StorageEngine :=
  records.foldl (applyMetadataRecord settings now) s

def proposeMetadata (now : Nat) (s : StorageEngine) (record : MetadataRecord) : StorageEngine :=
  applyMetadataRecord settings now { s with metadata := s.metadata ++ [record] } record

/-! ### Requests -/

def creationRecords (topic : TopicName) (numPartitions : UInt32) (replicationFactor : UInt16) :
    List MetadataRecord :=
  .topicCreated topic numPartitions replicationFactor :: (range numPartitions.toNat).map (fun p =>
      .partitionLeadershipChange topic (UInt32.ofNat p) 0)

/-- The replication factor is the one already brought down to the brokers there
are. -/
def createTopic (s : StorageEngine) (topic : TopicName)
    (numPartitions : UInt32) (replicationFactor : UInt16) (now : Nat) :
    Except TopicError StorageEngine :=
  match validateClientTopicName settings topic with
  | .error e => .error e
  | .ok () =>
    if numPartitions = 0 ∨ numPartitions > 10000 then .error .invalidPartitionCount
    else .ok ((creationRecords topic numPartitions replicationFactor).foldl
      (proposeMetadata settings now) s)

def deleteTopic (s : StorageEngine) (topic : TopicName) (now : Nat) :
    Except TopicError StorageEngine :=
  match validateClientTopicName settings topic with
  | .error e => .error e
  | .ok () => .ok (s.proposeMetadata settings now (.topicDeleted topic))

/-- A produce request.  The partition is opened after the checks on the request's
size and before the one on its keys. -/
def produceBatch (c : Crates) (settings : EngineSettings) (s : StorageEngine) (topic : TopicName)
    (partition : UInt32) (request : ProduceRequest) (now : Nat) :
    StorageEngine × Except (TopicError ⊕ ProduceError) (Nat × Nat) :=
  match request.check c { settings.produce with compacted := false } with
  | some e => (s, .error (.inr e))
  | none =>
    match s.getOrCreatePartitionForClient settings topic partition now with
    | .error e => (s, .error (.inl e))
    | .ok s =>
      match s.partitions.lookup (topic, partition) with
      | none => (s, .error (.inl (.unknownTopic topic)))
      | some pm =>
        let (pm, answer) := produceBatchLocal c settings.produce pm request now
        (s.withPartition topic partition pm, answer.mapError Sum.inr)

/-! ### The metadata snapshot -/

def buildMetadataSnapshotRecords : List MetadataRecord :=
  .other :: s.topicRegistry.entries.flatMap (fun entry =>
    .topicCreated entry.1 entry.2.numPartitions entry.2.replicationFactor ::
      entry.2.partitions.entries.map (fun assign =>
        .partitionLeadershipChange entry.1 assign.1 assign.2))

def snapshotOffset : Nat := (s.metadataSnapshot.map Prod.fst).getD 0

def snapshotRecords : List MetadataRecord :=
  (s.metadataSnapshot.map Prod.snd).getD []

def minNewRecords : Nat := 500

def snapshotMetadataIfNeeded : StorageEngine :=
  let leo := s.metadata.length
  if leo ≤ s.snapshotOffset ∨ leo - s.snapshotOffset < minNewRecords then s
  else { s with metadataSnapshot := some (leo, s.buildMetadataSnapshotRecords) }

/-! ### A restart -/

/-- Open the directories found at a start.  One that cannot be opened ends the
start. -/
def scan (settings : EngineSettings) (graceful : Bool) (now : Nat) :
    List (Sigma (fun _ : TopicName × UInt32 => PartitionManager)) → StorageEngine →
      Except TopicError StorageEngine
  | [], s => .ok s
  | ⟨key, pm⟩ :: rest, s =>
    match parseDirName (dirName key.1 key.2) with
    | none => scan settings graceful now rest s
    | some (topic, partition) =>
      match s.getOrCreatePartition settings topic partition (pm.reopen graceful now) with
      | .error e => .error e
      | .ok s => scan settings graceful now rest s

def openDirectories (s : StorageEngine) (graceful : Bool) (now : Nat) :
    Except TopicError StorageEngine :=
  scan settings graceful now s.partitions.entries { s with partitions := ∅, topicRegistry := ∅ }

def replayed : List MetadataRecord := s.metadata.drop s.snapshotOffset

/-- `StorageEngine::new` on what the broker left.  The broker registers itself in
the end. -/
def restart (s : StorageEngine) (graceful : Bool) (now : Nat) : Except TopicError StorageEngine :=
  match s.openDirectories settings graceful now with
  | .error e => .error e
  | .ok opened =>
    .ok (((opened.replay settings now s.snapshotRecords).replay settings now
      s.replayed).proposeMetadata settings now .other)

end StorageEngine

inductive TopicEvent where
  | createTopic (topic : TopicName) (numPartitions : UInt32)
    (replicationFactor : UInt16) (now : Nat)
  | deleteTopic (topic : TopicName) (now : Nat)
  | produce (topic : TopicName) (partition : UInt32) (request : ProduceRequest) (now : Nat)
  | proposeOther (now : Nat)
  | snapshotMetadata
  | restart (graceful : Bool) (now : Nat)

/-- A request that is refused, or a start that fails, leaves the broker's data as
it is. -/
def StorageEngine.step (c : Crates) (settings : EngineSettings) (s : StorageEngine) :
    TopicEvent → StorageEngine
  | .createTopic topic numPartitions replicationFactor now =>
    s.orKeep (s.createTopic settings topic numPartitions replicationFactor now)
  | .deleteTopic topic now => s.orKeep (s.deleteTopic settings topic now)
  | .produce topic partition request now =>
    (s.produceBatch c settings topic partition request now).1
  | .proposeOther now => s.proposeMetadata settings now .other
  | .snapshotMetadata => s.snapshotMetadataIfNeeded
  | .restart graceful now => s.orKeep (s.restart settings graceful now)

end Bifrox.Server

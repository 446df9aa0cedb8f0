/-
States of the metadata that a snapshot covers.

The open partitions and the next producer id are not in a snapshot, so a state can only be
restored when these are what the rest makes of them (`Covered`).
-/
import Bifrox.Metadata.Snapshot

namespace Bifrox.Metadata

open List Option Table MetadataRecord Engine Broker
open Decoder (Bytes)
open Server (AclBinding TransactionalProducerState isSystemTopic validateTopicName)

/-! ## The open partitions that the rest of a state implies -/

namespace Broker

variable (broker : Broker) (opened : Finset (Text × UInt32)) (registry : Table Text TopicConfig)

variable (key : Text × UInt32)

def isOpenable : Bool :=
  (validateTopicName broker.settings key.1).isOk &&
    (key.2.toNat < broker.settings.produce.maxPartitionsPerTopic || isSystemTopic key.1)

/-- The settings that the stored configs of a topic give a partition just opened. -/
def topicSettings (topic : Text) : PartitionSettings :=
  match registry.lookup topic with
  | some cfg => cfg.configs.push broker.floats broker.defaultSettings
  | none => broker.defaultSettings

/-- The leadership that the registry has for a partition that can be opened. -/
def assigned : Option PartitionAssignment :=
  if broker.isOpenable key then (registry.lookup key.1).bind (·.partitions.lookup key.2) else none

/-- What is open, given what was open at the start and the registry. -/
def expected : Option OpenPartition :=
  ((broker.assigned registry key).or
    (if key ∈ opened then some broker.defaultAssignment else none)).map fun assignment =>
      { assignment, settings := broker.topicSettings registry key.1 }

variable {key : Text × UInt32} {cfg : TopicConfig}

theorem expected_congr {registry registry' : Table Text TopicConfig}
    (h : registry.lookup key.1 = registry'.lookup key.1) :
    broker.expected opened registry key = broker.expected opened registry' key := by
  simp only [expected, assigned, topicSettings, h]

theorem topicSettings_eq_of_lookup {topic : Text} (h : registry.lookup topic = some cfg) :
    broker.topicSettings registry topic =
      cfg.configs.push broker.floats broker.defaultSettings := by
  rw [topicSettings, h]

theorem expected_of_unregistered (h : registry.lookup key.1 = none) :
    broker.expected opened registry key =
      if key ∈ opened then some broker.defaultPartition else none := by
  have hassigned : broker.assigned registry key = none := by
    rw [assigned, h, bind_none, ite_self]
  rw [expected, hassigned, none_or]
  split
  · simp only [map_some, topicSettings, h, defaultPartition]
  · rfl

theorem expected_insert_assignment {topic : Text} (hcfg : registry.lookup topic = some cfg)
    (partition : UInt32) (assignment : PartitionAssignment) (key : Text × UInt32) :
    broker.expected opened (registry.insert topic
        { cfg with partitions := cfg.partitions.insert partition assignment }) key =
      if key = (topic, partition) ∧ broker.isOpenable key = true then
        some { assignment, settings := cfg.configs.push broker.floats broker.defaultSettings }
      else broker.expected opened registry key := by
  have hself := lookup_insert_self registry topic
    { cfg with partitions := cfg.partitions.insert partition assignment }
  by_cases htopic : key.1 = topic
  · subst htopic
    rw [expected, expected, assigned, assigned, hself, hcfg,
      broker.topicSettings_eq_of_lookup _ hself, broker.topicSettings_eq_of_lookup _ hcfg,
      bind_some, bind_some, lookup_insert]
    by_cases hpartition : key.2 = partition
    · cases hopenable : broker.isOpenable key with
      | true =>
        have hkey : key = (key.1, partition) ∧ true = true := ⟨Prod.ext rfl hpartition, rfl⟩
        rw [if_pos rfl, if_pos hpartition, if_pos hkey]
        rfl
      | false => simp
    · have hkey : ¬ (key = (key.1, partition) ∧ broker.isOpenable key = true) :=
        fun h => hpartition (congrArg Prod.snd h.1)
      rw [if_neg hpartition, if_neg hkey]
  · have hkey : ¬ (key = (topic, partition) ∧ broker.isOpenable key = true) :=
      fun h => htopic (congrArg Prod.fst h.1)
    rw [if_neg hkey]
    exact broker.expected_congr opened (lookup_insert_of_ne _ htopic _)

end Broker

/-! ## Covered states -/

structure AssignmentCovered (assignment : PartitionAssignment) : Prop where
  replicas_ne_nil : assignment.replicas ≠ []
  isr_subset : assignment.isr ⊆ assignment.replicas
  length_isr_le : assignment.isr.length ≤ maxItems
  length_replicas_le : assignment.replicas.length ≤ maxItems

structure TopicCovered (broker : Broker) (topic : Text) (cfg : TopicConfig) : Prop where
  short : Short topic
  cleanupPolicy : cfg.cleanupPolicy = broker.cleanupPolicy
  assignments : cfg.partitions.All fun _ assignment => AssignmentCovered assignment
  configs : ∃ source, cfg.configs = ofList source ∧ (topicConfigChanged topic source).Storable

/-- The next producer id is the least above all that are stored. -/
structure NextProducer (producers : Table Text TransactionalProducerState) (next : Nat) : Prop where
  pos : 1 ≤ next
  le : producers.All fun _ producer => nextCandidate producer.producerId ≤ next
  reached : next = 1 ∨ ∃ id producer, producers.lookup id = some producer ∧
    next = nextCandidate producer.producerId

/-- A snapshot of the state covers it, for engines that start with the given partitions
open. -/
structure Covered (broker : Broker) (opened : Finset (Text × UInt32)) (s : Engine) : Prop where
  addrs : s.brokerAddrs.All fun _ addr => Short addr
  own : (s.brokerAddrs.lookup broker.nodeId).isSome
  roles : s.brokerRoles.All fun _ roles => roles ≠ [] ∧ roles.length < 2 ^ 8
  roles_iff : ∀ nodeId, (s.brokerRoles.lookup nodeId).isSome = (s.brokerAddrs.lookup nodeId).isSome
  topics : s.topicRegistry.All (TopicCovered broker)
  partitions : ∀ key, s.partitions.lookup key = broker.expected opened s.topicRegistry key
  room : ∀ key, (s.partitions.lookup key).isSome → key ∉ opened →
    s.partitions.card + broker.settings.systemPartitions ≤ broker.settings.maxPartitionsPerBroker
  acls : ∀ binding ∈ s.acls, BindingFits binding
  credentials : s.scramCredentials.All fun key credential =>
    key = (credential.username, credential.mechanism) ∧ (credentialRecord credential).Fits
  producers : s.transactionalProducers.All fun id _ => Short id
  next : NextProducer s.transactionalProducers s.nextProducerId
  transactions : s.transactions.All fun id state => state.record.transactionId = id ∧
    ∀ revision createdAtMs, (transactionState revision createdAtMs state.record).Storable
  revisions_iff : ∀ id, (s.transactionRevisions.lookup id).isSome =
    (s.transactions.lookup id).isSome

/-- The condition on a record under which a snapshot still covers the state after it. -/
def Restorable (broker : Broker) (opened : Finset (Text × UInt32)) (s : Engine) :
    MetadataRecord → Prop
  -- An engine knows its own address from the start.
  | .brokerUnregister nodeId => nodeId ≠ broker.nodeId
  -- A topic that is created again loses its assignments; its open partitions keep them.
  | .topicCreated topic _ _ => s.topicRegistry.lookup topic = none
  -- Partitions that are open at the start are not removed again by a snapshot.
  | .topicDeleted topic => ∀ partition, (topic, partition) ∉ opened
  -- A partition that is opened without being assigned is not in the snapshot.
  | .topicPartition topic partition _ _ =>
    broker.isOpenable (topic, partition) = true → (s.partitions.lookup (topic, partition)).isSome
  -- Leadership is kept in the registry, and a partition opened late has no configs.
  | .partitionLeadershipChange topic partition _ _ isr replicas =>
    (∃ cfg, s.topicRegistry.lookup topic = some cfg ∧ (broker.isOpenable (topic, partition) = true →
        (s.partitions.lookup (topic, partition)).isSome ∨ (s.HasRoom broker ∧
            cfg.configs.push broker.floats broker.defaultSettings = broker.defaultSettings))) ∧
      s.roster topic partition isr replicas ≠ [] ∧
      (s.roster topic partition isr replicas).length ≤ maxItems
  -- What was pushed before and is not overwritten stays in force.
  | .topicConfigChanged topic configs =>
    ((s.topicRegistry.lookup topic).isSome ∨
      ∀ partition, s.partitions.lookup (topic, partition) = none) ∧
      ∀ partition pm, s.partitions.lookup (topic, partition) = some pm →
        Configs.push broker.floats (ofList configs) pm.settings =
          Configs.push broker.floats (ofList configs) broker.defaultSettings
  -- The largest id that a producer ever had bounds the next one.
  | .transactionalProducerRegistration transactionalId producerId _ =>
    ∀ producer, s.transactionalProducers.lookup transactionalId = some producer →
      producer.producerId ≤ producerId
  | _ => True

theorem nextProducer_empty : NextProducer ∅ 1 where
  pos := Nat.le_refl 1
  le := All.empty
  reached := .inl rfl

theorem covered_fresh (broker : Broker) (opened : Finset (Text × UInt32)) :
    Covered broker opened (broker.fresh opened) where
  addrs := All.empty.insert broker.bindAddr_short
  own := by simp [fresh]
  roles := All.empty.insert ⟨broker.roles_ne_nil, broker.length_roles_lt⟩
  roles_iff := by
    intro nodeId
    by_cases hnode : nodeId = broker.nodeId <;> simp [fresh, lookup_insert, hnode]
  topics := All.empty
  partitions := by
    intro key
    rw [broker.expected_of_unregistered opened _ (by rfl)]
    rfl
  room := by
    intro key hsome hnot
    have hnone : ((broker.fresh opened).partitions.lookup key) = none := if_neg hnot
    rw [hnone] at hsome
    cases hsome
  acls := by
    intro binding hmem
    exact absurd hmem (Finset.notMem_empty binding)
  credentials := All.empty
  producers := All.empty
  next := nextProducer_empty
  transactions := All.empty
  revisions_iff := fun _ => rfl

/-! ## Opening a partition -/

namespace Engine

variable {broker : Broker} {s : Engine} {topic : Text} {partition : UInt32} {pm : OpenPartition}

theorem checkPartition_of_openable (h : broker.isOpenable (topic, partition) = true)
    (hroom : (s.partitions.lookup (topic, partition)).isSome ∨ s.HasRoom broker) :
    s.checkPartition broker topic partition = .ok () := by
  unfold checkPartition
  rw [isOpenable, Bool.and_eq_true] at h
  split
  · next e hname =>
    rw [hname] at h
    exact absurd h.1 Bool.false_ne_true
  · have hsmall : ¬ (partition.toNat ≥ broker.settings.produce.maxPartitionsPerTopic ∧
        ¬ isSystemTopic topic = true) := by
      rintro ⟨hbig, hclient⟩
      rw [Bool.or_eq_true, decide_eq_true_iff] at h
      exact h.2.elim (fun hlt => Nat.not_lt.mpr hbig hlt) hclient
    have hfree : ¬ (¬ isSystemTopic topic = true ∧
        (s.partitions.lookup (topic, partition)).isNone = true ∧ ¬ s.HasRoom broker) := by
      rintro ⟨-, hnone, hfull⟩
      rcases hroom with hsome | hroom
      · rw [isNone_iff_eq_none.mp hnone] at hsome
        cases hsome
      · exact hfull hroom
    rw [if_neg hsmall, if_neg hfree]

theorem getOrCreatePartition_of_open (h : broker.isOpenable (topic, partition) = true)
    (hopen : s.partitions.lookup (topic, partition) = some pm) :
    s.getOrCreatePartition broker topic partition = .ok s := by
  have hcheck := checkPartition_of_openable (s := s) h (.inl (by rw [hopen]; rfl))
  simp only [getOrCreatePartition, hcheck, hopen]

theorem isOpenable_of_check (h : s.checkPartition broker topic partition = .ok ()) :
    broker.isOpenable (topic, partition) = true := by
  unfold checkPartition at h
  rw [isOpenable]
  split at h
  · cases h
  · next hname =>
    split at h
    · cases h
    · next hsmall => simpa [hname, Except.isOk, Except.toBool, imp_iff_not_or] using hsmall

theorem getOrCreatePartition_of_not_openable (h : broker.isOpenable (topic, partition) = false) :
    ∃ e, s.getOrCreatePartition broker topic partition = .error e := by
  cases hcheck : s.checkPartition broker topic partition with
  | error e => exact ⟨e, by simp only [getOrCreatePartition, hcheck]⟩
  | ok => exact absurd (h.symm.trans (isOpenable_of_check hcheck)) Bool.false_ne_true

/-! ## Leadership -/

theorem subset_widen (replicas isr : List UInt32) : replicas ⊆ widen replicas isr := by
  rw [widen]
  induction isr generalizing replicas with
  | nil => exact List.Subset.refl _
  | cons node isr ih =>
    rw [foldl_cons]
    split
    · exact ih replicas
    · exact List.Subset.trans (subset_append_left _ _) (ih _)

theorem isr_subset_widen (replicas isr : List UInt32) : isr ⊆ widen replicas isr := by
  rw [widen]
  induction isr generalizing replicas with
  | nil => exact nil_subset _
  | cons node isr ih =>
    rw [foldl_cons, cons_subset]
    refine ⟨?_, ih _⟩
    split
    · next hmem => exact subset_widen replicas isr hmem
    · exact subset_widen _ isr (mem_append_right _ mem_cons_self)

theorem widen_of_subset {replicas isr : List UInt32} (h : isr ⊆ replicas) :
    widen replicas isr = replicas := by
  rw [widen]
  induction isr with
  | nil => rfl
  | cons node isr ih =>
    rw [cons_subset] at h
    rw [foldl_cons, if_pos h.1]
    exact ih h.2

theorem changeLeadership_eq_assign (broker : Broker) (partition : UInt32)
    (assignment : PartitionAssignment) :
    s.changeLeadership broker topic partition assignment =
      { s.assignPartition topic partition assignment with
        partitions :=
          if (s.checkPartition broker topic partition).isOk then
            s.partitions.insert (topic, partition)
              { assignment
                settings := ((s.partitions.lookup (topic, partition)).map (·.settings)).getD
                  (s.openPartition broker topic partition).settings }
          else s.partitions } := by
  have hcheck (topicRegistry : Table Text TopicConfig) : Engine.checkPartition broker
      { s with topicRegistry } topic partition = s.checkPartition broker topic partition := rfl
  rw [changeLeadership, assignPartition, openPartition]
  cases hcfg : s.topicRegistry.lookup topic <;>
    cases hok : s.checkPartition broker topic partition <;>
    cases hopen : s.partitions.lookup (topic, partition) <;>
    simp [getOrCreatePartition, updateLeadership, openPartition, *, Except.isOk, Except.toBool]

theorem partitions_changeLeadership_of_open
    (assignment : PartitionAssignment) (h : broker.isOpenable (topic, partition) = true)
    (hopen : s.partitions.lookup (topic, partition) = some pm) :
    (s.changeLeadership broker topic partition assignment).partitions =
      s.partitions.insert (topic, partition) { pm with assignment } := by
  rw [changeLeadership_eq_assign, hopen, checkPartition_of_openable h (.inl (hopen ▸ rfl))]
  rfl

theorem changeLeadership_eq (broker : Broker) (partition : UInt32)
    (assignment : PartitionAssignment) {cfg : TopicConfig}
    (hcfg : s.topicRegistry.lookup topic = some cfg)
    (hroom : broker.isOpenable (topic, partition) = true →
      (s.partitions.lookup (topic, partition)).isSome ∨ s.HasRoom broker) :
    s.changeLeadership broker topic partition assignment = { s with
        topicRegistry := s.topicRegistry.insert topic
          { cfg with partitions := cfg.partitions.insert partition assignment }
        partitions :=
          if broker.isOpenable (topic, partition) then
            s.partitions.insert (topic, partition)
              { assignment
                settings := ((s.partitions.lookup (topic, partition)).map (·.settings)).getD
                  { broker.defaultSettings with cleanupPolicy := cfg.cleanupPolicy } }
          else s.partitions } := by
  have hcheck : (s.checkPartition broker topic partition).isOk =
      broker.isOpenable (topic, partition) := by
    cases hopenable : broker.isOpenable (topic, partition) with
    | true => rw [checkPartition_of_openable hopenable (hroom hopenable)]; rfl
    | false =>
      cases hcheck : s.checkPartition broker topic partition with
      | error => rfl
      | ok => exact absurd (hopenable.symm.trans (isOpenable_of_check hcheck)) Bool.false_ne_true
  rw [changeLeadership_eq_assign, hcheck, assignPartition, openPartition]
  simp only [hcfg]

end Engine

/-! ## Records keep a state covered -/

theorem NextProducer.insert {producers : Table Text TransactionalProducerState} {next : Nat}
    (h : NextProducer producers next) (id : Text) (producer : TransactionalProducerState)
    (hkeep : ∀ old, producers.lookup id = some old → old.producerId ≤ producer.producerId) :
    NextProducer (producers.insert id producer) (max next (nextCandidate producer.producerId)) where
  pos := Nat.le_trans h.pos (Nat.le_max_left _ _)
  le := by
    refine Table.All.insert (fun id' producer' hlookup => ?_) (Nat.le_max_right _ _)
    exact Nat.le_trans (h.le id' producer' hlookup) (Nat.le_max_left _ _)
  reached := by
    by_cases hle : next ≤ nextCandidate producer.producerId
    · rw [Nat.max_eq_right hle]
      exact .inr ⟨id, producer, lookup_insert_self _ _ _, rfl⟩
    · rw [Nat.max_eq_left (by omega)]
      refine h.reached.imp_right ?_
      rintro ⟨id', producer', hlookup, hnext⟩
      refine ⟨id', producer', ?_, hnext⟩
      rw [lookup_insert_of_ne]
      · exact hlookup
      · rintro rfl
        -- The producer that is replaced had a smaller id, so it did not set the bound.
        have hid := hkeep producer' hlookup
        have hnat : producer'.producerId.toNat ≤ producer.producerId.toNat := hid
        rw [hnext, nextCandidate, nextCandidate] at hle
        omega

namespace Covered

variable {broker : Broker} {opened : Finset (Text × UInt32)} {s : Engine}

theorem registerBroker (h : Covered broker opened s) (nodeId : UInt32) {bindAddr : Text}
    {roles : Bytes} (haddr : Short bindAddr) (hroles : roles.length < 2 ^ 8) :
    Covered broker opened (s.registerBroker nodeId bindAddr roles) where
  __ := h
  addrs := h.addrs.insert haddr
  own := by
    show ((s.brokerAddrs.insert nodeId bindAddr).lookup broker.nodeId).isSome
    rw [lookup_insert]
    split
    · rfl
    · exact h.own
  roles := h.roles.insert
    ⟨parseProcessRoleBytes_ne_nil roles, length_parseProcessRoleBytes_lt hroles⟩
  roles_iff := by
    intro n
    show ((s.brokerRoles.insert nodeId _).lookup n).isSome =
      ((s.brokerAddrs.insert nodeId bindAddr).lookup n).isSome
    rw [lookup_insert, lookup_insert]
    split
    · rfl
    · exact h.roles_iff n

theorem unregisterBroker (h : Covered broker opened s) {nodeId : UInt32}
    (hnode : nodeId ≠ broker.nodeId) : Covered broker opened (s.unregisterBroker nodeId) where
  __ := h
  addrs := h.addrs.erase nodeId
  own := by
    show ((s.brokerAddrs.erase nodeId).lookup broker.nodeId).isSome
    rw [lookup_erase_of_ne _ (Ne.symm hnode)]
    exact h.own
  roles := h.roles.erase nodeId
  roles_iff := by
    intro n
    show ((s.brokerRoles.erase nodeId).lookup n).isSome =
      ((s.brokerAddrs.erase nodeId).lookup n).isSome
    by_cases hn : n = nodeId
    · rw [hn, lookup_erase_self, lookup_erase_self]
      rfl
    · rw [lookup_erase_of_ne _ hn, lookup_erase_of_ne _ hn]
      exact h.roles_iff n

variable {topic : Text}

theorem storable_topicConfigChanged_nil (h : Short topic) :
    (topicConfigChanged topic []).Storable := by
  refine ⟨⟨h, Nat.zero_le _, by simp⟩, ?_⟩
  rw [Short] at h
  simp only [encode, body, length_cons, length_append,
    Decoder.length_putText, BigEndian.length_put, flatMap_nil, length_nil]
  omega

section

variable (h : Covered broker opened s)
include h

theorem createTopic (hshort : Short topic) (hnew : s.topicRegistry.lookup topic = none)
    (numPartitions : UInt32) (replicationFactor : UInt16) :
    Covered broker opened (s.createTopic broker topic numPartitions replicationFactor) where
  __ := h
  topics := h.topics.insert
    { short := hshort
      cleanupPolicy := rfl
      assignments := All.empty
      configs := ⟨[], rfl, storable_topicConfigChanged_nil hshort⟩ }
  partitions := by
    intro key
    show s.partitions.lookup key = _
    rw [h.partitions]
    by_cases hkey : key.1 = topic
    · have hbefore : s.topicRegistry.lookup key.1 = none := by rw [hkey, hnew]
      have hafter : (s.createTopic broker topic numPartitions
          replicationFactor).topicRegistry.lookup
          key.1 = some { numPartitions, replicationFactor, cleanupPolicy := broker.cleanupPolicy,
                         partitions := ∅, configs := ∅ } := by
        rw [hkey]
        exact lookup_insert_self _ _ _
      have hassigned : broker.assigned
          (s.createTopic broker topic numPartitions replicationFactor).topicRegistry key =
            none := by
        rw [assigned, hafter, bind_some, lookup_empty, ite_self]
      rw [broker.expected_of_unregistered opened _ hbefore, expected, hassigned,
        none_or, broker.topicSettings_eq_of_lookup _ hafter, Configs.push_empty]
      split <;> rfl
    · apply broker.expected_congr
      exact (lookup_insert_of_ne _ hkey _).symm

theorem applyTopicDeletion (hopened : ∀ partition, (topic, partition) ∉ opened) :
    Covered broker opened (s.applyTopicDeletion topic) where
  __ := h
  topics := h.topics.erase topic
  partitions := by
    intro key
    show (s.partitions.retain (fun key => key.1 ≠ topic)).lookup key = _
    rw [lookup_retain]
    by_cases hkey : key.1 = topic
    · have hnone : (s.applyTopicDeletion topic).topicRegistry.lookup key.1 = none := by
        rw [hkey]
        exact lookup_erase_self _ _
      rw [broker.expected_of_unregistered opened _ hnone, if_neg (by simpa using hkey),
        if_neg (by rw [← hkey] at hopened; exact hopened key.2)]
    · rw [if_pos (by simpa using hkey), h.partitions]
      apply broker.expected_congr
      exact (lookup_erase_of_ne _ hkey).symm
  room := by
    intro key hsome hnot
    have hbefore : ∀ k, ((s.applyTopicDeletion topic).partitions.lookup k).isSome →
        (s.partitions.lookup k).isSome := by
      intro k hk
      have hk' : ((s.partitions.retain (fun key => key.1 ≠ topic)).lookup k).isSome := hk
      rw [lookup_retain] at hk'
      split at hk'
      · exact hk'
      · cases hk'
    have hroom := h.room key (hbefore key hsome) hnot
    have hcard := card_le_card hbefore
    omega

theorem changeLeadership {partition : UInt32} {assignment : PartitionAssignment} {cfg : TopicConfig}
    (hcfg : s.topicRegistry.lookup topic = some cfg)
    (hopen : broker.isOpenable (topic, partition) = true →
      (s.partitions.lookup (topic, partition)).isSome ∨ (s.HasRoom broker ∧
          cfg.configs.push broker.floats broker.defaultSettings = broker.defaultSettings))
    (hassignment : AssignmentCovered assignment) :
    Covered broker opened (s.changeLeadership broker topic partition assignment) := by
  have htopic := h.topics topic cfg hcfg
  rw [changeLeadership_eq broker partition assignment hcfg
    (fun hopenable => (hopen hopenable).imp_right And.left)]
  -- An open partition has the settings of its topic, and so has one that is opened now.
  have hsettings : broker.isOpenable (topic, partition) = true →
      ((s.partitions.lookup (topic, partition)).map (·.settings)).getD
        { broker.defaultSettings with cleanupPolicy := cfg.cleanupPolicy } =
      cfg.configs.push broker.floats broker.defaultSettings := by
    intro hopenable
    cases hpm : s.partitions.lookup (topic, partition) with
    | some =>
      have hexpected := h.partitions (topic, partition)
      rw [hpm, expected, eq_comm, map_eq_some_iff] at hexpected
      obtain ⟨a, -, rfl⟩ := hexpected
      exact broker.topicSettings_eq_of_lookup _ hcfg
    | none =>
      rw [((hopen hopenable).resolve_left (by simp [hpm])).2, htopic.cleanupPolicy]
      rfl
  refine { h with topics := ?_, partitions := fun key => ?_, room := fun key hsome hnot => ?_ }
  · exact h.topics.insert { htopic with assignments := htopic.assignments.insert hassignment }
  · rw [broker.expected_insert_assignment opened _ hcfg, ← h.partitions]
    dsimp only
    cases hopenable : broker.isOpenable (topic, partition) with
    | true =>
      rw [if_pos rfl, lookup_insert, hsettings hopenable]
      by_cases hkey : key = (topic, partition) <;> simp [hkey, hopenable]
    | false =>
      have hkey : ¬ (key = (topic, partition) ∧ broker.isOpenable key = true) := by
        rintro ⟨rfl, htrue⟩
        simp [hopenable] at htrue
      rw [if_neg hkey]
      rfl
  · dsimp only at hsome ⊢
    cases hopenable : broker.isOpenable (topic, partition) with
    | true =>
      rw [hopenable, if_pos rfl] at hsome
      rw [if_pos rfl]
      rcases hopen hopenable with hbefore | ⟨hroom, -⟩
      · have hopen' : ∀ pm k, ((s.partitions.insert (topic, partition) pm).lookup k).isSome →
            (s.partitions.lookup k).isSome := by
          intro pm k hk
          rw [lookup_insert] at hk
          split at hk
          · next heq => rwa [heq]
          · exact hk
        exact (Nat.add_le_add_right (card_le_card (hopen' _)) _).trans
          (h.room key (hopen' _ key hsome) hnot)
      · exact (Nat.add_le_add_right (card_insert_le s.partitions _ _) _).trans
          (by rw [Engine.HasRoom] at hroom; omega)
    | false =>
      rw [hopenable] at hsome
      exact h.room key hsome hnot

theorem applyTopicConfigChange {configs : List (Text × Text)}
    (hstorable : (topicConfigChanged topic configs).Storable)
    (hknown : (s.topicRegistry.lookup topic).isSome ∨
      ∀ partition, s.partitions.lookup (topic, partition) = none)
    (hpush : ∀ partition pm, s.partitions.lookup (topic, partition) = some pm →
      Configs.push broker.floats (ofList configs) pm.settings =
        Configs.push broker.floats (ofList configs) broker.defaultSettings) :
    Covered broker opened (s.applyTopicConfigChange broker topic configs) := by
  cases hcfg : s.topicRegistry.lookup topic with
  | none =>
    -- Nothing is stored, and there is no partition to push to.
    have hclosed := hknown.resolve_left (by rw [hcfg]; exact Bool.false_ne_true)
    have hsame : s.applyTopicConfigChange broker topic configs = s := by
      refine Engine.ext rfl rfl ?_ (ext fun key => ?_) rfl rfl rfl rfl rfl rfl
      · simp only [Engine.applyTopicConfigChange, Engine.setTopicConfigs, hcfg]
      · show (s.partitions.lookup key).map _ = s.partitions.lookup key
        by_cases hkey : key.1 = topic
        · subst hkey
          rw [show s.partitions.lookup key = none from hclosed key.2]
          rfl
        · simp [hkey]
    rw [hsame]
    exact h
  | some cfg =>
    have htopic := h.topics topic cfg hcfg
    have hregistry : (s.applyTopicConfigChange broker topic configs).topicRegistry =
        s.topicRegistry.insert topic { cfg with configs := ofList configs } := by
      simp only [Engine.applyTopicConfigChange, Engine.setTopicConfigs, hcfg]
    refine { h with topics := ?_, partitions := ?_, room := ?_ }
    · rw [hregistry]
      exact h.topics.insert { htopic with configs := ⟨configs, rfl, hstorable⟩ }
    · intro key
      rw [hregistry]
      show (s.partitions.lookup key).map _ = _
      by_cases hkey : key.1 = topic
      · subst hkey
        have hself := lookup_insert_self s.topicRegistry key.1
          { cfg with configs := ofList configs }
        have hassigned : broker.assigned (s.topicRegistry.insert key.1
            { cfg with configs := ofList configs }) key = broker.assigned s.topicRegistry key := by
          simp [assigned, hcfg]
        rw [expected, hassigned, broker.topicSettings_eq_of_lookup _ hself]
        have hexpected := h.partitions key
        rw [expected] at hexpected
        cases hlead : (broker.assigned s.topicRegistry key).or
            (if key ∈ opened then some broker.defaultAssignment else none) with
        | none =>
          rw [hlead] at hexpected
          rw [hexpected]
          rfl
        | some assignment =>
          rw [hlead, map_some] at hexpected
          have hsettings := hpush key.2 _ hexpected
          rw [hexpected, map_some, map_some]
          dsimp only
          rw [if_pos rfl]
          exact congrArg (fun settings => some ({ assignment, settings } : OpenPartition)) hsettings
      · have hother : broker.expected opened (s.topicRegistry.insert topic
            { cfg with configs := ofList configs }) key =
              broker.expected opened s.topicRegistry key :=
          broker.expected_congr opened (lookup_insert_of_ne _ hkey _)
        rw [hother, ← h.partitions]
        simp [hkey]
    · intro key hsome hnot
      have hbefore : (s.partitions.lookup key).isSome := by
        have hmap : ((s.partitions.lookup key).map _).isSome := hsome
        rwa [isSome_map] at hmap
      exact h.room key hbefore hnot

theorem installReplicatedTransaction {revision : UInt64} {state : TransactionState}
    (hstorable : (transactionState revision state.createdAtMs state.record).Storable) :
    Covered broker opened (s.installReplicatedTransaction revision state) := by
  unfold Engine.installReplicatedTransaction
  split
  · exact h
  · refine { h with transactions := ?_, revisions_iff := ?_ }
    · refine h.transactions.insert ⟨rfl, fun revision' createdAtMs' => ⟨hstorable.fits, ?_⟩⟩
      have hlen := hstorable.length_lt
      simp only [encode, body, length_cons, length_append, Decoder.length_putU64] at hlen ⊢
      exact hlen
    · intro id
      show ((s.transactionRevisions.insert _ revision).lookup id).isSome =
        ((s.transactions.insert _ state).lookup id).isSome
      rw [lookup_insert, lookup_insert]
      split
      · rfl
      · exact h.revisions_iff id

theorem aclCreated {binding : AclBinding} (hfits : BindingFits binding) :
    Covered broker opened { s with acls := insert binding s.acls } where
  __ := h
  acls := by
    intro b hb
    rcases Finset.mem_insert.mp hb with rfl | hmem
    · exact hfits
    · exact h.acls b hmem

theorem apply {record : MetadataRecord}
    (hstorable : record.Storable) (hok : Restorable broker opened s record) :
    Covered broker opened (s.applyMetadataRecord broker record) := by
  have hfits := hstorable.fits
  cases record with
  | transactionState => exact h.installReplicatedTransaction hstorable
  | topicPartition topic partition =>
    have hsame : s.orKeep (s.getOrCreatePartition broker topic partition) = s := by
      cases hopenable : broker.isOpenable (topic, partition) with
      | true =>
        obtain ⟨pm, hpm⟩ := isSome_iff_exists.mp (hok hopenable)
        rw [getOrCreatePartition_of_open hopenable hpm]
        rfl
      | false =>
        obtain ⟨e, he⟩ := getOrCreatePartition_of_not_openable (s := s) hopenable
        rw [he]
        rfl
    show Covered broker opened (s.orKeep (s.getOrCreatePartition broker topic partition))
    rw [hsame]
    exact h
  | brokerRegister nodeId => exact h.registerBroker nodeId hfits.1 hfits.2
  | topicCreated topic numPartitions replicationFactor =>
    exact h.createTopic hfits hok numPartitions replicationFactor
  | topicDeleted => exact h.applyTopicDeletion hok
  | partitionLeadershipChange =>
    obtain ⟨⟨cfg, hcfg, hopen⟩, hne, hle⟩ := hok
    exact h.changeLeadership hcfg hopen ⟨hne, isr_subset_widen _ _, hfits.2.1, hle⟩
  | aclCreated => exact h.aclCreated hfits
  | aclDeleted =>
    exact { h with acls := fun b hb => h.acls b (Finset.mem_of_mem_erase hb) }
  | brokerUnregister => exact h.unregisterBroker hok
  | scramCredentialUpsert =>
    exact { h with credentials := h.credentials.insert ⟨rfl, hfits⟩ }
  | scramCredentialDelete => exact { h with credentials := h.credentials.retain _ }
  | transactionalProducerRegistration =>
    exact { h with producers := h.producers.insert hfits, next := h.next.insert _ _ hok }
  | topicConfigChanged => exact h.applyTopicConfigChange hstorable hok.1 hok.2

end

end Covered

end Bifrox.Metadata

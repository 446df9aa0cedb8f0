/-
The two copies of a partition's leadership: the one in the registry and the one of the open
partition (`apply_metadata_record` and `get_or_create_partition` in `src/server/engine.rs`).
-/
import Bifrox.Lib.Run
import Bifrox.Metadata.Equivalence

namespace Bifrox.Metadata

open List Option Table Engine Broker

abbrev Key : Type := Text × UInt32

def Engine.registered (s : Engine) (key : Key) : Option PartitionAssignment :=
  (s.topicRegistry.lookup key.1).bind (·.partitions.lookup key.2)

def Engine.held (s : Engine) (key : Key) : Option PartitionAssignment :=
  (s.partitions.lookup key).map (·.assignment)

/-- What holds of the two copies.  Only what can be opened is open. -/
def Matched (broker : Broker) (key : Key) (registered held : Option PartitionAssignment) : Prop :=
  (∀ a ∈ registered, a.isr ⊆ a.replicas) ∧
    (∀ a ∈ held, a.isr ⊆ a.replicas ∧ broker.isOpenable key = true) ∧
    ∀ a ∈ registered, ∀ b ∈ held, a = b

def Rostered (broker : Broker) (s : Engine) : Prop :=
  ∀ key, Matched broker key (s.registered key) (s.held key)

/-- The copies of a partition that there are now have the assignment. -/
structure Assigned (broker : Broker) (k : Key) (a : PartitionAssignment) (s s' : Engine) :
    Prop where
  others : ∀ key, key ≠ k → s'.registered key = s.registered key ∧ s'.held key = s.held key
  registered : s'.registered k = some a ∨ s'.registered k = none ∧ s.registered k = none
  held : s'.held k = some a ∧ broker.isOpenable k = true ∨ s'.held k = none ∧ s.held k = none

variable {broker : Broker} {s s' : Engine} {topic : Text} {partition : UInt32} {k : Key}
  {a : PartitionAssignment}

theorem Rostered.shrink (h : Rostered broker s)
    (hr : ∀ key, ∀ a ∈ s'.registered key, a ∈ s.registered key)
    (hh : ∀ key, ∀ a ∈ s'.held key, a ∈ s.held key) : Rostered broker s' := fun key =>
  ⟨fun a ha => (h key).1 a (hr key a ha), fun a ha => (h key).2.1 a (hh key a ha),
    fun a ha b hb => (h key).2.2 a (hr key a ha) b (hh key b hb)⟩

theorem Rostered.assigned (h : Rostered broker s) (hassigned : Assigned broker k a s s')
    (ha : a.isr ⊆ a.replicas) : Rostered broker s' := by
  intro key
  by_cases hkey : key = k
  · rw [hkey, Matched]
    rcases hassigned.registered with hr | ⟨hr, -⟩ <;>
      rcases hassigned.held with ⟨hh, hopenable⟩ | ⟨hh, -⟩ <;> simp [*]
  · rw [(hassigned.others key hkey).1, (hassigned.others key hkey).2]
    exact h key

theorem held_insert {partitions : Table Key OpenPartition} {pm : OpenPartition} {key : Key}
    (h : s'.partitions = partitions.insert k pm) (hsame : partitions = s.partitions) :
    s'.held key = if key = k then some pm.assignment else s.held key := by
  rw [Engine.held, h, lookup_insert, hsame]
  split <;> rfl

theorem Rostered.getOrCreatePartition (h : Rostered broker s) (topic : Text) (partition : UInt32) :
    Rostered broker (s.orKeep (s.getOrCreatePartition broker topic partition)) := by
  rw [Engine.getOrCreatePartition]
  split
  · exact h
  · next hcheck =>
    split
    · exact h
    · have hassignment : (s.openPartition broker topic partition).assignment =
          (s.registered (topic, partition)).getD broker.defaultAssignment := by
        rw [openPartition, Engine.registered]
        cases s.topicRegistry.lookup topic <;> rfl
      intro key
      rw [held_insert rfl rfl, hassignment]
      split
      · next hkey =>
        have hregistered := (h key).1
        rw [hkey] at hregistered ⊢
        show Matched broker _ (s.registered _) _
        cases hr : s.registered (topic, partition) <;>
          simp_all [Matched, defaultAssignment, isOpenable_of_check hcheck]
      · exact h key

/-! ## Leadership -/

theorem registered_assignPartition (a : PartitionAssignment) (key : Key) :
    (s.assignPartition topic partition a).registered key =
      if key = (topic, partition) ∧ (s.topicRegistry.lookup topic).isSome then some a
      else s.registered key := by
  rw [assignPartition]
  split
  · next cfg hcfg =>
    rw [Engine.registered, Engine.registered, lookup_insert]
    by_cases htopic : key.1 = topic <;> simp [htopic, hcfg, lookup_insert, Prod.ext_iff]
  · next hnone => simp [hnone]

/-- A change of leadership reaches both copies. -/
theorem Rostered.assigned_changeLeadership (h : Rostered broker s) (a : PartitionAssignment) :
    Assigned broker (topic, partition) a s (s.changeLeadership broker topic partition a) := by
  rw [changeLeadership_eq_assign]
  refine ⟨fun key hkey => ⟨?_, ?_⟩, ?_, ?_⟩
  · exact (registered_assignPartition a key).trans (if_neg fun hself => hkey hself.1)
  · split
    · rw [held_insert rfl rfl, if_neg hkey]
    · rfl
  · show (s.assignPartition topic partition a).registered _ = _ ∨
      (s.assignPartition topic partition a).registered _ = none ∧ _
    rw [registered_assignPartition, Engine.registered]
    cases s.topicRegistry.lookup topic <;> simp
  · cases hcheck : s.checkPartition broker topic partition with
    | ok => exact .inl ⟨(held_insert rfl rfl).trans (if_pos rfl), isOpenable_of_check hcheck⟩
    | error =>
      suffices hclosed : s.held (topic, partition) = none from .inr ⟨hclosed, hclosed⟩
      by_contra hopen
      obtain ⟨a', ha'⟩ := ne_none_iff_exists'.mp hopen
      have hsome : (s.partitions.lookup (topic, partition)).isSome := by
        rw [← isSome_map, ← Engine.held, ha']
        rfl
      rw [checkPartition_of_openable ((h _).2.1 a' ha').2 (.inl hsome)] at hcheck
      cases hcheck

theorem Rostered.step (h : Rostered broker s) (record : MetadataRecord) :
    Rostered broker (s.applyMetadataRecord broker record) := by
  cases record with
  | topicPartition topic partition =>
    exact h.getOrCreatePartition topic partition
  | topicCreated topic =>
    refine h.shrink (fun key a ha => ?_) fun _ _ ha => ha
    rw [applyMetadataRecord, createTopic, Engine.registered, lookup_insert] at ha
    split at ha
    · cases ha
    · exact ha
  | partitionLeadershipChange topic partition leaderId leaderEpoch isr replicas =>
    exact h.assigned (h.assigned_changeLeadership _) (isr_subset_widen _ _)
  | topicDeleted topic =>
    refine h.shrink (fun key a ha => ?_) fun key a ha => ?_
    · rw [applyMetadataRecord, applyTopicDeletion, Engine.registered, erase, lookup_retain] at ha
      split at ha
      · exact ha
      · cases ha
    · rw [applyMetadataRecord, applyTopicDeletion, Engine.held, lookup_retain] at ha
      split at ha
      · exact ha
      · cases ha
  | topicConfigChanged topic configs =>
    refine h.shrink (fun key a ha => ?_) fun key a ha => ?_
    · rw [applyMetadataRecord, applyTopicConfigChange, setTopicConfigs, Engine.registered] at ha
      split at ha
      · next cfg hcfg =>
        rw [lookup_insert] at ha
        split at ha <;> simp_all [Engine.registered]
      · exact ha
    · rw [applyMetadataRecord, applyTopicConfigChange, setTopicConfigs, Engine.held, lookup_map,
        Option.map_map] at ha
      rw [Option.mem_def, ← Option.mem_def.mp ha, Engine.held]
      congr 1
      funext pm
      simp only [Function.comp]
      split <;> rfl
  | transactionState revision createdAtMs record =>
    rw [applyMetadataRecord, installReplicatedTransaction]
    split
    · exact h
    · exact h.shrink (fun _ _ ha => ha) fun _ _ ha => ha
  | _ => exact h.shrink (fun _ _ ha => ha) fun _ _ ha => ha

/-! ## Runs -/

def replicasOf (copy : Option PartitionAssignment) : List UInt32 := (copy.map (·.replicas)).getD []

/-- No broker is taken off the roster in either copy. -/
def KeepsRosters (broker : Broker) (s : Engine) (record : MetadataRecord) : Prop :=
  let s' := s.applyMetadataRecord broker record
  ∀ key, replicasOf (s.registered key) ⊆ replicasOf (s'.registered key) ∧
    replicasOf (s.held key) ⊆ replicasOf (s'.held key)

/-- In both copies the in-sync replicas are replicas, the copies agree, and no change of leadership
without a roster takes a replica off.  A topic that is created again loses the copies of the
registry, and no other. -/
structure Disciplined (broker : Broker) (s : Engine) : Prop where
  isr_subset : ∀ key a, s.registered key = some a ∨ s.held key = some a → a.isr ⊆ a.replicas
  agree : ∀ key, ∀ a ∈ s.registered key, ∀ a' ∈ s.held key, a = a'
  keeps : ∀ topic partition leaderId leaderEpoch isr replicas, nonEmpty replicas = none →
    KeepsRosters broker s
      (.partitionLeadershipChange topic partition leaderId leaderEpoch isr replicas)
  recreates : ∀ topic numPartitions replicationFactor key,
    let s' := s.applyMetadataRecord broker (.topicCreated topic numPartitions replicationFactor)
    s'.registered key = (if key.1 = topic then none else s.registered key) ∧
      s'.held key = s.held key

theorem Rostered.replicasOf_subset (h : Rostered broker s) (topic : Text) (partition : UInt32)
    (isr : List UInt32) {replicas : Option (List UInt32)} (hnone : nonEmpty replicas = none) :
    replicasOf (s.registered (topic, partition)) ⊆ s.roster topic partition isr replicas ∧
      replicasOf (s.held (topic, partition)) ⊆ s.roster topic partition isr replicas := by
  have hknown : s.knownReplicas topic partition replicas =
      (nonEmpty ((s.registered (topic, partition)).map (·.replicas))).or
        (nonEmpty ((s.held (topic, partition)).map (·.replicas))) := by
    rw [knownReplicas, hnone, Option.none_or, Engine.held, Option.map_map]
    rfl
  have hsub (a : PartitionAssignment)
      (hsome : s.knownReplicas topic partition replicas = nonEmpty (some a.replicas)) :
      a.replicas ⊆ s.roster topic partition isr replicas := by
    rw [roster, hsome]
    by_cases hnil : a.replicas = []
    · rw [hnil]
      exact nil_subset _
    · rw [nonEmpty, Option.filter_some, if_pos (by simpa using hnil)]
      exact subset_widen _ _
  cases hr : s.registered (topic, partition) <;> cases hh : s.held (topic, partition) <;>
    rw [hr, hh] at hknown
  · exact ⟨nil_subset _, nil_subset _⟩
  · exact ⟨nil_subset _, hsub _ hknown⟩
  · exact ⟨hsub _ (hknown.trans Option.or_none), nil_subset _⟩
  · cases (h _).2.2 _ hr _ hh
    exact ⟨hsub _ (hknown.trans Option.or_self), hsub _ (hknown.trans Option.or_self)⟩

theorem disciplined_of_rostered (h : Rostered broker s) : Disciplined broker s where
  isr_subset key a ha := by
    rcases ha with ha | ha
    · exact (h key).1 a ha
    · exact ((h key).2.1 a ha).1
  agree key := (h key).2.2
  keeps topic partition leaderId leaderEpoch isr replicas hnone := by
    intro key
    have hassigned : Assigned broker (topic, partition) _ s (s.applyMetadataRecord broker
        (.partitionLeadershipChange topic partition leaderId leaderEpoch isr replicas)) :=
      h.assigned_changeLeadership _
    by_cases hkey : key = (topic, partition)
    · obtain ⟨hregistered, hheld⟩ := h.replicasOf_subset topic partition isr hnone
      rw [hkey]
      rcases hassigned.registered with hr | ⟨-, hr⟩ <;>
        rcases hassigned.held with ⟨hh, -⟩ | ⟨-, hh⟩ <;> simp_all [replicasOf]
    · rw [(hassigned.others key hkey).1, (hassigned.others key hkey).2]
      exact ⟨List.Subset.refl _, List.Subset.refl _⟩
  recreates topic numPartitions replicationFactor key := by
    refine ⟨?_, rfl⟩
    rw [applyMetadataRecord, createTopic, Engine.registered, lookup_insert]
    split <;> rfl

/-- A broker that starts with nothing open applies records in any order. -/
theorem disciplined_run (broker : Broker) (records : List MetadataRecord) :
    Run.Always (applyMetadataRecord broker) (Disciplined broker) (broker.fresh ∅) records := by
  have hfresh : Rostered broker (broker.fresh ∅) := fun _ => ⟨nofun, nofun, nofun⟩
  exact Run.Guarded.always (fun _ => disciplined_of_rostered) (fun _ record h _ => h.step record)
    hfresh (Run.Guarded.of_forall fun _ _ => trivial)

/-- A roster of three brokers, of a partition that the broker may not open. -/
def threeReplicas : Engine :=
  Run.run (applyMetadataRecord plain) (plain.fresh ∅)
    [.topicCreated ['t'] 101 3, .partitionLeadershipChange ['t'] 100 1 1 [1, 2, 3] (some [1, 2, 3])]

/-- The topic is created again.  A change of leadership without a roster then starts a new one. -/
theorem not_keepsRosters_recreated :
    ¬ KeepsRosters plain threeReplicas (.topicCreated ['t'] 101 3) ∧
      replicasOf ((Run.run (applyMetadataRecord plain) threeReplicas [.topicCreated ['t'] 101 3,
        .partitionLeadershipChange ['t'] 100 1 2 [1] none]).registered (['t'], 100)) = [1] := by
  refine ⟨fun h => ?_, by decide +kernel⟩
  exact absurd (h (['t'], 100)).1 (by decide +kernel)

end Bifrox.Metadata

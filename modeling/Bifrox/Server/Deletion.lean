/-
What becomes of a deleted topic.

A record about one of its partitions that comes later opens the partition again, and the sweep
that assigns open partitions to brokers registers the topic anew.
-/
import Mathlib.Data.Char
import Mathlib.Data.List.Dedup
import Mathlib.Data.List.Lex
import Bifrox.Server.Restart

namespace Bifrox.Server

open List

/-! ## The assignment sweep -/

/-- What the sweep sees of the cluster. -/
structure SweepView where
  autoAssignPartitionsEnable : Bool
  isLeader : Bool
  brokers : Nat
  peers : Nat
  defaultReplicationFactor : UInt16

namespace SweepView

/-- Whether the sweep does anything: not while the only broker it sees is itself
and there are peers. -/
def active (view : SweepView) : Bool :=
  view.autoAssignPartitionsEnable && view.isLeader && view.brokers ≠ 0 &&
    !(view.brokers = 1 && view.peers ≠ 0)

def replicationFactor (view : SweepView) : UInt16 :=
  UInt16.ofNat (min (max view.defaultReplicationFactor 1).toNat view.brokers)

end SweepView

def maxAssignmentsPerSweep : Nat := 50

namespace StorageEngine

variable (s : StorageEngine)

def isAssigned (key : TopicName × UInt32) : Bool :=
  ((s.topicRegistry.lookup key.1).bind (fun cfg => cfg.partitions.lookup key.2)).isSome

/-- Open partitions of client topics that the registry does not assign. -/
def unassigned : List (TopicName × UInt32) :=
  (s.partitions.keys.filter (fun key => !isSystemTopic key.1 && !s.isAssigned key)).take
    maxAssignmentsPerSweep

/-- The partition count a topic is registered with when only its partitions are
known. -/
def impliedPartitions (topic : TopicName) (partition : UInt32) : UInt32 :=
  UInt32.ofNat (max (s.partitions.keys.filter (fun key => key.1 = topic)).length
    (partition.toNat + 1))

/-- Register the topic of an open partition if need be, and assign the partition. -/
def assignOpen (settings : EngineSettings) (now : Nat) (view : SweepView) (s : StorageEngine)
    (key : TopicName × UInt32) : StorageEngine :=
  match s.partitions.lookup key with
  | none => s
  | some pm =>
    let registered :=
      if key.1 ∈ s.topicRegistry then s
      else s.proposeMetadata settings now
        (.topicCreated key.1 (s.impliedPartitions key.1 key.2) view.replicationFactor)
    registered.proposeMetadata settings now (.partitionLeadershipChange key.1 key.2 pm.leaderEpoch)

def reconcileUnassignedPartitions (settings : EngineSettings) (now : Nat) (view : SweepView)
    (s : StorageEngine) : StorageEngine :=
  if view.active then s.unassigned.foldl (assignOpen settings now view) s else s

def listTopics : List TopicName :=
  (((s.topicRegistry.keys ++ s.partitions.keys.map Prod.fst).filter
    (fun topic => !isSystemTopic topic)).dedup).mergeSort

end StorageEngine

/-! ## Histories after a deletion -/

inductive MetadataEvent where
  | apply (record : MetadataRecord) (now : Nat)
  | sweep (view : SweepView) (now : Nat)

/-- The event is a record that creates the topic. -/
def MetadataEvent.Creates (topic : TopicName) : MetadataEvent → Prop
  | .apply (.topicCreated name _ _) _ => name = topic
  | _ => False

namespace StorageEngine

def observe (settings : EngineSettings) (s : StorageEngine) : MetadataEvent → StorageEngine
  | .apply record now => s.applyMetadataRecord settings now record
  | .sweep view now => s.reconcileUnassignedPartitions settings now view

structure Gone (topic : TopicName) (s : StorageEngine) : Prop where
  unregistered : topic ∉ s.topicRegistry
  closed : ∀ partition, (topic, partition) ∉ s.partitions
  unlisted : topic ∉ s.listTopics

/-- The event is no record that has a partition of the topic opened which the broker
may open. -/
def NotStale (settings : EngineSettings) (topic : TopicName) (s : StorageEngine) :
    MetadataEvent → Prop
  | .apply record _ => ∀ partition, record.Opens topic partition →
      s.checkPartition settings topic partition ≠ .ok ()
  | .sweep _ _ => True

variable {settings : EngineSettings} {s : StorageEngine} {topic : TopicName} {partition : UInt32}
  {record : MetadataRecord} {now : Nat}

theorem mem_listTopics : topic ∈ s.listTopics ↔ isSystemTopic topic = false ∧
      (topic ∈ s.topicRegistry ∨ ∃ partition, (topic, partition) ∈ s.partitions) := by
  unfold listTopics
  rw [mem_mergeSort, mem_dedup, mem_filter, mem_append, mem_map]
  constructor
  · rintro ⟨hmem, hclient⟩
    refine ⟨by simpa using hclient, ?_⟩
    rcases hmem with hregistered | ⟨key, hkey, rfl⟩
    · exact .inl hregistered
    · exact .inr ⟨key.2, hkey⟩
  · rintro ⟨hclient, hregistered | ⟨partition, hopen⟩⟩
    · exact ⟨.inl hregistered, by simp [hclient]⟩
    · exact ⟨.inr ⟨(topic, partition), hopen, rfl⟩, by simp [hclient]⟩

theorem gone_iff : s.Gone topic ↔
    topic ∉ s.topicRegistry ∧ ∀ partition, s.logOf (topic, partition) = none := by
  constructor
  · intro h
    exact ⟨h.unregistered, fun partition => logOf_eq_none.mpr (h.closed partition)⟩
  · rintro ⟨hregistry, hclosed⟩
    refine ⟨hregistry, fun partition => logOf_eq_none.mp (hclosed partition), ?_⟩
    rw [mem_listTopics]
    rintro ⟨-, hregistered | ⟨partition, hopen⟩⟩
    · exact hregistry hregistered
    · exact logOf_eq_none.mp (hclosed partition) hopen

theorem gone_applyTopicDeletion : (s.applyTopicDeletion topic).Gone topic := by
  rw [gone_iff]
  constructor
  · show topic ∉ s.topicRegistry.erase topic
    simp
  · intro partition
    rw [logOf, lookup_applyTopicDeletion, if_pos rfl]
    rfl

/-! ## One record -/

theorem topicRegistry_createPartition :
    (s.orKeep (s.createPartition settings topic partition now)).topicRegistry =
      s.topicRegistry := by
  unfold createPartition
  rcases getOrCreatePartition_cases with
    hsame | ⟨-, -, pm, -, hinsert⟩
  · rw [hsame]
  · rw [hinsert]
    rfl

theorem unregistered_apply (h : topic ∉ s.topicRegistry)
    (hcreates : ¬ (MetadataEvent.apply record now).Creates topic) :
    topic ∉ (s.applyMetadataRecord settings now record).topicRegistry := by
  cases record with
  | topicPartition =>
    rw [applyMetadataRecord, topicRegistry_createPartition]
    exact h
  | topicCreated =>
    intro hmem
    rcases (AList.mem_insert _).mp hmem with heq | hmem
    · exact hcreates heq.symm
    · exact h hmem
  | partitionLeadershipChange name partition leaderEpoch =>
    have hassigned : topic ∉ (s.assignPartition name partition leaderEpoch).topicRegistry := by
      unfold assignPartition
      split
      · next cfg hcfg =>
        intro hmem
        rcases (AList.mem_insert _).mp hmem with rfl | hmem
        · exact h (AList.lookup_isSome.mp (Option.isSome_of_eq_some hcfg))
        · exact h hmem
      · exact h
    rw [← topicRegistry_createPartition] at hassigned
    rw [applyMetadataRecord]
    split
    · rename_i s' hs'
      rw [hs'] at hassigned
      unfold setLeaderEpoch
      split <;> exact hassigned
    · rename_i hnone
      rw [hnone] at hassigned
      exact hassigned
  | topicDeleted => exact fun hmem => h (AList.mem_erase.mp hmem).2
  | other => exact h

theorem logOf_apply_eq_none_iff (h : s.logOf (topic, partition) = none) :
    (s.applyMetadataRecord settings now record).logOf (topic, partition) = none ↔
      (record.Opens topic partition → s.checkPartition settings topic partition ≠ .ok ()) := by
  have hopen : ∀ name number,
      (s.applyMetadataRecord settings now (.topicPartition name number)).logOf (topic, partition) =
        none ↔ (name = topic ∧ number = partition →
          s.checkPartition settings topic partition ≠ .ok ()) := by
    intro name number
    rw [applyMetadataRecord, logOf_createPartition]
    constructor
    · rintro hnone ⟨rfl, rfl⟩ hcheck
      rw [if_pos ⟨rfl, h, hcheck⟩] at hnone
      cases hnone
    · intro hrefused
      rw [if_neg]
      · exact h
      · rintro ⟨hkey, -, hcheck⟩
        obtain ⟨rfl, rfl⟩ := Prod.mk.inj hkey
        exact hrefused ⟨rfl, rfl⟩ hcheck
  cases record with
  | topicPartition name number => exact hopen name number
  | partitionLeadershipChange name number =>
    rw [logOf_leadershipChange]
    exact hopen name number
  | topicCreated => exact ⟨fun _ hopens => absurd hopens id, fun _ => h⟩
  | topicDeleted =>
    refine ⟨fun _ hopens => absurd hopens id, fun _ => ?_⟩
    rw [applyMetadataRecord, logOf, lookup_applyTopicDeletion]
    split
    · rfl
    · exact h
  | other => exact ⟨fun _ hopens => absurd hopens id, fun _ => h⟩

theorem Gone.apply_iff (h : s.Gone topic)
    (hcreates : ¬ (MetadataEvent.apply record now).Creates topic) :
    (s.applyMetadataRecord settings now record).Gone topic ↔
      s.NotStale settings topic (.apply record now) := by
  obtain ⟨hregistry, hclosed⟩ := gone_iff.mp h
  rw [gone_iff]
  constructor
  · rintro ⟨-, hstill⟩ partition
    exact (logOf_apply_eq_none_iff (hclosed partition)).mp (hstill partition)
  · intro hstale
    refine ⟨unregistered_apply hregistry hcreates, fun partition => ?_⟩
    exact (logOf_apply_eq_none_iff (hclosed partition)).mpr (hstale partition)

/-! ## The sweep -/

theorem Gone.propose (h : s.Gone topic)
    (hcreates : ¬ (MetadataEvent.apply record now).Creates topic)
    (hopens : ∀ partition, ¬ record.Opens topic partition) :
    (s.proposeMetadata settings now record).Gone topic := by
  have hlogged : Gone topic { s with metadata := s.metadata ++ [record] } :=
    ⟨h.unregistered, h.closed, h.unlisted⟩
  exact (hlogged.apply_iff hcreates).mpr (fun partition hopen => absurd hopen (hopens partition))

theorem Gone.assignOpen (h : s.Gone topic) {key : TopicName × UInt32} (hother : key.1 ≠ topic)
    (settings : EngineSettings) (now : Nat) (view : SweepView) :
    (s.assignOpen settings now view key).Gone topic := by
  unfold StorageEngine.assignOpen
  split
  · exact h
  · have hregistered : Gone topic (if key.1 ∈ s.topicRegistry then s
        else s.proposeMetadata settings now
          (.topicCreated key.1 (s.impliedPartitions key.1 key.2) view.replicationFactor)) := by
      split
      · exact h
      · exact h.propose hother (fun _ => id)
    exact hregistered.propose id (fun partition hopens => hother hopens.1)

theorem Gone.reconcile (h : s.Gone topic)
    {view : SweepView} : (s.reconcileUnassignedPartitions settings now view).Gone topic := by
  have hothers : ∀ key ∈ s.unassigned, key.1 ≠ topic := by
    intro key hkey heq
    have hopen := (mem_filter.mp (mem_of_mem_take hkey)).1
    exact h.closed key.2 (heq ▸ hopen)
  unfold reconcileUnassignedPartitions
  split
  · generalize s.unassigned = keys at hothers
    induction keys generalizing s with
    | nil => exact h
    | cons key keys ih =>
      obtain ⟨hkey, hkeys⟩ := forall_mem_cons.mp hothers
      exact ih (h.assignOpen hkey settings now view) hkeys
  · exact h

/-- From a deletion on, the topic stays deleted throughout any sequence of records
and sweeps that does not create it, exactly when no record of the sequence is
stale. -/
theorem staysDeleted_iff_notStale (settings : EngineSettings) (s : StorageEngine)
    (topic : TopicName) (now : Nat) (events : List MetadataEvent)
    (hevents : ∀ e ∈ events, ¬ e.Creates topic) :
    Run.Always (observe settings) (Gone topic)
        (s.applyMetadataRecord settings now (.topicDeleted topic)) events ↔
      Run.Guarded (observe settings) (NotStale settings topic)
        (s.applyMetadataRecord settings now (.topicDeleted topic)) events := by
  apply Run.always_iff_guarded (fun _ h => h) _ _ gone_applyTopicDeletion
    (Run.Guarded.of_forall hevents)
  · intro s e h hcreates hstale
    cases e with
    | apply => exact (h.apply_iff hcreates).mpr hstale
    | sweep => exact h.reconcile
  · intro s e h hcreates hgone
    cases e with
    | apply => exact (h.apply_iff hcreates).mp hgone
    | sweep => exact trivial

def oneBroker : SweepView :=
  { autoAssignPartitionsEnable := true, isLeader := true, brokers := 1, peers := 0,
    defaultReplicationFactor := 3 }

def oneTopic : StorageEngine := empty.step .storing strict (.createTopic ['t'] 1 1 0)

/-- Records of another topic, and the sweep that registers it. -/
theorem staysDeleted_swept : Run.Always (observe strict) (Gone ['t'])
      (oneTopic.applyMetadataRecord strict 0 (.topicDeleted ['t']))
      [.apply (.partitionLeadershipChange ['u'] 0 0) 0, .sweep oneBroker 0] := by
  refine (staysDeleted_iff_notStale strict oneTopic ['t'] 0 _ ?_).mpr ⟨?_, trivial, trivial⟩
  · intro e he
    rcases mem_pair.mp he with rfl | rfl <;> exact id
  · intro partition hopens
    exact absurd hopens.1 (by decide)

/-- A late update of the in-sync replicas opens the partition of the deleted topic,
and the sweep registers the topic again. -/
theorem not_staysDeleted_late : ¬ Run.Always (observe strict) (Gone ['t'])
      (oneTopic.applyMetadataRecord strict 0 (.topicDeleted ['t']))
      [.apply (.partitionLeadershipChange ['t'] 0 0) 0, .sweep oneBroker 0] := by
  rintro ⟨-, -, hgone⟩
  have hback : ['t'] ∈
      (((oneTopic.applyMetadataRecord strict 0 (.topicDeleted ['t'])).observe strict
      (.apply (.partitionLeadershipChange ['t'] 0 0) 0)).observe strict
      (.sweep oneBroker 0)).topicRegistry := by
    decide +kernel
  exact hgone.unregistered hback

end StorageEngine

end Bifrox.Server

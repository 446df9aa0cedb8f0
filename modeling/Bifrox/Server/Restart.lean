/-
What a restart leaves of the topics.

A topic that was deleted and created again has its new data in the directories when the replay
comes to the old deletion, which removes them.
-/
import Bifrox.Server.Topics

namespace Bifrox.Server

open List Option Protocol Segment StorageEngine AList SegmentManager PartitionManager Run.Guarded

def MetadataRecord.Opens (topic : TopicName) (partition : UInt32) : MetadataRecord → Prop
  | .topicPartition t p => t = topic ∧ p = partition
  | .partitionLeadershipChange t p _ => t = topic ∧ p = partition
  | _ => False

def MetadataRecord.Client (settings : EngineSettings) : MetadataRecord → Prop
  | .topicPartition topic _ => validateClientTopicName settings topic = .ok ()
  | .topicCreated topic _ _ => validateClientTopicName settings topic = .ok ()
  | .partitionLeadershipChange topic _ _ => validateClientTopicName settings topic = .ok ()
  | .topicDeleted _ => True
  | .other => True

theorem PartitionManager.Durable.produceBatchLocal {c : Crates}
    {pm : PartitionManager} (h : pm.Durable) (limits : ProduceLimits) (r : ProduceRequest)
    (now : Nat) : (produceBatchLocal c limits pm r now).1.Durable := by
  have heos : (pm.produceBatchEos c r.batch now).1.Durable := by
    rcases produceBatchEos_cases c pm r.batch now with ⟨-, e, -, heq⟩ | ⟨-, heq⟩ <;> rw [heq]
    · exact h
    · exact (h.storeBatch r.batch now).1
  rw [Server.produceBatchLocal]
  split
  · exact h
  · simp only
    split
    · exact heos
    · exact heos.flushIfSyncPolicy.advanceCommittedHw _

namespace StorageEngine

def logOf (s : StorageEngine) (key : TopicName × UInt32) : Option SegmentManager :=
  (s.partitions.lookup key).map log

variable (settings : EngineSettings)

/-- A restart succeeds and every partition has the same log end and the same
entries. -/
def RestartPreserves (s : StorageEngine) (graceful : Bool) (now : Nat) : Prop :=
  ∃ s', s.restart settings graceful now = .ok s' ∧
    ∀ key log, s.logOf key = some log → ∃ log', s'.logOf key = some log' ∧
      log'.highWatermark = log.highWatermark ∧ log'.retained = log.retained

/-- Some record after the last deletion of the topic has the partition opened, and
there is room for it when the replay comes to it. -/
def CreatedAgain (now : Nat) (s : StorageEngine) (topic : TopicName)
    (partition : UInt32) (records : List MetadataRecord) : Prop :=
  ∃ before record after, records = before ++ record :: after ∧ record.Opens topic partition ∧
    .topicDeleted topic ∉ after ∧ (s.replay settings now before).HasRoom settings

/-- No deletion of a partition's topic is replayed, or the partition holds nothing
and is created again. -/
def Restorable (s : StorageEngine) (graceful : Bool) (now : Nat) : Prop :=
  ∀ opened, s.openDirectories settings graceful now = .ok opened →
    ∀ topic partition log, s.logOf (topic, partition) = some log →
      .topicDeleted topic ∉ s.replayed ∨
      (log.highWatermark = 0 ∧ log.retained = [] ∧
        CreatedAgain settings now (opened.replay settings now s.snapshotRecords) topic partition
          s.replayed)

variable {settings : EngineSettings} {s : StorageEngine} {topic : TopicName} {partition : UInt32}
  {key : TopicName × UInt32} {record : MetadataRecord} {records : List MetadataRecord} {now : Nat}
  {log : SegmentManager}

/-! ## Opening one partition -/

theorem validate_of_client (h : validateClientTopicName settings topic = .ok ()) :
    validateTopicName settings topic = .ok () ∧ isSystemTopic topic = false := by
  rw [validateClientTopicName] at h
  split at h
  · exact absurd h nofun
  · rename_i hvalid
    split at h
    · exact absurd h nofun
    · rename_i hsystem
      exact ⟨hvalid, Bool.eq_false_iff.mpr hsystem⟩

theorem checkPartition_iff (h : validateClientTopicName settings topic = .ok ()) :
    s.checkPartition settings topic partition = .ok () ↔
      partition.toNat < settings.produce.maxPartitionsPerTopic ∧
        ((topic, partition) ∈ s.partitions ∨ s.HasRoom settings) := by
  obtain ⟨hvalid, hsystem⟩ := validate_of_client h
  simp only [checkPartition, hvalid, hsystem]
  by_cases hlimit : partition.toNat < settings.produce.maxPartitionsPerTopic
  · by_cases hroom : (topic, partition) ∈ s.partitions ∨ s.HasRoom settings
    · have hok : ¬ ((topic, partition) ∉ s.partitions ∧ ¬ s.HasRoom settings) := by tauto
      simp [Nat.not_le.mpr hlimit, hlimit, hok, hroom]
    · have hfull : (topic, partition) ∉ s.partitions ∧ ¬ s.HasRoom settings := not_or.mp hroom
      simp [Nat.not_le.mpr hlimit, hfull]
  · simp [Nat.not_lt.mp hlimit, hlimit]

variable {pm : PartitionManager} {opened : Except String PartitionManager} {leaderEpoch : UInt32}

theorem getOrCreatePartition_of_check (hcheck : s.checkPartition settings topic partition = .ok ())
    (habsent : (topic, partition) ∉ s.partitions) (hopened : opened = .ok pm) :
    s.getOrCreatePartition settings topic partition opened =
      .ok (s.withPartition topic partition (s.assigned topic partition pm)) := by
  simp only [getOrCreatePartition, hcheck, lookup_eq_none.mpr habsent, hopened]

theorem getOrCreatePartition_cases :
    let r := s.getOrCreatePartition settings topic partition opened
    s.orKeep r = s ∨ (s.checkPartition settings topic partition = .ok () ∧
      (topic, partition) ∉ s.partitions ∧ ∃ pm, opened = .ok pm ∧
      s.orKeep r = s.withPartition topic partition (s.assigned topic partition pm)) := by
  cases hcheck : s.checkPartition settings topic partition with
  | error =>
    left
    simp only [getOrCreatePartition, hcheck, orKeep]
  | ok _ =>
    cases hlookup : s.partitions.lookup (topic, partition) with
    | some =>
      left
      simp only [getOrCreatePartition, hcheck, hlookup, orKeep]
    | none =>
      cases hopened : opened with
      | error =>
        left
        simp only [getOrCreatePartition, hcheck, hlookup, orKeep]
      | ok pm =>
        right
        have habsent := lookup_eq_none.mp hlookup
        refine ⟨rfl, habsent, pm, rfl, ?_⟩
        rw [getOrCreatePartition_of_check hcheck habsent rfl]
        rfl

theorem assigned_log : (s.assigned topic partition pm).log = pm.log := by
  rw [assigned]
  split <;> rfl

theorem logOf_eq_none : s.logOf key = none ↔ key ∉ s.partitions := by
  rw [logOf, map_eq_none_iff, lookup_eq_none]

theorem logOf_withPartition :
    (s.withPartition topic partition pm).logOf key =
      if key = (topic, partition) then some pm.log else s.logOf key := by
  by_cases h : key = (topic, partition)
  · subst h
    simp [logOf, withPartition]
  · simp [logOf, withPartition, h]

theorem logOf_createPartition :
    (s.orKeep (s.createPartition settings topic partition now)).logOf key =
      if key = (topic, partition) ∧ s.logOf key = none ∧
          s.checkPartition settings topic partition = .ok () then
        some (create settings.config now)
      else s.logOf key := by
  rcases getOrCreatePartition_cases with hsame | ⟨hcheck, habsent, pm, hpm, hinsert⟩
  · rw [createPartition, hsame]
    split
    · rename_i hopen
      -- an attempt that passes the checks does not leave an absent partition absent
      obtain ⟨rfl, hnone, hcheck⟩ := hopen
      have habsent := logOf_eq_none.mp hnone
      rw [getOrCreatePartition_of_check hcheck habsent rfl, orKeep] at hsame
      rw [← hsame, logOf_withPartition, if_pos rfl] at hnone
      exact absurd hnone nofun
    · rfl
  · rw [createPartition, hinsert, logOf_withPartition, assigned_log, ← Except.ok.inj hpm]
    by_cases hkey : key = (topic, partition)
    · subst hkey
      rw [if_pos rfl, if_pos ⟨rfl, logOf_eq_none.mpr habsent, hcheck⟩]
      rfl
    · rw [if_neg hkey, if_neg (fun h => hkey h.1)]

/-! ## One record -/

theorem lookup_applyTopicDeletion :
    (s.applyTopicDeletion topic).partitions.lookup key =
      if key.1 = topic then none else s.partitions.lookup key := by
  simp only [applyTopicDeletion, lookup_eraseAll, mem_filter, ownsDir_dirName]
  by_cases hmem : key ∈ s.partitions
  · simp [show key ∈ s.partitions.keys from hmem]
  · simp [show key ∉ s.partitions.keys from hmem, lookup_eq_none.mpr hmem]

theorem logOf_setLeaderEpoch :
    (s.setLeaderEpoch topic partition leaderEpoch).logOf key = s.logOf key := by
  rw [setLeaderEpoch]
  split
  · rename_i pm hpm
    rw [logOf_withPartition]
    split
    · rename_i hkey
      rw [hkey, logOf, hpm]
      rfl
    · rfl
  · rfl

theorem assignPartition_eq : ∃ topicRegistry,
    s.assignPartition topic partition leaderEpoch = { s with topicRegistry } := by
  rw [assignPartition]
  split <;> exact ⟨_, rfl⟩

theorem logOf_leadershipChange :
    (s.applyMetadataRecord settings now
      (.partitionLeadershipChange topic partition leaderEpoch)).logOf key =
    (s.applyMetadataRecord settings now (.topicPartition topic partition)).logOf key := by
  obtain ⟨topicRegistry, hassign⟩ := assignPartition_eq (s := s)
  show _ = (s.orKeep (s.createPartition settings topic partition now)).logOf key
  rw [logOf_createPartition]
  refine Eq.trans ?_ (logOf_createPartition (s := { s with topicRegistry }))
  rw [applyMetadataRecord, hassign]
  split
  · rename_i s' hs'
    rw [logOf_setLeaderEpoch, hs']
    rfl
  · rename_i hs'
    rw [hs']
    rfl

open Classical in
/-- A record removes a partition, opens it, or leaves it as it is. -/
theorem logOf_apply (record : MetadataRecord) :
    (s.applyMetadataRecord settings now record).logOf (topic, partition) =
      if record = .topicDeleted topic then none
      else if record.Opens topic partition ∧ s.logOf (topic, partition) = none ∧
        s.checkPartition settings topic partition = .ok () then some (create settings.config now)
      else s.logOf (topic, partition) := by
  have hopen : ∀ t p, (s.applyMetadataRecord settings now (.topicPartition t p)).logOf
      (topic, partition) = if MetadataRecord.Opens topic partition (.topicPartition t p) ∧
        s.logOf (topic, partition) = none ∧
        s.checkPartition settings topic partition = .ok () then some (create settings.config now)
      else s.logOf (topic, partition) := by
    intro t p
    rw [applyMetadataRecord, logOf_createPartition]
    refine if_congr ⟨?_, ?_⟩ rfl rfl
    · rintro ⟨heq, hcheck⟩
      cases heq
      exact ⟨⟨rfl, rfl⟩, hcheck⟩
    · rintro ⟨⟨rfl, rfl⟩, hcheck⟩
      exact ⟨rfl, hcheck⟩
  cases record with
  | topicPartition t p =>
    rw [if_neg nofun]
    exact hopen t p
  | partitionLeadershipChange t p =>
    rw [if_neg nofun]
    exact (logOf_leadershipChange ..).trans (hopen t p)
  | topicDeleted t =>
    rw [applyMetadataRecord, logOf, lookup_applyTopicDeletion]
    by_cases htopic : topic = t
    · rw [if_pos htopic, if_pos (htopic ▸ rfl)]
      rfl
    · rw [if_neg htopic, if_neg (fun heq => htopic (MetadataRecord.topicDeleted.inj heq).symm),
        if_neg (fun h => h.1)]
      rfl
  | topicCreated | other =>
    rw [if_neg nofun, if_neg (fun h => h.1)]
    rfl

theorem logOf_apply_of_some (h : s.logOf (topic, partition) = some log)
    (hkept : record ≠ .topicDeleted topic) :
    (s.applyMetadataRecord settings now record).logOf (topic, partition) = some log := by
  rw [logOf_apply, if_neg hkept, h]
  exact if_neg (fun hopens => absurd hopens.2.1 nofun)

theorem logOf_apply_deleted :
    (s.applyMetadataRecord settings now (.topicDeleted topic)).logOf (topic, partition) = none := by
  rw [logOf_apply, if_pos rfl]

theorem validate_of_opens (hopens : record.Opens topic partition)
    (hclient : record.Client settings) : validateClientTopicName settings topic = .ok () := by
  cases record with
  | topicPartition | partitionLeadershipChange =>
    obtain ⟨rfl, -⟩ := hopens
    exact hclient
  | topicCreated | topicDeleted | other => exact absurd hopens id

theorem logOf_apply_of_none (h : s.logOf (topic, partition) = none)
    (hclient : record.Client settings) :
    (s.applyMetadataRecord settings now record).logOf (topic, partition) = none ∨
    (record.Opens topic partition ∧ s.HasRoom settings ∧
      (s.applyMetadataRecord settings now record).logOf (topic, partition) =
        some (create settings.config now)) := by
  rw [logOf_apply]
  split
  · exact .inl rfl
  · split
    · next hcreated =>
      obtain ⟨hopens, -, hcheck⟩ := hcreated
      have hroom := ((checkPartition_iff (validate_of_opens hopens hclient)).mp hcheck).2
      exact .inr ⟨hopens, hroom.resolve_left (logOf_eq_none.mp h), rfl⟩
    · exact .inl h

/-! ## The replay -/

theorem replay_append {records' : List MetadataRecord} :
    s.replay settings now (records ++ records') =
      (s.replay settings now records).replay settings now records' :=
  foldl_append

theorem replay_cons :
    s.replay settings now (record :: records) =
      (s.applyMetadataRecord settings now record).replay settings now records :=
  rfl

theorem logOf_replay_of_some (h : s.logOf (topic, partition) = some log)
    (hkept : .topicDeleted topic ∉ records) :
    (s.replay settings now records).logOf (topic, partition) = some log :=
  (of_forall fun _ hrecord => ne_of_mem_of_not_mem hrecord hkept).invariant
    (P := (logOf · (topic, partition) = some log))
    (fun _ _ h hrecord => logOf_apply_of_some h hrecord) h

def Blank (settings : EngineSettings) (now : Nat) (s : StorageEngine)
    (key : TopicName × UInt32) : Prop :=
  s.logOf key = none ∨ s.logOf key = some (create settings.config now)

theorem Blank.apply (h : s.Blank settings now (topic, partition))
    (hclient : record.Client settings) :
    (s.applyMetadataRecord settings now record).Blank settings now (topic, partition) := by
  rcases h with hnone | hsome
  · exact (logOf_apply_of_none hnone hclient).imp id (fun h => h.2.2)
  · by_cases hdeleted : record = .topicDeleted topic
    · subst hdeleted
      exact .inl logOf_apply_deleted
    · exact .inr (logOf_apply_of_some hsome hdeleted)

theorem Blank.replay (h : s.Blank settings now (topic, partition))
    (hclient : ∀ record ∈ records, record.Client settings) :
    (s.replay settings now records).Blank settings now (topic, partition) :=
  (of_forall hclient).invariant (P := (Blank settings now · (topic, partition)))
    (fun _ _ h hrecord => h.apply hrecord) h

theorem blank_replay_of_deleted (hdeleted : .topicDeleted topic ∈ records)
    (hclient : ∀ record ∈ records, record.Client settings) :
    (s.replay settings now records).Blank settings now (topic, partition) := by
  obtain ⟨before, after, rfl⟩ := append_of_mem hdeleted
  rw [replay_append, replay_cons]
  refine Blank.replay (.inl logOf_apply_deleted) (fun record hrecord => hclient record ?_)
  exact mem_append_right _ (mem_cons_of_mem _ hrecord)

/-- A partition that is open after a deletion of its topic was created again.  By
induction from the last record on: either the partition was open before it, or the
record created it. -/
theorem createdAgain_of_replay (hclient : ∀ record ∈ records, record.Client settings)
    (hdeleted : .topicDeleted topic ∈ records)
    (hopen : (s.replay settings now records).logOf (topic, partition) ≠ none) :
    CreatedAgain settings now s topic partition records := by
  induction records using List.reverseRecOn with
  | nil => cases hdeleted
  | append_singleton records record ih =>
    obtain ⟨hrecords, hrecord⟩ := forall_mem_append.mp hclient
    rw [replay_append] at hopen
    change ((s.replay settings now records).applyMetadataRecord settings now record).logOf _ ≠ _
      at hopen
    by_cases hnone : (s.replay settings now records).logOf (topic, partition) = none
    · rcases logOf_apply_of_none hnone (hrecord record (mem_singleton_self _)) with
        hstill | ⟨hopens, hroom, -⟩
      · exact absurd hstill hopen
      · exact ⟨records, record, [], rfl, hopens, not_mem_nil, hroom⟩
    · have hne : record ≠ .topicDeleted topic := by
        rintro rfl
        exact hopen logOf_apply_deleted
      have hbefore : .topicDeleted topic ∈ records :=
        (mem_append.mp hdeleted).resolve_right fun h => hne (mem_singleton.mp h).symm
      obtain ⟨before, opening, after, rfl, hopens, hafter, hroom⟩ := ih hrecords hbefore hnone
      refine ⟨before, opening, after ++ [record], by simp, hopens, fun hmem => ?_, hroom⟩
      exact (mem_append.mp hmem).elim hafter fun h => hne (mem_singleton.mp h).symm

theorem logOf_replay_of_createdAgain (hclient : ∀ record ∈ records, record.Client settings)
    (hvalid : validateClientTopicName settings topic = .ok ())
    (hlimit : partition.toNat < settings.produce.maxPartitionsPerTopic)
    (hdeleted : .topicDeleted topic ∈ records)
    (hagain : CreatedAgain settings now s topic partition records) :
    (s.replay settings now records).logOf (topic, partition) =
      some (create settings.config now) := by
  obtain ⟨before, opening, after, rfl, hopens, hafter, hroom⟩ := hagain
  have hne : opening ≠ .topicDeleted topic := by
    rintro rfl
    exact hopens
  have hbefore : .topicDeleted topic ∈ before :=
    (mem_append.mp hdeleted).resolve_right fun h => (mem_cons.mp h).elim (hne ·.symm) hafter
  rw [replay_append, replay_cons]
  refine logOf_replay_of_some ?_ hafter
  rcases blank_replay_of_deleted hbefore
    (fun record hrecord => hclient record (mem_append_left _ hrecord)) with hnone | hsome
  · rw [logOf_apply, if_neg hne,
      if_pos ⟨hopens, hnone, (checkPartition_iff hvalid).mpr ⟨hlimit, .inr hroom⟩⟩]
  · exact logOf_apply_of_some hsome hne

/-! ## Open partitions -/

/-- What holds of the open partitions in every history. -/
structure Held (settings : EngineSettings) (s : StorageEngine) : Prop where
  durable : ∀ key pm, s.partitions.lookup key = some pm → pm.Durable
  named : ∀ key ∈ s.partitions, validateClientTopicName settings key.1 = .ok () ∧
    key.2.toNat < settings.produce.maxPartitionsPerTopic
  bounded : s.partitions.keys.length ≤ settings.maxPartitionsPerBroker - settings.systemPartitions
  registered : ∀ name ∈ s.topicRegistry, validateClientTopicName settings name = .ok ()

theorem Held.of_empty {s : StorageEngine} (hpartitions : s.partitions = ∅)
    (hregistry : s.topicRegistry = ∅) : s.Held settings := by
  refine ⟨?_, ?_, ?_, ?_⟩
  · intro key pm h
    rw [hpartitions, lookup_empty] at h
    exact absurd h nofun
  · intro key h
    rw [hpartitions] at h
    exact absurd h (notMem_empty key)
  · rw [hpartitions]
    exact Nat.zero_le _
  · intro name h
    rw [hregistry] at h
    exact absurd h (notMem_empty name)

theorem Held.withPartition (h : s.Held settings)
    (hvalid : validateClientTopicName settings topic = .ok ())
    (hlimit : partition.toNat < settings.produce.maxPartitionsPerTopic)
    (hroom : (topic, partition) ∈ s.partitions ∨ s.HasRoom settings) (hdurable : pm.Durable) :
    (s.withPartition topic partition pm).Held settings := by
  refine ⟨?_, ?_, ?_, h.registered⟩
  · intro key pm' hlookup
    by_cases hkey : key = (topic, partition)
    · subst hkey
      rw [StorageEngine.withPartition, lookup_insert] at hlookup
      exact Option.some.inj hlookup ▸ hdurable
    · rw [StorageEngine.withPartition, lookup_insert_ne hkey] at hlookup
      exact h.durable key pm' hlookup
  · intro key hmem
    rcases (mem_insert _).mp hmem with rfl | hmem
    · exact ⟨hvalid, hlimit⟩
    · exact h.named key hmem
  · have hbounded := h.bounded
    by_cases hopen : (topic, partition) ∈ s.partitions
    · exact (length_keys_insert_of_mem hopen).trans_le hbounded
    · have hfree := hroom.resolve_left hopen
      rw [HasRoom] at hfree
      refine (length_keys_insert_of_notMem hopen).trans_le ?_
      omega

theorem durable_assigned (h : pm.Durable) : (s.assigned topic partition pm).Durable := by
  rw [assigned]
  split
  · exact h.congr rfl rfl rfl
  · exact h

section

variable (h : s.Held settings)
include h

section

variable (hvalid : validateClientTopicName settings topic = .ok ())
include hvalid

theorem Held.getOrCreatePartition (hdurable : ∀ pm, opened = .ok pm → pm.Durable) :
    (s.orKeep (s.getOrCreatePartition settings topic partition opened)).Held settings := by
  rcases getOrCreatePartition_cases with hsame | ⟨hcheck, habsent, pm, hpm, hinsert⟩
  · exact hsame.symm ▸ h
  · obtain ⟨hlimit, hroom⟩ := (checkPartition_iff hvalid).mp hcheck
    rw [hinsert]
    exact h.withPartition hvalid hlimit hroom (durable_assigned (hdurable pm hpm))

theorem Held.createPartition (partition : UInt32) (now : Nat) :
    (s.orKeep (s.createPartition settings topic partition now)).Held settings := by
  refine h.getOrCreatePartition hvalid (fun pm hpm => ?_)
  exact Except.ok.inj hpm ▸ PartitionManager.Durable.create settings.config settings.flushPolicy now

theorem Held.withRegistry
    {cfg : TopicConfig} :
    Held settings { s with topicRegistry := s.topicRegistry.insert topic cfg } := by
  refine { h with registered := ?_ }
  intro name hmem
  rcases (mem_insert _).mp hmem with rfl | hmem
  · exact hvalid
  · exact h.registered name hmem

end

theorem Held.setLeaderEpoch (topic : TopicName) (partition leaderEpoch : UInt32) :
    (s.setLeaderEpoch topic partition leaderEpoch).Held settings := by
  rw [StorageEngine.setLeaderEpoch]
  split
  · rename_i pm hpm
    have hopen := lookup_isSome.mp (isSome_of_eq_some hpm)
    obtain ⟨hvalid, hlimit⟩ := h.named _ hopen
    exact h.withPartition hvalid hlimit (.inl hopen) ((h.durable _ pm hpm).congr rfl rfl rfl)
  · exact h

theorem Held.applyTopicDeletion (topic : TopicName) :
    (s.applyTopicDeletion topic).Held settings := by
  have hlookup : ∀ key pm, (s.applyTopicDeletion topic).partitions.lookup key = some pm →
      s.partitions.lookup key = some pm := by
    intro key pm hpm
    rw [lookup_applyTopicDeletion] at hpm
    split at hpm
    · exact absurd hpm nofun
    · exact hpm
  refine ⟨fun key pm hpm => h.durable key pm (hlookup key pm hpm), ?_, ?_, ?_⟩
  · intro key hmem
    obtain ⟨pm, hpm⟩ := isSome_iff_exists.mp (lookup_isSome.mpr hmem)
    exact h.named key (lookup_isSome.mp (isSome_of_eq_some (hlookup key pm hpm)))
  · exact (length_keys_eraseAll_le _ _).trans h.bounded
  · intro name hmem
    exact h.registered name (mem_erase.mp hmem).2

theorem Held.apply (hclient : record.Client settings) :
    (s.applyMetadataRecord settings now record).Held settings := by
  cases record with
  | topicPartition topic partition => exact h.createPartition hclient partition now
  | topicCreated => exact h.withRegistry hclient
  | partitionLeadershipChange topic partition leaderEpoch =>
    have hassigned : (s.assignPartition topic partition leaderEpoch).Held settings := by
      rw [assignPartition]
      split
      · exact h.withRegistry hclient
      · exact h
    have hcreated := hassigned.createPartition hclient partition now
    rw [applyMetadataRecord]
    split
    · rename_i s' hs'
      rw [hs'] at hcreated
      exact Held.setLeaderEpoch hcreated topic partition leaderEpoch
    · exact hassigned
  | topicDeleted topic => exact h.applyTopicDeletion topic
  | other => exact h

theorem Held.replay (hclient : ∀ record ∈ records, record.Client settings) :
    (s.replay settings now records).Held settings :=
  (of_forall hclient).invariant (fun _ _ h hrecord => h.apply hrecord) h

end

/-! ## The directories -/

theorem reopen_ok (h : pm.Durable) (graceful : Bool) (now : Nat) :
    ∃ pm', pm.reopen graceful now = .ok pm' ∧ pm'.Durable ∧
      pm'.log.highWatermark = pm.log.highWatermark ∧ pm'.log.retained = pm.log.retained := by
  rw [PartitionManager.reopen]
  split
  · exact h.flush.crash_syncLog now
  · exact h.crash_syncLog now

def SameMetadata (s s' : StorageEngine) : Prop :=
  s'.metadata = s.metadata ∧ s'.metadataSnapshot = s.metadataSnapshot

theorem SameMetadata.trans {s' s'' : StorageEngine} (h : s.SameMetadata s')
    (h' : s'.SameMetadata s'') : s.SameMetadata s'' := ⟨h'.1.trans h.1, h'.2.trans h.2⟩

theorem scan_opens {graceful : Bool}
    {entries : List (Sigma (fun _ : TopicName × UInt32 => PartitionManager))}
    (hentries : ∀ entry ∈ entries, entry.2.Durable ∧
      validateClientTopicName settings entry.1.1 = .ok () ∧
      entry.1.2.toNat < settings.produce.maxPartitionsPerTopic)
    (hnodup : entries.NodupKeys) (h : s.Held settings)
    (hfresh : ∀ key ∈ entries.keys, key ∉ s.partitions)
    (hfit : s.partitions.keys.length + entries.length ≤
      settings.maxPartitionsPerBroker - settings.systemPartitions) :
    ∃ s', scan settings graceful now entries s = .ok s' ∧ s'.Held settings ∧ s.SameMetadata s' ∧
      (∀ key, key ∉ entries.keys → s'.logOf key = s.logOf key) ∧
      ∀ entry ∈ entries, ∃ log, s'.logOf entry.1 = some log ∧
        log.highWatermark = entry.2.log.highWatermark ∧ log.retained = entry.2.log.retained := by
  induction entries generalizing s with
  | nil => exact ⟨s, rfl, h, ⟨rfl, rfl⟩, fun _ _ => rfl, nofun⟩
  | cons entry entries ih =>
    obtain ⟨⟨topic, partition⟩, pm⟩ := entry
    obtain ⟨⟨hdurable, hvalid, hlimit⟩, hrest⟩ := forall_mem_cons.mp hentries
    obtain ⟨hnew, hnodup⟩ := nodupKeys_cons.mp hnodup
    obtain ⟨habsent, hfresh⟩ := forall_mem_cons.mp hfresh
    obtain ⟨pm', hreopen, hdurable', hend, hretained⟩ := reopen_ok hdurable graceful now
    have hroom : s.HasRoom settings := by
      rw [HasRoom]
      rw [length_cons] at hfit
      omega
    have hcheck : s.checkPartition settings topic partition = .ok () :=
      (checkPartition_iff hvalid).mpr ⟨hlimit, .inr hroom⟩
    obtain ⟨s', hscan, hheld, hsame, hothers, hlogs⟩ := ih
      (s := s.withPartition topic partition (s.assigned topic partition pm')) hrest hnodup
      (h.withPartition hvalid hlimit (.inr hroom) (durable_assigned hdurable'))
      (fun key hkey hmem => by
        rcases (mem_insert _).mp hmem with rfl | hmem
        · exact hnew hkey
        · exact hfresh key hkey hmem)
      (by
        have hlength : (s.withPartition topic partition
            (s.assigned topic partition pm')).partitions.keys.length =
            s.partitions.keys.length + 1 := length_keys_insert_of_notMem habsent
        rw [length_cons] at hfit
        omega)
    refine ⟨s', ?_, hheld, hsame, ?_, ?_⟩
    · simp only [scan, parseDirName_dirName, getOrCreatePartition_of_check hcheck habsent hreopen,
        hscan]
    · intro key hkey
      obtain ⟨hne, hkey⟩ := not_or.mp (mt mem_cons.mpr hkey)
      rw [hothers key hkey, logOf_withPartition, if_neg hne]
    · refine forall_mem_cons.mpr ⟨⟨pm'.log, ?_, hend, hretained⟩, hlogs⟩
      rw [hothers (topic, partition) hnew, logOf_withPartition, if_pos rfl, assigned_log]

/-! ## Histories -/

structure Sound (settings : EngineSettings) (s : StorageEngine) : Prop where
  held : s.Held settings
  logged : ∀ record ∈ s.metadata, record.Client settings
  /-- A snapshot names the topics there are and deletes none. -/
  covered : ∀ record ∈ s.snapshotRecords, record.Client settings ∧
    ∀ topic, record ≠ .topicDeleted topic

theorem metadata_createPartition {s' : StorageEngine}
    (h : s.orKeep (s.createPartition settings topic partition now) = s') : s.SameMetadata s' := by
  rw [← h, createPartition]
  rcases getOrCreatePartition_cases with hsame | ⟨-, -, pm, -, hinsert⟩
  · rw [hsame]
    exact ⟨rfl, rfl⟩
  · rw [hinsert]
    exact ⟨rfl, rfl⟩

theorem metadata_apply : s.SameMetadata (s.applyMetadataRecord settings now record) := by
  cases record with
  | topicPartition => exact metadata_createPartition rfl
  | topicCreated => exact ⟨rfl, rfl⟩
  | partitionLeadershipChange topic partition leaderEpoch =>
    obtain ⟨topicRegistry, hassign⟩ := assignPartition_eq (s := s)
    rw [applyMetadataRecord, hassign]
    split
    · rename_i s' hs'
      have hcreate := metadata_createPartition (s := { s with topicRegistry }) (by rw [hs'])
      rw [setLeaderEpoch]
      split <;> exact hcreate
    · exact ⟨rfl, rfl⟩
  | topicDeleted => exact ⟨rfl, rfl⟩
  | other => exact ⟨rfl, rfl⟩

theorem metadata_replay : s.SameMetadata (s.replay settings now records) :=
  Run.run_invariant (P := s.SameMetadata) (fun _ _ h => h.trans metadata_apply) ⟨rfl, rfl⟩ records

theorem Sound.of_same (h : s.Sound settings) {s' : StorageEngine} (hheld : s'.Held settings)
    (hsame : s.SameMetadata s') : s'.Sound settings := by
  refine ⟨hheld, hsame.1 ▸ h.logged, ?_⟩
  rw [snapshotRecords, hsame.2]
  exact h.covered

section

variable (h : s.Sound settings)
include h

theorem Sound.proposeMetadata (hclient : record.Client settings)
    (now : Nat) : (s.proposeMetadata settings now record).Sound settings := by
  obtain ⟨hmetadata, hsnapshot⟩ := metadata_apply
  have hheld : Held settings { s with metadata := s.metadata ++ [record] } := { h.held with }
  refine ⟨hheld.apply hclient, ?_, ?_⟩
  · rw [StorageEngine.proposeMetadata, hmetadata]
    exact forall_mem_append.mpr ⟨h.logged, forall_mem_singleton.mpr hclient⟩
  · rw [StorageEngine.proposeMetadata, snapshotRecords, hsnapshot]
    exact h.covered

theorem Sound.createTopic (topic : TopicName) (numPartitions : UInt32)
    (replicationFactor : UInt16) (now : Nat) :
    (s.orKeep (s.createTopic settings topic numPartitions replicationFactor now)).Sound
      settings := by
  cases hvalid : validateClientTopicName settings topic with
  | error =>
    simp only [StorageEngine.createTopic, hvalid, orKeep]
    exact h
  | ok _ =>
    simp only [StorageEngine.createTopic, hvalid]
    split
    · exact h
    · refine invariant (fun _ _ h hrecord => h.proposeMetadata hrecord now) h
        (.of_forall (forall_mem_cons.mpr ⟨hvalid, fun record hrecord => ?_⟩))
      obtain ⟨p, -, rfl⟩ := mem_map.mp hrecord
      exact hvalid

theorem Sound.deleteTopic (topic : TopicName) (now : Nat) :
    (s.orKeep (s.deleteTopic settings topic now)).Sound settings := by
  rw [StorageEngine.deleteTopic]
  split
  · exact h
  · exact h.proposeMetadata
      (show MetadataRecord.Client settings (.topicDeleted topic) from trivial) now

theorem Sound.getOrCreatePartitionForClient {s' : StorageEngine}
    (hok : s.getOrCreatePartitionForClient settings topic partition now = .ok s') :
    s'.Sound settings := by
  rw [StorageEngine.getOrCreatePartitionForClient] at hok
  split at hok
  · exact absurd hok nofun
  · rename_i hvalid
    split at hok
    · exact Except.ok.inj hok ▸ h
    · split at hok
      · have hheld := h.held.createPartition hvalid partition now
        rw [hok] at hheld
        exact h.of_same hheld (metadata_createPartition (by rw [hok]; rfl))
      · exact absurd hok nofun

theorem Sound.produceBatch (c : Crates) (topic : TopicName)
    (partition : UInt32) (request : ProduceRequest) (now : Nat) :
    (s.produceBatch c settings topic partition request now).1.Sound settings := by
  rw [StorageEngine.produceBatch]
  split
  · exact h
  · split
    · exact h
    · rename_i s' hs'
      have hopened := h.getOrCreatePartitionForClient hs'
      split
      · exact hopened
      · rename_i pm hpm
        have hmem := lookup_isSome.mp (isSome_of_eq_some hpm)
        obtain ⟨hvalid, hlimit⟩ := hopened.held.named _ hmem
        have hdurable := (hopened.held.durable _ pm hpm).produceBatchLocal (c := c)
          settings.produce request now
        exact ⟨hopened.held.withPartition hvalid hlimit (.inl hmem) hdurable, hopened.logged,
          hopened.covered⟩

theorem Sound.snapshotMetadataIfNeeded : s.snapshotMetadataIfNeeded.Sound settings := by
  simp only [StorageEngine.snapshotMetadataIfNeeded]
  split
  · exact h
  · refine ⟨{ h.held with }, h.logged, ?_⟩
    show ∀ record ∈ s.buildMetadataSnapshotRecords, _
    refine forall_mem_cons.mpr ⟨⟨trivial, nofun⟩, ?_⟩
    intro record hrecord
    obtain ⟨entry, hentry, hrecord⟩ := mem_flatMap.mp hrecord
    have hvalid := h.held.registered entry.1 (mem_keys_of_mem hentry)
    rcases mem_cons.mp hrecord with rfl | hrecord
    · exact ⟨hvalid, nofun⟩
    · obtain ⟨assign, -, rfl⟩ := mem_map.mp hrecord
      exact ⟨hvalid, nofun⟩

/-! ## The restart -/

/-- The directories are opened, each with its log, and the records of the snapshot
leave the logs alone. -/
theorem Sound.openDirectories (graceful : Bool) (now : Nat) :
    ∃ opened, s.openDirectories settings graceful now = .ok opened ∧
      let s' := opened.replay settings now s.snapshotRecords
      s'.Held settings ∧ s.SameMetadata s' ∧
      ∀ key log, s.logOf key = some log → ∃ log', s'.logOf key = some log' ∧
        log'.highWatermark = log.highWatermark ∧ log'.retained = log.retained := by
  have hempty : Held settings { s with partitions := ∅, topicRegistry := ∅ } :=
    Held.of_empty rfl rfl
  have hentries : ∀ entry ∈ s.partitions.entries, entry.2.Durable ∧
      validateClientTopicName settings entry.1.1 = .ok () ∧
      entry.1.2.toNat < settings.produce.maxPartitionsPerTopic := by
    intro entry hentry
    have hlookup := mem_lookup_iff.mpr hentry
    exact ⟨h.held.durable _ _ hlookup, h.held.named _ (mem_keys_of_mem hentry)⟩
  have hfit : 0 + s.partitions.entries.length ≤
      settings.maxPartitionsPerBroker - settings.systemPartitions := by
    have hbounded := h.held.bounded
    rw [AList.keys, List.keys, length_map] at hbounded
    omega
  obtain ⟨opened, hscan, hheld, hsame, -, hlogs⟩ := scan_opens hentries
    s.partitions.nodupKeys hempty (fun key _ => AList.notMem_empty key) hfit
  refine ⟨opened, hscan, hheld.replay (fun record hrecord => (h.covered record hrecord).1),
    hsame.trans metadata_replay, ?_⟩
  rintro ⟨topic, partition⟩ log hlog
  obtain ⟨pm, hpm, rfl⟩ := map_eq_some_iff.mp hlog
  obtain ⟨log', hlog', hend, hretained⟩ := hlogs ⟨(topic, partition), pm⟩ (mem_lookup_iff.mp hpm)
  refine ⟨log', logOf_replay_of_some hlog' ?_, hend, hretained⟩
  exact fun hdeleted => (h.covered _ hdeleted).2 topic rfl

theorem Sound.replayed : ∀ record ∈ s.replayed, record.Client settings :=
  fun record hrecord => h.logged record (mem_of_mem_drop hrecord)

theorem Sound.restart (graceful : Bool) (now : Nat) :
    (s.orKeep (s.restart settings graceful now)).Sound settings := by
  obtain ⟨opened, hopened, hheld, hsame, -⟩ := h.openDirectories graceful now
  simp only [StorageEngine.restart, hopened, orKeep]
  exact (h.of_same (hheld.replay h.replayed) (hsame.trans metadata_replay)).proposeMetadata
    (show MetadataRecord.Client settings .other from trivial) now

end

theorem Sound.step (c : Crates) (h : s.Sound settings) (e : TopicEvent) :
    (s.step c settings e).Sound settings := by
  cases e with
  | createTopic topic numPartitions replicationFactor now =>
    exact h.createTopic topic numPartitions replicationFactor now
  | deleteTopic topic now => exact h.deleteTopic topic now
  | produce topic partition request now => exact h.produceBatch c topic partition request now
  | proposeOther now =>
    exact h.proposeMetadata (show MetadataRecord.Client settings .other from trivial) now
  | snapshotMetadata => exact h.snapshotMetadataIfNeeded
  | restart graceful now => exact h.restart graceful now

theorem sound_empty : empty.Sound settings :=
  ⟨Held.of_empty rfl rfl, nofun, nofun⟩

theorem Sound.restartPreserves_iff (h : s.Sound settings) {graceful : Bool} :
    s.RestartPreserves settings graceful now ↔ s.Restorable settings graceful now := by
  obtain ⟨opened, hopened, hheld, -, hlogs⟩ := h.openDirectories graceful now
  have hrestart : s.restart settings graceful now = .ok (((opened.replay settings now
      s.snapshotRecords).replay settings now s.replayed).proposeMetadata settings now .other) := by
    simp only [StorageEngine.restart, hopened]
  constructor
  · rintro ⟨s', hs', hkept⟩ opened' hopened' topic partition log hlog
    obtain rfl : opened = opened' := Except.ok.inj (hopened.symm.trans hopened')
    obtain rfl := Except.ok.inj (hrestart.symm.trans hs')
    obtain ⟨log', hlog', hend, hretained⟩ := hkept (topic, partition) log hlog
    by_cases hdeleted : .topicDeleted topic ∈ s.replayed
    · right
      obtain rfl : create settings.config now = log' := by
        rcases blank_replay_of_deleted hdeleted h.replayed with hnone | hsome
        · exact absurd (hnone.symm.trans hlog') nofun
        · exact Option.some.inj (hsome.symm.trans hlog')
      refine ⟨hend.symm, hretained.symm, createdAgain_of_replay h.replayed hdeleted ?_⟩
      exact fun hnone => absurd (hnone.symm.trans hlog') nofun
    · exact .inl hdeleted
  · intro hrestorable
    refine ⟨_, hrestart, ?_⟩
    rintro ⟨topic, partition⟩ log hlog
    by_cases hdeleted : .topicDeleted topic ∈ s.replayed
    · obtain ⟨hend, hretained, hagain⟩ :=
        (hrestorable opened hopened topic partition log hlog).resolve_left (not_not_intro hdeleted)
      have hmem := mt logOf_eq_none.mpr (show s.logOf (topic, partition) ≠ none from
        fun hnone => absurd (hnone.symm.trans hlog) nofun)
      obtain ⟨hvalid, hlimit⟩ := h.held.named _ (not_not.mp hmem)
      exact ⟨_, logOf_replay_of_createdAgain h.replayed hvalid hlimit hdeleted hagain, hend.symm,
        hretained.symm⟩
    · obtain ⟨log', hlog', hsame⟩ := hlogs (topic, partition) log hlog
      exact ⟨log', logOf_replay_of_some hlog' hdeleted, hsame⟩

/-- After every history of topic creations, deletions, produces, metadata
snapshots and restarts, a restart preserves the topics exactly when no deletion of
an existing topic that has data is replayed. -/
theorem restartPreserves_iff_restorable (c : Crates) (settings : EngineSettings)
    (events : List TopicEvent) (graceful : Bool) (now : Nat) :
    (Run.run (step c settings) .empty events).RestartPreserves settings graceful now ↔
      (Run.run (step c settings) .empty events).Restorable settings graceful now := by
  have hsound : (Run.run (step c settings) .empty events).Sound settings :=
    (of_forall (fun _ _ => trivial)).invariant (fun _ e h _ => h.step c e) sound_empty
  exact hsound.restartPreserves_iff

def strict : EngineSettings where
  isAlphanumeric := Char.isAlphanum
  config := .plain
  flushPolicy := .syncEveryBatch
  produce := unlimited
  autoCreateTopicsEnable := false
  maxPartitionsPerBroker := 100
  systemPartitions := 2

/-- A topic is created, deleted and created again, and one record is produced to
it. -/
def recreated : StorageEngine :=
  Run.run (step .storing strict) .empty
    [.createTopic ['t'] 1 1 0, .deleteTopic ['t'] 0, .createTopic ['t'] 1 1 0,
      .produce ['t'] 0 ⟨numbered 0 0 1, 1⟩ 0]

/-- The old deletion removes the record. -/
theorem not_restartPreserves_recreated : ¬ recreated.RestartPreserves strict true 0 := by
  rintro ⟨s', hs', hkept⟩
  have hbefore : (recreated.logOf (['t'], 0)).map highWatermark = some 1 := by
    decide +kernel
  have hafter : ((recreated.restart strict true 0).toOption.bind (fun s' =>
      s'.logOf (['t'], 0))).map highWatermark = some 0 := by
    decide +kernel
  rw [hs'] at hafter
  obtain ⟨log, hlog, hend⟩ := map_eq_some_iff.mp hbefore
  obtain ⟨log', hlog', hsame, -⟩ := hkept (['t'], 0) log hlog
  simp only [Except.toOption, bind_some, hlog', map_some, hsame, hend] at hafter
  cases hafter

end StorageEngine

end Bifrox.Server

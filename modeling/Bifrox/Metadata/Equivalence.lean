/-
A snapshot stands for the records it was taken after.

The open partitions are not compared one by one: each record of the snapshot keeps the engine
covered, so at the end they are again those that the registry implies.
-/
import Mathlib.Data.List.Flatten
import Bifrox.Metadata.Coverage

namespace Bifrox.Metadata

open List MetadataRecord Table Option Broker Engine Run
open Decoder (Bytes)
open Sasl (ScramMechanism ScramCredential)
open Server (AclBinding TransactionalProducerState)

namespace Engine

variable {broker : Broker} {opened : Finset (Text × UInt32)} {s g : Engine} {topic : Text}
  {key : Text × UInt32}

/-! ## Maps that are rebuilt entry by entry -/

theorem run_brokers (g : Engine) (rolesOf : UInt32 → Bytes) (entries : List (UInt32 × Text)) :
    run (applyMetadataRecord broker) g
        (entries.map fun entry => .brokerRegister entry.1 entry.2 (rolesOf entry.1)) =
      { g with
        brokerAddrs := g.brokerAddrs.insertAll entries
        brokerRoles := g.brokerRoles.insertAll
          (entries.map fun entry => (entry.1, parseProcessRoleBytes (rolesOf entry.1))) } := by
  induction entries generalizing g with
  | nil => rfl
  | cons entry entries ih =>
    rw [map_cons, run_cons, ih]
    rfl

theorem run_acls {bindings : List AclBinding} :
    run (applyMetadataRecord broker) g (bindings.map .aclCreated) =
      { g with acls := g.acls ∪ bindings.toFinset } := by
  induction bindings generalizing g with
  | nil => simp
  | cons binding bindings ih =>
    rw [map_cons, run_cons, ih]
    show { g with acls := insert binding g.acls ∪ bindings.toFinset } = _
    rw [toFinset_cons, Finset.insert_union, Finset.union_insert]

theorem run_credentials (g : Engine) {entries : List ((Text × ScramMechanism) × ScramCredential)}
    (hkeys : ∀ entry ∈ entries, entry.1 = (entry.2.username, entry.2.mechanism)) :
    run (applyMetadataRecord broker) g (entries.map fun entry => credentialRecord entry.2) =
      { g with scramCredentials := g.scramCredentials.insertAll entries } := by
  induction entries generalizing g with
  | nil => rfl
  | cons entry entries ih =>
    have hrest := fun e he => hkeys e (mem_cons_of_mem _ he)
    have hstep : applyMetadataRecord broker g (credentialRecord entry.2) =
        { g with scramCredentials := g.scramCredentials.insert entry.1 entry.2 } := by
      rw [hkeys entry mem_cons_self, credentialRecord, applyMetadataRecord,
        scramMechanismFromByte_toByte]
      rfl
    rw [map_cons, run_cons, hstep, ih _ hrest]
    rfl

theorem run_producers (broker : Broker) (g : Engine)
    {entries : List (Text × TransactionalProducerState)} (hnodup : (entries.map Prod.fst).Nodup)
    (hnew : ∀ entry ∈ entries, g.transactionalProducers.lookup entry.1 = none)
    (hnext : NextProducer g.transactionalProducers g.nextProducerId) :
    ∃ next, run (applyMetadataRecord broker) g (entries.map producerRecord) = { g with
          transactionalProducers := g.transactionalProducers.insertAll entries
          nextProducerId := next } ∧
      NextProducer (g.transactionalProducers.insertAll entries) next := by
  induction entries generalizing g with
  | nil => exact ⟨g.nextProducerId, rfl, hnext⟩
  | cons entry entries ih =>
    rw [map_cons, nodup_cons] at hnodup
    have hnone := hnew entry mem_cons_self
    have hnext' := hnext.insert entry.1 entry.2 (fun old hold =>
      absurd (hnone ▸ hold) (by simp))
    obtain ⟨next, hrun, hfinal⟩ := ih (g.restoreTransactionalProducer entry.1 entry.2) hnodup.2
      (lookup_insert_eq_none hnew hnodup.1 _) hnext'
    refine ⟨next, ?_, hfinal⟩
    rw [map_cons, run_cons]
    exact hrun

theorem run_transactions (g : Engine) (revisionOf : Text → UInt64)
    {entries : List (Text × TransactionState)} (hnodup : (entries.map Prod.fst).Nodup)
    (hkeys : ∀ entry ∈ entries, entry.2.record.transactionId = entry.1)
    (hnew : ∀ entry ∈ entries, g.transactionRevisions.lookup entry.1 = none) :
    run (applyMetadataRecord broker) g (entries.map fun entry =>
        .transactionState (revisionOf entry.1) entry.2.createdAtMs entry.2.record) =
      { g with
        transactions := g.transactions.insertAll entries
        transactionRevisions := g.transactionRevisions.insertAll
          (entries.map fun entry => (entry.1, revisionOf entry.1)) } := by
  induction entries generalizing g with
  | nil => rfl
  | cons entry entries ih =>
    rw [map_cons, nodup_cons] at hnodup
    have hid := hkeys entry mem_cons_self
    have hnone := hnew entry mem_cons_self
    have hstep : applyMetadataRecord broker g (.transactionState (revisionOf entry.1)
        entry.2.createdAtMs entry.2.record) = { g with
            transactions := g.transactions.insert entry.1 entry.2
            transactionRevisions :=
              g.transactionRevisions.insert entry.1 (revisionOf entry.1) } := by
      show installReplicatedTransaction g (revisionOf entry.1) entry.2 = _
      rw [installReplicatedTransaction, hid, hnone, if_neg (by simp)]
    rw [map_cons, run_cons, hstep, ih _ hnodup.2 (fun e he => hkeys e (mem_cons_of_mem _ he))
        (lookup_insert_eq_none hnew hnodup.1 _)]
    rfl

/-! ## Topics -/

def SameRest (g g' : Engine) : Prop :=
  g' = { g with topicRegistry := g'.topicRegistry, partitions := g'.partitions }

theorem SameRest.refl (g : Engine) : SameRest g g := rfl

theorem SameRest.trans {g g' g'' : Engine} (h : SameRest g g') (h' : SameRest g' g'') :
    SameRest g g'' := by
  rw [SameRest] at h h' ⊢
  rw [h] at h'
  exact h'

def Within (registry target : Table Text TopicConfig) : Prop :=
  ∀ topic cfg, registry.lookup topic = some cfg → ∃ cfg', target.lookup topic = some cfg' ∧
    ∀ partition, (cfg.partitions.lookup partition).isSome →
      (cfg'.partitions.lookup partition).isSome

theorem Within.insert {registry target : Table Text TopicConfig} (h : Within registry target)
    {cfg cfg' : TopicConfig} (htarget : target.lookup topic = some cfg')
    (hcfg : ∀ partition, (cfg.partitions.lookup partition).isSome →
      (cfg'.partitions.lookup partition).isSome) : Within (registry.insert topic cfg) target := by
  intro topic₁ cfg₁ hcfg₁
  rw [lookup_insert] at hcfg₁
  split at hcfg₁
  · next heq =>
    obtain rfl := some.inj hcfg₁
    exact ⟨cfg', heq ▸ htarget, hcfg⟩
  · exact h topic₁ cfg₁ hcfg₁

theorem isSome_of_within (hg : Covered broker opened g) (hs : Covered broker opened s)
    (hwithin : Within g.topicRegistry s.topicRegistry)
    (h : (g.partitions.lookup key).isSome) : (s.partitions.lookup key).isSome := by
  rw [hg.partitions, expected, isSome_map, isSome_or, Bool.or_eq_true] at h
  rw [hs.partitions, expected, isSome_map, isSome_or, Bool.or_eq_true]
  refine h.imp_left fun hassigned => ?_
  rw [assigned] at hassigned ⊢
  split at hassigned
  · next hopenable =>
    rw [if_pos hopenable]
    cases hcfg : g.topicRegistry.lookup key.1 with
    | none =>
      rw [hcfg] at hassigned
      cases hassigned
    | some cfg =>
      rw [hcfg, bind_some] at hassigned
      obtain ⟨cfg', hcfg', hpartitions⟩ := hwithin key.1 cfg hcfg
      rw [hcfg', bind_some]
      exact hpartitions key.2 hassigned
  · cases hassigned

theorem hasRoom_of_within (hg : Covered broker opened g) (hs : Covered broker opened s)
    (hwithin : Within g.topicRegistry s.topicRegistry) (hclosed : g.partitions.lookup key = none)
    (hopen : (s.partitions.lookup key).isSome) : g.HasRoom broker := by
  have hnot : key ∉ opened := by
    intro hmem
    rw [hg.partitions, expected, map_eq_none_iff, if_pos hmem] at hclosed
    exact absurd hclosed (by simp)
  have hcard := card_lt_card (fun k => isSome_of_within hg hs hwithin) hclosed hopen
  have hroom := hs.room key hopen hnot
  rw [HasRoom]
  omega

theorem roster_of_covered {partition : UInt32}
    {assignment : PartitionAssignment} (h : AssignmentCovered assignment) :
    g.roster topic partition assignment.isr (some assignment.replicas) = assignment.replicas := by
  have hknown : nonEmpty (some assignment.replicas) = some assignment.replicas := by
    rw [nonEmpty, filter_some_pos]
    exact decide_eq_true h.replicas_ne_nil
  rw [roster, knownReplicas, hknown, some_or, getD_some]
  exact widen_of_subset h.isr_subset

theorem run_assignments (hs : Covered broker opened s) {target : TopicConfig}
    (htarget : s.topicRegistry.lookup topic = some target)
    {entries : List (UInt32 × PartitionAssignment)}
    (hentries : ∀ entry ∈ entries, target.partitions.lookup entry.1 = some entry.2)
    {g : Engine} (hg : Covered broker opened g) {cfg : TopicConfig}
    (hcfg : g.topicRegistry.lookup topic = some cfg) (hconfigs : cfg.configs = ∅)
    (hwithin : Within g.topicRegistry s.topicRegistry) :
    ∃ g', run (applyMetadataRecord broker) g (entries.map (assignmentRecord topic)) = g' ∧
      Covered broker opened g' ∧ SameRest g g' ∧
      g'.topicRegistry = g.topicRegistry.insert topic
        { cfg with partitions := cfg.partitions.insertAll entries } := by
  induction entries generalizing g cfg with
  | nil => exact ⟨g, rfl, hg, SameRest.refl g, (insert_eq_self hcfg).symm⟩
  | cons entry entries ih =>
    have hentry := hentries entry mem_cons_self
    have hassignment := (hs.topics topic target htarget).assignments _ _ hentry
    have happly : applyMetadataRecord broker g (assignmentRecord topic entry) =
        g.changeLeadership broker topic entry.1 entry.2 := by
      rw [assignmentRecord, applyMetadataRecord, roster_of_covered hassignment]
    have hopen : broker.isOpenable (topic, entry.1) = true →
        (g.partitions.lookup (topic, entry.1)).isSome ∨ (g.HasRoom broker ∧
          cfg.configs.push broker.floats broker.defaultSettings = broker.defaultSettings) := by
      intro hopenable
      cases hclosed : g.partitions.lookup (topic, entry.1) with
      | some => exact .inl rfl
      | none =>
        have hsome : (s.partitions.lookup (topic, entry.1)).isSome := by
          rw [hs.partitions, expected, assigned, if_pos hopenable, htarget, bind_some, hentry]
          rfl
        refine .inr ⟨hasRoom_of_within hg hs hwithin hclosed hsome, ?_⟩
        rw [hconfigs, Configs.push_empty]
    have hcovered := hg.changeLeadership hcfg hopen hassignment
    have heq := changeLeadership_eq broker entry.1 entry.2 hcfg
      (fun hopenable => (hopen hopenable).imp_right And.left)
    have hregistry : (g.changeLeadership broker topic entry.1 entry.2).topicRegistry =
        g.topicRegistry.insert topic
          { cfg with partitions := cfg.partitions.insert entry.1 entry.2 } := by
      rw [heq]
    have hrest : SameRest g (g.changeLeadership broker topic entry.1 entry.2) := by
      rw [SameRest, heq]
    have hwithin' : Within (g.changeLeadership broker topic entry.1 entry.2).topicRegistry
        s.topicRegistry := by
      rw [hregistry]
      refine hwithin.insert htarget fun partition hpartition => ?_
      obtain ⟨_, htarget', hpartitions⟩ := hwithin topic cfg hcfg
      obtain rfl := some.inj (htarget.symm.trans htarget')
      rw [lookup_insert] at hpartition
      split at hpartition
      · next heq => rw [heq, hentry]; rfl
      · exact hpartitions partition hpartition
    have hcfg' : (g.changeLeadership broker topic entry.1 entry.2).topicRegistry.lookup topic =
        some { cfg with partitions := cfg.partitions.insert entry.1 entry.2 } := by
      rw [hregistry]
      exact lookup_insert_self _ _ _
    obtain ⟨g', hrun, hg', hrest', hregistry'⟩ := ih
      (fun e he => hentries e (mem_cons_of_mem _ he)) hcovered hcfg' hconfigs hwithin'
    refine ⟨g', ?_, hg', hrest.trans hrest', ?_⟩
    · rw [map_cons, run_cons, happly]
      exact hrun
    · rw [hregistry', hregistry, insert_insert]
      rfl

theorem storable_configs {source entries : List (Text × Text)}
    (hsource : (topicConfigChanged topic source).Storable)
    (hentries : (ofList source).Lists entries) : (topicConfigChanged topic entries).Storable := by
  obtain ⟨⟨hshort, hcount, hconfigs⟩, hlength⟩ := hsource
  have hsubset := hentries.subset_of_ofList
  have hsubperm : entries.Subperm source := (List.Nodup.of_map _ hentries.nodup).subperm hsubset
  have hlen : (entries.flatMap putConfig).length ≤ (source.flatMap putConfig).length := by
    obtain ⟨middle, hperm, hsublist⟩ := hsubperm
    rw [(hperm.symm.flatMap_right putConfig).length_eq]
    exact (hsublist.flatMap putConfig).length_le
  refine ⟨⟨hshort, Nat.le_trans hsubperm.length_le hcount, fun config hconfig =>
    hconfigs config (hsubset hconfig)⟩, ?_⟩
  simp only [encode, body, length_cons, length_append, BigEndian.length_put] at hlength ⊢
  omega

theorem run_topicRecords (hs : Covered broker opened s) {it : Iteration} (hit : it.Of s)
    {entry : Text × TopicConfig} (hentry : s.topicRegistry.lookup entry.1 = some entry.2)
    (hg : Covered broker opened g) (hnew : g.topicRegistry.lookup entry.1 = none)
    (hwithin : Within g.topicRegistry s.topicRegistry) :
    ∃ g', run (applyMetadataRecord broker) g (topicRecords it entry) = g' ∧
      Covered broker opened g' ∧ SameRest g g' ∧
      g'.topicRegistry = g.topicRegistry.insert entry.1 entry.2 := by
  obtain ⟨topic, target⟩ := entry
  have htopic := hs.topics topic target hentry
  have hassignments := hit.assignments topic target hentry
  have hconfigs := hit.configs topic target hentry
  -- The topic is created, without assignments and configs.
  have hcreated := hg.createTopic htopic.short hnew target.numPartitions target.replicationFactor
  have hcfg := lookup_insert_self g.topicRegistry topic
    { numPartitions := target.numPartitions, replicationFactor := target.replicationFactor,
      cleanupPolicy := broker.cleanupPolicy, partitions := ∅, configs := ∅ }
  have hwithin₁ : Within (g.createTopic broker topic target.numPartitions
      target.replicationFactor).topicRegistry s.topicRegistry := hwithin.insert hentry (by simp)
  -- Its partitions are assigned.
  obtain ⟨g₂, hrun₂, hg₂, hrest₂, hregistry₂⟩ := run_assignments hs hentry
    (fun e he => (hassignments.mem_iff _ _).mp he) hcreated hcfg rfl hwithin₁
  have hrest₁ : SameRest g (g.createTopic broker topic target.numPartitions
    target.replicationFactor) := rfl
  have hrest := hrest₁.trans hrest₂
  have hpartitions : (∅ : Table UInt32 PartitionAssignment).insertAll (it.assignments topic) =
      target.partitions := hassignments.ofList_eq
  have hregistry :
      g₂.topicRegistry = g.topicRegistry.insert topic { target with configs := ∅ } := by
    rw [hregistry₂, createTopic, insert_insert]
    dsimp only
    rw [hpartitions, ← htopic.cleanupPolicy]
  have hlookup₂ : g₂.topicRegistry.lookup topic = some { target with configs := ∅ } := by
    rw [hregistry, lookup_insert_self]
  have hrecords : run (applyMetadataRecord broker) g (topicRecords it (topic, target)) =
      run (applyMetadataRecord broker) g₂ (configRecords topic (it.configs topic)) := by
    rw [topicRecords, run_cons, run_append, ← hrun₂]
    rfl
  -- Its configs are stored, if there are any.
  by_cases hempty : it.configs topic = []
  · have hnone : target.configs = ∅ := by
      rw [← hconfigs.ofList_eq, hempty]
      rfl
    refine ⟨g₂, ?_, hg₂, hrest, ?_⟩
    · rw [hrecords, configRecords, if_pos hempty]
      rfl
    · rw [hregistry, ← hnone]
  · obtain ⟨source, hsource, hstorable⟩ := htopic.configs
    have hlisted : (ofList source).Lists (it.configs topic) := hsource ▸ hconfigs
    have hpush : ∀ partition pm, g₂.partitions.lookup (topic, partition) = some pm →
        Configs.push broker.floats (ofList (it.configs topic)) pm.settings =
          Configs.push broker.floats (ofList (it.configs topic)) broker.defaultSettings := by
      intro partition pm hpm
      rw [hg₂.partitions, expected, map_eq_some_iff] at hpm
      obtain ⟨assignment, -, rfl⟩ := hpm
      rw [broker.topicSettings_eq_of_lookup _ hlookup₂, Configs.push_empty]
    have hg₃ := hg₂.applyTopicConfigChange (storable_configs hstorable hlisted)
      (.inl (by rw [hlookup₂]; rfl)) hpush
    refine ⟨g₂.applyTopicConfigChange broker topic (it.configs topic), ?_, hg₃, hrest.trans rfl, ?_⟩
    · rw [hrecords, configRecords, if_neg hempty]
      rfl
    · simp only [applyTopicConfigChange, setTopicConfigs, hlookup₂]
      rw [hregistry, insert_insert, hconfigs.ofList_eq]

theorem run_topics (hs : Covered broker opened s) {it : Iteration} (hit : it.Of s)
    {entries : List (Text × TopicConfig)} (hnodup : (entries.map Prod.fst).Nodup)
    (hentries : ∀ entry ∈ entries, s.topicRegistry.lookup entry.1 = some entry.2) {g : Engine}
    (hg : Covered broker opened g) (hnew : ∀ entry ∈ entries, g.topicRegistry.lookup entry.1 = none)
    (hwithin : Within g.topicRegistry s.topicRegistry) :
    ∃ g', run (applyMetadataRecord broker) g (entries.flatMap (topicRecords it)) = g' ∧
      Covered broker opened g' ∧ SameRest g g' ∧
      g'.topicRegistry = g.topicRegistry.insertAll entries := by
  induction entries generalizing g with
  | nil => exact ⟨g, rfl, hg, SameRest.refl g, rfl⟩
  | cons entry entries ih =>
    rw [map_cons, nodup_cons] at hnodup
    have hentry := hentries entry mem_cons_self
    obtain ⟨g₁, hrun₁, hg₁, hrest₁, hregistry₁⟩ := run_topicRecords hs hit hentry hg
      (hnew entry mem_cons_self) hwithin
    obtain ⟨g₂, hrun₂, hg₂, hrest₂, hregistry₂⟩ := ih hnodup.2
      (fun e he => hentries e (mem_cons_of_mem _ he)) hg₁
      (hregistry₁ ▸ lookup_insert_eq_none hnew hnodup.1 _)
      (hregistry₁ ▸ hwithin.insert hentry fun _ h => h)
    refine ⟨g₂, ?_, hg₂, hrest₁.trans hrest₂, ?_⟩
    · rw [flatMap_cons, run_append, hrun₁, hrun₂]
    · rw [hregistry₂, hregistry₁, insertAll_cons]

/-! ## The whole snapshot -/

theorem NextProducer.unique {producers : Table Text TransactionalProducerState} {m n : Nat}
    (hm : NextProducer producers m) (hn : NextProducer producers n) : m = n := by
  have hle : ∀ {m n : Nat}, NextProducer producers m → NextProducer producers n → m ≤ n := by
    intro m n hm hn
    rcases hm.reached with rfl | ⟨id, producer, hlookup, rfl⟩
    · exact hn.pos
    · exact hn.le id producer hlookup
  exact Nat.le_antisymm (hle hm hn) (hle hn hm)

def revisionOf (s : Engine) (id : Text) : UInt64 := (s.transactionRevisions.lookup id).getD 0

variable (hs : Covered broker opened s) {it : Iteration} (hit : it.Of s)
include hs hit

theorem insertAll_roles {base : Table UInt32 (List ProcessRole)}
    (hbase : ∀ nodeId, (base.lookup nodeId).isSome → (s.brokerRoles.lookup nodeId).isSome) :
    base.insertAll (it.brokers.map fun entry => (entry.1, parseProcessRoleBytes
      (((s.brokerRoles.lookup entry.1).map rolesToBytes).getD []))) = s.brokerRoles := by
  refine (hit.brokers.map_value (f := fun nodeId => parseProcessRoleBytes
    (((s.brokerRoles.lookup nodeId).map rolesToBytes).getD [])) hs.roles_iff
      fun nodeId roles hroles => ?_).insertAll_eq hbase
  rw [hroles, map_some, getD_some, parseProcessRoleBytes_rolesToBytes (hs.roles _ _ hroles).1]

theorem filterMap_transactionRecord :
    it.transactions.filterMap (fun entry => s.transactionRecord entry.2) =
      it.transactions.map fun entry => .transactionState (s.revisionOf entry.1)
        entry.2.createdAtMs entry.2.record := by
  rw [← filterMap_eq_map]
  refine filterMap_congr fun entry hentry => ?_
  have hstate := (hit.transactions.mem_iff _ _).mp hentry
  have hid := (hs.transactions _ _ hstate).1
  have hsome : (s.transactionRevisions.lookup entry.1).isSome := by
    rw [hs.revisions_iff, hstate]
    rfl
  obtain ⟨revision, hrevision⟩ := isSome_iff_exists.mp hsome
  simp [transactionRecord, hid, revisionOf, hrevision]

/-- The brokers, topics and open partitions of a state, and nothing else yet. -/
def topicsOnly (s : Engine) : Engine :=
  { s with
    acls := ∅
    scramCredentials := ∅
    transactionalProducers := ∅
    nextProducerId := 1
    transactions := ∅
    transactionRevisions := ∅ }

theorem run_brokers_topics : run (applyMetadataRecord broker) (broker.fresh opened)
      (it.brokers.map s.brokerRecord ++ it.topics.flatMap (topicRecords it)) = s.topicsOnly := by
  have hfresh := covered_fresh broker opened
  have hown : ∀ nodeId, ((broker.fresh opened).brokerAddrs.lookup nodeId).isSome →
      (s.brokerAddrs.lookup nodeId).isSome := by
    intro nodeId hsome
    by_cases hnode : nodeId = broker.nodeId
    · rw [hnode]
      exact hs.own
    · have hnone : (broker.fresh opened).brokerAddrs.lookup nodeId = none :=
        lookup_insert_of_ne _ hnode _
      rw [hnone] at hsome
      cases hsome
  have hroles : ∀ nodeId, ((broker.fresh opened).brokerRoles.lookup nodeId).isSome →
      (s.brokerRoles.lookup nodeId).isSome := by
    intro nodeId hsome
    rw [hfresh.roles_iff] at hsome
    rw [hs.roles_iff]
    exact hown nodeId hsome
  have hbrokers : run (applyMetadataRecord broker) (broker.fresh opened)
      (it.brokers.map s.brokerRecord) = { broker.fresh opened with
          brokerAddrs := s.brokerAddrs
          brokerRoles := s.brokerRoles } := by
    refine (run_brokers (broker.fresh opened)
      (fun nodeId => ((s.brokerRoles.lookup nodeId).map rolesToBytes).getD []) it.brokers).trans ?_
    rw [hit.brokers.insertAll_eq hown, insertAll_roles hs hit hroles]
  have hg : Covered broker opened { broker.fresh opened with
      brokerAddrs := s.brokerAddrs
      brokerRoles := s.brokerRoles } :=
    { hfresh with addrs := hs.addrs, own := hs.own, roles := hs.roles, roles_iff := hs.roles_iff }
  obtain ⟨g', hrun, hg', hrest, hregistry⟩ := run_topics hs hit hit.topics.nodup
    (fun entry hentry => (hit.topics.mem_iff _ _).mp hentry) hg (fun _ _ => rfl)
    (fun topic cfg hcfg => absurd hcfg (some_ne_none cfg).symm)
  have htopics : g'.topicRegistry = s.topicRegistry := by
    rw [hregistry]
    exact hit.topics.ofList_eq
  -- Both engines are covered and have the same registry, so the same partitions are open.
  have hpartitions : g'.partitions = s.partitions := by
    refine ext fun key => ?_
    rw [hg'.partitions, hs.partitions, htopics]
  rw [SameRest, htopics, hpartitions] at hrest
  rw [run_append, hbrokers, hrun, hrest]
  rfl

theorem run_rest : run (applyMetadataRecord broker) s.topicsOnly (it.acls.map .aclCreated ++
        (it.credentials.map (fun entry => credentialRecord entry.2) ++
          (it.producers.map producerRecord ++
            it.transactions.filterMap (fun entry => s.transactionRecord entry.2)))) = s := by
  have hacls : s.topicsOnly.acls ∪ it.acls.toFinset = s.acls := by
    ext binding
    show binding ∈ ∅ ∪ it.acls.toFinset ↔ binding ∈ s.acls
    rw [Finset.empty_union, List.mem_toFinset]
    exact hit.acls binding
  have hcredentials : s.topicsOnly.scramCredentials.insertAll it.credentials =
      s.scramCredentials := hit.credentials.ofList_eq
  have hkeys : ∀ entry ∈ it.credentials, entry.1 = (entry.2.username, entry.2.mechanism) :=
    fun entry hentry => (hs.credentials _ _ ((hit.credentials.mem_iff _ _).mp hentry)).1
  have hids : ∀ entry ∈ it.transactions, entry.2.record.transactionId = entry.1 :=
    fun entry hentry => (hs.transactions _ _ ((hit.transactions.mem_iff _ _).mp hentry)).1
  rw [run_append, run_append, run_append, filterMap_transactionRecord hs hit, run_acls,
    hacls, run_credentials _ hkeys]
  obtain ⟨next, hrun, hnext⟩ := run_producers broker { s.topicsOnly with
      acls := s.acls
      scramCredentials := s.topicsOnly.scramCredentials.insertAll it.credentials }
    hit.producers.nodup (fun _ _ => rfl) nextProducer_empty
  rw [hrun, run_transactions _ s.revisionOf hit.transactions.nodup hids (fun _ _ => rfl),
    hcredentials]
  have hproducers := hit.producers.ofList_eq
  have htransactions := hit.transactions.ofList_eq
  have hsame : next = s.nextProducerId := NextProducer.unique (hproducers ▸ hnext) hs.next
  refine Engine.ext rfl rfl rfl rfl rfl rfl hproducers hsame htransactions ?_
  refine (hit.transactions.map_value (f := s.revisionOf) hs.revisions_iff fun id revision h =>
    ?_).ofList_eq
  rw [revisionOf, h, getD_some]

theorem run_buildMetadataSnapshotRecords :
    run (applyMetadataRecord broker) (broker.fresh opened) (s.buildMetadataSnapshotRecords it) =
      s := by
  rw [buildMetadataSnapshotRecords, ← append_assoc, run_append, run_brokers_topics hs hit,
    run_rest hs hit]

theorem storable_of_mem_build {record : MetadataRecord}
    (h : record ∈ s.buildMetadataSnapshotRecords it) : record.Storable := by
  rw [buildMetadataSnapshotRecords] at h
  rcases mem_append.mp h with h | h
  · obtain ⟨entry, hentry, rfl⟩ := mem_map.mp h
    have haddr := (hit.brokers.mem_iff _ _).mp hentry
    refine storable_of_fits ⟨hs.addrs _ _ haddr, ?_⟩ rfl
    cases hroles : s.brokerRoles.lookup entry.1 with
    | none => decide
    | some =>
      rw [map_some, getD_some, rolesToBytes, length_map]
      exact (hs.roles _ _ hroles).2
  rcases mem_append.mp h with h | h
  · obtain ⟨entry, hentry, hmem⟩ := mem_flatMap.mp h
    have hcfg := (hit.topics.mem_iff _ _).mp hentry
    have htopic := hs.topics _ _ hcfg
    rcases mem_cons.mp hmem with rfl | hmem
    · exact storable_of_fits htopic.short rfl
    rcases mem_append.mp hmem with hmem | hmem
    · obtain ⟨e, he, rfl⟩ := mem_map.mp hmem
      have ha := htopic.assignments _ _ (((hit.assignments _ _ hcfg).mem_iff _ _).mp he)
      refine storable_of_fits ⟨htopic.short, ha.length_isr_le, ?_⟩ rfl
      intro roster hroster
      exact some.inj hroster ▸ ha.length_replicas_le
    · rw [configRecords] at hmem
      split at hmem
      · cases hmem
      · obtain rfl := mem_singleton.mp hmem
        obtain ⟨source, hsource, hstorable⟩ := htopic.configs
        exact storable_configs hstorable (hsource ▸ hit.configs _ _ hcfg)
  rcases mem_append.mp h with h | h
  · obtain ⟨binding, hbinding, rfl⟩ := mem_map.mp h
    exact storable_of_fits (hs.acls binding ((hit.acls binding).mp hbinding)) rfl
  rcases mem_append.mp h with h | h
  · obtain ⟨entry, hentry, rfl⟩ := mem_map.mp h
    have hcredential := hs.credentials _ _ ((hit.credentials.mem_iff _ _).mp hentry)
    exact storable_of_fits hcredential.2 rfl
  rcases mem_append.mp h with h | h
  · obtain ⟨entry, hentry, rfl⟩ := mem_map.mp h
    exact storable_of_fits (hs.producers _ _ ((hit.producers.mem_iff _ _).mp hentry)) rfl
  · rw [filterMap_transactionRecord hs hit] at h
    obtain ⟨entry, hentry, rfl⟩ := mem_map.mp h
    exact (hs.transactions _ _ ((hit.transactions.mem_iff _ _).mp hentry)).2 _ _

end Engine

/-! ## Runs -/

/-- The record was read from the log.  Its bytes stand there after their length, in four
bytes. -/
def Committed (record : MetadataRecord) : Prop :=
  ∃ bytes : Bytes, bytes.length < 2 ^ 32 ∧ decode bytes = .ok record

/-- A snapshot taken after the first records and the other records after it lead to the state
that all the records lead to. -/
def SnapshotEquivalent (broker : Broker) (opened : Finset (Text × UInt32))
    (before after : List MetadataRecord) (it : Iteration) (snapshotOffset : UInt64) : Prop :=
  replayMetadataLog broker (broker.fresh opened)
      (writeMetadataSnapshot snapshotOffset ((run (applyMetadataRecord broker)
        (broker.fresh opened) before).buildMetadataSnapshotRecords it)) after =
    .ok (run (applyMetadataRecord broker) (broker.fresh opened) (before ++ after))

theorem covered_run {broker : Broker} {opened : Finset (Text × UInt32)}
    {records : List MetadataRecord} (hcommitted : ∀ record ∈ records, Committed record)
    (hok : Guarded (applyMetadataRecord broker) (Restorable broker opened)
      (broker.fresh opened) records) :
    Covered broker opened (run (applyMetadataRecord broker) (broker.fresh opened) records) := by
  have hstorable : Guarded (applyMetadataRecord broker)
      (fun _ record => record.Storable) (broker.fresh opened) records := by
    refine Guarded.of_forall fun record hrecord => ?_
    obtain ⟨bytes, hlen, hdecode⟩ := hcommitted record hrecord
    exact storable_of_decode hdecode hlen
  exact Guarded.invariant (P := Covered broker opened)
    (fun s record hs h => Covered.apply hs h.1 h.2)
    (covered_fresh broker opened) (hstorable.and hok)

/-- Along a run of committed records that meet the condition, a snapshot can be taken
anywhere and in any order of iteration, as long as its count of records is one of 32 bits. -/
theorem snapshotEquivalent_of_restorable (broker : Broker) (opened : Finset (Text × UInt32))
    (records : List MetadataRecord) (hcommitted : ∀ record ∈ records, Committed record)
    (hok : Guarded (applyMetadataRecord broker) (Restorable broker opened)
      (broker.fresh opened) records) :
    ∀ before after, records = before ++ after → ∀ it : Iteration,
      it.Of (run (applyMetadataRecord broker) (broker.fresh opened) before) →
      ((run (applyMetadataRecord broker) (broker.fresh opened)
        before).buildMetadataSnapshotRecords it).length < 2 ^ 32 →
      ∀ snapshotOffset, SnapshotEquivalent broker opened before after it snapshotOffset := by
  rintro before after rfl it hit hcount snapshotOffset
  have hs := covered_run (fun record hrecord => hcommitted record (mem_append_left _ hrecord))
    hok.left
  rw [SnapshotEquivalent, replayMetadataLog, readMetadataSnapshot_write
    (fun record hrecord => storable_of_mem_build hs hit hrecord) hcount]
  show Except.ok (run (applyMetadataRecord broker) (run (applyMetadataRecord broker)
    (broker.fresh opened) _) after) = _
  rw [run_buildMetadataSnapshotRecords hs hit, run_append]

/-! ## Examples

Configs that are replaced by none are no longer stored, but what they have set on an open
partition stays in force until the snapshot is loaded. -/

def Broker.plain : Broker where
  settings :=
    { isAlphanumeric := Char.isAlphanum
      config := .plain
      flushPolicy := .syncEveryBatch
      produce := { messageMaxBytes := none, maxPartitionsPerTopic := 100, compacted := false }
      autoCreateTopicsEnable := false
      maxPartitionsPerBroker := 100
      systemPartitions := 2 }
  nodeId := 1
  bindAddr := ['a']
  roles := [.controller, .broker]
  cleanupPolicy := .delete
  compressionCodec := .producer
  minCleanableDirtyRatio := 0
  minInsyncReplicas := 1
  floats := { parse := fun _ => none, isRatio := fun _ => true }
  bindAddr_short := by decide
  roles_ne_nil := by decide
  length_roles_lt := by decide

variable {record : MetadataRecord}

theorem committed_of_storable (h : record.Storable) : Committed record :=
  ⟨record.encode, h.length_lt, decode_encode h.fits⟩

/-- A topic whose retention is set and then left to the broker again. -/
def retentionWithdrawn : List MetadataRecord :=
  [.topicCreated ['t'] 1 1, .topicConfigChanged ['t'] [(ConfigKey.retentionMs.name, ['5'])],
    .topicConfigChanged ['t'] []]

def withdrawnTopic : TopicConfig where
  numPartitions := 1
  replicationFactor := 1
  cleanupPolicy := .delete
  partitions := ∅
  configs := ∅

/-- The iteration over one topic. -/
def oneTopic (cfg : TopicConfig) (assignments : List (UInt32 × PartitionAssignment))
    (configs : List (Text × Text)) : Iteration where
  brokers := [(1, ['a'])]
  topics := [(['t'], cfg)]
  assignments := fun _ => assignments
  configs := fun _ => configs
  acls := []
  credentials := []
  producers := []
  transactions := []

theorem oneTopic_of (opened : Finset (Text × UInt32)) {s : Engine} {cfg : TopicConfig}
    {assignments : List (UInt32 × PartitionAssignment)} {configs : List (Text × Text)}
    (hs : s = { plain.fresh opened with
      topicRegistry := (∅ : Table Text TopicConfig).insert ['t'] cfg, partitions := s.partitions })
    (hassignments : cfg.partitions.Lists assignments) (hconfigs : cfg.configs.Lists configs) :
    (oneTopic cfg assignments configs).Of s := by
  rw [hs]
  exact {
    brokers := lists_empty.insert rfl _
    topics := lists_empty.insert rfl _
    assignments := Table.All.empty.insert hassignments
    configs := Table.All.empty.insert hconfigs
    acls := fun binding => ⟨nofun, fun h => absurd h (Finset.notMem_empty binding)⟩
    credentials := lists_empty
    producers := lists_empty
    transactions := lists_empty }

def withdrawnEngine : Engine :=
  run (applyMetadataRecord plain) (plain.fresh {(['t'], 0)}) retentionWithdrawn

theorem withdrawnIteration_of : (oneTopic withdrawnTopic [] []).Of withdrawnEngine := by
  refine oneTopic_of {(['t'], 0)} ?_ lists_empty lists_empty
  have hregistry : withdrawnEngine.topicRegistry =
      (∅ : Table Text TopicConfig).insert ['t'] withdrawnTopic := by
    show (((∅ : Table Text TopicConfig).insert ['t'] _).insert ['t'] _).insert ['t'] _ = _
    rw [insert_insert, insert_insert]
    rfl
  rw [← hregistry]
  rfl

theorem storable_of_mem_withdrawn (h : record ∈ retentionWithdrawn) : record.Storable := by
  rw [retentionWithdrawn, mem_cons, mem_cons, mem_singleton] at h
  rcases h with rfl | rfl | rfl
  · exact storable_of_fits (show Short ['t'] by decide) rfl
  · exact ⟨⟨by decide, by decide, by decide⟩, by decide⟩
  · exact ⟨⟨by decide, by decide, by decide⟩, by decide⟩

/-- The retention that was withdrawn is in force before the snapshot and not after it. -/
theorem not_snapshotEquivalent_withdrawn : (∀ record ∈ retentionWithdrawn, Committed record) ∧
      (oneTopic withdrawnTopic [] []).Of withdrawnEngine ∧
      ¬ SnapshotEquivalent plain {(['t'], 0)} retentionWithdrawn []
        (oneTopic withdrawnTopic [] []) 0 := by
  refine ⟨fun record hrecord => committed_of_storable (storable_of_mem_withdrawn hrecord),
    withdrawnIteration_of, fun hreplay => ?_⟩
  have hbuild : withdrawnEngine.buildMetadataSnapshotRecords (oneTopic withdrawnTopic [] []) =
      [.brokerRegister 1 ['a'] [1, 2], .topicCreated ['t'] 1 1] := rfl
  have hstorable : ∀ record ∈ withdrawnEngine.buildMetadataSnapshotRecords
      (oneTopic withdrawnTopic [] []), record.Storable := by
    intro record hrecord
    rw [hbuild, mem_cons, mem_singleton] at hrecord
    rcases hrecord with rfl | rfl
    · exact storable_of_fits ⟨by decide, by decide⟩ rfl
    · exact storable_of_fits (show Short ['t'] by decide) rfl
  have hread := readMetadataSnapshot_write hstorable (by rw [hbuild]; decide) 0
  rw [withdrawnEngine] at hread
  rw [SnapshotEquivalent, replayMetadataLog, hread] at hreplay
  have hretention := congrArg (fun s : Engine => (s.partitions.lookup (['t'], 0)).map
    (·.settings.retentionMillis)) (Except.ok.inj hreplay)
  cases hretention

/-- A topic is created, its partition assigned and its retention set. -/
def retentionSet : List MetadataRecord :=
  [.topicCreated ['t'] 1 1, .partitionLeadershipChange ['t'] 0 1 0 [1] (some [1]),
    .topicConfigChanged ['t'] [(ConfigKey.retentionMs.name, ['5'])]]

theorem storable_of_mem_retentionSet (h : record ∈ retentionSet) : record.Storable := by
  rw [retentionSet, mem_cons, mem_cons, mem_singleton] at h
  rcases h with rfl | rfl | rfl
  · exact storable_of_fits (show Short ['t'] by decide) rfl
  · exact storable_of_fits ⟨by decide, by decide, by decide⟩ rfl
  · exact ⟨⟨by decide, by decide, by decide⟩, by decide⟩

theorem guarded_retentionSet : Guarded (applyMetadataRecord plain) (Restorable plain ∅)
      (plain.fresh ∅) retentionSet := by
  refine ⟨rfl, ⟨⟨_, rfl, fun _ => .inr ⟨by decide, rfl⟩⟩, by decide, by decide⟩, ⟨.inl rfl, ?_⟩,
    trivial⟩
  intro partition pm hpm
  -- The one partition that is open has not been configured yet.
  change ((((plain.fresh ∅).partitions.insert (['t'], 0) _).insert (['t'], 0)
    { assignment := { leaderId := 1, leaderEpoch := 0, replicas := [1], isr := [1] }
      settings := plain.defaultSettings }).lookup (['t'], partition)) = some pm at hpm
  rw [insert_insert, lookup_insert] at hpm
  split at hpm
  · rw [← some.inj hpm]
  · cases hpm

def assignedTopic : TopicConfig :=
  { withdrawnTopic with
    partitions := (∅ : Table UInt32 PartitionAssignment).insert 0 ⟨1, 0, [1], [1]⟩ }

/-- The snapshot is taken before the retention is set. -/
theorem snapshotEquivalent_retentionSet :
    SnapshotEquivalent plain ∅ (retentionSet.take 2) (retentionSet.drop 2)
      (oneTopic assignedTopic [(0, ⟨1, 0, [1], [1]⟩)] []) 0 := by
  refine snapshotEquivalent_of_restorable plain ∅ retentionSet
    (fun _ hrecord => committed_of_storable (storable_of_mem_retentionSet hrecord))
    guarded_retentionSet _ _ (take_append_drop _ _).symm _ ?_ (by decide) 0
  refine oneTopic_of ∅ ?_ (lists_empty.insert rfl _) lists_empty
  have hregistry : (run (applyMetadataRecord plain) (plain.fresh ∅)
      (retentionSet.take 2)).topicRegistry =
        (∅ : Table Text TopicConfig).insert ['t'] assignedTopic := by
    show ((∅ : Table Text TopicConfig).insert ['t'] _).insert ['t'] _ = _
    rw [insert_insert]
    rfl
  rw [← hregistry]
  rfl

end Bifrox.Metadata

/-
Who leads a partition (`run_isr_and_failover_sweep_once`, `propose_isr_update` and
`propose_partition_failover` in `src/server/engine.rs`).

A proposal has the leader and the epoch that the proposer has read from its own open partition,
at one moment, and is applied without a look at the epoch that it replaces.
-/
import Mathlib.Data.List.Sort
import Bifrox.Lib.Journal
import Bifrox.Metadata.Equivalence

namespace Bifrox.Replication

open Function Option Journal.State List
open Journal (Proposal Legal Fresh)
open Metadata (Broker Engine MetadataRecord OpenPartition PartitionAssignment)
open Run (run Guarded)
open Server (isSystemTopic)

/-! ## Leaderships -/

structure Leadership where
  leaderId : UInt32
  leaderEpoch : UInt32

def Leadership.of (pm : OpenPartition) : Leadership where
  leaderId := pm.assignment.leaderId
  leaderEpoch := pm.assignment.leaderEpoch

instance : PartialOrder Leadership where
  le a b := a.leaderEpoch < b.leaderEpoch ∨ a = b
  le_refl _ := .inr rfl
  le_trans a b c hab hbc := by
    rcases hab with hab | rfl
    · rcases hbc with hbc | rfl
      · exact .inl (UInt32.lt_trans hab hbc)
      · exact .inl hab
    · exact hbc
  le_antisymm a b hab hba := by
    rcases hab with hab | rfl
    · rcases hba with hba | rfl
      · exact absurd hba (UInt32.lt_asymm hab)
      · rfl
    · rfl

theorem Leadership.epoch_of_le {a b : Leadership} (h : a ≤ b) :
    a.leaderEpoch ≤ b.leaderEpoch ∧ (a.leaderEpoch = b.leaderEpoch → a.leaderId = b.leaderId) := by
  rcases h with h | rfl
  · exact ⟨UInt32.le_of_lt h, fun heq => absurd (heq ▸ h) (UInt32.lt_irrefl _)⟩
  · exact ⟨UInt32.le_refl _, fun _ => rfl⟩

/-! ## The sweep -/

structure SweepConfig where
  replicaLagMaxMs : Nat
  brokerDownThresholdMs : Nat
  allowUncleanLeaderElection : Bool

/-- What a broker has heard of the others by the time of a sweep. -/
structure Observation where
  replicaAckAge : Text × UInt32 → Text → Option Nat
  brokerLastSeenAge : UInt32 → Option Nat
  isLeader : Bool

inductive ProposeError where
  | notPartitionLeader
  | notController

def sortNodes (nodes : List UInt32) : List UInt32 := nodes.insertionSort (· ≤ ·)

section Sweep

variable (broker : Broker) (config : SweepConfig) (seen : Observation) (s : Engine) (topic : Text)
  (partition : UInt32)

def resolvePartitionLeader : Option UInt32 :=
  match s.partitions.lookup (topic, partition) with
  | some pm => some pm.assignment.leaderId
  | none => ((s.topicRegistry.lookup topic).bind (·.partitions.lookup partition)).map (·.leaderId)

def isPartitionLeader : Bool :=
  match resolvePartitionLeader s topic partition with
  | some leaderId => leaderId = broker.nodeId
  | none => isSystemTopic topic || seen.isLeader

def proposeIsrUpdate (leaderId leaderEpoch : UInt32) (isr : List UInt32) :
    Except ProposeError MetadataRecord :=
  if isPartitionLeader broker seen s topic partition then
    .ok (.partitionLeadershipChange topic partition leaderId leaderEpoch isr none)
  else .error .notPartitionLeader

def proposePartitionFailover (newLeaderId newLeaderEpoch : UInt32) (isr : List UInt32) :
    Except ProposeError MetadataRecord :=
  if seen.isLeader then
    .ok (.partitionLeadershipChange topic partition newLeaderId newLeaderEpoch isr none)
  else .error .notController

def inSync (replica : UInt32) : Bool :=
  replica = broker.nodeId ||
    ((s.brokerAddrs.lookup replica).bind (seen.replicaAckAge (topic, partition))).any
      (· ≤ config.replicaLagMaxMs)

def newIsr (replicas : List UInt32) : List UInt32 :=
  sortNodes (replicas.filter (inSync broker config seen s topic partition))

def isDead (leaderId : UInt32) : Bool :=
  (seen.brokerLastSeenAge leaderId).any (config.brokerDownThresholdMs ≤ ·)

variable (assignment : PartitionAssignment)

def chooseLeader : Option (UInt32 × List UInt32) :=
  match sortNodes ((sortNodes assignment.isr).filter (· ≠ assignment.leaderId)) with
  | id :: rest => some (id, id :: rest)
  | [] =>
    if config.allowUncleanLeaderElection then
      ((assignment.replicas.filter (· ≠ assignment.leaderId)).min?).map fun id => (id, [id])
    else none

def sweepIsr : Option MetadataRecord :=
  let isr := newIsr broker config seen s topic partition assignment.replicas
  if assignment.leaderId = broker.nodeId ∧ assignment.replicas.length > 1 ∧
      isr ≠ [] ∧ isr ≠ sortNodes assignment.isr then
    (proposeIsrUpdate broker seen s topic partition assignment.leaderId assignment.leaderEpoch
      isr).toOption
  else none

/-- Failover.  The epoch wraps around. -/
def sweepFailover : Option MetadataRecord :=
  if seen.isLeader ∧ assignment.leaderId ≠ broker.nodeId ∧
      isDead config seen assignment.leaderId then
    (chooseLeader config assignment).bind fun choice =>
      (proposePartitionFailover seen topic partition choice.1 (assignment.leaderEpoch + 1)
        choice.2).toOption
  else none

def sweepPartition : Option MetadataRecord :=
  match s.getOrCreatePartition broker topic partition with
  | .error _ => none
  | .ok _ =>
    (s.partitions.lookup (topic, partition)).bind fun pm =>
      (sweepIsr broker config seen s topic partition pm.assignment).or
        (sweepFailover broker config seen topic partition pm.assignment)

end Sweep

/-- A change of the leadership that a broker may propose for a partition of its own. -/
inductive Proposes (nodeId : UInt32) (pm : OpenPartition) : Leadership → Prop where
  | isr (leads : pm.assignment.leaderId = nodeId) (replicated : 1 < pm.assignment.replicas.length) :
    Proposes nodeId pm (.of pm)
  | failover (newLeaderId : UInt32) (other : pm.assignment.leaderId ≠ nodeId) :
    Proposes nodeId pm ⟨newLeaderId, pm.assignment.leaderEpoch + 1⟩

section Spec

variable {broker : Broker} {config : SweepConfig} {seen : Observation} {s : Engine} {topic : Text}
  {partition : UInt32} {record : MetadataRecord}

variable {assignment : PartitionAssignment} {choice : UInt32 × List UInt32}

theorem chooseLeader_ne_nil (h : chooseLeader config assignment = some choice) : choice.2 ≠ [] := by
  rw [chooseLeader] at h
  split at h
  · rw [← Option.some.inj h]
    exact cons_ne_nil _ _
  · split at h
    · obtain ⟨id, -, rfl⟩ := map_eq_some_iff.mp h
      exact cons_ne_nil _ _
    · cases h

theorem chooseLeader_mem (hclean : config.allowUncleanLeaderElection = false)
    (h : chooseLeader config assignment = some choice) : choice.1 ∈ assignment.isr := by
  rw [chooseLeader] at h
  split at h
  · next id rest hsorted =>
    rw [← Option.some.inj h]
    have hid : id ∈ sortNodes ((sortNodes assignment.isr).filter (· ≠ assignment.leaderId)) := by
      rw [hsorted]
      exact mem_cons_self
    rw [sortNodes, mem_insertionSort] at hid
    have hmem := mem_of_mem_filter hid
    rwa [sortNodes, mem_insertionSort] at hmem
  · rw [hclean, if_neg Bool.false_ne_true] at h
    cases h

theorem sweepPartition_spec
    (h : sweepPartition broker config seen s topic partition = some record) :
    ∃ pm leadership isr, s.partitions.lookup (topic, partition) = some pm ∧
      Proposes broker.nodeId pm leadership ∧ isr ≠ [] ∧
      record = .partitionLeadershipChange topic partition leadership.leaderId
        leadership.leaderEpoch isr none := by
  rw [sweepPartition] at h
  split at h
  · cases h
  · obtain ⟨pm, hpm, hpropose⟩ := bind_eq_some_iff.mp h
    rcases or_eq_some_iff.mp hpropose with hisr | ⟨-, hfailover⟩
    · rw [sweepIsr] at hisr
      split at hisr
      · next hcond =>
        rw [proposeIsrUpdate] at hisr
        split at hisr
        · exact ⟨pm, .of pm, _, hpm, .isr hcond.1 hcond.2.1, hcond.2.2.1,
            (Option.some.inj hisr).symm⟩
        · cases hisr
      · cases hisr
    · rw [sweepFailover] at hfailover
      split at hfailover
      · next hcond =>
        obtain ⟨choice, hchoice, hpropose⟩ := bind_eq_some_iff.mp hfailover
        rw [proposePartitionFailover, if_pos hcond.1] at hpropose
        exact ⟨pm, _, _, hpm, .failover choice.1 hcond.2.1, chooseLeader_ne_nil hchoice,
          (Option.some.inj hpropose).symm⟩
      · cases hfailover

end Spec

/-! ## Brokers -/

def leadership (s : Engine) (key : Text × UInt32) : Option Leadership :=
  (s.partitions.lookup key).map .of

/-- Brokers that agree on the partitions that were assigned.  Any other partition that one of
them has open is led by itself and has no other replica. -/
structure Brokers where
  broker : UInt32 → Broker
  config : UInt32 → SweepConfig
  engine : UInt32 → Engine
  assigned : Set (Text × UInt32)
  placement : Text × UInt32 → Leadership
  nodeId_broker : ∀ node, (broker node).nodeId = node
  isOpenable : ∀ node, ∀ key ∈ assigned, (broker node).isOpenable key = true
  placed : ∀ node, ∀ key ∈ assigned, leadership (engine node) key = some (placement key)
  own : ∀ node, ∀ key ∉ assigned, ∀ pm, (engine node).partitions.lookup key = some pm →
    pm.assignment.leaderId = node ∧ pm.assignment.replicas.length ≤ 1

structure Sweep where
  topic : Text
  partition : UInt32
  seen : Observation

def Sweep.key (sweep : Sweep) : Text × UInt32 := (sweep.topic, sweep.partition)

namespace Brokers

variable (c : Brokers)

def view (node : UInt32) (log : List MetadataRecord) : Engine :=
  run (Engine.applyMetadataRecord (c.broker node)) (c.engine node) log

def offer (node : UInt32) (sweep : Sweep) (log : List MetadataRecord) : Option MetadataRecord :=
  sweepPartition (c.broker node) (c.config node) sweep.seen (c.view node log) sweep.topic
    sweep.partition

variable (log : List MetadataRecord)

/-- Applying a log in order never lowers an epoch, and an epoch has one leader. -/
def NeverRegresses : Prop :=
  ∀ node key i j a b, i ≤ j → leadership (c.view node (log.take i)) key = some a →
    leadership (c.view node (log.take j)) key = some b →
      a.leaderEpoch ≤ b.leaderEpoch ∧ (a.leaderEpoch = b.leaderEpoch → a.leaderId = b.leaderId)

/-- A record is committed only if its proposer would propose it after the whole log, and the
epoch of its partition is not the last one. -/
def Current (proposal : Proposal UInt32 Sweep MetadataRecord) : Prop :=
  Fresh c.offer log proposal ∧ ∀ known ∈ leadership (c.view proposal.node log) proposal.input.key,
      known.leaderEpoch.toNat + 1 < 2 ^ 32

/-! ### Placements -/

def placementAfter : Text × UInt32 → Leadership :=
  log.foldl (fun placement record =>
    match record with
    | .partitionLeadershipChange topic partition leaderId leaderEpoch _ _ =>
      update placement (topic, partition) ⟨leaderId, leaderEpoch⟩
    | _ => placement) c.placement

/-- Every broker that applies the log comes to the same leaderships. -/
structure Agrees (log : List MetadataRecord) : Prop where
  assigned : ∀ node, ∀ key ∈ c.assigned,
    leadership (c.view node log) key = some (c.placementAfter log key)
  own : ∀ node, ∀ key ∉ c.assigned,
    (c.view node log).partitions.lookup key = (c.engine node).partitions.lookup key

variable {c}

theorem placementAfter_snoc (topic : Text) (partition : UInt32)
    (l : Leadership) (isr : List UInt32) (replicas : Option (List UInt32)) :
    c.placementAfter (log ++ [.partitionLeadershipChange topic partition l.leaderId l.leaderEpoch
      isr replicas]) = update (c.placementAfter log) (topic, partition) l := by
  rw [placementAfter, foldl_append]
  rfl

variable {log : List MetadataRecord} {partition : UInt32}

theorem Agrees.partitions_snoc (h : c.Agrees log) (node : UInt32) {topic : Text}
    (hkey : (topic, partition) ∈ c.assigned) (l : Leadership) (isr : List UInt32) :
    ∃ pm, .of pm = l ∧ (c.view node (log ++ [.partitionLeadershipChange topic partition l.leaderId
      l.leaderEpoch isr none])).partitions =
        (c.view node log).partitions.insert (topic, partition) pm := by
  obtain ⟨pm, hpm, -⟩ := map_eq_some_iff.mp (h.assigned node _ hkey)
  rw [view, Run.run_append]
  exact ⟨_, rfl, Engine.partitions_changeLeadership_of_open _ (c.isOpenable node _ hkey) hpm⟩

theorem Agrees.snoc {log : List MetadataRecord} (h : c.Agrees log) {topic : Text}
    (hkey : (topic, partition) ∈ c.assigned) (l : Leadership) (isr : List UInt32) :
    c.Agrees (log ++ [.partitionLeadershipChange topic partition l.leaderId l.leaderEpoch isr
      none]) where
  assigned node key hassigned := by
    obtain ⟨pm, hpm, hpartitions⟩ := h.partitions_snoc node hkey l isr
    rw [leadership, hpartitions, placementAfter_snoc]
    by_cases heq : key = (topic, partition)
    · rw [heq, Table.lookup_insert_self, update_self, map_some, hpm]
    · rw [Table.lookup_insert_of_ne _ heq, update_of_ne heq]
      exact h.assigned node key hassigned
  own node key hother := by
    obtain ⟨pm, -, hpartitions⟩ := h.partitions_snoc node hkey l isr
    have heq : key ≠ (topic, partition) := fun heq => hother (heq ▸ hkey)
    rw [hpartitions, Table.lookup_insert_of_ne _ heq]
    exact h.own node key hother

/-- A record that is offered is about an assigned partition, and its leadership is one that
may follow the partition's own. -/
theorem Agrees.offer_spec (h : c.Agrees log) {node : UInt32} {sweep : Sweep}
    {record : MetadataRecord} (hoffer : c.offer node sweep log = some record) :
    sweep.key ∈ c.assigned ∧ ∃ l isr,
      record = .partitionLeadershipChange sweep.topic sweep.partition l.leaderId l.leaderEpoch isr
        none ∧
      (l = c.placementAfter log sweep.key ∨
        l.leaderEpoch = (c.placementAfter log sweep.key).leaderEpoch + 1) := by
  obtain ⟨pm, l, isr, hpm, hproposes, -, hrecord⟩ := sweepPartition_spec hoffer
  rw [c.nodeId_broker] at hproposes
  have hassigned : sweep.key ∈ c.assigned := by
    by_contra hother
    obtain ⟨hleads, halone⟩ := c.own node _ hother pm ((h.own node _ hother).symm.trans hpm)
    cases hproposes with
    | isr _ hreplicated => exact Nat.not_lt.mpr halone hreplicated
    | failover _ hnot => exact hnot hleads
  have hknown : Leadership.of pm = c.placementAfter log sweep.key := by
    have hview := h.assigned node _ hassigned
    rw [leadership, Sweep.key, hpm] at hview
    exact Option.some.inj hview
  refine ⟨hassigned, l, isr, hrecord, ?_⟩
  rw [← hknown]
  cases hproposes with
  | isr => exact .inl rfl
  | failover => exact .inr rfl

theorem agrees_of_legal (h : Legal c.Current log) : c.Agrees log := by
  induction h with
  | nil => exact ⟨c.placed, fun _ _ _ => rfl⟩
  | snoc proposal _ hcurrent ih =>
    obtain ⟨hassigned, l, isr, hrecord, -⟩ := ih.offer_spec hcurrent.1
    rw [hrecord]
    exact ih.snoc hassigned l isr

/-! ### Leadership only grows -/

theorem lt_of_eq_add_one {epoch epoch' : UInt32} (h : epoch' = epoch + 1)
    (hroom : epoch.toNat + 1 < 2 ^ 32) : epoch < epoch' := by
  rw [h, UInt32.lt_iff_toNat_lt, UInt32.toNat_add, UInt32.toNat_one, Nat.mod_eq_of_lt hroom]
  exact Nat.lt_succ_self _

/-- A record that is committed while it is current does not lower any leadership. -/
theorem placementAfter_le_snoc (h : c.Agrees log) {proposal : Proposal UInt32 Sweep MetadataRecord}
    (hcurrent : c.Current log proposal) (key : Text × UInt32) :
    c.placementAfter log key ≤ c.placementAfter (log ++ [proposal.record]) key := by
  obtain ⟨hassigned, l, isr, hrecord, hnext⟩ := h.offer_spec hcurrent.1
  rw [hrecord, placementAfter_snoc]
  by_cases hkey : key = (proposal.input.topic, proposal.input.partition)
  · rw [hkey, update_self]
    rcases hnext with hsame | hepoch
    · exact hsame.ge
    · exact .inl (lt_of_eq_add_one hepoch (hcurrent.2 _ (h.assigned proposal.node _ hassigned)))
  · rw [update_of_ne hkey]

theorem monotone_placementAfter (h : Legal c.Current log) (key : Text × UInt32) :
    Monotone fun i => c.placementAfter (log.take i) key := by
  refine monotone_nat_of_le_succ fun i => ?_
  by_cases hi : i < log.length
  · obtain ⟨proposal, hcurrent, htake⟩ := h.exists_take_succ hi
    show c.placementAfter (log.take i) key ≤ c.placementAfter (log.take (i + 1)) key
    rw [htake]
    exact placementAfter_le_snoc (agrees_of_legal (h.take i)) hcurrent key
  · show c.placementAfter (log.take i) key ≤ c.placementAfter (log.take (i + 1)) key
    rw [take_of_length_le (by omega), take_of_length_le (by omega)]

theorem neverRegresses_of_legal (h : Legal c.Current log) : c.NeverRegresses log := by
  intro node key i j a b hij ha hb
  refine Leadership.epoch_of_le ?_
  by_cases hkey : key ∈ c.assigned
  · rw [(agrees_of_legal (h.take i)).assigned node key hkey] at ha
    rw [(agrees_of_legal (h.take j)).assigned node key hkey] at hb
    rw [← Option.some.inj ha, ← Option.some.inj hb]
    exact monotone_placementAfter h key hij
  · rw [leadership, (agrees_of_legal (h.take i)).own node key hkey] at ha
    rw [leadership, (agrees_of_legal (h.take j)).own node key hkey] at hb
    exact (Option.some.inj (ha.symm.trans hb)).le

/-- In every run in which only current records are committed, no partition's leadership
regresses. -/
theorem neverRegresses_of_current (c : Brokers) (moves : List (Journal.Move UInt32 Sweep))
    (h : Guarded (Journal.step c.offer) (Journal.Commits c.Current) start moves) :
    c.NeverRegresses (run (Journal.step c.offer) start moves).log :=
  neverRegresses_of_legal (Journal.legal_run .nil h)

/-! ### A race between the leader and the controller

Brokers 1 and 2 have a replica of one partition, and 1 leads it.  Broker 3 is the controller. -/

def racedPartition : OpenPartition where
  assignment := { leaderId := 1, leaderEpoch := 0, replicas := [1, 2], isr := [1, 2] }
  settings := Broker.plain.defaultSettings

def raced : Brokers where
  broker node := { Broker.plain with nodeId := node }
  config _ :=
    { replicaLagMaxMs := 10
      brokerDownThresholdMs := 10
      allowUncleanLeaderElection := false }
  engine _ :=
    { Broker.plain.fresh ∅ with
      partitions := (∅ : Table (Text × UInt32) OpenPartition).insert (['t'], 0) racedPartition }
  assigned := {(['t'], 0)}
  placement _ := ⟨1, 0⟩
  nodeId_broker _ := rfl
  isOpenable _ key hkey := by
    rw [Set.mem_singleton_iff.mp hkey]
    rfl
  placed _ key hkey := by
    rw [Set.mem_singleton_iff.mp hkey]
    rfl
  own _ key hkey pm hpm := by
    rw [Table.lookup_insert_of_ne _ hkey] at hpm
    cases hpm

def unacknowledged : Sweep where
  topic := ['t']
  partition := 0
  seen :=
    { replicaAckAge := fun _ _ => none
      brokerLastSeenAge := fun _ => none
      isLeader := false }

def silentLeader : Sweep where
  topic := ['t']
  partition := 0
  seen :=
    { replicaAckAge := fun _ _ => none
      brokerLastSeenAge := fun node => if node = 1 then some 20 else none
      isLeader := true }

theorem neverRegresses_failover : raced.NeverRegresses (run (Journal.step raced.offer) start
      [.propose 3 silentLeader, .commit 0]).log := by
  refine neverRegresses_of_current raced _ ⟨trivial, ?_, trivial⟩
  intro proposal hproposal
  obtain rfl := Option.some.inj hproposal
  refine ⟨rfl, ?_⟩
  intro known hknown
  obtain rfl := Option.some.inj hknown
  decide

/-- The leader has decided on a smaller ISR before it applies the failover, and its record is
committed after it. -/
theorem not_neverRegresses_raced : ¬ raced.NeverRegresses (run (Journal.step raced.offer) start
      [.propose 3 silentLeader, .propose 1 unacknowledged, .commit 0, .commit 0]).log := by
  intro h
  have hepoch : (1 : UInt32) ≤ 0 := (h 3 (['t'], 0) 1 2 ⟨2, 1⟩ ⟨1, 0⟩ (by decide) rfl rfl).1
  cases hepoch

end Brokers

end Bifrox.Replication

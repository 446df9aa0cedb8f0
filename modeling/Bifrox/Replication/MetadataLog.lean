/-
The replicated metadata log (`propose_metadata_unchecked`, `await_metadata_commit`,
`catch_up_follower_metadata` and `apply_committed_metadata` in `src/server/engine.rs`,
`handle_replication_push` in `src/server/handler.rs`, `append_batch_verbatim` in
`src/segment/manager.rs`).

A push, the check of its epoch, each append, the adoption of the watermark and the
acknowledgement are steps of their own, and every push that was sent may arrive any number of
times.  What `await_full_isr_ack` and the timeouts add is only delay, and is left out; so are
snapshots of the metadata.
-/
import Bifrox.Consensus.Fencing
import Bifrox.Lib.SharedLog
import Bifrox.Replication.Leadership

namespace Bifrox.Replication

open Function List
open Consensus (FencedCluster FencingEvent Quorum)
open Metadata (Broker Engine MetadataRecord)
open Run (run Guarded Always)
open SharedLog (Consistent Fragment)

/-! ## Nodes -/

/-- The nodes that keep the metadata log.  Only the controllers vote. -/
structure MetadataSetting where
  quorum : Quorum
  isLeader : Nat → Bool
  controllerPeers : Nat → List Nat
  broker : Nat → Broker
  config : Nat → SweepConfig
  engine : Nat → Engine
  mem_of_isLeader : ∀ i, isLeader i = true → i ∈ quorum.ids
  nodup_controllerPeers : ∀ i, (controllerPeers i).Nodup
  mem_controllerPeers : ∀ i j, j ∈ controllerPeers i ↔ j ∈ quorum.ids ∧ j ≠ i

structure MetadataEntry where
  record : MetadataRecord
  timestamp : Nat
deriving DecidableEq

/-- A push of a part of the sender's log.  One without entries only tells the watermark. -/
structure Push extends Fragment MetadataEntry where
  sender : Nat
  epoch : Nat
  leaderHw : Nat

structure MetadataProposal where
  node : Nat
  term : Nat
  offset : Nat
  entry : MetadataEntry

/-- A record that was reported as committed, with the latest epoch in which the proposer had
pushed by then. -/
structure Committed where
  node : Nat
  offset : Nat
  entry : MetadataEntry
  epoch : Nat
deriving DecidableEq

structure MetadataCluster where
  control : FencedCluster
  log : Nat → List MetadataEntry
  durable : Nat → Nat
  highWatermark : Nat → Nat
  applied : Nat → Nat
  replicaWatermark : Nat → Nat → Option Nat
  proposals : List MetadataProposal
  /-- Every push that was sent, those that a node is at work on, and those that were
  acknowledged. -/
  pushes : List Push
  accepted : List (Nat × Push)
  acks : List (Nat × Push)
  applications : List (Nat × Nat × MetadataRecord)
  committed : List Committed

inductive MetadataEvent where
  | control (event : FencingEvent)
  | register (i : Nat) (record : MetadataRecord) (timestamp : Nat)
  | propose (i : Nat) (record : MetadataRecord) (timestamp : Nat)
  | sweep (i : Nat) (topic : Text) (partition : UInt32) (seen : Observation) (timestamp : Nat)
  | sync (i : Nat)
  | sendPush (i : Nat) (offset count : Nat)
  | handlePush (i : Nat) (k : Nat)
  | appendEntry (k : Nat) (n : Nat)
  | adoptWatermark (k : Nat)
  | acknowledge (k : Nat)
  | receiveAck (k : Nat)
  | commit (k : Nat)
  | applyMetadata (i : Nat)
  | restart (i : Nat) (kept : Nat)

/-- The proposals that are given up when the controller's term has changed. -/
def isControllerProposal : MetadataRecord → Bool
  | .transactionState .. | .transactionalProducerRegistration .. => true
  | _ => false

namespace MetadataCluster

variable (p : MetadataSetting) (s : MetadataCluster)

def start : MetadataCluster where
  control := FencedCluster.start p.quorum p.isLeader
  log := fun _ => []
  durable := fun _ => 0
  highWatermark := fun _ => 0
  applied := fun _ => 0
  replicaWatermark := fun _ _ => none
  proposals := []
  pushes := []
  accepted := []
  acks := []
  applications := []
  committed := []

def leads (i : Nat) : Bool := (s.control.controller i).state = .leader

def engine (i : Nat) : Engine :=
  run (Engine.applyMetadataRecord (p.broker i)) (p.engine i)
    (((s.log i).take (s.applied i)).map MetadataEntry.record)

def sweepRecord (i : Nat) (topic : Text) (partition : UInt32) (seen : Observation) :
    Option MetadataRecord :=
  sweepPartition (p.broker i) (p.config i) { seen with isLeader := s.leads i } (s.engine p i) topic
    partition

/-- What may happen of the elections by itself.  A vote is asked for with the index of what the
candidate had applied when its election began. -/
def allows : FencingEvent → Bool
  | .sendPush _ | .handlePush .. => false
  | .sendVoteRequest i lastLogIndex => lastLogIndex ≤ s.applied i
  | .electionTimeout .. | .readTerm _ | .handleVoteRequest .. | .voteGranted _ | .voteMissing _
  | .tally _ | .beginHeartbeat _ | .sendHeartbeat _ | .handleHeartbeat .. | .staleAck ..
  | .store .. => true

def append (i : Nat) (entry : MetadataEntry) : MetadataCluster :=
  { s with log := update s.log i (s.log i ++ [entry]) }

def sync (i : Nat) : MetadataCluster :=
  { s with durable := update s.durable i (s.log i).length }

/-- `advance_committed_hw`: where the watermark moves, the log is synced before the checkpoint. -/
def advanceCommittedHw (i candidate : Nat) : MetadataCluster :=
  let candidate := min candidate (s.log i).length
  { s with
    durable :=
      if candidate ≤ s.highWatermark i then s.durable
      else update s.durable i (s.log i).length
    highWatermark := update s.highWatermark i (max (s.highWatermark i) candidate) }

def newApplications (i first : Nat) : List (Nat × Nat × MetadataRecord) :=
  ((((s.log i).take (s.highWatermark i)).drop first).zipIdx first).map fun e =>
    (i, e.2, e.1.record)

def applyCommitted (i : Nat) : MetadataCluster :=
  { s with
    applied := update s.applied i (max (s.applied i) (s.highWatermark i))
    applications := s.newApplications i (s.applied i) ++ s.applications }

def proposeUnchecked (i : Nat) (record : MetadataRecord) (timestamp : Nat) : MetadataCluster :=
  { s.append i ⟨record, timestamp⟩ with
    proposals := ⟨i, s.control.epoch i, (s.log i).length, ⟨record, timestamp⟩⟩ :: s.proposals }

/-- `await_metadata_commit`: the proposer counts itself. -/
def isAcked (i offset : Nat) : Bool :=
  ((p.controllerPeers i).length + 1) / 2 + 1 ≤
    1 + ((p.controllerPeers i).filter fun peer =>
      (s.replicaWatermark i peer).any (offset ≤ ·)).length

/-- The latest of an epoch and those of the pushes that a node has sent. -/
def latestEpoch (i epoch : Nat) : Nat :=
  s.pushes.foldr (fun push e => if push.sender = i then max push.epoch e else e) epoch

/-- The end of a proposal that a majority has acknowledged. -/
def commitProposal (proposal : MetadataProposal) : MetadataCluster :=
  let i := proposal.node
  let s' := (s.advanceCommittedHw i (proposal.offset + 1)).applyCommitted i
  { s' with
    committed :=
      ⟨i, proposal.offset, proposal.entry, s.latestEpoch i proposal.term⟩ :: s.committed }

def restartControl (i : Nat) : FencedCluster :=
  let control := s.control.elect p.quorum (.restart i)
  { control with
    epoch := update control.epoch i (control.controller i).currentTerm
    stores := control.stores.filter (·.1 ≠ i)
    beating := control.beating.filter (· ≠ i)
    staleAcks := control.staleAcks.filter (· ≠ i) }

/-- What a crash leaves of a node, before the replay of its log. -/
def crash (i kept : Nat) : MetadataCluster :=
  { s with
    control := s.restartControl p i
    log := update s.log i ((s.log i).take kept)
    durable := update s.durable i kept
    applied := update s.applied i 0
    replicaWatermark := update s.replicaWatermark i fun _ => none
    proposals := s.proposals.filter (·.node ≠ i)
    accepted := s.accepted.filter (·.1 ≠ i) }

def step (s : MetadataCluster) : MetadataEvent → MetadataCluster
  | .control event =>
    if s.allows event then { s with control := s.control.act p.quorum event } else s
  | .register i record timestamp =>
    if s.leads i then
      (s.append i ⟨record, timestamp⟩).advanceCommittedHw i ((s.log i).length + 1)
    else s
  | .propose i record timestamp =>
    if s.leads i then s.proposeUnchecked i record timestamp else s
  | .sweep i topic partition seen timestamp =>
    match s.sweepRecord p i topic partition seen with
    | some record => s.proposeUnchecked i record timestamp
    | none => s
  | .sync i => s.sync i
  | .sendPush i offset count =>
    { s with
      control := s.control.act p.quorum (.sendPush i)
      pushes :=
        { offset := offset
          entries := ((s.log i).drop offset).take count
          sender := i
          epoch := s.control.epoch i
          leaderHw := s.highWatermark i } :: s.pushes }
  | .handlePush i k =>
    match s.pushes[k]? with
    | some push =>
      { s with
        control := s.control.act p.quorum (.handlePush i (push.sender, push.epoch))
        accepted := if push.epoch < s.control.epoch i then s.accepted else (i, push) :: s.accepted }
    | none => s
  | .appendEntry k n =>
    match s.accepted[k]? with
    | some (i, push) =>
      match push.entries[n]? with
      -- an entry below the log end counts as applied, one above it is a gap
      | some entry => if push.offset + n = (s.log i).length then s.append i entry else s
      | none => s
    | none => s
  | .adoptWatermark k =>
    match s.accepted[k]? with
    | some (i, push) => s.advanceCommittedHw i push.leaderHw
    | none => s
  | .acknowledge k =>
    match s.accepted[k]? with
    | some (i, push) =>
      if push.stop ≤ (s.log i).length then
        { (s.sync i).applyCommitted i with acks := (i, push) :: s.acks }
      else s.sync i
    | none => s
  | .receiveAck k =>
    match s.acks[k]? with
    | some (i, push) =>
      if push.entries = [] then s
      else
        { s with
          replicaWatermark := update s.replicaWatermark push.sender
            (update (s.replicaWatermark push.sender) i (some (push.stop - 1))) }
    | none => s
  | .commit k =>
    match s.proposals[k]? with
    | some proposal =>
      -- the append was flushed before the push
      if proposal.offset < s.durable proposal.node ∧ s.isAcked p proposal.node proposal.offset then
        if isControllerProposal proposal.entry.record ∧
            ¬ (s.leads proposal.node ∧ s.control.epoch proposal.node = proposal.term) then
          { s with proposals := s.proposals.eraseIdx k }
        else { s.commitProposal proposal with proposals := s.proposals.eraseIdx k }
      else s
    | none => s
  | .applyMetadata i => s.applyCommitted i
  | .restart i kept =>
    if s.durable i ≤ kept ∧ kept ≤ (s.log i).length then (s.crash p i kept).applyCommitted i else s

/-! ### Specification -/

def Agree : Prop :=
  ∀ a ∈ s.applications, ∀ b ∈ s.applications, a.2.1 = b.2.1 → a.2.2 = b.2.2

def writer : MetadataEvent → Option Nat
  | .register i .. | .propose i .. => if s.leads i then some i else none
  | .sweep i topic partition seen _ => (s.sweepRecord p i topic partition seen).map fun _ => i
  | _ => none

/-- Neither a log nor a push reaches beyond the log of a node. -/
def Longest (i : Nat) : Prop :=
  (∀ j, (s.log j).length ≤ (s.log i).length) ∧ ∀ push ∈ s.pushes, push.stop ≤ (s.log i).length

/-- The condition: a new record is written past the end of all other logs. -/
def AppendsLast (event : MetadataEvent) : Prop := ∀ i ∈ s.writer p event, s.Longest i

/-! ### What every step keeps -/

structure Sound : Prop where
  consistent : Consistent s.log (s.pushes.map Push.toFragment)
  accepted : ∀ a ∈ s.accepted, a.2 ∈ s.pushes
  durable_le : ∀ i, s.durable i ≤ (s.log i).length
  highWatermark_le : ∀ i, s.highWatermark i ≤ s.durable i
  applied_le : ∀ i, s.applied i ≤ s.highWatermark i
  applications : ∀ a ∈ s.applications, a.2.1 < s.durable a.1 ∧
    (s.log a.1)[a.2.1]?.map MetadataEntry.record = some a.2.2

theorem sound_start : Sound (start p) where
  consistent := ⟨[], fun _ => prefix_refl _, nofun⟩
  accepted := nofun
  durable_le _ := Nat.le_refl _
  highWatermark_le _ := Nat.le_refl _
  applied_le _ := Nat.le_refl _
  applications := nofun

variable {p} {s}

/-- What is on disk is the same in both logs as far as both reach. -/
theorem Sound.agree (h : s.Sound) : s.Agree := by
  intro a ha b hb hoffset
  obtain ⟨-, hra⟩ := h.applications a ha
  obtain ⟨-, hrb⟩ := h.applications b hb
  obtain ⟨ea, hea, heqa⟩ := Option.map_eq_some_iff.mp hra
  obtain ⟨eb, heb, heqb⟩ := Option.map_eq_some_iff.mp hrb
  rw [hoffset] at hea
  rw [← heqa, ← heqb, h.consistent.agree hea heb]

theorem Sound.of_eq {s' : MetadataCluster} (h : s.Sound) (hlog : s'.log = s.log)
    (hdurable : s'.durable = s.durable) (hhw : s'.highWatermark = s.highWatermark)
    (happlied : s'.applied = s.applied) (happs : s'.applications = s.applications)
    (hpushes : s'.pushes = s.pushes) (haccepted : ∀ a ∈ s'.accepted, a.2 ∈ s'.pushes) :
    s'.Sound where
  consistent := by
    rw [hlog, hpushes]
    exact h.consistent
  accepted := haccepted
  durable_le := by
    rw [hlog, hdurable]
    exact h.durable_le
  highWatermark_le := by
    rw [hdurable, hhw]
    exact h.highWatermark_le
  applied_le := by
    rw [happlied, hhw]
    exact h.applied_le
  applications := by
    rw [hlog, hdurable, happs]
    exact h.applications

theorem prefix_append (s : MetadataCluster) (i : Nat) (entry : MetadataEntry) (j : Nat) :
    s.log j <+: (s.append i entry).log j := by
  show _ <+: update s.log i (s.log i ++ [entry]) j
  by_cases hj : j = i
  · subst hj
    rw [update_self]
    exact List.prefix_append _ _
  · rw [update_of_ne hj]

section

variable (h : s.Sound) {i : Nat}
include h

theorem Sound.append {entry : MetadataEntry}
    (hconsistent : Consistent (update s.log i (s.log i ++ [entry]))
      (s.pushes.map Push.toFragment)) : (s.append i entry).Sound where
  consistent := hconsistent
  accepted := h.accepted
  durable_le j := Nat.le_trans (h.durable_le j) (s.prefix_append i entry j).length_le
  highWatermark_le := h.highWatermark_le
  applied_le := h.applied_le
  applications a ha := by
    obtain ⟨hlt, hrecord⟩ := h.applications a ha
    obtain ⟨e, he, hrecord⟩ := Option.map_eq_some_iff.mp hrecord
    rw [SharedLog.getElem?_of_prefix (s.prefix_append i entry a.1) he]
    exact ⟨hlt, congrArg some hrecord⟩

theorem Sound.durable_le_sync (i : Nat) : ∀ j, s.durable j ≤ (s.sync i).durable j :=
  le_update_self_iff.mpr (h.durable_le i)

theorem Sound.sync (i : Nat) : (s.sync i).Sound := by
  have hle := h.durable_le_sync i
  exact
    { consistent := h.consistent
      accepted := h.accepted
      durable_le := update_le_iff.mpr ⟨Nat.le_refl _, fun j _ => h.durable_le j⟩
      highWatermark_le := fun j => Nat.le_trans (h.highWatermark_le j) (hle j)
      applied_le := h.applied_le
      applications := fun a ha =>
        ⟨Nat.lt_of_lt_of_le (h.applications a ha).1 (hle a.1), (h.applications a ha).2⟩ }

theorem Sound.durable_le_advanceCommittedHw (i candidate j : Nat) :
    s.durable j ≤ (s.advanceCommittedHw i candidate).durable j := by
  rw [MetadataCluster.advanceCommittedHw]
  dsimp only
  split
  · exact Nat.le_refl _
  · exact h.durable_le_sync i j

theorem Sound.advanceCommittedHw (i candidate : Nat) :
    (s.advanceCommittedHw i candidate).Sound := by
  have hhw := h.highWatermark_le i
  have happlied : ∀ j, s.applied j ≤ (s.advanceCommittedHw i candidate).highWatermark j :=
    fun j => Nat.le_trans (h.applied_le j) (le_update_self_iff.mpr (Nat.le_max_left _ _) j)
  rw [MetadataCluster.advanceCommittedHw] at happlied ⊢
  by_cases hcandidate : min candidate (s.log i).length ≤ s.highWatermark i
  · rw [if_pos hcandidate, Nat.max_eq_left hcandidate, update_eq_self] at happlied ⊢
    exact h
  · rw [if_neg hcandidate] at happlied ⊢
    have hsync := h.sync i
    have hle := h.durable_le i
    exact { hsync with
      highWatermark_le := update_le_update_iff.mpr ⟨by omega, fun j _ => h.highWatermark_le j⟩
      applied_le := happlied }

theorem Sound.applyCommitted (i : Nat) : (s.applyCommitted i).Sound :=
  { h with
    applied_le := update_le_iff.mpr
      ⟨Nat.max_le.mpr ⟨h.applied_le i, Nat.le_refl _⟩, fun j _ => h.applied_le j⟩
    applications := fun a ha => by
      rcases mem_append.mp ha with hnew | hold
      · obtain ⟨e, he, rfl⟩ := mem_map.mp hnew
        obtain ⟨hle, hget⟩ := mem_zipIdx_iff_le_and_getElem?_sub.mp he
        rw [List.getElem?_drop, Nat.add_sub_cancel' hle, List.getElem?_take] at hget
        split at hget
        · next hlt =>
          exact ⟨Nat.lt_of_lt_of_le hlt (h.highWatermark_le i),
            congrArg (Option.map MetadataEntry.record) hget⟩
        · cases hget
      · exact h.applications a hold }

theorem Sound.crash {i kept : Nat} (hdurable : s.durable i ≤ kept)
    (hkept : kept ≤ (s.log i).length) : (s.crash p i kept).Sound where
  consistent := by
    exact h.consistent.mono ((forall_update_iff s.log fun j log => log <+: s.log j).mpr
      ⟨ take_prefix _ _, fun _ _ => prefix_rfl⟩)
  accepted a ha := h.accepted a (mem_of_mem_filter ha)
  durable_le j := by
    show update s.durable i kept j ≤ (update s.log i _ j).length
    by_cases hj : j = i
    · subst hj
      rw [update_self, update_self, length_take]
      exact Nat.le_min.mpr ⟨Nat.le_refl _, hkept⟩
    · rw [update_of_ne hj, update_of_ne hj]
      exact h.durable_le j
  highWatermark_le j := Nat.le_trans (h.highWatermark_le j) (le_update_self_iff.mpr hdurable j)
  applied_le := update_le_iff.mpr ⟨Nat.zero_le _, fun j _ => h.applied_le j⟩
  applications a ha := by
    obtain ⟨hlt, hrecord⟩ := h.applications a ha
    refine ⟨Nat.lt_of_lt_of_le hlt (le_update_self_iff.mpr hdurable a.1), ?_⟩
    show (update s.log i _ a.1)[a.2.1]?.map _ = _
    by_cases hi : a.1 = i
    · rw [hi] at hrecord hlt ⊢
      rw [update_self, List.getElem?_take_of_lt (Nat.lt_of_lt_of_le hlt hdurable)]
      exact hrecord
    · rw [update_of_ne hi]
      exact hrecord

/-- A new record is written past the end of all other logs. -/
theorem Sound.append_of_longest (hlongest : s.Longest i)
    {entry : MetadataEntry} : (s.append i entry).Sound := by
  refine h.append (h.consistent.snoc entry hlongest.1 fun f hf => ?_)
  obtain ⟨push, hpush, rfl⟩ := mem_map.mp hf
  exact hlongest.2 push hpush

theorem Sound.proposeUnchecked (hlongest : s.Longest i)
    (record : MetadataRecord) (timestamp : Nat) :
    (s.proposeUnchecked i record timestamp).Sound :=
  { h.append_of_longest hlongest with }

theorem Sound.appendEntry (k n : Nat) : (s.step p (.appendEntry k n)).Sound := by
  rw [step]
  split
  · next i push hpush =>
    split
    · next entry hentry =>
      split
      · next hend =>
        have hmem := h.accepted _ (mem_of_getElem? hpush)
        exact h.append (h.consistent.copy (mem_map_of_mem hmem) hentry hend)
      · exact h
    · exact h
  · exact h

theorem Sound.handlePush (i k : Nat) : (s.step p (.handlePush i k)).Sound := by
  rw [step]
  split
  · next push hpush =>
    refine h.of_eq rfl rfl rfl rfl rfl rfl fun a ha => ?_
    dsimp only at ha
    split at ha
    · exact h.accepted a ha
    · rcases mem_cons.mp ha with rfl | ha
      · exact mem_of_getElem? hpush
      · exact h.accepted a ha
  · exact h

theorem Sound.step {event : MetadataEvent} (hlast : s.AppendsLast p event) :
    (s.step p event).Sound := by
  cases event with
  | control =>
    rw [MetadataCluster.step]
    split
    · exact h.of_eq rfl rfl rfl rfl rfl rfl h.accepted
    · exact h
  | register i =>
    rw [MetadataCluster.step]
    split
    · next hleads =>
      have hlongest := hlast i (by rw [writer, if_pos hleads]; rfl)
      exact (h.append_of_longest hlongest).advanceCommittedHw i _
    · exact h
  | propose i record timestamp =>
    rw [MetadataCluster.step]
    split
    · next hleads =>
      exact h.proposeUnchecked (hlast i (by rw [writer, if_pos hleads]; rfl)) record timestamp
    · exact h
  | sweep i topic partition seen timestamp =>
    rw [MetadataCluster.step]
    split
    · next record hrecord =>
      exact h.proposeUnchecked (hlast i (by rw [writer, hrecord]; rfl)) record timestamp
    · exact h
  | sync i => exact h.sync i
  | sendPush i offset count =>
    exact { h with
        consistent := h.consistent.slice i offset count
        accepted := fun a ha => mem_cons_of_mem _ (h.accepted a ha) }
  | handlePush i k => exact h.handlePush i k
  | appendEntry k n => exact h.appendEntry k n
  | adoptWatermark =>
    rw [MetadataCluster.step]
    split
    · next i push _ => exact h.advanceCommittedHw i push.leaderHw
    · exact h
  | acknowledge =>
    rw [MetadataCluster.step]
    split
    · next i push _ =>
      split
      · exact { (h.sync i).applyCommitted i with }
      · exact h.sync i
    · exact h
  | receiveAck =>
    rw [MetadataCluster.step]
    split
    · split
      · exact h
      · exact { h with }
    · exact h
  | commit =>
    rw [MetadataCluster.step]
    split
    · next proposal _ =>
      split
      · split
        · exact { h with }
        · exact { (h.advanceCommittedHw proposal.node _).applyCommitted proposal.node with }
      · exact h
    · exact h
  | applyMetadata i => exact h.applyCommitted i
  | restart i =>
    rw [MetadataCluster.step]
    split
    · next hkept => exact (h.crash hkept.1 hkept.2).applyCommitted i
    · exact h

end

/-- In every run in which every new record is written past the end of all other logs, no two
nodes ever apply different records at one offset. -/
theorem agree_of_appendsLast (p : MetadataSetting) (events : List MetadataEvent)
    (h : Guarded (MetadataCluster.step p) (AppendsLast p) (start p) events) :
    Always (MetadataCluster.step p) Agree (start p) events :=
  h.always (fun _ (hs : Sound _) => hs.agree) (fun _ _ (hs : Sound _) hlast => hs.step hlast)
    (sound_start p)

/-! ### Two proposers

Controller 1 leads, and makes broker 2 the leader of a partition.  When the third replica falls
behind, 2 proposes a smaller ISR while 1 proposes something else, both at offset 1. -/

def threeNodes : MetadataSetting where
  quorum := Consensus.Cluster.threeControllers
  isLeader i := i = 1
  controllerPeers i := [1, 2, 3].erase i
  broker i := { Broker.plain with nodeId := UInt32.ofNat i }
  config _ :=
    { replicaLagMaxMs := 10
      brokerDownThresholdMs := 10
      allowUncleanLeaderElection := false }
  engine _ := Broker.plain.fresh ∅
  mem_of_isLeader i h := by
    rw [of_decide_eq_true h]
    decide
  nodup_controllerPeers i := List.Nodup.erase i (by decide)
  mem_controllerPeers i j := by
    rw [List.Nodup.mem_erase_iff (by decide), and_comm]
    simp [Consensus.Cluster.threeControllers]

/-- Broker 2 is to lead a partition; the record goes to all nodes and is committed. -/
def assignment : List MetadataEvent :=
  [.propose 1 (.partitionLeadershipChange ['t'] 0 2 0 [2, 3] (some [2, 3])) 0, .sync 1,
    .sendPush 1 0 1, .handlePush 3 0, .appendEntry 0 0, .acknowledge 0, .receiveAck 0,
    .handlePush 2 0, .appendEntry 0 0, .acknowledge 0, .commit 0, .sendPush 1 0 0, .handlePush 2 0,
    .adoptWatermark 0, .acknowledge 0]

/-- Broker 2 has not heard of 3 and writes a smaller ISR; 1 writes a topic and commits it with
the acknowledgement of 3. -/
def conflict : List MetadataEvent :=
  [.sweep 2 ['t'] 0 ⟨fun _ _ => none, fun _ => none, false⟩ 1, .propose 1 (.topicDeleted ['u']) 2,
    .sync 1, .sendPush 1 1 1, .handlePush 3 0, .appendEntry 0 0, .acknowledge 0, .receiveAck 0,
    .commit 0, .sendPush 1 0 0, .handlePush 2 0, .adoptWatermark 0, .acknowledge 0]

theorem longest_start {i : Nat} : (start p).Longest i :=
  ⟨fun _ => Nat.le_refl _, nofun⟩

theorem agree_assignment : Always (step threeNodes) Agree (start threeNodes) assignment := by
  refine agree_of_appendsLast threeNodes assignment ⟨fun i _ => longest_start, ?_⟩
  exact ⟨nofun, nofun, nofun, nofun, nofun, nofun, nofun, nofun, nofun, nofun, nofun, nofun, nofun,
    nofun, trivial⟩

theorem not_agree_conflict :
    ¬ Always (step threeNodes) Agree (start threeNodes) (assignment ++ conflict) := by
  intro h
  have hsame := h.run (2, 1, .partitionLeadershipChange ['t'] 0 2 0 [2] none) (by decide +kernel)
    (1, 1, .topicDeleted ['u']) (by decide +kernel) rfl
  cases hsame

end MetadataCluster

end Bifrox.Replication

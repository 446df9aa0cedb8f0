/-
The in-sync replicas of a partition (`await_full_isr_ack` and the sweep in
`src/server/engine.rs`, `handle_replication_fetch` in `src/server/handler.rs`, the fetch loop in
`src/replication/mod.rs`).

The sweep looks at how long ago a replica has fetched, not at how far it has got.  Records are
single offsets.  A broker that knows of a replica knows its address.
-/
import Bifrox.Replication.Leadership

namespace Bifrox.Replication

open Function List
open Metadata (Broker Engine MetadataRecord OpenPartition PartitionAssignment)
open Run (Guarded Always)

variable {ρ : Type*}

/-! ## The partition -/

/-- A partition that was assigned to some of the brokers, with one ISR that all of them know. -/
structure Setting where
  brokers : Brokers
  topic : Text
  partition : UInt32
  isr : List UInt32
  peers : UInt32 → List UInt32
  minInsyncReplicas : Nat
  assigned : (topic, partition) ∈ brokers.assigned
  isr_ne_nil : isr ≠ []
  isr_engine : ∀ node pm, (brokers.engine node).partitions.lookup (topic, partition) = some pm →
    pm.assignment.isr = isr
  peers_ne_nil : ∀ node, peers node ≠ []
  one_lt_minInsyncReplicas : 1 < minInsyncReplicas

structure FetchRequest where
  follower : UInt32
  leader : UInt32
  fetchOffset : Nat

structure FetchResponse (ρ : Type*) where
  follower : UInt32
  fetchOffset : Nat
  entries : List ρ
  leaderWatermark : Nat

structure Replicas (ρ : Type*) where
  metadata : Journal.State UInt32 Sweep MetadataRecord
  log : UInt32 → List ρ
  durable : UInt32 → Nat
  highWatermark : UInt32 → Nat
  replicaWatermark : UInt32 → UInt32 → Option Nat
  /-- The brokers that wait to acknowledge a produce, with the log end after it. -/
  waiting : List (UInt32 × Nat)
  requests : List FetchRequest
  responses : List (FetchResponse ρ)
  /-- What was in the log up to each produce that was acknowledged. -/
  acknowledged : List (List ρ)

inductive ReplicaEvent (ρ : Type*) where
  | produce (node : UInt32) (records : List ρ)
  | acknowledge (node : UInt32) (logEnd : Nat)
  | sendFetch (node : UInt32)
  | serveFetch (i : Nat) (maxRecords : Nat)
  | receiveFetch (i : Nat)
  | sync (node : UInt32)
  /-- A sweep with the replicas that were heard of lately, the brokers that are silent, and
  whether the broker is the controller. -/
  | sweep (node : UInt32) (recent silent : UInt32 → Bool) (isLeader : Bool)
  | applyMetadata (node : UInt32)
  | commitMetadata (i : Nat)
  | crash (node : UInt32) (kept : Nat)

namespace Setting

variable (p : Setting)

def key : Text × UInt32 := (p.topic, p.partition)

def isrAfter (log : List MetadataRecord) : List UInt32 :=
  log.foldl (fun isr record =>
    match record with
    | .partitionLeadershipChange topic partition _ _ isr' _ =>
      if (topic, partition) = p.key then isr' else isr
    | _ => isr) p.isr

def leaderAfter (log : List MetadataRecord) : UInt32 :=
  (p.brokers.placementAfter log p.key).leaderId

end Setting

namespace Replicas

variable (p : Setting) (s : Replicas ρ)

def start : Replicas ρ where
  metadata := .start
  log := fun _ => []
  durable := fun _ => 0
  highWatermark := fun _ => 0
  replicaWatermark := fun _ _ => none
  waiting := []
  requests := []
  responses := []
  acknowledged := []

def isr : List UInt32 := p.isrAfter s.metadata.log

def leader : UInt32 := p.leaderAfter s.metadata.log

variable (node : UInt32)

def engine : Engine := p.brokers.view node (s.metadata.view node)

def assignment : Option PartitionAssignment :=
  ((s.engine p node).partitions.lookup p.key).map (·.assignment)

def leads : Bool := (s.assignment p node).any (·.leaderId = node)

/-- `advance_committed_hw`: the log is synced before the checkpoint. -/
def advanceCommittedHw (s : Replicas ρ) (node : UInt32) (candidate : Nat) : Replicas ρ :=
  let candidate := min candidate (s.log node).length
  if candidate ≤ s.highWatermark node then s
  else
    { s with
      durable := update s.durable node (s.log node).length
      highWatermark := update s.highWatermark node candidate }

/-- Whether a broker knows that a replica has everything up to a log end. -/
def hasAcked (node replica : UInt32) (logEnd : Nat) : Bool :=
  (s.replicaWatermark node replica).any (logEnd ≤ · + 1)

/-- `await_full_isr_ack`, at the moment it returns. -/
def isFullyAcked (logEnd : Nat) : Bool :=
  match ((s.assignment p node).map (·.isr)).getD [] with
  -- without an ISR the configured peers are counted
  | [] => p.minInsyncReplicas ≤
      1 + ((p.peers node).filter fun peer => s.hasAcked node peer logEnd).length
  | member :: members =>
    p.minInsyncReplicas ≤ (member :: members).length &&
      (member :: members).all fun replica => replica = node || s.hasAcked node replica logEnd

/-- Whether a produce may be acknowledged.  A broker that does not lead the partition, or has
no peers, does not wait. -/
def mayAcknowledge (logEnd : Nat) : Bool :=
  if s.leads p node ∧ p.peers node ≠ [] ∧ 1 < p.minInsyncReplicas then s.isFullyAcked p node logEnd
  else true

def observe (recent silent : UInt32 → Bool) (isLeader : Bool) : Observation where
  replicaAckAge _ addr :=
    if ((s.assignment p node).map (·.replicas)).getD [] |>.any fun replica =>
        ((s.engine p node).brokerAddrs.lookup replica = some addr) && recent replica &&
          (s.replicaWatermark node replica).isSome
    then some 0 else none
  brokerLastSeenAge broker :=
    if silent broker then some (p.brokers.config node).brokerDownThresholdMs else none
  isLeader

/-- Entries that the follower has already are skipped; a gap stops the append. -/
def appendEntries (log : List ρ) (fetchOffset : Nat) (entries : List ρ) : List ρ :=
  if fetchOffset ≤ log.length then log ++ entries.drop (log.length - fetchOffset) else log

def step (s : Replicas ρ) : ReplicaEvent ρ → Replicas ρ
  | .produce node records =>
    if s.leads p node then
      { s with
        log := update s.log node (s.log node ++ records)
        waiting := (node, (s.log node ++ records).length) :: s.waiting }
    else s
  | .acknowledge node logEnd =>
    if (node, logEnd) ∈ s.waiting ∧ s.mayAcknowledge p node logEnd then
      { s.advanceCommittedHw node logEnd with
        acknowledged := (s.log node).take logEnd :: s.acknowledged }
    else s
  | .sendFetch node =>
    match s.assignment p node with
    | some assignment =>
      if assignment.leaderId ≠ node ∧ node ∈ assignment.replicas then
        { s with
          durable := update s.durable node (s.log node).length
          requests := s.requests ++ [⟨node, assignment.leaderId, (s.log node).length⟩] }
      else s
    | none => s
  | .serveFetch i maxRecords =>
    match s.requests[i]? with
    | some request =>
      if s.leads p request.leader then
        { s with
          -- a fetch at an offset says that everything before it is on the follower's disk
          replicaWatermark :=
            if 0 < request.fetchOffset then
              update s.replicaWatermark request.leader
                (update (s.replicaWatermark request.leader) request.follower
                  (some (request.fetchOffset - 1)))
            else s.replicaWatermark
          responses := s.responses ++
            [{ follower := request.follower
               fetchOffset := request.fetchOffset
               entries := ((s.log request.leader).drop request.fetchOffset).take maxRecords
               leaderWatermark := s.highWatermark request.leader }] }
      else s
    | none => s
  | .receiveFetch i =>
    match s.responses[i]? with
    | some response =>
      { s with
        log := update s.log response.follower
          (appendEntries (s.log response.follower) response.fetchOffset response.entries)
        }.advanceCommittedHw response.follower response.leaderWatermark
    | none => s
  | .sync node => { s with durable := update s.durable node (s.log node).length }
  | .sweep node recent silent isLeader =>
    { s with
      metadata := Journal.step p.brokers.offer s.metadata
        (.propose node ⟨p.topic, p.partition, s.observe p node recent silent isLeader⟩) }
  | .applyMetadata node =>
    { s with metadata := Journal.step p.brokers.offer s.metadata (.apply node) }
  | .commitMetadata i =>
    { s with metadata := Journal.step p.brokers.offer s.metadata (.commit i) }
  | .crash node kept =>
    if s.durable node ≤ kept ∧ kept ≤ (s.log node).length then
      { s with
        log := update s.log node ((s.log node).take kept)
        durable := update s.durable node kept
        replicaWatermark := update s.replicaWatermark node fun _ => none
        waiting := s.waiting.filter fun wait => wait.1 ≠ node }
    else s

/-! ### Specification -/

def Undiverged : Prop := ∀ node, s.log node <+: s.log (s.leader p)

structure Safe : Prop where
  /-- The members of the ISR have everything up to the leader's high watermark. -/
  members : ∀ member ∈ s.isr p, s.highWatermark (s.leader p) ≤ (s.log member).length
  /-- They and the leader serve every acknowledged record. -/
  serves : ∀ records ∈ s.acknowledged,
    records <+: s.log (s.leader p) ∧ ∀ member ∈ s.isr p, records <+: s.log member
  /-- In particular the leader that a clean failover picks does. -/
  failover : ∀ config assignment choice, config.allowUncleanLeaderElection = false →
    assignment.isr = s.isr p → chooseLeader config assignment = some choice →
      ∀ records ∈ s.acknowledged, records <+: s.log choice.1

def isrOf : MetadataRecord → List UInt32
  | .partitionLeadershipChange _ _ _ _ isr _ => isr
  | _ => []

/-- The condition: a produce is acknowledged by a broker that leads the partition and knows its
ISR, and a replica that enters the ISR has everything that was committed. -/
def Clean : ReplicaEvent ρ → Prop
  | .acknowledge node _ => s.leader p = node ∧ ∃ assignment, s.assignment p node = some assignment ∧
      assignment.leaderId = node ∧ assignment.isr = s.isr p
  | .commitMetadata i => ∀ proposal ∈ s.metadata.pending[i]?, ∀ member ∈ isrOf proposal.record,
      member ∉ s.isr p → ∀ node, s.highWatermark node ≤ s.durable member
  | _ => True

/-! ### What every step keeps -/

def IsChange (record : MetadataRecord) : Prop :=
  ∃ leaderId leaderEpoch isr, isr ≠ [] ∧
    record = .partitionLeadershipChange p.topic p.partition leaderId leaderEpoch isr none

structure Sound : Prop where
  durable_le : ∀ node, s.durable node ≤ (s.log node).length
  highWatermark_le : ∀ node, s.highWatermark node ≤ s.durable node
  watermarks : ∀ node replica offset, s.replicaWatermark node replica = some offset →
    offset + 1 ≤ s.durable replica
  requests : ∀ request ∈ s.requests, request.fetchOffset ≤ s.durable request.follower
  responses : ∀ response ∈ s.responses, ∃ node, response.leaderWatermark ≤ s.highWatermark node
  pending : ∀ proposal ∈ s.metadata.pending, IsChange p proposal.record
  changes : ∀ record ∈ s.metadata.log, IsChange p record
  isr_ne_nil : s.isr p ≠ []
  synced : ∀ member ∈ s.isr p, ∀ node, s.highWatermark node ≤ s.durable member
  acknowledged : ∀ records ∈ s.acknowledged, (∃ node, records.length ≤ s.highWatermark node) ∧
    ∀ member ∈ s.isr p, records <+: s.log member

variable {p} {s}

theorem sound_start : Sound p (start : Replicas ρ) where
  durable_le _ := Nat.zero_le _
  highWatermark_le _ := Nat.le_refl _
  watermarks := nofun
  requests := nofun
  responses := nofun
  pending := nofun
  changes := nofun
  isr_ne_nil := p.isr_ne_nil
  synced _ _ _ := Nat.le_refl _
  acknowledged := nofun

theorem Sound.sync (h : Sound p s) (node : UInt32) :
    Sound p { s with durable := update s.durable node (s.log node).length } := by
  have hle := le_update_self_iff.mpr (h.durable_le node)
  exact { h with
      durable_le := update_le_iff.mpr ⟨Nat.le_refl _, fun n _ => h.durable_le n⟩
      highWatermark_le := fun n => Nat.le_trans (h.highWatermark_le n) (hle n)
      watermarks := fun n replica offset hw =>
        Nat.le_trans (h.watermarks n replica offset hw) (hle replica)
      requests := fun request hr => Nat.le_trans (h.requests request hr) (hle request.follower)
      synced := fun member hm n => Nat.le_trans (h.synced member hm n) (hle member) }

theorem Sound.extend (h : Sound p s) (node : UInt32) {log : List ρ} (hlog : s.log node <+: log) :
    Sound p { s with log := update s.log node log } := by
  have hgrows : ∀ n, s.log n <+: update s.log node log n :=
    (forall_update_iff s.log fun n log => s.log n <+: log).mpr ⟨hlog, fun _ _ => prefix_rfl⟩
  exact { h with
      durable_le := fun n => Nat.le_trans (h.durable_le n) (hgrows n).length_le
      acknowledged := fun records hr => ⟨(h.acknowledged records hr).1, fun member hm =>
        ((h.acknowledged records hr).2 member hm).trans (hgrows member)⟩ }

variable {node : UInt32}

/-- The high watermark moves to what all members of the ISR have on disk. -/
theorem Sound.advanceCommittedHw (h : Sound p s) {candidate : Nat}
    (hmembers : ∀ member ∈ s.isr p, member ≠ node →
      min candidate (s.log node).length ≤ s.durable member) :
    Sound p (s.advanceCommittedHw node candidate) := by
  rw [Replicas.advanceCommittedHw]
  split
  · exact h
  · next habove =>
    have hsync := h.sync node
    have hle := le_update_self_iff.mpr (Nat.le_of_not_le habove)
    exact { hsync with
        highWatermark_le := update_le_update_iff.mpr
          ⟨Nat.min_le_right _ _, fun n _ => h.highWatermark_le n⟩
        responses := fun response hr => by
          obtain ⟨n, hn⟩ := h.responses response hr
          exact ⟨n, Nat.le_trans hn (hle n)⟩
        synced := fun member hm n => by
          dsimp only
          by_cases hn : n = node
          · subst hn
            rw [update_self]
            by_cases hmember : member = n
            · subst hmember
              rw [update_self]
              exact Nat.min_le_right _ _
            · rw [update_of_ne hmember]
              exact hmembers member hm hmember
          · rw [update_of_ne hn]
            exact hsync.synced member hm n
        acknowledged := fun records hr => by
          obtain ⟨⟨n, hn⟩, hall⟩ := h.acknowledged records hr
          exact ⟨⟨n, Nat.le_trans hn (hle n)⟩, hall⟩ }

theorem advanceCommittedHw_frame {candidate : Nat} :
    let s' := s.advanceCommittedHw node candidate
    s'.log = s.log ∧ s'.metadata = s.metadata ∧ s'.acknowledged = s.acknowledged ∧
      min candidate (s.log node).length ≤ s'.highWatermark node := by
  rw [Replicas.advanceCommittedHw]
  split
  · next hle => exact ⟨rfl, rfl, rfl, hle⟩
  · refine ⟨rfl, rfl, rfl, ?_⟩
    dsimp only
    rw [update_self]

theorem Sound.sendFetch (h : Sound p s) (node : UInt32) : Sound p (s.step p (.sendFetch node)) := by
  rw [step]
  split
  · next assignment _ =>
    split
    · have hsync := h.sync node
      refine { hsync with requests := fun request hr => ?_ }
      rcases mem_append.mp hr with hr | hr
      · exact hsync.requests request hr
      · rw [mem_singleton.mp hr]
        dsimp only
        rw [update_self]
    · exact h
  · exact h

theorem Sound.serveFetch (h : Sound p s) (i maxRecords : Nat) :
    Sound p (s.step p (.serveFetch i maxRecords)) := by
  rw [step]
  split
  · next request hrequest =>
    split
    · have hoffset := h.requests request (mem_of_getElem? hrequest)
      refine { h with
        watermarks := fun n replica offset hw => ?_
        responses := fun response hr => ?_ }
      · dsimp only at hw
        split at hw
        · by_cases hn : n = request.leader
          · rw [hn, update_self] at hw
            by_cases hreplica : replica = request.follower
            · rw [hreplica, update_self] at hw
              cases hw
              rw [hreplica]
              show request.fetchOffset - 1 + 1 ≤ s.durable request.follower
              omega
            · rw [update_of_ne hreplica] at hw
              exact h.watermarks _ replica offset hw
          · rw [update_of_ne hn] at hw
            exact h.watermarks n replica offset hw
        · exact h.watermarks n replica offset hw
      · rcases mem_append.mp hr with hr | hr
        · exact h.responses response hr
        · rw [mem_singleton.mp hr]
          exact ⟨request.leader, Nat.le_refl _⟩
    · exact h
  · exact h

theorem prefix_appendEntries {log : List ρ} {fetchOffset : Nat} {entries : List ρ} :
    log <+: appendEntries log fetchOffset entries := by
  rw [appendEntries]
  split
  · exact prefix_append _ _
  · exact prefix_refl _

section

variable (h : Sound p s)
include h

theorem Sound.receiveFetch (i : Nat) : Sound p (s.step p (.receiveFetch i)) := by
  rw [step]
  split
  · next response hresponse =>
    obtain ⟨n, hn⟩ := h.responses response (mem_of_getElem? hresponse)
    refine (h.extend response.follower prefix_appendEntries).advanceCommittedHw ?_
    intro member hm _
    exact Nat.le_trans (Nat.min_le_left _ _) (Nat.le_trans hn (h.synced member hm n))
  · exact h

theorem Sound.crash (node : UInt32) (kept : Nat) : Sound p (s.step p (.crash node kept)) := by
  rw [step]
  split
  · next hkept =>
    have hle := le_update_self_iff.mpr hkept.1
    refine { h with
      durable_le := fun n => ?_
      highWatermark_le := fun n => Nat.le_trans (h.highWatermark_le n) (hle n)
      watermarks := fun n replica offset hw => ?_
      requests := fun request hr => Nat.le_trans (h.requests request hr) (hle request.follower)
      synced := fun member hm n => Nat.le_trans (h.synced member hm n) (hle member)
      acknowledged := fun records hr => ?_ }
    · dsimp only
      by_cases hn : n = node
      · subst hn
        rw [update_self, update_self, length_take]
        exact Nat.le_min.mpr ⟨Nat.le_refl _, hkept.2⟩
      · rw [update_of_ne hn, update_of_ne hn]
        exact h.durable_le n
    · dsimp only at hw
      by_cases hn : n = node
      · rw [hn, update_self] at hw
        cases hw
      · rw [update_of_ne hn] at hw
        exact Nat.le_trans (h.watermarks n replica offset hw) (hle replica)
    · obtain ⟨⟨n, hn⟩, hall⟩ := h.acknowledged records hr
      refine ⟨⟨n, hn⟩, fun member hm => ?_⟩
      dsimp only
      by_cases hmember : member = node
      · subst hmember
        rw [update_self, prefix_take_iff]
        -- what is acknowledged is on the disk of every member
        exact ⟨hall member hm, Nat.le_trans hn (Nat.le_trans (h.synced member hm n) hkept.1)⟩
      · rw [update_of_ne hmember]
        exact hall member hm
  · exact h

/-- A leader that knows the ISR acknowledges only what all members have on disk. -/
theorem Sound.acked_of_mayAcknowledge {logEnd : Nat}
    (hclean : Clean p s (.acknowledge node logEnd)) (hmay : s.mayAcknowledge p node logEnd = true) :
    ∀ member ∈ s.isr p, member ≠ node → logEnd ≤ s.durable member := by
  obtain ⟨-, assignment, hassignment, hleader, hisr⟩ := hclean
  have hleads : s.leads p node = true := by
    rw [leads, hassignment]
    exact decide_eq_true hleader
  rw [mayAcknowledge, if_pos ⟨hleads, p.peers_ne_nil node, p.one_lt_minInsyncReplicas⟩,
    isFullyAcked, hassignment] at hmay
  intro member hmember hne
  rw [← hisr] at hmember
  have hall : ∀ replica ∈ assignment.isr, (decide (replica = node) ||
      s.hasAcked node replica logEnd) = true := by
    cases hmembers : assignment.isr with
    | nil =>
      rw [hmembers] at hmember
      cases hmember
    | cons =>
      simp only [Option.map_some, Option.getD_some, hmembers, Bool.and_eq_true] at hmay
      exact all_eq_true.mp hmay.2
  have hacked : s.hasAcked node member logEnd = true := by
    simpa [hne] using hall member hmember
  rw [hasAcked] at hacked
  cases hoffset : s.replicaWatermark node member with
  | none =>
    rw [hoffset] at hacked
    cases hacked
  | some offset =>
    rw [hoffset] at hacked
    exact Nat.le_trans (of_decide_eq_true hacked) (h.watermarks node member offset hoffset)

theorem Sound.acknowledge (hagree : s.Undiverged p) {logEnd : Nat}
    (hclean : Clean p s (.acknowledge node logEnd)) :
    Sound p (s.step p (.acknowledge node logEnd)) := by
  rw [step]
  split
  · next hwaiting =>
    have hacked := h.acked_of_mayAcknowledge hclean hwaiting.2
    have hadvance := h.advanceCommittedHw fun member hm hne => Nat.le_trans (Nat.min_le_left _ _)
      (hacked member hm hne)
    obtain ⟨hlog, hmetadata, hold, hhw⟩ := advanceCommittedHw_frame
    refine { hadvance with acknowledged := fun records hr => ?_ }
    rcases mem_cons.mp hr with rfl | hr
    · refine ⟨⟨node, by rw [length_take]; exact hhw⟩, fun member hm => ?_⟩
      dsimp only
      rw [hlog]
      have hmember : member ∈ s.isr p := by
        rw [isr, ← hmetadata]
        exact hm
      by_cases hne : member = node
      · rw [hne]
        exact take_prefix _ _
      · have hlong := Nat.le_trans (hacked member hmember hne) (h.durable_le member)
        have hleader := hagree member
        rw [hclean.1] at hleader
        refine prefix_of_prefix_length_le ⟨_, take_append_drop _ _⟩ hleader ?_
        rw [length_take]
        exact Nat.le_trans (Nat.min_le_left _ _) hlong
    · rw [← hold] at hr
      exact hadvance.acknowledged records hr
  · exact h

theorem Sound.sweep (node : UInt32) (recent silent : UInt32 → Bool)
    (isLeader : Bool) : Sound p (s.step p (.sweep node recent silent isLeader)) := by
  rw [step, Journal.step]
  split
  · next record hoffer =>
    refine { h with pending := fun proposal hp => ?_ }
    rcases mem_append.mp hp with hp | hp
    · exact h.pending proposal hp
    · rw [mem_singleton.mp hp]
      obtain ⟨-, l, isr, -, -, hne, hrecord⟩ := sweepPartition_spec hoffer
      exact ⟨l.leaderId, l.leaderEpoch, isr, hne, hrecord⟩
  · exact h

/-- The new members of the ISR have what the old ones had: both are at the beginning of the new
leader's log. -/
theorem Sound.commitMetadata {i : Nat} (hclean : Clean p s (.commitMetadata i))
    (hagree : (s.step p (.commitMetadata i)).Undiverged p) :
    Sound p (s.step p (.commitMetadata i)) := by
  rw [step, Journal.step] at hagree ⊢
  cases hpending : s.metadata.pending[i]? with
  | none =>
    rw [hpending] at hagree
    exact h
  | some proposal =>
    rw [hpending] at hagree
    obtain ⟨leaderId, leaderEpoch, isr, hne, hrecord⟩ :=
      h.pending proposal (mem_of_getElem? hpending)
    have hisr : p.isrAfter (s.metadata.log ++ [proposal.record]) = isr := by
      rw [hrecord, Setting.isrAfter, foldl_append]
      exact if_pos rfl
    have hmembers : ∀ member ∈ isr, ∀ n, s.highWatermark n ≤ s.durable member := by
      intro member hm
      by_cases hold : member ∈ s.isr p
      · exact h.synced member hold
      · refine hclean proposal hpending member ?_ hold
        rw [hrecord]
        exact hm
    refine { h with
      pending := fun proposal' hp => h.pending proposal' (mem_of_mem_eraseIdx hp)
      changes := fun record hr => ?_
      isr_ne_nil := ?_
      synced := fun member hm => hmembers member ?_
      acknowledged := fun records hr => ?_ }
    · rcases mem_append.mp hr with hr | hr
      · exact h.changes record hr
      · rw [mem_singleton.mp hr]
        exact h.pending proposal (mem_of_getElem? hpending)
    · rw [Replicas.isr, hisr]
      exact hne
    · rw [Replicas.isr, hisr] at hm
      exact hm
    · obtain ⟨⟨n, hn⟩, hall⟩ := h.acknowledged records hr
      refine ⟨⟨n, hn⟩, fun member hm => ?_⟩
      rw [Replicas.isr, hisr] at hm
      obtain ⟨old, hold⟩ := exists_mem_of_ne_nil _ h.isr_ne_nil
      refine prefix_of_prefix_length_le ((hall old hold).trans (hagree old)) (hagree member) ?_
      exact Nat.le_trans hn (Nat.le_trans (hmembers member hm n) (h.durable_le member))

/-! ### Runs -/

theorem Sound.step {event : ReplicaEvent ρ} (hclean : Clean p s event) (hagree : s.Undiverged p)
    (hagree' : (s.step p event).Undiverged p) : Sound p (s.step p event) := by
  cases event with
  | produce node records =>
    rw [Replicas.step]
    split
    · exact { h.extend node (prefix_append _ records) with }
    · exact h
  | acknowledge => exact h.acknowledge hagree hclean
  | sendFetch node => exact h.sendFetch node
  | serveFetch i maxRecords => exact h.serveFetch i maxRecords
  | receiveFetch i => exact h.receiveFetch i
  | sync node => exact h.sync node
  | sweep node recent silent isLeader => exact h.sweep node recent silent isLeader
  | applyMetadata => exact { h with }
  | commitMetadata => exact h.commitMetadata hclean hagree'
  | crash node kept => exact h.crash node kept

theorem Sound.safe (hagree : s.Undiverged p) : Safe p s where
  members member hm := Nat.le_trans (h.synced member hm _) (h.durable_le member)
  serves records hr := by
    obtain ⟨-, hall⟩ := h.acknowledged records hr
    obtain ⟨member, hm⟩ := exists_mem_of_ne_nil _ h.isr_ne_nil
    exact ⟨(hall member hm).trans (hagree member), hall⟩
  failover config assignment choice hclean hisr hchoice records hr :=
    (h.acknowledged records hr).2 _ (hisr ▸ chooseLeader_mem hclean hchoice)

end

/-- In every run in which logs do not diverge and every step meets the condition, every state
is safe. -/
theorem safe_of_clean (p : Setting) (events : List (ReplicaEvent ρ))
    (hagree : Always (Replicas.step p) (Undiverged p) start events)
    (hclean : Guarded (Replicas.step p) (Clean p) start events) :
    Always (Replicas.step p) (Safe p) start events := by
  refine (hclean.and hagree.guarded).always
    (fun s (hs : Sound p s ∧ s.Undiverged p) => hs.1.safe hs.2)
    (fun s event (hs : Sound p s ∧ s.Undiverged p) hstep => ?_) ⟨sound_start, hagree.head⟩
  exact ⟨hs.1.step hstep.1 hstep.2.1 hstep.2.2, hstep.2.2⟩

/-! ### A replica that lags behind

Broker 1 leads the partition with 3 in sync; 2 is a replica too and has only the first record.
When 2 fetches once more it has acknowledged lately, and the next sweep of 1 takes it in. -/

def laggingPartition : OpenPartition where
  assignment := { leaderId := 1, leaderEpoch := 0, replicas := [1, 2, 3], isr := [1, 3] }
  settings := Broker.plain.defaultSettings

def laggingBrokers : Brokers :=
  { Brokers.raced with
    engine := fun _ =>
      { Broker.plain.fresh ∅ with
        brokerAddrs := Table.ofList [(1, ['a']), (2, ['b']), (3, ['c'])]
        partitions :=
          (∅ : Table (Text × UInt32) OpenPartition).insert (['t'], 0) laggingPartition }
    placed := fun _ key hkey => by
      rw [Set.mem_singleton_iff.mp hkey]
      rfl
    own := fun _ key hkey pm hpm => by
      rw [Table.lookup_insert_of_ne _ hkey] at hpm
      cases hpm }

def lagging : Setting where
  brokers := laggingBrokers
  topic := ['t']
  partition := 0
  isr := [1, 3]
  peers _ := [1, 2, 3]
  minInsyncReplicas := 2
  assigned := rfl
  isr_ne_nil := cons_ne_nil _ _
  isr_engine _ pm hpm := by
    rw [← Option.some.inj (hpm.symm.trans (Table.lookup_insert_self _ _ _)).symm]
    rfl
  peers_ne_nil _ := cons_ne_nil _ _
  one_lt_minInsyncReplicas := by decide

/-- One record that all replicas get and broker 3 acknowledges. -/
def firstRecord : List (ReplicaEvent Nat) :=
  [.produce 1 [0], .sendFetch 2, .serveFetch 0 10, .receiveFetch 0, .sendFetch 3, .serveFetch 1 10,
    .receiveFetch 1, .sendFetch 3, .serveFetch 2 10, .acknowledge 1 1]

/-- A second one that broker 2 does not get. -/
def secondRecord : List (ReplicaEvent Nat) :=
  [.produce 1 [1], .sendFetch 3, .serveFetch 3 10, .receiveFetch 3, .sendFetch 3, .serveFetch 4 10,
    .acknowledge 1 2]

/-- Broker 2 fetches, and the leader takes it into the ISR. -/
def takenIn : List (ReplicaEvent Nat) :=
  [.sendFetch 2, .serveFetch 5 10, .sweep 1 (fun _ => true) (fun _ => false) false,
    .commitMetadata 0]

def writes (s : Replicas ρ) : ReplicaEvent ρ → Option UInt32
  | .produce node _ | .crash node _ => some node
  | .receiveFetch i => s.responses[i]?.map (·.follower)
  | _ => none

theorem log_step_of_ne {event : ReplicaEvent ρ} (h : writes s event ≠ some node) :
    (s.step p event).log node = s.log node := by
  cases event with
  | produce =>
    rw [step]
    split
    · exact update_of_ne (fun heq => h (congrArg some heq.symm)) _ _
    · rfl
  | acknowledge =>
    rw [step]
    split
    · exact congrFun advanceCommittedHw_frame.1 node
    · rfl
  | sendFetch =>
    rw [step]
    split
    · split <;> rfl
    · rfl
  | serveFetch =>
    rw [step]
    split
    · split <;> rfl
    · rfl
  | receiveFetch i =>
    rw [step]
    cases hresponse : s.responses[i]? with
    | none => rfl
    | some response =>
      have hne : node ≠ response.follower := by
        intro heq
        apply h
        rw [writes, hresponse, heq]
        rfl
      refine (congrFun advanceCommittedHw_frame.1 node).trans ?_
      exact update_of_ne hne _ _
  | sync => rfl
  | sweep => rfl
  | applyMetadata => rfl
  | commitMetadata => rfl
  | crash =>
    rw [step]
    split
    · exact update_of_ne (fun heq => h (congrArg some heq.symm)) _ _
    · rfl

def agree [DecidableEq ρ] (p : Setting) (nodes : List UInt32) (s : Replicas ρ) : Bool :=
  nodes.all fun node => (s.log node).isPrefixOf (s.log (s.leader p))

/-- Only some brokers write to their logs, and these logs do not diverge. -/
theorem always_undiverged [DecidableEq ρ] (nodes : List UInt32) {events : List (ReplicaEvent ρ)}
    (hwrites : Guarded (step p)
      (fun s event => (writes s event).all (nodes.contains ·) = true) start
      events) (hagree : Always (step p) (fun s => s.agree p nodes = true) start events) :
    Always (step p) (Undiverged p) start events := by
  refine (hwrites.and hagree.guarded).always
    (fun s (hs : (∀ node ∉ nodes, s.log node = []) ∧ s.agree p nodes = true) node => ?_)
    (fun s event (hs : (∀ node ∉ nodes, s.log node = []) ∧ s.agree p nodes = true) hstep => ?_)
    ⟨fun _ _ => rfl, hagree.head⟩
  · by_cases hnode : node ∈ nodes
    · exact isPrefixOf_iff_prefix.mp (all_eq_true.mp hs.2 node hnode)
    · rw [hs.1 node hnode]
      exact nil_prefix
  · refine ⟨fun node hnode => ?_, hstep.2.2⟩
    rw [log_step_of_ne]
    · exact hs.1 node hnode
    · intro hwrite
      have hmem := hstep.1
      rw [hwrite] at hmem
      exact hnode (contains_iff_mem.mp hmem)

/-- The first record goes to all replicas before the leader changes anything. -/
theorem safe_firstRecord : Always (step lagging) (Safe lagging) start firstRecord := by
  refine safe_of_clean lagging firstRecord
    (always_undiverged [1, 2, 3] (by decide +kernel) (by decide +kernel)) ?_
  exact ⟨trivial, trivial, trivial, trivial, trivial, trivial, trivial, trivial, trivial,
    ⟨rfl, _, rfl, rfl, rfl⟩, trivial⟩

theorem not_safe_lagging :
    Always (step lagging) (Undiverged lagging) start (firstRecord ++ secondRecord ++ takenIn) ∧
      ¬ Always (step lagging) (Safe lagging) start (firstRecord ++ secondRecord ++ takenIn) := by
  refine ⟨always_undiverged [1, 2, 3] (by decide +kernel) (by decide +kernel), fun h => ?_⟩
  have hmember := h.run.members 2 (by decide +kernel)
  exact absurd hmember (by decide +kernel)

end Replicas

end Bifrox.Replication

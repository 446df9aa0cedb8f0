/-
Fencing epochs (`epoch` of the `ReplicationManager` in `src/replication/mod.rs`, with
`handle_heartbeat`, `handle_replication_push` and `handle_vote_request` in
`src/server/handler.rs`).

A handler compares an epoch first and stores it later: one that is about to be stored is kept in
`stores` until it is.  `handle_leader_heartbeat` is not called by any handler.
-/
import Bifrox.Consensus.Election

namespace Bifrox.Consensus

open Function Cluster Controller
open Run (run Always Guarded)
open Controller (VoteRequest VoterView)

/-! ## Epochs and the messages that carry them -/

structure FencedCluster where
  cluster : Cluster
  epoch : Nat → Nat
  /-- The epochs that are about to be stored, each with its node. -/
  stores : List (Nat × Nat)
  /-- The nodes that have seen themselves as leader and are about to send a heartbeat. -/
  beating : List Nat
  /-- Every heartbeat and every push that was sent, with its sender and its epoch. -/
  heartbeats : List (Nat × Nat)
  pushes : List (Nat × Nat)
  staleAcks : List Nat

inductive FencingEvent where
  | electionTimeout (i : Nat) (elapsed : Bool) (persist : Persist)
  | readTerm (i : Nat)
  | sendVoteRequest (i : Nat) (lastLogIndex : Nat)
  | handleVoteRequest (i : Nat) (request : VoteRequest) (view : VoterView) (persist : Persist)
  | voteGranted (i : Nat)
  | voteMissing (i : Nat)
  | tally (i : Nat)
  | beginHeartbeat (i : Nat)
  | sendHeartbeat (i : Nat)
  | handleHeartbeat (i : Nat) (heartbeat : Nat × Nat)
  | sendPush (i : Nat)
  | handlePush (i : Nat) (push : Nat × Nat)
  | staleAck (i : Nat) (persist : Persist)
  | store (i : Nat) (epoch : Nat)

def FencingEvent.node : FencingEvent → Nat
  | .electionTimeout i _ _ | .readTerm i | .sendVoteRequest i _ | .handleVoteRequest i _ _ _
  | .voteGranted i | .voteMissing i | .tally i | .beginHeartbeat i | .sendHeartbeat i
  | .handleHeartbeat i _ | .sendPush i | .handlePush i _ | .staleAck i _ | .store i _ => i

def Node.wins (node : Node) : Bool :=
  match node.phase with
  | .asking _ votes [] => (node.controller.tallyElectionVotes votes).2
  | .idle | .started | .asking _ _ (_ :: _) => false

def Node.askedTerm (node : Node) : Nat :=
  match node.phase with
  | .asking term _ _ => term
  | .idle | .started => 0

namespace FencedCluster

variable (q : Quorum)

def start (isLeader : Nat → Bool) : FencedCluster where
  cluster := Cluster.start q isLeader
  epoch := fun _ => 0
  stores := []
  beating := []
  heartbeats := []
  pushes := []
  staleAcks := []

variable (s : FencedCluster)

def controller (i : Nat) : Controller := (s.cluster.nodes i).controller

def elect (q : Quorum) (s : FencedCluster) (event : Event) : FencedCluster :=
  { s with cluster := s.cluster.step q event }

def queueStore (i epoch : Nat) : FencedCluster :=
  { s with stores := (i, epoch) :: s.stores }

/-- What the handler of a vote request reads of the epoch is part of its view: it may be old
by the time the vote is recorded. -/
def act (s : FencedCluster) : FencingEvent → FencedCluster
  | .electionTimeout i elapsed persist => s.elect q (.electionTimeout i elapsed persist)
  | .readTerm i =>
    match (s.cluster.nodes i).phase with
    | .started =>
      { s.elect q (.readTerm i) with
        epoch := update s.epoch i (max (s.epoch i) (s.controller i).currentTerm) }
    | .idle | .asking _ _ _ => s
  | .sendVoteRequest i lastLogIndex => s.elect q (.sendVoteRequest i lastLogIndex)
  | .handleVoteRequest i request view persist =>
    let s' := s.elect q (.handleVoteRequest i request view persist)
    if (i, request) ∈ s.cluster.requests ∧
        ((s.controller i).handleVoteRequest view request persist).2 = true then
      s'.queueStore i request.term
    else s'
  | .voteGranted i => s.elect q (.voteGranted i)
  | .voteMissing i => s.elect q (.voteMissing i)
  | .tally i =>
    let s' := s.elect q (.tally i)
    if (s.cluster.nodes i).wins then s'.queueStore i (s.cluster.nodes i).askedTerm else s'
  | .beginHeartbeat i =>
    if (s.controller i).state = .leader then { s with beating := i :: s.beating } else s
  | .sendHeartbeat i =>
    if i ∈ s.beating then
      { s with beating := s.beating.erase i, heartbeats := (i, s.epoch i) :: s.heartbeats }
    else s
  | .handleHeartbeat i heartbeat =>
    -- a heartbeat with the node's own address is rejected
    if heartbeat ∈ s.heartbeats ∧ heartbeat.1 ≠ i ∧ s.epoch i ≤ heartbeat.2 then
      s.queueStore i heartbeat.2
    else s
  | .sendPush i => { s with pushes := (i, s.epoch i) :: s.pushes }
  | .handlePush i push =>
    if push ∈ s.pushes then
      if push.2 < s.epoch i then { s with staleAcks := push.1 :: s.staleAcks }
      else if s.epoch i < push.2 then s.queueStore i push.2
      else s
    else s
  | .staleAck i persist =>
    if i ∈ s.staleAcks then
      s.elect q (.stepDown i (s.controller i).nextTerm persist)
    else s
  | .store i epoch =>
    if (i, epoch) ∈ s.stores then
      { s with
        epoch := update s.epoch i epoch
        stores := s.stores.erase (i, epoch) }
    else s

def step (q : Quorum) (s : FencedCluster) (event : FencingEvent) : FencedCluster :=
  if event.node ∈ q.ids then s.act q event else s

def UniqueFence (s : FencedCluster) : Prop :=
  ∀ i ∈ q.ids, ∀ j ∈ q.ids, (s.controller i).state = .leader → (s.controller j).state = .leader →
    1 ≤ s.epoch i → s.epoch i = s.epoch j → i = j

def NeverLowered (s : FencedCluster) (events : List FencingEvent) : Prop :=
  ∀ i earlier later, events = earlier ++ later →
    (run (step q) s earlier).epoch i ≤ (run (step q) s events).epoch i

/-- The condition on a step.  A store does not lower the epoch, and stores no other epoch than
its own term in a leader; who wins an election has not learned of an epoch after it; and no
election starts from the last term. -/
def Fences : FencingEvent → Prop
  | .electionTimeout i _ _ => (s.controller i).currentTerm + 1 < 2 ^ 64
  | .store i epoch => (i, epoch) ∈ s.stores →
    s.epoch i ≤ epoch ∧ ((s.controller i).state = .leader → epoch = (s.controller i).currentTerm)
  | .tally i => (s.cluster.nodes i).wins = true → s.epoch i ≤ (s.controller i).currentTerm
  | .readTerm _ | .sendVoteRequest .. | .handleVoteRequest ..
  | .voteGranted _ | .voteMissing _ | .beginHeartbeat _ | .sendHeartbeat _ | .handleHeartbeat ..
  | .sendPush _ | .handlePush .. | .staleAck .. => True

instance (s : FencedCluster) : (event : FencingEvent) → Decidable (s.Fences event)
  | .electionTimeout .. => inferInstanceAs (Decidable (_ < _))
  | .store _ _ => inferInstanceAs (Decidable (_ → _))
  | .tally _ => inferInstanceAs (Decidable (_ → _))
  | .readTerm _ | .sendVoteRequest .. | .handleVoteRequest ..
  | .voteGranted _ | .voteMissing _ | .beginHeartbeat _ | .sendHeartbeat _ | .handleHeartbeat ..
  | .sendPush _ | .handlePush .. | .staleAck .. => instDecidableTrue

end FencedCluster

/-! ## What elections leave alone -/

/-- An event that neither reads a term back nor ends an election. -/
def Event.isQuiet : Event → Bool
  | .electionTimeout .. | .sendVoteRequest .. | .handleVoteRequest .. | .voteGranted _
  | .voteMissing _ | .stepDown .. => true
  | .readTerm _ | .tally _ | .leaderHeartbeat .. | .restart _ => false

/-- What a quiet event does to a node: no leader is made, and no term is read. -/
structure Node.Goes (node node' : Node) : Prop where
  lead : node.controller.KeepsLead node'.controller
  asked : node'.askedTerm ≤ node.askedTerm
  idle : node'.controller.state = .leader → node.phase = .idle → node'.phase = .idle

theorem Node.Goes.refl (node : Node) : node.Goes node :=
  ⟨Controller.KeepsLead.refl _, Nat.le_refl _, fun _ h => h⟩

theorem Node.Goes.controller (node : Node) {n : Controller} (h : node.controller.KeepsLead n) :
    node.Goes { controller := n, phase := node.phase } := ⟨h, Nat.le_refl _, fun _ h => h⟩

namespace Cluster

variable {q : Quorum} {s s' : Cluster} {i : Nat}

/-- What a quiet event does to the cluster: no election ends. -/
structure Goes (s s' : Cluster) : Prop where
  node (i : Nat) : (s.nodes i).Goes (s'.nodes i)
  elected : s'.elected = s.elected

theorem Goes.refl (s : Cluster) : s.Goes s := ⟨fun _ => Node.Goes.refl _, rfl⟩

theorem Goes.update (node : Node) (hnodes : s'.nodes = update s.nodes i node)
    (helected : s'.elected = s.elected) (h : (s.nodes i).Goes node) : s.Goes s' := by
  refine ⟨?_, helected⟩
  rw [hnodes]
  exact (forall_update_iff s.nodes fun j node => (s.nodes j).Goes node).mpr
    ⟨h, fun j _ => Node.Goes.refl _⟩

theorem goes_putPhase {term votes votes' : Nat} {peer : Nat} {peers : List Nat}
    (hphase : (s.nodes i).phase = .asking term votes (peer :: peers)) :
    s.Goes (s.putPhase i (.asking term votes' peers)) := by
  refine .update (i := i) ⟨(s.nodes i).controller, .asking term votes' peers⟩ rfl rfl
    ⟨Controller.KeepsLead.refl _, ?_, fun _ hidle => ?_⟩
  · rw [Node.askedTerm, Node.askedTerm, hphase]
  · rw [hphase] at hidle
    cases hidle

theorem goes_act {event : Event} (hquiet : event.isQuiet = true) : s.Goes (s.act q event) := by
  have hrefl := Goes.refl s
  cases event with
  | readTerm i | tally i | leaderHeartbeat i term persist | restart i => cases hquiet
  | electionTimeout i elapsed persist =>
    have hkeep := (s.nodes i).controller.keepsLead_checkElectionTimeout elapsed persist
    rw [act]
    split
    · dsimp only
      split
      · next hresult =>
        refine .update _ rfl rfl ⟨hkeep, Nat.zero_le _, fun hlead => ?_⟩
        rw [state_checkElectionTimeout hresult] at hlead
        cases hlead
      · exact .update _ rfl rfl (Node.Goes.controller _ hkeep)
    · exact hrefl
    · exact hrefl
  | sendVoteRequest =>
    rw [act]
    split
    · exact ⟨hrefl.node, rfl⟩
    all_goals exact hrefl
  | handleVoteRequest i request view persist =>
    have hkeep := (s.nodes i).controller.keepsLead_handleVoteRequest view request persist
    rw [act]
    split
    · dsimp only
      split <;> exact .update _ rfl rfl (Node.Goes.controller _ hkeep)
    · exact hrefl
  | voteGranted =>
    rw [act]
    split
    · next hphase =>
      split
      · exact goes_putPhase hphase
      · exact hrefl
    all_goals exact hrefl
  | voteMissing =>
    rw [act]
    split
    · next hphase => exact goes_putPhase hphase
    all_goals exact hrefl
  | stepDown i observedEpoch persist =>
    refine .update _ rfl rfl (Node.Goes.controller _ ?_)
    rw [stepDownToFollower]
    split
    · exact keepsLead_persistOrDemote (fun hlead => by cases hlead)
    · exact Controller.KeepsLead.refl _

theorem step_tally (hi : i ∈ q.ids) : s.step q (.tally i) = s ∨
    (∃ term votes, (s.nodes i).phase = .asking term votes [] ∧
      ((s.nodes i).controller.tallyElectionVotes votes).2 = false ∧
      s.step q (.tally i) = s.put i ⟨(s.nodes i).controller, .idle⟩) ∨
    ∃ term votes, (s.nodes i).phase = .asking term votes [] ∧
      let r := (s.nodes i).controller.tallyElectionVotes votes
      r.2 = true ∧ s.step q (.tally i) = { s.put i ⟨r.1, .idle⟩ with
        elected := (i, r.1.currentTerm) :: s.elected } := by
  rw [step, if_pos (show Event.node (.tally i) ∈ q.ids from hi), act]
  split
  · next term votes hphase =>
    right
    dsimp only
    split
    · next hwins => exact .inr ⟨term, votes, hphase, hwins, rfl⟩
    · next hloses =>
      rw [Bool.not_eq_true] at hloses
      rw [tallyElectionVotes_of_false hloses]
      exact .inl ⟨term, votes, hphase, hloses, rfl⟩
  · exact .inl rfl
  · exact .inl rfl
  · exact .inl rfl

end Cluster

/-! ## Leaders and their epochs -/

namespace FencedCluster

variable {q : Quorum} {s : FencedCluster} {i : Nat}

theorem cluster_act_handlePush (i : Nat) (push : Nat × Nat) :
    (s.act q (.handlePush i push)).cluster = s.cluster := by
  rw [act]
  split
  · split
    · rfl
    · split <;> rfl
  · rfl

/-- What an event does to the consensus is what an election does. -/
theorem cluster_act (event : FencingEvent) : (s.act q event).cluster = s.cluster ∨ ∃ event',
      (s.act q event).cluster = s.cluster.step q event' ∧
      (∀ i elapsed persist, event' = .electionTimeout i elapsed persist →
        event = .electionTimeout i elapsed persist) ∧
      (∀ i lastLogIndex, event' = .sendVoteRequest i lastLogIndex →
        event = .sendVoteRequest i lastLogIndex) ∧
      ∀ i request view persist, event' = .handleVoteRequest i request view persist →
        event = .handleVoteRequest i request view persist := by
  cases event with
  | electionTimeout i elapsed persist =>
    refine .inr ⟨.electionTimeout i elapsed persist, rfl, fun j elapsed' persist' heq => ?_, nofun,
      nofun⟩
    cases heq
    rfl
  | sendVoteRequest i lastLogIndex =>
    refine .inr ⟨.sendVoteRequest i lastLogIndex, rfl, nofun, fun j index heq => ?_, nofun⟩
    cases heq
    rfl
  | voteGranted i => exact .inr ⟨.voteGranted i, rfl, nofun, nofun, nofun⟩
  | voteMissing i => exact .inr ⟨.voteMissing i, rfl, nofun, nofun, nofun⟩
  | readTerm i =>
    rw [act]
    split
    · exact .inr ⟨.readTerm i, rfl, nofun, nofun, nofun⟩
    · exact .inl rfl
    · exact .inl rfl
  | handleVoteRequest i request view persist =>
    refine .inr ⟨.handleVoteRequest i request view persist, ?_, nofun, nofun,
      fun j request' view' persist' heq => ?_⟩
    · rw [act]
      split <;> rfl
    · cases heq
      rfl
  | tally i =>
    refine .inr ⟨.tally i, ?_, nofun, nofun, nofun⟩
    rw [act]
    split <;> rfl
  | staleAck i persist =>
    rw [act]
    split
    · exact .inr ⟨.stepDown i (s.controller i).nextTerm persist, rfl, nofun, nofun, nofun⟩
    · exact .inl rfl
  | beginHeartbeat i | sendHeartbeat i | handleHeartbeat i heartbeat | store i epoch =>
    rw [act]
    split <;> exact .inl rfl
  | sendPush => exact .inl rfl
  | handlePush i push => exact .inl (cluster_act_handlePush i push)

/-- A leader is between two elections, and its epoch is its term.  An election is in a term up to
it. -/
structure NodeFenced (s : FencedCluster) (i : Nat) : Prop where
  idle : (s.controller i).state = .leader → (s.cluster.nodes i).phase = .idle
  elected : (s.controller i).state = .leader →
    (s.controller i).currentTerm = 0 ∨ (i, (s.controller i).currentTerm) ∈ s.cluster.elected
  epoch : (s.controller i).state = .leader → s.epoch i = (s.controller i).currentTerm
  asked : (s.cluster.nodes i).askedTerm ≤ s.epoch i

structure Fenced (q : Quorum) (s : FencedCluster) : Prop where
  safe : Cluster.Safe q s.cluster
  node : ∀ i, s.NodeFenced i

theorem Fenced.uniqueFence (h : Fenced q s) : s.UniqueFence q := by
  intro i _ j _ hi hj hpos hepoch
  have hti := (h.node i).epoch hi
  have htj := (h.node j).epoch hj
  have hwon : ∀ k, (s.controller k).state = .leader → 1 ≤ s.epoch k →
      (k, (s.controller k).currentTerm) ∈ s.cluster.elected := by
    intro k hk hk1
    have htk := (h.node k).epoch hk
    rcases (h.node k).elected hk with hzero | hmem
    · omega
    · exact hmem
  refine h.safe.atMostOneLeader _ (hwon i hi hpos) _ (hwon j hj (by omega)) ?_
  show (s.controller i).currentTerm = (s.controller j).currentTerm
  omega

theorem Fenced.elect (h : Fenced q s) (event : Event) (hi : event.node ∈ q.ids)
    (hquiet : event.isQuiet = true) (hnext : s.cluster.HasNextTerm event) :
    Fenced q (s.elect q event) where
  safe := h.safe.step event hnext
  node := by
    intro j
    have hstep : s.cluster.step q event = s.cluster.act q event := if_pos hi
    obtain ⟨hgoes, helected⟩ := hstep ▸ goes_act (q := q) (s := s.cluster) hquiet
    replace hgoes := hgoes j
    have hj := h.node j
    refine ⟨fun hlead => ?_, fun hlead => ?_, fun hlead => ?_, ?_⟩
    · exact hgoes.idle hlead (hj.idle (hgoes.lead hlead).1)
    · obtain ⟨hold, hterm⟩ := hgoes.lead hlead
      show ((s.cluster.step q event).nodes j).controller.currentTerm = 0 ∨
        (j, ((s.cluster.step q event).nodes j).controller.currentTerm) ∈
          (s.cluster.step q event).elected
      rw [hterm, helected]
      exact hj.elected hold
    · obtain ⟨hold, hterm⟩ := hgoes.lead hlead
      show s.epoch j = ((s.cluster.step q event).nodes j).controller.currentTerm
      rw [hterm]
      exact hj.epoch hold
    · exact hgoes.asked.trans hj.asked

variable {s' : FencedCluster}

theorem Fenced.of_eq (h : Fenced q s) (hcluster : s'.cluster = s.cluster)
    (hepoch : s'.epoch = s.epoch) : Fenced q s' := by
  obtain ⟨cluster, epoch, stores, beating, heartbeats, pushes, staleAcks⟩ := s'
  subst hcluster hepoch
  exact ⟨h.safe, fun i => ⟨(h.node i).idle, (h.node i).elected, (h.node i).epoch, (h.node i).asked⟩⟩

theorem NodeFenced.of_eq (h : s.NodeFenced i)
    (hnode : s'.cluster.nodes i = s.cluster.nodes i) (hepoch : s'.epoch i = s.epoch i)
    (helected : s.cluster.elected ⊆ s'.cluster.elected) : s'.NodeFenced i := by
  have hcontroller : s'.controller i = s.controller i := congrArg Node.controller hnode
  refine ⟨?_, ?_, ?_, ?_⟩
  · rw [hcontroller, hnode]
    exact h.idle
  · rw [hcontroller]
    exact fun hlead => (h.elected hlead).imp_right fun hmem => helected hmem
  · rw [hcontroller, hepoch]
    exact h.epoch
  · rw [hnode, hepoch]
    exact h.asked

section

variable (h : Fenced q s)
include h

theorem Fenced.put (hsafe : Cluster.Safe q s'.cluster)
    {node : Node} (hnodes : s'.cluster.nodes = update s.cluster.nodes i node)
    (helected : s.cluster.elected ⊆ s'.cluster.elected)
    (hepoch : ∀ j, j ≠ i → s'.epoch j = s.epoch j)
    (hlead : node.controller.state = .leader → node.phase = .idle ∧
      (node.controller.currentTerm = 0 ∨ (i, node.controller.currentTerm) ∈ s'.cluster.elected) ∧
      s'.epoch i = node.controller.currentTerm)
    (hasked : node.askedTerm ≤ s'.epoch i) : Fenced q s' := by
  refine ⟨hsafe, fun j => ?_⟩
  by_cases hji : j = i
  · subst hji
    have hnode : s'.cluster.nodes j = node := hnodes ▸ update_self ..
    have hcontroller : s'.controller j = node.controller := congrArg Node.controller hnode
    refine ⟨?_, ?_, ?_, hnode ▸ hasked⟩ <;> rw [hcontroller] <;> intro hj
    · rw [hnode]
      exact (hlead hj).1
    · exact (hlead hj).2.1
    · exact (hlead hj).2.2
  · exact (h.node j).of_eq (hnodes ▸ update_of_ne hji ..) (hepoch j hji) helected

/-- The epoch becomes that of the term before anyone is asked. -/
theorem Fenced.readTerm (hi : i ∈ q.ids) : Fenced q (s.act q (.readTerm i)) := by
  rw [act]
  split
  · next hphase =>
    have hstep : s.cluster.step q (.readTerm i) = s.cluster.putPhase i
        (.asking (s.controller i).currentTerm 1 (q.peers i)) := by
      rw [Cluster.step, if_pos (show Event.node (.readTerm i) ∈ q.ids from hi), Cluster.act, hphase]
      rfl
    refine h.put (h.safe.step (.readTerm i) trivial) (congrArg Cluster.nodes hstep) ?_
      (fun j hji => update_of_ne hji ..) (fun hlead => ?_) ?_
    · show s.cluster.elected ⊆ (s.cluster.step q (.readTerm i)).elected
      rw [hstep]
      exact fun _ hmem => hmem
    · -- an election has started, so the node does not lead
      rw [(h.node i).idle hlead] at hphase
      cases hphase
    · show (s.controller i).currentTerm ≤ update s.epoch i _ i
      rw [update_self]
      exact Nat.le_max_right ..
  · exact h
  · exact h

theorem Fenced.tally (hi : i ∈ q.ids)
    (hfences : (s.cluster.nodes i).wins = true → s.epoch i ≤ (s.controller i).currentTerm) :
    Fenced q (s.elect q (.tally i)) := by
  have hsafe := h.safe.step (.tally i) trivial
  have hasked := (h.node i).asked
  rw [Node.wins] at hfences
  rw [Node.askedTerm] at hasked
  rcases step_tally (s := s.cluster) hi with hsame | ⟨term, votes, hphase, hloses, hcluster⟩ |
    ⟨term, votes, hphase, hwins, hcluster⟩
  · rw [FencedCluster.elect, hsame]
    exact h
  · have helected : (s.elect q (.tally i)).cluster.elected = s.cluster.elected := by
      rw [FencedCluster.elect, hcluster]
      rfl
    exact h.put hsafe (congrArg nodes hcluster) (helected ▸ fun _ hmem => hmem) (fun _ _ => rfl)
      (fun hlead => ⟨rfl, helected ▸ (h.node i).elected hlead, (h.node i).epoch hlead⟩)
      (Nat.zero_le _)
  · rw [hphase] at hfences hasked
    have hnode := h.safe.node i hi
    -- the votes that were counted are those of the term that the candidate is still in
    have hcandidate := (tallyElectionVotes_spec hnode.sound).2 hwins
    have hsame : term = (s.controller i).currentTerm :=
      (hnode.counted term votes [] hphase).1 hcandidate.1
    have hle := hfences hwins
    replace hasked : term ≤ s.epoch i := hasked
    have hterm : ((s.controller i).tallyElectionVotes votes).1.currentTerm = s.epoch i := by
      rw [currentTerm_tallyElectionVotes]
      omega
    -- who wins leads in its term, and has that for its epoch
    have helected : (s.elect q (.tally i)).cluster.elected =
        (i, ((s.controller i).tallyElectionVotes votes).1.currentTerm) :: s.cluster.elected :=
      congrArg elected hcluster
    exact h.put hsafe (congrArg nodes hcluster)
      (helected ▸ List.subset_cons_self _ _) (fun _ _ => rfl)
      (fun _ => ⟨rfl, .inr (helected ▸ List.mem_cons_self), hterm.symm⟩) (Nat.zero_le _)

theorem Fenced.store {epoch : Nat} {stores : List (Nat × Nat)}
    (hle : s.epoch i ≤ epoch)
    (hlead : (s.controller i).state = .leader → epoch = (s.controller i).currentTerm) :
    Fenced q { s with epoch := update s.epoch i epoch, stores := stores } := by
  refine ⟨h.safe, fun j => ?_⟩
  by_cases hji : j = i
  · subst hji
    refine ⟨(h.node j).idle, (h.node j).elected, fun hj => ?_, ?_⟩
    · exact (update_self ..).trans (hlead hj)
    · have hasked := (h.node j).asked
      show (s.cluster.nodes j).askedTerm ≤ update s.epoch j epoch j
      rw [update_self]
      omega
  · exact (h.node j).of_eq rfl (update_of_ne hji ..) fun _ hmem => hmem

theorem Fenced.step (event : FencingEvent) (hfences : s.Fences event) :
    Fenced q (s.step q event) := by
  rw [FencedCluster.step]
  split
  · next hi =>
    cases event with
    | electionTimeout i elapsed persist =>
      exact h.elect (.electionTimeout i elapsed persist) hi rfl hfences
    | readTerm => exact h.readTerm hi
    | sendVoteRequest i lastLogIndex =>
      exact h.elect (.sendVoteRequest i lastLogIndex) hi rfl trivial
    | handleVoteRequest i request view persist =>
      have hvote := h.elect (.handleVoteRequest i request view persist) hi rfl trivial
      rw [act]
      split
      · exact hvote.of_eq rfl rfl
      · exact hvote
    | voteGranted i => exact h.elect (.voteGranted i) hi rfl trivial
    | voteMissing i => exact h.elect (.voteMissing i) hi rfl trivial
    | tally =>
      have htally := h.tally hi hfences
      rw [act]
      split
      · exact htally.of_eq rfl rfl
      · exact htally
    | beginHeartbeat i | sendHeartbeat i | handleHeartbeat i heartbeat =>
      rw [act]
      split
      · exact h.of_eq rfl rfl
      · exact h
    | sendPush => exact h.of_eq rfl rfl
    | handlePush =>
      rw [act]
      split
      · split
        · exact h.of_eq rfl rfl
        · split
          · exact h.of_eq rfl rfl
          · exact h
      · exact h
    | staleAck i persist =>
      rw [act]
      split
      · exact h.elect (.stepDown i _ persist) hi rfl trivial
      · exact h
    | store =>
      rw [act]
      split
      · next hstores => exact h.store (hfences hstores).1 (hfences hstores).2
      · exact h
  · exact h

end

theorem epoch_le_step (s : FencedCluster) {event : FencingEvent} (hfences : s.Fences event) :
    s.epoch i ≤ (s.step q event).epoch i := by
  have hupdate : ∀ j epoch, s.epoch j ≤ epoch → s.epoch i ≤ update s.epoch j epoch i :=
    fun j epoch hle => le_update_self_iff.mpr hle i
  rw [FencedCluster.step]
  split
  · cases event with
    | readTerm j =>
      rw [act]
      split
      · exact hupdate j _ (Nat.le_max_left ..)
      · exact Nat.le_refl _
      · exact Nat.le_refl _
    | store j epoch =>
      rw [act]
      split
      · next hstores => exact hupdate j epoch (hfences hstores).1
      · exact Nat.le_refl _
    | handlePush =>
      rw [act]
      split
      · split
        · exact Nat.le_refl _
        · split <;> exact Nat.le_refl _
      · exact Nat.le_refl _
    | electionTimeout | sendVoteRequest | voteGranted | voteMissing | sendPush =>
      exact Nat.le_refl _
    | handleVoteRequest | tally | beginHeartbeat | sendHeartbeat | handleHeartbeat | staleAck =>
      rw [act]
      split <;> exact Nat.le_refl _
  · exact Nat.le_refl _

/-! ## Runs -/

theorem fenced_start {isLeader : Nat → Bool} : Fenced q (start q isLeader) where
  safe := Cluster.safe_start q isLeader
  node := fun _ => ⟨fun _ => rfl, fun _ => .inl rfl, fun _ => rfl, Nat.le_refl _⟩

/-- In every run whose steps meet the condition, the epochs tell leaders apart and never go
down. -/
theorem uniqueFence_of_fences (q : Quorum) (isLeader : Nat → Bool) (events : List FencingEvent)
    (h : Guarded (step q) Fences (start q isLeader) events) :
    Always (step q) (UniqueFence q) (start q isLeader) events ∧
      NeverLowered q (start q isLeader) events := by
  constructor
  · exact h.always (fun _ hfenced => hfenced.uniqueFence)
      (fun _ event hfenced hfences => hfenced.step event hfences) fenced_start
  · intro i earlier later hevents
    subst hevents
    exact Guarded.le_run (f := fun s => s.epoch i)
      (fun s event hfences => s.epoch_le_step hfences) h

/-- The first controller wins the election of term 1 with the vote of the second. -/
def firstElected : List FencingEvent :=
  [.electionTimeout 1 true .stored, .readTerm 1, .sendVoteRequest 1 0,
    .handleVoteRequest 2 ⟨1, 1, 0⟩ openView .stored, .store 2 1, .voteGranted 1,
    .voteMissing 1, .tally 1, .store 1 1]

/-- The third controller hears of the first one. -/
theorem uniqueFence_firstElected :
    Always (step Cluster.threeControllers) (UniqueFence Cluster.threeControllers)
        (start Cluster.threeControllers fun _ => false)
        (firstElected ++ [.beginHeartbeat 1, .sendHeartbeat 1, .handleHeartbeat 3 (1, 1),
          .store 3 1]) ∧
      NeverLowered Cluster.threeControllers (start Cluster.threeControllers fun _ => false)
        (firstElected ++ [.beginHeartbeat 1, .sendHeartbeat 1, .handleHeartbeat 3 (1, 1),
          .store 3 1]) :=
  uniqueFence_of_fences _ _ _ (by decide +kernel)

/-- The third controller, which has not heard of the first, wins the election of term 2, again
with the vote of the second. -/
def thirdElected : List FencingEvent :=
  [.electionTimeout 3 true .stored, .readTerm 3, .voteMissing 3, .voteMissing 3, .tally 3,
    .electionTimeout 3 true .stored, .readTerm 3, .voteMissing 3, .sendVoteRequest 3 0,
    .handleVoteRequest 2 ⟨3, 2, 0⟩ { openView with epoch := 1 } .stored, .store 2 2,
    .voteGranted 3, .tally 3, .store 3 2]

/-- The heartbeat of the new leader gives its epoch to the old one, which goes on leading. -/
theorem not_uniqueFence_heartbeat :
    ¬ Always (step Cluster.threeControllers) (UniqueFence Cluster.threeControllers)
      (start Cluster.threeControllers fun _ => false)
      (firstElected ++ thirdElected ++
        [.beginHeartbeat 3, .sendHeartbeat 3, .handleHeartbeat 1 (3, 2), .store 1 2]) := by
  intro h
  have hsame := h.run 1 (by decide) 3 (by decide) (by decide +kernel) (by decide +kernel)
    (by decide +kernel) (by decide +kernel)
  cases hsame

end FencedCluster

end Bifrox.Consensus

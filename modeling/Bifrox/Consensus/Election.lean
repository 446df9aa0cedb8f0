/-
Elections among the controllers (`start_election_timeout_loop` in `src/replication/mod.rs`).

Between any two steps of its election a controller may answer requests, step down, crash and
restart.  Requests may be delayed, reordered, delivered again or never.
-/
import Bifrox.Consensus.Controller
import Bifrox.Lib.Run

namespace Bifrox.Consensus

open Function List
open Ballot (Register Carried)
open Run (run Always Guarded)
open Controller

/-! ## Controllers and their network -/

/-- A fixed set of controllers.  The peers of each are all the others, each of them once. -/
structure Quorum where
  ids : Finset Nat
  peers : Nat → List Nat
  nodup_peers : ∀ i ∈ ids, (peers i).Nodup
  mem_peers : ∀ i ∈ ids, ∀ j, j ∈ peers i ↔ j ∈ ids ∧ j ≠ i

inductive Phase where
  | idle
  /-- The timeout has made the controller a candidate. -/
  | started
  /-- The peers that are still to be asked, and the votes so far. -/
  | asking (term votes : Nat) (peers : List Nat)

structure Node where
  controller : Controller
  phase : Phase

structure Grant where
  voter : Nat
  candidate : Nat
  term : Nat
deriving DecidableEq

/-- The controllers, what was ever sent between them, and what has come to pass: the
candidacies and the elections, each with its term. -/
structure Cluster where
  nodes : Nat → Node
  requests : List (Nat × VoteRequest)
  grants : List Grant
  candidacies : List (Nat × Nat)
  elected : List (Nat × Nat)

/-- Named, so that it is decided through one instance everywhere whether a request was sent. -/
instance instLawfulBEqRequest : LawfulBEq (Nat × VoteRequest) := inferInstance

inductive Event where
  | electionTimeout (i : Nat) (elapsed : Bool) (persist : Persist)
  | readTerm (i : Nat)
  | sendVoteRequest (i : Nat) (lastLogIndex : Nat)
  | handleVoteRequest (i : Nat) (request : VoteRequest) (view : VoterView) (persist : Persist)
  | voteGranted (i : Nat)
  | voteMissing (i : Nat)
  | tally (i : Nat)
  | stepDown (i : Nat) (observedEpoch : Nat) (persist : Persist)
  | leaderHeartbeat (i : Nat) (term : Nat) (persist : Persist)
  | restart (i : Nat)

def Event.node : Event → Nat
  | .electionTimeout i _ _ | .readTerm i | .sendVoteRequest i _ | .handleVoteRequest i _ _ _
  | .voteGranted i | .voteMissing i | .tally i | .stepDown i _ _ | .leaderHeartbeat i _ _
  | .restart i => i

namespace Cluster

def start (q : Quorum) (isLeader : Nat → Bool) : Cluster where
  nodes := fun i => { controller := boot i ((q.peers i).length + 1) (isLeader i), phase := .idle }
  requests := []
  grants := []
  candidacies := []
  elected := []

def put (s : Cluster) (i : Nat) (node : Node) : Cluster :=
  { s with nodes := update s.nodes i node }

def putController (s : Cluster) (i : Nat) (controller : Controller) : Cluster :=
  s.put i { controller := controller, phase := (s.nodes i).phase }

def putPhase (s : Cluster) (i : Nat) (phase : Phase) : Cluster :=
  s.put i { controller := (s.nodes i).controller, phase := phase }

/-- An event of a controller.  What is not possible where it is changes nothing. -/
def act (q : Quorum) (s : Cluster) : Event → Cluster
  | .electionTimeout i elapsed persist =>
    match (s.nodes i).phase with
    | .idle =>
      let result := (s.nodes i).controller.checkElectionTimeout elapsed persist
      if result.2 then
        { s.put i { controller := result.1, phase := .started } with
          candidacies := (i, result.1.currentTerm) :: s.candidacies }
      else s.putController i result.1
    | .started | .asking _ _ _ => s
  | .readTerm i =>
    match (s.nodes i).phase with
    -- one vote is the candidate's own
    | .started => s.putPhase i (.asking (s.nodes i).controller.currentTerm 1 (q.peers i))
    | .idle | .asking _ _ _ => s
  | .sendVoteRequest i lastLogIndex =>
    match (s.nodes i).phase with
    | .asking term _ (peer :: _) =>
      { s with requests :=
          (peer, { candidateId := i, term := term, candidateLastLogIndex := lastLogIndex }) ::
            s.requests }
    | .idle | .started | .asking _ _ [] => s
  | .handleVoteRequest i request view persist =>
    if (i, request) ∈ s.requests then
      let result := (s.nodes i).controller.handleVoteRequest view request persist
      if result.2 then
        { s.putController i result.1 with
          grants := { voter := i, candidate := request.candidateId, term := request.term } ::
            s.grants }
      else s.putController i result.1
    else s
  | .voteGranted i =>
    match (s.nodes i).phase with
    | .asking term votes (peer :: peers) =>
      if { voter := peer, candidate := i, term := term } ∈ s.grants then
        s.putPhase i (.asking term (votes + 1) peers)
      else s
    | .idle | .started | .asking _ _ [] => s
  | .voteMissing i =>
    match (s.nodes i).phase with
    | .asking term votes (_ :: peers) => s.putPhase i (.asking term votes peers)
    | .idle | .started | .asking _ _ [] => s
  | .tally i =>
    match (s.nodes i).phase with
    | .asking _ votes [] =>
      let result := (s.nodes i).controller.tallyElectionVotes votes
      if result.2 then
        { s.put i { controller := result.1, phase := .idle } with
          elected := (i, result.1.currentTerm) :: s.elected }
      else s.put i { controller := result.1, phase := .idle }
    | .idle | .started | .asking _ _ (_ :: _) => s
  | .stepDown i observedEpoch persist =>
    s.putController i ((s.nodes i).controller.stepDownToFollower observedEpoch persist)
  | .leaderHeartbeat i term persist =>
    s.putController i ((s.nodes i).controller.handleLeaderHeartbeat term persist).1
  | .restart i => s.put i { controller := (s.nodes i).controller.restart, phase := .idle }

def step (q : Quorum) (s : Cluster) (event : Event) : Cluster :=
  if event.node ∈ q.ids then s.act q event else s

/-- The condition on a step: no election starts from the last term. -/
def HasNextTerm (s : Cluster) : Event → Prop
  | .electionTimeout i _ _ => (s.nodes i).controller.currentTerm + 1 < 2 ^ 64
  | .readTerm _ | .sendVoteRequest .. | .handleVoteRequest .. | .voteGranted _ | .voteMissing _
  | .tally _ | .stepDown .. | .leaderHeartbeat .. | .restart _ => True

instance (s : Cluster) : (event : Event) → Decidable (s.HasNextTerm event)
  | .electionTimeout .. => inferInstanceAs (Decidable (_ < _))
  | .readTerm _ | .sendVoteRequest .. | .handleVoteRequest .. | .voteGranted _ | .voteMissing _
  | .tally _ | .stepDown .. | .leaderHeartbeat .. | .restart _ => instDecidableTrue

/-- No two controllers became leader of the same term. -/
def AtMostOneLeader (s : Cluster) : Prop :=
  ∀ e ∈ s.elected, ∀ e' ∈ s.elected, e.2 = e'.2 → e.1 = e'.1

/-! ## The invariant -/

/-- The voter has voted for the candidate: it has granted a request, or is the candidate. -/
def Cast (s : Cluster) (term voter candidate : Nat) : Prop :=
  { voter := voter, candidate := candidate, term := term } ∈ s.grants ∨
    voter = candidate ∧ (candidate, term) ∈ s.candidacies

/-- The votes of an election are grants of peers that were asked, and while the controller is
still a candidate they are of its term. -/
def Counted (q : Quorum) (s : Cluster) (i : Nat) (node : Node) : Prop :=
  ∀ term votes peers, node.phase = .asking term votes peers →
    (node.controller.state = .candidate → term = node.controller.currentTerm) ∧
    ∃ asked, q.peers i = asked ++ peers ∧ votes ≤ (asked.filter fun peer =>
        { voter := peer, candidate := i, term := term } ∈ s.grants).length + 1

structure NodeSafe (q : Quorum) (s : Cluster) (i : Nat) (node : Node) : Prop where
  sound : node.controller.Sound
  nodeId : node.controller.nodeId = i
  clusterSize : node.controller.clusterSize = q.ids.card
  standing : node.controller.state = .candidate → (i, node.controller.currentTerm) ∈ s.candidacies
  counted : Counted q s i node

structure Safe (q : Quorum) (s : Cluster) : Prop where
  node : ∀ i ∈ q.ids, NodeSafe q s i (s.nodes i)
  backed : ∀ t v c, s.Cast t v c → (s.nodes v).controller.file.Backs c t
  unique : ∀ t v c c', s.Cast t v c → s.Cast t v c' → c = c'
  carried : ∀ e ∈ s.elected, Carried q.ids (s.Cast e.2) e.1

theorem Safe.atMostOneLeader {q : Quorum} {s : Cluster} (h : Safe q s) : s.AtMostOneLeader := by
  intro e he e' he' hterm
  have hcarried' := h.carried e' he'
  rw [← hterm] at hcarried'
  exact Ballot.eq_of_carried (h.unique e.2) (h.carried e he) hcarried'

/-! ## One event -/

section Step

variable {q : Quorum} {s s' : Cluster} {i : Nat} {node : Node}

structure Grows (s s' : Cluster) : Prop where
  grants : s.grants ⊆ s'.grants
  candidacies : s.candidacies ⊆ s'.candidacies

theorem Grows.cast (h : s.Grows s') {t v c : Nat} (hcast : s.Cast t v c) : s'.Cast t v c :=
  hcast.imp (fun hgrant => h.grants hgrant) (And.imp_right fun hself => h.candidacies hself)

theorem Counted.grows (h : Counted q s i node) (hgrows : s.Grows s') : Counted q s' i node := by
  intro term votes peers hphase
  obtain ⟨hterm, asked, hpeers, hvotes⟩ := h term votes peers hphase
  refine ⟨hterm, asked, hpeers, hvotes.trans (Nat.succ_le_succ (List.Sublist.length_le ?_))⟩
  refine monotone_filter_right asked fun peer hpeer => ?_
  exact decide_eq_true (hgrows.grants (of_decide_eq_true hpeer))

theorem NodeSafe.grows (h : NodeSafe q s i node) (hgrows : s.Grows s') : NodeSafe q s' i node where
  sound := h.sound
  nodeId := h.nodeId
  clusterSize := h.clusterSize
  standing := fun hstate => hgrows.candidacies (h.standing hstate)
  counted := h.counted.grows hgrows

/-- One controller changes, and the votes that are new are on record in its file. -/
theorem Safe.update (h : Safe q s) (hi : i ∈ q.ids) (hgrows : s.Grows s')
    (hnodes : s'.nodes = update s.nodes i node) (hnode : NodeSafe q s' i node)
    (hadv : (s.nodes i).controller.file.Advances node.controller.file)
    (hnew : ∀ t v c, s'.Cast t v c →
      s.Cast t v c ∨ v = i ∧ node.controller.file = { term := t, vote := some c })
    (helected : ∀ e ∈ s'.elected, e ∈ s.elected ∨ Carried q.ids (s'.Cast e.2) e.1) :
    Safe q s' where
  node := by
    intro j hj
    rw [hnodes]
    by_cases hji : j = i
    · subst hji
      rw [update_self]
      exact hnode
    · rw [update_of_ne hji]
      exact (h.node j hj).grows hgrows
  backed := by
    intro t v c hcast
    rw [hnodes]
    rcases hnew t v c hcast with hold | ⟨rfl, hfile⟩
    · by_cases hvi : v = i
      · subst hvi
        rw [update_self]
        exact (h.backed t v c hold).advances hadv
      · rw [update_of_ne hvi]
        exact h.backed t v c hold
    · rw [update_self, hfile]
      exact .inr ⟨rfl, rfl⟩
  unique := by
    intro t v c c' hcast hcast'
    rcases hnew t v c hcast with hold | ⟨hv, hfile⟩
    · rcases hnew t v c' hcast' with hold' | ⟨rfl, hfile'⟩
      · exact h.unique t v c c' hold hold'
      · rw [hfile'] at hadv
        exact Register.eq_of_backs (h.backed t v c hold) hadv
    · rcases hnew t v c' hcast' with hold' | ⟨-, hfile'⟩
      · subst hv
        rw [hfile] at hadv
        exact (Register.eq_of_backs (h.backed t v c' hold') hadv).symm
      · rw [hfile] at hfile'
        exact Option.some.inj (congrArg Register.vote hfile')
  carried := by
    intro e he
    rcases helected e he with hold | hnew'
    · exact (h.carried e hold).imp fun v hcast => hgrows.cast hcast
    · exact hnew'

theorem Safe.put (h : Safe q s) (hi : i ∈ q.ids) (hnode : NodeSafe q s i node)
    (hadv : (s.nodes i).controller.file.Advances node.controller.file) : Safe q (s.put i node) :=
  h.update hi ⟨fun _ hg => hg, fun _ hc => hc⟩ rfl
    (hnode.grows ⟨fun _ hg => hg, fun _ hc => hc⟩) hadv
    (fun _ _ _ hcast => .inl hcast) (fun _ he => .inl he)

theorem NodeSafe.follows (h : NodeSafe q s i node) {n : Controller}
    (hn : node.controller.Follows n) :
    NodeSafe q s i { controller := n, phase := node.phase } where
  sound := hn.sound
  nodeId := hn.nodeId.trans h.nodeId
  clusterSize := hn.clusterSize.trans h.clusterSize
  standing := by
    intro hstate
    obtain ⟨hcandidate, hterm⟩ := hn.candidate hstate
    rw [hterm]
    exact h.standing hcandidate
  counted := by
    intro term votes peers hphase
    obtain ⟨hterm, hasked⟩ := h.counted term votes peers hphase
    refine ⟨fun hstate => ?_, hasked⟩
    obtain ⟨hcandidate, hsame⟩ := hn.candidate hstate
    exact (hterm hcandidate).trans hsame.symm

theorem NodeSafe.phase (h : NodeSafe q s i node) {phase : Phase}
    (hcounted : Counted q s i { controller := node.controller, phase := phase }) :
    NodeSafe q s i { controller := node.controller, phase := phase } where
  sound := h.sound
  nodeId := h.nodeId
  clusterSize := h.clusterSize
  standing := h.standing
  counted := hcounted

theorem counted_idle (n : Controller) : Counted q s i { controller := n, phase := .idle } :=
  fun _ _ _ hphase => by cases hphase

section

variable (h : Safe q s) (hi : i ∈ q.ids)
include h hi

theorem Safe.putController {n : Controller}
    (hn : (s.nodes i).controller.Follows n) : Safe q (s.putController i n) :=
  h.put hi ((h.node i hi).follows hn) hn.advances

theorem Safe.putPhase {phase : Phase}
    (hcounted : Counted q s i { controller := (s.nodes i).controller, phase := phase }) :
    Safe q (s.putPhase i phase) :=
  h.put hi ((h.node i hi).phase hcounted) (Register.Advances.refl _)

/-- A candidacy is a vote of the candidate for itself. -/
theorem Safe.electionTimeout (elapsed : Bool) (persist : Persist)
    (hnext : (s.nodes i).controller.currentTerm + 1 < 2 ^ 64) :
    Safe q (s.act q (.electionTimeout i elapsed persist)) := by
  have hnode := h.node i hi
  obtain ⟨hsound, hid, hsize, hadv, hstarted, hfollows⟩ :=
    checkElectionTimeout_spec hnode.sound hnext
  rw [act]
  split
  · dsimp only
    split
    · next hresult =>
      refine h.update hi ⟨fun _ hg => hg, subset_cons_self _ _⟩ rfl ?_ hadv ?_ fun _ he => .inl he
      · exact ⟨hsound, hid.trans hnode.nodeId, hsize.trans hnode.clusterSize,
          fun _ => mem_cons_self, fun _ _ _ hphase => (by cases hphase)⟩
      · rintro t v c (hgrant | ⟨rfl, hself⟩)
        · exact .inl (.inl hgrant)
        · rcases mem_cons.mp hself with heq | hold
          · obtain ⟨rfl, rfl⟩ := Prod.mk.inj heq
            exact .inr ⟨rfl, (hstarted hresult).trans (by rw [hnode.nodeId])⟩
          · exact .inl (.inr ⟨rfl, hold⟩)
    · next hresult => exact h.putController hi (hfollows (Bool.eq_false_iff.mpr hresult))
  · exact h
  · exact h

theorem Safe.handleVoteRequest (request : VoteRequest) (view : VoterView) (persist : Persist) :
    Safe q (s.act q (.handleVoteRequest i request view persist)) := by
  have hnode := h.node i hi
  obtain ⟨hfollows, hgranted⟩ := handleVoteRequest_spec hnode.sound
  rw [act]
  split
  · dsimp only
    split
    · next hresult =>
      have hgrows : s.Grows { s.putController i
          ((s.nodes i).controller.handleVoteRequest view request persist).1 with
          grants := { voter := i, candidate := request.candidateId, term := request.term } ::
            s.grants } := ⟨subset_cons_self _ _, fun _ hc => hc⟩
      refine h.update hi hgrows rfl ((hnode.follows hfollows).grows hgrows) hfollows.advances ?_
        fun _ he => .inl he
      rintro t v c (hgrant | hself)
      · rcases mem_cons.mp hgrant with heq | hold
        · cases heq
          exact .inr ⟨rfl, hgranted hresult⟩
        · exact .inl (.inl hold)
      · exact .inl (.inr hself)
    · exact h.putController hi hfollows
  · exact h

theorem Safe.readTerm : Safe q (s.act q (.readTerm i)) := by
  rw [act]
  split
  · refine h.putPhase hi fun term votes peers hphase => ?_
    cases hphase
    exact ⟨fun _ => rfl, [], rfl, Nat.le_refl _⟩
  · exact h
  · exact h

theorem Safe.putAsking {term votes votes' peer : Nat}
    {peers : List Nat} (hphase : (s.nodes i).phase = .asking term votes (peer :: peers))
    (hvotes' : votes' ≤ votes + ([peer].filter fun peer =>
      { voter := peer, candidate := i, term := term } ∈ s.grants).length) :
    Safe q (s.putPhase i (.asking term votes' peers)) := by
  refine h.putPhase hi fun term' votes'' peers' hphase' => ?_
  cases hphase'
  obtain ⟨hterm, asked, hpeers, hvotes⟩ := (h.node i hi).counted _ _ _ hphase
  refine ⟨hterm, asked ++ [peer], hpeers.trans (append_cons _ _ _), ?_⟩
  rw [filter_append, length_append]
  omega

theorem Safe.voteGranted : Safe q (s.act q (.voteGranted i)) := by
  rw [act]
  split
  · next hphase =>
    split
    · next hgrant => exact h.putAsking hi hphase (by simp [hgrant])
    · exact h
  all_goals exact h

theorem Safe.voteMissing : Safe q (s.act q (.voteMissing i)) := by
  rw [act]
  split
  · next hphase => exact h.putAsking hi hphase (Nat.le_add_right _ _)
  all_goals exact h

end

/-- The peers that have granted a request, and the candidate itself. -/
theorem NodeSafe.carried (h : NodeSafe q s i node) (hi : i ∈ q.ids) {term votes : Nat}
    (hphase : node.phase = .asking term votes []) (hstate : node.controller.state = .candidate)
    (hvotes : node.controller.clusterSize / 2 + 1 ≤ votes) :
    Carried q.ids (s.Cast node.controller.currentTerm) i := by
  obtain ⟨hterm, asked, hpeers, hcount⟩ := h.counted term votes [] hphase
  rw [append_nil] at hpeers
  obtain rfl := hterm hstate
  obtain ⟨hnodup, hmem⟩ := And.intro (q.nodup_peers i hi) (q.mem_peers i hi)
  rw [hpeers] at hnodup hmem
  let granted := asked.filter fun peer =>
    { voter := peer, candidate := i, term := node.controller.currentTerm } ∈ s.grants
  replace hcount : votes ≤ granted.length + 1 := hcount
  have hpeer : ∀ v ∈ granted, (v ∈ q.ids ∧ v ≠ i) ∧
      { voter := v, candidate := i, term := node.controller.currentTerm } ∈ s.grants := by
    intro v hv
    obtain ⟨hasked, hgrant⟩ := mem_filter.mp hv
    exact ⟨(hmem v).mp hasked, of_decide_eq_true hgrant⟩
  have hcard : (insert i granted.toFinset).card = granted.length + 1 := by
    rw [Finset.card_insert_of_notMem, toFinset_card_of_nodup (hnodup.filter _)]
    rw [mem_toFinset]
    exact fun hself => (hpeer i hself).1.2 rfl
  refine ⟨insert i granted.toFinset, ?_, ?_, ?_⟩
  · refine Finset.insert_subset hi fun v hv => ?_
    exact (hpeer v (mem_toFinset.mp hv)).1.1
  · have hsize := h.clusterSize
    rw [hcard]
    omega
  · intro v hv
    rcases Finset.mem_insert.mp hv with rfl | hv
    · exact .inr ⟨rfl, h.standing hstate⟩
    · exact .inl (hpeer v (mem_toFinset.mp hv)).2

theorem Safe.tally (h : Safe q s) (hi : i ∈ q.ids) : Safe q (s.act q (.tally i)) := by
  have hnode := h.node i hi
  rw [act]
  split
  · next term votes hphase =>
    obtain ⟨hfollows, hcarried⟩ := tallyElectionVotes_spec hnode.sound
    have hidle : NodeSafe q s i
        { controller := ((s.nodes i).controller.tallyElectionVotes votes).1, phase := .idle } :=
      (hnode.follows hfollows).phase (counted_idle _)
    dsimp only
    split
    · next hresult =>
      refine h.update hi ⟨fun _ hg => hg, fun _ hc => hc⟩ rfl
        (hidle.grows ⟨fun _ hg => hg, fun _ hc => hc⟩) hfollows.advances
        (fun _ _ _ hcast => .inl hcast) fun e he => ?_
      rcases mem_cons.mp he with rfl | hold
      · rw [currentTerm_tallyElectionVotes]
        exact .inr (hnode.carried hi hphase (hcarried hresult).1 (hcarried hresult).2)
      · exact .inl hold
    · exact h.put hi hidle hfollows.advances
  · exact h
  · exact h
  · exact h

theorem Safe.step (h : Safe q s) (event : Event) (hnext : s.HasNextTerm event) :
    Safe q (s.step q event) := by
  rw [Cluster.step]
  split
  · next hi =>
    cases event with
    | electionTimeout i elapsed persist => exact h.electionTimeout hi elapsed persist hnext
    | readTerm => exact h.readTerm hi
    | sendVoteRequest =>
      rw [act]
      split
      · exact ⟨fun j hj => (h.node j hj).grows ⟨fun _ hg => hg, fun _ hc => hc⟩, h.backed, h.unique,
          h.carried⟩
      · exact h
      · exact h
      · exact h
    | handleVoteRequest i request view persist => exact h.handleVoteRequest hi request view persist
    | voteGranted => exact h.voteGranted hi
    | voteMissing => exact h.voteMissing hi
    | tally => exact h.tally hi
    | stepDown i observedEpoch persist =>
      have hsound := (h.node i hi).sound
      refine h.putController hi ?_
      rw [stepDownToFollower]
      split
      · next hlater =>
        exact follows_persistOrDemote ((s.nodes i).controller.adopt observedEpoch)
          (fun vote hvote => absurd hvote.symm (Option.some_ne_none _))
          (hsound.advances_of_lt hlater)
          (fun hstate => by cases hstate) ⟨rfl, rfl, rfl⟩ persist
      · exact hsound.follows
    | leaderHeartbeat i term persist =>
      exact h.putController hi (follows_handleLeaderHeartbeat (h.node i hi).sound)
    | restart i =>
      have hfollows := follows_restart (s.nodes i).controller
      exact h.put hi (((h.node i hi).follows hfollows).phase (counted_idle _)) hfollows.advances
  · exact h

/-! ## Votes and requests that are new -/

theorem messages_act (q : Quorum) (s : Cluster) (event : Event) :
    let s' := s.act q event
    (s'.grants = s.grants ∧ s'.requests = s.requests) ∨
      (∃ i request view persist, event = .handleVoteRequest i request view persist ∧
      (i, request) ∈ s.requests ∧ view.lastLogIndex ≤ request.candidateLastLogIndex ∧
      s'.grants = ⟨i, request.candidateId, request.term⟩ :: s.grants ∧ s'.requests = s.requests) ∨
      ∃ r : Nat × VoteRequest, event = .sendVoteRequest r.2.candidateId r.2.candidateLastLogIndex ∧
      s'.grants = s.grants ∧ s'.requests = r :: s.requests := by
  cases event with
  | handleVoteRequest i request view persist =>
    rw [act]
    split
    · next hrequest =>
      dsimp only
      split
      · next hresult =>
        refine .inr (.inl ⟨i, request, view, persist, rfl, hrequest, ?_, rfl, rfl⟩)
        rw [Controller.handleVoteRequest] at hresult
        split at hresult
        · cases hresult
        · split at hresult
          · next hcovered => exact hcovered.2
          · cases hresult
      · exact .inl ⟨rfl, rfl⟩
    · exact .inl ⟨rfl, rfl⟩
  | sendVoteRequest =>
    rw [act]
    split
    · exact .inr (.inr ⟨_, rfl, rfl, rfl⟩)
    all_goals exact .inl ⟨rfl, rfl⟩
  | electionTimeout i elapsed persist | tally i =>
    left
    rw [act]
    split
    · dsimp only
      split <;> exact ⟨rfl, rfl⟩
    all_goals exact ⟨rfl, rfl⟩
  | voteGranted =>
    left
    rw [act]
    split
    · split <;> exact ⟨rfl, rfl⟩
    all_goals exact ⟨rfl, rfl⟩
  | readTerm i | voteMissing i =>
    left
    rw [act]
    split <;> exact ⟨rfl, rfl⟩
  | stepDown i observedEpoch persist | leaderHeartbeat i term persist | restart i =>
    exact .inl ⟨rfl, rfl⟩

/-- A vote that is new is a candidate's for itself, or of a voter that saw its own log covered. -/
theorem cast_step {event : Event} {t v c : Nat} (h : (s.step q event).Cast t v c) :
    s.Cast t v c ∨ c = v ∨ ∃ request view persist,
      event = .handleVoteRequest v request view persist ∧ (v, request) ∈ s.requests ∧
        request.candidateId = c ∧ view.lastLogIndex ≤ request.candidateLastLogIndex := by
  rcases h with hgrant | ⟨hself, -⟩
  swap
  · exact .inr (.inl hself.symm)
  rw [step] at hgrant
  split at hgrant
  swap
  · exact .inl (.inl hgrant)
  rcases messages_act q s event with ⟨hsame, -⟩ |
    ⟨i, request, view, persist, rfl, hrequest, hcovered, hnew, -⟩ | ⟨r, -, hsame, -⟩
  · exact .inl (.inl (hsame ▸ hgrant))
  · rw [hnew] at hgrant
    rcases mem_cons.mp hgrant with heq | hold
    · cases heq
      exact .inr (.inr ⟨request, view, persist, rfl, hrequest, rfl, hcovered⟩)
    · exact .inl (.inl hold)
  · exact .inl (.inl (hsame ▸ hgrant))

theorem requests_step {event : Event} {r : Nat × VoteRequest} (h : r ∈ (s.step q event).requests) :
    r ∈ s.requests ∨ event = .sendVoteRequest r.2.candidateId r.2.candidateLastLogIndex := by
  rw [step] at h
  split at h
  swap
  · exact .inl h
  rcases messages_act q s event with ⟨-, hsame⟩ | ⟨-, -, -, -, -, -, -, -, hsame⟩ |
    ⟨r', rfl, -, hnew⟩
  · exact .inl (hsame ▸ h)
  · exact .inl (hsame ▸ h)
  · rw [hnew] at h
    rcases mem_cons.mp h with rfl | hold
    · exact .inr rfl
    · exact .inl hold

end Step

/-! ## Runs -/

theorem length_peers (q : Quorum) {i : Nat} (hi : i ∈ q.ids) :
    (q.peers i).length + 1 = q.ids.card := by
  have hpeers : (q.peers i).toFinset = q.ids.erase i := by
    ext j
    rw [mem_toFinset, q.mem_peers i hi, Finset.mem_erase, and_comm]
  rw [← toFinset_card_of_nodup (q.nodup_peers i hi), hpeers, Finset.card_erase_add_one hi]

theorem safe_start (q : Quorum) (isLeader : Nat → Bool) : Safe q (start q isLeader) where
  node := by
    intro i hi
    exact ⟨sound_boot, rfl, length_peers q hi,
      fun hstate => absurd hstate state_boot_ne, counted_idle _⟩
  backed := by
    rintro t v c (hgrant | ⟨-, hself⟩)
    · cases hgrant
    · cases hself
  unique := by
    rintro t v c c' (hgrant | ⟨-, hself⟩)
    · cases hgrant
    · cases hself
  carried := fun e he => absurd he not_mem_nil

/-- At most one controller becomes leader of a term, in every run in which no election starts
from the last term. -/
theorem electionSafety (q : Quorum) (isLeader : Nat → Bool) (events : List Event)
    (h : Guarded (step q) HasNextTerm (start q isLeader) events) :
    Always (step q) AtMostOneLeader (start q isLeader) events :=
  h.always (fun _ hsafe => hsafe.atMostOneLeader)
    (fun _ event hsafe hnext => hsafe.step event hnext) (safe_start q isLeader)

def threeControllers : Quorum where
  ids := {1, 2, 3}
  peers := fun i => [1, 2, 3].erase i
  nodup_peers := by decide
  mem_peers := by
    intro i hi j
    rw [List.Nodup.mem_erase_iff (by decide)]
    simp only [Finset.mem_insert, Finset.mem_singleton, mem_cons, not_mem_nil, or_false]
    exact and_comm

def openView : VoterView where
  sameCluster := true
  hasPeers := true
  isController := true
  epoch := 0
  lastLogIndex := 0

/-- The first controller wins the election of term 1 with the vote of the second. -/
def firstElection : List Event :=
  [.electionTimeout 1 true .stored, .readTerm 1, .sendVoteRequest 1 0,
    .handleVoteRequest 2 ⟨1, 1, 0⟩ openView .stored, .voteGranted 1, .voteMissing 1, .tally 1]

theorem electionSafety_firstElection :
    (run (step threeControllers) (start threeControllers fun _ => false) firstElection).elected =
        [(1, 1)] ∧
      Always (step threeControllers) AtMostOneLeader (start threeControllers fun _ => false)
        firstElection :=
  ⟨by decide +kernel, electionSafety _ _ _ (by decide +kernel)⟩

/-- The second controller steps down for an epoch that is the last term.  Its next election is in
term 0, and the one after that in term 1 again. -/
def secondElection : List Event :=
  [.stepDown 2 (2 ^ 64 - 1) .stored, .electionTimeout 2 true .stored, .readTerm 2, .voteMissing 2,
    .voteMissing 2, .tally 2, .electionTimeout 2 true .stored, .readTerm 2, .voteMissing 2,
    .sendVoteRequest 2 0, .handleVoteRequest 3 ⟨2, 1, 0⟩ openView .stored, .voteGranted 2, .tally 2]

theorem not_atMostOneLeader_secondElection :
    ¬ Always (step threeControllers) AtMostOneLeader (start threeControllers fun _ => false)
      (firstElection ++ secondElection) := by
  intro h
  have hsame := h.run (1, 1) (by decide +kernel) (2, 1) (by decide +kernel) rfl
  cases hsame

end Cluster

end Bifrox.Consensus

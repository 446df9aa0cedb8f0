/-
The consensus state of a controller (`src/replication/consensus.rs`) and the handler of vote
requests (`handle_vote_request` in `src/server/handler.rs`).

Terms are `u64` values: the one that is counted up wraps around.  The clocks are inputs, and so
is what the handler reads elsewhere.
-/
import Bifrox.Lib.Ballot
import Mathlib.Algebra.Group.Nat.Defs

namespace Bifrox.Consensus

open Option

open Ballot (Register)

/-! ## State -/

inductive ConsensusState where
  | follower
  | candidate
  | leader
deriving DecidableEq

/-- The hard state file: a term and the candidate that was voted for in it. -/
abbrev HardState := Register Nat

structure Controller where
  nodeId : Nat
  clusterSize : Nat
  state : ConsensusState
  currentTerm : Nat
  votedFor : Option (Nat × Nat)
  persistenceFailed : Bool
  file : HardState

/-- How a write of the hard state ends.  A write that fails may have replaced the file. -/
inductive Persist where
  | stored
  | failed (written : Bool)

namespace Controller

variable (n : Controller)

def hardState : HardState where
  term := n.currentTerm
  vote := n.votedFor.map Prod.snd

/-- `new_with_state`, and `enable_persistence` in a directory without a hard state file. -/
def boot (nodeId clusterSize : Nat) (isLeader : Bool) : Controller where
  nodeId := nodeId
  clusterSize := clusterSize
  state := if isLeader then .leader else .follower
  currentTerm := 0
  votedFor := if isLeader then some (0, nodeId) else none
  persistenceFailed := false
  file := { term := 0, vote := if isLeader then some nodeId else none }

/-- `enable_persistence` after a restart: the vote that is read is a vote in the term that is
read, and leadership has to be earned again. -/
def restart : Controller where
  nodeId := n.nodeId
  clusterSize := n.clusterSize
  state := if n.clusterSize = 1 then .leader else .follower
  currentTerm := n.file.term
  votedFor := n.file.vote.map fun candidate => (n.file.term, candidate)
  persistenceFailed := false
  file := n.file

def persistOrDemote : Persist → Controller × Bool
  | .stored => ({ n with file := n.hardState }, true)
  | .failed written =>
    ({ n with
        persistenceFailed := true
        state := .follower
        file := if written then n.hardState else n.file }, false)

/-! ## Operations -/

/-- `current_term += 1`. -/
def nextTerm : Nat := (n.currentTerm + 1) % 2 ^ 64

def checkElectionTimeout (elapsed : Bool) (persist : Persist) : Controller × Bool :=
  if n.persistenceFailed = false ∧ n.state ≠ .leader ∧ elapsed = true then
    { n with
      state := .candidate
      currentTerm := n.nextTerm
      votedFor := some (n.nextTerm, n.nodeId) }.persistOrDemote persist
  else (n, false)

/-- The votes are only a number: the tally knows neither their term nor who cast them. -/
def tallyElectionVotes (votes : Nat) : Controller × Bool :=
  if n.persistenceFailed = false ∧ n.state = .candidate ∧ n.clusterSize / 2 + 1 ≤ votes then
    ({ n with state := .leader }, true)
  else (n, false)

/-- A higher term: the vote of the old one is forgotten. -/
def adopt (term : Nat) : Controller :=
  { n with currentTerm := term, state := .follower, votedFor := none }

def recordVote (candidateId term : Nat) (persist : Persist) : Controller × Bool :=
  match n.votedFor with
  | some (votedTerm, votedCandidate) =>
    if votedTerm = term then (n, votedCandidate = candidateId)
    else { n with votedFor := some (term, candidateId) }.persistOrDemote persist
  | none => { n with votedFor := some (term, candidateId) }.persistOrDemote persist

def tryRecordVote (candidateId term : Nat) (persist : Persist) : Controller × Bool :=
  if n.persistenceFailed = true ∨ term < n.currentTerm then (n, false)
  else if n.currentTerm < term then (n.adopt term).recordVote candidateId term persist
  else n.recordVote candidateId term persist

def handleLeaderHeartbeat (term : Nat) (persist : Persist) : Controller × Bool :=
  if n.persistenceFailed = false ∧ n.currentTerm ≤ term then
    { n with
      votedFor := if n.currentTerm < term then none else n.votedFor
      currentTerm := term
      state := .follower }.persistOrDemote persist
  else (n, false)

/-- Unlike the others, this one goes on when the controller is fenced. -/
def stepDownToFollower (observedEpoch : Nat) (persist : Persist) : Controller :=
  if n.currentTerm < observedEpoch then ((n.adopt observedEpoch).persistOrDemote persist).1 else n

/-! ## Vote requests -/

structure VoteRequest where
  candidateId : Nat
  term : Nat
  candidateLastLogIndex : Nat
deriving DecidableEq

/-- What the handler reads besides the consensus state. -/
structure VoterView where
  sameCluster : Bool
  hasPeers : Bool
  isController : Bool
  epoch : Nat
  lastLogIndex : Nat

def handleVoteRequest (view : VoterView) (request : VoteRequest)
    (persist : Persist) : Controller × Bool :=
  if view.sameCluster = false ∨ view.hasPeers = false ∨ view.isController = false then (n, false)
  else if view.epoch ≤ request.term ∧ view.lastLogIndex ≤ request.candidateLastLogIndex then
    n.tryRecordVote request.candidateId request.term persist
  else (n, false)

/-! ## What an operation keeps -/

/-- The vote is one of the current term, and the file is not ahead of the memory. -/
structure Sound (n : Controller) : Prop where
  voted : ∀ vote, n.votedFor = some vote → vote.1 = n.currentTerm
  file_le : n.file.term ≤ n.currentTerm
  file_eq : n.persistenceFailed = false → n.file = n.hardState
  fenced : n.persistenceFailed = true → n.state ≠ .candidate

/-- What every operation of a controller does, the start of an election apart. -/
structure Follows (n n' : Controller) : Prop where
  sound : n'.Sound
  nodeId : n'.nodeId = n.nodeId
  clusterSize : n'.clusterSize = n.clusterSize
  advances : n.file.Advances n'.file
  candidate : n'.state = .candidate → n.state = .candidate ∧ n'.currentTerm = n.currentTerm

theorem Sound.follows {n : Controller} (h : n.Sound) : n.Follows n where
  sound := h
  nodeId := rfl
  clusterSize := rfl
  advances := Register.Advances.refl _
  candidate := fun hstate => ⟨hstate, rfl⟩

theorem sound_boot {nodeId clusterSize : Nat} {isLeader : Bool} :
    (boot nodeId clusterSize isLeader).Sound := by
  cases isLeader with
  | true =>
    refine ⟨fun vote hvote => ?_, Nat.le_refl _, fun _ => rfl, fun h => absurd h Bool.false_ne_true⟩
    rw [← some.inj hvote]
    rfl
  | false =>
    exact ⟨fun vote hvote => absurd hvote.symm (some_ne_none _), Nat.le_refl _, fun _ => rfl,
      fun h => absurd h Bool.false_ne_true⟩

theorem state_boot_ne {nodeId clusterSize : Nat} {isLeader : Bool} :
    (boot nodeId clusterSize isLeader).state ≠ .candidate := by
  cases isLeader <;> exact fun h => (by cases h)

theorem state_restart_ne : n.restart.state ≠ .candidate := by
  rw [restart]
  show (if n.clusterSize = 1 then _ else _) ≠ _
  split <;> decide

theorem follows_restart : n.Follows n.restart where
  sound := by
    refine ⟨fun vote hvote => ?_, Nat.le_refl _, fun _ => ?_, fun h => absurd h Bool.false_ne_true⟩
    · obtain ⟨candidate, -, rfl⟩ := map_eq_some_iff.mp hvote
      rfl
    · show n.file = { term := n.file.term, vote := (n.file.vote.map _).map Prod.snd }
      rw [map_map]
      exact congrArg (Register.mk n.file.term) (congrFun map_id n.file.vote).symm
  nodeId := rfl
  clusterSize := rfl
  advances := Register.Advances.refl _
  candidate := fun hstate => absurd hstate n.state_restart_ne

theorem persistOrDemote_sound {n : Controller} (hvoted : ∀ vote, n.votedFor = some vote →
      vote.1 = n.currentTerm) (hadv : n.file.Advances n.hardState)
    (hfenced : n.persistenceFailed = true → n.state ≠ .candidate) (persist : Persist) :
    (n.persistOrDemote persist).1.Sound ∧ n.file.Advances (n.persistOrDemote persist).1.file := by
  cases persist with
  | stored => exact ⟨⟨hvoted, Nat.le_refl _, fun _ => rfl, hfenced⟩, hadv⟩
  | failed written =>
    have hfile : n.file.Advances (if written then n.hardState else n.file) := by
      split
      · exact hadv
      · exact Register.Advances.refl _
    have hterm : (if written then n.hardState else n.file).term ≤ n.currentTerm := by
      split
      · exact Nat.le_refl _
      · exact hadv.le
    exact ⟨⟨hvoted, hterm, fun h => absurd h.symm Bool.false_ne_true, fun _ h => (by cases h)⟩,
      hfile⟩

theorem persistOrDemote_fields (persist : Persist) :
    let r := n.persistOrDemote persist
    r.1.nodeId = n.nodeId ∧ r.1.clusterSize = n.clusterSize ∧ r.1.currentTerm = n.currentTerm ∧
      (r.1.state = .candidate → n.state = .candidate) ∧ (r.2 = true → r.1.file = n.hardState) ∧
      (r.2 = false → r.1.state ≠ .candidate) := by
  cases persist with
  | stored => exact ⟨rfl, rfl, rfl, id, fun _ => rfl, fun h => absurd h.symm Bool.false_ne_true⟩
  | failed =>
    exact ⟨rfl, rfl, rfl, fun h => (by cases h), fun h => absurd h Bool.false_ne_true,
      fun _ h => (by cases h)⟩

theorem follows_persistOrDemote {n : Controller} (n' : Controller)
    (hvoted : ∀ vote, n'.votedFor = some vote → vote.1 = n'.currentTerm)
    (hadv : n.file.Advances n'.hardState)
    (hstate : n'.state = .candidate →
      n'.persistenceFailed = false ∧ n.state = .candidate ∧ n'.currentTerm = n.currentTerm)
    (hfields : n'.nodeId = n.nodeId ∧ n'.clusterSize = n.clusterSize ∧ n'.file = n.file)
    (persist : Persist) : n.Follows (n'.persistOrDemote persist).1 := by
  obtain ⟨hid, hsize, hfile⟩ := hfields
  rw [← hfile] at hadv
  have hsound := persistOrDemote_sound hvoted hadv
    (fun hfailed h => absurd ((hstate h).1.symm.trans hfailed) Bool.false_ne_true) persist
  obtain ⟨hid', hsize', hterm', hstate', -⟩ := n'.persistOrDemote_fields persist
  refine ⟨hsound.1, hid'.trans hid, hsize'.trans hsize, hfile ▸ hsound.2, fun h => ?_⟩
  exact ⟨(hstate (hstate' h)).2.1, hterm'.trans (hstate (hstate' h)).2.2⟩

section Operations

variable {n : Controller} {persist : Persist} {candidateId term : Nat}

/-- A term that was not reached before starts without a vote. -/
theorem Sound.advances_of_lt (h : n.Sound) {r : HardState} (hterm : n.currentTerm < r.term) :
    n.file.Advances r := .inl (Nat.lt_of_le_of_lt h.file_le hterm)

theorem lt_nextTerm (h : n.currentTerm + 1 < 2 ^ 64) : n.currentTerm < n.nextTerm := by
  rw [nextTerm, Nat.mod_eq_of_lt h]
  exact Nat.lt_succ_self _

/-- An election starts in a new term, with the vote of the controller itself on record. -/
theorem checkElectionTimeout_spec (h : n.Sound) (hnext : n.currentTerm + 1 < 2 ^ 64)
    {elapsed : Bool} :
    let r := n.checkElectionTimeout elapsed persist
    r.1.Sound ∧ r.1.nodeId = n.nodeId ∧ r.1.clusterSize = n.clusterSize ∧
      n.file.Advances r.1.file ∧
      (r.2 = true → r.1.file = { term := r.1.currentTerm, vote := some n.nodeId }) ∧
      (r.2 = false → n.Follows r.1) := by
  rw [checkElectionTimeout]
  split
  · next hstart =>
    have hadv : n.file.Advances { term := n.nextTerm, vote := some n.nodeId } :=
      h.advances_of_lt (lt_nextTerm hnext)
    let n' := { n with
      state := .candidate
      currentTerm := n.nextTerm
      votedFor := some (n.nextTerm, n.nodeId) }
    have hvoted : ∀ vote, n'.votedFor = some vote → vote.1 = n'.currentTerm := by
      intro vote hvote
      rw [← some.inj hvote]
    obtain ⟨hsound, hfile⟩ := persistOrDemote_sound (n := n') hvoted hadv
      (fun hfailed => absurd (hstart.1.symm.trans hfailed) Bool.false_ne_true) persist
    obtain ⟨hid, hsize, hterm, -, hstored, hdemoted⟩ := n'.persistOrDemote_fields persist
    refine ⟨hsound, hid, hsize, hfile, fun htrue => ?_, fun hfalse => ?_⟩
    · rw [hstored htrue, hterm]
      rfl
    · exact ⟨hsound, hid, hsize, hfile, fun hstate => absurd hstate (hdemoted hfalse)⟩
  · have hfollows := h.follows
    exact ⟨h, rfl, rfl, hfollows.advances, fun h => absurd h Bool.false_ne_true, fun _ => hfollows⟩

theorem follows_castVote {m : Controller} {candidateId : Nat}
    (hadv : n.file.Advances { term := m.currentTerm, vote := some candidateId })
    (hstate : m.state = .candidate →
      m.persistenceFailed = false ∧ n.state = .candidate ∧ m.currentTerm = n.currentTerm)
    (hfields : m.nodeId = n.nodeId ∧ m.clusterSize = n.clusterSize ∧ m.file = n.file) :
    n.Follows ({ m with votedFor := some (m.currentTerm, candidateId) }.persistOrDemote persist).1 ∧
      (({ m with votedFor := some (m.currentTerm, candidateId) }.persistOrDemote persist).2 = true →
        ({ m with votedFor := some (m.currentTerm, candidateId) }.persistOrDemote persist).1.file =
          { term := m.currentTerm, vote := some candidateId }) := by
  refine ⟨follows_persistOrDemote { m with votedFor := some (m.currentTerm, candidateId) }
    (fun vote hvote => ?_) hadv hstate hfields persist,
      (persistOrDemote_fields _ persist).2.2.2.2.1⟩
  rw [← some.inj hvote]

/-- The vote of a term is recorded once, and is in the file before it is granted. -/
theorem tryRecordVote_spec (h : n.Sound) :
    let r := n.tryRecordVote candidateId term persist
    n.Follows r.1 ∧ (r.2 = true → r.1.file = { term := term, vote := some candidateId }) := by
  rw [tryRecordVote]
  split
  · exact ⟨h.follows, fun hfalse => absurd hfalse Bool.false_ne_true⟩
  · next hopen =>
    rw [not_or, Bool.not_eq_true, Nat.not_lt] at hopen
    split
    · next hlater =>
      -- the higher term is adopted first, and has no vote yet
      exact follows_castVote (m := n.adopt term) (h.advances_of_lt hlater)
        (fun hstate => by cases hstate) ⟨rfl, rfl, rfl⟩
    · next hlater =>
      obtain rfl : term = n.currentTerm := by omega
      have hfile := h.file_eq hopen.1
      rw [recordVote]
      split
      · next votedTerm votedCandidate hvoted =>
        rw [if_pos (h.voted _ hvoted)]
        refine ⟨h.follows, fun hsame => ?_⟩
        rw [hfile, hardState, hvoted, ← of_decide_eq_true hsame]
        rfl
      · next hvoted =>
        refine follows_castVote ?_ (fun hstate => ⟨hopen.1, hstate, rfl⟩) ⟨rfl, rfl, rfl⟩
        rw [hfile, hardState, hvoted]
        exact .inr ⟨rfl, .inl rfl⟩

theorem handleVoteRequest_spec (h : n.Sound) {view : VoterView} {request : VoteRequest} :
    let r := n.handleVoteRequest view request persist
    n.Follows r.1 ∧ (r.2 = true → r.1.file =
      { term := request.term, vote := some request.candidateId }) := by
  have hdenied : n.Follows n ∧ (false = true → n.file =
      { term := request.term, vote := some request.candidateId }) :=
    ⟨h.follows, fun hfalse => absurd hfalse Bool.false_ne_true⟩
  rw [handleVoteRequest]
  split
  · exact hdenied
  · split
    · exact tryRecordVote_spec h
    · exact hdenied

theorem follows_handleLeaderHeartbeat (h : n.Sound) :
    n.Follows (n.handleLeaderHeartbeat term persist).1 := by
  rw [handleLeaderHeartbeat]
  split
  · next hterm =>
    refine follows_persistOrDemote (n := n) { n with
        votedFor := if n.currentTerm < term then none else n.votedFor
        currentTerm := term
        state := .follower } (fun vote hvote => ?_) ?_ (fun hstate => by cases hstate)
      ⟨rfl, rfl, rfl⟩ persist
    · by_cases hlater : n.currentTerm < term
      · rw [if_pos hlater] at hvote
        cases hvote
      · rw [if_neg hlater] at hvote
        have hsame := h.voted vote hvote
        have hle := hterm.2
        show vote.1 = term
        omega
    · by_cases hlater : n.currentTerm < term
      · exact h.advances_of_lt hlater
      · rw [h.file_eq hterm.1, hardState, hardState, if_neg hlater]
        exact .inr ⟨Nat.le_antisymm hterm.2 (Nat.not_lt.mp hlater), .inr rfl⟩
  · exact h.follows

theorem currentTerm_tallyElectionVotes {votes : Nat} :
    (n.tallyElectionVotes votes).1.currentTerm = n.currentTerm := by
  rw [tallyElectionVotes]
  split <;> rfl

theorem tallyElectionVotes_of_false {votes : Nat} (h : (n.tallyElectionVotes votes).2 = false) :
    (n.tallyElectionVotes votes).1 = n := by
  rw [tallyElectionVotes] at h ⊢
  split at h
  · cases h
  · next hnot => rw [if_neg hnot]

theorem tallyElectionVotes_spec (h : n.Sound) {votes : Nat} :
    n.Follows (n.tallyElectionVotes votes).1 ∧ ((n.tallyElectionVotes votes).2 = true →
        n.state = .candidate ∧ n.clusterSize / 2 + 1 ≤ votes) := by
  rw [tallyElectionVotes]
  split
  · next hcarried =>
    refine ⟨⟨⟨h.voted, h.file_le, h.file_eq, fun _ hstate => ?_⟩, rfl, rfl,
      Register.Advances.refl _, fun hstate => ?_⟩, fun _ => hcarried.2⟩
    · cases hstate
    · cases hstate
  · exact ⟨h.follows, fun hfalse => absurd hfalse Bool.false_ne_true⟩

/-! ## Keeping the lead -/

def KeepsLead (n n' : Controller) : Prop :=
  n'.state = .leader → n.state = .leader ∧ n'.currentTerm = n.currentTerm

theorem KeepsLead.refl (n : Controller) : n.KeepsLead n := fun h => ⟨h, rfl⟩

theorem keepsLead_persistOrDemote {n' : Controller} (h : n.KeepsLead n') :
    n.KeepsLead (n'.persistOrDemote persist).1 := by
  cases persist with
  | stored => exact h
  | failed => exact fun hlead => by cases hlead

theorem keepsLead_checkElectionTimeout (n : Controller) (elapsed : Bool) (persist : Persist) :
    n.KeepsLead (n.checkElectionTimeout elapsed persist).1 := by
  rw [checkElectionTimeout]
  split
  · exact keepsLead_persistOrDemote (fun hlead => by cases hlead)
  · exact KeepsLead.refl n

theorem state_checkElectionTimeout {elapsed : Bool}
    (h : (n.checkElectionTimeout elapsed persist).2 = true) :
    (n.checkElectionTimeout elapsed persist).1.state = .candidate := by
  rw [checkElectionTimeout] at h ⊢
  split at h
  · next hstart =>
    rw [if_pos hstart]
    cases persist with
    | stored => rfl
    | failed => cases h
  · cases h

theorem keepsLead_recordVote {n' : Controller} (h : n.KeepsLead n') :
    n.KeepsLead (n'.recordVote candidateId term persist).1 := by
  rw [recordVote]
  split
  · split
    · exact h
    · exact keepsLead_persistOrDemote h
  · exact keepsLead_persistOrDemote h

theorem keepsLead_handleVoteRequest (n : Controller) (view : VoterView) (request : VoteRequest)
    (persist : Persist) : n.KeepsLead (n.handleVoteRequest view request persist).1 := by
  have hkeep := KeepsLead.refl n
  rw [handleVoteRequest]
  split
  · exact hkeep
  · split
    · rw [tryRecordVote]
      split
      · exact hkeep
      · split
        · -- the term is adopted by a follower
          exact keepsLead_recordVote (fun hlead => by cases hlead)
        · exact keepsLead_recordVote hkeep
    · exact hkeep

end Operations

end Controller

end Bifrox.Consensus

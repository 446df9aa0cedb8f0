/-
Votes for a candidate whose metadata log is complete.

A candidate tells how much of its log it has applied, and a voter compares that with the end of
its own log: the two measures differ where a part of the log is not applied yet.
-/
import Bifrox.Replication.LeaderCompleteness

namespace Bifrox.Replication
namespace MetadataCluster

open List
open Consensus (Controller)
open Consensus.Controller (VoteRequest VoterView)
open Run (run)

variable (p : MetadataSetting) (s : MetadataCluster)

/-- What a controller with peers reads when it is asked for its vote. -/
def voterView (v : Nat) : VoterView where
  sameCluster := true
  hasPeers := true
  isController := true
  epoch := s.control.epoch v
  lastLogIndex := (s.log v).length

def voteRequest (c t : Nat) : VoteRequest where
  candidateId := c
  term := t
  candidateLastLogIndex := s.applied c

/-- Whether `v` grants its vote in term `t` to `c`, if it is asked now and can write it down. -/
def votesFor (v c t : Nat) : Bool :=
  ((s.control.controller v).handleVoteRequest (s.voterView v) (s.voteRequest c t) .stored).2

def votes (c t : Nat) : Nat :=
  1 + ((p.quorum.peers c).filter fun v => s.votesFor v c t).length

/-! ## Specification -/

structure Candidate (c t : Nat) : Prop where
  candidate : (s.control.controller c).state = .candidate
  asked : (s.control.cluster.nodes c).askedTerm = t

/-- The log of the candidate is that of the voter, and the voter is free to vote for it. -/
structure Complete (c v t : Nat) : Prop where
  log : s.log c = s.log v
  unvoted : ∀ vote, (s.control.controller v).votedFor = some vote → vote.1 ≠ t
  term_le : (s.control.controller v).currentTerm ≤ t
  epoch_le : s.control.epoch v ≤ t

/-- A majority has the log of the candidate, and is free to vote for it. -/
def CompleteForMajority (c t : Nat) : Prop :=
  ∃ voters, voters <+ p.quorum.peers c ∧ (∀ v ∈ voters, s.Complete c v t) ∧
    (s.control.controller c).clusterSize / 2 + 1 ≤ 1 + voters.length

/-- A complete candidate gets the vote, and one that is complete for a majority is elected. -/
structure ElectsComplete : Prop where
  vote : ∀ c ∈ p.quorum.ids, ∀ t, s.Candidate c t → ∀ v ∈ p.quorum.ids, s.Complete c v t →
    s.votesFor v c t = true
  tally : ∀ c ∈ p.quorum.ids, ∀ t, s.Candidate c t → s.CompleteForMajority p c t →
    ((s.control.controller c).tallyElectionVotes (s.votes p c t)).2 = true

/-- The condition: a candidate that is complete for a voter has applied all of its log, and the
writes of votes that it depends on have not failed before. -/
structure CaughtUp : Prop where
  vote : ∀ c ∈ p.quorum.ids, ∀ t, s.Candidate c t → ∀ v ∈ p.quorum.ids, s.Complete c v t →
    (s.log c).length ≤ s.applied c ∧ (s.control.controller v).persistenceFailed = false
  tally : ∀ c ∈ p.quorum.ids, ∀ t, s.Candidate c t → s.CompleteForMajority p c t →
    (s.control.controller c).persistenceFailed = false

variable {p s} {c v t : Nat}

theorem votesFor_iff (h : s.Complete c v t) : s.votesFor v c t = true ↔
    (s.log c).length ≤ s.applied c ∧ (s.control.controller v).persistenceFailed = false := by
  have hrecord : ((s.control.controller v).tryRecordVote c t .stored).2 =
      !(s.control.controller v).persistenceFailed := by
    have hterm := Nat.not_lt.mpr h.term_le
    rw [Controller.tryRecordVote]
    cases hfailed : (s.control.controller v).persistenceFailed with
    | true => simp
    | false =>
      rw [if_neg (by simp [hterm])]
      split
      · rfl
      · rw [Controller.recordVote]
        split
        · next vote hvote =>
          rw [if_neg (h.unvoted _ hvote)]
          rfl
        · rfl
  rw [votesFor, Controller.handleVoteRequest, if_neg (by simp [voterView])]
  simp only [voterView, voteRequest, h.epoch_le, true_and, h.log]
  split <;> simp_all

/-- The voters for whom a candidate is complete are among those that vote for it. -/
theorem majority_votes (hc : c ∈ p.quorum.ids)
    (hvote : ∀ v ∈ p.quorum.ids, s.Complete c v t → s.votesFor v c t = true)
    (h : s.CompleteForMajority p c t) :
    (s.control.controller c).clusterSize / 2 + 1 ≤ s.votes p c t := by
  obtain ⟨voters, hvoters, hcomplete, hmajority⟩ := h
  have hgranted : ∀ v ∈ voters, s.votesFor v c t = true := fun v hv =>
    hvote v ((p.quorum.mem_peers c hc v).mp (hvoters.subset hv)).1 (hcomplete v hv)
  have hle := (hvoters.filter fun v => s.votesFor v c t).length_le
  rw [filter_eq_self.mpr hgranted] at hle
  rw [votes]
  omega

/-- Complete candidates get the votes and are elected by them in exactly the states that meet the
condition. -/
theorem electsComplete_iff_caughtUp (p : MetadataSetting) (s : MetadataCluster) :
    s.ElectsComplete p ↔ s.CaughtUp p := by
  constructor
  · intro h
    refine ⟨fun c hc t hcandidate v hv hcomplete => ?_, fun c hc t hcandidate hmajority => ?_⟩
    · exact (votesFor_iff hcomplete).mp (h.vote c hc t hcandidate v hv hcomplete)
    · have hwins := h.tally c hc t hcandidate hmajority
      rw [Controller.tallyElectionVotes] at hwins
      split at hwins
      · next hcarried => exact hcarried.1
      · cases hwins
  · intro h
    have hvote : ∀ c ∈ p.quorum.ids, ∀ t, s.Candidate c t → ∀ v ∈ p.quorum.ids, s.Complete c v t →
        s.votesFor v c t = true := fun c hc t hcandidate v hv hcomplete =>
      (votesFor_iff hcomplete).mpr (h.vote c hc t hcandidate v hv hcomplete)
    refine ⟨hvote, fun c hc t hcandidate hmajority => ?_⟩
    have hvotes := majority_votes hc (hvote c hc t hcandidate) hmajority
    rw [Controller.tallyElectionVotes, if_pos ⟨h.tally c hc t hcandidate hmajority,
      hcandidate.candidate, hvotes⟩]

/-- Controller 2 begins the election of term 1. -/
def candidacy : List MetadataEvent :=
  [.control (.electionTimeout 2 true .stored), .control (.readTerm 2)]

theorem electsComplete_assignment :
    (run (step threeNodes) (start threeNodes) (assignment ++ candidacy)).ElectsComplete
      threeNodes := by
  have happlied : let s := run (step threeNodes) (start threeNodes) (assignment ++ candidacy)
      ∀ c ∈ threeNodes.quorum.ids, (s.control.controller c).state = .candidate →
        (s.log c).length ≤ s.applied c := by
    decide +kernel
  have hstored : let s := run (step threeNodes) (start threeNodes) (assignment ++ candidacy)
      ∀ v ∈ threeNodes.quorum.ids, (s.control.controller v).persistenceFailed = false := by
    decide +kernel
  exact (electsComplete_iff_caughtUp threeNodes _).mpr
    ⟨fun c hc _ hcandidate v hv _ => ⟨happlied c hc hcandidate.candidate, hstored v hv⟩,
      fun c hc _ _ _ => hstored c hc⟩

/-- The leader stops when its record has come to all and is not committed: the logs are the same,
and nothing of them is applied. -/
def uncommitted : List MetadataEvent :=
  [.propose 1 (.topicDeleted ['u']) 0, .sync 1, .sendPush 1 0 1, .handlePush 2 0, .appendEntry 0 0,
    .acknowledge 0, .handlePush 3 0, .appendEntry 0 0, .acknowledge 0]

theorem not_electsComplete_uncommitted :
    ¬ (run (step threeNodes) (start threeNodes) (uncommitted ++ candidacy)).ElectsComplete
      threeNodes := by
  intro h
  have hvote := h.vote 2 (by decide) 1 ⟨by decide +kernel, by decide +kernel⟩ 3 (by decide)
    ⟨by decide +kernel, nofun, by decide +kernel, by decide +kernel⟩
  exact absurd hvote (by decide +kernel)

end MetadataCluster
end Bifrox.Replication

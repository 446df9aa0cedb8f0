/-
What the leaders of later terms have of the metadata log.

Of a record that was committed, every majority of the controllers has a node that had it on disk
before it voted in any later term, and the rule of the vote carries the record to the winner.
The rule compares only lengths, so the argument needs that logs agree.
-/
import Bifrox.Replication.MetadataLog

namespace Bifrox.Replication
namespace MetadataCluster

open Function List
open Consensus (Cluster FencedCluster FencingEvent)
open Run (Guarded Always)

variable (p : MetadataSetting) (s : MetadataCluster)

/-! ## Specification -/

/-- Every record that was reported as committed is in the log of all who were elected in a later
term. -/
def LeadersComplete : Prop :=
  ∀ c ∈ s.committed, ∀ e ∈ s.control.cluster.elected, c.epoch < e.2 →
    (s.log e.1)[c.offset]? = some c.entry

def votedAfter (i epoch : Nat) : Bool :=
  s.control.cluster.grants.any (fun grant => grant.voter = i ∧ epoch < grant.term) ||
    s.control.cluster.candidacies.any fun candidacy => candidacy.1 = i ∧ epoch < candidacy.2

/-- The part of the condition that is about epochs: a proposal and an acknowledgement are not
older than the node's last vote, a vote is given on the log as it is, and no election starts from
the last term. -/
def isFenced : MetadataEvent → Bool
  | .propose i _ _ | .sweep i _ _ _ _ => !s.votedAfter i (s.control.epoch i)
  | .acknowledge k => s.accepted[k]?.all fun a => !s.votedAfter a.1 a.2.epoch
  | .control (.handleVoteRequest i _ view _) => (s.log i).length ≤ view.lastLogIndex
  | .control (.electionTimeout i _ _) => (s.control.controller i).currentTerm + 1 < 2 ^ 64
  | _ => true

/-! ## What a node vouches for -/

/-- Whoever got the node's vote in a later term has so many records on disk. -/
def Covered (i n epoch : Nat) : Prop :=
  ∀ t c, s.control.cluster.Cast t i c → epoch < t → c = i ∨ n ≤ s.durable c

def Vouches (i n epoch : Nat) : Prop := n ≤ s.durable i ∧ s.Covered i n epoch

/-- What a step does: it keeps what is on disk, and a vote that is new goes to a node that has
on disk all that the voter has. -/
structure Goes (s s' : MetadataCluster) : Prop where
  durable : ∀ i, s.durable i ≤ s'.durable i
  disk : ∀ i n entry, n < s.durable i → (s.log i)[n]? = some entry → (s'.log i)[n]? = some entry
  cast : ∀ t i c, s'.control.cluster.Cast t i c →
    s.control.cluster.Cast t i c ∨ c = i ∨ (s.log i).length ≤ s.durable c

variable {p s} {s' : MetadataCluster} {i n n' epoch epoch' : Nat}

theorem covered_of_votedAfter {i epoch : Nat} (h : s.votedAfter i epoch = false)
    (hcluster : s'.control.cluster = s.control.cluster) : s'.Covered i n epoch := by
  intro t c hcast hlt
  rw [hcluster] at hcast
  rw [votedAfter, Bool.or_eq_false_iff, any_eq_false, any_eq_false] at h
  rcases hcast with hgrant | ⟨hself, hcandidacy⟩
  · exact absurd (decide_eq_true ⟨rfl, hlt⟩) (h.1 _ hgrant)
  · exact absurd (decide_eq_true ⟨hself.symm, hlt⟩) (h.2 _ hcandidacy)

theorem Covered.mono (h : s.Covered i n epoch) (hn : n' ≤ n)
    (hepoch : epoch ≤ epoch') : s.Covered i n' epoch' :=
  fun t c hcast hlt => (h t c hcast (Nat.lt_of_le_of_lt hepoch hlt)).imp_right (Nat.le_trans hn)

theorem Covered.goes {i n epoch : Nat} (h : s.Covered i n epoch) (hn : n ≤ (s.log i).length)
    (hgoes : s.Goes s') : s'.Covered i n epoch := by
  intro t c hcast hlt
  rcases hgoes.cast t i c hcast with hold | hself | hcovered
  · exact (h t c hold hlt).imp_right fun hle => Nat.le_trans hle (hgoes.durable c)
  · exact .inl hself
  · exact .inr (Nat.le_trans hn (Nat.le_trans hcovered (hgoes.durable c)))

theorem Vouches.mono (h : s.Vouches i n epoch) (hn : n' ≤ n)
    (hepoch : epoch ≤ epoch') : s.Vouches i n' epoch' :=
  ⟨Nat.le_trans hn h.1, h.2.mono hn hepoch⟩

theorem Vouches.goes {i n epoch : Nat} (h : s.Vouches i n epoch) (hsound : s.Sound)
    (hgoes : s.Goes s') : s'.Vouches i n epoch :=
  ⟨Nat.le_trans h.1 (hgoes.durable i), h.2.goes (Nat.le_trans h.1 (hsound.durable_le i)) hgoes⟩

/-- Every majority of the controllers meets those that have acknowledged, or the proposer. -/
theorem exists_acked {i offset : Nat} (h : s.isAcked p i offset = true) {voters : Finset Nat}
    (hvoters : voters ⊆ p.quorum.ids) (hcard : p.quorum.ids.card < 2 * voters.card) :
    ∃ v ∈ voters, v = i ∨ ∃ w, s.replicaWatermark i v = some w ∧ offset ≤ w := by
  by_contra hnone
  simp only [not_exists, not_and, not_or] at hnone
  let acked := (p.controllerPeers i).filter fun peer => (s.replicaWatermark i peer).any (offset ≤ ·)
  have hpeers : (p.controllerPeers i).toFinset = p.quorum.ids.erase i := by
    ext j
    rw [mem_toFinset, p.mem_controllerPeers, Finset.mem_erase, and_comm]
  have hlength : (p.controllerPeers i).length = (p.quorum.ids.erase i).card := by
    rw [← hpeers, toFinset_card_of_nodup (p.nodup_controllerPeers i)]
  have hacked : acked.toFinset.card = acked.length :=
    toFinset_card_of_nodup ((p.nodup_controllerPeers i).filter _)
  have hsub : acked.toFinset ⊆ p.quorum.ids.erase i := by
    intro j hj
    rw [← hpeers, mem_toFinset]
    exact mem_of_mem_filter (mem_toFinset.mp hj)
  have hsub' : voters ⊆ p.quorum.ids.erase i :=
    fun v hv => Finset.mem_erase.mpr ⟨(hnone v hv).1, hvoters hv⟩
  have hdisjoint : Disjoint voters acked.toFinset := by
    refine Finset.disjoint_left.mpr fun v hv hacked => ?_
    have hwatermark := (mem_filter.mp (mem_toFinset.mp hacked)).2
    obtain ⟨w, hw, hle⟩ := (Option.any_eq_true _ _).mp hwatermark
    exact (hnone v hv).2 w hw (of_decide_eq_true hle)
  have hunion := Finset.card_le_card (Finset.union_subset hsub' hsub)
  rw [Finset.card_union_of_disjoint hdisjoint, hacked] at hunion
  have hmajority : ((p.controllerPeers i).length + 1) / 2 + 1 ≤ 1 + acked.length :=
    of_decide_eq_true h
  have herase := Finset.card_le_card (Finset.erase_subset i p.quorum.ids)
  omega

theorem le_foldr_latest {pushes : List Push} :
    epoch ≤ pushes.foldr (fun push e => if push.sender = i then max push.epoch e else e) epoch ∧
      ∀ push ∈ pushes, push.sender = i →
        push.epoch ≤ pushes.foldr (fun push e => if push.sender = i then max push.epoch e else e)
          epoch := by
  induction pushes with
  | nil => exact ⟨Nat.le_refl _, nofun⟩
  | cons other pushes ih =>
    rw [foldr_cons]
    by_cases hother : other.sender = i
    · rw [if_pos hother]
      refine ⟨Nat.le_trans ih.1 (Nat.le_max_right _ _), fun push hpush hsender => ?_⟩
      rcases mem_cons.mp hpush with rfl | hpush
      · exact Nat.le_max_left _ _
      · exact Nat.le_trans (ih.2 push hpush hsender) (Nat.le_max_right _ _)
    · rw [if_neg hother]
      refine ⟨ih.1, fun push hpush hsender => ?_⟩
      rcases mem_cons.mp hpush with rfl | hpush
      · exact absurd hsender hother
      · exact ih.2 push hpush hsender

/-! ## The invariant -/

structure Attested (p : MetadataSetting) (s : MetadataCluster) : Prop where
  sound : s.Sound
  safe : Cluster.Safe p.quorum s.control.cluster
  requests : ∀ r ∈ s.control.cluster.requests, r.2.candidateLastLogIndex ≤ s.durable r.2.candidateId
  acks : ∀ a ∈ s.acks, a.2 ∈ s.pushes ∧ s.Vouches a.1 a.2.stop a.2.epoch
  watermarks : ∀ i j w, s.replicaWatermark i j = some w → ∃ push ∈ s.pushes, push.sender = i ∧
    w < push.stop ∧ s.Vouches j push.stop push.epoch
  proposals : ∀ proposal ∈ s.proposals,
    (s.log proposal.node)[proposal.offset]? = some proposal.entry ∧
      s.Covered proposal.node (proposal.offset + 1) proposal.term
  committed : ∀ c ∈ s.committed, c.offset < s.durable c.node ∧
    (s.log c.node)[c.offset]? = some c.entry ∧
    ∀ voters ⊆ p.quorum.ids, p.quorum.ids.card < 2 * voters.card →
      ∃ v ∈ voters, s.Vouches v (c.offset + 1) c.epoch

theorem attested_start : Attested p (start p) where
  sound := sound_start p
  safe := Cluster.safe_start _ _
  requests := nofun
  acks := nofun
  watermarks := nofun
  proposals := nofun
  committed := nofun

/-- A majority has voted for who was elected, and one of them vouches for the record. -/
theorem Attested.leadersComplete (h : Attested p s) : s.LeadersComplete := by
  intro c hc e he hterm
  obtain ⟨-, hentry, hvouch⟩ := h.committed c hc
  obtain ⟨voters, hsub, hcard, hcast⟩ := h.safe.carried e he
  obtain ⟨v, hv, hdurable, hcovered⟩ := hvouch voters hsub hcard
  have hlong : c.offset + 1 ≤ s.durable e.1 := by
    rcases hcovered e.2 e.1 (hcast v hv) hterm with heq | hle
    · rw [heq]
      exact hdurable
    · exact hle
  have hlt : c.offset < (s.log e.1).length := Nat.lt_of_lt_of_le hlong (h.sound.durable_le e.1)
  rw [List.getElem?_eq_getElem hlt]
  exact congrArg some (h.sound.consistent.agree (List.getElem?_eq_getElem hlt) hentry)

/-- What is new after a step is all that has to be looked at. -/
theorem Attested.goes (h : Attested p s) (hgoes : s.Goes s') (hsound : s'.Sound)
    (hsafe : Cluster.Safe p.quorum s'.control.cluster) (hpushes : s.pushes ⊆ s'.pushes)
    (hrequests : ∀ r ∈ s'.control.cluster.requests, r ∈ s.control.cluster.requests ∨
      r.2.candidateLastLogIndex ≤ s'.durable r.2.candidateId)
    (hacks : ∀ a ∈ s'.acks, a ∈ s.acks ∨ a.2 ∈ s'.pushes ∧ s'.Vouches a.1 a.2.stop a.2.epoch)
    (hwatermarks : ∀ i j w, s'.replicaWatermark i j = some w → s.replicaWatermark i j = some w ∨
      ∃ push ∈ s'.pushes, push.sender = i ∧ w < push.stop ∧ s'.Vouches j push.stop push.epoch)
    (hproposals : ∀ proposal ∈ s'.proposals,
      proposal ∈ s.proposals ∧ s.log proposal.node <+: s'.log proposal.node ∨
        (s'.log proposal.node)[proposal.offset]? = some proposal.entry ∧
          s'.Covered proposal.node (proposal.offset + 1) proposal.term)
    (hcommitted : ∀ c ∈ s'.committed, c ∈ s.committed ∨ c.offset < s'.durable c.node ∧
      (s'.log c.node)[c.offset]? = some c.entry ∧
      ∀ voters ⊆ p.quorum.ids, p.quorum.ids.card < 2 * voters.card →
        ∃ v ∈ voters, s'.Vouches v (c.offset + 1) c.epoch) : Attested p s' where
  sound := hsound
  safe := hsafe
  requests r hr := by
    rcases hrequests r hr with hold | hnew
    · exact Nat.le_trans (h.requests r hold) (hgoes.durable _)
    · exact hnew
  acks a ha := by
    rcases hacks a ha with hold | hnew
    · obtain ⟨hpush, hvouch⟩ := h.acks a hold
      exact ⟨hpushes hpush, hvouch.goes h.sound hgoes⟩
    · exact hnew
  watermarks i j w hw := by
    rcases hwatermarks i j w hw with hold | hnew
    · obtain ⟨push, hpush, hsender, hlt, hvouch⟩ := h.watermarks i j w hold
      exact ⟨push, hpushes hpush, hsender, hlt, hvouch.goes h.sound hgoes⟩
    · exact hnew
  proposals proposal hp := by
    rcases hproposals proposal hp with ⟨hold, hgrown⟩ | hnew
    · obtain ⟨hentry, hcovered⟩ := h.proposals proposal hold
      refine ⟨SharedLog.getElem?_of_prefix hgrown hentry, hcovered.goes ?_ hgoes⟩
      exact (List.getElem?_eq_some_iff.mp hentry).1
    · exact hnew
  committed c hc := by
    rcases hcommitted c hc with hold | hnew
    · obtain ⟨hlt, hentry, hvouch⟩ := h.committed c hold
      refine ⟨Nat.lt_of_lt_of_le hlt (hgoes.durable _), hgoes.disk _ _ _ hlt hentry, ?_⟩
      intro voters hsub hcard
      obtain ⟨v, hv, hv'⟩ := hvouch voters hsub hcard
      exact ⟨v, hv, hv'.goes h.sound hgoes⟩
    · exact hnew

/-! ## Steps -/

theorem goes_of_extends (hcluster : s'.control.cluster = s.control.cluster)
    (hdurable : ∀ i, s.durable i ≤ s'.durable i) (hlog : ∀ i, s.log i <+: s'.log i) :
    s.Goes s' where
  durable := hdurable
  disk i _ _ _ hentry := SharedLog.getElem?_of_prefix (hlog i) hentry
  cast t i c hcast := by
    rw [hcluster] at hcast
    exact .inl hcast

section

variable (h : Attested p s) {proposal : MetadataProposal}
include h

theorem Attested.extend (hsound : s'.Sound) (hcluster : s'.control.cluster = s.control.cluster)
    (hdurable : ∀ i, s.durable i ≤ s'.durable i) (hlog : ∀ i, s.log i <+: s'.log i)
    (hpushes : s.pushes ⊆ s'.pushes) (hacks : s'.acks = s.acks)
    (hwatermarks : s'.replicaWatermark = s.replicaWatermark)
    (hproposals : s'.proposals ⊆ s.proposals) (hcommitted : s'.committed = s.committed) :
    Attested p s' := by
  refine h.goes (goes_of_extends hcluster hdurable hlog) hsound ?_ hpushes ?_ ?_ ?_ ?_ ?_
  · rw [hcluster]
    exact h.safe
  · rw [hcluster]
    exact fun r hr => .inl hr
  · rw [hacks]
    exact fun a ha => .inl ha
  · rw [hwatermarks]
    exact fun i j w hw => .inl hw
  · exact fun proposal hp => .inl ⟨hproposals hp, hlog _⟩
  · rw [hcommitted]
    exact fun c hc => .inl hc

theorem Attested.control {event : FencingEvent}
    (hallows : s.allows event = true) (hfenced : s.isFenced (.control event) = true) :
    Attested p { s with control := s.control.act p.quorum event } := by
  rcases FencedCluster.cluster_act (q := p.quorum) (s := s.control) event with
    hsame | ⟨event', hstep, htimeout, hsend, hvote⟩
  · exact h.extend { h.sound with } hsame (fun _ => Nat.le_refl _) (fun _ => prefix_refl _)
      (fun _ hp => hp) rfl rfl (fun _ hp => hp) rfl
  · have hgoes : s.Goes { s with control := s.control.act p.quorum event } := by
      refine ⟨fun _ => Nat.le_refl _, fun _ _ _ _ hentry => hentry, fun t i c hcast => ?_⟩
      rw [hstep] at hcast
      rcases Cluster.cast_step hcast with hold | hself |
        ⟨request, view, persist, heq, hmem, rfl, hle⟩
      · exact .inl hold
      · exact .inr (.inl hself)
      · -- the voter has looked at its log as it is
        rw [hvote i request view persist heq] at hfenced
        refine .inr (.inr (Nat.le_trans (of_decide_eq_true hfenced) (Nat.le_trans hle ?_)))
        exact h.requests (i, request) hmem
    refine h.goes hgoes { h.sound with } ?_ (fun _ hp => hp) (fun r hr => ?_) (fun _ ha => .inl ha)
      (fun _ _ _ hw => .inl hw) (fun _ hp => .inl ⟨hp, prefix_refl _⟩) fun _ hc => .inl hc
    · rw [hstep]
      refine h.safe.step event' ?_
      cases event' with
      | electionTimeout i elapsed persist =>
        rw [htimeout i elapsed persist rfl] at hfenced
        exact of_decide_eq_true hfenced
      | _ => trivial
    · rw [hstep] at hr
      rcases Cluster.requests_step hr with hold | hnew
      · exact .inl hold
      · rw [hsend _ _ hnew] at hallows
        refine .inr (Nat.le_trans (of_decide_eq_true hallows) ?_)
        exact Nat.le_trans (h.sound.applied_le _) (h.sound.highWatermark_le _)

theorem Attested.proposeUnchecked {i : Nat} (hlongest : s.Longest i)
    (hvoted : s.votedAfter i (s.control.epoch i) = false) (record : Metadata.MetadataRecord)
    (timestamp : Nat) : Attested p (s.proposeUnchecked i record timestamp) := by
  have hlog := s.prefix_append i ⟨record, timestamp⟩
  refine h.goes (goes_of_extends rfl (fun _ => Nat.le_refl _) hlog)
    (h.sound.proposeUnchecked hlongest record timestamp) h.safe (fun _ hp => hp)
    (fun _ hr => .inl hr) (fun _ ha => .inl ha) (fun _ _ _ hw => .inl hw) (fun proposal hp => ?_)
    fun _ hc => .inl hc
  rcases mem_cons.mp hp with rfl | hold
  · refine .inr ⟨?_, covered_of_votedAfter hvoted rfl⟩
    show (update s.log i (s.log i ++ [_]) i)[(s.log i).length]? = _
    rw [update_self, List.getElem?_append_right (Nat.le_refl _), Nat.sub_self]
    rfl
  · exact .inl ⟨hold, hlog _⟩

/-- An acknowledgement is of what is on disk, and the node has not voted since the push. -/
theorem Attested.acknowledge {k : Nat} (hfenced : s.isFenced (.acknowledge k) = true) :
    Attested p (s.step p (.acknowledge k)) := by
  rw [step]
  split
  · next i push hpush =>
    rw [isFenced, hpush, Option.all_some, Bool.not_eq_true'] at hfenced
    have hsound := (h.sound.sync i).applyCommitted i
    have hdurable := h.sound.durable_le_sync i
    split
    · next hstop =>
      refine h.goes (goes_of_extends rfl hdurable fun _ => prefix_refl _) { hsound with } h.safe
        (fun _ hp => hp) (fun _ hr => .inl hr) (fun a ha => ?_) (fun _ _ _ hw => .inl hw)
        (fun _ hp => .inl ⟨hp, prefix_refl _⟩) fun _ hc => .inl hc
      rcases mem_cons.mp ha with rfl | hold
      · refine .inr ⟨h.sound.accepted _ (mem_of_getElem? hpush), ?_, ?_⟩
        · show push.stop ≤ update s.durable i (s.log i).length i
          rw [update_self]
          exact hstop
        · refine covered_of_votedAfter hfenced ?_
          rfl
      · exact .inl hold
    · exact h.extend (h.sound.sync i) rfl hdurable (fun _ => prefix_refl _) (fun _ hp => hp) rfl
        rfl (fun _ hp => hp) rfl
  · exact h

theorem Attested.receiveAck (k : Nat) : Attested p (s.step p (.receiveAck k)) := by
  rw [step]
  split
  · next i push hack =>
    split
    · exact h
    · next hentries =>
      obtain ⟨hpush, hvouch⟩ := h.acks _ (mem_of_getElem? hack)
      have hstop : push.stop - 1 < push.stop := by
        have hpos := length_pos_iff.mpr hentries
        rw [SharedLog.Fragment.stop]
        omega
      refine h.goes (goes_of_extends rfl (fun _ => Nat.le_refl _) fun _ => prefix_refl _)
        { h.sound with } h.safe (fun _ hp => hp) (fun _ hr => .inl hr) (fun _ ha => .inl ha)
        (fun i' j w hw => ?_) (fun _ hp => .inl ⟨hp, prefix_refl _⟩) fun _ hc => .inl hc
      dsimp only at hw
      by_cases hi : i' = push.sender
      · rw [hi, update_self] at hw
        by_cases hj : j = i
        · rw [hj, update_self] at hw
          obtain rfl := Option.some.inj hw
          exact .inr ⟨push, hpush, hi.symm, hstop, hj ▸ hvouch⟩
        · rw [update_of_ne hj] at hw
          exact .inl (hi ▸ hw)
      · rw [update_of_ne hi] at hw
        exact .inl hw
  · exact h

/-- Of every majority, a node vouches for a proposal that was acknowledged. -/
theorem Attested.exists_vouches
    (hproposal : proposal ∈ s.proposals) (hdurable : proposal.offset < s.durable proposal.node)
    (hacked : s.isAcked p proposal.node proposal.offset = true) {voters : Finset Nat}
    (hvoters : voters ⊆ p.quorum.ids) (hcard : p.quorum.ids.card < 2 * voters.card) :
    ∃ v ∈ voters, s.Vouches v (proposal.offset + 1)
      (s.latestEpoch proposal.node proposal.term) := by
  obtain ⟨hterm, hpushes⟩ := le_foldr_latest
  obtain ⟨v, hv, rfl | ⟨w, hw, hle⟩⟩ := exists_acked hacked hvoters hcard
  · obtain ⟨-, hcovered⟩ := h.proposals proposal hproposal
    exact ⟨_, hv, hdurable, hcovered.mono (Nat.le_refl _) hterm⟩
  · obtain ⟨push, hpush, hsender, hlt, hvouch⟩ := h.watermarks _ _ _ hw
    exact ⟨v, hv, hvouch.mono (by omega) (hpushes push hpush hsender)⟩

theorem Attested.commitProposal {k : Nat} (hproposal : s.proposals[k]? = some proposal)
    (hdurable : proposal.offset < s.durable proposal.node)
    (hacked : s.isAcked p proposal.node proposal.offset = true) :
    Attested p { s.commitProposal proposal with proposals := s.proposals.eraseIdx k } := by
  have hmem := mem_of_getElem? hproposal
  have hsound := (h.sound.advanceCommittedHw proposal.node (proposal.offset + 1)).applyCommitted
    proposal.node
  have hgrows := h.sound.durable_le_advanceCommittedHw proposal.node (proposal.offset + 1)
  have hgoes : s.Goes { s.commitProposal proposal with proposals := s.proposals.eraseIdx k } :=
    goes_of_extends rfl hgrows fun _ => prefix_refl _
  refine h.goes hgoes { hsound with } h.safe (fun _ hp => hp) (fun _ hr => .inl hr)
    (fun _ ha => .inl ha) (fun _ _ _ hw => .inl hw)
    (fun _ hp => .inl ⟨mem_of_mem_eraseIdx hp, prefix_refl _⟩) fun c hc => ?_
  rcases mem_cons.mp hc with rfl | hold
  · refine .inr ⟨Nat.lt_of_lt_of_le hdurable (hgrows _), (h.proposals proposal hmem).1, ?_⟩
    intro voters hsub hcard
    obtain ⟨v, hv, hvouch⟩ := h.exists_vouches hmem hdurable hacked hsub hcard
    exact ⟨v, hv, hvouch.goes h.sound hgoes⟩
  · exact .inl hold

theorem Attested.crash {i kept : Nat} (hdurable : s.durable i ≤ kept)
    (hkept : kept ≤ (s.log i).length) : Attested p (s.crash p i kept) := by
  have hgoes : s.Goes (s.crash p i kept) := by
    refine ⟨le_update_self_iff.mpr hdurable, fun j n entry hn hentry => ?_, fun t j c hcast => ?_⟩
    · show (update s.log i _ j)[n]? = _
      by_cases hj : j = i
      · rw [hj] at hn hentry ⊢
        rw [update_self, List.getElem?_take_of_lt (Nat.lt_of_lt_of_le hn hdurable)]
        exact hentry
      · rw [update_of_ne hj]
        exact hentry
    · change (Cluster.step _ s.control.cluster (.restart i)).Cast t j c at hcast
      rcases Cluster.cast_step hcast with hold | hself | ⟨_, _, _, heq, -⟩
      · exact .inl hold
      · exact .inr (.inl hself)
      · cases heq
  refine h.goes hgoes (h.sound.crash hdurable hkept) (h.safe.step (.restart i) trivial)
    (fun _ hp => hp)
    (fun r hr => ?_) (fun _ ha => .inl ha) (fun i' j w hw => ?_) (fun proposal hp => ?_)
    fun _ hc => .inl hc
  · change r ∈ (Cluster.step _ s.control.cluster (.restart i)).requests at hr
    rcases Cluster.requests_step hr with hold | hnew
    · exact .inl hold
    · cases hnew
  · replace hw : update s.replicaWatermark i (fun _ => none) i' j = some w := hw
    by_cases hi : i' = i
    · rw [hi, update_self] at hw
      cases hw
    · rw [update_of_ne hi] at hw
      exact .inl hw
  · obtain ⟨hold, hnode⟩ := mem_filter.mp hp
    refine .inl ⟨hold, ?_⟩
    show s.log proposal.node <+: update s.log i _ proposal.node
    rw [update_of_ne (of_decide_eq_true hnode)]

theorem Attested.step {event : MetadataEvent} (hlast : s.AppendsLast p event)
    (hfenced : s.isFenced event = true) : Attested p (s.step p event) := by
  have hsound := h.sound.step hlast
  have hle : ∀ i, s.durable i ≤ s.durable i := fun _ => Nat.le_refl _
  have hgrown : ∀ i, s.log i <+: s.log i := fun _ => prefix_refl _
  cases event with
  | control =>
    rw [MetadataCluster.step]
    split
    · next hallows => exact h.control hallows hfenced
    · exact h
  | register i =>
    rw [MetadataCluster.step] at hsound ⊢
    split at hsound
    · next hleads =>
      have hlongest := hlast i (by rw [writer, if_pos hleads]; rfl)
      rw [if_pos hleads]
      refine h.extend hsound rfl (fun j => ?_) (s.prefix_append i _) (fun _ hp => hp) rfl rfl
        (fun _ hp => hp) rfl
      exact (h.sound.append_of_longest hlongest).durable_le_advanceCommittedHw i _ j
    · next hleads =>
      rw [if_neg hleads]
      exact h
  | propose i record timestamp =>
    rw [MetadataCluster.step]
    split
    · next hleads =>
      exact h.proposeUnchecked (hlast i (by rw [writer, if_pos hleads]; rfl))
        ((Bool.not_eq_true' _).mp hfenced) record timestamp
    · exact h
  | sweep i topic partition seen timestamp =>
    rw [MetadataCluster.step]
    split
    · next record hrecord =>
      exact h.proposeUnchecked (hlast i (by rw [writer, hrecord]; rfl))
        ((Bool.not_eq_true' _).mp hfenced) record timestamp
    · exact h
  | sync i =>
    exact h.extend hsound rfl (h.sound.durable_le_sync i) hgrown (fun _ hp => hp) rfl rfl
      (fun _ hp => hp) rfl
  | sendPush =>
    exact h.extend hsound rfl hle hgrown (subset_cons_self _ _) rfl rfl (fun _ hp => hp) rfl
  | handlePush i k =>
    rw [MetadataCluster.step] at hsound ⊢
    cases hpush : s.pushes[k]? with
    | none => exact h
    | some =>
      rw [hpush] at hsound
      exact h.extend hsound (FencedCluster.cluster_act_handlePush (q := p.quorum) _ _) hle
        hgrown (fun _ hp => hp) rfl rfl (fun _ hp => hp) rfl
  | appendEntry k n =>
    rw [MetadataCluster.step] at hsound ⊢
    split at hsound
    · next i push hpush =>
      split at hsound
      · next entry hentry =>
        by_cases hend : push.offset + n = (s.log i).length
        · rw [if_pos hend] at hsound ⊢
          exact h.extend hsound rfl hle (s.prefix_append i entry) (fun _ hp => hp) rfl rfl
            (fun _ hp => hp) rfl
        · rw [if_neg hend]
          exact h
      · exact h
    · exact h
  | adoptWatermark k =>
    rw [MetadataCluster.step] at hsound ⊢
    cases haccepted : s.accepted[k]? with
    | none => exact h
    | some a =>
      rw [haccepted] at hsound
      exact h.extend hsound rfl (h.sound.durable_le_advanceCommittedHw a.1 _) hgrown
        (fun _ hp => hp) rfl rfl (fun _ hp => hp) rfl
  | acknowledge => exact h.acknowledge hfenced
  | receiveAck k => exact h.receiveAck k
  | commit =>
    rw [MetadataCluster.step]
    split
    · next proposal hproposal =>
      split
      · next hready =>
        split
        · exact h.extend { h.sound with } rfl hle hgrown (fun _ hp => hp) rfl rfl
            (fun _ hp => mem_of_mem_eraseIdx hp) rfl
        · exact h.commitProposal hproposal hready.1 hready.2
      · exact h
    · exact h
  | applyMetadata =>
    exact h.extend hsound rfl hle hgrown (fun _ hp => hp) rfl rfl (fun _ hp => hp) rfl
  | restart i kept =>
    rw [MetadataCluster.step]
    split
    · next hkept =>
      have hcrash : Attested p (s.crash p i kept) := h.crash hkept.1 hkept.2
      exact hcrash.extend (hcrash.sound.applyCommitted i) rfl (fun _ => Nat.le_refl _)
        (fun _ => prefix_refl _) (fun _ hp => hp) rfl rfl (fun _ hp => hp) rfl
    · exact h

end

/-- In every run whose steps meet both conditions, every record that was reported as committed
is in the log of all who were elected in a later term. -/
theorem leadersComplete_of_fenced (p : MetadataSetting) (events : List MetadataEvent)
    (hlast : Guarded (step p) (AppendsLast p) (start p) events)
    (hfenced : Guarded (step p) (fun s event => s.isFenced event = true) (start p) events) :
    Always (step p) LeadersComplete (start p) events :=
  (hlast.and hfenced).always (fun _ (hs : Attested p _) => hs.leadersComplete)
    (fun _ _ (hs : Attested p _) hok => hs.step hok.1 hok.2) attested_start

/-! ## An election after a commit -/

/-- Controller 2 wins the election of term 1 with the vote of 3. -/
def election (lastLogIndex : Nat) : List MetadataEvent :=
  [.control (.electionTimeout 2 true .stored), .control (.readTerm 2), .control (.voteMissing 2),
    .control (.sendVoteRequest 2 lastLogIndex),
    .control (.handleVoteRequest 3 ⟨2, 1, lastLogIndex⟩
      { Cluster.openView with lastLogIndex := lastLogIndex } .stored),
    .control (.store 3 1), .control (.voteGranted 2), .control (.tally 2), .control (.store 2 1)]

theorem leadersComplete_assignment :
    Always (step threeNodes) LeadersComplete (start threeNodes) (assignment ++ election 1) := by
  refine leadersComplete_of_fenced threeNodes (assignment ++ election 1)
    ⟨fun i _ => longest_start, ?_⟩ (by decide +kernel)
  exact ⟨nofun, nofun, nofun, nofun, nofun, nofun, nofun, nofun, nofun, nofun, nofun, nofun, nofun,
    nofun, nofun, nofun, nofun, nofun, nofun, nofun, nofun, nofun, nofun, trivial⟩

/-- The log of 2 is as long as that of its voter, but has another record where 1 has reported a
commit. -/
theorem not_leadersComplete_conflict : ¬ Always (step threeNodes) LeadersComplete (start threeNodes)
      (assignment ++ conflict ++ election 2) := by
  intro h
  have hpresent := h.run ⟨1, 1, ⟨.topicDeleted ['u'], 2⟩, 0⟩ (by decide +kernel) (2, 1)
    (by decide +kernel) (by decide)
  exact absurd hpresent (by decide +kernel)

end MetadataCluster
end Bifrox.Replication

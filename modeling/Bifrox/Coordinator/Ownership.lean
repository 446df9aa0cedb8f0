/-
Who has which partition (`join_group`, `sync_group` and the other calls of
`src/server/coordinator.rs`).

Only the leader's `sync_group` gives partitions out.
-/
import Bifrox.Coordinator.Fidelity

namespace Bifrox.Coordinator

open Coordinator.ConsumerGroup Option

def Retains (members members' : Members) : Prop :=
  ∀ id state', members'.lookup id = some state' →
    ∃ state, members.lookup id = some state ∧ state.assignedPartitions = state'.assignedPartitions

variable (members : Members)

def Disjointly : Prop :=
  ∀ id id' topic partition, partition ∈ owned members id topic →
    partition ∈ owned members id' topic → id = id'

theorem Retains.refl : Retains members members :=
  fun _ state h => ⟨state, h, rfl⟩

theorem Retains.trans {m₁ m₂ m₃ : Members} (h₁ : Retains m₁ m₂) (h₂ : Retains m₂ m₃) :
    Retains m₁ m₃ := by
  intro id state₃ hlookup
  obtain ⟨state₂, hlookup₂, heq₂⟩ := h₂ id state₃ hlookup
  obtain ⟨state₁, hlookup₁, heq₁⟩ := h₁ id state₂ hlookup₂
  exact ⟨state₁, hlookup₁, heq₁.trans heq₂⟩

section Owned

variable {members members' : Members} {id topic : Text} {partition : UInt32}

theorem mem_owned : partition ∈ owned members id topic ↔ ∃ state, members.lookup id = some state ∧
    partition ∈ (state.assignedPartitions.lookup topic).getD [] := by
  rw [owned]
  rcases members.lookup id with _ | state <;> simp

theorem isSome_of_mem_owned (h : partition ∈ owned members id topic) :
    (members.lookup id).isSome = true := by
  obtain ⟨state, hstate, -⟩ := mem_owned.mp h
  rw [hstate]
  rfl

theorem Retains.owned (h : Retains members members')
    (hmem : partition ∈ Coordinator.owned members' id topic) :
    partition ∈ Coordinator.owned members id topic := by
  obtain ⟨state', hstate', hpartition⟩ := mem_owned.mp hmem
  obtain ⟨state, hstate, heq⟩ := h id state' hstate'
  exact mem_owned.mpr ⟨state, hstate, heq ▸ hpartition⟩

theorem Disjointly.retained (h : Disjointly members) (hretains : Retains members members') :
    Disjointly members' :=
  fun id id' topic partition hid hid' =>
    h id id' topic partition (hretains.owned hid) (hretains.owned hid')

end Owned

/-! ## Calls that give nothing out -/

variable (cfg : Config) (r : Reading) {g : ConsumerGroup} {group : Option ConsumerGroup}
  {assignments : List MemberAssignment} {memberId : Text}
  {sessionTimeout : Nat}

theorem retains_prune (g : ConsumerGroup) :
    Retains g.members (g.pruneExpiredMembers cfg r).members := by
  intro id state' hlookup
  rw [lookup_prune, filter_eq_some_iff] at hlookup
  exact ⟨state', hlookup.1, rfl⟩

theorem retains_modify {f : MemberState → MemberState}
    (hf : ∀ state, (f state).assignedPartitions = state.assignedPartitions) :
    Retains members (modify members memberId f) := by
  intro id state' hlookup
  rw [lookup_modify] at hlookup
  split at hlookup
  · next hid =>
    obtain ⟨state, hstate, rfl⟩ := map_eq_some_iff.mp hlookup
    exact ⟨state, hid ▸ hstate, (hf state).symm⟩
  · exact ⟨state', hlookup, rfl⟩

def membersOf (group : Option ConsumerGroup) : Members := (group.getD new).members

/-- Calls other than a join and `sync_group` only take assignments away. -/
theorem retains_serve (group : Option ConsumerGroup) (call : Call)
    (hjoin : ∀ request, call ≠ .join request)
    (hsync : ∀ generationId memberId assignments, call ≠ .sync generationId memberId assignments) :
    Retains (membersOf group) (membersOf (serve cfg r group call).1) := by
  cases group with
  | none =>
    rw [serve_none hjoin]
    exact Retains.refl _
  | some g =>
    cases call with
    | join request => exact absurd rfl (hjoin request)
    | sync generationId memberId assignments =>
      exact absurd rfl (hsync generationId memberId assignments)
    | heartbeat generationId memberId =>
      refine (retains_prune cfg r g).trans ?_
      show Retains _ ((g.pruneExpiredMembers cfg r).heartbeatPruned r generationId
          memberId).1.members
      unfold heartbeatPruned
      dsimp only
      repeat' split
      all_goals first
        | exact Retains.refl _
        | exact retains_modify _ fun _ => rfl
    | recordProgress => exact retains_modify g.members fun _ => rfl
    | leave memberId groupInstanceId =>
      intro id state' hlookup
      refine ⟨state', ?_, rfl⟩
      rw [membersOf, serve, getD_some, (leaveGroup_spec r g memberId groupInstanceId).2] at hlookup
      split at hlookup
      · cases hlookup
      · exact hlookup
    | describe => exact retains_prune cfg r g
    | closeJoinWindow =>
      change Retains g.members (g.closeJoinWindow r).members
      unfold closeJoinWindow
      repeat' split
      all_goals exact Retains.refl _

/-! ## Submissions -/

theorem syncPruned_cases {generationId : UInt32} :
    let synced := g.syncPruned generationId memberId assignments
    (synced.1.members = g.members ∨ g.leader = some memberId ∧ synced.2.toBool = true ∧
        checkAssignments g.members [] assignments = .ok () ∧
        synced.1.members = storeAssignments g.members assignments) ∧
      ∀ answer, synced.2 = .ok answer → answer = synced.1.assignmentOf memberId := by
  dsimp only
  unfold syncPruned
  split
  · exact ⟨.inl rfl, fun _ h => absurd h (by simp)⟩
  · split
    · exact ⟨.inl rfl, fun _ h => absurd h (by simp)⟩
    · split
      · next hsubmits =>
        split
        · exact ⟨.inl rfl, fun _ h => absurd h (by simp)⟩
        · next hcheck =>
          exact ⟨.inr ⟨hsubmits.1, rfl, hcheck, rfl⟩, fun _ h => (Except.ok.inj h).symm⟩
      · split
        · exact ⟨.inl rfl, fun _ h => absurd h (by simp)⟩
        · exact ⟨.inl rfl, fun _ h => (Except.ok.inj h).symm⟩

theorem disjointly_storeAssignments {members : Members}
    (h : checkAssignments members [] assignments = .ok ()) :
    Disjointly (storeAssignments members assignments) := by
  obtain ⟨hknown, -, hexclusive⟩ := checkAssignments_spec h
  intro id id' topic partition hid hid'
  rw [owned_storeAssignments hknown] at hid hid'
  obtain ⟨assign, hassign, hmember, htopic, hpartition⟩ := listed_of_mem_lastListed hid
  obtain ⟨assign', hassign', hmember', htopic', hpartition'⟩ := listed_of_mem_lastListed hid'
  have hsymm : Std.Symm fun earlier later : MemberAssignment => earlier.topic = later.topic →
      ∀ partition ∈ earlier.partitions, partition ∉ later.partitions :=
    ⟨fun _ _ hrel heq partition hmem hmem' => hrel heq.symm partition hmem' hmem⟩
  by_contra hne
  have hdistinct : assign ≠ assign' := by
    rintro rfl
    exact hne (hmember.symm.trans hmember')
  exact hexclusive.forall hassign hassign' hdistinct (htopic.trans htopic'.symm) partition
    hpartition hpartition'

/-- A `sync_group` call stores what the leader submits, or leaves the assignments as they are. -/
theorem serve_sync_cases {generationId : UInt32} :
    let pruned := (group.getD new).pruneExpiredMembers cfg r
    let served := serve cfg r group (.sync generationId memberId assignments)
    (Retains (membersOf group) (membersOf served.1) ∨ pruned.leader = some memberId ∧
        (pruned.syncPruned generationId memberId assignments).2.toBool = true ∧
        checkAssignments pruned.members [] assignments = .ok () ∧
        membersOf served.1 = storeAssignments pruned.members assignments) ∧
      ∀ answer, served.2 = .synced (.ok answer) → ∀ topic,
        (answer.lookup topic).getD [] = owned (membersOf served.1) memberId topic := by
  intro pruned served
  cases group with
  | none =>
    refine ⟨.inl (Retains.refl _), fun answer h => ?_⟩
    exact absurd (Answer.synced.inj h) (by simp)
  | some g =>
    obtain ⟨hmembers, hanswer⟩ := syncPruned_cases
    constructor
    · refine hmembers.imp_left fun hsame => ?_
      change Retains g.members (pruned.syncPruned generationId memberId assignments).1.members
      rw [hsame]
      exact retains_prune cfg r g
    · intro answer h topic
      rw [hanswer answer (Answer.synced.inj h)]
      rfl

/-! ## Joins -/

/-- What a join leaves of the assignments: the member that joins has those of a slot that
no other member has, and all others keep theirs. -/
structure Admits (members members' : Members) (joined : Text) : Prop where
  others : ∀ id state', id ≠ joined → members'.lookup id = some state' →
    members.lookup id = some state'
  slot : ∃ previous, (∀ topic, ∀ partition ∈ owned members' joined topic,
      partition ∈ owned members previous topic) ∧
    ∀ id, id ≠ joined → (members'.lookup id).isSome = true → id ≠ previous

theorem admits_rejoinStatic {r : Reading} {instanceId : Text} {result : ConsumerGroup × JoinResult}
    (h : g.rejoinStatic r instanceId sessionTimeout = some result) :
    Admits g.members result.1.members result.2.memberId := by
  unfold rejoinStatic at h
  split at h
  · cases h
  · next previous hslot =>
    split at h
    · cases h
    · next state hstate =>
      rw [← some.inj h]
      have herased : ∀ id state', id ≠ staticMemberId instanceId (nextSeq g.memberIdSeq) →
          ((g.members.erase previous).insert (staticMemberId instanceId (nextSeq g.memberIdSeq))
            { state with
              lastHeartbeat := r.now, lastProgress := r.now
              sessionTimeout := sessionTimeout }).lookup id = some state' →
          id ≠ previous ∧ g.members.lookup id = some state' := by
        intro id state' hid hlookup
        rw [AList.lookup_insert_ne hid] at hlookup
        have hne : id ≠ previous := by
          rintro rfl
          rw [AList.lookup_erase] at hlookup
          cases hlookup
        rw [AList.lookup_erase_ne hne] at hlookup
        exact ⟨hne, hlookup⟩
      constructor
      · exact fun id state' hid hlookup => (herased id state' hid hlookup).2
      · refine ⟨previous, fun topic partition hmem => ?_, fun id hid hsome => ?_⟩
        · obtain ⟨state', hstate', hpartition⟩ := mem_owned.mp hmem
          dsimp only [joinResult] at hstate'
          rw [AList.lookup_insert, some.injEq] at hstate'
          subst hstate'
          exact mem_owned.mpr ⟨state, hstate, hpartition⟩
        · obtain ⟨state', hlookup⟩ := isSome_iff_exists.mp hsome
          exact (herased id state' hid hlookup).1

theorem admits_joinDynamic {req : JoinRequest} :
    Admits g.members (g.joinDynamic cfg r req sessionTimeout).1.members
      (g.joinDynamic cfg r req sessionTimeout).2.memberId := by
  have hid : (g.joinDynamic cfg r req sessionTimeout).2.memberId = (g.memberIdOf r req).1 := rfl
  rw [joinDynamic_spec.1, hid]
  obtain ⟨state, hmembers, hassigned⟩ : ∃ state,
      (({ g with memberIdSeq := (g.memberIdOf r req).2 } : ConsumerGroup).enrol r req
        (g.memberIdOf r req).1 sessionTimeout).1.members =
        g.members.insert (g.memberIdOf r req).1 state ∧
      ∀ topic, ∀ partition ∈ (state.assignedPartitions.lookup topic).getD [],
        partition ∈ owned g.members (g.memberIdOf r req).1 topic := by
    unfold enrol
    split
    · exact ⟨_, rfl, nofun⟩
    · next state hstate => exact ⟨_, rfl, fun _ _ h => mem_owned.mpr ⟨state, hstate, h⟩⟩
  rw [hmembers]
  constructor
  · intro id state' hne hlookup
    rwa [AList.lookup_insert_ne hne] at hlookup
  · refine ⟨(g.memberIdOf r req).1, fun topic partition hmem => ?_, fun id hne _ => hne⟩
    obtain ⟨state', hstate', hpartition⟩ := mem_owned.mp hmem
    rw [AList.lookup_insert, some.injEq] at hstate'
    subst hstate'
    exact hassigned topic partition hpartition

theorem admits_joinGroup (group : Option ConsumerGroup) (req : JoinRequest) :
    Admits ((group.getD new).pruneExpiredMembers cfg r).members
      (joinGroup cfg r group req).1.members (joinGroup cfg r group req).2.memberId := by
  rcases joinGroup_cases cfg r group req with ⟨instanceId, -, -, hslot⟩ | hjoin
  · exact admits_rejoinStatic hslot
  · rw [hjoin]
    exact admits_joinDynamic cfg r

section Admits

variable {members members' : Members} {joined id topic : Text} {partition : UInt32}

theorem Admits.owned_of_ne (h : Admits members members' joined) (hid : id ≠ joined)
    (hmem : partition ∈ owned members' id topic) : partition ∈ owned members id topic := by
  obtain ⟨state', hstate', hpartition⟩ := mem_owned.mp hmem
  exact mem_owned.mpr ⟨state', h.others id state' hid hstate', hpartition⟩

theorem Admits.disjointly (h : Admits members members' joined) (hdisjoint : Disjointly members) :
    Disjointly members' := by
  obtain ⟨previous, howned, hfree⟩ := h.slot
  -- the member that joins shares nothing with a member that was there before
  have hjoined : ∀ id topic partition, id ≠ joined → partition ∈ owned members' id topic →
      partition ∉ owned members' joined topic := by
    intro id topic partition hid hmem hmem'
    refine hfree id hid (isSome_of_mem_owned hmem) ?_
    exact hdisjoint id previous topic partition (h.owned_of_ne hid hmem)
      (howned topic partition hmem')
  intro id id' topic partition hmem hmem'
  by_cases hid : id = joined
  · subst hid
    by_contra hne
    exact hjoined id' topic partition (Ne.symm hne) hmem' hmem
  · by_cases hid' : id' = joined
    · subst hid'
      exact absurd hmem' (hjoined id topic partition hid hmem)
    · exact hdisjoint id id' topic partition (h.owned_of_ne hid hmem) (h.owned_of_ne hid' hmem')

end Admits

theorem disjointly_serve {call : Call} (h : Disjointly (membersOf group)) :
    Disjointly (membersOf (serve cfg r group call).1) := by
  have hother := fun hjoin hsync => h.retained (retains_serve cfg r group call hjoin hsync)
  cases call with
  | join request =>
    exact (admits_joinGroup cfg r group request).disjointly (h.retained (retains_prune cfg r _))
  | sync generationId memberId assignments =>
    rcases (serve_sync_cases cfg r).1 with
      hretains | ⟨-, -, hcheck, hstored⟩
    · exact h.retained hretains
    · rw [hstored]
      exact disjointly_storeAssignments hcheck
  | heartbeat => exact hother (by simp) (by simp)
  | recordProgress => exact hother (by simp) (by simp)
  | leave => exact hother (by simp) (by simp)
  | describe => exact hother (by simp) (by simp)
  | closeJoinWindow => exact hother (by simp) (by simp)

theorem mem_membersOf_of_serve {call : Call} (hjoin : ∀ req, call ≠ .join req) {id : Text}
    (h : id ∈ membersOf (serve cfg r group call).1) : id ∈ membersOf group := by
  have hretained : ∀ {members}, Retains (membersOf group) members → id ∈ members →
      id ∈ membersOf group := by
    intro members hretains hmem
    obtain ⟨state', hstate'⟩ := isSome_iff_exists.mp (AList.lookup_isSome.mpr hmem)
    obtain ⟨state, hstate, -⟩ := hretains id state' hstate'
    exact AList.lookup_isSome.mp (isSome_of_eq_some hstate)
  by_cases hsync : ∃ generationId memberId assignments,
      call = .sync generationId memberId assignments
  · obtain ⟨generationId, memberId, assignments, rfl⟩ := hsync
    rcases (serve_sync_cases cfg r).1 with
      hretains | ⟨-, -, -, hstored⟩
    · exact hretained hretains h
    · rw [hstored, ← AList.lookup_isSome, isSome_lookup_storeAssignments, AList.lookup_isSome] at h
      exact hretained (retains_prune cfg r _) h
  · exact hretained
      (retains_serve cfg r group call hjoin fun generationId memberId assignments heq =>
      hsync ⟨generationId, memberId, assignments, heq⟩) h

end Bifrox.Coordinator

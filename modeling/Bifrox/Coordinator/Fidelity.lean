/-
What the leader submits and what is stored (`sync_group` in `src/server/coordinator.rs`).

An entry replaces what an earlier one has stored for the same member and topic.
-/
import Bifrox.Coordinator.Membership

namespace Bifrox.Coordinator

open List Option Coordinator.ConsumerGroup

/-! ## Pairs -/

variable (assignments : List MemberAssignment) (member topic : Text)

def Listed (partition : UInt32) : Prop :=
  ∃ assign ∈ assignments,
    assign.memberId = member ∧ assign.topic = topic ∧ partition ∈ assign.partitions

def owned (members : Members) (member topic : Text) : List UInt32 :=
  ((((members.lookup member).map MemberState.assignedPartitions).getD ∅).lookup topic).getD []

/-- What the members have is what the request lists for them. -/
def Faithful (g : ConsumerGroup) (assignments : List MemberAssignment) : Prop :=
  ∀ member topic partition,
    partition ∈ owned g.members member topic ↔ Listed assignments member topic partition

/-- Of the entries for one member and topic, none but the last lists a partition. -/
def Separate : Prop :=
  assignments.Pairwise fun earlier later =>
    earlier.memberId = later.memberId → earlier.topic = later.topic → earlier.partitions = []

def Exclusive : Prop :=
  assignments.Pairwise fun earlier later =>
    earlier.topic = later.topic → ∀ partition ∈ earlier.partitions, partition ∉ later.partitions

def lastEntry (assignments : List MemberAssignment) : Option MemberAssignment :=
  assignments.reverse.find? fun assign => assign.memberId = member ∧ assign.topic = topic

section LastEntry

variable {member topic : Text} {assign : MemberAssignment} {assignments : List MemberAssignment}

theorem lastEntry_cons : lastEntry member topic (assign :: assignments) =
    (lastEntry member topic assignments).or
      (if assign.memberId = member ∧ assign.topic = topic then some assign else none) := by
  rw [lastEntry, lastEntry, reverse_cons, List.find?_append, List.find?_cons]
  split
  · next h => rw [if_pos (of_decide_eq_true h)]
  · next h => rw [if_neg (of_decide_eq_false h), List.find?_nil]

theorem lastEntry_spec (h : lastEntry member topic assignments = some assign) :
    assign ∈ assignments ∧ assign.memberId = member ∧ assign.topic = topic := by
  have hfound := List.find?_some h
  exact ⟨mem_reverse.mp (mem_of_find?_eq_some h), of_decide_eq_true hfound⟩

theorem exists_lastEntry (hassign : assign ∈ assignments) (hmember : assign.memberId = member)
    (htopic : assign.topic = topic) : ∃ last, lastEntry member topic assignments = some last := by
  refine isSome_iff_exists.mp (List.find?_isSome.mpr ⟨assign, ?_, ?_⟩)
  · exact mem_reverse.mpr hassign
  · exact decide_eq_true ⟨hmember, htopic⟩

end LastEntry

def lastListed : List UInt32 :=
  ((lastEntry member topic assignments).map MemberAssignment.partitions).getD []

variable {assignments : List MemberAssignment}

theorem listed_of_mem_lastListed {member topic : Text} {partition : UInt32}
    (h : partition ∈ lastListed assignments member topic) :
    Listed assignments member topic partition := by
  rw [lastListed] at h
  rcases hlast : lastEntry member topic assignments with _ | last
  · rw [hlast] at h
    exact absurd h not_mem_nil
  · rw [hlast] at h
    obtain ⟨hmem, hmember, htopic⟩ := lastEntry_spec hlast
    exact ⟨last, hmem, hmember, htopic, h⟩

theorem lastListed_cons_of_some {assign last : MemberAssignment} {member topic : Text}
    (h : lastEntry member topic assignments = some last) :
    lastListed (assign :: assignments) member topic = last.partitions := by
  rw [lastListed, lastEntry_cons, h]
  rfl

/-- Among entries that share no pair, the last ones list everything just when the others
list nothing. -/
theorem lastListed_complete_iff (h : Exclusive assignments) :
    (∀ member topic partition, Listed assignments member topic partition →
      partition ∈ lastListed assignments member topic) ↔ Separate assignments := by
  induction assignments with
  | nil =>
    refine ⟨fun _ => List.Pairwise.nil, fun _ member topic partition hlisted => ?_⟩
    obtain ⟨assign, hassign, -⟩ := hlisted
    exact absurd hassign not_mem_nil
  | cons first rest ih =>
    obtain ⟨hfirst, hrest⟩ := pairwise_cons.mp h
    rw [Separate, pairwise_cons, ← Separate, ← ih hrest]
    constructor
    · intro hcomplete
      constructor
      · intro later hlater hmember htopic
        obtain ⟨last, hlast⟩ := exists_lastEntry hlater hmember.symm htopic.symm
        obtain ⟨hmem, -, htopic'⟩ := lastEntry_spec hlast
        refine eq_nil_iff_forall_not_mem.mpr fun partition hpartition => ?_
        have hin := hcomplete first.memberId first.topic partition
          ⟨first, mem_cons_self, rfl, rfl, hpartition⟩
        rw [lastListed_cons_of_some hlast] at hin
        exact hfirst last hmem htopic'.symm partition hpartition hin
      · rintro member topic partition ⟨assign, hassign, hmember, htopic, hpartition⟩
        obtain ⟨last, hlast⟩ := exists_lastEntry hassign hmember htopic
        have hin := hcomplete member topic partition
          ⟨assign, mem_cons_of_mem first hassign, hmember, htopic, hpartition⟩
        rw [lastListed_cons_of_some hlast] at hin
        rw [lastListed, hlast]
        exact hin
    · rintro ⟨hempty, hcomplete⟩ member topic partition
        ⟨assign, hassign, hmember, htopic, hpartition⟩
      -- Either an entry of the rest is the last one, or the first entry is the only one.
      rcases hlast : lastEntry member topic rest with _ | last
      · rcases mem_cons.mp hassign with rfl | htail
        · rw [lastListed, lastEntry_cons, hlast, if_pos ⟨hmember, htopic⟩]
          exact hpartition
        · obtain ⟨last, hsome⟩ := exists_lastEntry htail hmember htopic
          rw [hlast] at hsome
          exact absurd hsome.symm (some_ne_none last)
      · rw [lastListed_cons_of_some hlast]
        obtain ⟨hmem, hmember', htopic'⟩ := lastEntry_spec hlast
        rcases mem_cons.mp hassign with rfl | htail
        · rw [hempty last hmem (hmember.trans hmember'.symm)
            (htopic.trans htopic'.symm)] at hpartition
          exact absurd hpartition not_mem_nil
        · have hin := hcomplete member topic partition ⟨assign, htail, hmember, htopic, hpartition⟩
          rw [lastListed, hlast] at hin
          exact hin

theorem claim_spec {topic : Text} {owners owners' : List (Text × UInt32)} {partitions : List UInt32}
    (h : claim topic owners partitions = some owners') :
    (∀ partition ∈ partitions, (topic, partition) ∉ owners) ∧
      ∀ pair, pair ∈ owners' ↔ pair ∈ owners ∨ ∃ partition ∈ partitions,
        pair = (topic, partition) := by
  induction partitions generalizing owners with
  | nil =>
    rw [claim, Option.some.injEq] at h
    subst h
    simp
  | cons first partitions ih =>
    rw [claim] at h
    split at h
    · exact absurd h.symm (some_ne_none _)
    · next hfirst =>
      obtain ⟨hfree, howners⟩ := ih h
      refine ⟨fun partition hpartition => ?_, fun pair => ?_⟩
      · rcases mem_cons.mp hpartition with rfl | hrest
        · exact hfirst
        · exact fun hmem => hfree partition hrest (mem_cons_of_mem _ hmem)
      · rw [howners pair]
        simp only [mem_cons, exists_eq_or_imp]
        tauto

variable {members : Members}

theorem checkAssignments_spec {owners : List (Text × UInt32)}
    (h : checkAssignments members owners assignments = .ok ()) :
    (∀ assign ∈ assignments, (members.lookup assign.memberId).isSome = true) ∧
      (∀ assign ∈ assignments, ∀ partition ∈ assign.partitions,
        (assign.topic, partition) ∉ owners) ∧ Exclusive assignments := by
  induction assignments generalizing owners with
  | nil =>
    exact ⟨fun _ hassign => absurd hassign not_mem_nil,
      fun _ hassign => absurd hassign not_mem_nil, List.Pairwise.nil⟩
  | cons first rest ih =>
    rw [checkAssignments] at h
    split at h
    · exact absurd h (by simp)
    · next hknown =>
      split at h
      · exact absurd h (by simp)
      · next owners' hclaim =>
        obtain ⟨hfree, howners⟩ := claim_spec hclaim
        obtain ⟨hmembers, hdisjoint, hexclusive⟩ := ih h
        refine ⟨fun assign hassign => ?_, fun assign hassign partition hpartition => ?_,
          pairwise_cons.mpr ⟨fun later hlater htopic partition hpartition hmem => ?_, hexclusive⟩⟩
        · rcases mem_cons.mp hassign with rfl | hrest
          · rwa [Bool.not_eq_true, isNone_eq_false_iff] at hknown
          · exact hmembers assign hrest
        · rcases mem_cons.mp hassign with rfl | hrest
          · exact hfree partition hpartition
          · exact fun hmem =>
              hdisjoint assign hrest partition hpartition ((howners _).mpr (.inl hmem))
        · refine hdisjoint later hlater partition hmem
            ((howners _).mpr (.inr ⟨partition, hpartition, ?_⟩))
          rw [htopic]

/-! ## The storing -/

theorem lookup_cleared (keys : List Text) (members : Members) (id : Text) :
    (keys.foldl (fun members id => modify members id fun member =>
      { member with assignedPartitions := ∅ }) members).lookup id =
      if id ∈ keys then
        (members.lookup id).map fun member => { member with assignedPartitions := ∅ }
      else members.lookup id := by
  induction keys generalizing members with
  | nil => rfl
  | cons key keys ih =>
    rw [foldl_cons, ih, lookup_modify]
    by_cases hkey : id = key
    · subst hkey
      simp only [if_pos, mem_cons_self, Option.map_map]
      split <;> rfl
    · simp [hkey]

theorem owned_cleared (members : Members) (member topic : Text) :
    owned (members.keys.foldl (fun members id => modify members id fun member =>
      { member with assignedPartitions := ∅ }) members) member topic = [] := by
  rw [owned, lookup_cleared]
  rcases hlookup : members.lookup member with _ | state
  · simp
  · have hkey : member ∈ members.keys :=
      AList.mem_keys.mp (AList.lookup_isSome.mp (by rw [hlookup]; rfl))
    rw [if_pos hkey]
    simp

theorem owned_modify {assign : MemberAssignment}
    (h : (members.lookup assign.memberId).isSome = true) (member topic : Text) :
    owned (modify members assign.memberId fun member =>
      { member with
        assignedPartitions := member.assignedPartitions.insert assign.topic assign.partitions })
      member topic =
      if assign.memberId = member ∧ assign.topic = topic then assign.partitions
      else owned members member topic := by
  rw [owned, lookup_modify]
  by_cases hmember : assign.memberId = member
  · subst hmember
    obtain ⟨state, hstate⟩ := isSome_iff_exists.mp h
    rw [if_pos rfl, hstate, owned, hstate]
    by_cases htopic : assign.topic = topic
    · subst htopic
      simp
    · rw [if_neg fun hboth => htopic hboth.2]
      simp only [map_some, getD_some]
      rw [AList.lookup_insert_ne (Ne.symm htopic)]
  · rw [if_neg (Ne.symm hmember), if_neg fun hboth => hmember hboth.1]
    rfl

section

variable (h : ∀ assign ∈ assignments, (members.lookup assign.memberId).isSome = true)
include h

theorem owned_foldl (member topic : Text) :
    owned (assignments.foldl (fun members assign => modify members assign.memberId fun member =>
      { member with
        assignedPartitions := member.assignedPartitions.insert assign.topic assign.partitions })
      members) member topic =
      ((lastEntry member topic assignments).map MemberAssignment.partitions).getD
        (owned members member topic) := by
  induction assignments generalizing members with
  | nil => rfl
  | cons first rest ih =>
    rw [foldl_cons, ih fun assign hassign => ?_, owned_modify (h first mem_cons_self),
      lastEntry_cons]
    · rcases lastEntry member topic rest with _ | last
      · split <;> rfl
      · rfl
    · have hmember := h assign (mem_cons_of_mem first hassign)
      rw [lookup_modify]
      split
      · next hid => rwa [Option.isSome_map, ← hid]
      · exact hmember

theorem owned_storeAssignments (member topic : Text) :
    owned (storeAssignments members assignments) member topic =
      lastListed assignments member topic := by
  rw [storeAssignments, owned_foldl, owned_cleared, lastListed]
  intro assign hassign
  rw [lookup_cleared]
  split
  · rw [isSome_map]
    exact h assign hassign
  · exact h assign hassign

end

/-- What an accepted call of the leader leaves: the answer to an empty request of a stable
group, or what was submitted. -/
theorem syncPruned_leader {g g' : ConsumerGroup} {generationId : UInt32} {memberId : Text}
    {answer : Assignment} (hleader : g.leader = some memberId)
    (h : g.syncPruned generationId memberId assignments = (g', .ok answer)) :
    (g.state = .stable ∧ assignments = [] ∧ g' = g) ∨
      ((g.state ≠ .stable ∨ assignments ≠ []) ∧ checkAssignments g.members [] assignments = .ok () ∧
        g'.members = storeAssignments g.members assignments) := by
  unfold syncPruned at h
  split at h
  · exact absurd (congrArg Prod.snd h) (by simp)
  · split at h
    · exact absurd (congrArg Prod.snd h) (by simp)
    · split at h
      · next hsubmits =>
        split at h
        · exact absurd (congrArg Prod.snd h) (by simp)
        · next hcheck =>
          exact .inr ⟨hsubmits.2, hcheck, congrArg (fun result => result.1.members) h.symm⟩
      · next hasks =>
        have hstable : g.state = .stable := by
          by_contra hne
          exact hasks ⟨hleader, .inl hne⟩
        have hempty : assignments = [] := by
          by_contra hne
          exact hasks ⟨hleader, .inr hne⟩
        rw [if_neg (not_not.mpr hstable)] at h
        exact .inl ⟨hstable, hempty, (congrArg Prod.fst h).symm⟩

/-- After a call of the leader that is accepted the members have what it lists just when
it lists nothing in an entry that a later one replaces, and is no empty request to a
stable group in which a partition is assigned. -/
theorem faithful_sync_iff (cfg : Config) (r : Reading) (g g' : ConsumerGroup)
    (generationId : UInt32) (memberId : Text) (assignments : List MemberAssignment)
    (answer : Assignment) (hleader : (g.pruneExpiredMembers cfg r).leader = some memberId)
    (h : serve cfg r (some g) (.sync generationId memberId assignments) =
      (some g', .synced (.ok answer))) :
    Faithful g' assignments ↔ Separate assignments ∧
        ((g.pruneExpiredMembers cfg r).state = .stable → assignments = [] →
          ∀ member topic, owned (g.pruneExpiredMembers cfg r).members member topic = []) := by
  have hsync : (g.pruneExpiredMembers cfg r).syncPruned generationId memberId assignments =
      (g', .ok answer) := by
    refine Prod.ext ?_ ?_
    · exact Option.some.inj (congrArg Prod.fst h)
    · exact Answer.synced.inj (congrArg Prod.snd h)
  rcases syncPruned_leader hleader hsync with ⟨hstable, rfl, rfl⟩ | ⟨hsubmits, hcheck, hstored⟩
  · constructor
    · refine fun hfaithful => ⟨List.Pairwise.nil, fun _ _ member topic => ?_⟩
      refine eq_nil_iff_forall_not_mem.mpr fun partition hpartition => ?_
      obtain ⟨assign, hassign, -⟩ := (hfaithful member topic partition).mp hpartition
      exact absurd hassign not_mem_nil
    · rintro ⟨-, hnothing⟩ member topic partition
      rw [hnothing hstable rfl member topic]
      constructor
      · exact fun hmem => absurd hmem not_mem_nil
      · rintro ⟨assign, hassign, -⟩
        exact absurd hassign not_mem_nil
  · obtain ⟨hknown, -, hexclusive⟩ := checkAssignments_spec hcheck
    have hlast : ∀ member topic,
        owned g'.members member topic = lastListed assignments member topic := by
      intro member topic
      rw [hstored, owned_storeAssignments hknown]
    have hfaithful : Faithful g' assignments ↔ Separate assignments := by
      rw [← lastListed_complete_iff hexclusive]
      constructor
      · intro hfaithful member topic partition hlisted
        rw [← hlast]
        exact (hfaithful member topic partition).mpr hlisted
      · intro hcomplete member topic partition
        rw [hlast]
        exact ⟨listed_of_mem_lastListed, hcomplete member topic partition⟩
    rw [hfaithful]
    refine ⟨fun hseparate => ⟨hseparate, fun hstable hempty => ?_⟩, fun hboth => hboth.1⟩
    exact absurd hempty (hsubmits.resolve_left (not_not.mpr hstable))

/-! ### Two entries for one member -/

def lenient : Config := { initialRebalanceDelay := 0, maxPollInterval := 1 }

def atStart : Reading := { now := 0, wallNanos := 0, order := [] }

def newcomer : MemberState where
  sessionTimeout := 1
  assignedPartitions := ∅
  lastHeartbeat := 0
  lastProgress := 0
  groupInstanceId := none

/-- Two members that have joined and wait for the assignments of the first. -/
def joined : ConsumerGroup where
  state := .completingRebalance
  generationId := 1
  leader := some ['a']
  members := ((∅ : Members).insert ['b'] newcomer).insert ['a'] newcomer
  protocolName := none
  rebalanceDeadline := none
  staticMembers := ∅
  memberIdSeq := 0
  recentEvictions := []

def spread : List MemberAssignment :=
  [{ memberId := ['a'], topic := ['t'], partitions := [0] },
    { memberId := ['b'], topic := ['t'], partitions := [1] },
    { memberId := ['a'], topic := ['u'], partitions := [0] }]

theorem faithful_spread :
    Faithful { joined with members := storeAssignments joined.members spread, state := .stable }
      spread :=
  (faithful_sync_iff lenient atStart joined _ 1 ['a'] spread _ rfl rfl).mpr
    ⟨by unfold Separate; decide, fun hstable => absurd hstable (by decide)⟩

def split : List MemberAssignment :=
  [{ memberId := ['a'], topic := ['t'], partitions := [0] },
    { memberId := ['a'], topic := ['t'], partitions := [1] }]

/-- The second entry is stored in place of the first. -/
theorem not_faithful_split :
    ∃ g' answer, serve lenient atStart (some joined) (.sync 1 ['a'] split) =
        (some g', .synced (.ok answer)) ∧
      (joined.pruneExpiredMembers lenient atStart).leader = some ['a'] ∧ ¬ Faithful g' split := by
  refine ⟨_, _, rfl, rfl, fun h => ?_⟩
  have hlost := (h ['a'] ['t'] 0).mpr ⟨_, mem_cons_self, rfl, rfl, mem_cons_self⟩
  exact absurd hlost (by decide)

end Bifrox.Coordinator

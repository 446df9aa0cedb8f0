/-
What the members that stay learn of one that has gone.

The generation is all that a heartbeat is checked against, and of the calls that take a member out
of a group only a join can change it.
-/
import Bifrox.Coordinator.Membership

namespace Bifrox.Coordinator

open Option Coordinator.ConsumerGroup Run AList

namespace ConsumerGroup

variable {cfg : Config} {r : Reading} {g : ConsumerGroup} {req : JoinRequest} {call : Call}

/-! ## Joins that restart the group -/

/-- The caller is not a member, or asks for the second round of a cooperative rebalance. -/
def Restarts (r : Reading) (g : ConsumerGroup) (req : JoinRequest) : Prop :=
  g.members.lookup (g.memberIdOf r req).1 = none ∨
    req.cooperativeRoundTwo = true ∧ g.isCooperative = true ∧ g.state = .stable

theorem enrol_iff_restarts {seq : UInt64} {sessionTimeout : Nat} :
    (({ g with memberIdSeq := seq } : ConsumerGroup).enrol r req (g.memberIdOf r req).1
      sessionTimeout).2 = true ↔ g.Restarts r req := by
  rw [enrol, Restarts]
  cases g.members.lookup (g.memberIdOf r req).1 with
  | none => simp
  | some member => simp [isCooperative, and_assoc]

/-- Whoever is given the slot of a member has been one. -/
theorem not_restarts_of_rejoinStatic {instanceId : Text} {sessionTimeout : Nat}
    {result : ConsumerGroup × JoinResult} (hinstance : req.groupInstanceId = some instanceId)
    (hround : req.cooperativeRoundTwo = false)
    (hslot : g.rejoinStatic r instanceId sessionTimeout = some result) : ¬ g.Restarts r req := by
  rintro (hnew | ⟨htwo, -⟩)
  · rw [rejoinStatic] at hslot
    split at hslot
    · cases hslot
    · next previous hprevious =>
      have hid : (g.memberIdOf r req).1 = previous := by
        simp only [memberIdOf, hinstance, hprevious]
      rw [hid] at hnew
      rw [hnew] at hslot
      cases hslot
  · rw [hround] at htwo
    cases htwo

theorem lt_generationId_joinGroup_iff (hstate : (g.pruneExpiredMembers cfg r).state ≠ .empty) :
    g.generationId < (joinGroup cfg r (some g) req).1.generationId ↔
      g.isWindowOpen r.now = false ∧ g.generationId ≠ 0xFFFFFFFF ∧
        (g.pruneExpiredMembers cfg r).Restarts r req := by
  have hprune := sameRound_prune cfg r g
  rcases joinGroup_cases cfg r (some g) req with ⟨instanceId, hinstance, hround, hslot⟩ | hjoin
  · rw [(hprune.trans (sameRound_rejoinStatic hslot)).1]
    exact iff_of_false (UInt32.lt_irrefl _) fun h =>
      not_restarts_of_rejoinStatic hinstance hround hslot h.2.2
  · obtain ⟨-, -, -, -, hgeneration⟩ := joinDynamic_spec
    rw [hjoin, getD_some, ← hprune.1, ← hprune.isWindowOpen_eq, hgeneration]
    split
    · next hnew =>
      rw [Bool.and_eq_true, Bool.or_eq_true, enrol_iff_restarts, decide_eq_true_iff,
        Bool.not_eq_true'] at hnew
      refine ⟨fun hlt => ⟨hnew.2, fun hmax => ?_, hnew.1.resolve_right hstate⟩,
        fun h => lt_nextGeneration h.2.1⟩
      rw [hmax] at hlt
      exact UInt32.lt_irrefl _ hlt
    · next hold =>
      refine iff_of_false (UInt32.lt_irrefl _) fun h => hold ?_
      rw [enrol_iff_restarts.mpr h.2.2, h.1]
      rfl

/-! ## Departures -/

/-- The member leaves with the call, or is evicted by the pruning that the call begins with. -/
def Leaves (cfg : Config) (now : Nat) (g : ConsumerGroup) (id : Text) (member : MemberState) :
    Call → Prop
  | .leave memberId groupInstanceId => g.leaving memberId groupInstanceId = id
  | .recordProgress _ | .closeJoinWindow => False
  | _ => member.evictionReason cfg now ≠ none

/-- A pruning would leave a member. -/
def HasSurvivor (cfg : Config) (now : Nat) (members : Members) : Prop :=
  ∃ id member, members.lookup id = some member ∧ member.evictionReason cfg now = none

theorem HasSurvivor.modify {now : Nat} {members : Members} (h : HasSurvivor cfg now members)
    (memberId : Text) {f : MemberState → MemberState} (hf : ∀ member : MemberState,
      member.evictionReason cfg now = none → (f member).evictionReason cfg now = none) :
    HasSurvivor cfg now (modify members memberId f) := by
  obtain ⟨id, member, hmember, halive⟩ := h
  by_cases hid : id = memberId
  · refine ⟨id, f member, ?_, hf member halive⟩
    rw [lookup_modify, if_pos hid, ← hid, hmember]
    rfl
  · refine ⟨id, member, ?_, halive⟩
    rw [lookup_modify, if_neg hid, hmember]

theorem evictionReason_refresh {now sessionTimeout : Nat} {member : MemberState}
    (h : member.evictionReason cfg now = none) :
    { member with lastHeartbeat := now, sessionTimeout }.evictionReason cfg now = none := by
  unfold MemberState.evictionReason at h ⊢
  rw [Nat.sub_self, if_neg (Nat.not_lt_zero _)]
  split at h
  · cases h
  · exact h

theorem lookup_prune_of_alive {id : Text} {member : MemberState}
    (hmember : g.members.lookup id = some member)
    (halive : member.evictionReason cfg r.now = none) :
    (g.pruneExpiredMembers cfg r).members.lookup id = some member := by
  rw [lookup_prune, hmember]
  exact filter_some_pos (isNone_iff_eq_none.mpr halive)

/-- The caller itself has just been heard of. -/
theorem hasSurvivor_joinGroup (req : JoinRequest) :
    HasSurvivor cfg r.now (joinGroup cfg r (some g) req).1.members := by
  have hfresh : ∀ member : MemberState, member.lastHeartbeat = r.now → member.lastProgress = r.now →
      member.evictionReason cfg r.now = none := by
    intro member hheartbeat hprogress
    simp [MemberState.evictionReason, hheartbeat, hprogress]
  rcases joinGroup_cases cfg r (some g) req with ⟨instanceId, -, -, hslot⟩ | hjoin
  · rw [rejoinStatic] at hslot
    split at hslot
    · cases hslot
    · split at hslot
      · cases hslot
      · rw [← some.inj hslot]
        exact ⟨_, _, lookup_insert _, hfresh _ rfl rfl⟩
  · rw [hjoin, joinDynamic_spec.1, enrol]
    dsimp only
    split
    · exact ⟨_, _, lookup_insert _, hfresh _ rfl rfl⟩
    · next member hmember =>
      rw [getD_some, lookup_prune, filter_eq_some_iff, isNone_iff_eq_none] at hmember
      exact ⟨_, _, lookup_insert _, evictionReason_refresh hmember.2⟩

/-- Whoever stays is there after the call, or the caller is. -/
theorem hasSurvivor_serve {gone other : Text} {member member' : MemberState}
    (hleaves : Leaves cfg r.now g gone member call)
    (hother : g.members.lookup other = some member')
    (halive : member'.evictionReason cfg r.now = none)
    (hstays : ¬ Leaves cfg r.now g other member' call) :
    HasSurvivor cfg r.now ((serve cfg r (some g) call).1.getD new).members := by
  have hleft : HasSurvivor cfg r.now (g.pruneExpiredMembers cfg r).members :=
    ⟨other, member', lookup_prune_of_alive hother halive, halive⟩
  cases call with
  | join req => exact hasSurvivor_joinGroup req
  | sync generationId memberId assignments =>
    have hcleared := run_invariant (P := HasSurvivor cfg r.now)
      (fun _ id hm => hm.modify id (f := fun member => { member with assignedPartitions := ∅ })
        fun _ halive => halive) hleft (g.pruneExpiredMembers cfg r).members.keys
    have hstored : HasSurvivor cfg r.now
        (storeAssignments (g.pruneExpiredMembers cfg r).members assignments) :=
      run_invariant (P := HasSurvivor cfg r.now)
        (fun _ assign hm => hm.modify assign.memberId (by exact fun _ halive => halive))
        hcleared assignments
    show HasSurvivor cfg r.now (ConsumerGroup.syncPruned _ generationId memberId _).1.members
    unfold syncPruned
    repeat' split
    all_goals first | exact hleft | exact hstored
  | heartbeat generationId memberId =>
    have hrefreshed := hleft.modify memberId (f := fun member =>
      { member with lastHeartbeat := r.now }) fun _ halive => evictionReason_refresh halive
    show HasSurvivor cfg r.now (ConsumerGroup.heartbeatPruned r _ generationId memberId).1.members
    unfold heartbeatPruned
    dsimp only
    repeat' split
    all_goals first | exact hleft | exact hrefreshed
  | leave memberId groupInstanceId =>
    refine ⟨other, member', ?_, halive⟩
    show (g.leaveGroup r memberId groupInstanceId).members.lookup other = _
    rw [(leaveGroup_spec r g memberId groupInstanceId).2, if_neg (Ne.symm hstays), hother]
  | describe => exact hleft
  | recordProgress | closeJoinWindow => exact hleaves.elim

/-- A request to join under an id of the caller's own. -/
def joinAs (id : Text) : JoinRequest where
  memberId := id
  groupInstanceId := none
  protocols := []
  sessionTimeoutMs := none
  cooperativeRoundTwo := false

end ConsumerGroup

/-! ## Runs -/

namespace Timed

variable {cfg : Config} {s : Timed} {e : Event} {id : Text} {generation : UInt32}
  {g : ConsumerGroup}

def current (s : Timed) : ConsumerGroup := s.group.getD new

def answer (cfg : Config) (s : Timed) (e : Event) : Answer :=
  (serve cfg (s.reading e) s.group e.call).2

def promptly (call : Call) : Event := { elapsed := 0, wallNanos := 0, order := [], call := call }

/-- A member of a stable group that owns a partition departs, and another one stays, whose time
is not over either. -/
structure Departs (cfg : Config) (s : Timed) (e : Event) (id : Text) : Prop where
  stable : s.current.state = .stable
  leaves : ∃ member topic partition partitions, s.current.members.lookup id = some member ∧
    member.assignedPartitions.lookup topic = some (partition :: partitions) ∧
    Leaves cfg (s.clock + e.elapsed) s.current id member e.call
  stays : ∃ other member, s.current.members.lookup other = some member ∧
    member.evictionReason cfg (s.clock + e.elapsed) = none ∧
    ¬ Leaves cfg (s.clock + e.elapsed) s.current other member e.call

/-- No one who is a member after the call has a heartbeat for the generation of the departure
accepted. -/
def Noticed (cfg : Config) (s : Timed) (e : Event) : Prop :=
  ∀ id, id ∈ (s.step cfg e).current.members → ∀ (later : List Event) (last : Event),
    last.call = .heartbeat s.current.generationId id →
      (run (step cfg) (s.step cfg e) later).answer cfg last ≠ .heartbeat (.ok ())

/-- The call is a join that starts another generation: no join window is open, there is a
generation left, and the group is restarted. -/
def StartsGeneration (cfg : Config) (s : Timed) (e : Event) : Prop :=
  ∃ req, e.call = .join req ∧ s.current.isWindowOpen (s.clock + e.elapsed) = false ∧
    s.current.generationId ≠ 0xFFFFFFFF ∧
      (s.current.pruneExpiredMembers cfg (s.reading e)).Restarts (s.reading e) req

theorem current_of_some (h : s.group = some g) : s.current = g := by
  rw [current, h]
  rfl

theorem group_of_stable (h : s.current.state = .stable) : s.group = some s.current := by
  cases hgroup : s.group with
  | none =>
    rw [current, hgroup] at h
    cases h
  | some => rw [current_of_some hgroup]

theorem answer_ok_iff (hgroup : s.group = some g) (hcall : e.call = .heartbeat generation id) :
    s.answer cfg e = .heartbeat (.ok ()) ↔ generation = g.generationId ∧
      ((g.pruneExpiredMembers cfg (s.reading e)).members.lookup id).isSome = true := by
  rw [answer, hgroup, hcall, ← (sameRound_prune cfg (s.reading e) g).1,
    ← heartbeatPruned_ok_iff (s.reading e)]
  exact ⟨Answer.heartbeat.inj, congrArg Answer.heartbeat⟩

theorem refused_of_lt (hgroup : s.group = some g) (hlt : generation < g.generationId)
    (later : List Event) {last : Event} (hlast : last.call = .heartbeat generation id) :
    (run (step cfg) s later).answer cfg last ≠ .heartbeat (.ok ()) := by
  obtain ⟨g', hgroup', hlt'⟩ : ∃ g', (run (step cfg) s later).group = some g' ∧
      generation < g'.generationId := by
    refine run_invariant (P := fun s : Timed => ∃ g, s.group = some g ∧ generation < g.generationId)
      (fun s e h => ?_) ⟨g, hgroup, hlt⟩ later
    obtain ⟨g, hgroup, hlt⟩ := h
    obtain ⟨g', hg', hle⟩ := le_generationId_serve
    exact ⟨g', by rw [step, hgroup]; exact hg', UInt32.lt_of_lt_of_le hlt hle⟩
  intro hok
  have heq := ((answer_ok_iff hgroup' hlast).mp hok).1
  exact UInt32.lt_irrefl _ (heq ▸ hlt')

theorem not_noticed_of_hasSurvivor (hnext : (s.step cfg e).group = some g)
    (hgeneration : g.generationId = s.current.generationId)
    (halive : HasSurvivor cfg (s.clock + e.elapsed) g.members) : ¬ s.Noticed cfg e := by
  intro hnoticed
  obtain ⟨id, member, hmember, halive⟩ := halive
  have hmem : id ∈ (s.step cfg e).current.members := by
    rw [current_of_some hnext, ← lookup_isSome, hmember]
    rfl
  refine hnoticed id hmem [] (promptly (.heartbeat s.current.generationId id)) rfl ?_
  rw [run_nil, answer_ok_iff hnext rfl, lookup_prune_of_alive hmember halive]
  exact ⟨hgeneration.symm, rfl⟩

theorem Departs.hasSurvivor (h : Departs cfg s e id) (hnext : (s.step cfg e).group = some g) :
    HasSurvivor cfg (s.clock + e.elapsed) g.members := by
  obtain ⟨_, -, -, -, -, -, hleaves⟩ := h.leaves
  obtain ⟨other, member, hother, halive, hstays⟩ := h.stays
  have hsurvivor := hasSurvivor_serve (r := s.reading e) hleaves hother halive hstays
  have hserved : (serve cfg (s.reading e) s.group e.call).1 = some g := hnext
  rw [← group_of_stable h.stable, hserved] at hsurvivor
  exact hsurvivor

theorem Departs.lt_generationId_iff (h : Departs cfg s e id) :
    ∃ g, (s.step cfg e).group = some g ∧ s.current.generationId ≤ g.generationId ∧
      (s.current.generationId < g.generationId ↔ StartsGeneration cfg s e) := by
  rw [step, group_of_stable h.stable]
  by_cases hjoin : ∃ req, e.call = .join req
  · obtain ⟨req, hcall⟩ := hjoin
    obtain ⟨other, member, hother, halive, -⟩ := h.stays
    have hkept := lookup_prune_of_alive (r := s.reading e) hother halive
    have hstate : (s.current.pruneExpiredMembers cfg (s.reading e)).state ≠ .empty := by
      rw [state_prune, if_neg, h.stable]
      · nofun
      · exact List.ne_nil_of_mem (mem_keys.mp (lookup_isSome.mp (by rw [hkept]; rfl)))
    refine ⟨_, by rw [hcall]; rfl, le_generationId_joinGroup,
      (lt_generationId_joinGroup_iff hstate).trans ⟨fun hnew => ⟨req, hcall, hnew⟩, ?_⟩⟩
    rintro ⟨req', hcall', hnew⟩
    cases hcall.symm.trans hcall'
    exact hnew
  · refine (generationId_serve fun req hcall => hjoin ⟨req, hcall⟩).imp fun g hg => ⟨hg.1, ?_⟩
    rw [hg.2]
    exact ⟨UInt32.le_refl _, iff_of_false (UInt32.lt_irrefl _) fun ⟨req, hcall, _⟩ =>
      hjoin ⟨req, hcall⟩⟩

/-- A departure is noticed exactly when the call is a join that starts another generation. -/
theorem noticed_iff_startsGeneration (cfg : Config) (s : Timed) (e : Event) (id : Text)
    (h : Departs cfg s e id) : Noticed cfg s e ↔ StartsGeneration cfg s e := by
  obtain ⟨g, hnext, hle, hiff⟩ := h.lt_generationId_iff
  constructor
  · intro hnoticed
    by_contra hstarts
    have hgeneration : g.generationId = s.current.generationId :=
      UInt32.le_antisymm (UInt32.not_lt.mp fun hlt => hstarts (hiff.mp hlt)) hle
    exact not_noticed_of_hasSurvivor hnext hgeneration (h.hasSurvivor hnext) hnoticed
  · exact fun hstarts id _ later last hlast =>
      refused_of_lt hnext (hiff.mpr hstarts) later hlast

/-! ### Two members -/

def defaults : Config := { initialRebalanceDelay := millis 3000, maxPollInterval := millis 300000 }

/-- Two members join, and when the window is closed the first one, who leads, gives each
of them a partition. -/
def pairing : List Event :=
  [promptly (.join (joinAs ['a'])), promptly (.join (joinAs ['b'])),
    { promptly .closeJoinWindow with elapsed := millis 4000 },
    promptly (.sync 1 ['a'] [{ memberId := ['a'], topic := ['t'], partitions := [0] },
      { memberId := ['b'], topic := ['t'], partitions := [1] }])]

/-- One of two members leaves, and the heartbeat of the other is accepted. -/
theorem not_noticed_pairing :
    Departs defaults (run (step defaults) start pairing) (promptly (.leave ['b'] none)) ['b'] ∧
      ¬ Noticed defaults (run (step defaults) start pairing) (promptly (.leave ['b'] none)) := by
  constructor
  · exact ⟨rfl, ⟨_, ['t'], 1, [], rfl, rfl, rfl⟩, ⟨['a'], _, rfl, rfl, nofun⟩⟩
  · intro hnoticed
    exact hnoticed ['a'] (by decide) [] (promptly (.heartbeat 1 ['a'])) rfl rfl

/-- The session of the first lasts longer, and a third one joins when that of the second
is over. -/
theorem noticed_pairing_third :
    let staying := promptly (.join { joinAs ['a'] with sessionTimeoutMs := some 30000 }) ::
      pairing.tail
    let third : Event := { promptly (.join (joinAs ['c'])) with elapsed := millis 10001 }
    Departs defaults (run (step defaults) start staying) third ['b'] ∧
      Noticed defaults (run (step defaults) start staying) third := by
  intro staying third
  have hthird : Departs defaults (run (step defaults) start staying) third ['b'] := by
    refine ⟨rfl, ⟨_, ['t'], 1, [], rfl, rfl, ?_⟩, ⟨['a'], _, rfl, by decide, ?_⟩⟩
    · show MemberState.evictionReason _ _ _ ≠ none
      decide
    · show ¬ MemberState.evictionReason _ _ _ ≠ none
      decide
  exact ⟨hthird, (noticed_iff_startsGeneration defaults _ third ['b'] hthird).mpr
    ⟨_, rfl, by decide, by decide, .inl (by decide)⟩⟩

end Timed

/-! ## Strangers -/

namespace ConsumerGroup

variable {g : ConsumerGroup} {memberId : Text} {groupInstanceId : Option Text}

/-- No member is named, and no slot. -/
structure Stranger (g : ConsumerGroup) (memberId : Text) (groupInstanceId : Option Text) :
    Prop where
  member : g.members.lookup memberId = none
  slot : groupInstanceId.bind g.staticMembers.lookup = none

def Idle (g : ConsumerGroup) (memberId : Text) : Prop :=
  if g.members.keys = [] then g.state = .empty ∧ g.leader = none
  else g.state = .preparingRebalance ∧ g.leader ≠ some memberId

theorem Stranger.release (h : g.Stranger memberId groupInstanceId) :
    g.release groupInstanceId = g := by
  cases groupInstanceId with
  | none => rfl
  | some instanceId =>
    have hslot := lookup_eq_none.mp h.slot
    have herase : g.staticMembers.erase instanceId = g.staticMembers :=
      ext (List.kerase_of_notMem_keys hslot)
    rw [ConsumerGroup.release, herase]

/-- `leave_group` sets the state before it knows that no one has gone. -/
theorem leaveGroup_eq_self_iff_idle (r : Reading) (g : ConsumerGroup) (memberId : Text)
    (groupInstanceId : Option Text) (h : g.Stranger memberId groupInstanceId) :
    g.leaveGroup r memberId groupInstanceId = g ↔ g.Idle memberId := by
  have hgone : g.leaving memberId groupInstanceId = memberId := by rw [leaving, h.slot, getD_none]
  have hremove : g.remove memberId = g := by rw [remove, h.member]
  rw [leaveGroup, hgone, h.release, hremove, Idle]
  split
  · constructor
    · intro heq
      exact ⟨(congrArg state heq).symm, (congrArg leader heq).symm⟩
    · rintro ⟨hstate, hleader⟩
      rw [← hstate, ← hleader]
  · rw [replaceLeader]
    split
    · next hleader =>
      refine iff_of_false (fun heq => ?_) fun hidle => hidle.2 hleader
      have hfirst := (congrArg leader heq).trans hleader
      exact (firstMember_spec r.order g.members).1 memberId hfirst
        (by rw [instanceOf, h.member]; rfl)
    · next hleader =>
      constructor
      · intro heq
        exact ⟨(congrArg state heq).symm, hleader⟩
      · rintro ⟨hstate, -⟩
        rw [← hstate]

end ConsumerGroup

namespace Timed

/-- The call of a stranger takes a stable group out of its state, and its members can no
longer sync. -/
theorem not_unchanged_pairing : let g := (run (step defaults) start pairing).current
    g.Stranger ['c'] none ∧ g.state = .stable ∧
      (g.leaveGroup ⟨0, 0, []⟩ ['c'] none).state = .preparingRebalance :=
  ⟨⟨rfl, rfl⟩, rfl, rfl⟩

/-- A second one changes nothing any more. -/
theorem leaveGroup_eq_self_pairing :
    let g := (run (step defaults) start (pairing ++ [promptly (.leave ['c'] none)])).current
    g.leaveGroup ⟨0, 0, []⟩ ['c'] none = g :=
  (leaveGroup_eq_self_iff_idle _ _ _ _ ⟨rfl, rfl⟩).mpr (by unfold Idle; decide)

end Timed

end Bifrox.Coordinator

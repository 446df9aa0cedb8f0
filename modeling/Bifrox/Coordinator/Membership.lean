/-
What the calls do to the members and to the generation of a group.
-/
import Bifrox.Lib.Decimal
import Bifrox.Lib.Run
import Bifrox.Coordinator.Group

namespace Bifrox.Coordinator

open Option Coordinator.ConsumerGroup AList

theorem lt_nextGeneration {generation : UInt32} (h : generation ≠ 0xFFFFFFFF) :
    generation < nextGeneration generation := by
  rw [nextGeneration, if_neg h]
  have hlt : generation.toNat < 0xFFFFFFFF := by
    have hle := generation.toNat_lt
    have hne : generation.toNat ≠ 0xFFFFFFFF := fun heq => h (UInt32.toNat_inj.mp heq)
    omega
  rw [UInt32.lt_iff_toNat_lt, UInt32.toNat_add, UInt32.toNat_one, Nat.mod_eq_of_lt (by omega)]
  exact Nat.lt_succ_self _

theorem le_nextGeneration {generation : UInt32} : generation ≤ nextGeneration generation := by
  by_cases h : generation = 0xFFFFFFFF
  · rw [nextGeneration, if_pos h]
    exact UInt32.le_refl _
  · exact UInt32.le_of_lt (lt_nextGeneration h)

/-! ## Members -/

theorem lookup_modify {members : Members} {id id' : Text} {f : MemberState → MemberState} :
    (modify members id f).lookup id' =
      if id' = id then (members.lookup id).map f else members.lookup id' := by
  unfold modify
  by_cases hid : id' = id
  · subst hid
    cases hlookup : members.lookup id' with
    | none => simp [hlookup]
    | some => simp
  · cases hlookup : members.lookup id with
    | none => simp [hid]
    | some => simp [hid, lookup_insert_ne hid]

namespace ConsumerGroup

variable {cfg : Config} {r : Reading} {g : ConsumerGroup} {id : Text}

theorem lookup_remove (g : ConsumerGroup) (memberId id : Text) :
    (g.remove memberId).members.lookup id =
      if id = memberId then none else g.members.lookup id := by
  unfold remove
  by_cases hid : id = memberId
  · subst hid
    cases hlookup : g.members.lookup id with
    | none => simp [hlookup]
    | some => simp
  · cases hlookup : g.members.lookup memberId with
    | none => simp [hid]
    | some => simp [hid, lookup_erase_ne hid]

def SameRound (g g' : ConsumerGroup) : Prop :=
  g'.generationId = g.generationId ∧ g'.rebalanceDeadline = g.rebalanceDeadline

theorem SameRound.trans {g₁ g₂ g₃ : ConsumerGroup} (h₁ : SameRound g₁ g₂) (h₂ : SameRound g₂ g₃) :
    SameRound g₁ g₃ :=
  ⟨h₂.1.trans h₁.1, h₂.2.trans h₁.2⟩

theorem release_spec (g : ConsumerGroup) (instanceId : Option Text) :
    let g' := g.release instanceId
    SameRound g g' ∧ g'.members = g.members ∧ g'.leader = g.leader ∧
      g'.memberIdSeq = g.memberIdSeq ∧ g'.state = g.state := by
  cases instanceId <;> exact ⟨⟨rfl, rfl⟩, rfl, rfl, rfl, rfl⟩

variable {g' : ConsumerGroup} {result : ConsumerGroup × JoinResult} {sessionTimeout now : Nat}
  {instanceId : Text}

theorem SameRound.le (h : SameRound g g') : g.generationId ≤ g'.generationId := by
  rw [h.1]
  exact UInt32.le_refl _

theorem remove_spec (g : ConsumerGroup) (memberId : Text) :
    let g' := g.remove memberId
    SameRound g g' ∧ g'.leader = g.leader ∧ g'.memberIdSeq = g.memberIdSeq ∧
      g'.state = g.state := by
  unfold remove
  split
  · exact ⟨⟨rfl, rfl⟩, rfl, rfl, rfl⟩
  · obtain ⟨hround, -, hrest⟩ := release_spec g _
    exact ⟨hround, hrest⟩

theorem replaceLeader_eq (g : ConsumerGroup) (order : List Text) (gone : Text) :
    ∃ leader, g.replaceLeader order gone = { g with leader := leader } := by
  unfold replaceLeader
  split
  · exact ⟨_, rfl⟩
  · exact ⟨g.leader, rfl⟩

/-! ### Pruning -/

theorem evict_spec (r : Reading) (g : ConsumerGroup) (eviction : Text × EvictionReason) :
    let g' := evict r g eviction
    SameRound g g' ∧ g'.memberIdSeq = g.memberIdSeq ∧ g'.state = g.state ∧
      g'.members = (g.remove eviction.1).members := by
  obtain ⟨leader, heq⟩ := replaceLeader_eq (g.remove eviction.1) r.order eviction.1
  obtain ⟨hround, -, hseq, hstate⟩ := remove_spec g eviction.1
  unfold evict
  rw [heq]
  exact ⟨hround, hseq, hstate, rfl⟩

theorem foldl_evict_spec (r : Reading) (evictions : List (Text × EvictionReason))
    (g : ConsumerGroup) :
    let g' := evictions.foldl (evict r) g
    SameRound g g' ∧ g'.memberIdSeq = g.memberIdSeq ∧ g'.state = g.state ∧
      ∀ id, g'.members.lookup id =
        if id ∈ evictions.map Prod.fst then none else g.members.lookup id := by
  induction evictions generalizing g with
  | nil => exact ⟨⟨rfl, rfl⟩, rfl, rfl, fun _ => rfl⟩
  | cons eviction evictions ih =>
    obtain ⟨hround, hseq, hstate, hmembers⟩ := evict_spec r g eviction
    obtain ⟨hround', hseq', hstate', hlookup⟩ := ih (evict r g eviction)
    refine ⟨hround.trans hround', hseq'.trans hseq, hstate'.trans hstate, fun id => ?_⟩
    rw [List.foldl_cons, hlookup, hmembers, lookup_remove]
    by_cases hid : id = eviction.1
    · simp [hid]
    · simp only [List.map_cons, List.mem_cons, hid, false_or, if_false]

theorem mem_expired : id ∈ (g.expired cfg now).map Prod.fst ↔
      ∃ member, g.members.lookup id = some member ∧ member.evictionReason cfg now ≠ none := by
  simp only [expired, List.mem_map, List.mem_filterMap, map_eq_some_iff]
  constructor
  · rintro ⟨-, ⟨entry, hentry, reason, hreason, rfl⟩, rfl⟩
    exact ⟨entry.2, mem_lookup_iff.mpr hentry, by simp [hreason]⟩
  · rintro ⟨member, hlookup, hreason⟩
    obtain ⟨reason, hreason⟩ := ne_none_iff_exists'.mp hreason
    exact ⟨(id, reason), ⟨⟨id, member⟩, mem_lookup_iff.mp hlookup, reason, hreason, rfl⟩, rfl⟩

theorem sameRound_prune (cfg : Config) (r : Reading) (g : ConsumerGroup) :
    SameRound g (g.pruneExpiredMembers cfg r) := by
  have hround := (foldl_evict_spec r (g.expired cfg r.now) g).1
  unfold pruneExpiredMembers
  dsimp only
  split <;> exact hround

theorem lookup_prune (cfg : Config) (r : Reading) (g : ConsumerGroup) (id : Text) :
    (g.pruneExpiredMembers cfg r).members.lookup id =
      (g.members.lookup id).filter fun member => (member.evictionReason cfg r.now).isNone := by
  have hmembers : (g.pruneExpiredMembers cfg r).members =
      ((g.expired cfg r.now).foldl (evict r) g).members := by
    unfold pruneExpiredMembers
    dsimp only
    split <;> rfl
  rw [hmembers, (foldl_evict_spec r (g.expired cfg r.now) g).2.2.2]
  by_cases hexpired : id ∈ (g.expired cfg r.now).map Prod.fst
  · obtain ⟨member, hlookup, hreason⟩ := mem_expired.mp hexpired
    rw [if_pos hexpired, hlookup, filter_some_neg (by simpa [isSome_iff_ne_none] using hreason)]
  · rw [if_neg hexpired]
    cases hlookup : g.members.lookup id with
    | none => rfl
    | some member =>
      have hreason : member.evictionReason cfg r.now = none := by
        by_contra hreason
        exact hexpired (mem_expired.mpr ⟨member, hlookup, hreason⟩)
      rw [filter_some_pos (by simp [hreason])]

theorem memberIdSeq_prune : (g.pruneExpiredMembers cfg r).memberIdSeq = g.memberIdSeq := by
  have hseq := (foldl_evict_spec r (g.expired cfg r.now) g).2.1
  unfold pruneExpiredMembers
  dsimp only
  split <;> exact hseq

theorem state_prune : (g.pruneExpiredMembers cfg r).state =
    if (g.pruneExpiredMembers cfg r).members.keys = [] then .empty else g.state := by
  have hstate := (foldl_evict_spec r (g.expired cfg r.now) g).2.2.1
  unfold pruneExpiredMembers
  dsimp only
  split
  · rfl
  · exact hstate

/-! ### Joining -/

theorem sameRound_rejoinStatic
    (h : g.rejoinStatic r instanceId sessionTimeout = some result) : SameRound g result.1 := by
  unfold rejoinStatic at h
  split at h
  · cases h
  · split at h
    · cases h
    · rw [← Option.some.inj h]
      exact ⟨rfl, rfl⟩

theorem sameRound_enrol {req : JoinRequest} {memberId : Text} :
    SameRound g (g.enrol r req memberId sessionTimeout).1 := by
  unfold enrol
  split <;> exact ⟨rfl, rfl⟩

theorem SameRound.isWindowOpen_eq (h : SameRound g g') :
    g'.isWindowOpen now = g.isWindowOpen now := by
  rw [isWindowOpen, h.2]
  rfl

theorem joinDynamic_spec {req : JoinRequest} :
    let enrolled := ({ g with memberIdSeq := (g.memberIdOf r req).2 } : ConsumerGroup).enrol r req
      (g.memberIdOf r req).1 sessionTimeout
    let joined := (g.joinDynamic cfg r req sessionTimeout).1
    joined.members = enrolled.1.members ∧ joined.staticMembers = enrolled.1.staticMembers ∧
      joined.leader = enrolled.1.leader.or (some (g.memberIdOf r req).1) ∧
      joined.memberIdSeq = enrolled.1.memberIdSeq ∧
      joined.generationId = if (enrolled.2 || g.state = .empty) && !g.isWindowOpen r.now
        then nextGeneration g.generationId else g.generationId := by
  intro enrolled joined
  have hround : SameRound g enrolled.1 := SameRound.trans ⟨rfl, rfl⟩ sameRound_enrol
  have hwindow : ∀ name, ({ enrolled.1 with protocolName := name } : ConsumerGroup).isWindowOpen
      r.now = g.isWindowOpen r.now := fun name => SameRound.isWindowOpen_eq hround
  rw [← hround.1]
  simp only [joined, joinDynamic, joinWindow]
  cases hopen : g.isWindowOpen r.now <;> split_ifs <;> simp_all [enrolled]

theorem leaveGroup_spec (r : Reading) (g : ConsumerGroup) (memberId : Text)
    (groupInstanceId : Option Text) :
    SameRound g (g.leaveGroup r memberId groupInstanceId) ∧
      ∀ id, (g.leaveGroup r memberId groupInstanceId).members.lookup id =
        if id = g.leaving memberId groupInstanceId then none else g.members.lookup id := by
  obtain ⟨hrelease, hmembers, -⟩ := release_spec g groupInstanceId
  set gone := g.leaving memberId groupInstanceId
  have hround := hrelease.trans (remove_spec _ gone).1
  have hlookup := lookup_remove (g.release groupInstanceId) gone
  rw [hmembers] at hlookup
  unfold leaveGroup
  dsimp only
  split
  · exact ⟨hround, hlookup⟩
  · obtain ⟨leader, heq⟩ := replaceLeader_eq
      { (g.release groupInstanceId).remove gone with state := .preparingRebalance } r.order gone
    rw [heq]
    exact ⟨hround, hlookup⟩

/-! ### The other calls -/

theorem sameRound_syncPruned (g : ConsumerGroup) (generationId : UInt32) (memberId : Text)
    (assignments : List MemberAssignment) :
    SameRound g (g.syncPruned generationId memberId assignments).1 := by
  unfold syncPruned
  repeat' split
  all_goals exact ⟨rfl, rfl⟩

theorem sameRound_heartbeatPruned (r : Reading) (g : ConsumerGroup) (generationId : UInt32)
    (memberId : Text) : SameRound g (g.heartbeatPruned r generationId memberId).1 := by
  unfold heartbeatPruned
  dsimp only
  repeat' split
  all_goals exact ⟨rfl, rfl⟩

variable {memberId : Text} {req : JoinRequest} {call : Call} {seq : UInt64}

theorem heartbeatPruned_ok_iff (r : Reading) (g : ConsumerGroup) (generationId : UInt32)
    (memberId : Text) : (g.heartbeatPruned r generationId memberId).2 = .ok () ↔
      generationId = g.generationId ∧ (g.members.lookup memberId).isSome = true := by
  unfold heartbeatPruned
  dsimp only
  by_cases hgeneration : generationId = g.generationId
  · rw [if_neg (not_not.mpr hgeneration)]
    by_cases hmember : (g.members.lookup memberId).isSome = true
    · simp [hgeneration, hmember]
    · simp [hmember]
  · rw [if_pos hgeneration]
    split <;> simp [hgeneration]

theorem generationId_closeJoinWindow : (g.closeJoinWindow r).generationId = g.generationId := by
  unfold closeJoinWindow
  repeat' split
  all_goals rfl

theorem joinGroup_cases (cfg : Config) (r : Reading) (group : Option ConsumerGroup)
    (req : JoinRequest) :
    (∃ instanceId, req.groupInstanceId = some instanceId ∧ req.cooperativeRoundTwo = false ∧
      ((group.getD new).pruneExpiredMembers cfg r).rejoinStatic r instanceId
        (resolveSessionTimeout req.sessionTimeoutMs) = some (joinGroup cfg r group req)) ∨
    joinGroup cfg r group req = ((group.getD new).pruneExpiredMembers cfg r).joinDynamic cfg r req
      (resolveSessionTimeout req.sessionTimeoutMs) := by
  unfold joinGroup
  dsimp only
  split
  · exact Or.inr rfl
  · next hround =>
    cases hinstance : req.groupInstanceId with
    | none => exact Or.inr rfl
    | some instanceId =>
      rw [bind_some]
      cases hslot : ((group.getD new).pruneExpiredMembers cfg r).rejoinStatic r instanceId
          (resolveSessionTimeout req.sessionTimeoutMs) with
      | none => exact Or.inr rfl
      | some result => exact Or.inl ⟨instanceId, rfl, Bool.eq_false_iff.mpr hround, hslot⟩

theorem le_generationId_joinGroup :
    g.generationId ≤ (joinGroup cfg r (some g) req).1.generationId := by
  have hprune := sameRound_prune cfg r g
  rcases joinGroup_cases cfg r (some g) req with ⟨instanceId, -, -, hslot⟩ | hjoin
  · exact (hprune.trans (sameRound_rejoinStatic hslot)).le
  · obtain ⟨-, -, -, -, hgeneration⟩ := joinDynamic_spec
    rw [hjoin, getD_some, hgeneration, hprune.1]
    split
    · exact le_nextGeneration
    · exact UInt32.le_refl _

theorem sameRound_of_serve (hjoin : ∀ req, call ≠ .join req) (hclose : call ≠ .closeJoinWindow) :
    ∃ g', (serve cfg r (some g) call).1 = some g' ∧ SameRound g g' := by
  have hprune := sameRound_prune cfg r g
  cases call with
  | join req => exact absurd rfl (hjoin req)
  | sync generationId memberId assignments =>
    exact ⟨_, rfl, hprune.trans (sameRound_syncPruned _ generationId memberId assignments)⟩
  | heartbeat generationId memberId =>
    exact ⟨_, rfl, hprune.trans (sameRound_heartbeatPruned r _ generationId memberId)⟩
  | recordProgress => exact ⟨_, rfl, rfl, rfl⟩
  | leave memberId groupInstanceId =>
    exact ⟨_, rfl, (leaveGroup_spec r g memberId groupInstanceId).1⟩
  | describe => exact ⟨_, rfl, hprune⟩
  | closeJoinWindow => exact absurd rfl hclose

theorem generationId_serve (hjoin : ∀ req, call ≠ .join req) :
    ∃ g', (serve cfg r (some g) call).1 = some g' ∧ g'.generationId = g.generationId := by
  by_cases hclose : call = .closeJoinWindow
  · subst hclose
    exact ⟨_, rfl, generationId_closeJoinWindow⟩
  · obtain ⟨g', hg', hround⟩ := sameRound_of_serve hjoin hclose
    exact ⟨g', hg', hround.1⟩

theorem le_generationId_serve :
    ∃ g', (serve cfg r (some g) call).1 = some g' ∧ g.generationId ≤ g'.generationId := by
  by_cases hjoin : ∃ req, call = .join req
  · obtain ⟨req, rfl⟩ := hjoin
    exact ⟨_, rfl, le_generationId_joinGroup⟩
  · obtain ⟨g', hg', heq⟩ := generationId_serve fun req hcall => hjoin ⟨req, hcall⟩
    exact ⟨g', hg', heq ▸ UInt32.le_refl _⟩

/-! ## Identities -/

variable (members : Members)

theorem lt_nextSeq (h : seq ≠ 0xFFFFFFFFFFFFFFFF) : seq < nextSeq seq := by
  rw [nextSeq, if_neg h]
  have hne : seq.toNat ≠ 0xFFFFFFFFFFFFFFFF := fun heq => h (UInt64.toNat_inj.mp heq)
  have hlt := seq.toNat_lt
  rw [UInt64.lt_iff_toNat_lt, UInt64.toNat_add, UInt64.toNat_one, Nat.mod_eq_of_lt (by omega)]
  exact Nat.lt_succ_self _

theorem le_nextSeq : seq ≤ nextSeq seq := by
  by_cases h : seq = 0xFFFFFFFFFFFFFFFF
  · rw [nextSeq, if_pos h]
    exact UInt64.le_refl _
  · exact UInt64.le_of_lt (lt_nextSeq h)

theorem dash_notMem_toDigits (n : Nat) : '-' ∉ Nat.toDigits 10 n := fun hmem =>
  absurd (Decimal.isDigit_of_mem_toDigits hmem) (by decide)

theorem staticMemberId_inj {instanceId instanceId' : Text} {seq' : UInt64}
    (h : staticMemberId instanceId seq = staticMemberId instanceId' seq') :
    instanceId = instanceId' ∧ seq = seq' := by
  have hdash := dash_notMem_toDigits seq.toNat
  have hdash' := dash_notMem_toDigits seq'.toNat
  obtain ⟨hinstance, hdigits⟩ : instanceId = instanceId' ∧
      Nat.toDigits 10 seq.toNat = Nat.toDigits 10 seq'.toNat := by
    rcases List.append_eq_append_iff.mp h with ⟨c, rfl, hc⟩ | ⟨c, rfl, hc⟩ <;> cases c <;> simp_all
  have hvalue := congrArg (Nat.ofDigitChars 10 · 0) hdigits
  simp only [Nat.ofDigitChars_toDigits (by decide : 1 < 10) (by decide : 10 ≤ 10)] at hvalue
  exact ⟨hinstance, UInt64.toNat_inj.mp hvalue⟩

/-- The instance that a member belongs to, for an id that is a member's. -/
def instanceOf (id : Text) : Option (Option Text) :=
  (members.lookup id).map MemberState.groupInstanceId

theorem instanceOf_modify (memberId : Text) {f : MemberState → MemberState}
    (hf : ∀ member, (f member).groupInstanceId = member.groupInstanceId) (id : Text) :
    instanceOf (modify members memberId f) id = instanceOf members id := by
  rw [instanceOf, lookup_modify]
  split
  · next hid =>
    rw [hid, instanceOf, map_map]
    exact congrArg (Option.map · _) (funext hf)
  · rfl

theorem instanceOf_storeAssignments (assignments : List MemberAssignment) (id : Text) :
    instanceOf (storeAssignments members assignments) id = instanceOf members id := by
  unfold storeAssignments
  refine Run.run_invariant (P := (instanceOf · id = instanceOf members id))
    (fun m assign hm =>
      (instanceOf_modify m assign.memberId (by exact fun _ => rfl) id).trans hm) ?_
    assignments
  exact Run.run_invariant (P := (instanceOf · id = instanceOf members id))
    (fun m memberId hm => (instanceOf_modify m memberId (by exact fun _ => rfl) id).trans hm) rfl
    members.keys

theorem isSome_lookup_storeAssignments {assignments : List MemberAssignment} :
    ((storeAssignments members assignments).lookup id).isSome = (members.lookup id).isSome := by
  simpa [instanceOf] using congrArg Option.isSome
    (instanceOf_storeAssignments members assignments id)

/-- The leader is a member, slots and static members belong to each other, and `admits` holds for
all ids. -/
structure Registered (floor : UInt64) (admits : Text → Option Text → Prop) (g : ConsumerGroup) :
    Prop where
  leads : ∀ id, g.leader = some id → instanceOf g.members id ≠ none
  led : g.leader = none → ∀ id, instanceOf g.members id = none
  slot_iff : ∀ instanceId id, g.staticMembers.lookup instanceId = some id ↔
    instanceOf g.members id = some (some instanceId)
  issued : ∀ id instanceId, instanceOf g.members id = some (some instanceId) →
    ∃ seq ≤ g.memberIdSeq, id = staticMemberId instanceId seq
  admitted : ∀ id instance?, instanceOf g.members id = some instance? → admits id instance?
  numbered : floor ≤ g.memberIdSeq

variable {floor : UInt64} {admits : Text → Option Text → Prop} {group : Option ConsumerGroup}

theorem registered_new : new.Registered 0 admits where
  leads _ h := absurd h (by simp [new])
  led _ _ := rfl
  slot_iff _ _ := ⟨nofun, nofun⟩
  issued := nofun
  admitted := nofun
  numbered := UInt64.le_refl 0

theorem Registered.congr (h : g.Registered floor admits)
    (hinstance : ∀ id, instanceOf g'.members id = instanceOf g.members id)
    (hslots : g'.staticMembers = g.staticMembers) (hleader : g'.leader = g.leader)
    (hseq : g.memberIdSeq ≤ g'.memberIdSeq) : g'.Registered floor admits where
  leads := by simpa only [hinstance, hleader] using h.leads
  led := by simpa only [hinstance, hleader] using h.led
  slot_iff := by simpa only [hinstance, hslots] using h.slot_iff
  issued id instanceId hid := by
    obtain ⟨seq, hle, heq⟩ := h.issued id instanceId (hinstance id ▸ hid)
    exact ⟨seq, UInt64.le_trans hle hseq, heq⟩
  admitted := by simpa only [hinstance] using h.admitted
  numbered := UInt64.le_trans h.numbered hseq

/-! ### Departures -/

theorem instanceOf_ne_none_iff {members : Members} :
    instanceOf members id ≠ none ↔ id ∈ members.keys := by
  rw [instanceOf, ne_eq, map_eq_none_iff, lookup_eq_none, not_not, mem_keys]

theorem firstMember_spec (order : List Text) (members : Members) :
    (∀ id, firstMember order members = some id → instanceOf members id ≠ none) ∧
      (firstMember order members = none ↔ members.keys = []) := by
  constructor
  · intro id hfirst
    rcases or_eq_some_iff.mp hfirst with hfound | ⟨-, hhead⟩
    · have hsome := List.find?_some hfound
      rw [instanceOf, ne_eq, map_eq_none_iff]
      exact isSome_iff_ne_none.mp hsome
    · exact instanceOf_ne_none_iff.mpr (List.mem_of_head? hhead)
  · rw [firstMember, or_eq_none_iff, List.head?_eq_none_iff, and_iff_right_iff_imp]
    intro hnil
    refine List.find?_eq_none.mpr fun id _ hsome => ?_
    have hmem := mem_keys.mp (lookup_isSome.mp hsome)
    rw [hnil] at hmem
    exact List.not_mem_nil hmem

theorem instanceOf_of_keys_nil {members : Members} (h : members.keys = []) (id : Text) :
    instanceOf members id = none := by
  by_contra hmember
  have hmem := instanceOf_ne_none_iff.mp hmember
  rw [h] at hmem
  exact List.not_mem_nil hmem

theorem Registered.depart (h : g.Registered floor admits) {gone : Text} {order : List Text}
    (hinstance : ∀ id, instanceOf g'.members id =
      if id = gone then none else instanceOf g.members id)
    (hslots : ∀ instanceId, g'.staticMembers.lookup instanceId =
      if instanceOf g.members gone = some (some instanceId) then none
      else g.staticMembers.lookup instanceId)
    (hleader : g'.leader = g.leader ∧ g.leader ≠ some gone ∨
      g'.leader = firstMember order g'.members)
    (hseq : g'.memberIdSeq = g.memberIdSeq) : g'.Registered floor admits := by
  have hfirst := firstMember_spec order g'.members
  have hnil := @instanceOf_of_keys_nil g'.members
  obtain ⟨hleads, hled, hslot, hissued, hadmitted, hnumbered⟩ := h
  constructor
  case slot_iff =>
    intro instanceId id
    have hgone := hslot instanceId gone
    have hid := hslot instanceId id
    rw [hslots, hinstance]
    clear hslot hleads hled hissued hadmitted hinstance hslots hfirst hnil
    grind
  all_goals grind

theorem instanceOf_remove (g : ConsumerGroup) (gone id : Text) :
    instanceOf (g.remove gone).members id =
      if id = gone then none else instanceOf g.members id := by
  rw [instanceOf, lookup_remove]
  split <;> rfl

theorem lookup_release (g : ConsumerGroup) (instance? : Option Text) (instanceId : Text) :
    (g.release instance?).staticMembers.lookup instanceId =
      if instance? = some instanceId then none else g.staticMembers.lookup instanceId := by
  cases instance? with
  | none => rfl
  | some =>
    rw [release, lookup_erase_ite]
    simp [eq_comm]

theorem lookup_slots_remove (g : ConsumerGroup) (gone instanceId : Text) :
    (g.remove gone).staticMembers.lookup instanceId =
      if instanceOf g.members gone = some (some instanceId) then none
      else g.staticMembers.lookup instanceId := by
  unfold remove instanceOf
  split
  · next hnone => simp [hnone]
  · next member hmember =>
    rw [hmember]
    simpa using lookup_release g member.groupInstanceId instanceId

theorem leader_replaceLeader (g : ConsumerGroup) (order : List Text) (gone : Text) :
    (g.replaceLeader order gone).leader = g.leader ∧ g.leader ≠ some gone ∨
      (g.replaceLeader order gone).leader = firstMember order g.members := by
  unfold replaceLeader
  split
  · exact .inr rfl
  · next hne => exact .inl ⟨rfl, hne⟩

theorem Registered.evict (h : g.Registered floor admits) (r : Reading)
    (eviction : Text × EvictionReason) : (evict r g eviction).Registered floor admits := by
  have hleader := leader_replaceLeader (g.remove eviction.1) r.order eviction.1
  obtain ⟨-, hseq, -⟩ := evict_spec r g eviction
  obtain ⟨leader, heq⟩ := replaceLeader_eq (g.remove eviction.1) r.order eviction.1
  unfold ConsumerGroup.evict at hseq ⊢
  rw [(remove_spec g eviction.1).2.1, heq] at hleader
  rw [heq] at hseq ⊢
  exact h.depart (instanceOf_remove g eviction.1) (lookup_slots_remove g eviction.1) hleader hseq

theorem Registered.prune (h : g.Registered floor admits) (cfg : Config) (r : Reading) :
    (g.pruneExpiredMembers cfg r).Registered floor admits := by
  have hfold : (Run.run (ConsumerGroup.evict r) g (g.expired cfg r.now)).Registered floor admits :=
    Run.run_invariant (fun _ eviction hg => hg.evict r eviction) h _
  unfold pruneExpiredMembers
  dsimp only
  split
  · next hnil =>
    have hnone : (Run.run (ConsumerGroup.evict r) g (g.expired cfg r.now)).leader = none := by
      by_contra hleader
      obtain ⟨id, hid⟩ := ne_none_iff_exists'.mp hleader
      exact hfold.leads id hid (instanceOf_of_keys_nil hnil id)
    exact hfold.congr (fun _ => rfl) rfl hnone.symm (UInt64.le_refl _)
  · exact hfold

theorem Registered.leaveGroup (h : g.Registered floor admits) (r : Reading) (memberId : Text)
    (groupInstanceId : Option Text) :
    (g.leaveGroup r memberId groupInstanceId).Registered floor admits := by
  unfold ConsumerGroup.leaveGroup
  dsimp only
  set gone := g.leaving memberId groupInstanceId with hgone
  obtain ⟨-, hmembers, hleader, hseq, -⟩ := release_spec g groupInstanceId
  have hinstance := instanceOf_remove (g.release groupInstanceId) gone
  have hslots := lookup_slots_remove (g.release groupInstanceId) gone
  obtain ⟨-, hled, hnumbered, -⟩ := remove_spec (g.release groupInstanceId) gone
  rw [hmembers] at hinstance hslots
  rw [hleader] at hled
  rw [hseq] at hnumbered
  -- the slot that is released is the one of the member that leaves, if there is one
  replace hslots (instanceId : Text) :
      ((g.release groupInstanceId).remove gone).staticMembers.lookup instanceId =
        if instanceOf g.members gone = some (some instanceId) then none
        else g.staticMembers.lookup instanceId := by
    rw [hslots, lookup_release]
    by_cases hreleased : groupInstanceId = some instanceId
    · cases hslot : g.staticMembers.lookup instanceId with
      | none => simp
      | some id =>
        have hid : gone = id := by rw [hgone, leaving, hreleased, bind_some, hslot]; rfl
        rw [hid, if_pos ((h.slot_iff instanceId id).mp hslot),
          if_pos ((h.slot_iff instanceId id).mp hslot)]
    · rw [if_neg hreleased]
  split
  · next hnil =>
    exact h.depart hinstance hslots (.inr ((firstMember_spec r.order _).2.mpr hnil).symm) hnumbered
  · obtain ⟨leader, heq⟩ := replaceLeader_eq
      { (g.release groupInstanceId).remove gone with state := .preparingRebalance } r.order gone
    have hleader := leader_replaceLeader
      { (g.release groupInstanceId).remove gone with state := .preparingRebalance } r.order gone
    rw [heq] at hleader ⊢
    rw [hled] at hleader
    exact h.depart hinstance hslots hleader hnumbered

/-! ### Arrivals -/

/-- A new member takes the slot of its instance from the one that has it. -/
theorem Registered.enter (h : g.Registered floor admits) (instance? : Option Text) (newId : Text)
    (hinstance : ∀ id, instanceOf g'.members id = if id = newId then some instance?
      else if instance?.bind g.staticMembers.lookup = some id then none
      else instanceOf g.members id)
    (hslots : ∀ instanceId, g'.staticMembers.lookup instanceId =
      if instance? = some instanceId then some newId else g.staticMembers.lookup instanceId)
    (hnew : ∀ instanceId, instanceOf g.members newId = some (some instanceId) →
      instance? = some instanceId)
    (hissued : ∀ instanceId, instance? = some instanceId →
      ∃ seq ≤ g'.memberIdSeq, newId = staticMemberId instanceId seq)
    (hadmits : admits newId instance?)
    (hleader : g'.leader = some newId ∨ ∃ id, g'.leader = some id ∧ g.leader = some id ∧
      instance?.bind g.staticMembers.lookup ≠ some id)
    (hseq : g.memberIdSeq ≤ g'.memberIdSeq) : g'.Registered floor admits := by
  obtain ⟨hleads, hled, hslot, hissued', hadmitted, hnumbered⟩ := h
  constructor
  case slot_iff =>
    intro instanceId id
    have hnewId := hslot instanceId newId
    have hid := hslot instanceId id
    rw [hslots, hinstance]
    clear hleads hled hissued hissued' hadmitted hinstance hslots
    cases instance? <;> grind
  all_goals grind

theorem Registered.rejoinStatic (h : g.Registered floor admits)
    (hresult : g.rejoinStatic r instanceId sessionTimeout = some result)
    (hadmits : admits (staticMemberId instanceId (nextSeq g.memberIdSeq)) (some instanceId)) :
    result.1.Registered floor admits := by
  unfold ConsumerGroup.rejoinStatic at hresult
  split at hresult
  · cases hresult
  · next previous hslot =>
    split at hresult
    · cases hresult
    · next member hmember =>
      rw [← Option.some.inj hresult]
      have hprevious := (h.slot_iff instanceId previous).mp hslot
      have hled := h.led
      refine h.enter (some instanceId) _ (fun id => ?_) (fun instanceId' => ?_)
        (fun instanceId' hnew => ?_) (fun _ heq => ?_) hadmits ?_ le_nextSeq
      · rw [instanceOf, hmember] at hprevious
        simp only [instanceOf, lookup_insert_ite, lookup_erase_ite]
        grind
      · rw [lookup_insert_ite]
        grind
      · obtain ⟨seq, -, heq⟩ := h.issued _ instanceId' hnew
        rw [(staticMemberId_inj heq).1]
      · exact ⟨_, UInt64.le_refl _, Option.some.inj heq ▸ rfl⟩
      · dsimp only
        cases hleader : g.leader <;> grind

/-- A request may put into the group what `admits` allows. -/
def JoinRequest.Admissible (admits : Text → Option Text → Prop) (r : Reading) (seq : UInt64)
    (req : JoinRequest) : Prop :=
  match req.groupInstanceId with
  | none => admits (if req.memberId = [] then Nat.toDigits 10 r.wallNanos else req.memberId) none
  | some instanceId => admits (staticMemberId instanceId (nextSeq seq)) (some instanceId)

theorem le_memberIdOf (r : Reading) (g : ConsumerGroup) (req : JoinRequest) :
    g.memberIdSeq ≤ (g.memberIdOf r req).2 := by
  unfold memberIdOf
  split
  · split
    · exact UInt64.le_refl _
    · exact le_nextSeq
  · exact UInt64.le_refl _

theorem Registered.joinDynamic (h : g.Registered floor admits)
    (sessionTimeout : Nat) (hreq : req.Admissible admits r g.memberIdSeq) :
    (g.joinDynamic cfg r req sessionTimeout).1.Registered floor admits := by
  obtain ⟨hmembers, hslots, hleader, hseq, -⟩ := joinDynamic_spec
  have hle := le_memberIdOf r g req
  generalize (g.joinDynamic cfg r req sessionTimeout).1 = joined at *
  generalize hids : g.memberIdOf r req = ids at *
  cases hmember : g.members.lookup ids.1 with
  | some =>
    simp only [enrol, hmember] at hmembers hslots hleader hseq
    refine h.congr (fun id => ?_) hslots ?_ (hseq ▸ hle)
    · simp only [instanceOf, hmembers, lookup_insert_ite]
      split
      · next hid => rw [hid, hmember, map_some, map_some]
      · rfl
    · cases hold : g.leader with
      | none => exact absurd (h.led hold ids.1) (by simp [instanceOf, hmember])
      | some => rw [hleader, hold, some_or]
  | none =>
    simp only [enrol, hmember] at hmembers hslots hleader hseq
    have hfresh : instanceOf g.members ids.1 = none := by rw [instanceOf, hmember, map_none]
    -- a slot that the instance had would be that of a member
    have hvacant : req.groupInstanceId.bind g.staticMembers.lookup = none := by
      cases hinstance : req.groupInstanceId with
      | none => rfl
      | some instanceId =>
        cases hlookup : g.staticMembers.lookup instanceId with
        | none => exact hlookup
        | some existing =>
          simp only [memberIdOf, hinstance, hlookup] at hids
          rw [← hids, (h.slot_iff instanceId existing).mp hlookup] at hfresh
          cases hfresh
    rw [JoinRequest.Admissible] at hreq
    refine h.enter req.groupInstanceId ids.1 (fun id => ?_) (fun instanceId => ?_)
      (fun instanceId hold => ?_) (fun instanceId hinstance => ?_) ?_ ?_ (hseq ▸ hle)
    · simp only [instanceOf, hmembers, hvacant, lookup_insert_ite, reduceCtorEq, if_false]
      split <;> rfl
    · rw [hslots]
      cases req.groupInstanceId with
      | none => rfl
      | some =>
        dsimp only
        rw [lookup_insert_ite]
        simp [eq_comm]
    · cases hfresh.symm.trans hold
    · rw [hinstance, bind_some] at hvacant
      simp only [memberIdOf, hinstance, hvacant] at hids
      exact ⟨ids.2, hseq ▸ UInt64.le_refl _, by rw [← hids]⟩
    · cases hinstance : req.groupInstanceId with
      | none =>
        simp only [memberIdOf, hinstance] at hids hreq
        exact hids ▸ hreq
      | some =>
        rw [hinstance, bind_some] at hvacant
        simp only [memberIdOf, hinstance, hvacant] at hids hreq
        exact hids ▸ hreq
    · rw [hvacant]
      cases hold : g.leader <;> simp [hleader, hold]

theorem Registered.joinGroup (h : (group.getD new).Registered floor admits)
    (hreq : req.Admissible admits r (group.getD new).memberIdSeq) :
    (joinGroup cfg r group req).1.Registered floor admits := by
  have hpruned := h.prune cfg r
  rw [← memberIdSeq_prune] at hreq
  rcases joinGroup_cases cfg r group req with ⟨instanceId, hinstance, -, hslot⟩ | hjoin
  · rw [JoinRequest.Admissible, hinstance] at hreq
    exact hpruned.rejoinStatic hslot hreq
  · rw [hjoin]
    exact hpruned.joinDynamic _ hreq

/-! ### Calls -/

section

variable (h : g.Registered floor admits)
include h

theorem Registered.syncPruned (generationId : UInt32)
    (memberId : Text) (assignments : List MemberAssignment) :
    (g.syncPruned generationId memberId assignments).1.Registered floor admits := by
  unfold ConsumerGroup.syncPruned
  repeat' split
  all_goals first
    | exact h
    | exact h.congr (instanceOf_storeAssignments g.members assignments) rfl rfl (UInt64.le_refl _)

theorem Registered.heartbeatPruned (r : Reading) (generationId : UInt32) (memberId : Text) :
    (g.heartbeatPruned r generationId memberId).1.Registered floor admits := by
  unfold ConsumerGroup.heartbeatPruned
  dsimp only
  repeat' split
  all_goals first
    | exact h
    | exact h.congr (instanceOf_modify g.members memberId fun _ => rfl) rfl rfl (UInt64.le_refl _)

theorem Registered.closeJoinWindow (r : Reading) :
    (g.closeJoinWindow r).Registered floor admits := by
  unfold ConsumerGroup.closeJoinWindow
  repeat' split
  all_goals exact h.congr (fun _ => rfl) rfl rfl (UInt64.le_refl _)

end

theorem serve_none (h : ∀ req, call ≠ .join req) : (serve cfg r none call).1 = none := by
  cases call with
  | join req => exact absurd rfl (h req)
  | _ => rfl

theorem Registered.serve (h : (group.getD new).Registered floor admits) (cfg : Config) (r : Reading)
    (hcall : ∀ req, call = .join req → req.Admissible admits r (group.getD new).memberIdSeq) :
    ((serve cfg r group call).1.getD new).Registered floor admits := by
  by_cases hjoin : ∃ req, call = .join req
  · obtain ⟨req, rfl⟩ := hjoin
    exact h.joinGroup (hcall req rfl)
  rw [not_exists] at hjoin
  cases group with
  | none => exact (serve_none hjoin).symm ▸ h
  | some g =>
    have hpruned := h.prune cfg r
    cases call with
    | join req => exact absurd rfl (hjoin req)
    | sync generationId memberId assignments =>
      exact hpruned.syncPruned generationId memberId assignments
    | heartbeat generationId memberId => exact hpruned.heartbeatPruned r generationId memberId
    | recordProgress memberId =>
      exact h.congr (instanceOf_modify g.members memberId fun _ => rfl) rfl rfl (UInt64.le_refl _)
    | leave memberId groupInstanceId => exact h.leaveGroup r memberId groupInstanceId
    | describe => exact hpruned
    | closeJoinWindow => exact h.closeJoinWindow r

end ConsumerGroup

end Bifrox.Coordinator

/-
Who is who in a group (`join_group` and `rejoin_static` in `src/server/coordinator.rs`).

Ids that the coordinator makes up and ids that clients choose are of one kind.  A number in an id
does not come up again before the counter has run to its end, where it stays.
-/
import Bifrox.Coordinator.Departure
import Bifrox.Coordinator.Ownership
import Mathlib.Algebra.Group.Nat.Defs

namespace Bifrox.Coordinator

open Option Coordinator.ConsumerGroup Run AList
open Timed (defaults)

/-- The group after a call with what the call reads from outside. -/
def after (cfg : Config) (group : Option ConsumerGroup) (e : Reading × Call) :
    Option ConsumerGroup :=
  (serve cfg e.1 group e.2).1

/-- A dynamic member joins under an id of its own. -/
def Names (id : Text) (e : Reading × Call) : Prop :=
  ∃ req, e.2 = .join req ∧ req.groupInstanceId = none ∧ req.memberId = id

abbrev found (cfg : Config) (group : Option ConsumerGroup) (r : Reading) : ConsumerGroup :=
  (group.getD new).pruneExpiredMembers cfg r

variable {cfg : Config} {group : Option ConsumerGroup} {history : List (Reading × Call)}
  {r : Reading} {req : JoinRequest} {instanceId id : Text} {admits : Text → Option Text → Prop}

/-! ## Joins -/

theorem registered_run (cfg : Config) (history : List (Reading × Call)) :
    ((run (after cfg) none history).getD new).Registered 0 fun _ _ => True := by
  have hguarded : Guarded (after cfg) (fun _ _ => True) none history :=
    Guarded.of_forall fun _ _ => trivial
  refine hguarded.invariant (P := fun group => (group.getD new).Registered 0 fun _ _ => True)
    (fun group e h _ => h.serve cfg e.1 fun req _ => ?_) registered_new
  rw [JoinRequest.Admissible]
  split <;> trivial

theorem memberId_joinGroup (h : (found cfg group r).Registered 0 admits) :
    (joinGroup cfg r group req).2.memberId =
      match req.groupInstanceId with
      | none => if req.memberId = [] then Nat.toDigits 10 r.wallNanos else req.memberId
      | some instanceId =>
        match (found cfg group r).staticMembers.lookup instanceId with
        | none => staticMemberId instanceId (nextSeq (found cfg group r).memberIdSeq)
        | some existing =>
          if req.cooperativeRoundTwo then existing
          else staticMemberId instanceId (nextSeq (found cfg group r).memberIdSeq) := by
  rw [joinGroup]
  cases hinstance : req.groupInstanceId with
  | none => simp [joinDynamic, joinResult, memberIdOf, hinstance]
  | some instanceId =>
    cases hslot : (found cfg group r).staticMembers.lookup instanceId with
    | none => simp [rejoinStatic, hslot, joinDynamic, joinResult, memberIdOf, hinstance]
    | some existing =>
      obtain ⟨member, hmember, -⟩ := map_eq_some_iff.mp ((h.slot_iff _ _).mp hslot)
      cases req.cooperativeRoundTwo <;>
        simp [rejoinStatic, hslot, hmember, joinDynamic, joinResult, memberIdOf, hinstance]

/-- An id that the coordinator makes up is new, unless a dynamic member has it. -/
theorem minted_notMem {g : ConsumerGroup} (h : g.Registered 0 admits)
    (hunnamed : instanceOf g.members (staticMemberId instanceId (nextSeq g.memberIdSeq))
      ≠ some none)
    (hfresh : g.staticMembers.lookup instanceId = none ∨ g.memberIdSeq ≠ 0xFFFFFFFFFFFFFFFF) :
    staticMemberId instanceId (nextSeq g.memberIdSeq) ∉ g.members.keys := by
  intro hmem
  obtain ⟨instance?, hmember⟩ := ne_none_iff_exists'.mp (instanceOf_ne_none_iff.mpr hmem)
  cases instance? with
  | none => exact hunnamed hmember
  | some other =>
    obtain ⟨seq, hle, heq⟩ := h.issued _ other hmember
    obtain ⟨rfl, rfl⟩ := staticMemberId_inj heq
    rcases hfresh with hnone | hmax
    · rw [(h.slot_iff _ _).mpr hmember] at hnone
      cases hnone
    · exact UInt64.not_le.mpr (lt_nextSeq hmax) hle

/-- The first join of an instance does not return the id of a member. -/
def Distinct (cfg : Config) (group : Option ConsumerGroup) (r : Reading) (req : JoinRequest) :
    Prop :=
  ∀ instanceId, req.groupInstanceId = some instanceId →
    (found cfg group r).staticMembers.lookup instanceId = none →
      (joinGroup cfg r group req).2.memberId ∉ (found cfg group r).members.keys

/-- No dynamic member has the id that the counter is about to give to the instance. -/
def Unnamed (cfg : Config) (group : Option ConsumerGroup) (r : Reading) (instanceId : Text) :
    Prop :=
  instanceOf (found cfg group r).members
    (staticMemberId instanceId (nextSeq (found cfg group r).memberIdSeq)) ≠ some none

instance : Decidable (Unnamed cfg group r instanceId) := inferInstanceAs (Decidable (_ ≠ _))

theorem distinct_iff (h : (group.getD new).Registered 0 admits) :
    Distinct cfg group r req ↔ ∀ instanceId, req.groupInstanceId = some instanceId →
      (found cfg group r).staticMembers.lookup instanceId = none →
        Unnamed cfg group r instanceId := by
  have hfound := h.prune cfg r
  refine forall₃_congr fun instanceId hinstance hfirst => ?_
  rw [memberId_joinGroup hfound]
  simp only [hinstance, hfirst]
  refine ⟨fun hnew hnamed => hnew ?_, fun hunnamed => minted_notMem hfound hunnamed (.inl hfirst)⟩
  rw [← instanceOf_ne_none_iff, hnamed]
  exact some_ne_none _

/-! ### Participants

A participant is a process that has joined.  It lives under the id that it was given last as long
as there is a member with that id. -/

structure Company where
  group : Option ConsumerGroup
  /-- The participants that live, each with its id. -/
  holders : List (Nat × Text)

abbrev Joining : Type := Nat × Reading × JoinRequest

def Company.step (cfg : Config) (s : Company) (e : Joining) : Company :=
  let result := joinGroup cfg e.2.1 s.group e.2.2
  { group := some result.1
    holders := (e.1, result.2.memberId) :: s.holders.filter fun holder => holder.1 ≠ e.1 ∧
      holder.2 ∈ (found cfg s.group e.2.1).members.keys ∧ holder.2 ∈ result.1.members.keys }

/-- No two participants that live have one id. -/
def Company.Unshared (s : Company) : Prop :=
  ∀ holder ∈ s.holders, ∀ holder' ∈ s.holders, holder.2 = holder'.2 → holder.1 = holder'.1

def Company.IsFree (s : Company) (participant : Nat) (id : Text) : Prop :=
  ∀ holder ∈ s.holders, holder.2 = id → holder.1 = participant

/-- The condition on a join.  A dynamic participant joins under an id that no other has, and an
instance asks for its second round itself.  Where the coordinator makes up an id, no dynamic member
has it, and the counter has not run to its end. -/
def Company.Discreet (cfg : Config) (s : Company) (e : Joining) : Prop :=
  match e.2.2.groupInstanceId with
  | none => s.IsFree e.1
      (if e.2.2.memberId = [] then Nat.toDigits 10 e.2.1.wallNanos else e.2.2.memberId)
  | some instanceId =>
    match (found cfg s.group e.2.1).staticMembers.lookup instanceId with
    | none => Unnamed cfg s.group e.2.1 instanceId
    | some existing =>
      if e.2.2.cooperativeRoundTwo then s.IsFree e.1 existing
      else Unnamed cfg s.group e.2.1 instanceId ∧
        (found cfg s.group e.2.1).memberIdSeq ≠ 0xFFFFFFFFFFFFFFFF

instance (s : Company) (participant : Nat) (id : Text) : Decidable (s.IsFree participant id) :=
  inferInstanceAs (Decidable (∀ holder ∈ s.holders, _))

instance (s : Company) (e : Joining) : Decidable (s.Discreet cfg e) := by
  unfold Company.Discreet
  split
  · infer_instance
  · split <;> infer_instance

/-- Whoever else has the id that a join returns does not live any longer. -/
theorem Company.eq_of_joined {s : Company} {e : Joining}
    (h : (s.group.getD new).Registered 0 admits) (hdiscreet : s.Discreet cfg e)
    {holder : Nat × Text} (hholder : holder ∈ s.holders)
    (hlives : holder.2 ∈ (found cfg s.group e.2.1).members.keys)
    (hid : holder.2 = (joinGroup cfg e.2.1 s.group e.2.2).2.memberId) : holder.1 = e.1 := by
  have hfound := h.prune cfg e.2.1
  rw [memberId_joinGroup hfound] at hid
  rw [Company.Discreet] at hdiscreet
  cases hinstance : e.2.2.groupInstanceId with
  | none =>
    simp only [hinstance] at hid hdiscreet
    exact hdiscreet holder hholder hid
  | some instanceId =>
    cases hslot : (found cfg s.group e.2.1).staticMembers.lookup instanceId with
    | none =>
      simp only [hinstance, hslot] at hid hdiscreet
      exact absurd (hid ▸ hlives) (minted_notMem hfound hdiscreet (.inl hslot))
    | some existing =>
      simp only [hinstance, hslot] at hid hdiscreet
      split at hid
      · next hround =>
        rw [if_pos hround] at hdiscreet
        exact hdiscreet holder hholder hid
      · next hround =>
        rw [if_neg hround] at hdiscreet
        exact absurd (hid ▸ hlives) (minted_notMem hfound hdiscreet.1 (.inr hdiscreet.2))

theorem Company.Unshared.step {s : Company} {e : Joining} (h : s.Unshared)
    (hregistered : (s.group.getD new).Registered 0 admits) (hdiscreet : s.Discreet cfg e) :
    (s.step cfg e).Unshared := by
  have hold : ∀ holder ∈ s.holders.filter fun holder => decide (holder.1 ≠ e.1 ∧
      holder.2 ∈ (found cfg s.group e.2.1).members.keys ∧
        holder.2 ∈ (joinGroup cfg e.2.1 s.group e.2.2).1.members.keys),
      holder ∈ s.holders ∧
        (holder.2 = (joinGroup cfg e.2.1 s.group e.2.2).2.memberId → holder.1 = e.1) := by
    intro holder hholder
    obtain ⟨hmem, hlives⟩ := List.mem_filter.mp hholder
    exact ⟨hmem, eq_of_joined hregistered hdiscreet hmem (of_decide_eq_true hlives).2.1⟩
  intro holder hholder holder' hholder' hid
  rcases List.mem_cons.mp hholder with rfl | hholder
  · rcases List.mem_cons.mp hholder' with rfl | hholder'
    · rfl
    · exact ((hold holder' hholder').2 hid.symm).symm
  · rcases List.mem_cons.mp hholder' with rfl | hholder'
    · exact (hold holder hholder).2 hid
    · exact h holder (hold holder hholder).1 holder' (hold holder' hholder').1 hid

/-- After every history, the first join of an instance returns a new id exactly if no dynamic member
has the one that comes next; and in every run of joins that meet the condition no two participants
share an id. -/
theorem distinct_iff_unnamed (cfg : Config) :
    (∀ history r req, Distinct cfg (run (after cfg) none history) r req ↔
      ∀ instanceId, req.groupInstanceId = some instanceId →
        (found cfg (run (after cfg) none history) r).staticMembers.lookup instanceId = none →
          Unnamed cfg (run (after cfg) none history) r instanceId) ∧
    ∀ joins, Guarded (Company.step cfg) (Company.Discreet cfg) ⟨none, []⟩ joins →
      Always (Company.step cfg) Company.Unshared ⟨none, []⟩ joins := by
  refine ⟨fun history r req => distinct_iff (registered_run cfg history), fun joins h => ?_⟩
  refine h.always
    (fun s (hs : s.Unshared ∧ (s.group.getD new).Registered 0 fun _ _ => True) => hs.1)
    (fun s e hs hdiscreet => ⟨hs.1.step hs.2 hdiscreet, hs.2.joinGroup ?_⟩)
    ⟨nofun, registered_new⟩
  rw [JoinRequest.Admissible]
  split <;> trivial

def joinWith (instanceId : Text) : JoinRequest :=
  { joinAs [] with groupInstanceId := some instanceId }

/-- Two instances and a dynamic participant join, and the first instance comes back. -/
theorem unshared_rejoined : Always (Company.step defaults) Company.Unshared ⟨none, []⟩
    [(1, atStart, joinWith ['i']), (2, atStart, joinAs ['d']), (3, atStart, joinWith ['j']),
      (4, atStart, joinWith ['i'])] :=
  (distinct_iff_unnamed defaults).2 _ (by decide +kernel)

/-- A dynamic member has the id that the instance is about to get. -/
theorem not_distinct_named : ¬ Distinct defaults
    (run (after defaults) none [(atStart, .join (joinAs ['i', '-', '1']))]) atStart
      (joinWith ['i']) := by
  intro h
  exact h ['i'] rfl rfl (by decide)

/-! ## Every call -/

structure Orderly (g : ConsumerGroup) : Prop where
  leader : (∃ id, g.leader = some id ∧ id ∈ g.members.keys) ↔ g.members.keys ≠ []
  inverse : ∀ instanceId id, g.staticMembers.lookup instanceId = some id ↔
    ∃ member, g.members.lookup id = some member ∧ member.groupInstanceId = some instanceId
  disjoint : Disjointly g.members

/-- The join gives the slot that `previous` has had to a process that comes back. -/
def Rejoins (cfg : Config) (group : Option ConsumerGroup) (r : Reading) (req : JoinRequest)
    (previous : Text) : Prop :=
  req.cooperativeRoundTwo = false ∧ ∃ instanceId, req.groupInstanceId = some instanceId ∧
    (found cfg group r).staticMembers.lookup instanceId = some previous

def Rejected (cfg : Config) (group : Option ConsumerGroup) (id : Text) : Prop :=
  ∀ r generationId, (∀ assignments, ∃ message,
    (serve cfg r group (.sync generationId id assignments)).2 = .synced (.error message)) ∧
    ∃ message, (serve cfg r group (.heartbeat generationId id)).2 = .heartbeat (.error message)

structure Invariants (cfg : Config) (history : List (Reading × Call)) : Prop where
  orderly : Always (after cfg) (fun group => Orderly (group.getD new)) none history
  generation : Guarded (after cfg) (fun group e =>
    (group.getD new).generationId ≤ ((after cfg group e).getD new).generationId) none history
  fenced : ∀ before r req later previous, history = before ++ (r, .join req) :: later →
    Rejoins cfg (run (after cfg) none before) r req previous → (∀ e ∈ later, ¬ Names previous e) →
      Rejected cfg (run (after cfg) none history) previous

/-- The condition: the counter has not run to its end. -/
def Numbered (group : Option ConsumerGroup) (e : Reading × Call) : Prop :=
  ∀ req, e.2 = .join req → req.groupInstanceId ≠ none →
    (group.getD new).memberIdSeq ≠ 0xFFFFFFFFFFFFFFFF

theorem orderly_of_registered {g : ConsumerGroup} {floor : UInt64} (h : g.Registered floor admits)
    (hdisjoint : Disjointly g.members) : Orderly g where
  leader := by
    constructor
    · rintro ⟨id, -, hmem⟩
      exact List.ne_nil_of_mem hmem
    · intro hne
      cases hleader : g.leader with
      | none =>
        obtain ⟨id, hmem⟩ := List.exists_mem_of_ne_nil _ hne
        exact absurd (h.led hleader id) (instanceOf_ne_none_iff.mpr hmem)
      | some id => exact ⟨id, rfl, instanceOf_ne_none_iff.mp (h.leads id hleader)⟩
  inverse instanceId id := by
    rw [h.slot_iff, instanceOf, map_eq_some_iff]
  disjoint := hdisjoint

theorem rejected_of_notMem (h : instanceOf (group.getD new).members id = none) :
    Rejected cfg group id := by
  intro r generationId
  cases group with
  | none => exact ⟨fun _ => ⟨_, rfl⟩, _, rfl⟩
  | some g =>
    have hgone : (g.pruneExpiredMembers cfg r).members.lookup id = none := by
      rw [getD_some, instanceOf, map_eq_none_iff] at h
      rw [lookup_prune, h, filter_none]
    refine ⟨fun assignments => ?_, ?_⟩
    · simp only [serve, syncPruned, hgone, isNone_none, if_true]
      split <;> exact ⟨_, rfl⟩
    · simp only [serve, heartbeatPruned, hgone, isSome_none, Bool.false_eq_true, and_false,
        if_false]
      split <;> exact ⟨_, rfl⟩

theorem superseded {previous : Text}
    (h : (group.getD new).Registered 0 admits) (hrejoins : Rejoins cfg group r req previous)
    (hseq : (group.getD new).memberIdSeq ≠ 0xFFFFFFFFFFFFFFFF) :
    ∃ instanceId seq, previous = staticMemberId instanceId seq ∧
      (joinGroup cfg r group req).1.Registered seq fun id _ => id ≠ previous := by
  obtain ⟨hround, instanceId, hinstance, hslot⟩ := hrejoins
  have hfound := h.prune cfg r
  have hprevious := (hfound.slot_iff instanceId previous).mp hslot
  obtain ⟨seq, hle, heq⟩ := hfound.issued previous instanceId hprevious
  rw [← memberIdSeq_prune] at hseq
  have hlt := UInt64.lt_of_le_of_lt hle (lt_nextSeq hseq)
  have hne : previous ≠ staticMemberId instanceId (nextSeq (found cfg group r).memberIdSeq) := by
    rw [heq]
    exact fun hsame => UInt64.ne_of_lt hlt (staticMemberId_inj hsame).2
  obtain ⟨member, hmember, -⟩ := map_eq_some_iff.mp hprevious
  have hjoin : (joinGroup cfg r group req).1.members =
      ((found cfg group r).members.erase previous).insert
        (staticMemberId instanceId (nextSeq (found cfg group r).memberIdSeq))
        { member with
          lastHeartbeat := r.now, lastProgress := r.now
          sessionTimeout := resolveSessionTimeout req.sessionTimeoutMs } ∧
      (joinGroup cfg r group req).1.memberIdSeq = nextSeq (found cfg group r).memberIdSeq := by
    simp [joinGroup, hround, hinstance, rejoinStatic, hslot, hmember]
  have hjoined : (joinGroup cfg r group req).1.Registered 0 fun _ _ => True :=
    ({ h with admitted := fun _ _ _ => trivial } :
      (group.getD new).Registered 0 fun _ _ => True).joinGroup
        (by rw [JoinRequest.Admissible]; split <;> trivial)
  refine ⟨instanceId, seq, heq, { hjoined with admitted := ?_, numbered := ?_ }⟩
  · rintro _ instance? hgone rfl
    rw [instanceOf, hjoin.1, lookup_insert_ite, if_neg hne, lookup_erase] at hgone
    cases hgone
  · rw [hjoin.2]
    exact UInt64.le_of_lt hlt

/-- The invariants hold in every run in which the counter of member ids is below its end. -/
theorem invariants_of_numbered (cfg : Config) (history : List (Reading × Call))
    (h : Guarded (after cfg) Numbered none history) : Invariants cfg history where
  orderly := by
    refine h.always (fun (group : Option ConsumerGroup) (hg : (group.getD new).Registered 0
      (fun _ _ => True) ∧ Disjointly (membersOf group)) => orderly_of_registered hg.1 hg.2)
      (fun group e hg _ => ⟨hg.1.serve cfg e.1 fun req _ => ?_,
        disjointly_serve cfg e.1 hg.2⟩) ⟨registered_new, ?_⟩
    · rw [JoinRequest.Admissible]
      split <;> trivial
    · intro _ _ _ _ howned
      cases howned
  generation := by
    refine h.imp (fun _ _ (hg : True) _ => hg) (fun group e _ _ => ?_) trivial
    cases group with
    | none => exact UInt32.zero_le
    | some g =>
      obtain ⟨g', hg', hle⟩ := le_generationId_serve
      rw [after, hg']
      exact hle
  fenced before r req later previous hhistory hrejoins hlater := by
    subst hhistory
    have hrest := h.right
    have hseq := hrest.1 req rfl (by
      obtain ⟨-, instanceId, hinstance, -⟩ := hrejoins
      rw [hinstance]
      exact some_ne_none _)
    obtain ⟨instanceId, seq, rfl, hjoined⟩ :=
      superseded (registered_run cfg before) hrejoins hseq
    have hguarded := hrest.2.and (Guarded.of_forall hlater)
    change Registered seq _ (((after cfg _ (r, .join req))).getD new) at hjoined
    refine rejected_of_notMem (eq_none_iff_forall_ne_some.mpr fun instance? hmember => ?_)
    rw [run_append, run_cons] at hmember
    refine (hguarded.invariant (P := fun group : Option ConsumerGroup =>
      (group.getD new).Registered seq fun id _ => id ≠ staticMemberId instanceId seq)
      (fun group e hg he => ?_) hjoined).admitted _ instance? hmember rfl
    refine hg.serve cfg e.1 fun req' hreq' => ?_
    rw [JoinRequest.Admissible]
    split
    · next hdynamic =>
      intro hid
      split at hid
      · have hdash := dash_notMem_toDigits e.1.wallNanos
        rw [hid] at hdash
        simp [staticMemberId] at hdash
      · exact he.2 ⟨req', hreq', hdynamic, hid⟩
    · next joining hstatic =>
      intro hid
      have hlt := lt_nextSeq (he.1 req' hreq' (by rw [hstatic]; exact some_ne_none _))
      rw [(staticMemberId_inj hid).2] at hlt
      exact UInt64.not_le.mpr hlt hg.numbered

theorem invariants_rejoined : Invariants defaults
    [(atStart, .join (joinWith ['i'])), (atStart, .join (joinAs ['d'])),
      (atStart, .join (joinWith ['i']))] := by
  refine invariants_of_numbered defaults _ ⟨?_, ?_, ?_, trivial⟩ <;> rintro req - - <;> decide

/-! ### The end of the counter -/

/-- The group of one instance that has come back again and again. -/
def held (seq : UInt64) : ConsumerGroup where
  state := .preparingRebalance
  generationId := 1
  leader := some (staticMemberId ['i'] seq)
  members := insert (staticMemberId ['i'] seq)
    { newcomer with sessionTimeout := defaultSessionTimeout, groupInstanceId := some ['i'] } ∅
  protocolName := none
  rebalanceDeadline := some (millis 3000)
  staticMembers := insert ['i'] (staticMemberId ['i'] seq) ∅
  memberIdSeq := seq
  recentEvictions := []

theorem after_held (seq : UInt64) : after defaults (some (held seq))
    (atStart, .join (joinWith ['i'])) = some (held (nextSeq seq)) := by
  have hslot : (held seq).staticMembers.lookup ['i'] = some (staticMemberId ['i'] seq) :=
    lookup_insert _
  have hmember : (held seq).members.lookup (staticMemberId ['i'] seq) = some
      { newcomer with sessionTimeout := defaultSessionTimeout, groupInstanceId := some ['i'] } :=
    AList.lookup_insert _
  have hmembers : (held seq).members.erase (staticMemberId ['i'] seq) = ∅ := by
    apply AList.ext
    exact List.kerase_cons_eq rfl
  have hslots : (held seq).staticMembers.insert ['i'] (staticMemberId ['i'] (nextSeq seq)) =
      AList.insert ['i'] (staticMemberId ['i'] (nextSeq seq)) ∅ := AList.insert_insert _
  have hleader : (held seq).leader = some (staticMemberId ['i'] seq) := rfl
  have hseq : (held seq).memberIdSeq = seq := rfl
  have hfound : found defaults (some (held seq)) atStart = held seq := rfl
  show some (joinGroup defaults atStart (some (held seq)) (joinWith ['i'])).1 = _
  rw [joinGroup, ← found, hfound]
  simp only [joinWith, bind_some, rejoinStatic, hslot, hmember, hleader, hseq, hmembers,
    hslots, if_true]
  rfl

def comingBack (n : Nat) : List (Reading × Call) :=
  List.replicate n (atStart, .join (joinWith ['i']))

theorem comingBack_succ (n : Nat) :
    comingBack (n + 1) = comingBack n ++ [(atStart, .join (joinWith ['i']))] :=
  List.replicate_succ'

theorem run_comingBack (n : Nat) (h : n < 2 ^ 64 - 1) :
    run (after defaults) none (comingBack (n + 1)) = some (held (UInt64.ofNat (n + 1))) := by
  induction n with
  | zero => rfl
  | succ n ih =>
    have hne : UInt64.ofNat (n + 1) ≠ 0xFFFFFFFFFFFFFFFF := by
      intro heq
      have htoNat := congrArg UInt64.toNat heq
      rw [UInt64.toNat_ofNat_of_lt' (by omega : n + 1 < 2 ^ 64)] at htoNat
      change n + 1 = 0xFFFFFFFFFFFFFFFF at htoNat
      omega
    rw [comingBack_succ, run_append, ih (by omega), run_cons, run_nil, after_held, nextSeq,
      if_neg hne, UInt64.ofNat_add (n + 1) 1]
    rfl

/-- The counter has run to its end, and the next process gets the id of the one before it. -/
theorem not_invariants_comingBack : ¬ Invariants defaults (comingBack (2 ^ 64)) := by
  intro h
  have hlast : run (after defaults) none (comingBack (2 ^ 64 - 1)) =
      some (held 0xFFFFFFFFFFFFFFFF) := by
    have hcount : 2 ^ 64 - 1 = 2 ^ 64 - 2 + 1 := by omega
    have hseq : UInt64.ofNat (2 ^ 64 - 2 + 1) = 0xFFFFFFFFFFFFFFFF := by decide
    rw [hcount, run_comingBack _ (by omega), hseq]
  have hhistory : comingBack (2 ^ 64) =
      comingBack (2 ^ 64 - 1) ++ [(atStart, .join (joinWith ['i']))] :=
    (congrArg comingBack (by omega : 2 ^ 64 = 2 ^ 64 - 1 + 1)).trans (comingBack_succ _)
  have hslot : (held 0xFFFFFFFFFFFFFFFF).staticMembers.lookup ['i'] =
      some (staticMemberId ['i'] 0xFFFFFFFFFFFFFFFF) := lookup_insert _
  have hrejected := h.fenced _ atStart (joinWith ['i']) [] _ hhistory
    (by rw [hlast]; exact ⟨rfl, ['i'], rfl, hslot⟩) (nofun)
  have hrun : run (after defaults) none (comingBack (2 ^ 64)) = some (held 0xFFFFFFFFFFFFFFFF) := by
    rw [hhistory, run_append, hlast, run_cons, run_nil, after_held]
    rfl
  rw [hrun] at hrejected
  obtain ⟨message, hmessage⟩ := (hrejected atStart 1).2
  have hok := (heartbeatPruned_ok_iff atStart
      (found defaults (some (held 0xFFFFFFFFFFFFFFFF)) atStart)
    1 (staticMemberId ['i'] 0xFFFFFFFFFFFFFFFF)).mpr ⟨rfl, lookup_isSome.mpr
      (mem_insert _ |>.mpr (.inl rfl))⟩
  rw [serve] at hmessage
  simp only [found, getD_some] at hok
  rw [hok] at hmessage
  cases hmessage

end Bifrox.Coordinator

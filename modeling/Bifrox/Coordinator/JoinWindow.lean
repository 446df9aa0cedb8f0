/-
The join window of a group (`join_group` and `sync_group` in `src/server/coordinator.rs`).

A member that comes while the window is open extends it, counted from the time at which it comes,
and joins the generation also when the leader has already handed the partitions out.
-/
import Bifrox.Coordinator.Departure
import Bifrox.Coordinator.Ownership

namespace Bifrox.Coordinator

open Option Coordinator.ConsumerGroup
open Run (Guarded Always)

namespace ConsumerGroup

variable {cfg : Config} {r : Reading} {g g' : ConsumerGroup} {taken : Bool} {now : Nat}
  {group : Option ConsumerGroup}

def accepts (g : ConsumerGroup) : Call → Bool
  | .sync generationId memberId assignments =>
    (g.syncPruned generationId memberId assignments).2.isOk &&
      decide (g.leader = some memberId ∧ (g.state ≠ .stable ∨ assignments ≠ []))
  | _ => false

/-! ## One call -/

def Follows (cfg : Config) (now : Nat) (g : ConsumerGroup) (deadline : Nat) : Prop :=
  if g.isWindowOpen now then
    ∃ earlier ∈ g.rebalanceDeadline, deadline ≤ earlier + cfg.initialRebalanceDelay / 4
  else deadline ∈ g.rebalanceDeadline ∨ deadline = now + cfg.initialRebalanceDelay

/-- A group that is stable after a call was stable before it, in the same generation, unless the
call is a leader's. -/
def Continues (cfg : Config) (now : Nat) (taken : Bool) (g g' : ConsumerGroup) : Prop :=
  (∀ deadline ∈ g'.rebalanceDeadline, g.Follows cfg now deadline) ∧ (taken = false →
    g'.state = .stable → g.state = .stable ∧ g'.generationId = g.generationId)

theorem SameRound.continues (h : SameRound g g')
    (hstable : taken = false → g'.state = .stable → g.state = .stable) :
    Continues cfg now taken g g' := by
  refine ⟨fun deadline hd => ?_, fun htaken hs => ⟨hstable htaken hs, h.1⟩⟩
  rw [h.2] at hd
  rw [Follows]
  split
  · exact ⟨deadline, hd, Nat.le_add_right _ _⟩
  · exact .inl hd

theorem SameRound.joinWindow (h : SameRound g g') (hstate : g'.state = g.state) :
    Continues cfg now taken g (g'.joinWindow cfg now) := by
  rw [ConsumerGroup.joinWindow, h.isWindowOpen_eq]
  split
  · next hopen =>
    refine ⟨fun deadline hd => ?_, fun _ hs => ⟨hstate ▸ hs, h.1⟩⟩
    obtain ⟨earlier, hearlier, rfl⟩ := map_eq_some_iff.mp hd
    rw [Follows, if_pos hopen]
    exact ⟨earlier, h.2 ▸ hearlier, Nat.min_le_left _ _⟩
  · next hclosed =>
    refine ⟨fun deadline hd => ?_, fun _ hs => ?_⟩
    · rw [Follows, if_neg hclosed]
      exact .inr (some.inj hd).symm
    · cases hs

theorem continues_joinDynamic {req : JoinRequest} {sessionTimeout : Nat} :
    Continues cfg r.now taken g (g.joinDynamic cfg r req sessionTimeout).1 := by
  set seated : ConsumerGroup := { g with memberIdSeq := (g.memberIdOf r req).2 }
  have hround : SameRound g (seated.enrol r req (g.memberIdOf r req).1 sessionTimeout).1 :=
    sameRound_enrol
  have hstate : (seated.enrol r req (g.memberIdOf r req).1 sessionTimeout).1.state = g.state := by
    rw [enrol]
    split <;> rfl
  have hstable := fun (_ : taken = false) (hs : _ = .stable) => hstate.symm.trans hs
  rw [joinDynamic]
  dsimp only
  have hnegotiated : SameRound g { (seated.enrol r req (g.memberIdOf r req).1 sessionTimeout).1 with
    protocolName := req.protocols.head? } := hround
  split <;> split
  · exact hnegotiated.joinWindow hstate
  · exact hround.joinWindow hstate
  · exact hnegotiated.continues hstable
  · exact hround.continues hstable

theorem stable_of_prune (h : (g.pruneExpiredMembers cfg r).state = .stable) :
    g.state = .stable := by
  rw [state_prune] at h
  split at h
  · cases h
  · exact h

theorem Continues.prune (h : Continues cfg now taken (g.pruneExpiredMembers cfg r) g') :
    Continues cfg now taken g g' := by
  have hround := sameRound_prune cfg r g
  refine ⟨fun deadline hd => ?_, fun htaken hs => ?_⟩
  · have hfollows := h.1 deadline hd
    rwa [Follows, hround.isWindowOpen_eq, hround.2] at hfollows
  · obtain ⟨hstable, hgeneration⟩ := h.2 htaken hs
    exact ⟨stable_of_prune hstable, hgeneration.trans hround.1⟩

theorem continues_serve {call : Call} :
    Continues cfg r.now (accepts ((group.getD new).pruneExpiredMembers cfg r) call)
      (group.getD new) ((serve cfg r group call).1.getD new) := by
  have hrefl : ∀ {taken} g, Continues cfg r.now taken g g :=
    fun g => SameRound.continues ⟨rfl, rfl⟩ fun _ hs => hs
  cases call with
  | join req =>
    rcases joinGroup_cases cfg r group req with ⟨instanceId, -, -, hslot⟩ | hjoin
    · refine ((sameRound_rejoinStatic hslot).continues fun _ hs => ?_).prune
      unfold rejoinStatic at hslot
      split at hslot
      · cases hslot
      · split at hslot
        · cases hslot
        · rw [← some.inj hslot] at hs
          exact hs
    · show Continues cfg r.now _ _ (joinGroup cfg r group req).1
      rw [hjoin]
      exact continues_joinDynamic.prune
  | sync generationId memberId assignments =>
    cases group with
    | none => exact hrefl _
    | some g =>
      have hround := sameRound_syncPruned (g.pruneExpiredMembers cfg r) generationId memberId
        assignments
      refine (hround.continues fun h hs => ?_).prune
      simp only [getD_some, accepts] at h
      unfold syncPruned at h hs
      split at hs
      · exact hs
      · split at hs
        · exact hs
        · split at hs
          · next hleads =>
            split at hs
            · exact hs
            · simp_all [Except.isOk, Except.toBool]
          · split at hs <;> exact hs
  | heartbeat generationId memberId =>
    cases group with
    | none => exact hrefl _
    | some =>
      refine ((sameRound_heartbeatPruned r _ generationId memberId).continues fun _ hs => ?_).prune
      unfold heartbeatPruned at hs
      dsimp only at hs
      repeat' split at hs
      all_goals exact hs
  | recordProgress => cases group <;> exact hrefl _
  | leave memberId groupInstanceId =>
    cases group with
    | none => exact hrefl _
    | some g =>
      refine (leaveGroup_spec r g memberId groupInstanceId).1.continues fun _ hs => ?_
      unfold leaveGroup at hs
      dsimp only at hs
      split at hs
      · cases hs
      · obtain ⟨leader, heq⟩ := replaceLeader_eq _ r.order (g.leaving memberId groupInstanceId)
        rw [heq] at hs
        cases hs
  | describe =>
    cases group with
    | none => exact hrefl _
    | some => exact (hrefl _).prune
  | closeJoinWindow =>
    cases group with
    | none => exact hrefl _
    | some g =>
      show Continues cfg r.now _ g (g.closeJoinWindow r)
      unfold closeJoinWindow
      split
      · exact hrefl g
      · split
        · refine ⟨fun _ hd => absurd hd.symm (some_ne_none _), fun _ hs => ⟨?_, rfl⟩⟩
          split at hs
          · cases hs
          · exact hs
        · exact hrefl g

/-- No call but a join moves the deadline of an open window. -/
theorem sameRound_serve (cfg : Config) (r : Reading) (group : Option ConsumerGroup) {call : Call}
    (hjoin : ∀ req, call ≠ .join req) (hopen : (group.getD new).isWindowOpen r.now = true) :
    SameRound (group.getD new) ((serve cfg r group call).1.getD new) := by
  cases group with
  | none =>
    rw [serve_none hjoin]
    exact ⟨rfl, rfl⟩
  | some g =>
    by_cases hclose : call = .closeJoinWindow
    · rw [hclose]
      show SameRound g (g.closeJoinWindow r)
      rw [closeJoinWindow]
      cases hdeadline : g.rebalanceDeadline with
      | none => exact ⟨rfl, rfl⟩
      | some deadline =>
        simp only [getD_some, isWindowOpen, hdeadline, decide_eq_true_eq] at hopen
        dsimp only
        rw [if_neg (Nat.not_le.mpr hopen)]
        exact ⟨rfl, rfl⟩
    · obtain ⟨g', hg', hround⟩ := sameRound_of_serve hjoin hclose
      rw [hg']
      exact hround

/-- A newcomer makes a stable group rebalance, unless the window is open. -/
theorem mem_of_joinDynamic {req : JoinRequest} {sessionTimeout : Nat} {id : Text}
    (hstable : (g.joinDynamic cfg r req sessionTimeout).1.state = .stable)
    (hopen : g.isWindowOpen r.now = true → (g.memberIdOf r req).1 ∈ g.members)
    (hid : id ∈ (g.joinDynamic cfg r req sessionTimeout).1.members) : id ∈ g.members := by
  by_cases hmember : (g.memberIdOf r req).1 ∈ g.members
  · obtain ⟨member, hlookup⟩ := isSome_iff_exists.mp (AList.lookup_isSome.mpr hmember)
    rw [joinDynamic_spec.1] at hid
    simp only [enrol, hlookup, AList.mem_insert] at hid
    rcases hid with rfl | hid
    · exact hmember
    · exact hid
  · have hwindow : ∀ {g'}, SameRound g g' →
        (g'.joinWindow cfg r.now).state = .preparingRebalance := by
      intro g' hround
      rw [joinWindow, hround.isWindowOpen_eq, if_neg fun h => hmember (hopen h)]
    simp only [joinDynamic, enrol, AList.lookup_eq_none.mpr hmember, Bool.true_or,
      if_true] at hstable
    rw [hwindow (by split <;> exact ⟨rfl, rfl⟩)] at hstable
    cases hstable

end ConsumerGroup

/-! ## Runs -/

/-- A group with a record of when its window was opened and how often it was extended, and of the
generation and the members that the last assignments were taken for. -/
structure Watched extends Timed where
  openedAt : Nat
  extensions : Nat
  assigned : Option (UInt32 × List Text)

namespace Watched

def start : Watched := { Timed.start with openedAt := 0, extensions := 0, assigned := none }

def step (cfg : Config) (w : Watched) (e : Event) : Watched :=
  let s := w.toTimed.step cfg e
  let isOpen := w.current.isWindowOpen s.clock
  let extended := if s.current.rebalanceDeadline = w.current.rebalanceDeadline then w.extensions
    else w.extensions + 1
  { s with
    openedAt := if isOpen then w.openedAt else s.clock
    extensions := if isOpen then extended else 0
    assigned := if accepts (w.current.pruneExpiredMembers cfg (w.reading e)) e.call then
        some (s.current.generationId, s.current.members.keys)
      else w.assigned }

/-- Every member of a stable group was there when its assignments were taken. -/
def Seated (w : Watched) : Prop :=
  w.current.state = .stable → ∃ members, w.assigned = some (w.current.generationId, members) ∧
    ∀ id ∈ w.current.members, id ∈ members

structure Settles (cfg : Config) (w : Watched) : Prop where
  window : ∀ deadline ∈ w.current.rebalanceDeadline,
    deadline ≤ w.openedAt + 2 * cfg.initialRebalanceDelay
  seated : w.Seated

/-- The members that a call does not evict. -/
abbrev remaining (cfg : Config) (w : Watched) (e : Event) : ConsumerGroup :=
  w.current.pruneExpiredMembers cfg (w.reading e)

/-- The condition on a call.  No join falls into a window that was extended four times.  While a
group is stable no one new joins in its open window, and no instance takes its slot back. -/
structure Orderly (cfg : Config) (w : Watched) (e : Event) : Prop where
  extensions : ∀ req, e.call = .join req → w.current.isWindowOpen (w.clock + e.elapsed) = true →
    w.extensions < 4
  newcomers : ∀ req, e.call = .join req → w.current.state = .stable →
    w.current.isWindowOpen (w.clock + e.elapsed) = true →
      ((w.remaining cfg e).memberIdOf (w.reading e) req).1 ∈ (w.remaining cfg e).members
  slots : ∀ req instanceId, e.call = .join req → w.current.state = .stable →
    req.groupInstanceId = some instanceId → req.cooperativeRoundTwo = false →
      (w.remaining cfg e).staticMembers.lookup instanceId = none

structure Tracked (cfg : Config) (w : Watched) : Prop where
  window : ∀ deadline ∈ w.current.rebalanceDeadline, deadline ≤ w.openedAt +
    cfg.initialRebalanceDelay + w.extensions * (cfg.initialRebalanceDelay / 4)
  extensions : w.extensions ≤ 4
  seated : w.Seated

variable {cfg : Config} {w : Watched} {e : Event}

theorem Tracked.settles (h : w.Tracked cfg) : w.Settles cfg := by
  refine ⟨fun deadline hd => ?_, h.seated⟩
  have hle := h.window deadline hd
  have hextended := Nat.mul_le_mul_right (cfg.initialRebalanceDelay / 4) h.extensions
  omega

theorem Tracked.window_step (h : w.Tracked cfg) {deadline : Nat}
    (hd : deadline ∈ (w.step cfg e).current.rebalanceDeadline) :
    deadline ≤ (w.step cfg e).openedAt + cfg.initialRebalanceDelay +
      (w.step cfg e).extensions * (cfg.initialRebalanceDelay / 4) := by
  have hfollows : w.current.Follows cfg (w.clock + e.elapsed) deadline :=
    continues_serve.1 deadline hd
  have hclock : (w.toTimed.step cfg e).clock = w.clock + e.elapsed := rfl
  rw [Follows] at hfollows
  simp only [Watched.step, hclock]
  split at hfollows
  · next hopen =>
    obtain ⟨earlier, hearlier, hle⟩ := hfollows
    have hbefore := h.window earlier hearlier
    rw [if_pos hopen, if_pos hopen]
    by_cases hsame : (w.toTimed.step cfg e).current.rebalanceDeadline = w.current.rebalanceDeadline
    · rw [if_pos hsame]
      exact h.window deadline (hsame ▸ hd)
    · rw [if_neg hsame, Nat.add_mul]
      omega
  · next hclosed =>
    rw [if_neg hclosed, if_neg hclosed]
    rcases hfollows with hold | hnew
    · simp only [isWindowOpen, mem_def.mp hold, decide_eq_true_eq] at hclosed
      omega
    · omega

theorem Tracked.extensions_step (h : w.Tracked cfg) (he : w.Orderly cfg e) :
    (w.step cfg e).extensions ≤ 4 := by
  have hbefore := h.extensions
  show (if w.current.isWindowOpen (w.clock + e.elapsed) = true then _ else 0) ≤ 4
  split
  · next hopen =>
    by_cases hjoin : ∃ req, e.call = .join req
    · obtain ⟨req, hreq⟩ := hjoin
      have hlt := he.extensions req hreq hopen
      split <;> omega
    · have hsame : (w.toTimed.step cfg e).current.rebalanceDeadline = w.current.rebalanceDeadline :=
        (sameRound_serve cfg (w.reading e) w.group (fun req heq => hjoin ⟨req, heq⟩) hopen).2
      rw [if_pos hsame]
      exact hbefore
  · exact Nat.zero_le _

/-- A join that leaves a stable group stable is one of its members. -/
theorem Orderly.mem_of_join (he : w.Orderly cfg e) {req : JoinRequest} (hreq : e.call = .join req)
    (hbefore : w.current.state = .stable) (hstable : (w.step cfg e).current.state = .stable)
    {id : Text} (hid : id ∈ (w.step cfg e).current.members) : id ∈ w.current.members := by
  have hgroup : (w.step cfg e).current = (joinGroup cfg (w.reading e) w.group req).1 := by
    show ((serve cfg (w.reading e) w.group e.call).1.getD new) = _
    rw [hreq]
    rfl
  rw [hgroup] at hstable hid
  have hremaining : id ∈ (w.remaining cfg e).members := by
    rcases joinGroup_cases cfg (w.reading e) w.group req with
      ⟨instanceId, hinstance, hround, hslot⟩ | hjoin
    · have hnone : ((w.group.getD new).pruneExpiredMembers cfg (w.reading e)).staticMembers.lookup
          instanceId = none := he.slots req instanceId hreq hbefore hinstance hround
      rw [rejoinStatic, hnone] at hslot
      cases hslot
    · rw [hjoin] at hstable hid
      refine mem_of_joinDynamic hstable (fun hopen => ?_) hid
      rw [(sameRound_prune cfg (w.reading e) _).isWindowOpen_eq] at hopen
      exact he.newcomers req hreq hbefore hopen
  rw [← AList.lookup_isSome, lookup_prune] at hremaining
  exact AList.lookup_isSome.mp (isSome_of_isSome_filter _ _ hremaining)

theorem Tracked.step (h : w.Tracked cfg) (he : w.Orderly cfg e) : (w.step cfg e).Tracked cfg := by
  refine ⟨fun deadline hd => h.window_step hd, h.extensions_step he, fun hstable => ?_⟩
  cases haccepts : accepts (w.current.pruneExpiredMembers cfg (w.reading e)) e.call with
  | true => exact ⟨_, if_pos haccepts, fun id hid => hid⟩
  | false =>
    obtain ⟨hbefore, hgeneration⟩ :=
      continues_serve.2 haccepts hstable
    obtain ⟨members, hassigned, hmembers⟩ := h.seated hbefore
    refine ⟨members, ?_, fun id hid => hmembers id ?_⟩
    · rw [Watched.step, haccepts, hassigned]
      exact congrArg (fun generation => some (generation, members)) hgeneration.symm
    · by_cases hjoin : ∃ req, e.call = .join req
      · obtain ⟨req, hreq⟩ := hjoin
        exact he.mem_of_join hreq hbefore hstable hid
      · exact mem_membersOf_of_serve cfg _ (fun req heq => hjoin ⟨req, heq⟩) hid

theorem tracked_start : start.Tracked cfg :=
  ⟨fun _ hd => absurd hd.symm (some_ne_none _), Nat.zero_le _, fun hs => absurd hs (by decide)⟩

theorem settles_of_orderly (cfg : Config) (events : List Event)
    (h : Guarded (step cfg) (Orderly cfg) start events) :
    Always (step cfg) (Settles cfg) start events :=
  h.always (fun _ => Tracked.settles) (fun _ _ => Tracked.step) tracked_start

open Timed (defaults pairing promptly)

theorem settles_pairing : Always (step defaults) (Settles defaults) start pairing := by
  have hjoin : ∀ {w : Watched} {e : Event}, w.extensions < 4 → w.current.state ≠ .stable →
      w.Orderly defaults e := fun hlt hne =>
    ⟨fun _ _ _ => hlt, fun _ _ hs => absurd hs hne, fun _ _ _ hs => absurd hs hne⟩
  exact settles_of_orderly defaults pairing ⟨hjoin (by decide) (by decide),
    hjoin (by decide) (by decide), hjoin (by decide) (by decide), hjoin (by decide) (by decide),
    trivial⟩

/-- Five members come a second after one another. -/
def stragglers : List Event :=
  promptly (.join (joinAs ['a'])) :: [['b'], ['c'], ['d'], ['e'], ['f']].map fun id =>
    { promptly (.join (joinAs id)) with elapsed := millis 1000 }

/-- The leader does not wait for the window to close. -/
def hasty : List Event :=
  [promptly (.join (joinAs ['a'])), promptly (.sync 1 ['a'] []), promptly (.join (joinAs ['b']))]

theorem not_settles_stragglers : ¬ Always (step defaults) (Settles defaults) start stragglers ∧
    ¬ (Run.run (step defaults) start hasty).Seated := by
  constructor
  · intro halways
    have hdeadline : (Run.run (step defaults) start stragglers).current.rebalanceDeadline =
        some (millis 6750) := by
      decide +kernel
    exact absurd (halways.run.window _ hdeadline) (by decide +kernel)
  · intro hseated
    obtain ⟨members, hassigned, hmembers⟩ := hseated rfl
    have hb := hmembers ['b'] (by decide)
    rw [← (Prod.mk.inj (some.inj hassigned)).2] at hb
    exact absurd hb (by decide)

end Watched

end Bifrox.Coordinator

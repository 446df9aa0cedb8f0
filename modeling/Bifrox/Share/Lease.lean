/-
Leases (`acquire_records`, `acknowledge` and `sweep_timers_internal` in
`src/server/share/partition.rs`).

The batch of a record may be cut by acknowledgements of its other records, and its lease may be
renewed.
-/
import Bifrox.Lib.Run
import Bifrox.Share.Layout

namespace Bifrox.Share

open List
open Run (run Guarded Always)
open Interval (links_le)
open SharePartition

/-! ## Holding a record -/

structure HeldBy (memberId : Text) (offset : Nat) (s : SharePartition) : Prop where
  held : ∃ e ∈ s.batches.entries, Has e offset
  only : ∀ e ∈ s.batches.entries, Has e offset → isHeldBy memberId e.2 = true

/-- The call ends the member's lease of the offset: the member acknowledges it other than by
renewing the lease, or the lease has run out at the time of a sweep. -/
def Ends (memberId : Text) (offset : Nat) (s : SharePartition) : ShareCall → Prop
  | .acknowledge caller acks _ => caller = memberId ∧ ∃ ack ∈ acks, ack.ackType ≠ .renew ∧
      ack.firstOffset ≤ offset ∧ offset ≤ ack.lastOffset
  | .acquire _ now _ | .checkLockTimeouts now =>
    ∃ e ∈ s.batches.entries, Has e offset ∧ Expired now e.2

/-- The call returns the offset to no one. -/
def Withheld (offset : Nat) (s : SharePartition) (call : ShareCall) : Prop :=
  offset ∉ (s.handedOut call).map AcquiredRecordInfo.offset

/-- The call leaves alone what the member does not hold: such a batch stays as it is, or was
done before and is now below the start offset. -/
def Spares (memberId : Text) (s s' : SharePartition) : Prop :=
  ∀ e ∈ s.batches.entries, isHeldBy memberId e.2 = false →
    e ∈ s'.batches.entries ∨ e.2.state.isDone = true ∧ lastOf e < s'.startOffset

/-- Some batch of the member has the offset. -/
def Holding (memberId : Text) (offset : Nat) (entries : List Entry) : Prop :=
  ∃ e ∈ entries, isHeldBy memberId e.2 = true ∧ Has e offset

theorem isHeldBy_iff {memberId : Text} {batch : InFlightBatch} :
    isHeldBy memberId batch = true ↔ batch.state = .acquired ∧
      batch.acquiredBy = some memberId := by
  rw [isHeldBy, Bool.and_eq_true, decide_eq_true_iff, decide_eq_true_iff]

section Holding

variable {memberId : Text} {offset : Nat} {s : SharePartition}

/-- Batches do not overlap, so that one member at most holds an offset. -/
theorem Holding.heldBy (hs : LaidOut (· ≤ ·) s) (h : Holding memberId offset s.batches.entries) :
    HeldBy memberId offset s := by
  obtain ⟨e, he, hheld, hhas⟩ := h
  refine ⟨⟨e, he, hhas⟩, fun e' he' hhas' => ?_⟩
  rw [hs.laid.eq_of_covers links_le he' he hhas' hhas]
  exact hheld

theorem Holding.mono {entries entries' : List Entry} (h : Holding memberId offset entries)
    (hsub : entries ⊆ entries') : Holding memberId offset entries' := by
  obtain ⟨e, he, hheld⟩ := h
  exact ⟨e, hsub he, hheld⟩

theorem Holding.settle {w : Settling} (hw : Sound (· ≤ ·) s.startOffset s.nextFetchOffset w.batches)
    (h : Holding memberId offset w.batches.entries) :
    Holding memberId offset (s.settle w).batches.entries := by
  obtain ⟨e, he, hheld, hhas⟩ := h
  rcases (settle_spec links_le hw).2.2 e he with hmem | ⟨hdone, -⟩
  · exact ⟨e, hmem, hheld, hhas⟩
  · rw [(isHeldBy_iff.mp hheld).1] at hdone
    cases hdone

end Holding

/-! ## One call -/

section Step

variable {memberId caller : Text} {offset now : Nat} {s : SharePartition} {call : ShareCall}

theorem Holding.ackRange {maxDeliveryAttempts : UInt16} {lo hi : Nat} {w : Settling}
    {ack : AckBatch} (hw : Sound (· ≤ ·) lo hi w.batches) (hack : ack.firstOffset ≤ ack.lastOffset)
    (hkeeps : caller = memberId → ack.firstOffset ≤ offset → offset ≤ ack.lastOffset →
      ack.ackType = .renew)
    (h : Holding memberId offset w.batches.entries) :
    Holding memberId offset
      (SharePartition.ackRange maxDeliveryAttempts caller now w ack).batches.entries := by
  obtain ⟨e, he, hheld, hhas⟩ := h
  rw [(ackRange_eq maxDeliveryAttempts caller now links_le hw hack).1]
  suffices hparts : Holding memberId offset (ackParts maxDeliveryAttempts caller now ack e) from
    hparts.mono fun x hx => mem_flatMap.mpr ⟨e, he, hx⟩
  rw [ackParts]
  split
  · next hconcerned =>
    -- the batch is acknowledged by its own member
    have hcaller : caller = memberId := by
      have howner := (isHeldBy_iff.mp hconcerned.2).2
      rw [(isHeldBy_iff.mp hheld).2] at howner
      exact (Option.some.inj howner).symm
    have hfirst : firstOf e ≤ offset := hhas.1
    have hlast : offset ≤ lastOf e := hhas.2
    by_cases hleft : offset < ack.firstOffset
    · refine ⟨(firstOf e, e.2.piece (firstOf e) (ack.firstOffset - 1)),
        mem_append_left _ ?_, hheld, ⟨hfirst, Nat.le_sub_one_of_lt hleft⟩⟩
      rw [leftPart, if_pos (by omega)]
      exact mem_singleton_self _
    · by_cases hright : ack.lastOffset < offset
      · refine ⟨(ack.lastOffset + 1, e.2.piece (ack.lastOffset + 1) (lastOf e)),
          mem_append_right _ (mem_cons_of_mem _ ?_), hheld, ⟨hright, hlast⟩⟩
        rw [rightPart, if_pos (by omega)]
        exact mem_singleton_self _
      · have hrenew := hkeeps hcaller (Nat.le_of_not_lt hleft) (Nat.le_of_not_lt hright)
        refine ⟨_, mem_append_right _ mem_cons_self, ?_, ?_⟩
        · rw [middlePart, isHeldBy_iff, acked, hrenew, hcaller]
          exact ⟨rfl, rfl⟩
        · exact ⟨max_le hfirst (Nat.le_of_not_lt hleft), le_min hlast (Nat.le_of_not_lt hright)⟩
  · exact ⟨e, mem_singleton_self e, hheld, hhas⟩

theorem Holding.ackRanges {acks : List AckBatch} (hs : LaidOut (· ≤ ·) s) (hacks : Ordered acks)
    (hkeeps : ¬ Ends memberId offset s (.acknowledge caller acks now))
    (h : Holding memberId offset s.batches.entries) :
    Holding memberId offset (s.ackRanges caller acks now).batches.entries := by
  refine (List.foldlRecOn acks _ (motive := fun w =>
    Sound (· ≤ ·) s.startOffset s.nextFetchOffset (Settling.batches w) ∧
      Holding memberId offset w.batches.entries) ⟨hs, h⟩ fun w hw ack hack => ?_).2
  refine ⟨(ackRange_spec s.maxDeliveryAttempts caller now links_le hw.1 (hacks ack hack)).1,
    hw.2.ackRange hw.1 (hacks ack hack) fun hcaller hfirst hlast => ?_⟩
  by_contra hother
  exact hkeeps ⟨hcaller, ack, hack, hother, hfirst, hlast⟩

theorem Holding.sweepTimers (hlease : ¬ Ends memberId offset s (.checkLockTimeouts now))
    (h : Holding memberId offset s.batches.entries) :
    Holding memberId offset (s.sweepTimers now).batches.entries := by
  obtain ⟨e, he, hheld, hhas⟩ := h
  obtain ⟨parts, hparts, hsub⟩ := (sweepTimers_spec s now).1.exists_parts he
  rcases hparts with rfl | ⟨hexpired, -⟩
  · exact ⟨e, hsub (mem_singleton_self e), hheld, hhas⟩
  · exact absurd ⟨e, he, hhas, hexpired⟩ hlease

section

variable (hs : LaidOut (· ≤ ·) s) {request : AcquireRequest}
include hs

theorem Holding.sweepTimersInline (hlease : ¬ Ends memberId offset s (.checkLockTimeouts now))
    (h : Holding memberId offset s.batches.entries) :
    Holding memberId offset (s.sweepTimersInline now).batches.entries := by
  rw [SharePartition.sweepTimersInline]
  split
  · exact (h.sweepTimers hlease).settle (sweepTimers_sound links_le hs)
  · exact h

theorem Holding.acquireRecords {fetch : Reader}
    (hproper : Proper (.acquire request now fetch)) (hmax : request.maxRecords ≠ 0)
    (h : Holding memberId offset (s.sweepTimersInline now).batches.entries) :
    Holding memberId offset (s.acquireRecords request now fetch).1.batches.entries := by
  obtain ⟨e, he, hheld, hhas⟩ := h
  obtain ⟨-, -, ⟨taken, hcut, hentries⟩, -⟩ :=
    acquireRecords_spec links_le hs hproper linked_le hmax
  obtain ⟨parts, hparts, hsub⟩ := hcut.exists_parts he
  have htaken : Holding memberId offset taken := by
    rcases hparts with rfl | ⟨havailable, -⟩
    · exact ⟨e, hsub (mem_singleton_self e), hheld, hhas⟩
    · rw [(isHeldBy_iff.mp hheld).1] at havailable
      cases havailable
  rcases hentries with ⟨heq, -⟩ | ⟨first, last, -, -, -, heq⟩
  · rw [heq]
    exact htaken
  · rw [heq]
    exact htaken.mono (subset_append_left _ _)

theorem Holding.serve (hproper : Proper call) (hkeeps : ¬ Ends memberId offset s call)
    (h : Holding memberId offset s.batches.entries) :
    Holding memberId offset (s.serve call).batches.entries := by
  cases call with
  | acquire request =>
    by_cases hmax : request.maxRecords = 0
    · rw [SharePartition.serve, acquireRecords_of_zero hmax]
      exact h
    · exact (h.sweepTimersInline hs hkeeps).acquireRecords hs hproper hmax
  | acknowledge caller acks now =>
    exact (h.ackRanges hs hproper hkeeps).settle (ackRanges_spec links_le hs hproper).1
  | checkLockTimeouts now =>
    exact (h.sweepTimers hkeeps).settle (sweepTimers_sound links_le hs)

/-- What is held after the sweep is not returned to anyone. -/
theorem Holding.withheld (hproper : Proper call) (hkeeps : ¬ Ends memberId offset s call)
    (h : Holding memberId offset s.batches.entries) : Withheld offset s call := by
  cases call with
  | acquire request now fetch =>
    intro hmem
    obtain ⟨info, hinfo, rfl⟩ := mem_map.mp hmem
    by_cases hmax : request.maxRecords = 0
    · rw [handedOut, acquireRecords_of_zero hmax] at hinfo
      cases hinfo
    · have hswept := sweepTimersInline_laidOut links_le hs now
      obtain ⟨e, he, hheld, hhas⟩ := h.sweepTimersInline hs hkeeps
      rcases ((acquireRecords_spec links_le hs hproper linked_le hmax).2.2.2 info hinfo).2 with
        ⟨e', he', havailable, hhas'⟩ | hfresh
      · rw [hswept.laid.eq_of_covers links_le he' he hhas' hhas, (isHeldBy_iff.mp hheld).1]
          at havailable
        cases havailable
      · -- all that is tracked lies below the next offset to fetch
        have hbounds := hswept.laid.bounds links_le he
        rw [nextFetchOffset_sweepTimersInline] at hbounds
        have hlast : info.offset ≤ lastOf e := hhas.2
        omega
  | acknowledge => exact not_mem_nil
  | checkLockTimeouts => exact not_mem_nil

/-- What a call returns is held by the member that it is returned to. -/
theorem holding_of_mem_acquireRecords {fetch : Reader}
    (hproper : Proper (.acquire request now fetch))
    {info : AcquiredRecordInfo} (hinfo : info ∈ (s.acquireRecords request now fetch).2) :
    Holding request.memberId info.offset
      (s.acquireRecords request now fetch).1.batches.entries := by
  have hmax : request.maxRecords ≠ 0 := by
    intro hzero
    rw [acquireRecords_of_zero hzero] at hinfo
    cases hinfo
  obtain ⟨e, he, hlease, hhas⟩ :=
    ((acquireRecords_spec links_le hs hproper linked_le hmax).2.2.2 info hinfo).1
  exact ⟨e, he, isHeldBy_iff.mpr ⟨hlease.1, hlease.2.1⟩, hhas⟩

theorem spares_acknowledge {acks : List AckBatch} (hacks : Ordered acks) :
    Spares caller s (s.acknowledge caller acks now).1 := by
  intro e he hother
  have hranges : e ∈ (s.ackRanges caller acks now).batches.entries := by
    refine (List.foldlRecOn acks _ (motive := fun w =>
      Sound (· ≤ ·) s.startOffset s.nextFetchOffset (Settling.batches w) ∧
        e ∈ w.batches.entries) ⟨hs, he⟩ fun w hw ack hack => ?_).2
    refine ⟨(ackRange_spec s.maxDeliveryAttempts caller now links_le hw.1 (hacks ack hack)).1, ?_⟩
    rw [(ackRange_eq s.maxDeliveryAttempts caller now links_le hw.1 (hacks ack hack)).1]
    refine mem_flatMap.mpr ⟨e, hw.2, ?_⟩
    rw [ackParts, if_neg fun hconcerned =>
      absurd hconcerned.2 (Bool.not_eq_true _ ▸ hother)]
    exact mem_singleton_self e
  exact (settle_spec links_le (ackRanges_spec links_le hs hacks).1).2.2 e hranges

end

end Step

/-! ## Runs -/

/-- A state that is reached from a new share partition by calls that read logs in order and
acknowledge ranges that are the right way round. -/
def Reached (s : SharePartition) : Prop :=
  ∃ defaultLockTimeout maxDeliveryAttempts startOffset calls, (∀ call ∈ calls, Proper call) ∧
      s = run serve (new defaultLockTimeout maxDeliveryAttempts startOffset) calls

theorem Reached.laidOut {s : SharePartition} (h : Reached s) : LaidOut (· ≤ ·) s := by
  obtain ⟨defaultLockTimeout, maxDeliveryAttempts, startOffset, calls, hcalls, rfl⟩ := h
  have hproper : Guarded serve (fun _ call => Proper call)
      (new defaultLockTimeout maxDeliveryAttempts startOffset) calls := Guarded.of_forall hcalls
  exact Guarded.invariant
    (fun s call hs hproper => serve_laidOut links_le hs hproper linked_le)
    (laidOut_new links_le defaultLockTimeout maxDeliveryAttempts startOffset) hproper

/-- What a run keeps while a lease goes on. -/
structure Leasing (memberId : Text) (offset : Nat) (s : SharePartition) : Prop where
  laidOut : LaidOut (· ≤ ·) s
  holding : Holding memberId offset s.batches.entries

theorem Leasing.serve {memberId : Text} {offset : Nat} {s : SharePartition} {call : ShareCall}
    (h : Leasing memberId offset s) (hcall : Proper call ∧ ¬ Ends memberId offset s call) :
    Leasing memberId offset (s.serve call) where
  laidOut := serve_laidOut links_le h.laidOut hcall.1 linked_le
  holding := h.holding.serve h.laidOut hcall.1 hcall.2

/-- From any state that is reached: a record that is returned to a member is held by exactly
that member, and returned to no one, through all calls up to the one that ends the lease; and
an acknowledgement leaves alone every batch that its member does not hold. -/
theorem lease_exclusive {s : SharePartition} (hs : Reached s) :
    (∀ request now fetch, Increasing fetch →
      ∀ info ∈ (s.acquireRecords request now fetch).2, ∀ calls : List ShareCall,
        (∀ call ∈ calls, Proper call) →
        Guarded serve (fun s call => ¬ Ends request.memberId info.offset s call)
          (s.acquireRecords request now fetch).1 calls →
        Always serve (HeldBy request.memberId info.offset)
            (s.acquireRecords request now fetch).1 calls ∧
          Guarded serve (Withheld info.offset) (s.acquireRecords request now fetch).1 calls) ∧
      ∀ memberId acks now, Ordered acks →
        Spares memberId s (s.acknowledge memberId acks now).1 := by
  refine ⟨fun request now fetch hfetch info hinfo calls hcalls hkeeps => ?_,
    fun memberId acks now hacks => spares_acknowledge hs.laidOut hacks⟩
  have hproper : Proper (.acquire request now fetch) := hfetch
  have hleasing : Leasing request.memberId info.offset (s.acquireRecords request now fetch).1 :=
    ⟨serve_laidOut links_le hs.laidOut hproper linked_le,
      holding_of_mem_acquireRecords hs.laidOut hproper hinfo⟩
  have hguarded := (Guarded.of_forall hcalls).and hkeeps
  constructor
  · exact hguarded.always (fun s h => h.holding.heldBy h.laidOut)
      (fun s call h hcall => h.serve hcall) hleasing
  · exact hguarded.imp (fun s call h hcall => h.serve hcall)
      (fun s call h hcall => h.holding.withheld h.laidOut hcall.1 hcall.2) hleasing

/-! ### A second member -/

def askAndAccept : List ShareCall :=
  [.acquire (ask ['b'] 2) 5 (logOf [0, 1, 2]),
    .acknowledge ['b'] [{ firstOffset := 0, lastOffset := 2, ackType := .accept }] 6]

/-- A member asks for records while another has two of them, and accepts all three. -/
theorem lease_exclusive_threeRecords : Always serve (HeldBy ['a'] 1)
    ((new 10 5 0).acquireRecords (ask ['a'] 2) 0 (logOf [0, 1, 2])).1 askAndAccept := by
  have hincreasing : Increasing (logOf [0, 1, 2]) := increasing_logOf (by decide)
  have hreached : Reached (new 10 5 0) :=
    ⟨10, 5, 0, [], nofun, rfl⟩
  refine ((lease_exclusive hreached).1 (ask ['a'] 2) 0 (logOf [0, 1, 2]) hincreasing _
    (mem_cons_of_mem _ mem_cons_self) askAndAccept ?_ ⟨?_, fun hends => ?_, trivial⟩).1
  · intro call hcall
    rcases mem_cons.mp hcall with rfl | hcall
    · exact hincreasing
    · rw [mem_singleton.mp hcall]
      exact ordered_single (by decide)
  · rintro ⟨e, he, -, memberId, hlapsed⟩
    rw [show e = (0, freshBatch ['a'] 0 10 0 1) from mem_singleton.mp he, hasLapsed,
      Bool.and_eq_true] at hlapsed
    exact absurd hlapsed.2 (by decide)
  · exact absurd hends.1 (by decide)

end Bifrox.Share

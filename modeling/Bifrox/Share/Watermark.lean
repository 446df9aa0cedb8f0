/-
The start offset (`advance_watermark`, `acquire_records` and `acknowledge` in
`src/server/share/partition.rs`).

The watermark stops at the first batch that does not start where the one before it ended, so a gap
in the log between two batches stops it for good.
-/
import Bifrox.Lib.Run
import Bifrox.Share.Layout

namespace Bifrox.Share

open List
open Run (Guarded Always)
open Interval (Cut links_eq)
open SharePartition

/-! ## Catching up -/

/-- A partition with the offsets of the records that were fetched so far. -/
structure Fetched where
  partition : SharePartition
  offsets : List Nat

namespace Fetched

def step (f : Fetched) (call : ShareCall) : Fetched where
  partition := f.partition.serve call
  offsets := f.offsets ++ (f.partition.handedOut call).map AcquiredRecordInfo.offset

def start (defaultLockTimeout : Nat) (maxDeliveryAttempts : UInt16) (startOffset : Nat) :
    Fetched where
  partition := new defaultLockTimeout maxDeliveryAttempts startOffset
  offsets := []

end Fetched

def IsDone (s : SharePartition) (offset : Nat) : Prop :=
  offset < s.startOffset ∨ ∃ e ∈ s.batches.entries, e.2.state.isDone = true ∧ Has e offset

/-- When every record that was fetched is done, nothing is tracked and the start offset is
the next to fetch. -/
def CaughtUp (f : Fetched) : Prop :=
  (∀ offset ∈ f.offsets, IsDone f.partition offset) →
    f.partition.batches.entries = [] ∧ f.partition.startOffset = f.partition.nextFetchOffset

/-- The records that a call reads for the first time follow on each other from the next
offset on. -/
def Gapless (f : Fetched) : ShareCall → Prop
  | .acquire _ _ fetch =>
    ((((fetch f.partition.nextFetchOffset).getD []).filter fun frame =>
        f.partition.nextFetchOffset ≤ frame.offset).map Segment.Record.offset) =
      List.range' f.partition.nextFetchOffset
        (((fetch f.partition.nextFetchOffset).getD []).filter fun frame =>
          f.partition.nextFetchOffset ≤ frame.offset).length
  | .acknowledge _ _ _ | .checkLockTimeouts _ => True

def Smooth (f : Fetched) (call : ShareCall) : Prop := Proper call ∧ Gapless f call

/-! ## Reading without gaps -/

variable {f : Fetched} {call : ShareCall}

section Fresh

variable {s : SharePartition} {request : AcquireRequest} {now : Nat} {fetch : Reader}

theorem map_offset_freshFrames {next : Nat}
    (h : (((fetch next).getD []).filter fun frame => next ≤ frame.offset).map
      Segment.Record.offset =
      List.range' next (((fetch next).getD []).filter fun frame => next ≤ frame.offset).length)
    (needed : Nat) :
    (freshFrames fetch next needed).map Segment.Record.offset =
      List.range' next (freshFrames fetch next needed).length := by
  rw [freshFrames, map_take, h, length_take]
  refine ext_getElem? fun i => ?_
  grind

theorem linked_eq (h : Gapless f call) : Linked (· = ·) f.partition call := by
  cases call with
  | acquire =>
    intro needed frame hframe
    have hoffsets := map_offset_freshFrames h needed
    obtain ⟨rest, hrest⟩ := List.head?_eq_some_iff.mp hframe
    rw [hrest, map_cons, length_cons, List.range'_succ] at hoffsets
    exact (List.cons.inj hoffsets).1.symm
  | acknowledge => trivial
  | checkLockTimeouts => trivial

theorem mem_handedOut (h : Gapless f call) {offset : Nat}
    (hlo : f.partition.nextFetchOffset ≤ offset)
    (hhi : offset < (f.partition.serve call).nextFetchOffset) :
    offset ∈ (f.partition.handedOut call).map AcquiredRecordInfo.offset := by
  cases call with
  | acquire request now fetch =>
    by_cases hmax : request.maxRecords = 0
    · rw [serve, acquireRecords_of_zero hmax] at hhi
      exact absurd hlo (Nat.not_le.mpr hhi)
    · rw [serve] at hhi
      rw [handedOut]
      unfold SharePartition.acquireRecords at hhi ⊢
      rw [if_neg hmax] at hhi ⊢
      simp only [acquireLocked, nextFetchOffset_sweepTimersInline] at hhi ⊢
      rcases acquireFresh_cases fetch request.memberId request.maxRecords now
        (request.lockTimeout.getD f.partition.defaultLockTimeout) f.partition.nextFetchOffset
        (acquireAvailable fetch request.memberId request.maxRecords now
          (request.lockTimeout.getD f.partition.defaultLockTimeout)
          (f.partition.sweepTimersInline now).batches) with
        heq | ⟨frames, first, last, hframes, -, hlast, heq⟩
      · rw [heq] at hhi
        exact absurd hlo (Nat.not_le.mpr hhi)
      · rw [heq] at hhi ⊢
        have hoffsets := map_offset_freshFrames h (request.maxRecords -
          (acquireAvailable fetch request.memberId request.maxRecords now
            (request.lockTimeout.getD f.partition.defaultLockTimeout)
            (f.partition.sweepTimersInline now).batches).acquiredInfos.length)
        rw [← hframes] at hoffsets
        have hend : last.offset ∈ frames.map Segment.Record.offset :=
          mem_map_of_mem (mem_of_getLast? hlast)
        rw [hoffsets, mem_range'_1] at hend
        have hmem : offset ∈ frames.map Segment.Record.offset := by
          rw [hoffsets, mem_range'_1]
          have hhi : offset < last.offset + 1 := hhi
          omega
        obtain ⟨frame, hframe, rfl⟩ := mem_map.mp hmem
        refine mem_map.mpr ⟨_, mem_append_right _ (mem_map_of_mem hframe), rfl⟩
  | acknowledge => exact absurd hlo (Nat.not_le.mpr hhi)
  | checkLockTimeouts => exact absurd hlo (Nat.not_le.mpr hhi)

end Fresh

/-! ## The first batch -/

/-- The first batch that is tracked is not done. -/
def Pending (entries : List Entry) : Prop :=
  ∀ e, entries.head? = some e → e.2.state.isDone = false

theorem pending_advanceWatermark {s : SharePartition} (h : LaidOut (· = ·) s.advanceWatermark) :
    Pending s.advanceWatermark.batches.entries := by
  intro e he
  have hstop := OrderedMap.popEntries_stop he
  obtain ⟨rest, hrest⟩ := List.head?_eq_some_iff.mp he
  have hmem : e ∈ s.advanceWatermark.batches.entries := by
    rw [hrest]
    exact mem_cons_self
  have hlaid := h.laid
  rw [hrest] at hlaid
  have hfirst : e.1 = s.advanceWatermark.startOffset := (h.keyed e hmem).trans hlaid.1.symm
  rw [watermarkStep] at hstop
  by_contra hdone
  rw [Bool.not_eq_false] at hdone
  rw [if_pos ⟨hfirst, hdone⟩] at hstop
  cases hstop

theorem pending_takes {memberId : Text} {now timeout : Nat} {entries taken : List Entry}
    (hcut : Cut (Takes memberId now timeout) entries taken) (h : Pending entries) :
    Pending taken := by
  intro x hx
  cases hcut with
  | nil => cases hx
  | @cons e parts rest taken hparts =>
    rcases hparts with rfl | ⟨-, rfl | ⟨split, -, -, rfl⟩⟩
    · rw [← Option.some.inj hx]
      exact h e rfl
    · rw [← Option.some.inj hx]
      rfl
    · rw [← Option.some.inj hx]
      rfl

theorem pending_serve {s : SharePartition} (h : LaidOut (· = ·) s)
    (hpending : Pending s.batches.entries) (hproper : Proper call) (hlinked : Linked (· = ·) s call)
    :
    Pending (s.serve call).batches.entries := by
  cases call with
  | acquire request now =>
    by_cases hmax : request.maxRecords = 0
    · rw [serve, acquireRecords_of_zero hmax]
      exact hpending
    · have hswept : Pending (s.sweepTimersInline now).batches.entries := by
        have hlaid := sweepTimersInline_laidOut links_eq h now
        by_cases hsweep : s.shouldSweep now = true
        · rw [sweepTimersInline, if_pos hsweep] at hlaid ⊢
          exact pending_advanceWatermark hlaid
        · rw [sweepTimersInline, if_neg hsweep]
          exact hpending
      obtain ⟨-, -, ⟨taken, hcut, hentries⟩, -⟩ :=
        acquireRecords_spec links_eq h hproper hlinked hmax
      have htaken := pending_takes hcut hswept
      rw [serve]
      rcases hentries with ⟨heq, -⟩ | ⟨first, last, -, -, -, heq⟩
      · rw [heq]
        exact htaken
      · rw [heq]
        intro x hx
        cases taken with
        | nil =>
          rw [← Option.some.inj hx]
          rfl
        | cons => exact htaken x hx
  | acknowledge memberId acks now =>
    exact pending_advanceWatermark (acknowledge_laidOut links_eq h hproper)
  | checkLockTimeouts now =>
    exact pending_advanceWatermark (sweepTimersInternal_laidOut links_eq h)

/-! ## Runs -/

/-- The batches fill what lies between the start offset and the next one, and all of it was
fetched. -/
structure Filled (first : Nat) (f : Fetched) : Prop where
  laidOut : LaidOut (· = ·) f.partition
  pending : Pending f.partition.batches.entries
  first_le : first ≤ f.partition.startOffset
  fetched : ∀ offset, first ≤ offset → offset < f.partition.nextFetchOffset → offset ∈ f.offsets

theorem Filled.caughtUp {first : Nat} (h : Filled first f) : CaughtUp f := by
  intro hdone
  have hempty : f.partition.batches.entries = [] := by
    rcases hentries : f.partition.batches.entries with _ | ⟨e, rest⟩
    · rfl
    · have hmem : e ∈ f.partition.batches.entries := by
        rw [hentries]
        exact mem_cons_self
      have hbounds := h.laidOut.laid.bounds links_eq hmem
      have hfirst := h.first_le
      rcases hdone (firstOf e) (h.fetched _ (by omega) (by omega)) with hbelow |
        ⟨e', he', hstate, hhas⟩
      · omega
      · rw [← h.laidOut.laid.eq_of_covers links_eq hmem he' ⟨Nat.le_refl _, hbounds.2.1⟩ hhas,
          h.pending e (by rw [hentries]; rfl)] at hstate
        cases hstate
  refine ⟨hempty, ?_⟩
  have hlaid := h.laidOut.laid
  rw [hempty] at hlaid
  exact hlaid

theorem Filled.step {first : Nat} (h : Filled first f) (hcall : Smooth f call) :
    Filled first (f.step call) where
  laidOut := serve_laidOut links_eq h.laidOut hcall.1 (linked_eq hcall.2)
  pending := pending_serve h.laidOut h.pending hcall.1 (linked_eq hcall.2)
  first_le := h.first_le.trans (startOffset_le_serve links_eq h.laidOut hcall.1 (linked_eq hcall.2))
  fetched := by
    intro offset hlo hhi
    by_cases hold : offset < f.partition.nextFetchOffset
    · exact mem_append_left _ (h.fetched offset hlo hold)
    · exact mem_append_right _ (mem_handedOut hcall.2 (Nat.le_of_not_lt hold) hhi)

theorem filled_start {defaultLockTimeout : Nat} {maxDeliveryAttempts : UInt16} {startOffset : Nat} :
    Filled startOffset (Fetched.start defaultLockTimeout maxDeliveryAttempts startOffset) where
  laidOut := laidOut_new links_eq _ _ _
  pending := fun e he => absurd he.symm (Option.some_ne_none e)
  first_le := Nat.le_refl startOffset
  fetched := fun _ hlo hhi => absurd hlo (Nat.not_le.mpr hhi)

/-- The start offset catches up in every state of a run whose calls read no gap and
acknowledge ranges that are the right way round. -/
theorem caughtUp_of_gapless (defaultLockTimeout : Nat) (maxDeliveryAttempts : UInt16)
    (startOffset : Nat) (calls : List ShareCall)
    (h : Guarded Fetched.step Smooth
      (Fetched.start defaultLockTimeout maxDeliveryAttempts startOffset) calls) :
    Always Fetched.step CaughtUp
      (Fetched.start defaultLockTimeout maxDeliveryAttempts startOffset) calls :=
  h.always (fun _ hf => Filled.caughtUp hf) (fun _ _ hf hcall => hf.step hcall) filled_start

/-! ### A log that was trimmed -/

def acceptAt (memberId : Text) (offset : Nat) : ShareCall :=
  .acknowledge memberId [{ firstOffset := offset, lastOffset := offset, ackType := .accept }] 0

/-- Two members share three records, and the last of them is accepted first. -/
theorem caughtUp_threeRecords : Always Fetched.step CaughtUp (Fetched.start 10 5 0)
    [.acquire (ask ['a'] 2) 0 (logOf [0, 1, 2]), .acquire (ask ['b'] 2) 0 (logOf [0, 1, 2]),
      acceptAt ['b'] 2, acceptAt ['a'] 1, acceptAt ['a'] 0] := by
  have hincreasing : Increasing (logOf [0, 1, 2]) := increasing_logOf (by decide)
  exact caughtUp_of_gapless 10 5 0 _ ⟨⟨hincreasing, rfl⟩, ⟨hincreasing, rfl⟩,
    ⟨ordered_single (Nat.le_refl 2), trivial⟩, ⟨ordered_single (Nat.le_refl 1), trivial⟩,
    ⟨ordered_single (Nat.le_refl 0), trivial⟩, trivial⟩

/-- The first five records of the log are gone. -/
def readTrimmed : List ShareCall := [.acquire (ask ['a'] 1) 0 (logOf [5]), acceptAt ['a'] 5]

/-- The only record of the log is accepted, and the start offset stays where it was. -/
theorem not_caughtUp_trimmedLog : (∀ call ∈ readTrimmed, Proper call) ∧
      ¬ Always Fetched.step CaughtUp (Fetched.start 10 5 0) readTrimmed := by
  constructor
  · intro call hcall
    rw [readTrimmed, mem_cons, mem_singleton] at hcall
    rcases hcall with rfl | rfl
    · exact increasing_logOf (by decide)
    · exact ordered_single (Nat.le_refl 5)
  · intro h
    have hcaught := h.2.2
    refine absurd (hcaught ?_).2 (by decide)
    intro offset hoffset
    rw [show offset = 5 from mem_singleton.mp hoffset]
    exact .inr ⟨_, mem_singleton_self _, rfl, by decide, by decide⟩

end Bifrox.Share

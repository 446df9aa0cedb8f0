/-
Dead letters (`acknowledge`, `check_lock_timeouts` and `acquire_records` in
`src/server/share/partition.rs`, `sweep_lock_timeouts` in `src/server/share/manager.rs`).

`acquire_records` sweeps before it acquires, and drops what the sweep returns.
-/
import Bifrox.Lib.Run
import Bifrox.Share.Layout

namespace Bifrox.Share

open List List.Sublist
open Run (Guarded Always)
open Interval (Links Cut links_le)
open SharePartition

/-! ## What is archived and what is reported -/

/-- The batches as a call has settled them, before any is taken off or acquired. -/
def settledBatches (s : SharePartition) : ShareCall → Batches
  | .acquire request now _ =>
    if request.maxRecords = 0 then s.batches
    else if s.shouldSweep now then (s.sweepTimers now).batches
    else s.batches
  | .acknowledge memberId acks now => (s.ackRanges memberId acks now).batches
  | .checkLockTimeouts now => (s.sweepTimers now).batches

def archives (s : SharePartition) (call : ShareCall) : List Nat :=
  (archivedIn (settledBatches s call).entries).filter fun offset =>
    offset ∉ archivedIn s.batches.entries

structure Ledger where
  partition : SharePartition
  archived : List Nat
  reported : List Nat

namespace Ledger

def step (l : Ledger) (call : ShareCall) : Ledger where
  partition := l.partition.serve call
  archived := l.archived ++ archives l.partition call
  reported := l.reported ++ l.partition.deadLetters call

def start (defaultLockTimeout : Nat) (maxDeliveryAttempts : UInt16) (startOffset : Nat) :
    Ledger where
  partition := new defaultLockTimeout maxDeliveryAttempts startOffset
  archived := []
  reported := []

/-- What was archived was reported once. -/
def Lossless (l : Ledger) : Prop := ∀ offset ∈ l.archived, l.reported.count offset = 1

/-- A call to acquire records archives nothing on the way. -/
def Quiet (l : Ledger) : ShareCall → Prop
  | .acquire request now fetch => archives l.partition (.acquire request now fetch) = []
  | .acknowledge _ _ _ | .checkLockTimeouts _ => True

end Ledger

/-! ## Archived offsets -/

theorem mem_archivedIn {entries : List Entry} {offset : Nat} :
    offset ∈ archivedIn entries ↔ ∃ e ∈ entries, e.2.state = .archived ∧ Has e offset := by
  rw [archivedIn, mem_flatMap]
  refine exists_congr fun e => and_congr_right fun _ => ?_
  rw [archivedOf]
  split
  · next hstate =>
    rw [and_iff_right hstate]
    show offset ∈ Interval.numbers firstOf lastOf e ↔ Has e offset
    exact Interval.mem_numbers
  · next hstate => simp [hstate]

theorem archivedIn_sublist (entries : List Entry) :
    (archivedIn entries).Sublist (entries.flatMap (Interval.numbers firstOf lastOf)) := by
  induction entries with
  | nil => exact refl _
  | cons e entries ih =>
    rw [archivedIn, flatMap_cons, flatMap_cons, archivedOf]
    split
    · exact append (refl _) ih
    · exact append (nil_sublist _) ih

theorem le_of_mem_archivedIn {rel : Nat → Nat → Prop} (hrel : Links rel) {lo hi : Nat}
    {batches : Batches} (h : Sound rel lo hi batches) {offset : Nat}
    (hoffset : offset ∈ archivedIn batches.entries) : lo ≤ offset ∧ offset < hi := by
  obtain ⟨e, he, -, hhas⟩ := mem_archivedIn.mp hoffset
  have hbounds := h.laid.bounds hrel he
  rw [Has, Interval.Covers] at hhas
  omega

/-! ## One call -/

section Call

variable {s : SharePartition} {call : ShareCall} {offset : Nat}

theorem settledBatches_sound (h : LaidOut (· ≤ ·) s) (hproper : Proper call) :
    Sound (· ≤ ·) s.startOffset s.nextFetchOffset (settledBatches s call) := by
  cases call with
  | acquire request now =>
    rw [settledBatches]
    split
    · exact h
    · split
      · exact sweepTimers_sound links_le h
      · exact h
  | acknowledge memberId acks now => exact (ackRanges_spec links_le h hproper).1
  | checkLockTimeouts now => exact sweepTimers_sound links_le h

theorem count_deadLetters (h : LaidOut (· ≤ ·) s) (hproper : Proper call)
    (hcall : ∀ request now fetch, call ≠ .acquire request now fetch) (offset : Nat) :
    (archivedIn (settledBatches s call).entries).count offset =
      (archivedIn s.batches.entries).count offset + (s.deadLetters call).count offset := by
  cases call with
  | acquire request now fetch => exact absurd rfl (hcall request now fetch)
  | acknowledge memberId acks now => exact (ackRanges_spec links_le h hproper).2 offset
  | checkLockTimeouts now => exact (sweepTimers_spec s now).2 offset

theorem archived_settled (h : LaidOut (· ≤ ·) s) (hproper : Proper call)
    (hoffset : offset ∈ archivedIn s.batches.entries) :
    offset ∈ archivedIn (settledBatches s call).entries := by
  have hcount := count_pos_iff.mpr hoffset
  cases call with
  | acquire request now =>
    rw [settledBatches]
    split
    · exact hoffset
    · split
      · have hsum := (sweepTimers_spec s now).2 offset
        rw [show s.settling.dlqOffsets = [] from rfl, count_nil, Nat.add_zero] at hsum
        refine count_pos_iff.mp ?_
        rw [hsum]
        exact Nat.lt_of_lt_of_le hcount (Nat.le_add_right _ _)
      · exact hoffset
  | acknowledge =>
    have hsum := count_deadLetters h hproper (by simp) offset
    exact count_pos_iff.mp (by rw [hsum]; omega)
  | checkLockTimeouts =>
    have hsum := count_deadLetters h hproper (by simp) offset
    exact count_pos_iff.mp (by rw [hsum]; omega)

theorem archived_settle {w : Settling}
    (h : Sound (· ≤ ·) s.startOffset s.nextFetchOffset w.batches) :
    (offset ∈ archivedIn (s.settle w).batches.entries → offset ∈ archivedIn w.batches.entries) ∧
      (offset ∈ archivedIn w.batches.entries →
        offset ∈ archivedIn (s.settle w).batches.entries ∨ offset < (s.settle w).startOffset) := by
  rw [mem_archivedIn, mem_archivedIn]
  constructor
  · rintro ⟨e, he, hrest⟩
    exact ⟨e, mem_of_mem_advanceWatermark he, hrest⟩
  · rintro ⟨e, he, harchived, hhas⟩
    rcases (settle_spec links_le h).2.2 e he with hleft | ⟨-, hbelow⟩
    · exact .inl ⟨e, hleft, harchived, hhas⟩
    · exact .inr (Nat.lt_of_le_of_lt hhas.2 hbelow)

theorem archived_takes {memberId : Text} {now timeout : Nat} {entries taken : List Entry}
    (h : Cut (Takes memberId now timeout) entries taken) :
    offset ∈ archivedIn taken ↔ offset ∈ archivedIn entries := by
  rw [mem_archivedIn, mem_archivedIn]
  constructor
  · rintro ⟨x, hx, harchived, hhas⟩
    obtain ⟨e, he, parts, hparts, hmem⟩ := h.exists_of_mem hx
    rcases hparts with rfl | ⟨-, rfl | ⟨split, -, -, rfl⟩⟩
    · rw [mem_singleton.mp hmem] at harchived hhas
      exact ⟨e, he, harchived, hhas⟩
    · rw [mem_singleton.mp hmem] at harchived
      cases harchived
    · rw [mem_cons, mem_singleton] at hmem
      rcases hmem with rfl | rfl <;> cases harchived
  · rintro ⟨e, he, harchived, hhas⟩
    obtain ⟨parts, hparts, hsub⟩ := h.exists_parts he
    rcases hparts with rfl | ⟨havailable, -⟩
    · exact ⟨e, hsub (mem_singleton_self e), harchived, hhas⟩
    · rw [harchived] at havailable
      cases havailable

/-- The batches after a call: an archived one was settled so, and is left or taken off. -/
theorem archived_serve (h : LaidOut (· ≤ ·) s) (hproper : Proper call) :
    (offset ∈ archivedIn (s.serve call).batches.entries →
      offset ∈ archivedIn (settledBatches s call).entries) ∧
    (offset ∈ archivedIn (settledBatches s call).entries →
      offset ∈ archivedIn (s.serve call).batches.entries ∨
        offset < (s.serve call).startOffset) := by
  have hsettled := settledBatches_sound h hproper
  cases call with
  | acquire request now fetch =>
    by_cases hmax : request.maxRecords = 0
    · rw [serve, acquireRecords_of_zero hmax, settledBatches, if_pos hmax]
      exact ⟨fun ho => ho, fun ho => .inl ho⟩
    · rw [settledBatches, if_neg hmax] at hsettled ⊢
      have hswept : (offset ∈ archivedIn (s.sweepTimersInline now).batches.entries →
            offset ∈ archivedIn
              (if s.shouldSweep now then (s.sweepTimers now).batches else s.batches).entries) ∧
          (offset ∈ archivedIn
              (if s.shouldSweep now then (s.sweepTimers now).batches else s.batches).entries →
            offset ∈ archivedIn (s.sweepTimersInline now).batches.entries ∨
              offset < (s.sweepTimersInline now).startOffset) := by
        rw [sweepTimersInline]
        by_cases hsweep : s.shouldSweep now = true
        · rw [if_pos hsweep] at hsettled
          rw [if_pos hsweep, if_pos hsweep]
          exact archived_settle hsettled
        · rw [if_neg hsweep, if_neg hsweep]
          exact ⟨fun ho => ho, fun ho => .inl ho⟩
      obtain ⟨-, hstart, ⟨taken, hcut, hentries⟩, -⟩ :=
        acquireRecords_spec links_le h hproper linked_le hmax
      have hacquired : offset ∈ archivedIn (s.acquireRecords request now fetch).1.batches.entries ↔
          offset ∈ archivedIn (s.sweepTimersInline now).batches.entries := by
        rw [← archived_takes hcut]
        rcases hentries with ⟨heq, -⟩ | ⟨first, last, -, -, -, heq⟩
        · rw [heq]
        · rw [heq, archivedIn, flatMap_append, flatMap_singleton, archivedOf, freshBatch]
          simp [archivedIn]
      rw [serve, hacquired, hstart]
      exact hswept
  | acknowledge => exact archived_settle hsettled
  | checkLockTimeouts => exact archived_settle hsettled

end Call

/-! ## Runs -/

namespace Ledger

/-- What was archived is archived still or lies below the start offset, and was reported
once. -/
structure Balanced (l : Ledger) : Prop where
  laidOut : LaidOut (· ≤ ·) l.partition
  archived : ∀ offset ∈ archivedIn l.partition.batches.entries, offset ∈ l.archived
  kept : ∀ offset ∈ l.archived,
    offset ∈ archivedIn l.partition.batches.entries ∨ offset < l.partition.startOffset
  reported : ∀ offset, l.reported.count offset = if offset ∈ l.archived then 1 else 0

variable {l : Ledger}

theorem Balanced.lossless (h : l.Balanced) : l.Lossless := by
  intro offset hoffset
  rw [h.reported, if_pos hoffset]

variable {call : ShareCall}

theorem mem_archives {s : SharePartition} {offset : Nat} :
    offset ∈ archives s call ↔ offset ∈ archivedIn (settledBatches s call).entries ∧
      offset ∉ archivedIn s.batches.entries := by
  rw [archives, mem_filter, decide_eq_true_iff]

theorem Balanced.notMem_archived (h : l.Balanced) (hproper : Proper call) {offset : Nat}
    (hoffset : offset ∈ archives l.partition call) : offset ∉ l.archived := by
  intro hold
  obtain ⟨hsettled, hnew⟩ := mem_archives.mp hoffset
  have hstart :=
    (le_of_mem_archivedIn links_le (settledBatches_sound h.laidOut hproper) hsettled).1
  rcases h.kept offset hold with hin | hbelow
  · exact hnew hin
  · exact absurd hstart (Nat.not_le.mpr hbelow)

theorem Balanced.step (h : l.Balanced) (hproper : Proper call)
    (hreports : ∀ offset, (l.partition.deadLetters call).count offset =
      if offset ∈ archives l.partition call then 1 else 0) : (l.step call).Balanced where
  laidOut := serve_laidOut links_le h.laidOut hproper linked_le
  archived := by
    intro offset hoffset
    have hsettled := (archived_serve h.laidOut hproper).1 hoffset
    by_cases hold : offset ∈ archivedIn l.partition.batches.entries
    · exact mem_append_left _ (h.archived offset hold)
    · exact mem_append_right _ (mem_archives.mpr ⟨hsettled, hold⟩)
  kept := by
    intro offset hoffset
    rcases mem_append.mp hoffset with hold | hnew
    · rcases h.kept offset hold with hin | hbelow
      · exact (archived_serve h.laidOut hproper).2 (archived_settled h.laidOut hproper hin)
      · have hle := startOffset_le_serve links_le h.laidOut hproper linked_le
        exact .inr (Nat.lt_of_lt_of_le hbelow hle)
    · exact (archived_serve h.laidOut hproper).2 (mem_archives.mp hnew).1
  reported := by
    intro offset
    show (l.reported ++ l.partition.deadLetters call).count offset =
      if offset ∈ l.archived ++ archives l.partition call then 1 else 0
    rw [count_append, h.reported, hreports]
    by_cases hnew : offset ∈ archives l.partition call
    · simp [hnew, h.notMem_archived hproper hnew]
    · simp [hnew]

/-- A call other than an acquisition reports each offset that it archives once. -/
theorem Balanced.reports (h : l.Balanced) (hproper : Proper call)
    (hcall : ∀ request now fetch, call ≠ .acquire request now fetch) (offset : Nat) :
    (l.partition.deadLetters call).count offset =
      if offset ∈ archives l.partition call then 1 else 0 := by
  have hsum := count_deadLetters h.laidOut hproper hcall offset
  have hnodup := ((settledBatches_sound h.laidOut hproper).laid.nodup_numbers links_le).sublist
    (archivedIn_sublist _)
  have hone := nodup_iff_count_le_one.mp hnodup offset
  by_cases hnew : offset ∈ archives l.partition call
  · obtain ⟨hsettled, hold⟩ := mem_archives.mp hnew
    rw [if_pos hnew]
    have hpos := count_pos_iff.mpr hsettled
    rw [count_eq_zero.mpr hold] at hsum
    omega
  · rw [if_neg hnew]
    by_cases hold : offset ∈ archivedIn l.partition.batches.entries
    · have hpos := count_pos_iff.mpr hold
      omega
    · have hsettled : offset ∉ archivedIn (settledBatches l.partition call).entries :=
        fun hin => hnew (mem_archives.mpr ⟨hin, hold⟩)
      rw [count_eq_zero.mpr hsettled] at hsum
      omega

theorem Balanced.step_iff (h : l.Balanced) (hproper : Proper call) :
    ((l.step call).Lossless → l.Quiet call) ∧ (l.Quiet call → (l.step call).Balanced) := by
  cases call with
  | acquire =>
    constructor
    · intro hlossless
      refine eq_nil_iff_forall_not_mem.mpr fun offset hoffset => ?_
      have hcount := hlossless offset (mem_append_right _ hoffset)
      have hnone : l.reported.count offset = 0 := by
        rw [h.reported, if_neg (h.notMem_archived hproper hoffset)]
      rw [show (l.step _).reported = l.reported ++ [] from rfl, append_nil, hnone] at hcount
      omega
    · intro hquiet
      refine h.step hproper fun offset => ?_
      rw [show archives l.partition _ = [] from hquiet]
      rfl
  | acknowledge =>
    exact ⟨fun _ => trivial, fun _ => h.step hproper (h.reports hproper (by simp))⟩
  | checkLockTimeouts =>
    exact ⟨fun _ => trivial, fun _ => h.step hproper (h.reports hproper (by simp))⟩

theorem balanced_start {defaultLockTimeout : Nat} {maxDeliveryAttempts : UInt16}
    {startOffset : Nat} : (start defaultLockTimeout maxDeliveryAttempts startOffset).Balanced where
  laidOut := laidOut_new links_le _ _ _
  archived := nofun
  kept := nofun
  reported := fun _ => rfl

/-- Along a run of proper calls every offset that is archived is reported exactly once, in
every state, if and only if no call to acquire records archives anything. -/
theorem lossless_iff_quiet (defaultLockTimeout : Nat) (maxDeliveryAttempts : UInt16)
    (startOffset : Nat) (calls : List ShareCall) (hcalls : ∀ call ∈ calls, Proper call) :
    Always step Lossless (start defaultLockTimeout maxDeliveryAttempts startOffset) calls ↔
      Guarded step Quiet (start defaultLockTimeout maxDeliveryAttempts startOffset) calls :=
  Run.always_iff_guarded (fun _ h => Balanced.lossless h)
    (fun _ _ h hproper hquiet => (h.step_iff hproper).2 hquiet)
    (fun _ _ h hproper hlossless => (h.step_iff hproper).1 hlossless)
    balanced_start
    (Guarded.of_forall hcalls)

/-! ### A lease that runs out before the next acquisition -/

def takeAt (memberId : Text) (now : Nat) : ShareCall :=
  .acquire (ask memberId 1) now (logOf [0])

theorem proper_takeAt {memberId : Text} {now : Nat} : Proper (takeAt memberId now) :=
  increasing_logOf (by decide)

/-- A sweep archives the record and reports it. -/
theorem lossless_swept :
    Always step Lossless (start 10 1 0) [takeAt ['a'] 0, .checkLockTimeouts 20,
      takeAt ['b'] 30] := by
  refine (lossless_iff_quiet 10 1 0 _ ?_).mpr ⟨rfl, trivial, rfl, trivial⟩
  intro call hcall
  rw [mem_cons, mem_cons, mem_singleton] at hcall
  rcases hcall with rfl | rfl | rfl
  · exact proper_takeAt
  · trivial
  · exact proper_takeAt

/-- The second acquisition archives the record, and no one is told. -/
theorem not_lossless_reacquired : (∀ call ∈ [takeAt ['a'] 0, takeAt ['b'] 20], Proper call) ∧
      ¬ Always step Lossless (start 10 1 0) [takeAt ['a'] 0, takeAt ['b'] 20] := by
  constructor
  · intro call hcall
    rw [mem_cons, mem_singleton] at hcall
    rcases hcall with rfl | rfl <;> exact proper_takeAt
  · intro h
    have hreported := h.2.2 0 (by decide)
    cases hreported

end Ledger

end Bifrox.Share

/-
The window of offsets that a share partition tracks (`src/server/share/partition.rs`).

The range of an acknowledgement is the client's, and one whose ends are the wrong way round cuts a
batch into parts that overlap.
-/
import Bifrox.Share.Ceiling
import Bifrox.Share.Layout

namespace Bifrox.Share

open List
open Run (Guarded Always)
open Interval (links_le mem_numbers numbers)
open SharePartition

/-- `inflight_count`.  The length of a batch is computed in 64 bits. -/
def SharePartition.inflightCount (s : SharePartition) : Nat :=
  (s.batches.entries.map fun entry => entry.2.length).sum

/-- The batches cut the window into disjoint intervals, each under its first offset, and the
count is the number of offsets in them. -/
structure Partitioned (s : SharePartition) : Prop where
  keyed : ∀ e ∈ s.batches.entries, e.1 = firstOf e
  ordered : ∀ e ∈ s.batches.entries, firstOf e ≤ lastOf e
  disjoint : s.batches.entries.Pairwise fun e e' => ∀ offset, ¬ (Has e offset ∧ Has e' offset)
  inside : ∀ e ∈ s.batches.entries, s.startOffset ≤ firstOf e ∧ lastOf e < s.nextFetchOffset
  counted : ∃ tracked : List Nat, tracked.Nodup ∧ tracked.length = s.inflightCount ∧
    ∀ offset, offset ∈ tracked ↔ ∃ e ∈ s.batches.entries, Has e offset

theorem partitioned_of_laidOut {s : SharePartition} (h : LaidOut (· ≤ ·) s) : Partitioned s where
  keyed := h.keyed
  ordered e he := (h.laid.bounds links_le he).2.1
  disjoint := (h.laid.pairwise links_le).imp fun hlt offset hboth => by
    simp only [Interval.Covers] at hboth
    omega
  inside e he := ⟨(h.laid.bounds links_le he).1, (h.laid.bounds links_le he).2.2⟩
  counted := by
    refine ⟨s.batches.entries.flatMap (numbers firstOf lastOf), h.laid.nodup_numbers links_le,
      ?_, fun offset => ?_⟩
    · rw [length_flatMap, inflightCount]
      refine congrArg sum (map_congr_left fun e he => ?_)
      have hle := (h.laid.bounds links_le he).2.1
      rw [numbers, length_range', InFlightBatch.length, if_pos hle]
      exact Nat.sub_add_comm hle
    · simp [mem_numbers]

/-- Batches that are put back in order, with the intervals they had. -/
theorem Sound.restored {f : Entry → InFlightBatch} (hfirst : ∀ e, (f e).firstOffset = firstOf e)
    (hlast : ∀ e, (f e).lastOffset = lastOf e) {start next hi : Nat} {batches : Batches}
    {entries : List Entry} (h : Sound (· ≤ ·) start next batches)
    (hlaid : Laid (· ≤ ·) next hi entries) :
    Sound (· ≤ ·) start (entries.foldl (fun next e => max next (lastOf e + 1)) next)
      (entries.foldl (fun batches e => batches.insert (firstOf e) (f e)) batches) := by
  induction entries generalizing next batches with
  | nil => exact h
  | cons e rest ih =>
    obtain ⟨hlo, hspan, hrest⟩ := hlaid
    rw [← hfirst] at hlo hspan
    rw [← hlast] at hspan
    have hnext : max next (lastOf e + 1) = lastOf e + 1 := by
      have hle := hlast e
      omega
    have hput := (h.concat links_le hlo hspan).2
    rw [hfirst, hlast] at hput
    rw [foldl_cons, foldl_cons, hnext]
    exact ih hput hrest

theorem restart_laidOut {s : SharePartition} (h : LaidOut (· ≤ ·) s) :
    LaidOut (· ≤ ·) s.restart := by
  show Sound (· ≤ ·) s.startOffset (foldl _ _ (map _ _)) (foldl _ ∅ (map _ _))
  rw [foldl_map, foldl_map]
  refine Sound.restored ?_ ?_ (laidOut_new links_le 0 0 s.startOffset) h.laid
  · exact fun _ => rfl
  · exact fun _ => rfl

def ProperEvent : ShareEvent → Prop
  | .call call => Proper call
  | .restart => True

/-- The batches cut up the window in every state of a run whose acknowledged ranges are the right
way round. -/
theorem partitioned_of_proper (defaultLockTimeout : Nat) (maxDeliveryAttempts : UInt16)
    (startOffset : Nat) (events : List ShareEvent) (h : ∀ event ∈ events, ProperEvent event) :
    Always step Partitioned (new defaultLockTimeout maxDeliveryAttempts startOffset) events := by
  refine Guarded.always (fun s => partitioned_of_laidOut) (fun s event hs hevent => ?_)
    (laidOut_new links_le _ _ _) (Guarded.of_forall h)
  cases event with
  | call call => exact serve_laidOut links_le hs hevent linked_le
  | restart => exact restart_laidOut hs

/-! ### A range whose ends are the wrong way round -/

def threeRecords : Reader := fun start =>
  some (if start = 0 then [0, 1, 2].map fun offset =>
    { offset, timestamp := 0, key := none, value := none, isControl := false } else [])

/-- Three records are taken as one batch, and a range inside it is acknowledged. -/
def takeThree (first last : Nat) : List ShareEvent :=
  [.call (.acquire { memberId := ['a'], maxRecords := 3, lockTimeout := none } 0 threeRecords),
    .call (.acknowledge ['a'] [{ firstOffset := first, lastOffset := last, ackType := .accept }] 0)]

theorem increasing_threeRecords : Increasing threeRecords := by
  intro start frames hframes
  rw [← Option.some.inj hframes]
  split
  · decide
  · exact .nil

theorem partitioned_takeThree : Always step Partitioned (new 10 5 0) (takeThree 0 1) := by
  refine partitioned_of_proper 10 5 0 _ fun event hevent => ?_
  rw [takeThree, mem_cons, mem_singleton] at hevent
  rcases hevent with rfl | rfl
  · exact increasing_threeRecords
  · exact fun ack hack => by rw [mem_singleton.mp hack]; decide

/-- The parts are from 0 to 1, from 1 to 2, and from 2 to 0. -/
theorem not_partitioned_takeThree : ¬ Always step Partitioned (new 10 5 0) (takeThree 2 0) := by
  intro h
  exact absurd h.run.ordered (by decide +kernel)

end Bifrox.Share

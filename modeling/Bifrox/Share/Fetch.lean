/-
Share fetches (`share_fetch` in `src/server/engine.rs` and `src/server/share/manager.rs`,
`fetch` in `src/server/partition.rs` and `src/segment/manager.rs`).

Other than the reads that serve entries, this one is not bounded by the committed high watermark,
and it keeps the records of control batches.
-/
import Bifrox.Segment.Fetch
import Bifrox.Server.Idempotence
import Bifrox.Share.Partition

namespace Bifrox
namespace Server

open Protocol (Crates)
open Segment (Record SegmentPair)

def PartitionManager.fetch (c : Crates) (mapped : SegmentPair → Bool) (pm : PartitionManager)
    (startOffset maxBytes : Nat) : List Record :=
  pm.log.fetch c mapped startOffset maxBytes

end Server

namespace Share

open Protocol (Crates)
open Segment (Record SegmentManager SegmentPair)
open Segment.SegmentManager (findSegmentPair_base mem_fetch_of_budget mem_retained_of_mem_fetch)
open Server (PartitionManager)
open SharePartition List

/-! ## Share fetches -/

structure AcquiredRecordBatch where
  firstOffset : Nat
  lastOffset : Nat
  deliveryCount : UInt16
  records : List Record

/-- A record continues the last batch, or starts another. -/
def pushAcquired (batches : List AcquiredRecordBatch) (info : AcquiredRecordInfo) :
    List AcquiredRecordBatch :=
  let single : AcquiredRecordBatch :=
    { firstOffset := info.offset
      lastOffset := info.offset
      deliveryCount := info.deliveryCount
      records := [info.frame] }
  match batches.getLast? with
  | none => [single]
  | some last =>
    if last.lastOffset + 1 = info.offset ∧ last.deliveryCount = info.deliveryCount then
      batches.dropLast ++
        [{ last with lastOffset := info.offset, records := last.records ++ [info.frame] }]
    else batches ++ [single]

/-- Records with consecutive offsets and the same delivery count are put together. -/
def groupAcquired (infos : List AcquiredRecordInfo) : List AcquiredRecordBatch :=
  infos.foldl pushAcquired []

def acquireReadBytes : Nat := 10 * 1024 * 1024

/-- `share_fetch`: records are acquired over the reads of the partition's log. -/
def shareFetch (c : Crates) (mapped : SegmentPair → Bool) (pm : PartitionManager)
    (s : SharePartition) (request : AcquireRequest) (now : Nat) :
    SharePartition × List AcquiredRecordBatch :=
  let acquired := s.acquireRecords request now fun start =>
    some (pm.fetch c mapped start acquireReadBytes)
  (acquired.1, groupAcquired acquired.2)

def Visible (pm : PartitionManager) (r : Record) : Prop :=
  r.offset < pm.committedHw ∧ r.isControl = false

def CommittedOnly (pm : PartitionManager) (batches : List AcquiredRecordBatch) : Prop :=
  ∀ batch ∈ batches, ∀ r ∈ batch.records, Visible pm r

/-! ## What is returned -/

theorem records_pushAcquired (batches : List AcquiredRecordBatch) (info : AcquiredRecordInfo) :
    (pushAcquired batches info).flatMap AcquiredRecordBatch.records =
      batches.flatMap AcquiredRecordBatch.records ++ [info.frame] := by
  rw [pushAcquired]
  rcases hlast : batches.getLast? with _ | last
  · rw [getLast?_eq_none_iff.mp hlast]
    rfl
  · obtain ⟨init, rfl⟩ := getLast?_eq_some_iff.mp hlast
    simp only [dropLast_concat]
    split <;> simp

theorem records_groupAcquired (infos : List AcquiredRecordInfo) :
    (groupAcquired infos).flatMap AcquiredRecordBatch.records =
      infos.map AcquiredRecordInfo.frame := by
  induction infos using reverseRecOn with
  | nil => rfl
  | append_singleton infos info ih =>
    rw [groupAcquired, foldl_append, foldl_cons, foldl_nil, records_pushAcquired, map_append, ← ih]
    rfl

theorem committedOnly_groupAcquired {pm : PartitionManager} {infos : List AcquiredRecordInfo} :
    CommittedOnly pm (groupAcquired infos) ↔ ∀ info ∈ infos, Visible pm info.frame := by
  have hrecords := records_groupAcquired infos
  constructor
  · intro h info hinfo
    have hmem : info.frame ∈ (groupAcquired infos).flatMap AcquiredRecordBatch.records := by
      rw [hrecords]
      exact mem_map_of_mem hinfo
    obtain ⟨batch, hbatch, hr⟩ := mem_flatMap.mp hmem
    exact h batch hbatch _ hr
  · intro h batch hbatch r hr
    have hmem : r ∈ infos.map AcquiredRecordInfo.frame := by
      rw [← hrecords]
      exact mem_flatMap.mpr ⟨batch, hbatch, hr⟩
    obtain ⟨info, hinfo, rfl⟩ := mem_map.mp hmem
    exact h info hinfo

def WasRead (fetch : Reader) (r : Record) : Prop :=
  ∃ start frames, fetch start = some frames ∧ r ∈ frames

theorem wasRead_of_mem_getD {fetch : Reader} {start : Nat} {r : Record}
    (h : r ∈ (fetch start).getD []) : WasRead fetch r := by
  rcases hread : fetch start with _ | frames
  · rw [hread] at h
    cases h
  · rw [hread] at h
    exact ⟨start, frames, hread, h⟩

theorem wasRead_of_mem_deliver {fetch : Reader} {batch : InFlightBatch} {info : AcquiredRecordInfo}
    (h : info ∈ SharePartition.deliver fetch batch) : WasRead fetch info.frame := by
  obtain ⟨frame, hframe, rfl⟩ := mem_map.mp h
  exact wasRead_of_mem_getD (mem_filter.mp hframe).1

variable {fetch : Reader} {memberId : Text} {maxRecords now timeout : Nat}

theorem wasRead_acquireKey {a : Acquisition}
    (ha : ∀ info ∈ a.acquiredInfos, WasRead fetch info.frame) (key : Nat) :
    ∀ info ∈ (acquireKey fetch memberId maxRecords now timeout a key).acquiredInfos,
      WasRead fetch info.frame := by
  intro info hinfo
  unfold acquireKey at hinfo
  split at hinfo
  · exact ha info hinfo
  · split at hinfo
    · exact ha info hinfo
    · split at hinfo
      · exact ha info hinfo
      · split at hinfo
        · exact (mem_append.mp hinfo).elim (ha info) wasRead_of_mem_deliver
        · exact (mem_append.mp hinfo).elim (ha info) wasRead_of_mem_deliver

theorem wasRead_acquireAvailable (batches : Batches) :
    ∀ info ∈ (acquireAvailable fetch memberId maxRecords now timeout batches).acquiredInfos,
      WasRead fetch info.frame := by
  refine foldlRecOn _ _ (motive := fun a : Acquisition =>
    ∀ info ∈ a.acquiredInfos, WasRead fetch info.frame) ?_ fun a ha key _ =>
      wasRead_acquireKey ha key
  exact fun info hinfo => absurd hinfo not_mem_nil

theorem wasRead_acquireRecords {s : SharePartition} {request : AcquireRequest} :
    ∀ info ∈ (s.acquireRecords request now fetch).2, WasRead fetch info.frame := by
  intro info hinfo
  unfold SharePartition.acquireRecords at hinfo
  split at hinfo
  · cases hinfo
  · simp only [acquireLocked] at hinfo
    rcases acquireFresh_cases fetch request.memberId request.maxRecords now
      (request.lockTimeout.getD s.defaultLockTimeout) (s.sweepTimersInline now).nextFetchOffset
      (acquireAvailable fetch request.memberId request.maxRecords now
        (request.lockTimeout.getD s.defaultLockTimeout) (s.sweepTimersInline now).batches) with
      heq | ⟨frames, first, last, hframes, -, -, heq⟩
    · rw [heq] at hinfo
      exact wasRead_acquireAvailable _ info hinfo
    · rw [heq] at hinfo
      rcases mem_append.mp hinfo with hold | hnew
      · exact wasRead_acquireAvailable _ info hold
      · obtain ⟨frame, hframe, rfl⟩ := mem_map.mp hnew
        rw [hframes] at hframe
        exact wasRead_of_mem_getD (mem_filter.mp (mem_of_mem_take hframe)).1

theorem acquiredInfos_acquireFresh {a : Acquisition} (h : a.acquiredInfos.length < maxRecords)
    (next : Nat) :
    (acquireFresh fetch memberId maxRecords now timeout next a).1.acquiredInfos =
      a.acquiredInfos ++ (freshFrames fetch next (maxRecords - a.acquiredInfos.length)).map
        fun frame => { offset := frame.offset, deliveryCount := 1, frame := frame } := by
  unfold acquireFresh
  rw [if_pos h]
  rcases freshFrames fetch next (maxRecords - a.acquiredInfos.length) with _ | ⟨first, rest⟩
  · exact (append_nil _).symm
  · simp [getLast?_cons]

/-- A new share partition hands out all that it reads at its start offset, if enough records
are asked for. -/
theorem handedOut_new (fetch : Reader) {start : Nat} {frames : List Record}
    (hread : fetch start = some frames) (hfrom : ∀ r ∈ frames, start ≤ r.offset) {r : Record}
    (hr : r ∈ frames) :
    ∃ info ∈ ((new 0 1 start).acquireRecords
      { memberId := [], maxRecords := frames.length, lockTimeout := none } 0 fetch).2,
      info.frame = r := by
  have hlength : 0 < frames.length := length_pos_of_mem hr
  have hfresh : freshFrames fetch start frames.length = frames := by
    rw [freshFrames, hread, Option.getD_some, filter_eq_self.mpr, take_length]
    exact fun r hr => decide_eq_true (hfrom r hr)
  have hempty : (acquireAvailable fetch [] frames.length 0 0
      ((new 0 1 start).sweepTimersInline 0).batches).acquiredInfos = [] := rfl
  unfold SharePartition.acquireRecords
  rw [if_neg (Nat.ne_of_gt hlength)]
  refine ⟨{ offset := r.offset, deliveryCount := 1, frame := r }, ?_, rfl⟩
  show _ ∈ (acquireFresh fetch [] frames.length 0 0 start (acquireAvailable fetch []
    frames.length 0 0 ((new 0 1 start).sweepTimersInline 0).batches)).1.acquiredInfos
  rw [acquiredInfos_acquireFresh (by rw [hempty]; exact hlength), hempty, length_nil,
    Nat.sub_zero, hfresh]
  exact mem_map_of_mem hr

/-- Every record of the log can be met by a read. -/
structure Reachable (c : Crates) (log : SegmentManager) : Prop where
  scannable : log.Scannable c
  inBudget : ∀ p ∈ log.segments, p.physicalSize ≤ acquireReadBytes
  decodes : ∀ p ∈ log.segments, ∀ b ∈ p.log, Segment.RecordBatch.decodes c b = true

theorem Reachable.mem_fetch {c : Crates} {log : SegmentManager} (h : Reachable c log)
    (mapped : SegmentPair → Bool) {r : Record} (hr : r ∈ log.allRecords c) :
    ∃ start, r ∈ log.fetch c mapped start acquireReadBytes := by
  obtain ⟨b, hb, hrb⟩ := Segment.mem_recordsFromEntries.mp hr
  have hmem := log.mem_segments_findSegmentPair b.baseOffset
  refine ⟨b.baseOffset, mem_fetch_of_budget h.scannable mapped (h.inBudget _ hmem)
    (h.decodes _ hmem) (Segment.mem_recordsFromEntries.mpr ⟨b, ?_, hrb⟩)
    (Segment.base_le_of_mem_recordsOf hrb).1⟩
  exact findSegmentPair_base h.scannable.layout hb

/-- Share fetches of a partition, whatever the state of the group, return committed data only if
every record of the log is committed and no marker, and only if so where the records can be
reached. -/
theorem committedOnly_iff (c : Crates) (mapped : SegmentPair → Bool) (pm : PartitionManager) :
    ((∀ r ∈ pm.log.allRecords c, Visible pm r) →
      ∀ s request now, CommittedOnly pm (shareFetch c mapped pm s request now).2) ∧
    (Reachable c pm.log →
      (∀ s request now, CommittedOnly pm (shareFetch c mapped pm s request now).2) →
        ∀ r ∈ pm.log.allRecords c, Visible pm r) := by
  constructor
  · intro h s request now
    refine committedOnly_groupAcquired.mpr fun info hinfo => ?_
    obtain ⟨start, frames, hread, hmem⟩ := wasRead_acquireRecords info hinfo
    rw [← Option.some.inj hread] at hmem
    exact h _ (mem_retained_of_mem_fetch hmem).2
  · intro hreach h r hr
    obtain ⟨start, hmem⟩ := hreach.mem_fetch mapped hr
    obtain ⟨info, hinfo, rfl⟩ := handedOut_new
      (fun start => some (pm.fetch c mapped start acquireReadBytes)) rfl
      (fun r hr => (mem_retained_of_mem_fetch hr).1) hmem
    exact committedOnly_groupAcquired.mp (h _ _ _) info hinfo

/-! ### A record that is not replicated yet -/

/-- A partition whose leader has stored one record that no follower has. -/
def uncommitted : PartitionManager :=
  (Server.newPartition.storeBatch .storing (Server.numbered 0 0 1) 0).1

theorem committedOnly_replicated : ∀ s request now,
    CommittedOnly { uncommitted with committedHw := 1 }
      (shareFetch .storing (fun _ => false) { uncommitted with committedHw := 1 } s request
        now).2 := by
  refine (committedOnly_iff .storing (fun _ => false) { uncommitted with committedHw := 1 }).1 ?_
  unfold Visible
  decide +kernel

/-- The record is handed out although the committed high watermark is 0. -/
theorem not_committedOnly_uncommitted :
    ¬ CommittedOnly uncommitted (shareFetch .storing (fun _ => false) uncommitted (new 10 5 0)
      { memberId := ['a'], maxRecords := 1, lockTimeout := none } 0).2 := by
  intro h
  have hvisible := h _ mem_cons_self _ mem_cons_self
  exact absurd hvisible.1 (by decide)

end Share
end Bifrox

/-
The keyed view of a log under compaction.

The view maps a key to the value of its latest record, and to nothing when that record is a
tombstone.  A ledger keeps next to the log every record that was ever appended to it.
-/
import Bifrox.Segment.CompactedRecords

namespace Bifrox.Segment

open List Protocol BigEndian SegmentManager Record RecordBatch.WellFormed LatestRecord
open LastWriter (latest latest_concat latest_filter latest_eq_none_iff latest_eq_some_iff
  latest_of_prunes latest_append_of_lt)

variable (records : List Record)

/-- The record of highest offset among the data records of a key. -/
def lastRecord (key : Bytes) : Option Record :=
  latest dedupKey offset key records

/-- The view: the value last written to a key, unless it was deleted. -/
def lastWriter (key : Bytes) : Option Bytes :=
  (lastRecord records key).bind value

/-! ## The scan of a pass -/

def LatestRecord.ofRecord (r : Record) : LatestRecord :=
  { offset := r.offset, timestamp := r.timestamp, isTombstone := r.value.isNone }

theorem latestOf_eq (key : Bytes) :
    latestOf records key = (lastRecord records key).map ofRecord := by
  induction records using List.reverseRecOn with
  | nil => rfl
  | append_singleton records r ih =>
    have hlast : lastRecord (records ++ [r]) key =
        LastWriter.observe dedupKey offset key (lastRecord records key) r :=
      latest_concat records r
    rw [latestOf] at ih
    rw [latestOf, foldl_append, foldl_cons, foldl_nil, ih, hlast]
    unfold observe LastWriter.observe
    by_cases hkey : r.dedupKey = some key
    · rw [if_pos hkey, if_pos hkey]
      cases lastRecord records key with
      | none => rfl
      | some old =>
        show (if r.offset > old.offset then some (ofRecord r)
          else some (ofRecord old)) = _
        by_cases hgt : r.offset > old.offset
        · simp [if_pos hgt]
        · simp [if_neg hgt]
    · rw [if_neg hkey, if_neg hkey]

section Survives

variable {config : EngineConfig} {records : List Record} {now : Nat} {key : Bytes} {r a : Record}

theorem lastWriter_of_isPurged (h : isPurged config records now key = true) :
    lastWriter records key = none := by
  rw [isPurged, latestOf_eq] at h
  cases hlast : lastRecord records key with
  | none => rw [lastWriter, hlast, Option.bind_none]
  | some =>
    rw [hlast] at h
    split at h
    · rename_i hr
      cases hr
      rw [Bool.and_eq_true] at h
      rw [lastWriter, hlast, Option.bind_some]
      exact Option.isNone_iff_eq_none.mp h.1
    · cases h

theorem dedupKey_eq_some (h : r.dedupKey = some key) : r.isControl = false ∧ r.key = some key := by
  rw [dedupKey] at h
  split at h
  · cases h
  · rename_i hcontrol
    exact ⟨by simpa using hcontrol, h⟩

theorem survives_of_isPurged (h : isPurged config records now key = true)
    (hkey : a.dedupKey = some key) : survives config records now a = false := by
  obtain ⟨hcontrol, hakey⟩ := dedupKey_eq_some hkey
  simp [survives, hcontrol, hakey, latestOffset, h]

theorem survives_of_lastRecord (h : isPurged config records now key = false)
    (hlast : lastRecord records key = some r) (hkey : a.dedupKey = some key) :
    survives config records now a = decide (a.offset = r.offset) := by
  obtain ⟨hcontrol, hakey⟩ := dedupKey_eq_some hkey
  simp [survives, hcontrol, hakey, latestOffset, h, latestOf_eq, hlast, ofRecord]

end Survives

/-! ## What a pass does to the view -/

section Pass

variable {c : Crates} {s : SegmentManager} {now : Nat} {key : Bytes}

def purges (c : Crates) (s : SegmentManager) (now : Nat) (key : Bytes) : Bool :=
  isPurged s.config (s.allRecords c) now key

theorem lastRecord_compactSegments (hc : c.Lawful) (hfit : RebuildFits c s now)
    (hkey : purges c s now key = false) :
    lastRecord ((s.compactSegments c now).1.allRecords c) key =
      lastRecord (s.allRecords c) key := by
  have hprunes := compactSegments_prunes hc hfit
  cases hlast : lastRecord (s.allRecords c) key with
  | none =>
    refine latest_eq_none_iff.mpr (fun a ha => ?_)
    exact latest_eq_none_iff.mp hlast a (hprunes.sublist.subset ha)
  | some r =>
    -- every record of the key at the latest offset passes the test
    refine latest_of_prunes hprunes hlast (fun a ha hakey hoff => ?_)
    have hkeep : s.keeps c now a = decide (a.offset = r.offset) :=
      survives_of_lastRecord hkey hlast hakey
    rw [ha.1, decide_eq_true hoff] at hkeep
    cases hkeep

/-- Of a purged key the pass leaves what stands in the segments it does not
rewrite. -/
theorem lastRecord_compactSegments_of_purges (hc : c.Lawful) (hfit : RebuildFits c s now)
    (hkey : purges c s now key = true) :
    lastRecord ((s.compactSegments c now).1.allRecords c) key =
      lastRecord (pairRecords c (s.untouchedBy c now)) key := by
  have hfilter := filter_compactSegments hc hfit (q := fun a => a.dedupKey = some key)
    (fun a ha => survives_of_isPurged hkey (of_decide_eq_true ha))
  rw [lastRecord, ← latest_filter, hfilter, latest_filter, lastRecord]

/-- No purged key has a value left in the segments that are not rewritten. -/
def PurgesWhole (c : Crates) (s : SegmentManager) (now : Nat) : Prop :=
  ∀ key, purges c s now key = true → lastWriter (pairRecords c (s.untouchedBy c now)) key = none

theorem lastWriter_compactSegments_iff (hc : c.Lawful) (hfit : RebuildFits c s now) :
    (∀ key, lastWriter ((s.compactSegments c now).1.allRecords c) key =
      lastWriter (s.allRecords c) key) ↔ PurgesWhole c s now := by
  constructor
  · intro hview key hkey
    rw [lastWriter, ← lastRecord_compactSegments_of_purges hc hfit hkey, ← lastWriter, hview key]
    exact lastWriter_of_isPurged hkey
  · intro hwhole key
    cases hkey : purges c s now key with
    | false => rw [lastWriter, lastRecord_compactSegments hc hfit hkey, lastWriter]
    | true =>
      rw [lastWriter, lastRecord_compactSegments_of_purges hc hfit hkey, ← lastWriter,
        hwhole key hkey]
      exact (lastWriter_of_isPurged hkey).symm

end Pass

/-! ## What the other operations do to the records -/

def appendedBy (c : Crates) (s : SegmentManager) : Op → List Record
  | .append batch leaderEpoch now => recordsOf c (s.appendBatch c batch leaderEpoch now).2
  | .appendVerbatim batch now =>
    match (s.appendBatchVerbatim batch now).2 with
    | .appended => recordsOf c batch
    | _ => []
  | _ => []

/-- The operations of a log that is only appended to, rotated and compacted:
records lie in the range of their batch, and rebuilt batches decode. -/
def Writes (c : Crates) (s : SegmentManager) : Op → Prop
  | .append batch leaderEpoch _ =>
    (batch.assignBaseOffsetAndLeaderEpoch c s.highWatermark leaderEpoch).InRange c
  | .appendVerbatim batch _ => batch.baseOffset = s.highWatermark → batch.InRange c
  | .rotate _ => True
  | .appendAbortedTxn .. => True
  | .compact now => RebuildFits c s now
  | .deleteRetention .. | .trimBefore _ | .reopen _ => False

theorem Writes.storesInRange {c : Crates} {s : SegmentManager} {op : Op} (h : Writes c s op) :
    StoresInRange c s op := by
  cases op with
  | append => exact h
  | appendVerbatim => exact h
  | _ => trivial

section Records

variable {c : Crates} {s : SegmentManager}

theorem step_records (h : s.Layout c) {op : Op} (hop : Writes c s op) : (∃ now, op = .compact now) ∨
    (appendedBy c s op = [] ∧ (step c s op).allRecords c = s.allRecords c ∧
      (step c s op).highWatermark = s.highWatermark) ∨
    ∃ b : RecordBatch, b.InRange c ∧ b.baseOffset = s.highWatermark ∧
      appendedBy c s op = recordsOf c b ∧
      (step c s op).allRecords c = s.allRecords c ++ recordsOf c b ∧
      (step c s op).highWatermark = b.lastOffset + 1 := by
  have hstore : ∀ (b : RecordBatch) (now : Nat),
      ((s.maybeRotateBeforeAppend b.encodedSize now).storeBatch b).allRecords c =
        s.allRecords c ++ recordsOf c b := by
    intro b now
    rw [allRecords, retained_storeBatch, h.retained_maybeRotateBeforeAppend,
      recordsFromEntries_append, recordsFromEntries_singleton]
    rfl
  cases op with
  | append batch leaderEpoch now => exact .inr (.inr ⟨_, hop, rfl, rfl, hstore _ now, rfl⟩)
  | appendVerbatim batch now =>
    rcases s.appendBatchVerbatim_cases with ⟨res, hne, -, hres⟩ | ⟨hbase, hres⟩
    · refine .inr (.inl ?_)
      rw [step, appendedBy, hres]
      cases res with
      | appended => exact absurd rfl hne
      | alreadyApplied => exact ⟨rfl, rfl, rfl⟩
      | gap => exact ⟨rfl, rfl, rfl⟩
    · refine .inr (.inr ⟨batch, hop hbase, hbase, ?_⟩)
      rw [step, appendedBy, hres]
      exact ⟨rfl, hstore batch now, rfl⟩
  | rotate now =>
    have hretained := retained_rotateSegment h.openNext_nil now
    exact .inr (.inl ⟨rfl, congrArg (recordsFromEntries c) hretained, rfl⟩)
  | appendAbortedTxn producerId firstOffset lastOffset =>
    exact .inr (.inl ⟨rfl, congrArg (recordsFromEntries c) (s.retained_appendAbortedTxn ..),
      (s.appendAbortedTxn_end producerId firstOffset lastOffset).1⟩)
  | compact now => exact .inl ⟨now, rfl⟩
  | deleteRetention => exact hop.elim
  | trimBefore => exact hop.elim
  | reopen => exact hop.elim

end Records

/-! ## Logs next to everything that was appended to them -/

structure Ledger where
  log : SegmentManager
  ever : List Record

namespace Ledger

def create (config : EngineConfig) (now : Nat) : Ledger :=
  { log := SegmentManager.create config now, ever := [] }

def step (c : Crates) (g : Ledger) (op : Op) : Ledger :=
  { log := Segment.step c g.log op, ever := g.ever ++ appendedBy c g.log op }

/-- The retained records give every key the value it was last given, and keep
every keyless and control record in place. -/
structure ViewKept (c : Crates) (g : Ledger) : Prop where
  view : ∀ key, lastWriter (g.log.allRecords c) key = lastWriter g.ever key
  keyless : (g.log.allRecords c).filter (fun r => r.dedupKey.isNone) =
    g.ever.filter (fun r => r.dedupKey.isNone)

structure Consistent (c : Crates) (g : Ledger) : Prop where
  layout : g.log.Layout c
  sublist : (g.log.allRecords c).Sublist g.ever
  below : ∀ r ∈ g.ever, r.offset < g.log.highWatermark
  kept : g.ViewKept c

/-- The condition on a step: a pass purges whole keys. -/
def PurgesWhole (c : Crates) (g : Ledger) : Op → Prop
  | .compact now => Segment.PurgesWhole c g.log now
  | _ => True

section Step

variable {c : Crates} {g : Ledger}

theorem Consistent.append (h : g.Consistent c) {b : RecordBatch} (hb : b.InRange c)
    (hbase : b.baseOffset = g.log.highWatermark) {log : SegmentManager} (hlayout : log.Layout c)
    (hrecords : log.allRecords c = g.log.allRecords c ++ recordsOf c b)
    (hend : log.highWatermark = b.lastOffset + 1) :
    (Ledger.mk log (g.ever ++ recordsOf c b)).Consistent c := by
  have hlt : ∀ a ∈ g.ever, ∀ r ∈ recordsOf c b, a.offset < r.offset := by
    intro a ha r hr
    have hlow := h.below a ha
    have hbase' := (base_le_of_mem_recordsOf hr).1
    omega
  refine ⟨hlayout, ?_, fun r hr => ?_, fun key => ?_, ?_⟩
  · show (log.allRecords c).Sublist _
    rw [hrecords]
    exact h.sublist.append (.refl _)
  · show r.offset < log.highWatermark
    rw [hend]
    rcases mem_append.mp hr with hr | hr
    · have hlow := h.below r hr
      have hle : b.baseOffset ≤ b.lastOffset := base_le_lastOffset b
      omega
    · exact Nat.lt_succ_of_le (le_lastOffset_of_mem_recordsOf hb hr)
  · show lastWriter (log.allRecords c) key = _
    rw [hrecords]
    rw [lastWriter, lastRecord, latest_append_of_lt fun a ha => hlt a (h.sublist.subset ha),
      lastWriter, lastRecord, latest_append_of_lt hlt]
    cases latest dedupKey offset key (recordsOf c b) with
    | some => rfl
    | none => exact h.kept.view key
  · show (log.allRecords c).filter _ = _
    rw [hrecords, filter_append, filter_append, h.kept.keyless]

theorem viewKept_compact_iff (hc : c.Lawful) (h : g.Consistent c) {now : Nat}
    (hfit : RebuildFits c g.log now) :
    (g.step c (.compact now)).ViewKept c ↔ Segment.PurgesWhole c g.log now := by
  rw [← lastWriter_compactSegments_iff hc hfit]
  have hever : (g.step c (.compact now)).ever = g.ever := append_nil _
  constructor
  · intro hkept key
    rw [h.kept.view key, ← hever]
    exact hkept.view key
  · intro hview
    refine ⟨fun key => ?_, ?_⟩
    · rw [hever, ← h.kept.view key]
      exact hview key
    · rw [hever, ← h.kept.keyless]
      refine (compactSegments_prunes hc hfit).filter_eq (fun a ha => ?_)
      cases hkey : a.dedupKey with
      | none =>
        rw [keeps_of_dedupKey_none c _ _ hkey] at ha
        cases ha.1
      | some => rfl

theorem consistent_step (hc : c.Lawful) (g : Ledger) (op : Op) (h : g.Consistent c)
    (hop : Writes c g.log op) (hwhole : g.PurgesWhole c op) : (g.step c op).Consistent c := by
  have hlayout := layout_step hc h.layout hop.storesInRange
  rcases step_records h.layout hop with ⟨now, rfl⟩ | ⟨hnone, hsame, hend⟩ |
    ⟨b, hb, hbase, happ, hrecords, hend⟩
  · have hever : (g.step c (.compact now)).ever = g.ever := append_nil _
    have hhw : (g.step c (.compact now)).log.highWatermark = g.log.highWatermark :=
      g.log.compactSegments_end.1
    refine ⟨hlayout, ?_, ?_, (viewKept_compact_iff hc h hop).mpr hwhole⟩
    · rw [hever]
      exact (compactSegments_prunes hc hop).sublist.trans h.sublist
    · rw [hever, hhw]
      exact h.below
  · have hever : (g.step c op).ever = g.ever := by
      rw [step, hnone, append_nil]
    refine ⟨hlayout, ?_, ?_, ⟨?_, ?_⟩⟩
    · rw [hever]
      exact hsame ▸ h.sublist
    · rw [hever]
      exact fun r hr => hend ▸ h.below r hr
    · rw [hever]
      exact hsame ▸ h.kept.view
    · rw [hever]
      exact hsame ▸ h.kept.keyless
  · have hstep : g.step c op = ⟨Segment.step c g.log op, g.ever ++ recordsOf c b⟩ := by
      rw [step, happ]
    rw [hstep]
    exact h.append hb hbase hlayout hrecords hend

end Step

/-- In a run of appends, rotations and passes the view is kept throughout
exactly when every pass purges whole keys. -/
theorem viewKept_iff_purgesWhole {c : Crates} (hc : c.Lawful) (config : EngineConfig) (now : Nat)
    {ops : List Op}
    (hops : Run.Guarded (step c) (fun g op => Writes c g.log op) (create config now) ops) :
    Run.Always (step c) (ViewKept c) (create config now) ops ↔
      Run.Guarded (step c) (PurgesWhole c) (create config now) ops := by
  refine Run.always_iff_guarded (fun g h => h.kept) (consistent_step hc) ?_
    ⟨.create c config now, .slnil, fun _ hr => (nomatch hr), ⟨fun _ => rfl, rfl⟩⟩ hops
  intro g op h hop hkept
  cases op with
  | compact => exact (viewKept_compact_iff hc h hop).mp hkept
  | _ => trivial

theorem purgesWhole_of_all {c : Crates} {s : SegmentManager} {now : Nat}
    (h : (s.allRecords c).all (fun r => r.dedupKey.all (fun key =>
      purges c s now key → lastWriter (pairRecords c (s.untouchedBy c now)) key = none)) = true) :
    Segment.PurgesWhole c s now := by
  intro key hkey
  cases hlast : lastRecord (s.allRecords c) key with
  | none =>
    rw [purges, isPurged, latestOf_eq, hlast] at hkey
    split at hkey
    · rename_i heq
      cases heq
    · cases hkey
  | some r =>
    have hlatest := latest_eq_some_iff.mp hlast
    have hr := all_eq_true.mp h r hlatest.mem
    rw [hlatest.key_eq] at hr
    exact of_decide_eq_true hr hkey

/-- Tombstones expire at once, and a segment is rewritten when half of it is
superseded. -/
def halfDirty : EngineConfig :=
  { EngineConfig.plain with
    deleteRetentionMillis := some 0
    belowMinDirtyRatio := fun dirty total => dirty * 2 < total }

def deletedWhole : List Op :=
  [.append (.keyed 1 (some 10)) 0 0, .append (.keyed 1 none) 0 0, .rotate 0,
    .append (.keyed 2 (some 20)) 0 0, .compact 10]

theorem viewKept_deletedWhole :
    Run.Always (step .storing) (ViewKept .storing) (create halfDirty 0) deletedWhole := by
  refine (viewKept_iff_purgesWhole Crates.storing_lawful halfDirty 0 ?_).mpr ?_
  · refine ⟨inRange ⟨[], ⟨0, 0, some [1], some [10]⟩, rfl, pairwise_singleton _ _, rfl⟩, inRange
        ⟨[], ⟨1, 0, some [1], none⟩, rfl, pairwise_singleton _ _, rfl⟩, trivial,
      inRange ⟨[], ⟨2, 0, some [2], some [20]⟩, rfl, pairwise_singleton _ _, rfl⟩,
      rebuildFits_of_all ?_, trivial⟩
    decide +kernel
  · refine ⟨trivial, trivial, trivial, trivial, purgesWhole_of_all ?_, trivial⟩
    decide +kernel

/-- A key written in a segment that stays mostly live, and deleted in the
next. -/
def deletedAcross : List Op :=
  [.append (.keyed 1 (some 10)) 0 0, .append (.keyed 2 (some 20)) 0 0,
    .append (.keyed 3 (some 30)) 0 0, .rotate 0, .append (.keyed 1 none) 0 0, .rotate 0,
    .append (.keyed 4 (some 40)) 0 0, .compact 10]

/-- The pass drops the tombstone and keeps the value it deleted. -/
theorem not_viewKept_deletedAcross :
    ¬ (Run.run (step .storing) (create halfDirty 0) deletedAcross).ViewKept .storing := by
  intro h
  have hview := h.view [1]
  revert hview
  decide +kernel

end Ledger

end Bifrox.Segment

/-
Logs that only grow, and what is found of them on disk.

Two segments have one base only when the earlier one was closed empty.  A restart then finds every
entry, although it may find fewer segments.
-/
import Bifrox.Segment.Layout

namespace Bifrox.Segment

open List Protocol SegmentManager SegmentPair

structure StackedPairs (ps : List SegmentPair) : Prop where
  linked : ∀ p ∈ ps, p.linked = true
  sorted : ps.Pairwise (fun p q =>
    p.baseOffset ≤ q.baseOffset ∧ (p.baseOffset = q.baseOffset → p.log = []))
  entries : ∀ p ∈ ps, ∀ b ∈ p.log, p.baseOffset ≤ b.baseOffset

structure SegmentManager.Stacked (s : SegmentManager) : Prop where
  pairs : StackedPairs s.segments
  logEnd : s.highWatermark = s.active.nextOffset

namespace StackedPairs

variable {ps qs : List SegmentPair} {p p' : SegmentPair}

theorem sublist (h : StackedPairs ps) (hsub : qs.Sublist ps) : StackedPairs qs :=
  ⟨fun p hp => h.linked p (hsub.subset hp), h.sorted.sublist hsub,
    fun p hp => h.entries p (hsub.subset hp)⟩

theorem replaceLast (h : StackedPairs (ps ++ [p])) (hlinked : p'.linked = true)
    (hbase : p'.baseOffset = p.baseOffset) (hentries : ∀ b ∈ p'.log, p.baseOffset ≤ b.baseOffset) :
    StackedPairs (ps ++ [p']) := by
  have hsorted := pairwise_append.mp h.sorted
  refine ⟨fun q hq => ?_, ?_, fun q hq => ?_⟩
  · rcases mem_append.mp hq with hq | hq
    · exact h.linked q (mem_append_left _ hq)
    · rw [mem_singleton.mp hq]
      exact hlinked
  · refine pairwise_append.mpr ⟨hsorted.1, pairwise_singleton _ _, fun q hq q' hq' => ?_⟩
    rw [mem_singleton.mp hq', hbase]
    exact hsorted.2.2 q hq p (mem_singleton_self _)
  · rcases mem_append.mp hq with hq | hq
    · exact h.entries q (mem_append_left _ hq)
    · rw [mem_singleton.mp hq, hbase]
      exact hentries

theorem flatMap_onDisk (h : StackedPairs ps) : (onDisk ps).flatMap log = ps.flatMap log := by
  induction ps with
  | nil => rfl
  | cons p rest ih =>
    have hrest := ih (h.sublist (sublist_cons_self p rest))
    rw [onDisk]
    split
    · rw [flatMap_cons, flatMap_cons, hrest]
    · rename_i hshadowed
      -- a later segment owns the files, so this one was closed empty
      have hnil : p.log = [] := by
        rw [not_and, all_eq_true] at hshadowed
        have hsome := hshadowed (h.linked p (mem_cons_self ..))
        push Not at hsome
        obtain ⟨q, hq, hsame⟩ := hsome
        have hbase : q.baseOffset = p.baseOffset := by
          by_contra hne
          exact hsame (decide_eq_true (fun _ => hne))
        exact ((pairwise_cons.mp h.sorted).1 q hq).2 hbase.symm
      rw [flatMap_cons, hnil, nil_append, hrest]

end StackedPairs

theorem onDisk_concat {ps : List SegmentPair} {p : SegmentPair} (hlinked : p.linked = true) :
    ∃ qs, onDisk (ps ++ [p]) = qs ++ [p] := by
  induction ps with
  | nil => exact ⟨[], by simp [onDisk, hlinked]⟩
  | cons q ps ih =>
    obtain ⟨qs, hqs⟩ := ih
    rw [cons_append, onDisk, hqs]
    split
    · exact ⟨q :: qs, rfl⟩
    · exact ⟨qs, rfl⟩

namespace SegmentManager

variable {s : SegmentManager} {b : RecordBatch}

theorem Stacked.active_nil (h : s.Stacked) (hbase : s.active.baseOffset = s.highWatermark) :
    s.active.log = [] :=
  (base_le_nextOffset (h.pairs.entries _ active_mem_segments)).2 (hbase.trans h.logEnd)

theorem Stacked.base_le (h : s.Stacked) {p : SegmentPair} (hp : p ∈ s.segments) :
    p.baseOffset ≤ s.highWatermark := by
  have hactive := (base_le_nextOffset (h.pairs.entries _ active_mem_segments)).1
  rw [← h.logEnd] at hactive
  rcases mem_segments.mp hp with hhist | rfl
  · have hsorted := (pairwise_append.mp h.pairs.sorted).2.2 p hhist s.active (mem_singleton_self _)
    omega
  · exact hactive

theorem Stacked.create (config : EngineConfig) (now : Nat) : (create config now).Stacked := by
  refine ⟨⟨fun p hp => ?_, pairwise_singleton _ _, fun p hp b hb => ?_⟩, rfl⟩
  · rw [mem_singleton.mp hp]
    rfl
  · rw [mem_singleton.mp hp] at hb
    cases hb

/-! ## Appending -/

theorem Stacked.openNext_nil (h : s.Stacked) : s.openNext.log = [] :=
  openNext_of (P := fun p => p.log = []) (fun hbase _ => h.active_nil hbase) rfl

theorem Stacked.rotateSegment (h : s.Stacked) (now : Nat) : (s.rotateSegment now).Stacked := by
  have hsegs : (s.rotateSegment now).segments = s.segments ++ [s.openNext] := rfl
  refine ⟨?_, ?_⟩
  · rw [hsegs]
    refine ⟨fun p hp => ?_, ?_, fun p hp b hb => ?_⟩
    · rcases mem_append.mp hp with hp | hp
      · exact h.pairs.linked p hp
      · rw [mem_singleton.mp hp]
        exact openNext_of (P := fun p => p.linked = true) (fun _ hlinked => hlinked) rfl
    · refine pairwise_append.mpr ⟨h.pairs.sorted, pairwise_singleton _ _, fun p hp q hq => ?_⟩
      rw [mem_singleton.mp hq, openNext_baseOffset]
      refine ⟨h.base_le hp, fun hbase => ?_⟩
      rcases mem_segments.mp hp with hhist | rfl
      · have hsorted := (pairwise_append.mp h.pairs.sorted).2.2 p hhist s.active
          (mem_singleton_self _)
        have hactive := h.base_le active_mem_segments
        exact hsorted.2 (by omega)
      · exact h.active_nil hbase
    · rcases mem_append.mp hp with hp | hp
      · exact h.pairs.entries p hp b hb
      · rw [mem_singleton.mp hp, h.openNext_nil] at hb
        cases hb
  · show s.highWatermark = s.openNext.nextOffset
    rw [nextOffset_nil h.openNext_nil, openNext_baseOffset]

theorem Stacked.storeBatch (h : s.Stacked)
    (hbase : b.baseOffset = s.highWatermark) : (s.storeBatch b).Stacked := by
  have hlinked := h.pairs.linked s.active active_mem_segments
  have hpairs : StackedPairs (s.historical ++ [(s.storeBatch b).active]) := by
    refine h.pairs.replaceLast hlinked rfl ?_
    intro b' hb'
    rcases mem_append.mp hb' with hb' | hb'
    · exact h.pairs.entries _ active_mem_segments b' hb'
    · rw [mem_singleton.mp hb', hbase]
      exact h.base_le active_mem_segments
  exact ⟨hpairs, (nextOffset_concat s.storeBatch_active_log).symm⟩

theorem Stacked.append (h : s.Stacked) (hbase : b.baseOffset = s.highWatermark)
    (frameSize now : Nat) :
    ((s.maybeRotateBeforeAppend frameSize now).storeBatch b).Stacked ∧
      ((s.maybeRotateBeforeAppend frameSize now).storeBatch b).retained = s.retained ++ [b] := by
  rw [retained_storeBatch, maybeRotateBeforeAppend]
  split
  · exact ⟨(h.rotateSegment now).storeBatch hbase, by rw [retained_rotateSegment h.openNext_nil]⟩
  · exact ⟨h.storeBatch hbase, rfl⟩

/-! ## Aborted ranges -/

theorem Stacked.appendAbortedTxn (h : s.Stacked) (producerId : UInt64)
    (firstOffset lastOffset : Nat) :
    let s' := s.appendAbortedTxn producerId firstOffset lastOffset
    s'.Stacked ∧ s'.retained = s.retained := by
  obtain ⟨hhw, hnext⟩ := appendAbortedTxn_end s producerId firstOffset lastOffset
  obtain ⟨ps, p, qs, hsegs, hsegs'⟩ := modifySegmentPair_split s firstOffset (fun p =>
    { p with txnIndex := p.txnIndex ++ [{ producerId, firstOffset, lastOffset }] })
  have hpairs := h.pairs
  rw [hsegs] at hpairs
  refine ⟨⟨?_, hhw.trans (h.logEnd.trans hnext.symm)⟩, s.retained_appendAbortedTxn ..⟩
  rw [SegmentManager.appendAbortedTxn, hsegs']
  obtain ⟨hlinked, hsorted, hentries⟩ := hpairs
  simp only [forall_mem_append, forall_mem_cons, pairwise_append,
    pairwise_cons] at hlinked hsorted hentries
  refine ⟨?_, ?_, ?_⟩
  · simp only [forall_mem_append, forall_mem_cons]
    exact hlinked
  · simp only [forall_mem_cons, pairwise_append, pairwise_cons]
    exact hsorted
  · simp only [forall_mem_append, forall_mem_cons]
    exact hentries

theorem mem_abortedRanges {range : Nat × Nat} : range ∈ s.abortedRanges ↔
    ∃ p ∈ s.segments, ∃ e ∈ p.txnIndex, (e.firstOffset, e.lastOffset) = range := by
  simp only [abortedRanges, mem_map, mem_flatMap]
  constructor
  · rintro ⟨e, ⟨p, hp, he⟩, heq⟩
    exact ⟨p, hp, e, he, heq⟩
  · rintro ⟨p, hp, e, he, heq⟩
    exact ⟨e, ⟨p, hp, he⟩, heq⟩

theorem mem_abortedRanges_appendAbortedTxn (s : SegmentManager) (producerId : UInt64)
    (firstOffset lastOffset : Nat) (range : Nat × Nat) :
    range ∈ (s.appendAbortedTxn producerId firstOffset lastOffset).abortedRanges ↔
      range ∈ s.abortedRanges ∨ range = (firstOffset, lastOffset) := by
  obtain ⟨ps, p, qs, hsegs, hsegs'⟩ := modifySegmentPair_split s firstOffset (fun p =>
    { p with txnIndex := p.txnIndex ++ [{ producerId, firstOffset, lastOffset }] })
  simp only [abortedRanges, appendAbortedTxn, hsegs, hsegs', flatMap_append,
    flatMap_cons, map_append, mem_append, map_cons, map_nil,
    mem_singleton]
  tauto

theorem mem_abortedRanges_append (s : SegmentManager) (b : RecordBatch) (frameSize now : Nat)
    (range : Nat × Nat) :
    range ∈ ((s.maybeRotateBeforeAppend frameSize now).storeBatch b).abortedRanges ↔
      range ∈ s.abortedRanges := by
  have hstore : ∀ s : SegmentManager, (s.storeBatch b).abortedRanges = s.abortedRanges := by
    intro s
    simp [abortedRanges, segments, storeBatch]
  rw [hstore, maybeRotateBeforeAppend]
  split
  · have hsegs : (s.rotateSegment now).segments = s.segments ++ [s.openNext] := rfl
    have hnext : ∀ e ∈ s.openNext.txnIndex, e ∈ s.active.txnIndex := by
      intro e he
      rw [openNext] at he
      split at he
      · exact he
      · cases he
    rw [mem_abortedRanges, mem_abortedRanges, hsegs]
    constructor
    · rintro ⟨p, hp, e, he, heq⟩
      rcases mem_append.mp hp with hp | hp
      · exact ⟨p, hp, e, he, heq⟩
      · rw [mem_singleton.mp hp] at he
        exact ⟨s.active, active_mem_segments, e, hnext e he, heq⟩
    · rintro ⟨p, hp, e, he, heq⟩
      exact ⟨p, mem_append_left _ hp, e, he, heq⟩
  · rfl

/-! ## Opening -/

theorem openDir_stacked {config : EngineConfig} {ps : List SegmentPair} {p : SegmentPair}
    (h : StackedPairs (ps ++ [p])) {now : Nat} :
    let s := openDir config (onDisk (ps ++ [p])) now
    s.Stacked ∧ s.retained = (ps ++ [p]).flatMap log ∧ s.highWatermark = p.nextOffset := by
  have hlinked := h.linked p (by simp)
  obtain ⟨qs, hqs⟩ := onDisk_concat hlinked
  have hfound : StackedPairs (qs ++ [p]) := hqs ▸ h.sublist (onDisk_sublist _)
  rw [← h.flatMap_onDisk, hqs]
  have hlast : (qs ++ [p]).getLast? = some p := List.getLast?_concat
  have hinit : (qs ++ [p]).dropLast = qs := dropLast_concat
  refine ⟨⟨?_, rfl⟩, ?_, ?_⟩
  · simp only [openDir, segments, hlast, hinit]
    exact hfound.replaceLast hlinked rfl (hfound.entries p (by simp))
  · simp [openDir, retained, segments]
  · simp only [openDir, hlast]
    rfl

/-! ## Bases and files

A segment is named after the log end at which it was opened.  One that is closed while it is empty
shares its base, and its files, with the next. -/

def Increasing (s : SegmentManager) : Prop :=
  s.segments.Pairwise fun p q => p.baseOffset < q.baseOffset

/-- The bases increase, and to delete the files of one segment leaves every other one its own. -/
def OwnsFiles (s : SegmentManager) : Prop :=
  s.Increasing ∧
    s.segments.Pairwise fun p q => q.unlink [p.baseOffset] = q ∧ p.unlink [q.baseOffset] = p

theorem Increasing.ownsFiles (h : s.Increasing) : s.OwnsFiles := by
  refine ⟨h, h.imp fun hlt => ⟨if_neg ?_, if_neg ?_⟩⟩
  · rw [mem_singleton]
    omega
  · rw [mem_singleton]
    omega

/-- The next segment has a base of its own exactly if the active one has a batch. -/
theorem Stacked.increasing_rotateSegment (h : s.Stacked) (hinc : s.Increasing) {now : Nat} :
    (s.rotateSegment now).Increasing ↔ s.active.log ≠ [] := by
  have hsegs : (s.rotateSegment now).segments = s.segments ++ [s.openNext] := rfl
  rw [Increasing, hsegs, pairwise_append]
  constructor
  · intro hnew hnil
    have hlt := hnew.2.2 s.active active_mem_segments s.openNext (mem_singleton_self _)
    rw [openNext_baseOffset, h.logEnd, nextOffset_nil hnil] at hlt
    omega
  · refine fun hne => ⟨hinc, pairwise_singleton _ _, fun p hp q hq => ?_⟩
    have hle := h.base_le active_mem_segments
    have hactive : s.active.baseOffset ≠ s.highWatermark := fun hbase => hne (h.active_nil hbase)
    rw [mem_singleton.mp hq, openNext_baseOffset]
    rcases mem_segments.mp hp with hhist | rfl
    · have hbefore := (pairwise_append.mp hinc).2.2 p hhist s.active (mem_singleton_self _)
      omega
    · omega

theorem Stacked.increasing_append (h : s.Stacked) (hinc : s.Increasing)
    {frameSize now : Nat} : ((s.maybeRotateBeforeAppend frameSize now).storeBatch b).Increasing ↔
      (s.rollsBeforeAppend frameSize now = true → s.active.log ≠ []) := by
  have hstore : ∀ s : SegmentManager, (s.storeBatch b).Increasing ↔ s.Increasing := by
    intro s
    rw [Increasing, Increasing, segments, segments, pairwise_append, pairwise_append]
    simp [SegmentManager.storeBatch]
  rw [hstore, maybeRotateBeforeAppend]
  split
  · next hroll =>
    rw [h.increasing_rotateSegment hinc]
    exact ⟨fun hne _ => hne, fun hne => hne hroll⟩
  · next hroll => exact ⟨fun _ hrolls => absurd hrolls hroll, fun _ => hinc⟩

theorem Stacked.reopen (h : s.Stacked) (now : Nat) : (s.reopen now).Stacked :=
  (openDir_stacked h.pairs).1

theorem Stacked.increasing_reopen (h : s.Stacked) (hinc : s.Increasing) {now : Nat} :
    (s.reopen now).Increasing := by
  obtain ⟨qs, hqs⟩ := onDisk_concat (h.pairs.linked _ active_mem_segments)
  have hsub := hinc.sublist (onDisk_sublist s.segments)
  rw [segments, hqs, pairwise_append] at hsub
  rw [SegmentManager.reopen, segments, hqs]
  simp only [Increasing, openDir, segments, List.getLast?_concat, dropLast_concat]
  refine pairwise_append.mpr ⟨hsub.1, pairwise_singleton _ _, fun p hp q hq => ?_⟩
  rw [mem_singleton.mp hq]
  exact hsub.2.2 p hp s.active (mem_singleton_self _)

end SegmentManager

def Op.rolls (c : Crates) (s : SegmentManager) : Op → Bool
  | .append batch leaderEpoch now => s.rollsBeforeAppend
      (batch.assignBaseOffsetAndLeaderEpoch c s.highWatermark leaderEpoch).encodedSize now
  | .appendVerbatim batch now =>
    batch.baseOffset = s.highWatermark && s.rollsBeforeAppend batch.encodedSize now
  | .rotate _ => true
  | _ => false

/-- A segment is closed only when it has a batch. -/
def RollsFilled (c : Crates) (s : SegmentManager) (op : Op) : Prop :=
  op.rolls c s = true → s.active.log ≠ []

/-- The operations that store a batch, close a segment or restart. -/
def Op.grows : Op → Bool
  | .append .. | .appendVerbatim .. | .rotate .. | .reopen .. => true
  | _ => false

theorem stacked_step {c : Crates} {s : SegmentManager} {op : Op} (hop : op.grows = true)
    (h : s.Stacked) (hinc : s.Increasing) :
    (step c s op).Stacked ∧ ((step c s op).Increasing ↔ RollsFilled c s op) := by
  cases op with
  | append batch leaderEpoch now =>
    exact ⟨(h.append rfl _ now).1, h.increasing_append hinc⟩
  | appendVerbatim batch now =>
    rcases s.appendBatchVerbatim_cases with ⟨res, -, hoff, hres⟩ | ⟨hbase, hres⟩
    · refine ⟨by rwa [step, hres], ?_⟩
      rw [step, hres]
      exact ⟨fun _ hrolls => by simp [Op.rolls, hoff] at hrolls, fun _ => hinc⟩
    · rw [step, hres]
      refine ⟨(h.append hbase _ now).1, (h.increasing_append hinc).trans ?_⟩
      simp [RollsFilled, Op.rolls, hbase]
  | rotate now =>
    refine ⟨h.rotateSegment now, (h.increasing_rotateSegment hinc).trans ?_⟩
    simp [RollsFilled, Op.rolls]
  | reopen now =>
    exact ⟨h.reopen now, fun _ hrolls => absurd hrolls Bool.false_ne_true,
      fun _ => h.increasing_reopen hinc⟩
  | _ => exact absurd hop Bool.false_ne_true

/-- Every segment has its own files in every state of a run exactly if no segment is closed while
it is empty. -/
theorem ownsFiles_iff_rollsFilled (c : Crates) (config : EngineConfig) (now : Nat) {ops : List Op}
    (hops : ∀ op ∈ ops, op.grows = true) :
    Run.Always (step c) SegmentManager.OwnsFiles (create config now) ops ↔
      Run.Guarded (step c) (RollsFilled c) (create config now) ops := by
  refine Run.always_iff_guarded (fun s (h : s.Stacked ∧ s.Increasing) => h.2.ownsFiles)
    (fun s op h hop hfilled => ?_) (fun s op h hop howns => ?_)
    ⟨.create config now, pairwise_singleton _ _⟩ (Run.Guarded.of_forall hops)
  · obtain ⟨hstacked, hinc⟩ := stacked_step hop h.1 h.2
    exact ⟨hstacked, hinc.mpr hfilled⟩
  · exact (stacked_step hop h.1 h.2).2.mp howns.1

/-- Two batches, with a restart between them, in segments of their own. -/
def smallSegments : EngineConfig := { EngineConfig.plain with maxSegmentBytes := 80 }

theorem ownsFiles_smallSegments :
    Run.Always (step .storing) SegmentManager.OwnsFiles (create smallSegments 0)
      [.append (.keyed 1 none) 0 0, .reopen 0, .append (.keyed 2 none) 0 0] := by
  refine (ownsFiles_iff_rollsFilled .storing smallSegments 0 (by decide)).mpr ?_
  simp only [Run.Guarded, RollsFilled]
  decide +kernel

/-- The first batch is too large for a segment, and the segment closed for it is empty. -/
theorem not_ownsFiles_oversized : ¬ Run.Always (step .storing) SegmentManager.OwnsFiles
      (create { smallSegments with maxSegmentBytes := 60 } 0)
      [.append (.keyed 1 none) 0 0] := by
  intro h
  have hinc := h.run.1
  unfold SegmentManager.Increasing at hinc
  exact absurd hinc (by decide +kernel)

end Bifrox.Segment

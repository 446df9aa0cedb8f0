/-
What a crash leaves of a partition.

A start after a crash never refuses the checkpoint, because the log is synced before the
checkpoint moves.
-/
import Bifrox.Segment.Stacked
import Bifrox.Server.Partition

namespace Bifrox.Server

open List Protocol Segment SegmentManager

namespace PartitionManager

/-- The active segment as a crash leaves it. -/
def durableActive (pm : PartitionManager) : SegmentPair :=
  { pm.log.active with log := pm.log.active.log.take pm.synced }

def durableEntries (pm : PartitionManager) : List RecordBatch :=
  pm.durableSegments.flatMap SegmentPair.log

structure Durable (pm : PartitionManager) : Prop where
  stacked : pm.log.Stacked
  synced_le : pm.synced ≤ pm.log.active.log.length
  committed_le : pm.committedHw ≤ pm.logEndOffset
  committed : pm.committedHw ≤ pm.durableActive.nextOffset

variable {c : Crates} {pm pm' : PartitionManager}

theorem durableEntries_initial (pm : PartitionManager) : pm.durableEntries <+: pm.log.retained := by
  rw [durableEntries, durableSegments, retained, segments,
    flatMap_append, flatMap_append, flatMap_singleton, flatMap_singleton]
  exact (prefix_append_right_inj _).mpr ⟨_, take_append_drop _ _⟩

theorem durableEntries_of_synced (h : pm.synced = pm.log.active.log.length) :
    pm.durableEntries = pm.log.retained := by
  rw [durableEntries, durableSegments, h, take_length]
  rfl

theorem Durable.create (config : EngineConfig) (policy : FlushPolicy) (now : Nat) :
    (create config policy now).Durable :=
  ⟨SegmentManager.Stacked.create config now, Nat.le_refl 0, Nat.le_refl 0, Nat.le_refl 0⟩

/-! ## Reaching the disk -/

theorem Durable.congr (h : pm.Durable) (hlog : pm'.log = pm.log) (hsynced : pm'.synced = pm.synced)
    (hcommitted : pm'.committedHw = pm.committedHw) : pm'.Durable := by
  refine ⟨hlog ▸ h.stacked, ?_, ?_, ?_⟩
  · rw [hsynced, hlog]
    exact h.synced_le
  · rw [hcommitted, logEndOffset, hlog]
    exact h.committed_le
  · rw [hcommitted, durableActive, hlog, hsynced]
    exact h.committed

theorem Durable.of_synced (hstacked : pm.log.Stacked)
    (hsynced : pm.synced = pm.log.active.log.length)
    (hcommitted : pm.committedHw ≤ pm.logEndOffset) : pm.Durable := by
  refine ⟨hstacked, Nat.le_of_eq hsynced, hcommitted, ?_⟩
  rw [durableActive, hsynced, take_length]
  exact hstacked.logEnd ▸ hcommitted

section

variable (h : pm.Durable)
include h

theorem Durable.syncLog : pm.syncLog.Durable :=
  Durable.of_synced h.stacked rfl h.committed_le

theorem Durable.flushDurable : pm.flushDurable.Durable :=
  h.syncLog.congr rfl rfl rfl

theorem Durable.flush : pm.flush.Durable := h.flushDurable.congr rfl rfl rfl

theorem Durable.flushIfSyncPolicy : pm.flushIfSyncPolicy.Durable := by
  rw [PartitionManager.flushIfSyncPolicy]
  split
  · exact h
  · exact h.flushDurable
  · exact h.flushDurable

theorem Durable.advanceCommittedHw (candidate : Nat) :
    (pm.advanceCommittedHw candidate).Durable := by
  rw [PartitionManager.advanceCommittedHw]
  split
  · exact h
  · exact Durable.of_synced h.stacked rfl (Nat.min_le_right _ _)

theorem Durable.countUnsynced (size : Nat) : (pm.countUnsynced size).Durable := by
  rw [PartitionManager.countUnsynced]
  split
  · split
    · exact h.flushDurable
    · exact h.congr rfl rfl rfl
  · exact h.congr rfl rfl rfl

theorem Durable.snapshotIfRolled (baseBefore : Nat) : (pm.snapshotIfRolled baseBefore).Durable := by
  rw [PartitionManager.snapshotIfRolled]
  split
  · exact h.congr rfl rfl rfl
  · exact h

/-! ## Appending -/

theorem Durable.withLog {b : RecordBatch} (hbase : b.baseOffset = pm.logEndOffset)
    (frameSize now : Nat) :
    (pm.withLog frameSize now
      ((pm.log.maybeRotateBeforeAppend frameSize now).storeBatch b)).Durable := by
  have hend : pm.logEndOffset ≤ b.lastOffset + 1 := by
    have hle := base_le_lastOffset b
    omega
  refine ⟨(h.stacked.append hbase frameSize now).1, ?_, h.committed_le.trans hend, ?_⟩
  · rw [PartitionManager.withLog]
    split
    · exact Nat.zero_le _
    · rename_i hroll
      simp only [maybeRotateBeforeAppend, hroll, Bool.false_eq_true, if_false,
        storeBatch_active_log, length_append]
      exact h.synced_le.trans (Nat.le_add_right _ _)
  · show pm.committedHw ≤ _
    by_cases hroll : pm.log.rollsBeforeAppend frameSize now = true
    · -- the new segment starts at the old log end
      have hnext : (pm.withLog frameSize now
          ((pm.log.maybeRotateBeforeAppend frameSize now).storeBatch
          b)).durableActive.nextOffset = pm.logEndOffset := by
        simp only [durableActive, PartitionManager.withLog, hroll, if_true, take_zero,
          maybeRotateBeforeAppend]
        exact (SegmentPair.nextOffset_nil rfl).trans openNext_baseOffset
      exact hnext ▸ h.committed_le
    · have hsame : (pm.withLog frameSize now
        ((pm.log.maybeRotateBeforeAppend frameSize now).storeBatch
          b)).durableActive.nextOffset = pm.durableActive.nextOffset := by
        simp only [durableActive, PartitionManager.withLog, hroll, Bool.false_eq_true, if_false,
          maybeRotateBeforeAppend, storeBatch_active_log,
          take_append_of_le_length h.synced_le, SegmentPair.nextOffset]
        rfl
      exact hsame ▸ h.committed

theorem Durable.storeBatch (batch : RecordBatch) (now : Nat) :
    let pm' := (pm.storeBatch c batch now).1
    pm'.Durable ∧ pm'.log.retained = pm.log.retained ++ [storedBatch c pm batch] ∧
      (pm'.snapshot = pm.snapshot ∨ pm'.snapshot = pm'.states) := by
  have hbase : (storedBatch c pm batch).baseOffset = pm.logEndOffset := rfl
  have happend : (pm.appendBatch c batch pm.leaderEpoch now).1.Durable := h.withLog hbase _ now
  refine ⟨?_, ?_, ?_⟩
  · rw [PartitionManager.storeBatch]
    simp only
    split
    · exact happend
    · refine Durable.countUnsynced (Durable.snapshotIfRolled ?_ _) _
      exact happend.congr rfl rfl rfl
  · rw [storeBatch_log]
    exact (h.stacked.append hbase _ now).2
  · rw [PartitionManager.storeBatch]
    simp only
    split
    · exact .inl rfl
    · rw [countUnsynced_keeps.1, countUnsynced_keeps.2.2, snapshotIfRolled_keeps.1]
      exact snapshotIfRolled_keeps.2.2

theorem Durable.replicate (batch : RecordBatch) (now : Nat) :
    let pm' := pm.appendReplicaEntriesVerbatim [(batch, now)]
    (pm.log.appendBatchVerbatim batch now).2 ≠ .appended ∧ pm' = pm ∨
    (pm.log.appendBatchVerbatim batch now).2 = .appended ∧ pm'.Durable ∧
      pm'.log.retained = pm.log.retained ++ [batch] ∧ pm'.states = pm.states ∧
      pm'.snapshot = pm.snapshot := by
  rcases appendBatchVerbatim_cases pm.log with
    ⟨res, hres, -, heq⟩ | ⟨hbase, heq⟩
  · left
    rw [appendReplicaEntriesVerbatim, heq]
    refine ⟨hres, ?_⟩
    cases res with
    | appended => exact absurd rfl hres
    | alreadyApplied => rfl
    | gap => rfl
  · right
    rw [appendReplicaEntriesVerbatim, heq]
    exact ⟨rfl, (h.withLog hbase _ now).congr rfl rfl rfl,
      (h.stacked.append hbase _ now).2, rfl, rfl⟩

/-! ## Starting after a crash -/

theorem Durable.durableSegments : StackedPairs pm.durableSegments := by
  refine h.stacked.pairs.replaceLast ?_ rfl ?_
  · exact h.stacked.pairs.linked pm.log.active active_mem_segments
  · intro b hb
    exact h.stacked.pairs.entries pm.log.active active_mem_segments b (mem_of_mem_take hb)

theorem Durable.crash (now : Nat) : ∃ pm', pm.crash now = .ok pm' ∧ pm'.Durable ∧
    pm'.log.retained = pm.durableEntries ∧ pm'.states = pm.snapshot ∧ pm'.snapshot = pm.snapshot ∧
    pm'.logEndOffset = pm.durableActive.nextOffset := by
  obtain ⟨hstacked, hretained, hend⟩ :=
    SegmentManager.openDir_stacked h.durableSegments
  have hfits : ¬ pm.committedHw >
      (SegmentManager.openDir pm.log.config (SegmentManager.onDisk pm.durableSegments)
        now).highWatermark := by
    rw [PartitionManager.durableSegments, hend]
    exact Nat.not_lt.mpr h.committed
  rw [PartitionManager.crash, openDir]
  simp only [if_neg hfits]
  refine ⟨_, rfl, Durable.of_synced hstacked rfl ?_, hretained, rfl, rfl, hend⟩
  exact Nat.not_lt.mp hfits

theorem Durable.crash_syncLog (now : Nat) : ∃ pm', pm.syncLog.crash now = .ok pm' ∧
    pm'.Durable ∧ pm'.logEndOffset = pm.logEndOffset ∧ pm'.log.retained = pm.log.retained := by
  obtain ⟨pm', hok, hdurable, hretained, -, -, hend⟩ := h.syncLog.crash now
  refine ⟨pm', hok, hdurable, ?_, hretained.trans (durableEntries_of_synced rfl)⟩
  rw [hend, durableActive, PartitionManager.syncLog, take_length]
  exact h.stacked.logEnd.symm

end

end PartitionManager

end Bifrox.Server

/-
A follower that copies its leader's log (`fetch_entries_for_replication` and
`append_replica_entries_verbatim` in `src/server/partition.rs`).

A batch is appended only if it starts exactly at the log end, so a follower gets no further than
the first gap that compaction or trimming has left in the leader's log.
-/
import Bifrox.Segment.ScanRun
import Bifrox.Server.Partition

namespace Bifrox.Replication

open List Protocol Segment SegmentManager
open Server (PartitionManager)

/-! ## Rounds -/

/-- `fetch_entries_for_replication`: bounded by the log end, not by the high watermark. -/
def fetchEntriesForReplication (pm : PartitionManager) (startOffset maxBytes : Nat) :
    List RecordBatch :=
  pm.log.fetchEntries startOffset maxBytes pm.logEndOffset

/-- One fetch and its append.  The clock is read before each batch. -/
def copyRound (leader : PartitionManager) (maxBytes : Nat) (clock : Nat → Nat)
    (follower : PartitionManager) : PartitionManager :=
  follower.appendReplicaEntriesVerbatim
    ((fetchEntriesForReplication leader follower.logEndOffset maxBytes).zipIdx.map
      fun entry => (entry.1, clock entry.2))

def copyRounds (leader : PartitionManager) (maxBytes : Nat) (clock : Nat → Nat → Nat) :
    Nat → PartitionManager → PartitionManager
  | 0, follower => follower
  | n + 1, follower =>
    copyRound leader maxBytes (clock n) (copyRounds leader maxBytes clock n follower)

/-- The rounds end at the leader's log end, and each of them appends something. -/
def CatchesUp (leader follower : PartitionManager) : Prop :=
  ∀ maxBytes clock, ∃ n,
    (copyRounds leader maxBytes clock n follower).logEndOffset = leader.logEndOffset ∧
    ∀ i < n, ∃ b bs, (copyRounds leader maxBytes clock (i + 1) follower).log.retained =
      (copyRounds leader maxBytes clock i follower).log.retained ++ b :: bs

/-! ## Histories -/

def storedBy (c : Crates) (s : SegmentManager) : Op → Option RecordBatch
  | .append batch leaderEpoch now => some (s.appendBatch c batch leaderEpoch now).2
  | .appendVerbatim batch now =>
    if (s.appendBatchVerbatim batch now).2 = .appended then some batch else none
  | _ => none

def history (c : Crates) : SegmentManager → List Op → List RecordBatch
  | _, [] => []
  | s, op :: ops => (storedBy c s op).toList ++ history c (step c s op) ops

def endOf (log : List RecordBatch) : Nat := (log.getLast?.map (·.lastOffset + 1)).getD 0

/-- The follower's log is a part of the history from its beginning. -/
structure IsCopyOf (c : Crates) (past : List RecordBatch) (follower : PartitionManager) : Prop where
  layout : follower.log.Layout c
  entries : follower.log.retained <+: past
  logEnd : follower.logEndOffset = endOf follower.log.retained

variable {c : Crates} {s : SegmentManager}

/-! ## Logs without gaps -/

/-- Batches that follow each other from one offset to another. -/
def ChainedTo (stop : Nat) : Nat → List RecordBatch → Prop
  | next, [] => next = stop
  | next, b :: rest => b.baseOffset = next ∧ ChainedTo stop (b.lastOffset + 1) rest

instance decidableChainedTo (stop : Nat) : (next : Nat) → (bs : List RecordBatch) →
    Decidable (ChainedTo stop next bs)
  | next, [] => inferInstanceAs (Decidable (next = stop))
  | next, b :: rest =>
    @instDecidableAnd (b.baseOffset = next) _ _ (decidableChainedTo stop (b.lastOffset + 1) rest)

/-- From an offset on, the log has no gap: the batches that do not end below it follow each other
from there to the log end. -/
def ContiguousFrom (s : SegmentManager) (next : Nat) : Prop :=
  ChainedTo s.highWatermark next (s.retained.filter fun b => next ≤ b.lastOffset)

instance (s : SegmentManager) (next : Nat) : Decidable (ContiguousFrom s next) :=
  decidableChainedTo ..

variable {stop next : Nat} {bs : List RecordBatch}

theorem chainedTo_append {rest : List RecordBatch} : ChainedTo stop next (bs ++ rest) ↔
    ∃ next', ChainedTo next' next bs ∧ ChainedTo stop next' rest := by
  induction bs generalizing next with
  | nil => simp [ChainedTo]
  | cons b bs ih => simp only [cons_append, ChainedTo, ih, exists_and_left, and_assoc]

theorem ChainedTo.le (h : ChainedTo stop next bs) :
    next ≤ stop ∧ ∀ b ∈ bs, b.lastOffset < stop := by
  induction bs generalizing next with
  | nil => exact ⟨Nat.le_of_eq h, nofun⟩
  | cons b bs ih =>
    obtain ⟨hle, hall⟩ := ih h.2
    have hlast := base_le_lastOffset b
    have hbase := h.1
    refine ⟨by omega, fun x hx => ?_⟩
    rcases mem_cons.mp hx with rfl | hx
    · omega
    · exact hall x hx

/-- In a log in order, the batches that do not end below a batch are the ones from it on. -/
theorem filter_of_increasing {before after : List RecordBatch} {b : RecordBatch}
    (h : (before ++ b :: after).Pairwise fun b b' => b.lastOffset < b'.baseOffset) :
    ((before ++ b :: after).filter fun x => b.baseOffset ≤ x.lastOffset) = b :: after ∧
      ((before ++ b :: after).filter fun x => b.lastOffset + 1 ≤ x.lastOffset) = after := by
  obtain ⟨-, hafter, hbefore⟩ := pairwise_append.mp h
  have hb := base_le_lastOffset b
  have hlt : ∀ x ∈ before, x.lastOffset < b.baseOffset := fun x hx => hbefore x hx b mem_cons_self
  have hgt : ∀ x ∈ after, b.lastOffset < x.lastOffset := fun x hx =>
    Nat.lt_of_lt_of_le (rel_of_pairwise_cons hafter hx) (base_le_lastOffset x)
  constructor
  · rw [filter_append, filter_eq_nil_iff.mpr, nil_append, filter_eq_self]
    · intro x hx
      rcases mem_cons.mp hx with rfl | hx
      · exact decide_eq_true hb
      · have := hgt x hx
        exact decide_eq_true (by omega)
    · intro x hx
      have := hlt x hx
      simp only [decide_eq_true_eq]
      omega
  · rw [filter_append, filter_eq_nil_iff.mpr, nil_append, filter_cons_of_neg, filter_eq_self]
    · exact fun x hx => decide_eq_true (hgt x hx)
    · simp
    · intro x hx
      have := hlt x hx
      simp only [decide_eq_true_eq]
      omega

/-- Batches of the log that lead to its end are all there are. -/
theorem contiguousFrom_of_chained (h : s.Layout c) (hmem : ∀ b ∈ bs, b ∈ s.retained)
    (hchain : ChainedTo s.highWatermark next bs) : ContiguousFrom s next := by
  induction bs generalizing next with
  | nil =>
    rw [ContiguousFrom, filter_eq_nil_iff.mpr]
    · exact hchain
    · intro b hb
      have hlt := h.lastOffset_lt hb
      have hend : next = s.highWatermark := hchain
      simp only [decide_eq_true_eq]
      omega
  | cons b bs ih =>
    obtain ⟨before, after, hret⟩ := append_of_mem (hmem b mem_cons_self)
    obtain ⟨hfrom, hbehind⟩ := filter_of_increasing (hret ▸ h.retained_increasing)
    have hrest := ih (fun b' hb' => hmem b' (mem_cons_of_mem _ hb')) hchain.2
    rw [ContiguousFrom, hret, hbehind] at hrest
    rw [ContiguousFrom, hret, ← hchain.1, hfrom]
    exact ⟨rfl, hrest⟩

variable {c : Crates} {leader follower : PartitionManager}

section Round

theorem appendReplicaEntriesVerbatim_of_chained (entries : List (RecordBatch × Nat))
    (pm : PartitionManager) {stop : Nat} (h : pm.log.Layout c)
    (hchain : ChainedTo stop pm.logEndOffset (entries.map Prod.fst))
    (hrange : ∀ e ∈ entries, e.1.InRange c) :
    let pm' := pm.appendReplicaEntriesVerbatim entries
    pm'.log.Layout c ∧ pm'.log.retained = pm.log.retained ++ entries.map Prod.fst ∧
      pm'.logEndOffset = stop := by
  induction entries generalizing pm with
  | nil => exact ⟨h, by simp [PartitionManager.appendReplicaEntriesVerbatim], hchain⟩
  | cons e entries ih =>
    obtain ⟨batch, now⟩ := e
    have hbase : batch.baseOffset = pm.log.highWatermark := hchain.1
    have hbase' : batch.baseOffset =
        (pm.log.maybeRotateBeforeAppend batch.encodedSize now).highWatermark := by
      rw [maybeRotateBeforeAppend_highWatermark, hbase]
    have hlayout : Layout c
        ((pm.log.maybeRotateBeforeAppend batch.encodedSize now).storeBatch batch) :=
      (h.maybeRotateBeforeAppend _ now).storeBatch hbase' (hrange _ mem_cons_self)
    have hretained := retained_storeBatch
      (pm.log.maybeRotateBeforeAppend batch.encodedSize now) batch
    rw [h.retained_maybeRotateBeforeAppend] at hretained
    rw [PartitionManager.appendReplicaEntriesVerbatim, appendBatchVerbatim_of_base hbase]
    obtain ⟨hlayout', hretained', hend⟩ := ih
      { pm.withLog batch.encodedSize now
        ((pm.log.maybeRotateBeforeAppend batch.encodedSize now).storeBatch batch) with
          unsyncedBytes := pm.unsyncedBytes + batch.encodedSize }
      hlayout hchain.2 (fun e he => hrange e (mem_cons_of_mem _ he))
    refine ⟨hlayout', hretained'.trans ?_, hend⟩
    show ((pm.log.maybeRotateBeforeAppend batch.encodedSize now).storeBatch batch).retained ++ _ = _
    rw [hretained, append_assoc]
    rfl

theorem copyRound_spec (hleader : leader.log.Layout c)
    (hfits : ∀ p ∈ leader.log.segments, FitsIndex p) (h : follower.log.Layout c)
    (hcontiguous : ContiguousFrom leader.log follower.logEndOffset)
    (hbehind : follower.logEndOffset ≠ leader.logEndOffset) {maxBytes : Nat} {clock : Nat → Nat} :
    let pm := copyRound leader maxBytes clock follower
    pm.log.Layout c ∧ ContiguousFrom leader.log pm.logEndOffset ∧
      follower.logEndOffset < pm.logEndOffset ∧
      ∃ b bs, pm.log.retained = follower.log.retained ++ b :: bs := by
  rw [ContiguousFrom] at hcontiguous
  cases hrest : leader.log.retained.filter fun b => follower.logEndOffset ≤ b.lastOffset with
  | nil =>
    rw [hrest] at hcontiguous
    exact absurd hcontiguous hbehind
  | cons b rest =>
    rw [hrest] at hcontiguous
    have hbase := hcontiguous.1
    have hmem : b ∈ leader.log.retained := mem_of_mem_filter (hrest ▸ mem_cons_self)
    obtain ⟨before, after, hret⟩ := append_of_mem hmem
    have hinc := hret ▸ hleader.retained_increasing
    rw [hret, ← hbase, (filter_of_increasing hinc).1, cons.injEq] at hrest
    obtain ⟨-, rfl⟩ := hrest
    have hbefore : ∀ x ∈ before, x.lastOffset < follower.logEndOffset := fun x hx =>
      hbase ▸ (pairwise_append.mp hinc).2.2 x hx b mem_cons_self
    have hwanted := findSegmentPair_base hleader hmem
    rw [hbase] at hwanted
    have hlast := hbase ▸ base_le_lastOffset b
    obtain ⟨taken, after, rfl, -, hfetch⟩ := fetchEntries_of_wanted hleader hfits
      ⟨b, hwanted, hlast⟩ _ hret hbefore hlast (hleader.lastOffset_lt hmem)
    rw [← cons_append] at hcontiguous hret
    obtain ⟨next, htaken, hafter⟩ := chainedTo_append.mp hcontiguous
    obtain ⟨entries, hround, hentries⟩ : ∃ entries, copyRound leader maxBytes clock follower =
        follower.appendReplicaEntriesVerbatim entries ∧ entries.map Prod.fst = b :: taken := by
      refine ⟨_, rfl, ?_⟩
      rw [map_map]
      exact (zipIdx_map_fst 0 _).trans hfetch
    have hrange : ∀ e ∈ entries, e.1.InRange c := by
      intro e he
      have htaken : e.1 ∈ b :: taken := hentries ▸ mem_map_of_mem he
      obtain ⟨p, hp, hin⟩ := mem_retained.mp
        (hret ▸ mem_append_right before (mem_append_left after htaken))
      exact (hleader.sound p hp).inRange e.1 hin
    obtain ⟨hlayout, hretained, hend⟩ := appendReplicaEntriesVerbatim_of_chained entries follower h
      (hentries.symm ▸ htaken) hrange
    rw [hround]
    dsimp only
    rw [hend]
    refine ⟨hlayout, contiguousFrom_of_chained hleader (fun x hx => ?_) hafter, ?_, b, taken,
      by rw [hretained, hentries]⟩
    · rw [hret]
      exact mem_append_right _ (mem_append_right _ hx)
    · have hlt := htaken.le.2 b mem_cons_self
      have hlast := base_le_lastOffset b
      omega

/-- What a follower appends starts at its log end. -/
theorem exists_chained_append (entries : List (RecordBatch × Nat)) (pm : PartitionManager) :
    ∃ taken, (∀ b ∈ taken, b ∈ entries.map Prod.fst) ∧
      ChainedTo (pm.appendReplicaEntriesVerbatim entries).logEndOffset pm.logEndOffset taken := by
  induction entries generalizing pm with
  | nil => exact ⟨[], nofun, rfl⟩
  | cons e entries ih =>
    obtain ⟨batch, now⟩ := e
    rcases pm.log.appendBatchVerbatim_cases with ⟨res, hres, -, heq⟩ | ⟨hbase, heq⟩
    · rw [PartitionManager.appendReplicaEntriesVerbatim, heq]
      cases res with
      | appended => exact absurd rfl hres
      | alreadyApplied =>
        obtain ⟨taken, hmem, hchain⟩ := ih pm
        exact ⟨taken, fun b hb => mem_cons_of_mem _ (hmem b hb), hchain⟩
      | gap => exact ⟨[], nofun, rfl⟩
    · rw [PartitionManager.appendReplicaEntriesVerbatim, heq]
      obtain ⟨taken, hmem, hchain⟩ := ih
        { pm.withLog batch.encodedSize now
          ((pm.log.maybeRotateBeforeAppend batch.encodedSize now).storeBatch batch) with
            unsyncedBytes := pm.unsyncedBytes + batch.encodedSize }
      refine ⟨batch :: taken, fun b hb => ?_, hbase, hchain⟩
      rcases mem_cons.mp hb with rfl | hb
      · exact mem_cons_self
      · exact mem_cons_of_mem _ (hmem b hb)

theorem exists_chained_copyRounds (leader : PartitionManager) (maxBytes : Nat)
    (clock : Nat → Nat → Nat) (n : Nat) (follower : PartitionManager) :
    ∃ taken, (∀ b ∈ taken, b ∈ leader.log.retained) ∧
      ChainedTo (copyRounds leader maxBytes clock n follower).logEndOffset follower.logEndOffset
        taken := by
  induction n with
  | zero => exact ⟨[], nofun, rfl⟩
  | succ n ih =>
    obtain ⟨taken, hmem, hchain⟩ := ih
    obtain ⟨taken', hmem', hchain'⟩ := exists_chained_append
      ((fetchEntriesForReplication leader (copyRounds leader maxBytes clock n follower).logEndOffset
        maxBytes).zipIdx.map fun entry => (entry.1, clock n entry.2))
      (copyRounds leader maxBytes clock n follower)
    refine ⟨taken ++ taken', fun b hb => ?_, chainedTo_append.mpr ⟨_, hchain, hchain'⟩⟩
    rcases mem_append.mp hb with hb | hb
    · exact hmem b hb
    · have hfetched := hmem' b hb
      rw [map_map] at hfetched
      exact mem_retained_of_mem_fetchEntries ((zipIdx_map_fst 0 _) ▸ hfetched)

end Round

/-! ## All rounds -/

structure Copying (c : Crates) (leader follower : PartitionManager) : Prop where
  layout : follower.log.Layout c
  contiguous : ContiguousFrom leader.log follower.logEndOffset

theorem copyRounds_succ (leader : PartitionManager) (maxBytes : Nat) (clock : Nat → Nat → Nat)
    (n : Nat) (follower : PartitionManager) :
    copyRounds leader maxBytes clock (n + 1) follower =
      copyRounds leader maxBytes (fun i => clock (i + 1)) n
        (copyRound leader maxBytes (clock 0) follower) := by
  induction n with
  | zero => rfl
  | succ n ih =>
    rw [copyRounds, ih]
    rfl

/-- The induction is on how far the follower is behind. -/
theorem Copying.catchesUp (hleader : leader.log.Layout c)
    (hfits : ∀ p ∈ leader.log.segments, FitsIndex p) {gap : Nat} (h : Copying c leader follower)
    (hgap : leader.logEndOffset - follower.logEndOffset ≤ gap) : CatchesUp leader follower := by
  intro maxBytes clock
  induction gap generalizing follower clock with
  | zero =>
    have hle : follower.logEndOffset ≤ leader.logEndOffset := h.contiguous.le.1
    exact ⟨0, show follower.logEndOffset = leader.logEndOffset by omega,
      fun i hi => absurd hi (Nat.not_lt_zero i)⟩
  | succ gap ih =>
    by_cases hbehind : follower.logEndOffset = leader.logEndOffset
    · exact ⟨0, hbehind, fun i hi => absurd hi (Nat.not_lt_zero i)⟩
    · obtain ⟨hlayout, hcontiguous, hlt, hgrows⟩ :=
        copyRound_spec hleader hfits h.layout h.contiguous hbehind
      obtain ⟨n, hend, hrounds⟩ := ih ⟨hlayout, hcontiguous⟩ (by omega) (fun i => clock (i + 1))
      refine ⟨n + 1, by rw [copyRounds_succ, hend], fun i hi => ?_⟩
      cases i with
      | zero => exact hgrows
      | succ i =>
        rw [copyRounds_succ, copyRounds_succ leader maxBytes clock i]
        exact hrounds i (by omega)

theorem contiguousFrom_of_catchesUp (hleader : leader.log.Layout c) (h : CatchesUp leader follower)
    :
    ContiguousFrom leader.log follower.logEndOffset := by
  obtain ⟨n, hend, -⟩ := h 0 fun _ _ => 0
  obtain ⟨taken, hmem, hchain⟩ := exists_chained_copyRounds leader 0 (fun _ _ => 0) n follower
  rw [hend] at hchain
  exact contiguousFrom_of_chained hleader hmem hchain

/-- A follower of any leader log that the operations can build catches up exactly when the log has
no gap from the follower's log end on. -/
theorem catchesUp_iff_contiguous (hc : c.Lawful) (config : EngineConfig) (now : Nat)
    {ops : List Op} (hops : Run.Guarded (step c) (StoresInRange c) (create config now) ops)
    {leader follower : PartitionManager}
    (hleader : leader.log = Run.run (step c) (create config now) ops)
    (hfits : ∀ p ∈ leader.log.segments, FitsIndex p)
    (hfollower : IsCopyOf c (history c (create config now) ops) follower) :
    CatchesUp leader follower ↔ ContiguousFrom leader.log follower.logEndOffset := by
  have hlayout : leader.log.Layout c := hleader ▸ (layout_run hc config now hops).run
  exact ⟨contiguousFrom_of_catchesUp hlayout, fun hcontiguous =>
    Copying.catchesUp hlayout hfits ⟨hfollower.layout, hcontiguous⟩ (Nat.le_refl _)⟩

/-! ## A compacted leader

The closed segment had the offsets 0, 1 and 2.  The record at 1 has a later version in the
active segment, so compaction drops it. -/

def compactedOps : List Op :=
  [.append (.keyed 1 (some 10)) 0 0, .append (.keyed 2 (some 20)) 0 0,
    .append (.keyed 3 (some 30)) 0 0, .rotate 0, .append (.keyed 2 (some 21)) 0 0, .compact 0]

def compactedLeader : PartitionManager :=
  { PartitionManager.create .plain .syncEveryBatch 0 with
    log := Run.run (step .storing) (create .plain 0) compactedOps }

def compactedHistory : List RecordBatch := history .storing (create .plain 0) compactedOps

/-- A follower of the leader at its first appends. -/
def copyOf (n : Nat) : PartitionManager :=
  { PartitionManager.create .plain .syncEveryBatch 0 with
    log := Run.run (step .storing) (create .plain 0) (compactedOps.take n) }

theorem storesInRange_compactedOps :
    Run.Guarded (step .storing) (StoresInRange .storing) (create .plain 0) compactedOps := by
  exact ⟨.of_one ⟨0, 0, some [1], some [10]⟩ rfl rfl, .of_one ⟨1, 0, some [2], some [20]⟩ rfl rfl,
    .of_one ⟨2, 0, some [3], some [30]⟩ rfl rfl, trivial,
    .of_one ⟨3, 0, some [2], some [21]⟩ rfl rfl, trivial, trivial⟩

theorem layout_compactedLeader : compactedLeader.log.Layout .storing :=
  (layout_run Crates.storing_lawful .plain 0 storesInRange_compactedOps).run

/-- A follower that is past the gap copies the rest. -/
theorem catchesUp_compactedLeader : CatchesUp compactedLeader (copyOf 3) := by
  have hops := storesInRange_compactedOps
  have hcopy : Run.Guarded (step .storing) (StoresInRange .storing) (create .plain 0)
      (compactedOps.take 3) := ⟨hops.1, hops.2.1, hops.2.2.1, trivial⟩
  refine (catchesUp_iff_contiguous Crates.storing_lawful .plain 0 hops rfl ?_
    ⟨(layout_run Crates.storing_lawful .plain 0 hcopy).run, ?_, ?_⟩).mpr ?_
  · unfold FitsIndex
    decide +kernel
  all_goals decide +kernel

/-- A follower that has offset 0 asks for offset 1 for ever: what comes back starts at 2. -/
theorem not_catchesUp_compactedLeader :
    IsCopyOf .storing compactedHistory (copyOf 1) ∧ ¬ CatchesUp compactedLeader (copyOf 1) := by
  have hcopy : Run.Guarded (step .storing) (StoresInRange .storing) (create .plain 0)
      (compactedOps.take 1) := ⟨storesInRange_compactedOps.1, trivial⟩
  refine ⟨⟨(layout_run Crates.storing_lawful .plain 0 hcopy).run, by decide +kernel,
    by decide +kernel⟩, fun h => ?_⟩
  exact absurd (contiguousFrom_of_catchesUp layout_compactedLeader h) (by decide +kernel)

end Bifrox.Replication

/-
A compaction pass with a file operation that fails (`SegmentManager::compact_segments`), and one
that a crash cuts off (`recover_interrupted_compaction`).

The new files of a segment are written while it is still in memory.  It is taken out before they are
put in the place of the old ones, and comes back when they are open.
-/
import Mathlib.Tactic.IntervalCases
import Bifrox.Segment.CompactedRecords

namespace Bifrox.Segment

open List Protocol SegmentManager

/-- What fails with a segment.  A file that cannot be removed (`let _ = fs::remove_file`) is passed
over. -/
inductive Stage where
  | reading
  | writing
  | swapping
  | removing
deriving DecidableEq

/-- The segments in memory when the loop ends, the base offsets whose files were unlinked, and
whether it has failed. -/
def compactLoopFaulty (c : Crates) (config : EngineConfig) (keep : Record → Bool)
    (fault : SegmentPair → Option Stage) :
    (budget : Nat) → List SegmentPair → List SegmentPair × List Nat × Bool
  | _, [] => ([], [], false)
  | 0, pairs => (pairs, [], false)
  | budget + 1, p :: rest =>
    if fault p = some .reading then (p :: rest, [], true)
    else if isRewritten c config keep p then
      let kept := keptEntries c keep p.log
      let (pairs, unlinked, failed) := compactLoopFaulty c config keep fault budget rest
      -- a segment of which nothing is left is unlinked, whatever comes of that
      if kept = [] then (pairs, p.baseOffset :: unlinked, failed)
      else
        match fault p with
        | some .writing => (p :: rest, [], true)
        | some .swapping => (rest, [], true)
        | _ => (rewritePair config p kept :: pairs, unlinked, failed)
    else
      let (pairs, unlinked, failed) := compactLoopFaulty c config keep fault (budget + 1) rest
      (p :: pairs, unlinked, failed)

/-- The pass, which first reads all records (`scanFails`). -/
def SegmentManager.compactSegmentsFaulty (c : Crates) (s : SegmentManager) (now : Nat)
    (scanFails : Bool) (fault : SegmentPair → Option Stage) : SegmentManager × Bool :=
  if s.historical = [] then (s, false)
  else if scanFails then (s, true)
  else if (s.allRecords c).all (fun r => r.dedupKey.isNone) then (s, false)
  else
    let (pairs, unlinked, failed) :=
      compactLoopFaulty c s.config (s.keeps c now) fault maxSegmentsCompactedPerCall s.historical
    ({ s with historical := pairs }.unlinkBases unlinked, failed)

/-- The segments that the loop gets to if nothing fails. -/
def visited (c : Crates) (config : EngineConfig) (keep : Record → Bool) :
    (budget : Nat) → List SegmentPair → List SegmentPair
  | _, [] => []
  | 0, _ => []
  | budget + 1, p :: rest =>
    p :: visited c config keep (if isRewritten c config keep p then budget else budget + 1) rest

/-- A file operation on the segment is made and fails. -/
def Hits (c : Crates) (config : EngineConfig) (keep : Record → Bool)
    (fault : SegmentPair → Option Stage) (p : SegmentPair) : Prop :=
  fault p = some .reading ∨ isRewritten c config keep p = true ∧ (fault p = some .removing ∨
    keptEntries c keep p.log ≠ [] ∧ (fault p = some .writing ∨ fault p = some .swapping))

def SegmentManager.MeetsFault (c : Crates) (s : SegmentManager) (now : Nat) (scanFails : Bool)
    (fault : SegmentPair → Option Stage) : Prop :=
  s.historical ≠ [] ∧ (scanFails = true ∨
    (s.allRecords c).all (fun r => r.dedupKey.isNone) = false ∧
      ∃ p ∈ visited c s.config (s.keeps c now) maxSegmentsCompactedPerCall s.historical,
        Hits c s.config (s.keeps c now) fault p)

variable {c : Crates} {config : EngineConfig} {keep : Record → Bool} {ps : List SegmentPair}
  {fault : SegmentPair → Option Stage}

theorem compactLoopFaulty_failed (hfault : ∀ p, fault p ≠ some .removing) {budget : Nat}
    {p : SegmentPair} (hp : p ∈ visited c config keep budget ps)
    (hhits : Hits c config keep fault p) :
    (compactLoopFaulty c config keep fault budget ps).2.2 = true := by
  induction ps generalizing budget with
  | nil => cases budget <;> cases hp
  | cons q rest ih =>
    cases budget with
    | zero => cases hp
    | succ budget =>
      rw [visited, mem_cons] at hp
      rw [compactLoopFaulty]
      split
      · rfl
      · next hread =>
        split
        · next hrw =>
          rw [if_pos hrw] at hp
          have hrest : p ≠ q → (compactLoopFaulty c config keep fault budget rest).2.2 = true :=
            fun hne => ih (hp.resolve_left hne)
          simp only
          split
          · next hnil => exact hrest fun heq => by simp_all [Hits]
          · split
            · rfl
            · rfl
            · exact hrest fun heq => by simp_all [Hits]
        · next hrw =>
          rw [if_neg hrw] at hp
          exact ih (hp.resolve_left fun heq => by simp_all [Hits])

theorem append_mono {a a' b b' : List Record} (ha : a ⊆ a') (hb : b ⊆ b') : a ++ b ⊆ a' ++ b' :=
  append_subset.mpr ⟨subset_append_of_subset_left _ ha, subset_append_of_subset_right _ hb⟩

theorem keptEntries_subset (hc : c.Lawful) (hkeep : KeepsControl keep) (log : List RecordBatch) :
    recordsFromEntries c (keptEntries c keep log) ⊆ recordsFromEntries c log := by
  intro r hr
  obtain ⟨b', hb', hr⟩ := mem_recordsFromEntries.mp hr
  obtain ⟨b, hb, hentry⟩ := mem_filterMap.mp hb'
  refine mem_recordsFromEntries.mpr ⟨b, hb, ?_⟩
  have hmem : r ∈ recordsFromEntries c (compactEntry c keep b).1.toList := by
    simpa [hentry, recordsFromEntries] using hr
  rcases recordsFromEntries_compactEntry hc hkeep b with heq | ⟨hnil, -⟩
  · rw [heq] at hmem
    exact mem_of_mem_filter hmem
  · simp [hnil] at hmem

theorem compactLoop_subset (hc : c.Lawful) (hkeep : KeepsControl keep) (budget : Nat) :
    pairRecords c (compactLoop c config keep budget ps).1 ⊆ pairRecords c ps := by
  induction ps generalizing budget with
  | nil => simp [compactLoop]
  | cons p rest ih =>
    cases budget with
    | zero => exact Subset.refl _
    | succ budget =>
      rw [compactLoop_succ_cons, pairRecords_cons]
      split
      · split
        · exact subset_append_of_subset_right _ (ih budget)
        · rw [pairRecords_cons]
          exact append_mono (keptEntries_subset hc hkeep p.log) (ih budget)
      · rw [pairRecords_cons]
        exact append_mono (Subset.refl _) (ih (budget + 1))

theorem compactLoop_subset_faulty (hc : c.Lawful) (hkeep : KeepsControl keep)
    (hfault : ∀ p, fault p ≠ some .swapping) (budget : Nat) :
    pairRecords c (compactLoop c config keep budget ps).1 ⊆
      pairRecords c (compactLoopFaulty c config keep fault budget ps).1 := by
  induction ps generalizing budget with
  | nil => simp [compactLoop]
  | cons p rest ih =>
    cases budget with
    | zero => exact Subset.refl _
    | succ budget =>
      have hsub : pairRecords c (compactLoop c config keep (budget + 1) (p :: rest)).1 ⊆ _ :=
        compactLoop_subset hc hkeep (budget + 1)
      rw [compactLoopFaulty]
      split
      · exact hsub
      split
      · simp only
        rw [compactLoop_succ_cons, if_pos ‹_›] at hsub ⊢
        split
        · exact ih budget
        · rw [if_neg ‹_›] at hsub
          split
          · exact hsub
          · next h => exact absurd h (hfault p)
          · simp only [pairRecords_cons]
            exact append_mono (Subset.refl _) (ih budget)
      · rw [compactLoop_succ_cons, if_neg ‹_›]
        simp only [pairRecords_cons]
        exact append_mono (Subset.refl _) (ih (budget + 1))

theorem compactSegments_subset_faulty (hc : c.Lawful) (s : SegmentManager) (now : Nat)
    (scanFails : Bool) (hfault : ∀ p, fault p ≠ some .swapping) :
    (s.compactSegments c now).1.allRecords c ⊆
      (s.compactSegmentsFaulty c now scanFails fault).1.allRecords c := by
  rw [compactSegments, compactSegmentsFaulty]
  split
  · exact Subset.refl _
  cases scanFails with
  | true =>
    rw [if_pos rfl]
    split
    · exact Subset.refl _
    · simp only [allRecords_unlinkBases]
      simp only [allRecords_eq, segments, pairRecords_append]
      exact append_mono (compactLoop_subset hc survives_keepsControl _) (Subset.refl _)
  | false =>
    rw [if_neg Bool.false_ne_true]
    split
    · exact Subset.refl _
    · simp only [allRecords_unlinkBases]
      simp only [allRecords_eq, segments, pairRecords_append]
      exact append_mono (compactLoop_subset_faulty hc survives_keepsControl hfault _)
        (Subset.refl _)

/-- A pass in which neither the removal of a file nor the swap of a segment fails returns an error
if anything else does, and leaves in memory all that a pass leaves. -/
theorem failsSafely (hc : c.Lawful) (s : SegmentManager) (now : Nat) (scanFails : Bool)
    (fault : SegmentPair → Option Stage) (hremoving : ∀ p, fault p ≠ some .removing)
    (hswapping : ∀ p, fault p ≠ some .swapping) :
    (s.MeetsFault c now scanFails fault →
      (s.compactSegmentsFaulty c now scanFails fault).2 = true) ∧
    (s.compactSegments c now).1.allRecords c ⊆
      (s.compactSegmentsFaulty c now scanFails fault).1.allRecords c := by
  refine ⟨?_, compactSegments_subset_faulty hc s now scanFails hswapping⟩
  rintro ⟨hclosed, hmet⟩
  rw [compactSegmentsFaulty, if_neg hclosed]
  split
  · rfl
  · next hscan =>
    obtain ⟨hkeyed, p, hp, hhits⟩ := hmet.resolve_left hscan
    rw [hkeyed, if_neg Bool.false_ne_true]
    exact compactLoopFaulty_failed hremoving hp hhits

/-- A key is written twice, and another one in between. -/
def writtenTwice : SegmentManager :=
  Run.run (step .storing) (create .plain 0)
    [.append (.keyed 1 (some 10)) 0 0, .append (.keyed 2 (some 20)) 0 0, .rotate 0,
      .append (.keyed 1 (some 30)) 0 0]

theorem failsSafely_writtenTwice :
    let failed := writtenTwice.compactSegmentsFaulty .storing 0 false fun _ => some .writing
    failed.2 = true ∧
      (writtenTwice.compactSegments .storing 0).1.allRecords .storing ⊆
        failed.1.allRecords .storing := by
  have hsafe := failsSafely Crates.storing_lawful writtenTwice 0 false (fun _ => some .writing)
    (fun _ => by decide) (fun _ => by decide)
  refine ⟨hsafe.1 ?_, hsafe.2⟩
  unfold MeetsFault Hits
  decide +kernel

/-- The segment is gone with the record of the other key.  A file that cannot be removed is not
reported. -/
theorem swapping_writtenTwice :
    (writtenTwice.compactSegmentsFaulty .storing 0 false (fun _ => some .swapping)).2 = true ∧
      (∃ r ∈ (writtenTwice.compactSegments .storing 0).1.allRecords .storing,
        r ∈ writtenTwice.allRecords .storing ∧
        r ∉ (writtenTwice.compactSegmentsFaulty .storing 0 false
          (fun _ => some .swapping)).1.allRecords .storing) ∧
      writtenTwice.MeetsFault .storing 0 false (fun _ => some .removing) ∧
      (writtenTwice.compactSegmentsFaulty .storing 0 false (fun _ => some .removing)).2 =
        false := by
  unfold MeetsFault Hits
  decide +kernel

/-! ## A crash while the files are swapped

The new files have been written under their temporary names.  The old ones are put aside, the new
ones take their names, and then the old ones are unlinked. -/

/-- One file of a segment, the backup `.deleted` of it and the new file `.compact`. -/
structure Slot (α : Type) where
  live : Option α
  deleted : Option α
  compact : Option α

namespace Slot

variable {α : Type}

def removeDeleted (s : Slot α) : Slot α := { s with deleted := none }

/-- A file that does not exist is not put aside. -/
def putAside (s : Slot α) : Slot α :=
  if s.live.isSome then { s with live := none, deleted := s.live } else s

def install (s : Slot α) : Slot α :=
  if s.compact.isSome then { s with live := s.compact, compact := none } else s

def isRestored (s : Slot α) : Bool := s.live.isNone && s.deleted.isSome

def recover (s : Slot α) : Slot α :=
  { live := s.live <|> s.deleted, deleted := none, compact := none }

theorem recover_recover (s : Slot α) : s.recover.recover = s.recover := by
  simp [recover]

theorem isRestored_recover (s : Slot α) : s.recover.isRestored = false := by
  simp [recover, isRestored]

end Slot

/-- The files of a segment.  All of them have one marker, which has the size of a log that was
closed. -/
structure SegmentFiles where
  log : Slot (List RecordBatch)
  index : Slot (List IndexEntry)
  timeIndex : Slot (List TimeIndexEntry)
  txnIndex : Slot (List TxnIndexEntry)
  clean : Option Nat

namespace SegmentFiles

def removeCleanMarker (s : SegmentFiles) : SegmentFiles := { s with clean := none }

/-- Do the same with each of the four files. -/
def onEach (ops : List (∀ {α : Type}, Slot α → Slot α)) : List (SegmentFiles → SegmentFiles) :=
  ops.map (fun op s => { s with log := op s.log }) ++
    ops.map (fun op s => { s with index := op s.index }) ++
    ops.map (fun op s => { s with timeIndex := op s.timeIndex }) ++
    ops.map (fun op s => { s with txnIndex := op s.txnIndex })

def swapOps : List (SegmentFiles → SegmentFiles) :=
  onEach [Slot.removeDeleted, Slot.putAside] ++ [removeCleanMarker] ++ onEach [Slot.install] ++
    onEach [Slot.removeDeleted]

def beforeSwap (p p' : SegmentPair) (clean : Option Nat) : SegmentFiles :=
  { log := ⟨some p.log, none, some p'.log⟩
    index := ⟨some p.index, none, some p'.index⟩
    timeIndex := ⟨some p.timeIndex, none, some p'.timeIndex⟩
    txnIndex := ⟨some p.txnIndex, none, some p'.txnIndex⟩
    clean }

/-- `recover_interrupted_compaction`, for the files of one segment. -/
def recover (s : SegmentFiles) : SegmentFiles :=
  { log := s.log.recover
    index := s.index.recover
    timeIndex := s.timeIndex.recover
    txnIndex := s.txnIndex.recover
    clean := if s.log.isRestored || s.index.isRestored || s.timeIndex.isRestored ||
      s.txnIndex.isRestored then none else s.clean }

/-- `SegmentManager::open` on a closed segment, which is found by its log.  The index is kept if
the marker has the size of the log and the entries after the last one in the index can be read. -/
def openPair (interval : Nat) (tailVerifies : List RecordBatch → List IndexEntry → Bool)
    (baseOffset : Nat) (s : SegmentFiles) : Option SegmentPair :=
  s.log.live.map fun log =>
    let index := s.index.live.getD []
    { baseOffset, log
      index := if s.clean = some (sizeOf log) ∧ tailVerifies log index then index
        else rebuildIndex baseOffset interval log
      timeIndex := s.timeIndex.live.getD []
      txnIndex := s.txnIndex.live.getD []
      linked := true }

theorem recover_recover (s : SegmentFiles) : s.recover.recover = s.recover := by
  simp [recover, Slot.recover_recover, Slot.isRestored_recover]

/-- The segment is opened with its old or its new entries, an index of them and the same aborted
ranges, and another recovery changes nothing. -/
def Resolves (p p' : SegmentPair) (interval : Nat)
    (tailVerifies : List RecordBatch → List IndexEntry → Bool) (s : SegmentFiles) : Prop :=
  (∃ q, s.openPair interval tailVerifies p.baseOffset = some q ∧
    (q.log = p.log ∨ q.log = p'.log) ∧ IndexSound p.baseOffset q.log q.index ∧
    q.txnIndex = p.txnIndex) ∧ s.recover = s

variable (config : EngineConfig) (p : SegmentPair) (kept : List RecordBatch) (clean : Option Nat)
  (k : Nat)

/-- The files after the first `k` operations and a recovery. -/
def recoveredAfter : SegmentFiles :=
  (Run.run (fun s op => op s) (beforeSwap p (rewritePair config p kept) clean)
    (swapOps.take k)).recover

theorem recoveredAfter_cases :
    let s := recoveredAfter config p kept clean k
    (s.log.live = some p.log ∧ s.index.live = some p.index ∨
      s.log.live = some kept ∧ s.clean = none) ∧ s.txnIndex.live = some p.txnIndex := by
  -- the marker is gone before the new log has its name
  obtain hk | hk := le_or_gt k 17
  · interval_cases k
    all_goals first
      | exact ⟨.inl ⟨rfl, rfl⟩, rfl⟩
      | exact ⟨.inr ⟨rfl, rfl⟩, rfl⟩
  · rw [recoveredAfter, take_of_length_le hk.le]
    exact ⟨.inr ⟨rfl, rfl⟩, rfl⟩

/-- Wherever a crash cuts off the swap of a segment, its log is the old or the new one. -/
theorem resolves_recoveredAfter (hp : IndexSound p.baseOffset p.log p.index)
    (tailVerifies : List RecordBatch → List IndexEntry → Bool) :
    Resolves p (rewritePair config p kept) config.indexIntervalBytes tailVerifies
      (recoveredAfter config p kept clean k) := by
  refine ⟨?_, recover_recover _⟩
  obtain ⟨⟨hlog, hindex⟩ | ⟨hlog, hclean⟩, htxn⟩ := recoveredAfter_cases config p kept clean k
  · rw [openPair, hlog, htxn, hindex]
    refine ⟨_, rfl, .inl rfl, ?_, rfl⟩
    dsimp only
    split
    · exact hp
    · exact rebuildIndex_sound _ _ _
  · rw [openPair, hlog, htxn, hclean]
    exact ⟨_, rfl, .inr rfl, rebuildIndex_sound _ _ _, rfl⟩

/-- The new log has its name, and the old index is restored. -/
theorem resolves_oneInstalled :
    let p := rewritePair .plain (.fresh 0) [.keyed 1 (some 10), .keyed 2 none]
    Resolves p (rewritePair .plain p [.keyed 2 none]) 4096 (fun _ _ => true)
      (recoveredAfter .plain p [.keyed 2 none] none 10) :=
  resolves_recoveredAfter _ _ _ _ _ (rebuildIndex_sound 0 4096 _) _

end SegmentFiles

end Bifrox.Segment

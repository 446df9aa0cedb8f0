/-
Aborted ranges under log maintenance and compaction.

An aborted range is stored in the transaction index of the segment that holds its first offset,
and goes when that segment goes.
-/
import Bifrox.Segment.KeyedView

namespace Bifrox.Segment

open Run List Protocol BigEndian SegmentManager
open LastWriter (Prunes latest_of_prunes latest_eq_some_iff)

/-! ## The segments an operation leaves -/

/-- The segments, as they are before the operation, that it does not remove.  A compaction pass
removes those that it rewrites and in which it keeps nothing. -/
def leftBy (c : Crates) (s : SegmentManager) : Op → List SegmentPair
  | .deleteRetention now mtime =>
    (retentionLoop s.config now mtime s.active.physicalSize [] s.historical).1 ++ [s.active]
  | .trimBefore offset => (trimLoop offset s.active.baseOffset s.historical).1 ++ [s.active]
  | .compact now =>
    (s.touchedBy c now).filter (fun p => keptEntries c (s.keeps c now) p.log ≠ []) ++
      s.untouchedBy c now
  | .reopen _ => onDisk s.segments
  | _ => s.segments

def Op.isUpkeep : Op → Bool
  | .deleteRetention .. | .trimBefore _ | .compact _ | .reopen _ => true
  | _ => false

/-! ## The ranges that are left -/

def ranges (ps : List SegmentPair) : List TxnIndexEntry := ps.flatMap SegmentPair.txnIndex

theorem isAborted_ranges (ps : List SegmentPair) (offset : Nat) :
    isAborted (ranges ps) offset = ps.any fun p => isAborted p.txnIndex offset := any_flatMap

theorem isOffsetAborted_eq (s : SegmentManager) (offset : Nat) :
    s.isOffsetAborted offset = isAborted (ranges s.segments) offset := by
  rw [isOffsetAborted, isAborted_ranges, segments, any_append, any_cons, any_nil, Bool.or_false,
    Bool.or_comm]

theorem isAborted_ranges_iff {ps : List SegmentPair} {offset : Nat} :
    isAborted (ranges ps) offset = true ↔ ∃ p ∈ ps, isAborted p.txnIndex offset = true := by
  rw [isAborted_ranges, any_eq_true]

section Upkeep

variable {c : Crates} {s : SegmentManager} {ps ps' qs qs' : List SegmentPair}

theorem recordsOf_compacts (hc : c.Lawful) {keep : Record → Bool} {b b' : RecordBatch}
    (h : Compacts c keep b b') {r : Record} (hr : r ∈ recordsOf c b') :
    ∃ r₀ ∈ recordsOf c b, r₀.offset = r.offset := by
  rcases h with rfl | ⟨rs, hrs, -, rfl⟩
  · exact ⟨r, hr, rfl⟩
  · rw [recordsOf] at hr
    rcases RecordBatch.records_createWithOffsets_or_error hc hrs (survivors_sublist keep b rs)
      with hok | ⟨e, herr⟩
    · rw [rebuild, hok] at hr
      obtain ⟨r', hr', rfl⟩ := mem_map.mp hr
      refine ⟨Record.ofBatchRecord b.isControl r', ?_, rfl⟩
      rw [recordsOf, hrs]
      exact mem_map_of_mem ((survivors_sublist keep b rs).subset hr')
    · rw [rebuild, herr] at hr
      cases hr

/-- `p'` has the ranges of `p`, and records at its offsets only. -/
def StandsFor (c : Crates) (p' p : SegmentPair) : Prop :=
  p'.txnIndex = p.txnIndex ∧ ∀ r ∈ recordsFromEntries c p'.log,
    ∃ r₀ ∈ recordsFromEntries c p.log, r₀.offset = r.offset

theorem StandsFor.refl (c : Crates) (p : SegmentPair) : StandsFor c p p :=
  ⟨rfl, fun r hr => ⟨r, hr, rfl⟩⟩

theorem standsFor_rewritePair (hc : c.Lawful) (config : EngineConfig) (keep : Record → Bool)
    (p : SegmentPair) : StandsFor c (rewritePair config p (keptEntries c keep p.log)) p := by
  refine ⟨rfl, fun r hr => ?_⟩
  obtain ⟨b', hb', hr⟩ := mem_recordsFromEntries.mp hr
  obtain ⟨b, hb, hcompacts⟩ := mem_keptEntries hb'
  obtain ⟨r₀, hr₀, hoff⟩ := recordsOf_compacts hc hcompacts hr
  exact ⟨r₀, mem_recordsFromEntries.mpr ⟨b, hb, hr₀⟩, hoff⟩

structure Corresponds (c : Crates) (ps' ps : List SegmentPair) : Prop where
  source : ∀ p' ∈ ps', ∃ p ∈ ps, StandsFor c p' p
  image : ∀ p ∈ ps, ∃ p' ∈ ps', StandsFor c p' p

theorem Corresponds.refl (c : Crates) (ps : List SegmentPair) : Corresponds c ps ps :=
  ⟨fun p hp => ⟨p, hp, .refl c p⟩, fun p hp => ⟨p, hp, .refl c p⟩⟩

theorem Corresponds.of_perm (h : Corresponds c ps' ps) (hperm : ps.Perm qs) :
    Corresponds c ps' qs :=
  ⟨fun p' hp' => (h.source p' hp').imp fun _ hq => ⟨hperm.mem_iff.mp hq.1, hq.2⟩,
    fun q hq => h.image q (hperm.mem_iff.mpr hq)⟩

theorem Corresponds.append (h : Corresponds c ps' ps) (hq : Corresponds c qs' qs) :
    Corresponds c (ps' ++ qs') (ps ++ qs) where
  source := by
    simp only [mem_append, or_and_right, exists_or]
    exact fun p' hp' => hp'.imp (h.source p') (hq.source p')
  image := by
    simp only [mem_append, or_and_right, exists_or]
    exact fun p hp => hp.imp (h.image p) (hq.image p)

theorem Corresponds.cons {p p' : SegmentPair} (hp : StandsFor c p' p) (h : Corresponds c ps' ps) :
    Corresponds c (p' :: ps') (p :: ps) := by
  have hone : Corresponds c [p'] [p] :=
    ⟨fun _ hq => ⟨p, mem_cons_self, mem_singleton.mp hq ▸ hp⟩,
      fun _ hq => ⟨p', mem_cons_self, mem_singleton.mp hq ▸ hp⟩⟩
  exact hone.append h

theorem Corresponds.map (h : Corresponds c ps' ps) {f : SegmentPair → SegmentPair}
    (hf : ∀ p, (f p).txnIndex = p.txnIndex ∧ (f p).log = p.log) : Corresponds c (ps'.map f) ps := by
  have hstands : ∀ p q, StandsFor c p q → StandsFor c (f p) q := by
    intro p q hpq
    rw [StandsFor, (hf p).1, (hf p).2]
    exact hpq
  refine ⟨forall_mem_map.mpr fun p' hp' => ?_, fun p hp => ?_⟩
  · exact (h.source p' hp').imp fun q hq => ⟨hq.1, hstands p' q hq.2⟩
  · obtain ⟨p', hp', hpp⟩ := h.image p hp
    exact ⟨f p', mem_map_of_mem hp', hstands p' p hpp⟩

theorem Corresponds.unlinkBases {pairs : List SegmentPair} (h : Corresponds c pairs ps)
    (bases : List Nat) :
    Corresponds c ({ s with historical := pairs }.unlinkBases bases).segments
      (ps ++ [s.active]) := by
  rw [segments_unlinkBases]
  refine (h.append (.refl c [s.active])).map fun p => ?_
  exact SegmentPair.unlink_of (P := fun q => q.txnIndex = p.txnIndex ∧ q.log = p.log)
    ⟨rfl, rfl⟩ ⟨rfl, rfl⟩

theorem corresponds_compactLoop (hc : c.Lawful) (config : EngineConfig) (keep : Record → Bool)
    (budget : Nat) (ps : List SegmentPair) :
    Corresponds c (compactLoop c config keep budget ps).1
      ((touched c config keep budget ps).filter (fun p => keptEntries c keep p.log ≠ []) ++
        untouched c config keep budget ps) := by
  induction ps generalizing budget with
  | nil =>
    rw [compactLoop, touched, untouched]
    exact .refl c []
  | cons p rest ih =>
    cases budget with
    | zero => exact .refl c _
    | succ budget =>
      rw [compactLoop_succ_cons, touched, untouched]
      by_cases hrw : isRewritten c config keep p = true
      · rw [if_pos hrw, if_pos hrw, if_pos hrw]
        by_cases hnil : keptEntries c keep p.log = []
        · rw [if_pos hnil, filter_cons_of_neg (by simpa using hnil)]
          exact ih budget
        · rw [if_neg hnil, filter_cons_of_pos (by simpa using hnil), cons_append]
          exact (ih budget).cons (standsFor_rewritePair hc config keep p)
      · rw [if_neg hrw, if_neg hrw, if_neg hrw]
        exact ((ih (budget + 1)).cons (.refl c p)).of_perm perm_middle.symm

/-- Apart from an operation without effect and a restart that finds no file, the segments after it
stand for those that it leaves. -/
theorem corresponds_step (hc : c.Lawful) (s : SegmentManager) {op : Op} (hop : op.isUpkeep) :
    step c s op = s ∨ (step c s op).retained = [] ∧ ranges (step c s op).segments = [] ∨
      Corresponds c (step c s op).segments (leftBy c s op) := by
  cases op with
  | append | appendVerbatim | rotate | appendAbortedTxn => cases hop
  | deleteRetention => exact .inr (.inr (Corresponds.unlinkBases (.refl c _) _))
  | trimBefore => exact .inr (.inr (Corresponds.unlinkBases (.refl c _) _))
  | reopen now =>
    rw [step, reopen, leftBy]
    rcases eq_nil_or_concat' (onDisk s.segments) with hnil | ⟨init, last, hfiles⟩
    · rw [hnil]
      exact .inr (.inl ⟨rfl, rfl⟩)
    · rw [hfiles]
      refine .inr (.inr ?_)
      have hopened : (openDir s.config (init ++ [last]) now).segments = init ++ [{ last with
          index := rebuildIndex last.baseOffset s.config.indexIntervalBytes last.log }] := by
        simp [openDir, segments]
      rw [hopened]
      exact (Corresponds.refl c init).append (.cons (.refl c last) (.refl c []))
  | compact now =>
    rw [step, compactSegments]
    split
    · exact .inl rfl
    · split
      · exact .inl rfl
      · refine .inr (.inr ?_)
        rw [leftBy, untouchedBy, ← append_assoc]
        exact (corresponds_compactLoop hc s.config (s.keeps c now) _ s.historical).unlinkBases _

theorem leftBy_subset (c : Crates) (s : SegmentManager) (op : Op) : leftBy c s op ⊆ s.segments := by
  cases op with
  | append | appendVerbatim | rotate | appendAbortedTxn => exact Subset.refl _
  | deleteRetention now mtime =>
    have hsub := retentionLoop_sublist s.config now mtime s.active.physicalSize [] s.historical
    exact (hsub.append (.refl [s.active])).subset
  | trimBefore offset =>
    have hsub := (trimLoop_suffix offset s.active.baseOffset s.historical).sublist
    exact (hsub.append (.refl [s.active])).subset
  | reopen => exact (onDisk_sublist s.segments).subset
  | compact now =>
    refine append_subset.mpr ⟨fun p hp => ?_, ((untouched_sublist ..).append (.refl _)).subset⟩
    exact mem_append_left _ ((touched_sublist ..).subset (mem_of_mem_filter hp))

theorem isOffsetAborted_of_step (hc : c.Lawful) (op : Op) (hop : op.isUpkeep) {offset : Nat}
    (h : (step c s op).isOffsetAborted offset = true) : s.isOffsetAborted offset = true := by
  rcases corresponds_step hc s hop with hsame | ⟨-, hnone⟩ | hcorresponds
  · rwa [hsame] at h
  · rw [isOffsetAborted_eq, hnone] at h
    cases h
  · rw [isOffsetAborted_eq, isAborted_ranges_iff] at h ⊢
    obtain ⟨p', hp', hcovers⟩ := h
    obtain ⟨p, hp, hstands⟩ := hcorresponds.source p' hp'
    exact ⟨p, leftBy_subset c s op hp, hstands.1 ▸ hcovers⟩

end Upkeep

section Committed

variable {c : Crates} {s : SegmentManager} {now : Nat} {key : Bytes} {r : Record}

def committedRecords (c : Crates) (s : SegmentManager) : List Record :=
  (s.allRecords c).filter (fun r => !s.isOffsetAborted r.offset)

def isExpiredTombstone (config : EngineConfig) (now : Nat) (r : Record) : Bool :=
  match config.deleteRetentionMillis with
  | some deleteRetentionMs => r.value.isNone && now - r.timestamp > deleteRetentionMs
  | none => false

/-- `r` is the committed record of `key` that a pass at time `now` must not
lose. -/
structure IsCommittedLast (c : Crates) (s : SegmentManager) (now : Nat) (key : Bytes)
    (r : Record) : Prop where
  last : lastRecord (committedRecords c s) key = some r
  live : isExpiredTombstone s.config now r = false

/-- After the pass each such record is in the log and outside all ranges. -/
def CommittedKept (c : Crates) (s : SegmentManager) (now : Nat) : Prop :=
  ∀ key r, IsCommittedLast c s now key r → r ∈ (s.compactSegments c now).1.allRecords c ∧
      (s.compactSegments c now).1.isOffsetAborted r.offset = false

/-- Each such record stands in a segment that is not rewritten, or no aborted
record of its key lies above it. -/
def CommittedOnTop (c : Crates) (s : SegmentManager) (now : Nat) : Prop :=
  ∀ key r, IsCommittedLast c s now key r → r ∈ pairRecords c (s.untouchedBy c now) ∨
      ∀ a ∈ s.allRecords c, a.dedupKey = some key → a.offset ≤ r.offset

theorem IsCommittedLast.mem (h : IsCommittedLast c s now key r) :
    r ∈ s.allRecords c ∧ s.isOffsetAborted r.offset = false ∧ r.dedupKey = some key := by
  have hlast := latest_eq_some_iff.mp h.last
  have hmem := mem_filter.mp hlast.mem
  exact ⟨hmem.1, by simpa using hmem.2, hlast.key_eq⟩

theorem IsCommittedLast.lastRecord_eq (h : IsCommittedLast c s now key r)
    (htop : ∀ a ∈ s.allRecords c, a.dedupKey = some key → a.offset ≤ r.offset) :
    lastRecord (s.allRecords c) key = some r := by
  obtain ⟨hmem, hcommitted, hkey⟩ := h.mem
  cases hlast : lastRecord (s.allRecords c) key with
  | none => exact absurd hkey (LastWriter.latest_eq_none_iff.mp hlast r hmem)
  | some r' =>
    have hlatest := latest_eq_some_iff.mp hlast
    have hoff : r'.offset = r.offset :=
      Nat.le_antisymm (htop r' hlatest.mem hlatest.key_eq) (hlatest.rank_le hmem hkey)
    -- the two stand at one offset, so leaving out aborted records keeps both
    have hsame : lastRecord (committedRecords c s) key = some r' := by
      refine latest_of_prunes (Prunes.of_filter (P := fun a => s.isOffsetAborted a.offset = true)
        (fun a _ ha => by simpa using ha)) hlast (fun a ha _ heq => ?_)
      rw [heq, hoff, hcommitted] at ha
      cases ha
    rw [← hsame, h.last]

/-- A pass keeps every committed last record exactly when none that it could
drop lies under an aborted record. -/
theorem committedKept_iff_committedOnTop (hc : c.Lawful) (s : SegmentManager) (now : Nat)
    (hfit : RebuildFits c s now) : CommittedKept c s now ↔ CommittedOnTop c s now := by
  constructor
  · intro hkept key r h
    refine ((mem_compactSegments_iff hc hfit).mp (hkept key r h).1).2.symm.imp id
      (fun hkeep a ha hakey => ?_)
    obtain ⟨hmem, -, hkey⟩ := h.mem
    cases hlast : lastRecord (s.allRecords c) key with
    | none => exact absurd hkey (LastWriter.latest_eq_none_iff.mp hlast r hmem)
    | some =>
      have hlatest := latest_eq_some_iff.mp hlast
      cases hpurged : isPurged s.config (s.allRecords c) now key with
      | true =>
        rw [keeps, survives_of_isPurged hpurged hkey] at hkeep
        cases hkeep
      | false =>
        rw [keeps, survives_of_lastRecord hpurged hlast hkey] at hkeep
        rw [of_decide_eq_true hkeep]
        exact hlatest.rank_le ha hakey
  · intro htop key r h
    obtain ⟨hmem, hcommitted, hkey⟩ := h.mem
    refine ⟨(mem_compactSegments_iff hc hfit).mpr ⟨hmem, ?_⟩, ?_⟩
    · refine (htop key r h).symm.imp (fun hle => ?_) id
      have hlast := h.lastRecord_eq hle
      have hpurged : isPurged s.config (s.allRecords c) now key = false := by
        rw [← h.live, isPurged, isExpiredTombstone, latestOf_eq, hlast, Option.map_some]
        cases s.config.deleteRetentionMillis <;> rfl
      rw [keeps, survives_of_lastRecord hpurged hlast hkey, decide_eq_true rfl]
    · cases hverdict : (s.compactSegments c now).1.isOffsetAborted r.offset with
      | false => rfl
      | true =>
        rw [isOffsetAborted_of_step hc (.compact now) rfl hverdict] at hcommitted
        cases hcommitted

theorem committedOnTop_of_all (h : (committedRecords c s).all (fun r =>
      r ∈ pairRecords c (s.untouchedBy c now) ∨
        ∀ a ∈ s.allRecords c, a.dedupKey = r.dedupKey → lastRecord (committedRecords c s)
          (a.dedupKey.getD []) = some r → a.offset ≤ r.offset) = true) :
    CommittedOnTop c s now := by
  intro key r hlast
  have hlatest := latest_eq_some_iff.mp hlast.last
  refine (of_decide_eq_true (all_eq_true.mp h r hlatest.mem)).imp id (fun hle a ha hakey => ?_)
  refine hle a ha (hakey.trans hlatest.key_eq.symm) ?_
  rw [hakey]
  exact hlast.last

def abortedBelow : SegmentManager :=
  run (step .storing) (create .plain 0)
    [.append (.keyed 1 (some 10)) 0 0, .append (.keyed 1 (some 11)) 0 0, .rotate 0,
      .append (.keyed 1 (some 12)) 0 0, .appendAbortedTxn 7 1 1]

theorem committedKept_abortedBelow : CommittedKept .storing abortedBelow 0 := by
  refine (committedKept_iff_committedOnTop Crates.storing_lawful abortedBelow 0
    (rebuildFits_of_all ?_)).mpr (committedOnTop_of_all ?_)
  all_goals decide +kernel

def abortedAbove : SegmentManager :=
  run (step .storing) (create .plain 0)
    [.append (.keyed 1 (some 10)) 0 0, .append (.keyed 1 (some 11)) 0 0,
      .appendAbortedTxn 7 1 1, .rotate 0, .append (.keyed 2 (some 20)) 0 0]

/-- The pass keeps the aborted record and drops the committed one. -/
theorem not_committedKept_abortedAbove : ¬ CommittedKept .storing abortedAbove 0 := by
  intro h
  have hkept := (h [1] ⟨0, 0, some [1], some [10], false⟩ ⟨by decide +kernel, by decide +kernel⟩).1
  revert hkept
  decide +kernel

end Committed

end Bifrox.Segment

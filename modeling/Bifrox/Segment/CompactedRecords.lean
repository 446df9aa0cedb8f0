/-
What a compaction pass does to the records of a log: it drops a record only if the record fails
the survival test and its segment is one of those the pass rewrites.
-/
import Bifrox.Lib.LastWriter
import Bifrox.Segment.Layout

namespace Bifrox.Segment

open List Protocol LastWriter Prunes

/-! ## One segment -/

variable (c : Crates)

def pairRecords (ps : List SegmentPair) : List Record :=
  recordsFromEntries c (ps.flatMap SegmentPair.log)

@[simp] theorem pairRecords_nil : pairRecords c [] = [] := rfl

@[simp] theorem pairRecords_cons (p : SegmentPair) (ps : List SegmentPair) :
    pairRecords c (p :: ps) = recordsFromEntries c p.log ++ pairRecords c ps := by
  rw [pairRecords, flatMap_cons, recordsFromEntries_append]
  rfl

@[simp] theorem pairRecords_append (ps ps' : List SegmentPair) :
    pairRecords c (ps ++ ps') = pairRecords c ps ++ pairRecords c ps' := by
  rw [pairRecords, flatMap_append, recordsFromEntries_append]
  rfl

theorem mem_pairRecords {c : Crates} {ps : List SegmentPair} {r : Record} :
    r ∈ pairRecords c ps ↔ ∃ p ∈ ps, r ∈ recordsFromEntries c p.log := by
  induction ps with
  | nil => simp
  | cons p ps ih => simp [ih]

theorem allRecords_eq (s : SegmentManager) : s.allRecords c = pairRecords c s.segments := rfl

/-- A batch whose records are kept by filtering, control records always. -/
def KeepsControl (keep : Record → Bool) : Prop := ∀ r : Record, r.isControl = true → keep r = true

theorem survives_keepsControl {config : EngineConfig} {records : List Record} {now : Nat} :
    KeepsControl (survives config records now) := by
  intro r hr
  rw [survives, if_pos hr]

theorem map_survivors {keep : Record → Bool} {b : RecordBatch} {rs : List BatchRecord} :
    (survivors keep b rs).map (Record.ofBatchRecord b.isControl) =
      (rs.map (Record.ofBatchRecord b.isControl)).filter keep := by
  rw [survivors, filter_map]
  rfl

theorem recordsFromEntries_compactEntry {c : Crates} (hc : c.Lawful) {keep : Record → Bool}
    (hkeep : KeepsControl keep) (b : RecordBatch) :
    recordsFromEntries c (compactEntry c keep b).1.toList = (recordsOf c b).filter keep ∨
      recordsFromEntries c (compactEntry c keep b).1.toList = [] ∧ ¬ BatchFits c keep b := by
  rw [compactEntry, recordsOf]
  cases hrs : b.records c with
  | error => simp [recordsFromEntries, recordsOf, hrs]
  | ok rs =>
    simp only
    rw [← map_survivors]
    by_cases hnil : survivors keep b rs = []
    · rw [if_pos hnil, hnil]
      exact .inl rfl
    · rw [if_neg hnil]
      have hsub := survivors_sublist keep b rs
      by_cases hall : (survivors keep b rs).length = rs.length
      · rw [if_pos hall, hsub.eq_of_length hall]
        simp [recordsFromEntries, recordsOf, hrs]
      · rw [if_neg hall]
        by_cases hfit : (rebuild c b (survivors keep b rs)).recordData.length ≤
            maxDecompressedBatchBytes
        swap
        · obtain ⟨e, herror⟩ := RecordBatch.records_of_length_gt (c := c) (Nat.not_le.mp hfit)
          refine .inr ⟨?_, fun h => hfit (h rs hrs)⟩
          simp [recordsFromEntries, recordsOf, herror]
        -- a control batch keeps every record, so it is never rebuilt
        have hcontrol : b.isControl = false := by
          by_contra hne
          rw [Bool.not_eq_false] at hne
          refine hall (congrArg List.length ?_)
          rw [survivors, filter_eq_self]
          exact fun r _ => hkeep _ hne
        have hcontrol' : (rebuild c b (survivors keep b rs)).isControl = false := by
          rw [RecordBatch.isControl]
          exact decide_eq_false (fun h => h RecordBatch.attributesFor_control)
        have hrebuilt := records_rebuild hc hrs hsub hfit
        simp [recordsFromEntries, recordsOf, hrebuilt, hcontrol, hcontrol']

theorem recordsFromEntries_keptEntries {c : Crates} (hc : c.Lawful) {keep : Record → Bool}
    (hkeep : KeepsControl keep) {log : List RecordBatch} (hfit : ∀ b ∈ log, BatchFits c keep b) :
    recordsFromEntries c (keptEntries c keep log) = (recordsFromEntries c log).filter keep := by
  induction log with
  | nil => rfl
  | cons b log ih =>
    have hcons : keptEntries c keep (b :: log) =
        (compactEntry c keep b).1.toList ++ keptEntries c keep log := by
      rw [keptEntries, filterMap_cons]
      cases (compactEntry c keep b).1 with
      | none => rfl
      | some => rfl
    have hb := (recordsFromEntries_compactEntry hc hkeep b).resolve_right
      fun h => h.2 (hfit b (mem_cons_self ..))
    have hlog := ih (fun b' hb' => hfit b' (mem_cons_of_mem _ hb'))
    have hsplit : recordsFromEntries c (b :: log) = recordsOf c b ++ recordsFromEntries c log := rfl
    rw [hcons, hsplit, filter_append, ← hb, ← hlog, recordsFromEntries_append]

/-! ## The segments a pass rewrites -/

/-- The closed segments that a pass with `budget` rewrites left will rewrite. -/
def touched (c : Crates) (config : EngineConfig) (keep : Record → Bool) :
    (budget : Nat) → List SegmentPair → List SegmentPair
  | _, [] => []
  | 0, _ => []
  | budget + 1, p :: rest =>
    if isRewritten c config keep p then p :: touched c config keep budget rest
    else touched c config keep (budget + 1) rest

def untouched (c : Crates) (config : EngineConfig) (keep : Record → Bool) :
    (budget : Nat) → List SegmentPair → List SegmentPair
  | _, [] => []
  | 0, pairs => pairs
  | budget + 1, p :: rest =>
    if isRewritten c config keep p then untouched c config keep budget rest
    else p :: untouched c config keep (budget + 1) rest

namespace SegmentManager

def touchedBy (c : Crates) (s : SegmentManager) (now : Nat) : List SegmentPair :=
  touched c s.config (s.keeps c now) maxSegmentsCompactedPerCall s.historical

/-- The segments a pass does not rewrite; the active one is never rewritten. -/
def untouchedBy (c : Crates) (s : SegmentManager) (now : Nat) : List SegmentPair :=
  untouched c s.config (s.keeps c now) maxSegmentsCompactedPerCall s.historical ++ [s.active]

end SegmentManager

section Loop

variable {c : Crates} {config : EngineConfig} {keep : Record → Bool} {ps : List SegmentPair}

theorem pairRecords_rewrite (hc : c.Lawful) (hkeep : KeepsControl keep) {p : SegmentPair}
    (hfit : ∀ b ∈ p.log, BatchFits c keep b) (rest : List SegmentPair) :
    pairRecords c (if keptEntries c keep p.log = [] then rest
      else rewritePair config p (keptEntries c keep p.log) :: rest) =
      (recordsFromEntries c p.log).filter keep ++ pairRecords c rest := by
  rw [← recordsFromEntries_keptEntries hc hkeep hfit]
  by_cases hnil : keptEntries c keep p.log = []
  · rw [if_pos hnil, hnil]
    rfl
  · rw [if_neg hnil, pairRecords_cons]
    rfl

theorem compactLoop_succ_cons (budget : Nat) (p : SegmentPair) (rest : List SegmentPair) :
    (compactLoop c config keep (budget + 1) (p :: rest)).1 = if isRewritten c config keep p then
        (if keptEntries c keep p.log = [] then (compactLoop c config keep budget rest).1
          else rewritePair config p (keptEntries c keep p.log) ::
            (compactLoop c config keep budget rest).1)
      else p :: (compactLoop c config keep (budget + 1) rest).1 := by
  rw [compactLoop]
  by_cases hrw : isRewritten c config keep p = true
  · rw [if_pos hrw, if_pos hrw]
    by_cases hnil : keptEntries c keep p.log = []
    · simp only [if_pos hnil]
    · simp only [if_neg hnil]
  · rw [if_neg hrw, if_neg hrw]

theorem compactLoop_prunes (hc : c.Lawful) (hkeep : KeepsControl keep) (budget : Nat)
    (hfit : ∀ p ∈ ps, ∀ b ∈ p.log, BatchFits c keep b) :
    Prunes (fun r => keep r = false ∧ r ∈ pairRecords c (touched c config keep budget ps))
      (pairRecords c (compactLoop c config keep budget ps).1) (pairRecords c ps) := by
  induction ps generalizing budget with
  | nil =>
    rw [compactLoop]
    exact .nil
  | cons p rest ih =>
    cases budget with
    | zero => exact refl _ _
    | succ budget =>
      have hrest := fun q hq => hfit q (mem_cons_of_mem p hq)
      rw [compactLoop_succ_cons, touched]
      by_cases hrw : isRewritten c config keep p = true
      · rw [if_pos hrw, if_pos hrw, pairRecords_rewrite hc hkeep (hfit p (mem_cons_self ..))]
        simp only [pairRecords_cons]
        refine append ?_ ?_
        · exact of_filter (fun r hr hno => ⟨hno, mem_append_left _ hr⟩)
        · exact imp (fun r hr => ⟨hr.1, mem_append_right _ hr.2⟩) (ih budget hrest)
      · rw [if_neg hrw, if_neg hrw, pairRecords_cons, pairRecords_cons]
        exact (refl _ _).append (ih (budget + 1) hrest)

theorem filter_compactLoop (hc : c.Lawful) (hkeep : KeepsControl keep) (budget : Nat)
    (hfit : ∀ p ∈ ps, ∀ b ∈ p.log, BatchFits c keep b)
    {q : Record → Bool} (hq : ∀ r, q r = true → keep r = false) :
    (pairRecords c (compactLoop c config keep budget ps).1).filter q =
      (pairRecords c (untouched c config keep budget ps)).filter q := by
  induction ps generalizing budget with
  | nil =>
    rw [compactLoop, untouched]
  | cons p rest ih =>
    cases budget with
    | zero => rfl
    | succ budget =>
      have hrest := fun q hq => hfit q (mem_cons_of_mem p hq)
      have hnone : ((recordsFromEntries c p.log).filter keep).filter q = [] := by
        rw [filter_filter, filter_eq_nil_iff]
        intro r _ hr
        rw [Bool.and_eq_true] at hr
        rw [hq r hr.1] at hr
        exact absurd hr.2 (by decide)
      rw [compactLoop_succ_cons, untouched]
      by_cases hrw : isRewritten c config keep p = true
      · rw [if_pos hrw, if_pos hrw, pairRecords_rewrite hc hkeep (hfit p (mem_cons_self ..)),
          filter_append, hnone, nil_append]
        exact ih budget hrest
      · rw [if_neg hrw, if_neg hrw, pairRecords_cons, pairRecords_cons, filter_append,
          filter_append, ih (budget + 1) hrest]

theorem touched_sublist (budget : Nat) : (touched c config keep budget ps).Sublist ps := by
  fun_induction touched c config keep budget ps with
  | case1 => exact .refl _
  | case2 => exact nil_sublist _
  | case3 budget p rest hrw ih => exact ih.cons_cons p
  | case4 budget p rest hrw ih => exact ih.cons p

theorem untouched_sublist (budget : Nat) : (untouched c config keep budget ps).Sublist ps := by
  fun_induction untouched c config keep budget ps with
  | case1 => exact .refl _
  | case2 => exact .refl _
  | case3 budget p rest hrw ih => exact ih.cons p
  | case4 budget p rest hrw ih => exact ih.cons_cons p

end Loop

/-! ## A whole pass -/

namespace SegmentManager

variable {c : Crates} {s : SegmentManager}

theorem allRecords_unlinkBases {bases : List Nat} :
    (s.unlinkBases bases).allRecords c = s.allRecords c := by
  have hlog : ∀ p : SegmentPair, (p.unlink bases).log = p.log :=
    fun p => SegmentPair.unlink_of (P := fun q => q.log = p.log) rfl rfl
  rw [allRecords_eq, segments_unlinkBases, pairRecords, flatMap_map, allRecords_eq, pairRecords]
  simp only [hlog]

variable {now : Nat} {r : Record}

theorem historical_fits (h : RebuildFits c s now) :
    ∀ p ∈ s.historical, ∀ b ∈ p.log, BatchFits c (s.keeps c now) b :=
  fun p hp b hb => h b (mem_retained.mpr ⟨p, mem_segments.mpr (.inl hp), hb⟩)

theorem keeps_of_dedupKey_none (c : Crates) (s : SegmentManager) (now : Nat)
    (h : r.dedupKey = none) : s.keeps c now r = true := by
  rw [keeps, survives]
  split
  · rfl
  · rename_i hcontrol
    rw [Record.dedupKey, if_neg hcontrol] at h
    rw [h]

theorem compactSegments_prunes (hc : c.Lawful) (hfit : RebuildFits c s now) :
    Prunes (fun r => s.keeps c now r = false ∧ r ∈ pairRecords c (s.touchedBy c now))
      ((s.compactSegments c now).1.allRecords c) (s.allRecords c) := by
  rw [compactSegments]
  split
  · exact refl _ _
  · split
    · exact refl _ _
    · simp only [allRecords_unlinkBases]
      rw [allRecords_eq, allRecords_eq, segments, segments, pairRecords_append, pairRecords_append]
      exact (compactLoop_prunes hc survives_keepsControl _ (historical_fits hfit)).append (refl _ _)

theorem mem_of_mem_untouchedBy (hr : r ∈ pairRecords c (s.untouchedBy c now)) :
    r ∈ s.allRecords c := by
  rw [allRecords_eq, segments]
  rw [untouchedBy] at hr
  rw [mem_pairRecords] at hr ⊢
  obtain ⟨p, hp, hr⟩ := hr
  refine ⟨p, ?_, hr⟩
  exact ((untouched_sublist ..).append (.refl _)).subset hp

/-- Of the records that fail the test a pass leaves exactly those in the
segments it does not rewrite. -/
theorem filter_compactSegments (hc : c.Lawful) (hfit : RebuildFits c s now) {q : Record → Bool}
    (hq : ∀ r, q r = true → s.keeps c now r = false) :
    ((s.compactSegments c now).1.allRecords c).filter q =
      (pairRecords c (s.untouchedBy c now)).filter q := by
  rw [compactSegments]
  split
  · rename_i hnil
    rw [allRecords_eq, segments, untouchedBy, hnil, untouched]
  · split
    · rename_i hkeyless
      have hnone : ∀ r ∈ s.allRecords c, ¬ q r = true := by
        intro r hr hqr
        have hkeep := keeps_of_dedupKey_none c s now
          (Option.isNone_iff_eq_none.mp (all_eq_true.mp hkeyless r hr))
        rw [hq r hqr] at hkeep
        cases hkeep
      rw [filter_eq_nil_iff.mpr hnone,
        filter_eq_nil_iff.mpr (fun r hr => hnone r (mem_of_mem_untouchedBy hr))]
    · simp only [allRecords_unlinkBases]
      rw [allRecords_eq, segments, untouchedBy, pairRecords_append, pairRecords_append,
        filter_append, filter_append]
      exact congrArg (· ++ _)
        (filter_compactLoop hc survives_keepsControl _ (historical_fits hfit) hq)

theorem mem_compactSegments_iff (hc : c.Lawful) (hfit : RebuildFits c s now) :
    r ∈ (s.compactSegments c now).1.allRecords c ↔ r ∈ s.allRecords c ∧
        (s.keeps c now r = true ∨ r ∈ pairRecords c (s.untouchedBy c now)) := by
  have hprunes := compactSegments_prunes hc hfit
  cases hkeep : s.keeps c now r with
  | true =>
    refine ⟨fun hr => ⟨hprunes.sublist.subset hr, .inl rfl⟩, fun hr => ?_⟩
    refine hprunes.mem hr.1 (fun hdrop => ?_)
    rw [hkeep] at hdrop
    cases hdrop.1
  | false =>
    have hfilter := filter_compactSegments hc hfit
      (q := fun r => !s.keeps c now r) (fun r h => by simpa using h)
    have hmem := congrArg (r ∈ ·) hfilter
    simp only [mem_filter, hkeep, Bool.not_false, and_true, eq_iff_iff] at hmem
    rw [hmem]
    exact ⟨fun hr => ⟨mem_of_mem_untouchedBy hr, .inr hr⟩,
      fun hr => hr.2.resolve_left Bool.false_ne_true⟩

end SegmentManager

theorem rebuildFits_of_all {c : Crates} {s : SegmentManager} {now : Nat}
    (h : s.retained.all (fun b => match b.records c with
      | .ok rs => (rebuild c b (survivors (s.keeps c now) b rs)).recordData.length ≤
          maxDecompressedBatchBytes
      | .error _ => true) = true) : RebuildFits c s now := by
  intro b hb rs hrs
  have hfit := all_eq_true.mp h b hb
  rw [hrs] at hfit
  exact of_decide_eq_true hfit

end Bifrox.Segment

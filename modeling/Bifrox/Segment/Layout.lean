/-
The layout of a log: batches lie in offset order inside a segment and across segments, and every
entry of a sparse index stands at a batch boundary.

All maintenance drops some segments and shrinks others in place, which `Shrunk` records.
-/
import Mathlib.Data.List.Forall2
import Mathlib.Data.List.Pairwise
import Bifrox.Lib.Run
import Bifrox.Segment.Retention

namespace Bifrox.Segment

open List Protocol SegmentManager SegmentPair

/-! ## Sizes and positions -/

@[simp] theorem sizeOf_nil : sizeOf [] = 0 := rfl

variable (b : RecordBatch)

variable {log : List RecordBatch}

@[simp] theorem sizeOf_cons : sizeOf (b :: log) = b.encodedSize + sizeOf log := by
  simp [sizeOf]

@[simp] theorem sizeOf_append {log' : List RecordBatch} :
    sizeOf (log ++ log') = sizeOf log + sizeOf log' := by
  simp [sizeOf]

theorem encodedSize_pos : 0 < b.encodedSize := by
  rw [RecordBatch.encodedSize, batchHeaderSize]
  omega

theorem base_le_lastOffset : b.baseOffset ≤ b.lastOffset :=
  Nat.le_add_right _ _

/-! ## The sparse index -/

/-- Every index entry stands at a batch, the first one at the start of the
log. -/
structure IndexSound (base : Nat) (log : List RecordBatch) (index : List IndexEntry) : Prop where
  boundary : ∀ e ∈ index, ∃ pre b post, log = pre ++ b :: post ∧
    e = IndexEntry.at base b.baseOffset (sizeOf pre)
  head : ∀ e, index.head? = some e → e.physicalPosition = 0
  covers : index = [] → log = []

theorem IndexSound.nil (base : Nat) : IndexSound base [] [] :=
  ⟨fun _ he => (not_mem_nil he).elim, fun _ he => (nomatch he), fun _ => rfl⟩

theorem IndexSound.append {base : Nat} {index : List IndexEntry} (h : IndexSound base log index)
    (b : RecordBatch) (indexed : Prop) [Decidable indexed] (hempty : index = [] → indexed) :
    IndexSound base (log ++ [b])
      (if indexed then index ++ [IndexEntry.at base b.baseOffset (sizeOf log)] else index) := by
  have hold : ∀ e ∈ index, ∃ pre b' post, log ++ [b] = pre ++ b' :: post ∧
      e = IndexEntry.at base b'.baseOffset (sizeOf pre) := by
    intro e he
    obtain ⟨pre, b', post, hlog, heq⟩ := h.boundary e he
    exact ⟨pre, b', post ++ [b], by rw [hlog]; simp, heq⟩
  by_cases hi : indexed
  · rw [if_pos hi]
    refine ⟨?_, ?_, ?_⟩
    · intro e he
      rcases mem_append.mp he with hmem | hmem
      · exact hold e hmem
      · exact ⟨log, b, [], rfl, mem_singleton.mp hmem⟩
    · intro e he
      cases index with
      | nil =>
        rw [nil_append, List.head?_cons, Option.some.injEq] at he
        rw [← he, h.covers rfl]
        rfl
      | cons => exact h.head e he
    · intro hnil
      exact absurd hnil (by simp)
  · rw [if_neg hi]
    exact ⟨hold, h.head, fun hnil => absurd (hempty hnil) hi⟩

theorem mem_scanIndex {base interval bytesSince : Nat} {isFirst : Bool}
    {pre rest : List RecordBatch} {e : IndexEntry}
    (h : e ∈ scanIndex base interval (sizeOf pre) bytesSince isFirst rest) :
    ∃ pre' b post, pre ++ rest = pre' ++ b :: post ∧
      e = IndexEntry.at base b.baseOffset (sizeOf pre') := by
  induction rest generalizing pre bytesSince isFirst with
  | nil => exact (not_mem_nil h).elim
  | cons b rest ih =>
    have hpos : sizeOf pre + b.encodedSize = sizeOf (pre ++ [b]) := by simp
    rw [scanIndex, hpos] at h
    by_cases hi : bytesSince ≥ interval ∨ isFirst = true
    · rw [if_pos hi] at h
      rcases mem_cons.mp h with heq | hmem
      · exact ⟨pre, b, rest, rfl, heq⟩
      · rw [append_cons]
        exact ih hmem
    · rw [if_neg hi] at h
      rw [append_cons]
      exact ih h

theorem rebuildIndex_sound (base interval : Nat) (log : List RecordBatch) :
    IndexSound base log (rebuildIndex base interval log) := by
  refine ⟨fun e he => ?_, ?_, ?_⟩
  · have h0 : (0 : Nat) = sizeOf [] := rfl
    rw [rebuildIndex, h0] at he
    exact mem_scanIndex he
  · intro e he
    cases log with
    | nil => cases he
    | cons =>
      rw [rebuildIndex, scanIndex, if_pos (.inr rfl), List.head?_cons, Option.some.injEq] at he
      rw [← he]
      rfl
  · intro hnil
    cases log with
    | nil => rfl
    | cons =>
      rw [rebuildIndex, scanIndex, if_pos (.inr rfl)] at hnil
      cases hnil

/-! ## Segments in order -/

structure SegmentPair.Sound (c : Crates) (p : SegmentPair) : Prop where
  base_le : ∀ b ∈ p.log, p.baseOffset ≤ b.baseOffset
  increasing : p.log.Pairwise (fun b b' => b.lastOffset < b'.baseOffset)
  index : IndexSound p.baseOffset p.log p.index
  inRange : ∀ b ∈ p.log, b.InRange c

structure SegmentPair.Before (p q : SegmentPair) : Prop where
  base_le : p.baseOffset ≤ q.baseOffset
  last_lt : ∀ b ∈ p.log, b.lastOffset < q.baseOffset

structure SegmentManager.Layout (c : Crates) (s : SegmentManager) : Prop where
  sound : ∀ p ∈ s.segments, p.Sound c
  ordered : s.segments.Pairwise SegmentPair.Before
  logEnd : s.highWatermark = s.active.nextOffset

namespace SegmentPair

variable {c : Crates} {p : SegmentPair}

theorem nextOffset_nil (h : p.log = []) : p.nextOffset = p.baseOffset := by
  rw [nextOffset, h]
  rfl

theorem nextOffset_concat {init : List RecordBatch} {last : RecordBatch}
    (h : p.log = init ++ [last]) : p.nextOffset = last.lastOffset + 1 := by
  rw [nextOffset, h, List.getLast?_concat]

theorem Sound.lastOffset_lt (h : p.Sound c) {b : RecordBatch} (hb : b ∈ p.log) :
    b.lastOffset < p.nextOffset := by
  rcases eq_nil_or_concat' p.log with hnil | ⟨init, last, hlog⟩
  · rw [hnil] at hb
    cases hb
  · have hinc := h.increasing
    rw [hlog, pairwise_append] at hinc
    rw [hlog, mem_append, mem_singleton] at hb
    rw [nextOffset_concat hlog]
    rcases hb with hb | rfl
    · have hlt := hinc.2.2 b hb last (mem_singleton_self last)
      have hle := base_le_lastOffset last
      omega
    · omega

/-- A segment ends where it begins only if it is empty. -/
theorem base_le_nextOffset (h : ∀ b ∈ p.log, p.baseOffset ≤ b.baseOffset) :
    p.baseOffset ≤ p.nextOffset ∧ (p.baseOffset = p.nextOffset → p.log = []) := by
  rcases eq_nil_or_concat' p.log with hnil | ⟨init, last, hlog⟩
  · exact ⟨(nextOffset_nil hnil).ge, fun _ => hnil⟩
  · have hbase := h last (by simp [hlog])
    have hle := base_le_lastOffset last
    rw [nextOffset_concat hlog]
    exact ⟨by omega, fun heq => by omega⟩

theorem Sound.fresh (base : Nat) : (fresh base).Sound c :=
  ⟨fun _ hb => (not_mem_nil hb).elim, .nil, IndexSound.nil base, fun _ hb => (not_mem_nil hb).elim⟩

theorem Sound.congr {q : SegmentPair} (h : p.Sound c) (hbase : q.baseOffset = p.baseOffset)
    (hlog : q.log = p.log) (hindex : IndexSound q.baseOffset q.log q.index) : q.Sound c := by
  refine ⟨?_, ?_, hindex, ?_⟩
  · rw [hlog, hbase]
    exact h.base_le
  · rw [hlog]
    exact h.increasing
  · rw [hlog]
    exact h.inRange

end SegmentPair

namespace SegmentManager

variable {c : Crates} {s : SegmentManager}

variable {p : SegmentPair} {b : RecordBatch}

theorem mem_segments : p ∈ s.segments ↔ p ∈ s.historical ∨ p = s.active := by
  simp [segments]

theorem active_mem_segments : s.active ∈ s.segments := mem_segments.mpr (.inr rfl)

theorem mem_retained : b ∈ s.retained ↔ ∃ p ∈ s.segments, b ∈ p.log :=
  mem_flatMap

theorem Layout.before_active (h : s.Layout c) (hp : p ∈ s.historical) : p.Before s.active := by
  have hord := h.ordered
  rw [segments, pairwise_append] at hord
  exact hord.2.2 p hp s.active (mem_singleton_self _)

theorem Layout.active_nil (h : s.Layout c) (hbase : s.active.baseOffset = s.highWatermark) :
    s.active.log = [] :=
  (base_le_nextOffset (h.sound _ active_mem_segments).base_le).2 (hbase.trans h.logEnd)

theorem Layout.active_base_le (h : s.Layout c) : s.active.baseOffset ≤ s.highWatermark := by
  rw [h.logEnd]
  exact (base_le_nextOffset (h.sound _ active_mem_segments).base_le).1

theorem Layout.lastOffset_lt (h : s.Layout c) (hb : b ∈ s.retained) :
    b.lastOffset < s.highWatermark := by
  obtain ⟨p, hp, hbp⟩ := mem_retained.mp hb
  rcases mem_segments.mp hp with hhist | rfl
  · have hlt := (h.before_active hhist).last_lt b hbp
    have hle := h.active_base_le
    omega
  · rw [h.logEnd]
    exact (h.sound _ hp).lastOffset_lt hbp

end SegmentManager

/-! ## Segments that shrink -/

/-- `p'` stands for `p` after maintenance: the same base, and entries of `p`
that are untouched or rebuilt from what `keep` lets through. -/
structure SegmentPair.Shrunk (c : Crates) (keep : Record → Bool) (p' p : SegmentPair) : Prop where
  base_eq : p'.baseOffset = p.baseOffset
  entries : ∀ b' ∈ p'.log, ∃ b ∈ p.log, Compacts c keep b b'
  sound : p.Sound c → p'.Sound c

section Shrunk

variable {c : Crates} {keep : Record → Bool} {p p' q q' : SegmentPair} {log : List RecordBatch}

theorem SegmentPair.Shrunk.refl (c : Crates) (keep : Record → Bool) (p : SegmentPair) :
    p.Shrunk c keep p :=
  ⟨rfl, fun b hb => ⟨b, hb, Compacts.refl c keep b⟩, id⟩

instance : Std.Refl (SegmentPair.Shrunk c keep) := ⟨SegmentPair.Shrunk.refl c keep⟩

theorem SegmentPair.Shrunk.of_log_eq (hbase : p'.baseOffset = p.baseOffset) (hlog : p'.log = p.log)
    (hindex : p.Sound c → IndexSound p'.baseOffset p'.log p'.index) : p'.Shrunk c keep p := by
  refine ⟨hbase, fun b hb => ⟨b, hlog ▸ hb, Compacts.refl c keep b⟩, fun hp => ?_⟩
  exact hp.congr hbase hlog (hindex hp)

/-- To unlink the files of a segment changes nothing else. -/
theorem SegmentPair.unlink_of {P : SegmentPair → Prop} {bases : List Nat} (h : P p)
    (hunlinked : P { p with linked := false }) : P (p.unlink bases) := by
  rw [SegmentPair.unlink]
  split
  · exact hunlinked
  · exact h

theorem SegmentPair.Shrunk.unlink (h : p'.Shrunk c keep p) (bases : List Nat) :
    (p'.unlink bases).Shrunk c keep p := by
  refine unlink_of (P := fun q => q.Shrunk c keep p) h ⟨h.base_eq, h.entries, fun hp => ?_⟩
  exact (h.sound hp).congr rfl rfl (h.sound hp).index

theorem keptEntries_increasing (hinc : log.Pairwise (fun b b' => b.lastOffset < b'.baseOffset))
    (hrange : ∀ b ∈ log, b.InRange c) :
    (keptEntries c keep log).Pairwise (fun b b' => b.lastOffset < b'.baseOffset) := by
  rw [keptEntries, pairwise_filterMap]
  refine hinc.imp_of_mem ?_
  intro a a' ha ha' hlt b hb b' hb'
  have hle := (compactEntry_compacts hb).lastOffset_le (hrange a ha)
  have hbase := (compactEntry_compacts hb').baseOffset_eq
  omega

theorem mem_keptEntries {b' : RecordBatch}
    (h : b' ∈ keptEntries c keep log) : ∃ b ∈ log, Compacts c keep b b' := by
  obtain ⟨b, hb, hkept⟩ := mem_filterMap.mp h
  exact ⟨b, hb, compactEntry_compacts hkept⟩

theorem rewritePair_shrunk (hc : c.Lawful) (config : EngineConfig) (p : SegmentPair) :
    (rewritePair config p (keptEntries c keep p.log)).Shrunk c keep p := by
  refine ⟨rfl, fun b' hb' => mem_keptEntries hb', fun hp => ⟨?_, ?_, ?_, ?_⟩⟩
  · intro b' hb'
    obtain ⟨b, hb, hcomp⟩ := mem_keptEntries hb'
    rw [hcomp.baseOffset_eq]
    exact hp.base_le b hb
  · exact keptEntries_increasing hp.increasing hp.inRange
  · exact rebuildIndex_sound _ _ _
  · intro b' hb'
    obtain ⟨b, hb, hcomp⟩ := mem_keptEntries hb'
    exact hcomp.inRange hc (hp.inRange b hb)

theorem exists_mem_of_sublistForall₂ {α β : Type*} {R : α → β → Prop} {l₁ : List α} {l₂ : List β}
    (h : List.SublistForall₂ R l₁ l₂) {a : α} (ha : a ∈ l₁) : ∃ b ∈ l₂, R a b := by
  induction h with
  | nil => cases ha
  | cons hR _ ih =>
    rcases mem_cons.mp ha with rfl | ha
    · exact ⟨_, mem_cons_self .., hR⟩
    · obtain ⟨b, hb, hab⟩ := ih ha
      exact ⟨b, mem_cons_of_mem _ hb, hab⟩
  | cons_right _ ih =>
    obtain ⟨b, hb, hab⟩ := ih ha
    exact ⟨b, mem_cons_of_mem _ hb, hab⟩

theorem ordered_of_shrunk {ps ps' : List SegmentPair}
    (h : List.SublistForall₂ (SegmentPair.Shrunk c keep) ps' ps) (hsound : ∀ p ∈ ps, p.Sound c)
    (hord : ps.Pairwise SegmentPair.Before) : ps'.Pairwise SegmentPair.Before := by
  induction h with
  | nil => exact .nil
  | @cons p' p ps' ps hp hrest ih =>
    rw [pairwise_cons] at hord ⊢
    refine ⟨fun q' hq' => ?_, ih (fun p hp => hsound p (mem_cons_of_mem _ hp)) hord.2⟩
    obtain ⟨q, hq, hshrunk⟩ := exists_mem_of_sublistForall₂ hrest hq'
    have hbefore := hord.1 q hq
    refine ⟨by rw [hp.base_eq, hshrunk.base_eq]; exact hbefore.base_le, fun b' hb' => ?_⟩
    obtain ⟨b, hb, hcomp⟩ := hp.entries b' hb'
    have hle := hcomp.lastOffset_le ((hsound p mem_cons_self).inRange b hb)
    have hlt := hbefore.last_lt b hb
    rw [hshrunk.base_eq]
    omega
  | cons_right _ ih =>
    rw [pairwise_cons] at hord
    exact ih (fun p hp => hsound p (mem_cons_of_mem _ hp)) hord.2

end Shrunk

/-- The segments of `s'` are segments of `s`, some of them shrunk. -/
def SegmentManager.ShrunkFrom (c : Crates) (keep : Record → Bool) (s' s : SegmentManager) : Prop :=
  List.SublistForall₂ (SegmentPair.Shrunk c keep) s'.segments s.segments

namespace SegmentManager

variable {c : Crates} {keep : Record → Bool} {s s' : SegmentManager}

theorem ShrunkFrom.refl (c : Crates) (keep : Record → Bool) (s : SegmentManager) :
    s.ShrunkFrom c keep s :=
  sublistForall₂_iff.mpr ⟨_, forall₂_refl _, List.Sublist.refl _⟩

theorem segments_unlinkBases {bases : List Nat} :
    (s.unlinkBases bases).segments = s.segments.map (unlink bases) := by
  simp [segments, unlinkBases]

theorem unlinkBases_shrunkFrom {pairs : List SegmentPair}
    (hhist : List.SublistForall₂ (SegmentPair.Shrunk c keep) pairs s.historical)
    (bases : List Nat) :
    ({ s with historical := pairs }.unlinkBases bases).ShrunkFrom c keep s := by
  obtain ⟨ps, hall, hsub⟩ := sublistForall₂_iff.mp hhist
  refine sublistForall₂_iff.mpr ⟨ps ++ [s.active], ?_, hsub.append (List.Sublist.refl _)⟩
  refine rel_append ?_ (.cons ((SegmentPair.Shrunk.refl c keep s.active).unlink bases) .nil)
  exact forall₂_map_left_iff.mpr (hall.imp fun _ _ h => h.unlink bases)

theorem unlink_nextOffset {p : SegmentPair} {bases : List Nat} :
    (p.unlink bases).nextOffset = p.nextOffset :=
  unlink_of (P := fun q => q.nextOffset = p.nextOffset) rfl rfl

/-! ## Every operation keeps the layout -/

section

variable {P : SegmentPair → Prop} {Q : SegmentManager → Prop}

/-- The next segment is the active one again, or it is new. -/
theorem openNext_of (hopen : s.active.baseOffset = s.highWatermark → s.active.linked = true →
    P s.active) (hfresh : P (fresh s.highWatermark)) : P s.openNext := by
  rw [openNext]
  split
  · next h => exact hopen h.1 h.2
  · exact hfresh

theorem maybeRotateBeforeAppend_of {frameSize now : Nat} 
    (hroll : s.rollsBeforeAppend frameSize now = true → Q (s.rotateSegment now)) (h : Q s) :
    Q (s.maybeRotateBeforeAppend frameSize now) := by
  rw [maybeRotateBeforeAppend]
  split
  · next hr => exact hroll hr
  · exact h

end

theorem openNext_baseOffset : s.openNext.baseOffset = s.highWatermark :=
  openNext_of (P := fun p => p.baseOffset = s.highWatermark) (fun hbase _ => hbase) rfl

theorem retained_rotateSegment (h : s.openNext.log = []) (now : Nat) :
    (s.rotateSegment now).retained = s.retained := by
  show (s.segments ++ [s.openNext]).flatMap log = s.retained
  rw [flatMap_append, flatMap_singleton, h, append_nil]
  rfl

section

variable (h : s.Layout c)
include h

theorem Layout.openNext_nil : s.openNext.log = [] :=
  openNext_of (P := fun p => p.log = []) (fun hbase _ => h.active_nil hbase) rfl

theorem Layout.rotateSegment (now : Nat) : (s.rotateSegment now).Layout c := by
  have hsegs : (s.rotateSegment now).segments = s.segments ++ [s.openNext] := rfl
  refine ⟨fun p hp => ?_, ?_, ?_⟩
  · rw [hsegs, mem_append, mem_singleton] at hp
    rcases hp with hp | rfl
    · exact h.sound p hp
    · exact openNext_of (fun _ _ => h.sound _ active_mem_segments) (SegmentPair.Sound.fresh _)
  · rw [hsegs, pairwise_append]
    refine ⟨h.ordered, pairwise_singleton _ _, fun p hp q hq => ?_⟩
    rw [mem_singleton.mp hq]
    refine ⟨?_, fun b hb => ?_⟩
    · have hle := h.active_base_le
      rw [openNext_baseOffset]
      rcases mem_segments.mp hp with hhist | rfl
      · have hbase := (h.before_active hhist).base_le
        omega
      · omega
    · rw [openNext_baseOffset]
      exact h.lastOffset_lt (mem_retained.mpr ⟨p, hp, hb⟩)
  · show s.highWatermark = s.openNext.nextOffset
    rw [nextOffset_nil h.openNext_nil, openNext_baseOffset]

theorem Layout.maybeRotateBeforeAppend (frameSize now : Nat) :
    (s.maybeRotateBeforeAppend frameSize now).Layout c :=
  maybeRotateBeforeAppend_of (fun _ => h.rotateSegment now) h

theorem Layout.retained_maybeRotateBeforeAppend (frameSize now : Nat) :
    (s.maybeRotateBeforeAppend frameSize now).retained = s.retained :=
  maybeRotateBeforeAppend_of (Q := fun s' => s'.retained = s.retained)
    (fun _ => retained_rotateSegment h.openNext_nil now) rfl

end

theorem maybeRotateBeforeAppend_highWatermark (s : SegmentManager) (frameSize now : Nat) :
    (s.maybeRotateBeforeAppend frameSize now).highWatermark = s.highWatermark :=
  maybeRotateBeforeAppend_of (Q := fun s' => s'.highWatermark = s.highWatermark)
    (fun _ => rfl) rfl

theorem appendBatchVerbatim_of_base {batch : RecordBatch} {now : Nat}
    (h : batch.baseOffset = s.highWatermark) : s.appendBatchVerbatim batch now =
      ((s.maybeRotateBeforeAppend batch.encodedSize now).storeBatch batch, .appended) := by
  have hle := base_le_lastOffset batch
  rw [appendBatchVerbatim, if_neg (by omega), if_neg (by omega), if_neg (by omega)]

theorem appendBatchVerbatim_cases (s : SegmentManager) {batch : RecordBatch} {now : Nat} :
    (∃ res, res ≠ .appended ∧ batch.baseOffset ≠ s.highWatermark ∧
      s.appendBatchVerbatim batch now = (s, res)) ∨
    (batch.baseOffset = s.highWatermark ∧ s.appendBatchVerbatim batch now =
      ((s.maybeRotateBeforeAppend batch.encodedSize now).storeBatch batch, .appended)) := by
  by_cases hbase : batch.baseOffset = s.highWatermark
  · exact .inr ⟨hbase, appendBatchVerbatim_of_base hbase⟩
  · left
    rw [appendBatchVerbatim]
    split
    · exact ⟨.alreadyApplied, nofun, hbase, rfl⟩
    · split
      · exact ⟨.gap s.highWatermark, nofun, hbase, rfl⟩
      · rw [if_pos (by omega)]
        exact ⟨.gap s.highWatermark, nofun, hbase, rfl⟩

theorem storeBatch_active_log (s : SegmentManager) {b : RecordBatch} :
    (s.storeBatch b).active.log = s.active.log ++ [b] := rfl

theorem retained_storeBatch (s : SegmentManager) (b : RecordBatch) :
    (s.storeBatch b).retained = s.retained ++ [b] := by
  simp [retained, segments, storeBatch]

theorem Layout.storeBatch (h : s.Layout c) {b : RecordBatch}
    (hbase : b.baseOffset = s.highWatermark)
    (hrange : b.InRange c) : (s.storeBatch b).Layout c := by
  have hactive := h.sound _ active_mem_segments
  have hsound : (s.storeBatch b).active.Sound c := by
    refine ⟨?_, ?_, ?_, ?_⟩
    · intro b' hb'
      rw [storeBatch_active_log, mem_append, mem_singleton] at hb'
      rcases hb' with hb' | rfl
      · exact hactive.base_le b' hb'
      · rw [hbase]
        exact h.active_base_le
    · rw [storeBatch_active_log, pairwise_append]
      refine ⟨hactive.increasing, pairwise_singleton _ _, fun b' hb' b'' hb'' => ?_⟩
      rw [mem_singleton] at hb''
      rw [hb'', hbase, h.logEnd]
      exact hactive.lastOffset_lt hb'
    · exact hactive.index.append b _ (fun hnil => .inr hnil)
    · intro b' hb'
      rw [storeBatch_active_log, mem_append, mem_singleton] at hb'
      rcases hb' with hb' | rfl
      · exact hactive.inRange b' hb'
      · exact hrange
  have hord := h.ordered
  rw [segments, pairwise_append] at hord
  refine ⟨fun p hp => ?_, ?_, ?_⟩
  · rcases mem_segments.mp hp with hhist | rfl
    · exact h.sound p (mem_segments.mpr (.inl hhist))
    · exact hsound
  · rw [segments, pairwise_append]
    refine ⟨hord.1, pairwise_singleton _ _, fun p hp q hq => ?_⟩
    rw [mem_singleton] at hq
    have hbefore := h.before_active hp
    exact hq ▸ ⟨hbefore.base_le, hbefore.last_lt⟩
  · exact (nextOffset_concat s.storeBatch_active_log).symm

theorem compactLoop_shrunk (hc : c.Lawful) (config : EngineConfig) (budget : Nat)
    (ps : List SegmentPair) :
    List.SublistForall₂ (SegmentPair.Shrunk c keep) (compactLoop c config keep budget ps).1 ps := by
  induction ps generalizing budget with
  | nil =>
    rw [compactLoop]
    exact .nil
  | cons p rest ih =>
    cases budget with
    | zero => exact refl _
    | succ budget =>
      rw [compactLoop]
      by_cases hrw : isRewritten c config keep p = true
      · rw [if_pos hrw]
        by_cases hnil : keptEntries c keep p.log = []
        · simp only [if_pos hnil]
          exact .cons_right (ih budget)
        · simp only [if_neg hnil]
          exact .cons (rewritePair_shrunk hc config p) (ih budget)
      · rw [if_neg hrw]
        exact .cons (SegmentPair.Shrunk.refl c keep p) (ih (budget + 1))

theorem retentionLoop_sublist (config : EngineConfig) (now : Nat) (mtime : Nat → Nat)
    (activeSize : Nat) (kept rest : List SegmentPair) :
    (retentionLoop config now mtime activeSize kept rest).1.Sublist (kept ++ rest) := by
  induction rest generalizing kept with
  | nil =>
    rw [retentionLoop, append_nil]
  | cons p rest ih =>
    rw [retentionLoop]
    split
    · exact (ih kept).trans ((sublist_cons_self p rest).append_left kept)
    · rw [append_cons kept p rest]
      exact ih (kept ++ [p])

theorem trimLoop_suffix (offset activeBase : Nat) (ps : List SegmentPair) :
    (trimLoop offset activeBase ps).1 <:+ ps := by
  induction ps with
  | nil => exact suffix_refl []
  | cons p rest ih =>
    rw [trimLoop]
    split
    · exact suffix_refl _
    · exact ih.trans (suffix_cons p rest)

theorem onDisk_sublist (ps : List SegmentPair) : (onDisk ps).Sublist ps := by
  induction ps with
  | nil => exact List.Sublist.refl []
  | cons p rest ih =>
    rw [onDisk]
    split
    · exact ih.cons_cons p
    · exact ih.cons p

theorem Layout.create (c : Crates) (config : EngineConfig) (now : Nat) :
    (create config now).Layout c := by
  refine ⟨fun p hp => ?_, pairwise_singleton _ _, rfl⟩
  rcases mem_segments.mp hp with hhist | rfl
  · cases hhist
  · exact SegmentPair.Sound.fresh 0

/-- Opening some of the segments of a log: the last one becomes active under a
rebuilt index. -/
theorem openDir_concat_shrunkFrom {config : EngineConfig} {files : List SegmentPair}
    {last : SegmentPair} (hsub : (files ++ [last]).Sublist s.segments) {now : Nat} :
    (openDir config (files ++ [last]) now).ShrunkFrom c keep s := by
  have hsegs : (openDir config (files ++ [last]) now).segments = files ++
      [{ last with index := rebuildIndex last.baseOffset config.indexIntervalBytes last.log }] := by
    simp [openDir, segments]
  refine sublistForall₂_iff.mpr ⟨files ++ [last], ?_, hsub⟩
  rw [hsegs]
  refine rel_append (forall₂_refl files) (.cons ?_ .nil)
  exact SegmentPair.Shrunk.of_log_eq rfl rfl (fun _ => rebuildIndex_sound _ _ _)

theorem modifyLast_split {α : Type} {found : α → Bool} {f : α → α} {l l' : List α}
    (h : modifyLast found f l = some l') : ∃ l₁ x l₂, l = l₁ ++ x :: l₂ ∧ l' = l₁ ++ f x :: l₂ := by
  induction l generalizing l' with
  | nil => cases h
  | cons x xs ih =>
    rw [modifyLast] at h
    split at h
    · rename_i ys hys
      cases h
      obtain ⟨l₁, y, l₂, rfl, rfl⟩ := ih hys
      exact ⟨x :: l₁, y, l₂, rfl, rfl⟩
    · split at h
      · cases h
        exact ⟨[], x, xs, rfl, rfl⟩
      · cases h

theorem modifySegmentPair_split (s : SegmentManager) (offset : Nat)
    (f : SegmentPair → SegmentPair) :
    ∃ ps p qs, s.segments = ps ++ p :: qs ∧
      (s.modifySegmentPair offset f).segments = ps ++ f p :: qs := by
  rw [modifySegmentPair]
  split
  · exact ⟨s.historical, s.active, [], rfl, rfl⟩
  · rename_i hclosed
    split
    · rename_i historical hmod
      obtain ⟨ps, p, qs, hhist, rfl⟩ := modifyLast_split hmod
      refine ⟨ps, p, qs ++ [s.active], ?_, ?_⟩
      · rw [segments, hhist, append_assoc, cons_append]
      · rw [segments, append_assoc, cons_append]
    · cases hhist : s.historical with
      | nil => exact absurd (.inr hhist) hclosed
      | cons p rest =>
        refine ⟨[], p, rest ++ [s.active], ?_, rfl⟩
        rw [segments, hhist]
        rfl

theorem modifySegmentPair_forall₂ {R : SegmentPair → SegmentPair → Prop} (hrefl : ∀ p, R p p)
    {f : SegmentPair → SegmentPair} (hf : ∀ p, R (f p) p) (s : SegmentManager) (offset : Nat) :
    List.Forall₂ R (s.modifySegmentPair offset f).segments s.segments := by
  obtain ⟨ps, p, qs, hsegs, hsegs'⟩ := s.modifySegmentPair_split offset f
  rw [hsegs, hsegs']
  exact rel_append (forall₂_same.mpr fun p _ => hrefl p)
    (.cons (hf p) (forall₂_same.mpr fun p _ => hrefl p))

theorem retained_appendAbortedTxn (s : SegmentManager) (producerId : UInt64)
    (firstOffset lastOffset : Nat) :
    (s.appendAbortedTxn producerId firstOffset lastOffset).retained = s.retained := by
  obtain ⟨ps, p, qs, hsegs, hsegs'⟩ := s.modifySegmentPair_split firstOffset fun p =>
    { p with txnIndex := p.txnIndex ++ [{ producerId, firstOffset, lastOffset }] }
  rw [retained, retained, appendAbortedTxn, hsegs', hsegs, flatMap_append, flatMap_append,
    flatMap_cons, flatMap_cons]

/-! The end of the log is where the active segment ends, before and after. -/

theorem compactSegments_end (s : SegmentManager) {now : Nat} :
    (s.compactSegments c now).1.highWatermark = s.highWatermark ∧
      (s.compactSegments c now).1.active.nextOffset = s.active.nextOffset := by
  rw [compactSegments]
  split
  · exact ⟨rfl, rfl⟩
  · split
    · exact ⟨rfl, rfl⟩
    · exact ⟨rfl, unlink_nextOffset⟩

theorem appendAbortedTxn_end (s : SegmentManager) (producerId : UInt64)
    (firstOffset lastOffset : Nat) :
    let s' := s.appendAbortedTxn producerId firstOffset lastOffset
    s'.highWatermark = s.highWatermark ∧ s'.active.nextOffset = s.active.nextOffset := by
  rw [appendAbortedTxn, modifySegmentPair]
  split
  · exact ⟨rfl, rfl⟩
  · split <;> exact ⟨rfl, rfl⟩

end SegmentManager

/-- The records compaction lets through; no other operation rebuilds a batch. -/
def keepOf (c : Crates) (s : SegmentManager) : Op → Record → Bool
  | .compact now => s.keeps c now
  | _ => fun _ => false

/-- The operations that store nothing and open no segment. -/
def Op.isMaintenance : Op → Bool
  | .append .. | .appendVerbatim .. | .rotate .. => false
  | _ => true

variable {c : Crates} {op : Op} {s : SegmentManager}

/-- Maintenance drops segments and shrinks segments, and does nothing else, but
for a restart that finds no files. -/
theorem maintenance_shrunkFrom (hc : c.Lawful) (hop : op.isMaintenance) :
    (step c s op).ShrunkFrom c (keepOf c s op) s ∨ ∃ now, step c s op = create s.config now := by
  cases op with
  | append => cases hop
  | appendVerbatim => cases hop
  | rotate => cases hop
  | appendAbortedTxn producerId firstOffset =>
    refine .inl (sublistForall₂_iff.mpr ⟨_, modifySegmentPair_forall₂
      (SegmentPair.Shrunk.refl c _) ?_ s firstOffset, List.Sublist.refl _⟩)
    exact fun p => .of_log_eq rfl rfl (fun hp => hp.index)
  | compact =>
    left
    rw [step, compactSegments]
    split
    · exact SegmentManager.ShrunkFrom.refl c _ s
    · split
      · exact SegmentManager.ShrunkFrom.refl c _ s
      · exact unlinkBases_shrunkFrom (compactLoop_shrunk hc s.config _ s.historical) _
  | deleteRetention now mtime =>
    have hsub := retentionLoop_sublist s.config now mtime s.active.physicalSize [] s.historical
    exact .inl (unlinkBases_shrunkFrom hsub.sublistForall₂ _)
  | trimBefore offset =>
    have hsub := (trimLoop_suffix offset s.active.baseOffset s.historical).sublist
    exact .inl (unlinkBases_shrunkFrom hsub.sublistForall₂ _)
  | reopen now =>
    have hsub := onDisk_sublist s.segments
    rw [step, reopen]
    rcases eq_nil_or_concat' (onDisk s.segments) with hnil | ⟨files, last, hfiles⟩
    · rw [hnil]
      exact .inr ⟨now, rfl⟩
    · rw [hfiles] at hsub ⊢
      exact .inl (openDir_concat_shrunkFrom hsub)

theorem maintenance_logEnd (hop : op.isMaintenance) (h : s.highWatermark = s.active.nextOffset) :
    (step c s op).highWatermark = (step c s op).active.nextOffset := by
  cases op with
  | append => cases hop
  | appendVerbatim => cases hop
  | rotate => cases hop
  | appendAbortedTxn producerId firstOffset lastOffset =>
    obtain ⟨hhw, hnext⟩ := s.appendAbortedTxn_end producerId firstOffset lastOffset
    exact hhw.trans (h.trans hnext.symm)
  | compact now =>
    obtain ⟨hhw, hnext⟩ := s.compactSegments_end
    exact hhw.trans (h.trans hnext.symm)
  | deleteRetention => exact h.trans unlink_nextOffset.symm
  | trimBefore => exact h.trans unlink_nextOffset.symm
  | reopen => rfl

/-- What the layout asks of an operation: a batch about to be stored is in
range. -/
def StoresInRange (c : Crates) (s : SegmentManager) : Op → Prop
  | .append batch leaderEpoch _ =>
    (batch.assignBaseOffsetAndLeaderEpoch c s.highWatermark leaderEpoch).InRange c
  | .appendVerbatim batch _ => batch.baseOffset = s.highWatermark → batch.InRange c
  | _ => True

theorem layout_maintenance (hc : c.Lawful) (hop : op.isMaintenance) (h : s.Layout c) :
    (step c s op).Layout c := by
  rcases maintenance_shrunkFrom hc hop with hsub | ⟨now, hnew⟩
  · refine ⟨fun p' hp' => ?_, ordered_of_shrunk hsub h.sound h.ordered,
      maintenance_logEnd hop h.logEnd⟩
    obtain ⟨p, hp, hshrunk⟩ := exists_mem_of_sublistForall₂ hsub hp'
    exact hshrunk.sound (h.sound p hp)
  · rw [hnew]
    exact SegmentManager.Layout.create c s.config now

theorem layout_step (hc : c.Lawful) (h : s.Layout c) (hop : StoresInRange c s op) :
    (step c s op).Layout c := by
  by_cases hm : op.isMaintenance = true
  · exact layout_maintenance hc hm h
  · cases op with
    | append batch leaderEpoch now =>
      refine (h.maybeRotateBeforeAppend _ now).storeBatch ?_ hop
      exact (s.maybeRotateBeforeAppend_highWatermark _ now).symm
    | appendVerbatim batch now =>
      rcases s.appendBatchVerbatim_cases with ⟨_, -, -, hres⟩ | ⟨hbase, hres⟩
      · rw [step, hres]
        exact h
      · rw [step, hres]
        refine (h.maybeRotateBeforeAppend _ now).storeBatch ?_ (hop hbase)
        rw [hbase, s.maybeRotateBeforeAppend_highWatermark]
    | rotate now => exact h.rotateSegment now
    | _ => exact absurd rfl hm

end Bifrox.Segment

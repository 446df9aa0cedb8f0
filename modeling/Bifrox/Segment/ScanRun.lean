/-
Which runs of a log keep it readable from end to end.

`Admissible` is what any run must satisfy for its records to be readable at all, and `KeepsTails`
is the part the maintenance code does not guarantee by itself.
-/
import Mathlib.Data.List.Chain
import Bifrox.Segment.CompactedRecords
import Bifrox.Segment.Scan

namespace Bifrox.Segment

open Run List Protocol SegmentManager SegmentPair

/-! ## Admissible runs -/

/-- A batch about to be stored at the log end agrees with its header and its
offset fits the index of the segment it goes to. -/
def StoresWellFormed (c : Crates) (s : SegmentManager) (b : RecordBatch) (now : Nat) : Prop :=
  b.WellFormed c ∧
    s.highWatermark < (s.maybeRotateBeforeAppend b.encodedSize now).active.baseOffset + 2 ^ 32

def Admissible (c : Crates) (s : SegmentManager) : Op → Prop
  | .append batch leaderEpoch now =>
    StoresWellFormed c s (batch.assignBaseOffsetAndLeaderEpoch c s.highWatermark leaderEpoch) now
  | .appendVerbatim batch now =>
    batch.baseOffset = s.highWatermark → StoresWellFormed c s batch now
  | .compact now => RebuildFits c s now
  | _ => True

variable {c : Crates} {s : SegmentManager} {b b' : RecordBatch}

theorem Admissible.storesInRange {op : Op} (h : Admissible c s op) : StoresInRange c s op := by
  cases op with
  | append => exact h.1.inRange
  | appendVerbatim => exact fun hbase => (h hbase).1.inRange
  | _ => trivial

theorem Compacts.wellFormed (hc : c.Lawful) {keep : Record → Bool} (h : Compacts c keep b b')
    (hb : b.WellFormed c) (hfit : BatchFits c keep b) : b'.WellFormed c := by
  rcases h with rfl | ⟨rs, hrs, hne, rfl⟩
  · exact hb
  · obtain ⟨codec, hcodec⟩ := compression_of_records hrs
    have hsub := survivors_sublist keep b rs
    have hlen := hfit rs hrs
    rw [recordData_rebuild hrs hsub hcodec] at hlen
    rw [rebuild, hcodec]
    exact hb.createWithOffsets hc hrs hsub hne hlen

theorem Compacts.eq_of_keep_nothing (h : Compacts c (fun _ => false) b b') : b' = b := by
  rcases h with heq | ⟨rs, -, hne, -⟩
  · exact heq
  · exact absurd (by rw [survivors, filter_false]) hne

section Step

variable {now : Nat} {op : Op}

theorem scannable_create (c : Crates) (config : EngineConfig) (now : Nat) :
    (create config now).Scannable c := by
  have hnil : ∀ p ∈ (create config now).segments, p.log = [] := by
    intro p hp
    rcases mem_segments.mp hp with hhist | rfl
    · cases hhist
    · rfl
  refine ⟨Layout.create c config now, fun p hp b hb => ?_, fun b hb => ?_⟩
  · rw [hnil p hp] at hb
    cases hb
  · obtain ⟨p, hp, hbp⟩ := mem_retained.mp hb
    rw [hnil p hp] at hbp
    cases hbp

theorem scannable_maintenance (hc : c.Lawful) (hm : op.isMaintenance) (h : s.Scannable c)
    (hop : Admissible c s op) : (step c s op).Scannable c := by
  rcases maintenance_shrunkFrom hc hm with hsub | ⟨now, hnew⟩
  · refine ⟨layout_maintenance hc hm h.layout, fun p' hp' b' hb' => ?_, fun b' hb' => ?_⟩
    · obtain ⟨p, hp, hshrunk⟩ := exists_mem_of_sublistForall₂ hsub hp'
      obtain ⟨b, hb, hcomp⟩ := hshrunk.entries b' hb'
      rw [hcomp.baseOffset_eq, hshrunk.base_eq]
      exact h.fits p hp b hb
    · obtain ⟨p', hp', hbp'⟩ := mem_retained.mp hb'
      obtain ⟨p, hp, hshrunk⟩ := exists_mem_of_sublistForall₂ hsub hp'
      obtain ⟨b, hb, hcomp⟩ := hshrunk.entries b' hbp'
      have hmem : b ∈ s.retained := mem_retained.mpr ⟨p, hp, hb⟩
      cases op with
      | compact => exact hcomp.wellFormed hc (h.wellFormed b hmem) (hop b hmem)
      | _ => exact hcomp.eq_of_keep_nothing ▸ h.wellFormed b hmem
  · rw [hnew]
    exact scannable_create c s.config now

section

variable (h : s.Scannable c)
include h

theorem scannable_rotateSegment : (s.rotateSegment now).Scannable c := by
  have hsegs : (s.rotateSegment now).segments = s.segments ++ [s.openNext] := rfl
  have hret := retained_rotateSegment h.layout.openNext_nil now
  refine ⟨h.layout.rotateSegment now, fun p hp b hb => ?_, hret ▸ h.wellFormed⟩
  rw [hsegs, mem_append, mem_singleton] at hp
  rcases hp with hp | rfl
  · exact h.fits p hp b hb
  · rw [h.layout.openNext_nil] at hb
    cases hb

theorem scannable_storeBatch (hbase : b.baseOffset = s.highWatermark) (hb : b.WellFormed c)
    (hfits : s.highWatermark < s.active.baseOffset + 2 ^ 32) : (s.storeBatch b).Scannable c := by
  refine ⟨h.layout.storeBatch hbase hb.inRange, fun p hp x hx => ?_, fun x hx => ?_⟩
  · rcases mem_segments.mp hp with hhist | rfl
    · exact h.fits p (mem_segments.mpr (.inl hhist)) x hx
    · rw [storeBatch_active_log, mem_append, mem_singleton] at hx
      rcases hx with hx | rfl
      · exact h.fits s.active active_mem_segments x hx
      · rw [hbase]
        exact hfits
  · rw [retained_storeBatch, mem_append, mem_singleton] at hx
    rcases hx with hx | rfl
    · exact h.wellFormed x hx
    · exact hb

theorem scannable_store (hbase : b.baseOffset = s.highWatermark) (hb : StoresWellFormed c s b now) :
    ((s.maybeRotateBeforeAppend b.encodedSize now).storeBatch b).Scannable c := by
  have hend := s.maybeRotateBeforeAppend_highWatermark b.encodedSize now
  refine scannable_storeBatch (maybeRotateBeforeAppend_of (fun _ => scannable_rotateSegment h) h)
    ?_ hb.1 ?_
  · rw [hend, hbase]
  · rw [hend]
    exact hb.2

end

theorem scannable_step (hc : c.Lawful) (s : SegmentManager) (op : Op) (h : s.Scannable c)
    (hop : Admissible c s op) : (step c s op).Scannable c := by
  by_cases hm : op.isMaintenance = true
  · exact scannable_maintenance hc hm h hop
  · cases op with
    | append => exact scannable_store h rfl hop
    | appendVerbatim batch now =>
      rcases s.appendBatchVerbatim_cases with ⟨_, -, -, hres⟩ | ⟨hbase, hres⟩
      · rw [step, hres]
        exact h
      · rw [step, hres]
        exact scannable_store h hbase (hop hbase)
    | rotate => exact scannable_rotateSegment h
    | _ => exact absurd rfl hm

end Step

/-! ## Runs that leave no gap -/

/-- What keeps a log free of boundary gaps: no empty segment is closed, a
compaction pass keeps the last offset of each segment it rewrites, and retention
removes the oldest segments only. -/
def KeepsTails (c : Crates) (s : SegmentManager) : Op → Prop
  | .append batch _ now | .appendVerbatim batch now =>
    s.rollsBeforeAppend batch.encodedSize now → s.active.log ≠ []
  | .rotate _ => s.active.log ≠ []
  | .compact now => ∀ p ∈ s.historical, isRewritten c s.config (s.keeps c now) p →
    (keptEntries c (s.keeps c now) p.log).getLast?.map RecordBatch.lastOffset =
      p.log.getLast?.map RecordBatch.lastOffset
  | .deleteRetention now mtime =>
    (retentionLoop s.config now mtime s.active.physicalSize [] s.historical).1 <:+ s.historical
  | _ => True

/-- `q` starts where the non-empty segment `p` ends. -/
def Abuts (p q : SegmentPair) : Prop := p.log ≠ [] ∧ p.nextOffset = q.baseOffset

/-- Each segment starts where the one before it ends, and all files are in
place. -/
structure Chained (s : SegmentManager) : Prop where
  chain : s.segments.IsChain Abuts
  linked : ∀ p ∈ s.segments, p.linked = true

theorem Chained.noBoundaryGap (h : Chained s) : s.NoBoundaryGap := by
  intro pre p q post hsegs _
  have habuts := isChain_iff_forall_rel_of_append_cons_cons.mp h.chain hsegs
  rw [coveredTo, if_neg habuts.1, habuts.2]

structure SameSpan (p' p : SegmentPair) : Prop where
  base_eq : p'.baseOffset = p.baseOffset
  next_eq : p'.nextOffset = p.nextOffset
  nonempty : p.log ≠ [] → p'.log ≠ []
  linked : p.linked = true → p'.linked = true

theorem SameSpan.refl (p : SegmentPair) : SameSpan p p := ⟨rfl, rfl, id, id⟩

theorem isChain_of_sameSpan {ps ps' : List SegmentPair} (h : List.Forall₂ SameSpan ps' ps)
    (hps : ps.IsChain Abuts) : ps'.IsChain Abuts := by
  induction h with
  | nil => exact .nil
  | @cons p' p ps' ps hp hrest ih =>
    rw [isChain_cons] at hps ⊢
    refine ⟨fun q' hq' => ?_, ih hps.2⟩
    cases hrest with
    | nil => cases hq'
    | @cons r' r _ _ hr =>
      cases hq'
      obtain ⟨hne, hnext⟩ := hps.1 r rfl
      exact ⟨hp.nonempty hne, by rw [hp.next_eq, hnext, hr.base_eq]⟩

theorem Chained.of_sameSpan {s' : SegmentManager} (h : Chained s)
    (hspan : List.Forall₂ SameSpan s'.segments s.segments) : Chained s' := by
  refine ⟨isChain_of_sameSpan hspan h.chain, fun p' hp' => ?_⟩
  obtain ⟨p, hp, hpp⟩ := exists_mem_of_sublistForall₂
    (sublistForall₂_iff.mpr ⟨_, hspan, List.Sublist.refl _⟩) hp'
  exact hpp.linked (h.linked p hp)

section ChainedStep

variable {ps : List SegmentPair} {now : Nat} {op : Op}

theorem Chained.base_lt (h : Chained s) (hl : s.Layout c) :
    s.segments.Pairwise (fun p q => p.baseOffset < q.baseOffset) := by
  rw [← pairwise_map (f := baseOffset) (R := fun m n => m < n), ← isChain_iff_pairwise, isChain_map]
  refine h.chain.imp_of_mem_imp (fun p q hp _ habuts => ?_)
  obtain ⟨b, hb⟩ := exists_mem_of_ne_nil _ habuts.1
  have hlt := (hl.sound p hp).lastOffset_lt hb
  have hbase := (hl.sound p hp).base_le b hb
  have hle := base_le_lastOffset b
  have hnext := habuts.2
  omega

theorem chained_rotateSegment (h : Chained s) (hl : s.Layout c) (hne : s.active.log ≠ []) :
    Chained (s.rotateSegment now) := by
  have hsegs : (s.rotateSegment now).segments = s.segments ++ [s.openNext] := rfl
  refine ⟨?_, fun p hp => ?_⟩
  · rw [hsegs, isChain_append]
    refine ⟨h.chain, isChain_singleton _, fun p hp q hq => ?_⟩
    rw [segments, List.getLast?_concat, Option.mem_some_iff] at hp
    rw [List.head?_cons, Option.mem_some_iff] at hq
    rw [← hp, ← hq]
    exact ⟨hne, by rw [openNext_baseOffset, hl.logEnd]⟩
  · rw [hsegs, mem_append, mem_singleton] at hp
    rcases hp with hp | rfl
    · exact h.linked p hp
    · exact openNext_of (P := fun p => p.linked = true) (fun _ hlinked => hlinked) rfl

theorem chained_storeBatch (h : Chained s) : Chained (s.storeBatch b) := by
  have hchain := h.chain
  rw [segments, isChain_append] at hchain
  refine ⟨?_, fun p hp => ?_⟩
  · rw [segments, isChain_append]
    refine ⟨hchain.1, isChain_singleton _, fun p hp q hq => ?_⟩
    rw [List.head?_cons, Option.mem_some_iff] at hq
    obtain ⟨hne, hnext⟩ := hchain.2.2 p hp s.active rfl
    exact ⟨hne, by rw [hnext, ← hq]; rfl⟩
  · rcases mem_segments.mp hp with hhist | rfl
    · exact h.linked p (mem_segments.mpr (.inl hhist))
    · exact h.linked s.active active_mem_segments

theorem chained_store (h : Chained s) (hl : s.Layout c)
    (hroll : s.rollsBeforeAppend b.encodedSize now → s.active.log ≠ []) :
    Chained ((s.maybeRotateBeforeAppend b.encodedSize now).storeBatch b) :=
  chained_storeBatch
    (maybeRotateBeforeAppend_of (fun hr => chained_rotateSegment h hl (hroll hr)) h)

theorem nextOffset_eq_of_last {p p' : SegmentPair} (hne : p.log ≠ [])
    (hlast : p'.log.getLast?.map RecordBatch.lastOffset =
      p.log.getLast?.map RecordBatch.lastOffset) :
    p'.log ≠ [] ∧ p'.nextOffset = p.nextOffset := by
  obtain ⟨init, b, hlog⟩ := (eq_nil_or_concat' p.log).resolve_left hne
  rw [hlog, List.getLast?_concat] at hlast
  rcases eq_nil_or_concat' p'.log with hnil | ⟨init', b', hlog'⟩
  · rw [hnil] at hlast
    cases hlast
  · rw [hlog', List.getLast?_concat] at hlast
    refine ⟨by rw [hlog']; simp, ?_⟩
    rw [nextOffset_concat hlog, nextOffset_concat hlog']
    simpa using hlast

theorem compactLoop_sameSpan {config : EngineConfig} {keep : Record → Bool} (budget : Nat)
    (hne : ∀ p ∈ ps, p.log ≠ [])
    (hkeep : ∀ p ∈ ps, isRewritten c config keep p →
      (keptEntries c keep p.log).getLast?.map RecordBatch.lastOffset =
        p.log.getLast?.map RecordBatch.lastOffset) :
    List.Forall₂ SameSpan (compactLoop c config keep budget ps).1 ps ∧
      (compactLoop c config keep budget ps).2.1 = [] := by
  induction ps generalizing budget with
  | nil =>
    rw [compactLoop]
    exact ⟨.nil, rfl⟩
  | cons p rest ih =>
    cases budget with
    | zero => exact ⟨forall₂_same.mpr (fun q _ => SameSpan.refl q), rfl⟩
    | succ budget =>
      have hrest : ∀ q ∈ rest, q.log ≠ [] := fun q hq => hne q (mem_cons_of_mem _ hq)
      have hkrest := fun q hq => hkeep q (mem_cons_of_mem p hq)
      rw [compactLoop]
      by_cases hrw : isRewritten c config keep p = true
      · have hlast := hkeep p (mem_cons_self ..) hrw
        obtain ⟨hkept, hnext⟩ : (rewritePair config p (keptEntries c keep p.log)).log ≠ [] ∧
            (rewritePair config p (keptEntries c keep p.log)).nextOffset = p.nextOffset :=
          nextOffset_eq_of_last (hne p (mem_cons_self ..)) hlast
        have hnil : keptEntries c keep p.log ≠ [] := hkept
        obtain ⟨hspan, hunlinked⟩ := ih budget hrest hkrest
        rw [if_pos hrw]
        simp only [if_neg hnil]
        exact ⟨.cons ⟨rfl, hnext, fun _ => hkept, fun _ => rfl⟩ hspan, hunlinked⟩
      · obtain ⟨hspan, hunlinked⟩ := ih (budget + 1) hrest hkrest
        rw [if_neg hrw]
        exact ⟨.cons (SameSpan.refl p) hspan, hunlinked⟩

theorem unlink_eq_self {bases : List Nat} {p : SegmentPair} (h : p.baseOffset ∉ bases) :
    p.unlink bases = p := by
  rw [unlink, if_neg h]

theorem unlinkBases_eq_self {bases : List Nat} (h : ∀ p ∈ s.segments, p.baseOffset ∉ bases) :
    s.unlinkBases bases = s := by
  have hhist : s.historical.map (unlink bases) = s.historical := by
    conv_rhs => rw [← map_id s.historical]
    exact map_congr_left (fun p hp => unlink_eq_self (h p (mem_segments.mpr (.inl hp))))
  rw [unlinkBases, hhist, unlink_eq_self (h s.active active_mem_segments)]

theorem retentionLoop_perm (config : EngineConfig) (now : Nat) (mtime : Nat → Nat)
    (activeSize : Nat) (kept rest : List SegmentPair) :
    ((retentionLoop config now mtime activeSize kept rest).1.map baseOffset ++
      (retentionLoop config now mtime activeSize kept rest).2).Perm
        ((kept ++ rest).map baseOffset) := by
  induction rest generalizing kept with
  | nil =>
    rw [retentionLoop, append_nil, append_nil]
  | cons p rest ih =>
    rw [retentionLoop]
    split
    · refine perm_middle.trans (((ih kept).cons p.baseOffset).trans ?_)
      rw [map_append, map_append, map_cons]
      exact perm_middle.symm
    · rw [append_cons kept p rest]
      exact ih (kept ++ [p])

theorem trimLoop_perm {offset activeBase : Nat} :
    ((trimLoop offset activeBase ps).1.map baseOffset ++
      (trimLoop offset activeBase ps).2).Perm (ps.map baseOffset) := by
  induction ps with
  | nil =>
    rw [trimLoop]
    exact .refl _
  | cons p rest ih =>
    rw [trimLoop]
    split
    · rw [append_nil]
    · exact perm_middle.trans (ih.cons p.baseOffset)

theorem chained_removePrefix (h : Chained s) (hl : s.Layout c) {pairs : List SegmentPair}
    {unlinked : List Nat} (hsuffix : pairs <:+ s.historical)
    (hperm : (pairs.map baseOffset ++ unlinked).Perm (s.historical.map baseOffset)) :
    Chained ({ s with historical := pairs }.unlinkBases unlinked) := by
  have hlt := h.base_lt hl
  rw [segments, pairwise_append] at hlt
  have hnodup : (pairs.map baseOffset ++ unlinked).Nodup := by
    rw [hperm.nodup_iff, nodup_iff_pairwise_ne, pairwise_map]
    exact hlt.1.imp (fun hpq => Nat.ne_of_lt hpq)
  rw [nodup_append] at hnodup
  have hfresh : ∀ p ∈ ({ s with historical := pairs } : SegmentManager).segments,
      p.baseOffset ∉ unlinked := by
    intro p hp hmem
    rcases mem_segments.mp hp with hhist | rfl
    · exact hnodup.2.2 _ (mem_map_of_mem hhist) _ hmem rfl
    · have hbase := hperm.subset (mem_append_right _ hmem)
      obtain ⟨q, hq, heq⟩ := mem_map.mp hbase
      have hq' := hlt.2.2 q hq s.active (mem_singleton_self _)
      rw [heq] at hq'
      exact absurd hq' (Nat.lt_irrefl _)
  rw [unlinkBases_eq_self hfresh]
  have hsub : ({ s with historical := pairs } : SegmentManager).segments <:+ s.segments := by
    obtain ⟨removed, hremoved⟩ := hsuffix
    exact ⟨removed, by rw [segments, segments, ← hremoved, append_assoc]⟩
  exact ⟨h.chain.suffix hsub, fun p hp => h.linked p (hsub.subset hp)⟩

theorem onDisk_eq_self (hlinked : ∀ p ∈ ps, p.linked = true)
    (hlt : ps.Pairwise (fun p q => p.baseOffset < q.baseOffset)) : onDisk ps = ps := by
  induction ps with
  | nil => rfl
  | cons p rest ih =>
    rw [pairwise_cons] at hlt
    have hown : p.linked = true ∧
        rest.all (fun q => q.linked → q.baseOffset ≠ p.baseOffset) = true := by
      refine ⟨hlinked p (mem_cons_self ..), all_eq_true.mpr (fun q hq => ?_)⟩
      exact decide_eq_true (fun _ => Nat.ne_of_gt (hlt.1 q hq))
    rw [onDisk, if_pos hown, ih (fun q hq => hlinked q (mem_cons_of_mem _ hq)) hlt.2]

theorem chained_reopen (h : Chained s) (hl : s.Layout c) : Chained (s.reopen now) := by
  have hdisk := onDisk_eq_self h.linked (h.base_lt hl)
  have hsegs : (s.reopen now).segments = s.historical ++ [{ s.active with
      index := rebuildIndex s.active.baseOffset s.config.indexIntervalBytes s.active.log }] := by
    rw [reopen, hdisk]
    simp [openDir, segments]
  refine h.of_sameSpan ?_
  rw [hsegs]
  refine rel_append (forall₂_same.mpr (fun p _ => SameSpan.refl p)) (.cons ?_ .nil)
  exact ⟨rfl, rfl, id, id⟩

theorem chained_compactSegments (h : Chained s) (hop : KeepsTails c s (.compact now)) :
    Chained (s.compactSegments c now).1 := by
  rw [compactSegments]
  split
  · exact h
  · split
    · exact h
    · have hne : ∀ p ∈ s.historical, p.log ≠ [] := by
        intro p hp
        obtain ⟨pre, post, hhist⟩ := append_of_mem hp
        have hchain := h.chain
        rw [segments, hhist, append_assoc, cons_append] at hchain
        have hright := hchain.right_of_append
        rw [isChain_cons] at hright
        cases post with
        | nil => exact (hright.1 s.active rfl).1
        | cons q => exact (hright.1 q rfl).1
      obtain ⟨hspan, hunlinked⟩ :=
        compactLoop_sameSpan maxSegmentsCompactedPerCall hne hop
      simp only [hunlinked]
      rw [unlinkBases_eq_self (fun p _ => not_mem_nil)]
      exact h.of_sameSpan (rel_append hspan (.cons (SameSpan.refl _) .nil))

theorem chained_step (h : Chained s) (hl : s.Layout c) (hop : KeepsTails c s op) :
    Chained (step c s op) := by
  cases op with
  | append => exact chained_store h hl hop
  | appendVerbatim batch now =>
    rcases s.appendBatchVerbatim_cases with ⟨_, -, -, hres⟩ | ⟨-, hres⟩
    · rw [step, hres]
      exact h
    · rw [step, hres]
      exact chained_store h hl hop
  | rotate => exact chained_rotateSegment h hl hop
  | appendAbortedTxn producerId firstOffset =>
    refine h.of_sameSpan (modifySegmentPair_forall₂ SameSpan.refl ?_ s firstOffset)
    exact fun p => ⟨rfl, rfl, id, id⟩
  | compact => exact chained_compactSegments h hop
  | deleteRetention =>
    exact chained_removePrefix h hl hop (retentionLoop_perm ..)
  | trimBefore =>
    exact chained_removePrefix h hl (trimLoop_suffix ..) (trimLoop_perm ..)
  | reopen => exact chained_reopen h hl

end ChainedStep

theorem chained_create {config : EngineConfig} {now : Nat} : Chained (create config now) := by
  refine ⟨isChain_singleton _, fun p hp => ?_⟩
  rcases mem_segments.mp hp with hhist | rfl
  · cases hhist
  · rfl

/-! ## Scans of reachable logs -/

theorem scannable_run (hc : c.Lawful) (config : EngineConfig) (now : Nat) {ops : List Op}
    (hops : Run.Guarded (step c) (Admissible c) (create config now) ops) :
    (run (step c) (create config now) ops).Scannable c :=
  hops.invariant (scannable_step hc) (scannable_create c config now)

theorem noBoundaryGap_run (hc : c.Lawful) (config : EngineConfig) (now : Nat) {ops : List Op}
    (hops : Run.Guarded (step c)
      (fun s op => Admissible c s op ∧ KeepsTails c s op) (create config now) ops) :
    (run (step c) (create config now) ops).NoBoundaryGap := by
  have hinv : (run (step c) (create config now) ops).Layout c ∧
      Chained (run (step c) (create config now) ops) := by
    refine hops.invariant (P := fun s => s.Layout c ∧ Chained s) (fun s op h hop => ?_) ?_
    · exact ⟨layout_step hc h.1 hop.1.storesInRange, chained_step h.2 h.1 hop.2⟩
    · exact ⟨Layout.create c config now, chained_create⟩
  exact hinv.2.noBoundaryGap

/-- In every state of an admissible run a reader gets through the log exactly
when there is no gap at a segment boundary, and a run whose every step keeps the
tails of segments has no such gap anywhere. -/
theorem scanComplete_iff_noBoundaryGap {c : Crates} (hc : c.Lawful) (config : EngineConfig)
    (now : Nat) {ops : List Op}
    (hops : Run.Guarded (step c) (Admissible c) (create config now) ops) :
    ((run (step c) (create config now) ops).ScanComplete c ↔
      (run (step c) (create config now) ops).NoBoundaryGap) ∧
    (Run.Guarded (step c) (KeepsTails c) (create config now) ops →
      (run (step c) (create config now) ops).ScanComplete c) := by
  have hscan := scannable_run hc config now hops
  refine ⟨⟨noBoundaryGap_of_scanComplete hscan, scanComplete_of_noBoundaryGap hscan⟩, ?_⟩
  intro htails
  exact scanComplete_of_noBoundaryGap hscan (noBoundaryGap_run hc config now (hops.and htails))

/-- A pass that drops the older of two records of one key, not the newer one at
the end of the segment. -/
def tailKept : List Op :=
  [.append (.keyed 1 (some 10)) 0 0, .append (.keyed 1 (some 11)) 0 0, .rotate 0,
    .append (.keyed 2 (some 20)) 0 0, .compact 0]

theorem scanComplete_tailKept :
    (run (step .storing) (create .plain 0) tailKept).ScanComplete .storing := by
  refine (scanComplete_iff_noBoundaryGap Crates.storing_lawful .plain 0 ?_).2 ?_
  · refine ⟨⟨⟨[], ⟨0, 0, some [1], some [10]⟩, rfl, pairwise_singleton _ _, rfl⟩, ?_⟩,
      ⟨⟨[], ⟨1, 0, some [1], some [11]⟩, rfl, pairwise_singleton _ _, rfl⟩, ?_⟩, trivial,
      ⟨⟨[], ⟨2, 0, some [2], some [20]⟩, rfl, pairwise_singleton _ _, rfl⟩, ?_⟩,
      rebuildFits_of_all ?_, trivial⟩
    all_goals decide +kernel
  · refine ⟨?_, ?_, ?_, ?_, ?_, trivial⟩
    all_goals
      simp only [KeepsTails]
      decide +kernel

/-- A pass that drops the superseded record at the end of the first segment. -/
def tailDropped : List Op :=
  [.append (.keyed 1 (some 10)) 0 0, .append (.keyed 2 (some 20)) 0 0, .rotate 0,
    .append (.keyed 2 (some 21)) 0 0, .compact 0]

/-- The reader that has received offset 0 asks for offset 1 for ever, although
offset 2 is retained and committed. -/
theorem not_scanComplete_tailDropped :
    ¬ (run (step .storing) (create .plain 0) tailDropped).ScanComplete .storing := by
  intro h
  exact h.progress 1 100 3 (by decide +kernel) (by decide +kernel)

/-- In every run that stores batches in range, batches lie in offset order inside and across
segments, index entries stand at batches, and the log ends where the active segment does. -/
theorem layout_run (hc : c.Lawful) (config : EngineConfig) (now : Nat) {ops : List Op}
    (hops : Run.Guarded (step c) (StoresInRange c) (create config now) ops) :
    Always (step c) (SegmentManager.Layout c) (create config now) ops :=
  hops.always (fun _ h => h) (fun _ _ h hop => layout_step hc h hop) (Layout.create c config now)

theorem layout_rotated : Always (step .storing) (SegmentManager.Layout .storing) (create .plain 0)
    [.append (.keyed 1 (some 10)) 0 0, .rotate 0, .compact 0] := by
  have hformed : RecordBatch.WellFormed .storing
      (RecordBatch.assignBaseOffsetAndLeaderEpoch .storing (.keyed 1 (some 10)) 0 0) :=
    ⟨[], ⟨0, 0, some [1], some [10]⟩, rfl, pairwise_singleton _ _, rfl⟩
  exact layout_run Crates.storing_lawful .plain 0 ⟨hformed.inRange, trivial, trivial, trivial⟩

end Bifrox.Segment

/-
Reading a log from end to end.

A fetch looks in one segment only, the last one whose base is at or below the requested offset.
It finds the next batch there exactly when every segment reaches up to the base of the next one
that still holds a batch.
-/
import Bifrox.Segment.Layout

namespace Bifrox.Segment

open List Protocol SegmentPair

/-! ## The header walk -/

namespace SegmentManager

theorem entriesFrom_append (pre es : List RecordBatch) :
    entriesFrom (sizeOf pre) (pre ++ es) = es := by
  induction pre with
  | nil => rw [sizeOf_nil, nil_append, entriesFrom]
  | cons b pre ih =>
    have hpos := encodedSize_pos b
    obtain ⟨n, hn⟩ : ∃ n, sizeOf (b :: pre) = n + 1 :=
      ⟨sizeOf (b :: pre) - 1, by rw [sizeOf_cons]; omega⟩
    have hrest : n + 1 - b.encodedSize = sizeOf pre := by
      rw [sizeOf_cons] at hn
      omega
    rw [hn, cons_append, entriesFrom, hrest, ih]

theorem entriesWithin_append (es rest : List RecordBatch) :
    entriesWithin (sizeOf es) (es ++ rest) = es := by
  induction es with
  | nil =>
    cases rest with
    | nil => rfl
    | cons b =>
      have hpos := encodedSize_pos b
      rw [nil_append, entriesWithin, if_neg (by rw [sizeOf_nil]; omega)]
  | cons b es ih =>
    rw [cons_append, entriesWithin, sizeOf_cons, if_pos (by omega), Nat.add_sub_cancel_left, ih]

theorem frameEntries_some {startOffset bound : Nat} {es : List RecordBatch}
    (hes : ∀ b ∈ es, startOffset ≤ b.lastOffset) (budget cursor first : Nat) :
    ∃ taken rest, es = taken ++ rest ∧
      ((∀ b ∈ taken, b.lastOffset < bound) ∧ (budget ≤ cursor → taken = [])) ∧
      frameEntries startOffset bound budget cursor (some first) cursor es =
        some (first, cursor + sizeOf taken) := by
  induction es generalizing budget cursor with
  | nil => exact ⟨[], [], rfl, by simp, rfl⟩
  | cons b es ih =>
    have hpos := encodedSize_pos b
    rw [frameEntries]
    by_cases hbudget : cursor + b.encodedSize > budget ∧ (some first).isSome = true
    · rw [if_pos hbudget]
      exact ⟨[], b :: es, rfl, by simp, rfl⟩
    · rw [if_neg hbudget]
      by_cases hbound : b.lastOffset ≥ bound
      · rw [if_pos hbound]
        exact ⟨[], b :: es, rfl, by simp, rfl⟩
      · rw [if_neg hbound, if_pos (hes b (mem_cons_self ..))]
        obtain ⟨taken, rest, heq, htaken, hframe⟩ :=
          ih (fun b' hb' => hes b' (mem_cons_of_mem _ hb'))
            (max budget (cursor + b.encodedSize)) (cursor + b.encodedSize)
        refine ⟨b :: taken, rest, by rw [heq, cons_append], ⟨?_, fun hle => ?_⟩, ?_⟩
        · intro b' hb'
          rcases mem_cons.mp hb' with rfl | hb'
          · omega
          · exact htaken.1 b' hb'
        · exact absurd ⟨by omega, rfl⟩ hbudget
        · rw [Option.getD_some, hframe, sizeOf_cons]
          simp only [Option.some.injEq, Prod.mk.injEq, true_and]
          omega

variable {c : Crates} {b : RecordBatch} {bound startOffset maxBytes next : Nat}
  {skip rest : List RecordBatch}

theorem frameEntries_none (hskip : ∀ x ∈ skip, x.lastOffset < startOffset ∧ x.lastOffset < bound)
    (hb : startOffset ≤ b.lastOffset) (hbound : b.lastOffset < bound)
    (hrest : ∀ x ∈ rest, startOffset ≤ x.lastOffset) (budget cursor : Nat) :
    ∃ taken rest', rest = taken ++ rest' ∧
      ((∀ x ∈ taken, x.lastOffset < bound) ∧ (budget ≤ cursor → taken = [])) ∧
      frameEntries startOffset bound budget cursor none 0 (skip ++ b :: rest) =
        some (cursor + sizeOf skip, cursor + sizeOf skip + sizeOf (b :: taken)) := by
  induction skip generalizing budget cursor with
  | nil =>
    obtain ⟨taken, rest', heq, htaken, hframe⟩ := @frameEntries_some startOffset bound rest hrest
      (max budget (cursor + b.encodedSize)) (cursor + b.encodedSize) cursor
    refine ⟨taken, rest', heq, ⟨htaken.1, fun hle => htaken.2 (by omega)⟩, ?_⟩
    rw [nil_append, frameEntries, if_neg (by simp), if_neg (by omega), if_pos hb,
      Option.getD_none, hframe, sizeOf_cons]
    simp only [sizeOf_nil, Option.some.injEq, Prod.mk.injEq]
    omega
  | cons x skip ih =>
    obtain ⟨hx, hxb⟩ := hskip x (mem_cons_self ..)
    obtain ⟨taken, rest', heq, htaken, hframe⟩ :=
      ih (fun y hy => hskip y (mem_cons_of_mem _ hy))
        (max budget (cursor + x.encodedSize)) (cursor + x.encodedSize)
    refine ⟨taken, rest', heq, ⟨htaken.1, fun hle => htaken.2 (by omega)⟩, ?_⟩
    rw [cons_append, frameEntries, if_neg (by simp), if_neg (by omega), if_neg (by omega), hframe]
    simp only [sizeOf_cons, Option.some.injEq, Prod.mk.injEq]
    omega

theorem frameEntries_eq_none {es : List RecordBatch}
    (hes : ∀ b ∈ es, ¬ (startOffset ≤ b.lastOffset ∧ b.lastOffset < bound))
    (budget cursor stop : Nat) :
    frameEntries startOffset bound budget cursor none stop es = none := by
  induction es generalizing budget cursor with
  | nil => rfl
  | cons b es ih =>
    have hb := hes b (mem_cons_self ..)
    rw [frameEntries, if_neg (by simp)]
    by_cases hbound : b.lastOffset ≥ bound
    · rw [if_pos hbound]
      rfl
    · rw [if_neg hbound, if_neg (by omega)]
      exact ih (fun x hx => hes x (mem_cons_of_mem _ hx)) _ _

/-! ## Fetching from one segment -/

/-- The offsets of a segment fit the offset column of its index. -/
def FitsIndex (p : SegmentPair) : Prop := ∀ b ∈ p.log, b.baseOffset < p.baseOffset + 2 ^ 32

/-- The sparse index never sends a read past an entry it wants. -/
theorem seekPosition_spec {p : SegmentPair} (hp : p.Sound c) (hfits : FitsIndex p)
    (startOffset : Nat) :
    ∃ pre es, p.log = pre ++ es ∧ seekPosition p startOffset = sizeOf pre ∧
      ∀ b ∈ pre, b.lastOffset < startOffset := by
  rw [seekPosition]
  rcases hfind : findNearestPhysicalPos p.baseOffset p.index startOffset with _ | e
  · exact ⟨[], p.log, rfl, rfl, by simp⟩
  · obtain ⟨hmem, hpos⟩ := findNearestPhysicalPos_eq_some hfind
    rcases hpos with hhead | hrel
    · exact ⟨[], p.log, rfl, hp.index.head e hhead, by simp⟩
    · obtain ⟨pre, b, post, hlog, rfl⟩ := hp.index.boundary e hmem
      refine ⟨pre, b :: post, hlog, rfl, fun x hx => ?_⟩
      have hb : b ∈ p.log := by simp [hlog]
      have hxlog : x ∈ p.log := by simp [hlog, hx]
      have hinc := hp.increasing
      rw [hlog, pairwise_append] at hinc
      have hlt : x.lastOffset < b.baseOffset := hinc.2.2 x hx b (mem_cons_self ..)
      have hxbase := hp.base_le x hxlog
      have hxlast := base_le_lastOffset x
      have hbfits := hfits b hb
      -- the column is exact for `b` and at most exact for the target
      have hcol : (b.baseOffset - p.baseOffset) % 2 ^ 32 = b.baseOffset - p.baseOffset :=
        Nat.mod_eq_of_lt (by omega)
      have htarget := Nat.mod_le (startOffset - p.baseOffset) (2 ^ 32)
      simp only [IndexEntry.at, relativeTo, hcol] at hrel
      omega

/-- What a fetch answers when the segment it looks in holds a wanted entry `b`:
a run of entries that starts with `b`, and `b` alone without a budget. -/
theorem fetchEntries_eq {s : SegmentManager} (maxBytes : Nat)
    (hp : (s.findSegmentPair startOffset).Sound c)
    (hfits : FitsIndex (s.findSegmentPair startOffset))
    (hlog : (s.findSegmentPair startOffset).log = skip ++ b :: rest)
    (hskip : ∀ x ∈ skip, x.lastOffset < startOffset) (hb : startOffset ≤ b.lastOffset)
    (hbound : b.lastOffset < bound) :
    ∃ taken rest', rest = taken ++ rest' ∧
      ((∀ x ∈ taken, x.lastOffset < bound) ∧ (maxBytes = 0 → taken = [])) ∧
      s.fetchEntries startOffset maxBytes bound = b :: taken := by
  obtain ⟨pre, es, hsplit, hseek, hpre⟩ := seekPosition_spec hp hfits startOffset
  obtain ⟨skip', rfl, rfl⟩ : ∃ skip', skip = pre ++ skip' ∧ es = skip' ++ b :: rest := by
    rw [hsplit] at hlog
    rcases append_eq_append_iff.mp hlog with ⟨m, hm, hes⟩ | ⟨m, hm, hes⟩
    · exact ⟨m, hm, hes⟩
    · cases m with
      | nil => exact ⟨[], by simpa using hm.symm, by simpa using hes.symm⟩
      | cons =>
        -- then `b` would be among the entries the index skipped
        rw [cons_append, List.cons.injEq] at hes
        have hlt := hpre b (by rw [hm, hes.1]; simp)
        omega
  have hrest : ∀ x ∈ rest, startOffset ≤ x.lastOffset := by
    intro x hx
    have hinc := hp.increasing
    rw [hlog, pairwise_append, pairwise_cons] at hinc
    have hlt := hinc.2.1.1 x hx
    have hle := base_le_lastOffset x
    omega
  have hskip' : ∀ x ∈ skip', x.lastOffset < startOffset ∧ x.lastOffset < bound := by
    intro x hx
    have hlt := hskip x (mem_append_right _ hx)
    exact ⟨hlt, by omega⟩
  obtain ⟨taken, rest', heq, htaken, hframe⟩ :=
    frameEntries_none hskip' hb hbound hrest maxBytes 0
  refine ⟨taken, rest', heq, ⟨htaken.1, fun hzero => htaken.2 (by omega)⟩, ?_⟩
  have hplan : s.planEntriesRange startOffset maxBytes bound =
      some { physicalStart := sizeOf pre + sizeOf skip',
             physicalLen := sizeOf (b :: taken) } := by
    rw [planEntriesRange, hseek, hsplit, entriesFrom_append, hframe]
    simp only [Option.map_some, Option.some.injEq, EntriesRange.mk.injEq]
    omega
  have hsize : sizeOf pre + sizeOf skip' = sizeOf (pre ++ skip') := (sizeOf_append ..).symm
  have hlast : skip' ++ b :: rest = skip' ++ ((b :: taken) ++ rest') := by rw [heq]; rfl
  rw [fetchEntries, hplan]
  simp only
  rw [hsize, hsplit, hlast, ← append_assoc, entriesFrom_append, entriesWithin_append]

theorem fetchEntries_eq_nil {s : SegmentManager} (hp : (s.findSegmentPair startOffset).Sound c)
    (hfits : FitsIndex (s.findSegmentPair startOffset))
    (hnone : ∀ b ∈ (s.findSegmentPair startOffset).log,
      ¬ (startOffset ≤ b.lastOffset ∧ b.lastOffset < bound)) :
    s.fetchEntries startOffset maxBytes bound = [] := by
  obtain ⟨pre, es, hsplit, hseek, -⟩ := seekPosition_spec hp hfits startOffset
  have hes : ∀ b ∈ es, ¬ (startOffset ≤ b.lastOffset ∧ b.lastOffset < bound) :=
    fun b hb => hnone b (by rw [hsplit]; exact mem_append_right _ hb)
  have hplan : s.planEntriesRange startOffset maxBytes bound = none := by
    rw [planEntriesRange, hseek, hsplit, entriesFrom_append, frameEntries_eq_none hes]
    rfl
  rw [fetchEntries, hplan]

/-! ## The segment a fetch looks in -/

theorem findSegmentPair_spec (s : SegmentManager) (offset : Nat) :
    ∃ pre post, s.segments = pre ++ s.findSegmentPair offset :: post ∧
      (∀ q ∈ post, offset < q.baseOffset) ∧
      ((s.findSegmentPair offset).baseOffset ≤ offset ∨ pre = []) := by
  by_cases hact : offset ≥ s.active.baseOffset ∨ s.historical = []
  · have hval : s.findSegmentPair offset = s.active := by rw [findSegmentPair, if_pos hact]
    rw [hval]
    exact ⟨s.historical, [], rfl, by simp, hact⟩
  · have hlt : offset < s.active.baseOffset := by
      by_contra hge
      exact hact (.inl (Nat.le_of_not_lt hge))
    cases hfind : s.historical.reverse.find? (fun p => offset ≥ p.baseOffset) with
    | none =>
      have hval : s.findSegmentPair offset = s.historical.headD s.active := by
        simp only [findSegmentPair, if_neg hact, hfind]
      rw [List.find?_eq_none] at hfind
      obtain ⟨p, rest, hhist⟩ := exists_cons_of_ne_nil (fun hnil => hact (.inr hnil))
      have hp : s.findSegmentPair offset = p := by rw [hval, hhist]; rfl
      rw [hp]
      refine ⟨[], rest ++ [s.active], by rw [segments, hhist]; rfl, fun q hq => ?_, .inr rfl⟩
      rw [mem_append, mem_singleton] at hq
      rcases hq with hq | rfl
      · simpa using hfind q (by rw [hhist]; simp [hq])
      · exact hlt
    | some p =>
      have hval : s.findSegmentPair offset = p := by
        simp only [findSegmentPair, if_neg hact, hfind]
      rw [List.find?_eq_some_iff_append] at hfind
      obtain ⟨hp, as, bs, hrev, has⟩ := hfind
      have hhist : s.historical = bs.reverse ++ p :: as.reverse := by
        simpa using congrArg List.reverse hrev
      rw [hval]
      refine ⟨bs.reverse, as.reverse ++ [s.active], by rw [segments, hhist]; simp, fun q hq => ?_,
        .inl (by simpa using hp)⟩
      rw [mem_append, mem_singleton, mem_reverse] at hq
      rcases hq with hq | rfl
      · simpa using has q hq
      · exact hlt

/-- How far the offsets below the next segment are covered by `p`, which comes
after `pre`. -/
def coveredTo (pre : List SegmentPair) (p : SegmentPair) : Nat :=
  if p.log = [] then (if pre = [] then 0 else p.baseOffset) else p.nextOffset

/-- Each segment reaches up to the next one, as long as there is anything left
to read from there on. -/
def NoBoundaryGap (s : SegmentManager) : Prop :=
  ∀ pre p q post, s.segments = pre ++ p :: q :: post →
    (∃ q' ∈ q :: post, q'.log ≠ []) → q.baseOffset ≤ coveredTo pre p

/-- A log that can be read: in order, with offsets that fit the index, every
batch consistent with its header. -/
structure Scannable (c : Crates) (s : SegmentManager) : Prop where
  layout : s.Layout c
  fits : ∀ p ∈ s.segments, FitsIndex p
  wellFormed : ∀ b ∈ s.retained, b.WellFormed c

variable {s : SegmentManager} {before after : List RecordBatch}
  {pre post : List SegmentPair} {log : List RecordBatch}

theorem mem_segments_findSegmentPair (s : SegmentManager) (offset : Nat) :
    s.findSegmentPair offset ∈ s.segments := by
  obtain ⟨pre, post, hsegs, -, -⟩ := s.findSegmentPair_spec offset
  rw [hsegs]
  exact mem_append_right _ (mem_cons_self ..)

theorem mem_of_mem_entriesFrom {pos : Nat} (h : b ∈ entriesFrom pos log) : b ∈ log := by
  fun_induction entriesFrom pos log with
  | case1 => exact h
  | case2 => exact h
  | case3 pos b' log ih => exact mem_cons_of_mem _ (ih h)

theorem mem_of_mem_entriesWithin {len : Nat} (h : b ∈ entriesWithin len log) : b ∈ log := by
  fun_induction entriesWithin len log with
  | case1 => exact h
  | case2 len b' log _ ih =>
    rcases mem_cons.mp h with rfl | h
    · exact mem_cons_self ..
    · exact mem_cons_of_mem _ (ih h)
  | case3 => cases h

theorem mem_retained_of_mem_fetchEntries (h : b ∈ s.fetchEntries startOffset maxBytes bound) :
    b ∈ s.retained := by
  rw [fetchEntries] at h
  split at h
  · cases h
  · have hlog := mem_of_mem_entriesFrom (mem_of_mem_entriesWithin h)
    exact mem_retained.mpr ⟨_, mem_segments_findSegmentPair s startOffset, hlog⟩

theorem Layout.lt_of_mem_before (h : s.Layout c) {offset : Nat}
    (hsegs : s.segments = pre ++ s.findSegmentPair offset :: post)
    (hpre : (s.findSegmentPair offset).baseOffset ≤ offset ∨ pre = []) {p : SegmentPair}
    (hp : p ∈ pre) (hb : b ∈ p.log) : b.lastOffset < offset := by
  have hord := h.ordered
  rw [hsegs, pairwise_append] at hord
  have hlt := (hord.2.2 p hp _ (mem_cons_self ..)).last_lt b hb
  rcases hpre with hle | rfl
  · omega
  · cases hp

theorem exists_wanted (h : s.Layout c) (hgap : s.NoBoundaryGap)
    (hret : s.retained = before ++ b :: after) (hnext : next ≤ b.lastOffset) :
    ∃ b' ∈ (s.findSegmentPair next).log, next ≤ b'.lastOffset := by
  obtain ⟨pre, post, hsegs, hpost, hpre⟩ := s.findSegmentPair_spec next
  obtain ⟨p, hp, hbp⟩ := mem_retained.mp (hret ▸ mem_append_right _ mem_cons_self)
  rw [hsegs, mem_append, mem_cons] at hp
  rcases hp with hp | rfl | hp
  · have hlt := h.lt_of_mem_before hsegs hpre hp hbp
    omega
  · exact ⟨b, hbp, hnext⟩
  · obtain ⟨q, post', rfl⟩ := exists_cons_of_ne_nil (ne_nil_of_mem hp)
    have hcov := hgap pre _ q post' hsegs ⟨p, hp, ne_nil_of_mem hbp⟩
    have hq := hpost q (mem_cons_self ..)
    rw [coveredTo] at hcov
    split at hcov
    · split at hcov
      · omega
      · next hnil =>
        have hle := hpre.resolve_right hnil
        omega
    · next hlog =>
      obtain ⟨init, last, hlast⟩ := (eq_nil_or_concat' _).resolve_left hlog
      refine ⟨last, by rw [hlast]; simp, ?_⟩
      rw [nextOffset_concat hlast] at hcov
      omega

theorem cut_unique {α : Type} {P : α → Prop} {l l' r r' : List α} {a a' : α}
    (h : l ++ a :: r = l' ++ a' :: r') (hl : ∀ x ∈ l, P x) (hl' : ∀ x ∈ l', P x) (ha : ¬ P a)
    (ha' : ¬ P a') : l = l' ∧ a = a' ∧ r = r' := by
  classical
  have htake : ∀ {l r : List α} {a : α}, (∀ x ∈ l, P x) → ¬ P a →
      (l ++ a :: r).takeWhile (fun x => P x) = l := by
    intro l r a hl ha
    rw [takeWhile_append_of_pos (by simpa using hl), takeWhile_cons_of_neg (by simpa using ha),
      append_nil]
  obtain rfl : l = l' := (htake hl ha).symm.trans (h ▸ htake hl' ha')
  simpa using h

theorem exists_cut {α : Type} {P : α → Prop} {l : List α} (h : ∃ a ∈ l, ¬ P a) :
    ∃ pre a post, l = pre ++ a :: post ∧ (∀ x ∈ pre, P x) ∧ ¬ P a := by
  classical
  obtain ⟨a, ha⟩ := Option.isSome_iff_exists.mp
    ((List.find?_isSome (p := fun x => ¬ P x)).mpr (by simpa using h))
  obtain ⟨hnot, pre, post, hl, hpre⟩ := List.find?_eq_some_iff_append.mp ha
  exact ⟨pre, a, post, hl, fun x hx => by simpa using hpre x hx, by simpa using hnot⟩

/-- A fetch that finds a wanted entry in its segment answers with the next retained batches,
from the first one that ends at or after `next`. -/
theorem fetchEntries_of_wanted (h : s.Layout c) (hfits : ∀ p ∈ s.segments, FitsIndex p)
    (hwanted : ∃ b' ∈ (s.findSegmentPair next).log, next ≤ b'.lastOffset) (maxBytes : Nat)
    (hret : s.retained = before ++ b :: after) (hbefore : ∀ x ∈ before, x.lastOffset < next)
    (hb : next ≤ b.lastOffset) (hbound : b.lastOffset < bound) :
    ∃ taken after', after = taken ++ after' ∧
      ((∀ x ∈ taken, x.lastOffset < bound) ∧ (maxBytes = 0 → taken = [])) ∧
      s.fetchEntries next maxBytes bound = b :: taken := by
  obtain ⟨pre, post, hsegs, -, hpre⟩ := s.findSegmentPair_spec next
  have hmem := s.mem_segments_findSegmentPair next
  obtain ⟨b', hb', hnext'⟩ := hwanted
  obtain ⟨skip, b₀, rest, hlog, hskip, hb₀⟩ :=
    exists_cut (P := fun x => x.lastOffset < next) ⟨b', hb', Nat.not_lt.mpr hnext'⟩
  have hearlier : ∀ x ∈ pre.flatMap log ++ skip, x.lastOffset < next := by
    intro x hx
    rcases mem_append.mp hx with hx | hx
    · obtain ⟨p, hp, hxp⟩ := mem_flatMap.mp hx
      exact h.lt_of_mem_before hsegs hpre hp hxp
    · exact hskip x hx
  have hcut : before ++ b :: after =
      (pre.flatMap log ++ skip) ++ b₀ :: (rest ++ post.flatMap log) := by
    rw [← hret, retained, hsegs, flatMap_append, flatMap_cons, hlog]
    simp
  obtain ⟨-, rfl, rfl⟩ := cut_unique (P := fun x => x.lastOffset < next) hcut hbefore hearlier
    (Nat.not_lt.mpr hb) hb₀
  obtain ⟨taken, rest', rfl, htaken, hfetch⟩ := fetchEntries_eq maxBytes
    (h.sound _ hmem) (hfits _ hmem) hlog hskip hb hbound
  exact ⟨taken, rest' ++ post.flatMap log, by simp, htaken, hfetch⟩

theorem findSegmentPair_base (h : s.Layout c) (hb : b ∈ s.retained) :
    b ∈ (s.findSegmentPair b.baseOffset).log := by
  obtain ⟨pre, post, hsegs, hpost, hpre⟩ := s.findSegmentPair_spec b.baseOffset
  obtain ⟨p, hp, hbp⟩ := mem_retained.mp hb
  have hlast := base_le_lastOffset b
  have hbase := (h.sound p hp).base_le b hbp
  rw [hsegs, mem_append, mem_cons] at hp
  rcases hp with hp | rfl | hp
  · have hlt := h.lt_of_mem_before hsegs hpre hp hbp
    omega
  · exact hbp
  · have hlt := hpost p hp
    omega

/-! ## The reader loop -/

/-- What a reader keeps of one fetch: the records from the offset it asked for
on. -/
def receive (c : Crates) (s : SegmentManager) (maxBytes bound next : Nat) : List Record :=
  (recordsFromEntries c (s.fetchEntries next maxBytes bound)).filter (fun r => next ≤ r.offset)

/-- Fetch, move to one past the last record received, and fetch again until
nothing comes back. -/
def readLoop (c : Crates) (s : SegmentManager) (maxBytes bound : Nat) : Nat → Nat → List Record
  | 0, _ => []
  | fuel + 1, next =>
    let received := s.receive c maxBytes bound next
    match received.getLast? with
    | none => []
    | some r => received ++ readLoop c s maxBytes bound fuel (r.offset + 1)

/-- A reader gets through the log: fetches make progress, and the loop ends with every record below
the bound, in offset order. -/
structure ScanComplete (c : Crates) (s : SegmentManager) : Prop where
  progress : ∀ next maxBytes bound, (∃ b ∈ s.retained, next ≤ b.lastOffset ∧ b.lastOffset < bound) →
    s.fetchEntries next maxBytes bound ≠ []
  complete : ∀ start maxBytes bound, (∀ r ∈ s.allRecords c, start ≤ r.offset) →
    ∃ n, ∀ fuel ≥ n, readLoop c s maxBytes bound fuel start =
      recordsFromEntries c (s.retained.filter (fun b => b.lastOffset < bound))
  inOrder : (s.allRecords c).Pairwise (fun r r' => r.offset < r'.offset)

theorem Layout.retained_increasing (h : s.Layout c) :
    s.retained.Pairwise (fun b b' => b.lastOffset < b'.baseOffset) := by
  rw [retained, pairwise_flatMap]
  refine ⟨fun p hp => (h.sound p hp).increasing, h.ordered.imp_of_mem ?_⟩
  intro p q hp hq hpq b hb b' hb'
  have hlt := hpq.last_lt b hb
  have hle := (h.sound q hq).base_le b' hb'
  omega

/-- The first batch that does not end below an offset. -/
theorem Layout.exists_first (h : s.Layout c) (hb : b ∈ s.retained) (hnext : next ≤ b.lastOffset) :
    ∃ before b₀ after, s.retained = before ++ b₀ :: after ∧ (∀ x ∈ before, x.lastOffset < next) ∧
      next ≤ b₀.lastOffset ∧ b₀.lastOffset ≤ b.lastOffset := by
  obtain ⟨before, b₀, after, hret, hbefore, hb₀⟩ :=
    exists_cut (P := fun x => x.lastOffset < next) ⟨b, hb, Nat.not_lt.mpr hnext⟩
  refine ⟨before, b₀, after, hret, hbefore, Nat.le_of_not_lt hb₀, ?_⟩
  have hinc := h.retained_increasing
  rw [hret, pairwise_append, pairwise_cons] at hinc
  rw [hret, mem_append, mem_cons] at hb
  rcases hb with hb | rfl | hb
  · have hlt := hbefore b hb
    omega
  · exact le_refl _
  · have hlt := hinc.2.1.1 b hb
    have hlast := base_le_lastOffset b
    omega

theorem Layout.offset_le (h : s.Layout c) (hb : b ∈ s.retained) {r : Record}
    (hr : r ∈ recordsOf c b) : r.offset ≤ b.lastOffset := by
  obtain ⟨p, hp, hbp⟩ := mem_retained.mp hb
  exact le_lastOffset_of_mem_recordsOf ((h.sound p hp).inRange b hbp) hr

theorem recordsOf_wellFormed (h : b.WellFormed c) :
    (recordsOf c b).Pairwise (fun r r' => r.offset < r'.offset) ∧
    (∀ r ∈ recordsOf c b, b.baseOffset ≤ r.offset ∧ r.offset ≤ b.lastOffset) ∧
    ∃ init last, recordsOf c b = init ++ [last] ∧ last.offset = b.lastOffset := by
  obtain ⟨init, last, hok, hinc, hlast⟩ := h
  have hrec : recordsOf c b = (init ++ [last]).map (Record.ofBatchRecord b.isControl) := by
    rw [recordsOf, hok]
  refine ⟨?_, fun r hr => ?_, ?_⟩
  · rw [hrec, pairwise_map]
    exact hinc
  · refine ⟨(base_le_of_mem_recordsOf hr).1, le_lastOffset_of_mem_recordsOf ?_ hr⟩
    exact RecordBatch.WellFormed.inRange ⟨init, last, hok, hinc, hlast⟩
  · exact ⟨_, _, by rw [hrec, map_append]; rfl, hlast⟩

/-- One round of the loop: the records of the next batches, and the offset after
the last of them. -/
theorem readLoop_succ {fuel : Nat} {chunk : List RecordBatch}
    (hfetch : s.fetchEntries next maxBytes bound = chunk ++ [b]) (hb : b.WellFormed c)
    (hnext : ∀ x ∈ chunk ++ [b], ∀ r ∈ recordsOf c x, next ≤ r.offset) :
    readLoop c s maxBytes bound (fuel + 1) next = recordsFromEntries c (chunk ++ [b]) ++
        readLoop c s maxBytes bound fuel (b.lastOffset + 1) := by
  have hall : s.receive c maxBytes bound next = recordsFromEntries c (chunk ++ [b]) := by
    rw [receive, hfetch, filter_eq_self]
    intro r hr
    obtain ⟨x, hx, hrx⟩ := mem_recordsFromEntries.mp hr
    exact decide_eq_true (hnext x hx r hrx)
  obtain ⟨-, -, init, last, hrec, hlast⟩ := recordsOf_wellFormed hb
  have hend : (recordsFromEntries c (chunk ++ [b])).getLast? = some last := by
    rw [recordsFromEntries_append, recordsFromEntries_singleton, hrec, ← append_assoc,
      List.getLast?_concat]
  rw [readLoop, hall]
  simp only [hend, hlast]

theorem fetchEntries_eq_nil_of_retained (h : s.Scannable c) (maxBytes : Nat)
    (hnone : ∀ b ∈ s.retained, ¬ (next ≤ b.lastOffset ∧ b.lastOffset < bound)) :
    s.fetchEntries next maxBytes bound = [] := by
  have hmem := s.mem_segments_findSegmentPair next
  refine fetchEntries_eq_nil (h.layout.sound _ hmem) (h.fits _ hmem) (fun b hb => ?_)
  exact hnone b (mem_retained.mpr ⟨_, hmem, hb⟩)

theorem readLoop_of_fetch_nil (hfetch : s.fetchEntries next maxBytes bound = []) (fuel : Nat) :
    readLoop c s maxBytes bound fuel next = [] := by
  cases fuel with
  | zero => rfl
  | succ =>
    rw [readLoop, receive, hfetch]
    rfl

theorem Layout.retained_split (h : s.Layout c) {l r : List RecordBatch}
    (hret : s.retained = l ++ [b] ++ r) :
    (∀ x ∈ l ++ [b], x.lastOffset ≤ b.lastOffset) ∧ ∀ x ∈ r, b.lastOffset < x.baseOffset := by
  have hinc := h.retained_increasing
  rw [hret, pairwise_append, pairwise_append] at hinc
  obtain ⟨⟨-, -, hlow⟩, -, hhigh⟩ := hinc
  refine ⟨fun x hx => ?_, fun x hx => ?_⟩
  · rw [mem_append, mem_singleton] at hx
    rcases hx with hx | rfl
    · have hlt := hlow x hx b (mem_singleton_self _)
      have hle := base_le_lastOffset b
      omega
    · exact le_refl _
  · exact hhigh b (mem_append_right _ (mem_singleton_self _)) x hx

theorem readLoop_of_bound_le (h : s.Scannable c) (maxBytes : Nat)
    {before rest : List RecordBatch} (hret : s.retained = before ++ b :: rest)
    (hbefore : ∀ x ∈ before, x.lastOffset < next) (hbound : bound ≤ b.lastOffset) (fuel : Nat) :
    readLoop c s maxBytes bound fuel next = [] ∧
      (b :: rest).filter (fun b => b.lastOffset < bound) = [] := by
  have hret' : s.retained = before ++ [b] ++ rest := by rw [hret]; simp
  have hge : ∀ x ∈ b :: rest, bound ≤ x.lastOffset := by
    intro x hx
    rcases mem_cons.mp hx with rfl | hx
    · exact hbound
    · have hlt := (h.layout.retained_split hret').2 x hx
      have hle := base_le_lastOffset x
      omega
  refine ⟨readLoop_of_fetch_nil (fetchEntries_eq_nil_of_retained h maxBytes ?_) fuel, ?_⟩
  · intro x hx
    rw [hret, mem_append] at hx
    rcases hx with hx | hx
    · have hlt := hbefore x hx
      omega
    · have hle := hge x hx
      omega
  · rw [filter_eq_nil_iff]
    intro x hx
    simpa using hge x hx

/-- The loop from a batch boundary on.  The induction is on the batches still to
be read; each round consumes at least one of them. -/
theorem readLoop_eq (h : s.Scannable c) (hgap : s.NoBoundaryGap) {n : Nat} {fuel : Nat}
    (hn : after.length ≤ n) (hfuel : after.length ≤ fuel) (hret : s.retained = before ++ after)
    (hbefore : ∀ x ∈ before, x.lastOffset < next)
    (hafter : ∀ x ∈ after, ∀ r ∈ recordsOf c x, next ≤ r.offset) :
    readLoop c s maxBytes bound fuel next =
      recordsFromEntries c (after.filter (fun b => b.lastOffset < bound)) := by
  induction n generalizing before after next fuel with
  | zero =>
    have hnil : after = [] := eq_nil_of_length_eq_zero (by omega)
    subst hnil
    refine readLoop_of_fetch_nil (fetchEntries_eq_nil_of_retained h maxBytes ?_) fuel
    intro b hb
    rw [hret, append_nil] at hb
    have hlt := hbefore b hb
    omega
  | succ n ih =>
    cases after with
    | nil => exact ih (Nat.zero_le _) hfuel hret hbefore hafter
    | cons b =>
      by_cases hbound : b.lastOffset < bound
      · have hnext : next ≤ b.lastOffset := by
          have hb : b ∈ s.retained := by rw [hret]; simp
          obtain ⟨-, -, init, last, hrec, hlast⟩ := recordsOf_wellFormed (h.wellFormed b hb)
          rw [← hlast]
          exact hafter b (mem_cons_self ..) last (by rw [hrec]; simp)
        obtain ⟨taken, after', rfl, htaken, hfetch⟩ :=
          fetchEntries_of_wanted h.layout h.fits (exists_wanted h.layout hgap hret hnext) maxBytes
            hret hbefore hnext hbound
        obtain ⟨chunk, b', hchunk⟩ : ∃ chunk b', b :: taken = chunk ++ [b'] :=
          (eq_nil_or_concat' (b :: taken)).resolve_left (by simp)
        have hsplit : b :: (taken ++ after') = chunk ++ [b'] ++ after' := by
          rw [← hchunk, cons_append]
        have hret' : s.retained = before ++ chunk ++ [b'] ++ after' := by
          rw [hret, hsplit]
          simp
        obtain ⟨hlow, hhigh⟩ := h.layout.retained_split hret'
        have hchunkBound : ∀ x ∈ chunk ++ [b'], x.lastOffset < bound := by
          intro x hx
          rw [← hchunk] at hx
          rcases mem_cons.mp hx with rfl | hx
          · exact hbound
          · exact htaken.1 x hx
        rw [hsplit, length_append, length_append, length_singleton] at hn hfuel
        obtain ⟨fuel, rfl⟩ : ∃ k, fuel = k + 1 := ⟨fuel - 1, by omega⟩
        have hrest : readLoop c s maxBytes bound fuel (b'.lastOffset + 1) =
            recordsFromEntries c (after'.filter (fun b => b.lastOffset < bound)) := by
          refine ih (by omega) (by omega) hret' (fun x hx => ?_) (fun x hx r hr => ?_)
          · exact Nat.lt_succ_of_le (hlow x hx)
          · have hxret : x ∈ s.retained := by rw [hret']; exact mem_append_right _ hx
            have hrange := (recordsOf_wellFormed (h.wellFormed x hxret)).2.1 r hr
            have hlt := hhigh x hx
            omega
        rw [hsplit] at hafter ⊢
        rw [readLoop_succ (hfetch.trans hchunk) (h.wellFormed b' (by rw [hret']; simp))
          (fun x hx => hafter x (mem_append_left _ hx)), hrest, filter_append,
          filter_eq_self.mpr (fun x hx => decide_eq_true (hchunkBound x hx)),
          recordsFromEntries_append c (chunk ++ [b'])]
      · obtain ⟨hloop, hnil⟩ := readLoop_of_bound_le h maxBytes hret hbefore
          (Nat.le_of_not_lt hbound) fuel
        rw [hloop, hnil]
        rfl

/-! ## Completeness is the absence of gaps -/

theorem allRecords_increasing (h : s.Scannable c) :
    (s.allRecords c).Pairwise (fun r r' => r.offset < r'.offset) := by
  rw [allRecords, recordsFromEntries, pairwise_flatMap]
  refine ⟨fun b hb => (recordsOf_wellFormed (h.wellFormed b hb)).1,
    h.layout.retained_increasing.imp_of_mem ?_⟩
  intro b b' hb hb' hlt r hr r' hr'
  have hrange := (recordsOf_wellFormed (h.wellFormed b hb)).2.1 r hr
  have hrange' := (recordsOf_wellFormed (h.wellFormed b' hb')).2.1 r' hr'
  omega

theorem scanComplete_of_noBoundaryGap (h : s.Scannable c) (hgap : s.NoBoundaryGap) :
    s.ScanComplete c := by
  refine ⟨?_, ?_, allRecords_increasing h⟩
  · rintro next maxBytes bound ⟨b, hb, hnext, hbound⟩
    obtain ⟨before, b₀, after, hret, hbefore, hb₀, hle⟩ := h.layout.exists_first hb hnext
    obtain ⟨taken, after', -, -, hfetch⟩ := fetchEntries_of_wanted h.layout h.fits
      (exists_wanted h.layout hgap hret hb₀) maxBytes hret hbefore hb₀ (lt_of_le_of_lt hle hbound)
    rw [hfetch]
    exact cons_ne_nil _ _
  · intro start maxBytes bound hstart
    refine ⟨s.retained.length, fun fuel hfuel => ?_⟩
    refine readLoop_eq h hgap (le_refl _) hfuel
      (nil_append _).symm (by simp) (fun x hx r hr => ?_)
    exact hstart r (mem_recordsFromEntries.mpr ⟨x, hx, hr⟩)

theorem findSegmentPair_eq (h : s.Layout c) {p q : SegmentPair} {offset : Nat}
    (hsegs : s.segments = pre ++ p :: q :: post) (hp : p.baseOffset ≤ offset ∨ pre = [])
    (hq : offset < q.baseOffset) : s.findSegmentPair offset = p := by
  obtain ⟨pre', post', hsegs', hpost', hpre'⟩ := s.findSegmentPair_spec offset
  have hord := h.ordered
  rw [hsegs, pairwise_append, pairwise_cons] at hord
  have heq := hsegs.symm.trans hsegs'
  rcases append_eq_append_iff.mp heq with ⟨m, hm, hrest⟩ | ⟨m, hm, hrest⟩
  · cases m with
    | nil =>
      rw [nil_append, List.cons.injEq] at hrest
      exact hrest.1.symm
    | cons =>
      -- the lookup would be `q` or later, which starts above the offset
      rw [cons_append, List.cons.injEq] at hrest
      have hmem : s.findSegmentPair offset ∈ q :: post := by rw [hrest.2]; simp
      have hge : q.baseOffset ≤ (s.findSegmentPair offset).baseOffset := by
        rcases mem_cons.mp hmem with hmem | hmem
        · rw [hmem]
        · have hpair := hord.2.1.2
          rw [pairwise_cons] at hpair
          exact (hpair.1 _ hmem).base_le
      rcases hpre' with hle | hnil
      · omega
      · rw [hm] at hnil
        simp at hnil
  · cases m with
    | nil =>
      rw [nil_append, List.cons.injEq] at hrest
      exact hrest.1
    | cons =>
      -- the lookup would be earlier, although `p` starts at or below the offset
      rw [cons_append, List.cons.injEq] at hrest
      have hlt := hpost' p (by rw [hrest.2]; simp)
      rcases hp with hle | hnil
      · omega
      · rw [hnil] at hm
        simp at hm

theorem noBoundaryGap_of_scanComplete (h : s.Scannable c) (hscan : s.ScanComplete c) :
    s.NoBoundaryGap := by
  rintro pre p q post hsegs ⟨q', hq', hlog⟩
  by_contra hgap
  rw [Nat.not_le] at hgap
  obtain ⟨b, hb⟩ := exists_mem_of_ne_nil _ hlog
  have hord := h.layout.ordered
  rw [hsegs, pairwise_append, pairwise_cons, pairwise_cons] at hord
  have hqq' : q.baseOffset ≤ q'.baseOffset := by
    rcases mem_cons.mp hq' with rfl | hq'
    · exact le_refl _
    · exact (hord.2.1.2.1 q' hq').base_le
  have hq'mem : q' ∈ s.segments := by
    rw [hsegs]
    exact mem_append_right _ (mem_cons_of_mem _ hq')
  have hpmem : p ∈ s.segments := by rw [hsegs]; simp
  have hbase := (h.layout.sound q' hq'mem).base_le b hb
  have hlast := base_le_lastOffset b
  -- a reader that has come to where `p` ends is sent back to `p`
  have hfind : s.findSegmentPair (coveredTo pre p) = p := by
    refine findSegmentPair_eq h.layout hsegs ?_ hgap
    rw [coveredTo]
    split
    · split
      · exact .inr ‹_›
      · exact .inl (le_refl _)
    · exact .inl (base_le_nextOffset (h.layout.sound p hpmem).base_le).1
  refine hscan.progress (coveredTo pre p) 0 (b.lastOffset + 1)
    ⟨b, mem_retained.mpr ⟨q', hq'mem, hb⟩, by omega, Nat.lt_succ_self _⟩ ?_
  refine fetchEntries_eq_nil (c := c) ?_ ?_ ?_ <;> rw [hfind]
  · exact h.layout.sound p hpmem
  · exact h.fits p hpmem
  · intro x hx
    rw [coveredTo, if_neg (ne_nil_of_mem hx)]
    have hlt := (h.layout.sound p hpmem).lastOffset_lt hx
    omega

end SegmentManager

end Bifrox.Segment

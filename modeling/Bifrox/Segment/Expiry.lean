/-
What retention removes (`apply_delete_retention` in `src/segment/manager.rs`).

A segment has the age of its newest time index entry, and each segment is looked at for itself.
-/
import Bifrox.Lib.Run
import Bifrox.Segment.Retention

namespace Bifrox.Segment

open List Protocol Bool

theorem expiredByTime_iff {config : EngineConfig} {now : Nat} {mtime : Nat → Nat}
    {p : SegmentPair} : expiredByTime config now mtime p = true ↔
      ∃ maxAgeMs, config.retentionMillis = some maxAgeMs ∧
        recordAgeMs mtime p + maxAgeMs < now := by
  rw [expiredByTime]
  cases config.retentionMillis with
  | none => simp
  | some =>
    simp only [and_eq_true, decide_eq_true_eq, Option.some.injEq, exists_eq_left']
    omega

namespace SegmentManager

variable (c : Crates) (mtime : Nat → Nat) (s : SegmentManager)

/-- What a pass removes for its age has no record within the limit, and what it removes is a
prefix of the closed segments. -/
structure RemovesExpired (now : Nat) : Prop where
  expired : ∀ p ∈ s.historical, expiredByTime s.config now mtime p = true →
    ∀ r ∈ recordsFromEntries c p.log, ∀ maxAgeMs, s.config.retentionMillis = some maxAgeMs →
      r.timestamp + maxAgeMs < now
  oldestFirst :
    (retentionLoop s.config now mtime s.active.physicalSize [] s.historical).1 <:+ s.historical

def withRetention (retentionMillis retentionBytes : Option Nat) : SegmentManager :=
  { s with config := { s.config with retentionMillis, retentionBytes } }

/-- The condition: the time indexes know the newest records, and older segments come first. -/
structure TimeOrdered : Prop where
  newest : ∀ p ∈ s.historical, ∀ r ∈ recordsFromEntries c p.log, r.timestamp ≤ recordAgeMs mtime p
  ordered : s.historical.Pairwise fun p q => recordAgeMs mtime p ≤ recordAgeMs mtime q

end SegmentManager

section Loop

variable {config : EngineConfig} {now activeSize : Nat} {mtime : Nat → Nat}

theorem totalSize_append (ps qs : List SegmentPair) :
    totalSize (ps ++ qs) = totalSize ps + totalSize qs := by
  rw [totalSize, map_append, sum_append]
  rfl

theorem retentionLoop_of_size {kept rest : List SegmentPair}
    (h : aboveRetentionBytes config (totalSize kept + totalSize rest + activeSize) = false) :
    (retentionLoop config now mtime activeSize kept rest).1 =
      kept ++ rest.filter fun p => !expiredByTime config now mtime p := by
  induction rest generalizing kept with
  | nil => simp [retentionLoop]
  | cons p rest ih =>
    rw [retentionLoop, h, Bool.or_false]
    have hsize : ∀ n, n ≤ totalSize kept + totalSize (p :: rest) + activeSize →
        aboveRetentionBytes config n = false := by
      intro n hn
      revert h
      unfold aboveRetentionBytes
      split
      · simp only [decide_eq_false_iff_not]
        omega
      · exact fun h => h
    have hcons : totalSize (p :: rest) = totalSize [p] + totalSize rest :=
      totalSize_append [p] rest
    cases hp : expiredByTime config now mtime p with
    | true =>
      rw [if_pos rfl, filter_cons_of_neg (by simp [hp])]
      exact ih (hsize _ (by omega))
    | false =>
      rw [if_neg (by decide), ih (hsize _ (by rw [totalSize_append]; omega)),
        filter_cons_of_pos (by simp [hp]), append_assoc, singleton_append]

theorem retentionLoop_suffix {rest : List SegmentPair}
    (h : rest.Pairwise fun p q => recordAgeMs mtime p ≤ recordAgeMs mtime q) :
    (retentionLoop config now mtime activeSize [] rest).1 <:+ rest := by
  induction rest with
  | nil => exact suffix_refl []
  | cons p rest ih =>
    obtain ⟨hp, hrest⟩ := pairwise_cons.mp h
    by_cases hremove : (expiredByTime config now mtime p ||
        aboveRetentionBytes config (totalSize [] + totalSize (p :: rest) + activeSize)) = true
    · rw [retentionLoop, if_pos hremove]
      exact (ih hrest).trans (suffix_cons p rest)
    · -- Nothing after a segment that stays is older than that segment.
      rw [not_eq_true, or_eq_false_iff] at hremove
      have hyoung : ∀ q ∈ p :: rest, (!expiredByTime config now mtime q) = true := by
        intro q hq
        rw [not_eq_true', eq_false_iff]
        intro hexpired
        obtain ⟨maxAgeMs, hconfig, hlt⟩ := expiredByTime_iff.mp hexpired
        have hle : recordAgeMs mtime p ≤ recordAgeMs mtime q := by
          rcases mem_cons.mp hq with rfl | hq
          · exact Nat.le_refl _
          · exact hp q hq
        have hold : expiredByTime config now mtime p = true :=
          expiredByTime_iff.mpr ⟨maxAgeMs, hconfig, by omega⟩
        simp [hold] at hremove
      have hsame : (retentionLoop config now mtime activeSize [] (p :: rest)).1 = p :: rest := by
        rw [retentionLoop_of_size hremove.2, nil_append, filter_eq_self.mpr hyoung]
      exact ⟨[], hsame⟩

theorem pairwise_of_filter_suffix {α : Type*} {f : α → Bool} {l : List α}
    (h : l.filter f <:+ l) : l.Pairwise fun x y => f x = true → f y = true := by
  obtain ⟨front, hl⟩ := h
  have hfront : front.filter f = [] := by
    have happend := congrArg (List.filter f) hl
    rw [filter_append, filter_filter] at happend
    simpa using happend
  rw [← hl, pairwise_append]
  have hnot : ∀ x ∈ front, f x = true → False := fun x hx hf => by
    simpa using filter_eq_nil_iff.mp hfront x hx hf
  refine ⟨List.Pairwise.imp_of_mem (fun hx _ _ hf => (hnot _ hx hf).elim)
    (pairwise_of_forall fun _ _ => trivial), ?_, fun x hx y hy hf => (hnot x hx hf).elim⟩
  exact List.Pairwise.imp_of_mem (fun _ hy _ _ => (mem_filter.mp hy).2)
    (pairwise_of_forall fun _ _ => trivial)

end Loop

namespace SegmentManager

/-- A pass removes only what is expired and from the front, under all limits and at all times,
exactly if the segments and their indexes are in time order. -/
theorem removesExpired_iff (c : Crates) (mtime : Nat → Nat) (s : SegmentManager) :
    (∀ retentionMillis retentionBytes now,
      (s.withRetention retentionMillis retentionBytes).RemovesExpired c mtime now) ↔
      s.TimeOrdered c mtime := by
  constructor
  · intro h
    refine ⟨fun p hp r hr => ?_, pairwise_iff_forall_sublist.mpr fun {p q} hpq => ?_⟩
    · have hexpired : expiredByTime (s.withRetention (some 0) none).config (recordAgeMs mtime p + 1)
          mtime p = true := expiredByTime_iff.mpr ⟨0, rfl, Nat.lt_succ_self _⟩
      have hlt := (h (some 0) none (recordAgeMs mtime p + 1)).expired p hp hexpired r hr 0 rfl
      omega
    · by_contra hlt
      have hsuffix := (h (some 0) none (recordAgeMs mtime q + 1)).oldestFirst
      rw [retentionLoop_of_size rfl, nil_append] at hsuffix
      have hstays : (!expiredByTime (s.withRetention (some 0) none).config
          (recordAgeMs mtime q + 1) mtime p) = true := by
        rw [not_eq_true', eq_false_iff]
        intro hexpired
        obtain ⟨maxAgeMs, -, hold⟩ := expiredByTime_iff.mp hexpired
        omega
      have hgoes := (pairwise_iff_forall_sublist.mp (pairwise_of_filter_suffix hsuffix)) hpq hstays
      rw [not_eq_true', eq_false_iff] at hgoes
      exact hgoes (expiredByTime_iff.mpr ⟨0, rfl, Nat.lt_succ_self _⟩)
  · intro h retentionMillis retentionBytes now
    refine ⟨fun p hp hexpired r hr maxAgeMs hconfig => ?_, retentionLoop_suffix h.ordered⟩
    obtain ⟨maxAgeMs', hconfig', hlt⟩ := expiredByTime_iff.mp hexpired
    obtain rfl := Option.some.inj (hconfig.symm.trans hconfig')
    have hnewest := h.newest p hp r hr
    omega

end SegmentManager

/-- Two closed segments: one begins with an old record and ends with a new one that is not
indexed, and the one after it is old. -/
def lateRecord : SegmentManager :=
  Run.run (step .storing) (.create { EngineConfig.plain with retentionMillis := some 100 } 0)
    [.append (.stamped 950) 0 0, .rotate 0, .append (.stamped 10) 0 0,
      .append (.stamped 1000) 0 0, .rotate 0]

/-- At the time 1001, the second segment is removed with its record of time 1000, and the first
stays. -/
theorem not_removesExpired_lateRecord :
    (∃ p ∈ lateRecord.historical, expiredByTime lateRecord.config 1001 (fun _ => 0) p = true ∧
        ∃ r ∈ recordsFromEntries .storing p.log, ¬ r.timestamp + 100 < 1001) ∧
      ¬ (retentionLoop lateRecord.config 1001 (fun _ => 0) lateRecord.active.physicalSize []
        lateRecord.historical).1 <:+ lateRecord.historical := by
  constructor <;> decide +kernel

end Bifrox.Segment

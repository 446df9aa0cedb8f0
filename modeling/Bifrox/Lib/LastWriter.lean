/-
Last-writer views of a log.

The latest entry of a key is the first one of highest rank.  `Prunes` relates a log to what is
left of it after some entries were dropped.
-/
import Mathlib.Data.List.Induction

namespace LastWriter

open List

variable {α κ : Type*}

/-- `r` stands in `l` in front of every other entry of its rank and below no
entry of the key. -/
def IsLatest (key : α → Option κ) (rank : α → Nat) (k : κ) (l : List α) (r : α) : Prop :=
  ∃ pre post, l = pre ++ r :: post ∧ key r = some k ∧
    (∀ a ∈ pre, key a = some k → rank a < rank r) ∧ ∀ a ∈ post, key a = some k → rank a ≤ rank r

variable {key : α → Option κ} {rank : α → Nat} {k : κ} {l l' : List α} {a r : α}

section

variable (h : IsLatest key rank k l r)
include h

theorem IsLatest.unique {r' : α} (h' : IsLatest key rank k l r') : r = r' := by
  obtain ⟨pre, post, hl, hr, hpre, hpost⟩ := h
  obtain ⟨pre', post', hl', hr', hpre', hpost'⟩ := h'
  rcases append_eq_append_iff.mp (hl.symm.trans hl') with ⟨m, rfl, hm⟩ | ⟨m, rfl, hm⟩
  · cases m with
    | nil =>
      rw [nil_append, List.cons.injEq] at hm
      exact hm.1
    | cons =>
      rw [cons_append, List.cons.injEq] at hm
      have hlt := hpre' r (by rw [hm.1]; simp) hr
      have hle := hpost r' (by rw [hm.2]; simp) hr'
      omega
  · cases m with
    | nil =>
      rw [nil_append, List.cons.injEq] at hm
      exact hm.1.symm
    | cons =>
      rw [cons_append, List.cons.injEq] at hm
      have hlt := hpre r' (by rw [hm.1]; simp) hr'
      have hle := hpost' r (by rw [hm.2]; simp) hr
      omega

theorem IsLatest.mem : r ∈ l := by
  obtain ⟨pre, post, rfl, -, -, -⟩ := h
  simp

theorem IsLatest.key_eq : key r = some k := by
  obtain ⟨-, -, -, hr, -, -⟩ := h
  exact hr

theorem IsLatest.rank_le (ha : a ∈ l) (hkey : key a = some k) : rank a ≤ rank r := by
  obtain ⟨pre, post, rfl, -, hpre, hpost⟩ := h
  rw [mem_append, mem_cons] at ha
  rcases ha with ha | rfl | ha
  · exact Nat.le_of_lt (hpre a ha hkey)
  · exact Nat.le_refl _
  · exact hpost a ha hkey

end

variable [DecidableEq κ]

def observe (key : α → Option κ) (rank : α → Nat) (k : κ) (best : Option α) (a : α) : Option α :=
  if key a = some k then
    match best with
    | some b => if rank a > rank b then some a else some b
    | none => some a
  else best

def latest (key : α → Option κ) (rank : α → Nat) (k : κ) (l : List α) : Option α :=
  l.foldl (observe key rank k) none

theorem latest_concat (l : List α) (a : α) :
    latest key rank k (l ++ [a]) = observe key rank k (latest key rank k l) a := by
  rw [latest, foldl_append, foldl_cons, foldl_nil, latest]

theorem latest_eq_none_iff : latest key rank k l = none ↔ ∀ a ∈ l, key a ≠ some k := by
  induction l using List.reverseRecOn with
  | nil => simp [latest]
  | append_singleton l a ih =>
    rw [latest_concat]
    unfold observe
    by_cases hkey : key a = some k
    · rw [if_pos hkey]
      refine ⟨fun h => ?_, fun h => absurd hkey (h a (by simp))⟩
      split at h
      · split at h <;> cases h
      · cases h
    · rw [if_neg hkey, ih]
      refine ⟨fun h b hb => ?_, fun h b hb => h b (mem_append_left _ hb)⟩
      rcases mem_append.mp hb with hb | hb
      · exact h b hb
      · rw [mem_singleton.mp hb]
        exact hkey

theorem isLatest_of_latest (h : latest key rank k l = some r) : IsLatest key rank k l r := by
  induction l using List.reverseRecOn generalizing r with
  | nil => cases h
  | append_singleton l a ih =>
    rw [latest_concat] at h
    unfold observe at h
    by_cases hkey : key a = some k
    · rw [if_pos hkey] at h
      cases hl : latest key rank k l with
      | none =>
        rw [hl] at h
        cases h
        refine ⟨l, [], rfl, hkey, fun b hb hkb => ?_, by simp⟩
        exact absurd hkb (latest_eq_none_iff.mp hl b hb)
      | some b =>
        rw [hl] at h
        obtain ⟨pre, post, rfl, hb, hpre, hpost⟩ := ih hl
        simp only at h
        by_cases hgt : rank a > rank b
        · rw [if_pos hgt] at h
          cases h
          refine ⟨pre ++ b :: post, [], rfl, hkey, fun x hx hkx => ?_, by simp⟩
          rw [mem_append, mem_cons] at hx
          rcases hx with hx | rfl | hx
          · have := hpre x hx hkx
            omega
          · exact hgt
          · have := hpost x hx hkx
            omega
        · rw [if_neg hgt] at h
          cases h
          refine ⟨pre, post ++ [a], by simp, hb, hpre, fun x hx hkx => ?_⟩
          rcases mem_append.mp hx with hx | hx
          · exact hpost x hx hkx
          · rw [mem_singleton.mp hx]
            omega
    · rw [if_neg hkey] at h
      obtain ⟨pre, post, rfl, hr, hpre, hpost⟩ := ih h
      refine ⟨pre, post ++ [a], by simp, hr, hpre, fun x hx hkx => ?_⟩
      rcases mem_append.mp hx with hx | hx
      · exact hpost x hx hkx
      · rw [mem_singleton.mp hx] at hkx
        exact absurd hkx hkey

theorem latest_eq_some_iff : latest key rank k l = some r ↔ IsLatest key rank k l r := by
  refine ⟨isLatest_of_latest, fun h => ?_⟩
  cases hl : latest key rank k l with
  | none =>
    obtain ⟨pre, post, rfl, hr, -, -⟩ := h
    exact absurd hr (latest_eq_none_iff.mp hl r (by simp))
  | some => rw [(isLatest_of_latest hl).unique h]

theorem latest_filter (key : α → Option κ) (rank : α → Nat) (k : κ) (l : List α) :
    latest key rank k (l.filter (fun a => key a = some k)) = latest key rank k l := by
  induction l using List.reverseRecOn with
  | nil => rfl
  | append_singleton l a ih =>
    rw [filter_append, latest_concat]
    by_cases hkey : key a = some k
    · rw [filter_cons_of_pos (by simpa using hkey), filter_nil, latest_concat, ih]
    · rw [filter_cons_of_neg (by simpa using hkey), filter_nil, append_nil, ih]
      unfold observe
      rw [if_neg hkey]

/-! ## Pruning -/

/-- `Prunes P l' l`: `l'` is `l` without some entries that satisfy `P`. -/
inductive Prunes (P : α → Prop) : List α → List α → Prop
  | nil : Prunes P [] []
  | keep (a : α) {l' l : List α} : Prunes P l' l → Prunes P (a :: l') (a :: l)
  | drop {a : α} {l' l : List α} : P a → Prunes P l' l → Prunes P l' (a :: l)

namespace Prunes

variable {P Q : α → Prop} {l₁ l₁' l₂ l₂' : List α}

theorem refl (P : α → Prop) (l : List α) : Prunes P l l := by
  induction l with
  | nil => exact .nil
  | cons a l ih => exact .keep a ih

theorem append (h₁ : Prunes P l₁' l₁) (h₂ : Prunes P l₂' l₂) :
    Prunes P (l₁' ++ l₂') (l₁ ++ l₂) := by
  induction h₁ with
  | nil => exact h₂
  | keep a _ ih => exact .keep a ih
  | drop ha _ ih => exact .drop ha ih

theorem imp (hPQ : ∀ a, P a → Q a) (h : Prunes P l' l) : Prunes Q l' l := by
  induction h with
  | nil => exact .nil
  | keep a _ ih => exact .keep a ih
  | drop ha _ ih => exact .drop (hPQ _ ha) ih

theorem sublist (h : Prunes P l' l) : l'.Sublist l := by
  induction h with
  | nil => exact .slnil
  | keep a _ ih => exact ih.cons_cons a
  | drop _ _ ih => exact ih.cons _

theorem of_filter {keep : α → Bool} (hP : ∀ a ∈ l, keep a = false → P a) :
    Prunes P (l.filter keep) l := by
  induction l with
  | nil => exact .nil
  | cons a l ih =>
    have ih' := ih (fun b hb => hP b (mem_cons_of_mem _ hb))
    by_cases hkeep : keep a = true
    · rw [filter_cons_of_pos hkeep]
      exact .keep a ih'
    · rw [filter_cons_of_neg hkeep]
      exact .drop (hP a (mem_cons_self ..) (by simpa using hkeep)) ih'

theorem mem (h : Prunes P l' l) (ha : a ∈ l) (hP : ¬ P a) : a ∈ l' := by
  induction h with
  | nil => cases ha
  | keep b _ ih =>
    rcases mem_cons.mp ha with rfl | ha
    · exact mem_cons_self ..
    · exact mem_cons_of_mem _ (ih ha)
  | drop hb _ ih =>
    rcases mem_cons.mp ha with rfl | ha
    · exact absurd hb hP
    · exact ih ha

theorem filter_eq {q : α → Bool} (hq : ∀ a, P a → q a = false) (h : Prunes P l' l) :
    l'.filter q = l.filter q := by
  induction h with
  | nil => rfl
  | keep a _ ih => rw [filter_cons, filter_cons, ih]
  | drop ha _ ih => rw [filter_cons, hq _ ha, ih, if_neg Bool.false_ne_true]

/-- An entry that may not be dropped splits the pruned log where it splits the
log. -/
theorem split {pre post : List α} (h : Prunes P l' (pre ++ r :: post)) (hr : ¬ P r) :
    ∃ pre' post', l' = pre' ++ r :: post' ∧ pre'.Sublist pre ∧ post'.Sublist post := by
  induction pre generalizing l' with
  | nil =>
    cases h with
    | keep _ h => exact ⟨[], _, rfl, .slnil, h.sublist⟩
    | drop hP => exact absurd hP hr
  | cons a pre ih =>
    cases h with
    | keep _ h =>
      obtain ⟨pre', post', rfl, hpre, hpost⟩ := ih h
      exact ⟨a :: pre', post', rfl, hpre.cons_cons a, hpost⟩
    | drop _ h =>
      obtain ⟨pre', post', rfl, hpre, hpost⟩ := ih h
      exact ⟨pre', post', rfl, hpre.cons a, hpost⟩

end Prunes

/-- Dropping entries that rank below the latest one of their key keeps the
latest one. -/
theorem latest_of_prunes {P : α → Prop} (h : Prunes P l' l) (hr : latest key rank k l = some r)
    (hP : ∀ a, P a → key a = some k → rank a ≠ rank r) : latest key rank k l' = some r := by
  rw [latest_eq_some_iff] at hr ⊢
  obtain ⟨pre, post, rfl, hkey, hpre, hpost⟩ := hr
  obtain ⟨pre', post', rfl, hsub, hsub'⟩ := h.split (fun hPr => hP r hPr hkey rfl)
  exact ⟨pre', post', rfl, hkey, fun a ha => hpre a (hsub.subset ha),
    fun a ha => hpost a (hsub'.subset ha)⟩

/-- Entries that outrank everything before them decide the view of the keys they
carry. -/
theorem latest_append_of_lt (hlt : ∀ a ∈ l, ∀ b ∈ l', rank a < rank b) :
    latest key rank k (l ++ l') = (latest key rank k l').or (latest key rank k l) := by
  cases hl' : latest key rank k l' with
  | some r =>
    rw [Option.some_or, latest_eq_some_iff]
    obtain ⟨pre, post, rfl, hkey, hpre, hpost⟩ := isLatest_of_latest hl'
    refine ⟨l ++ pre, post, by simp, hkey, fun a ha hka => ?_, hpost⟩
    rcases mem_append.mp ha with ha | ha
    · exact hlt a ha r (by simp)
    · exact hpre a ha hka
  | none =>
    rw [Option.none_or]
    have hnone := latest_eq_none_iff.mp hl'
    cases hl : latest key rank k l with
    | none =>
      rw [latest_eq_none_iff] at hl ⊢
      intro a ha
      rcases mem_append.mp ha with ha | ha
      · exact hl a ha
      · exact hnone a ha
    | some =>
      rw [latest_eq_some_iff]
      obtain ⟨pre, post, rfl, hkey, hpre, hpost⟩ := isLatest_of_latest hl
      refine ⟨pre, post ++ l', by simp, hkey, hpre, fun a ha hka => ?_⟩
      rcases mem_append.mp ha with ha | ha
      · exact hpost a ha hka
      · exact absurd hka (hnone a ha)

end LastWriter

/-
Intervals of numbers that are laid out one after the other.

`Laid rel lo hi l` says that the intervals of `l` lie in order between `lo` and `hi`, where
`rel` relates each end to the next start: `≤` allows gaps and `=` does not.
-/
import Mathlib.Data.List.Flatten
import Mathlib.Data.List.Nodup

namespace Interval

open List

/-- Relations that can stand between an end and the next start. -/
structure Links (rel : Nat → Nat → Prop) : Prop where
  refl : ∀ a, rel a a
  trans : ∀ a b c, rel a b → rel b c → rel a c
  le : ∀ a b, rel a b → a ≤ b

theorem links_le : Links (· ≤ ·) where
  refl := Nat.le_refl
  trans := fun _ _ _ => Nat.le_trans
  le := fun _ _ h => h

theorem links_eq : Links (· = ·) where
  refl := fun _ => rfl
  trans := fun _ _ _ => Eq.trans
  le := fun _ _ h => Nat.le_of_eq h

variable {α : Type*} (first last : α → Nat)

def Laid (rel : Nat → Nat → Prop) : Nat → Nat → List α → Prop
  | lo, hi, [] => rel lo hi
  | lo, hi, a :: rest => rel lo (first a) ∧ first a ≤ last a ∧ Laid rel (last a + 1) hi rest

def numbers (a : α) : List Nat := List.range' (first a) (last a + 1 - first a)

def Covers (a : α) (n : Nat) : Prop := first a ≤ n ∧ n ≤ last a

variable {first last} {rel : Nat → Nat → Prop} {lo mid hi n : Nat} {l l' : List α} {a b : α}

theorem mem_numbers : n ∈ numbers first last a ↔ Covers first last a n := by
  rw [numbers, mem_range'_1, Covers]
  omega

namespace Laid

section

variable (hrel : Links rel)
include hrel

theorem le (h : Laid first last rel lo hi l) : lo ≤ hi := by
  induction l generalizing lo with
  | nil => exact hrel.le lo hi h
  | cons a rest ih =>
    have hlo := hrel.le _ _ h.1
    have hspan := h.2.1
    have hrest := ih h.2.2
    omega

theorem bounds (h : Laid first last rel lo hi l) (ha : a ∈ l) :
    lo ≤ first a ∧ first a ≤ last a ∧ last a < hi := by
  induction l generalizing lo with
  | nil => cases ha
  | cons b rest ih =>
    have hlo := hrel.le _ _ h.1
    rcases mem_cons.mp ha with rfl | ha
    · have hrest := h.2.2.le hrel
      exact ⟨hlo, h.2.1, hrest⟩
    · have hspan := h.2.1
      have hrest := ih h.2.2 ha
      omega

theorem weaken (hlo : rel lo mid) (h : Laid first last rel mid hi l) :
    Laid first last rel lo hi l := by
  cases l with
  | nil => exact hrel.trans _ _ _ hlo h
  | cons => exact ⟨hrel.trans _ _ _ hlo h.1, h.2⟩

theorem append (h : Laid first last rel lo mid l)
    (h' : Laid first last rel mid hi l') : Laid first last rel lo hi (l ++ l') := by
  induction l generalizing lo with
  | nil => exact h'.weaken hrel h
  | cons a rest ih => exact ⟨h.1, h.2.1, ih h.2.2⟩

theorem of_eq (hlo : rel lo mid) (h : Laid first last (· = ·) mid hi l) :
    Laid first last rel lo hi l := by
  induction l generalizing lo mid with
  | nil => exact h ▸ hlo
  | cons a rest ih =>
    obtain ⟨rfl, hspan, hrest⟩ := h
    exact ⟨hlo, hspan, ih (hrel.refl _) hrest⟩

section

variable (h : Laid first last rel lo hi l)
include h

theorem pairwise : l.Pairwise (fun a b => last a < first b) := by
  induction l generalizing lo with
  | nil => exact List.Pairwise.nil
  | cons a rest ih =>
    refine pairwise_cons.mpr ⟨fun b hb => ?_, ih h.2.2⟩
    exact (h.2.2.bounds hrel hb).1

theorem eq_of_covers (ha : a ∈ l) (hb : b ∈ l)
    (hna : Covers first last a n) (hnb : Covers first last b n) : a = b := by
  obtain ⟨pre, post, rfl⟩ := append_of_mem ha
  obtain ⟨-, hpost, hcross⟩ := pairwise_append.mp (h.pairwise hrel)
  rw [Covers] at hna hnb
  rcases mem_append.mp hb with hmem | hmem
  · have hlt := hcross b hmem a mem_cons_self
    omega
  · rcases mem_cons.mp hmem with rfl | hmem
    · rfl
    · have hlt := (pairwise_cons.mp hpost).1 b hmem
      omega

theorem nodup_numbers : (l.flatMap (numbers first last)).Nodup := by
  rw [nodup_flatMap]
  refine ⟨fun a _ => nodup_range', (h.pairwise hrel).imp fun hlt n hn hn' => ?_⟩
  rw [mem_numbers, Covers] at hn hn'
  omega

end

end

end Laid

/-! ## Cutting -/

/-- Every element of a list is replaced by a list that `R` relates it to. -/
inductive Cut (R : α → List α → Prop) : List α → List α → Prop
  | nil : Cut R [] []
  | cons {a : α} {parts l l' : List α} : R a parts → Cut R l l' → Cut R (a :: l) (parts ++ l')

namespace Cut

variable {R S : α → List α → Prop}

theorem append {l₁ l₂ l₁' l₂' : List α} (h₁ : Cut R l₁ l₁') (h₂ : Cut R l₂ l₂') :
    Cut R (l₁ ++ l₂) (l₁' ++ l₂') := by
  induction h₁ with
  | nil => exact h₂
  | cons ha _ ih =>
    rw [cons_append, append_assoc]
    exact cons ha ih

theorem concat {parts : List α} (h : Cut R l l') (ha : R a parts) :
    Cut R (l ++ [a]) (l' ++ parts) := by
  have hone := cons ha nil
  rw [append_nil] at hone
  exact h.append hone

theorem imp_of_mem (h : Cut R l l') (himp : ∀ a ∈ l, ∀ parts, R a parts → S a parts) :
    Cut S l l' := by
  induction h with
  | nil => exact nil
  | cons ha _ ih =>
    exact cons (himp _ mem_cons_self _ ha) (ih fun a hmem => himp a (mem_cons_of_mem _ hmem))

theorem of_flatMap (f : α → List α) (l : List α) :
    Cut (fun a parts => parts = f a) l (l.flatMap f) := by
  induction l with
  | nil => exact nil
  | cons a l ih => exact cons rfl ih

theorem of_append {l₁ l₂ : List α} (h : Cut R (l₁ ++ l₂) l') :
    ∃ left right, l' = left ++ right ∧ Cut R l₁ left ∧ Cut R l₂ right := by
  induction l₁ generalizing l' with
  | nil => exact ⟨[], l', rfl, nil, h⟩
  | cons a l₁ ih =>
    rw [cons_append] at h
    cases h with
    | cons ha hrest =>
      obtain ⟨left, right, rfl, hleft, hright⟩ := ih hrest
      exact ⟨_, right, (append_assoc _ _ _).symm, cons ha hleft, hright⟩

theorem comp {l'' : List α} (h : Cut R l l') (h' : Cut S l' l'') :
    Cut (fun a parts => ∃ mid, R a mid ∧ Cut S mid parts) l l'' := by
  induction h generalizing l'' with
  | nil =>
    cases h'
    exact nil
  | @cons a parts l l' ha _ ih =>
    obtain ⟨left, right, rfl, hleft, hright⟩ := h'.of_append
    exact cons ⟨parts, ha, hleft⟩ (ih hright)

theorem exists_of_mem (h : Cut R l l') (hb : b ∈ l') : ∃ a ∈ l, ∃ parts, R a parts ∧ b ∈ parts := by
  induction h with
  | nil => cases hb
  | cons ha _ ih =>
    rcases mem_append.mp hb with hb | hb
    · exact ⟨_, mem_cons_self, _, ha, hb⟩
    · obtain ⟨a, hmem, hparts⟩ := ih hb
      exact ⟨a, mem_cons_of_mem _ hmem, hparts⟩

theorem exists_parts (h : Cut R l l') (ha : a ∈ l) : ∃ parts, R a parts ∧ parts ⊆ l' := by
  induction h with
  | nil => cases ha
  | cons hfirst _ ih =>
    rcases mem_cons.mp ha with rfl | ha
    · exact ⟨_, hfirst, subset_append_left _ _⟩
    · obtain ⟨parts, hparts, hsub⟩ := ih ha
      exact ⟨parts, hparts, subset_append_of_subset_right _ hsub⟩

/-- Parts that fill their interval keep the layout. -/
theorem laid (hrel : Links rel) (hparts : ∀ a parts, R a parts → first a ≤ last a →
      Laid first last (· = ·) (first a) (last a + 1) parts)
    (hcut : Cut R l l') (h : Laid first last rel lo hi l) : Laid first last rel lo hi l' := by
  induction hcut generalizing lo with
  | nil => exact h
  | cons ha _ ih => exact ((hparts _ _ ha h.2.1).of_eq hrel h.1).append hrel (ih h.2.2)

end Cut

end Interval

/-
Logs that many nodes keep of one history.

A fragment is a part of a log that is on its way from one node to another.  `Consistent` says
that every log is a beginning of one history and every fragment a part of it.
-/
import Mathlib.Data.List.Infix

namespace SharedLog

open Function List

variable {ν ρ : Type*}

theorem getElem?_of_prefix {l l' : List ρ} (h : l <+: l') {n : Nat} {r : ρ}
    (hr : l[n]? = some r) : l'[n]? = some r := by
  obtain ⟨rest, rfl⟩ := h
  rw [List.getElem?_append_left (List.getElem?_eq_some_iff.mp hr).1]
  exact hr

structure Fragment (ρ : Type*) where
  offset : Nat
  entries : List ρ

def Fragment.stop (f : Fragment ρ) : Nat := f.offset + f.entries.length

def Consistent (log : ν → List ρ) (fragments : List (Fragment ρ)) : Prop :=
  ∃ history, (∀ i, log i <+: history) ∧ ∀ f ∈ fragments, f.entries <+: history.drop f.offset

variable {log : ν → List ρ} {fragments : List (Fragment ρ)}

section

variable (h : Consistent log fragments)
include h

/-- Two logs have the same record at an offset that both reach. -/
theorem Consistent.agree {i j : ν} {offset : Nat} {r r' : ρ}
    (hi : (log i)[offset]? = some r) (hj : (log j)[offset]? = some r') : r = r' := by
  obtain ⟨history, hlogs, -⟩ := h
  have hr : history[offset]? = some r := getElem?_of_prefix (hlogs i) hi
  have hr' : history[offset]? = some r' := getElem?_of_prefix (hlogs j) hj
  exact Option.some.inj (hr.symm.trans hr')

theorem Consistent.mono {log' : ν → List ρ}
    (hlog : ∀ i, log' i <+: log i) : Consistent log' fragments := by
  obtain ⟨history, hlogs, hfragments⟩ := h
  exact ⟨history, fun i => (hlog i).trans (hlogs i), hfragments⟩

theorem Consistent.slice (i : ν) (offset count : Nat) :
    Consistent log (⟨offset, ((log i).drop offset).take count⟩ :: fragments) := by
  obtain ⟨history, hlogs, hfragments⟩ := h
  refine ⟨history, hlogs, fun f hf => ?_⟩
  rcases mem_cons.mp hf with rfl | hf
  · exact .trans ⟨_, take_append_drop _ _⟩ ((hlogs i).drop offset)
  · exact hfragments f hf

end

section Update

variable [DecidableEq ν]

theorem prefix_update {history : List ρ} (hlogs : ∀ i, log i <+: history) {i : ν} {l : List ρ}
    (hl : l <+: history) (j : ν) : update log i l j <+: history := by
  by_cases hj : j = i
  · subst hj
    rw [update_self]
    exact hl
  · rw [update_of_ne hj]
    exact hlogs j

/-- An entry of a fragment is copied to the end of a log. -/
theorem Consistent.copy (h : Consistent log fragments) {i : ν} {f : Fragment ρ} (hf : f ∈ fragments)
    {n : Nat} {r : ρ} (hentry : f.entries[n]? = some r) (hend : f.offset + n = (log i).length) :
    Consistent (update log i (log i ++ [r])) fragments := by
  obtain ⟨history, hlogs, hfragments⟩ := h
  refine ⟨history, prefix_update hlogs ?_, hfragments⟩
  have hr : history[(log i).length]? = some r := by
    rw [← hend, ← List.getElem?_drop]
    exact getElem?_of_prefix (hfragments f hf) hentry
  obtain ⟨rest, hrest⟩ := hlogs i
  rw [← hrest, List.getElem?_append_right (Nat.le_refl _), Nat.sub_self] at hr
  cases rest with
  | nil => cases hr
  | cons r' rest =>
    obtain rfl := Option.some.inj hr
    exact ⟨rest, by rw [← hrest, append_assoc]; rfl⟩

/-- A new record is written where neither a log nor a fragment has got to. -/
theorem Consistent.snoc (h : Consistent log fragments) {i : ν} (r : ρ)
    (hlogs : ∀ j, (log j).length ≤ (log i).length)
    (hfragments : ∀ f ∈ fragments, f.stop ≤ (log i).length) :
    Consistent (update log i (log i ++ [r])) fragments := by
  obtain ⟨history, hall, hparts⟩ := h
  have hlog := prefix_iff_eq_take.mp (hall i)
  refine ⟨log i ++ [r], prefix_update (fun j => ?_) (prefix_refl _), fun f hf => ?_⟩
  · refine List.IsPrefix.trans ?_ (prefix_append _ _)
    exact prefix_of_prefix_length_le (hall j) (hall i) (hlogs j)
  · have hstop := hfragments f hf
    rw [Fragment.stop] at hstop
    have hcut : f.entries <+: (log i).drop f.offset := by
      rw [hlog, drop_take]
      refine prefix_take_iff.mpr ⟨hparts f hf, ?_⟩
      omega
    exact hcut.trans ((prefix_append _ _).drop f.offset)

end Update

end SharedLog

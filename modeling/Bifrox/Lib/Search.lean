/-
Bisection of a slice by a comparison, after the standard library's
`binary_search_by`.

The documented contract assumes a sorted slice.  `search_ok` and `search_error_succ` assume
nothing.
-/
import Mathlib.Data.List.Basic

namespace Search

variable {α : Type*}

def bisect (cmp : α → Ordering) (xs : List α) : Nat → Nat → Nat → Nat
  | 0, base, _ => base
  | fuel + 1, base, size =>
    if size ≤ 1 then base
    else
      let half := size / 2
      let mid := base + half
      let base := match xs[mid]? with
        | some x => if cmp x = .gt then base else mid
        | none => base
      bisect cmp xs fuel base (size - half)

def search (cmp : α → Ordering) (xs : List α) : Except Nat Nat :=
  let base := bisect cmp xs xs.length 0 xs.length
  match xs[base]? with
  | none => .error 0
  | some x =>
    match cmp x with
    | .eq => .ok base
    | .lt => .error (base + 1)
    | .gt => .error base

variable {cmp : α → Ordering} {xs : List α}

/-- The candidate never moves onto an element that compares greater. -/
theorem bisect_eq_or_not_gt (fuel base size : Nat) : bisect cmp xs fuel base size = base ∨
      ∃ x, xs[bisect cmp xs fuel base size]? = some x ∧ cmp x ≠ .gt := by
  induction fuel generalizing base size with
  | zero => exact .inl rfl
  | succ fuel ih =>
    rw [bisect]
    by_cases hsize : size ≤ 1
    · rw [if_pos hsize]
      exact .inl rfl
    · rw [if_neg hsize]
      simp only
      rcases hmid : xs[base + size / 2]? with _ | x
      · exact ih base _
      · by_cases hgt : cmp x = .gt
        · simp only [if_pos hgt]
          exact ih base _
        · simp only [if_neg hgt]
          rcases ih (base + size / 2) (size - size / 2) with hstay | hmove
          · rw [hstay]
            exact .inr ⟨x, hmid, hgt⟩
          · exact .inr hmove

theorem search_ok {i : Nat} (h : search cmp xs = .ok i) : ∃ x, xs[i]? = some x ∧ cmp x = .eq := by
  rw [search] at h
  split at h
  · cases h
  · rename_i x hx
    split at h
    · rename_i heq
      cases h
      exact ⟨x, hx, heq⟩
    · cases h
    · cases h

theorem search_error_succ {i : Nat} (h : search cmp xs = .error (i + 1)) :
    ∃ x, xs[i]? = some x ∧ cmp x = .lt := by
  rw [search] at h
  split at h
  · cases h
  · rename_i x hx
    split at h
    · cases h
    · rename_i hlt
      cases h
      exact ⟨x, hx, hlt⟩
    · rename_i hgt
      have hpos : bisect cmp xs xs.length 0 xs.length = i + 1 := by
        injection h
      -- a positive candidate was moved onto, so it cannot compare greater
      rcases @bisect_eq_or_not_gt α cmp xs xs.length 0 xs.length with hzero | hne
      · omega
      · obtain ⟨y, hy, hne⟩ := hne
        rw [hx] at hy
        cases hy
        exact absurd hgt hne

end Search

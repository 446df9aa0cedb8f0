/-
Association lists with several keys removed, and how many keys they have.
-/
import Mathlib.Data.List.AList

namespace AList

variable {α : Type*} [DecidableEq α] {β : α → Type*}

def eraseAll (keys : List α) (s : AList β) : AList β := keys.foldl (fun s key => s.erase key) s

theorem lookup_eraseAll (keys : List α) (s : AList β) (key : α) :
    (s.eraseAll keys).lookup key = if key ∈ keys then none else s.lookup key := by
  rw [eraseAll]
  induction keys generalizing s with
  | nil => rfl
  | cons first keys ih =>
    rw [List.foldl_cons, ih]
    by_cases hkey : key = first
    · subst hkey
      simp
    · simp [hkey, lookup_erase_ne hkey]

section Constant

variable {γ : Type*} (s : AList fun _ : α => γ) (key key' : α)

theorem lookup_insert_ite (value : γ) :
    (s.insert key value).lookup key' = if key' = key then some value else s.lookup key' := by
  split
  · next heq => rw [heq, lookup_insert]
  · next hne => rw [lookup_insert_ne hne]

theorem lookup_erase_ite :
    (s.erase key).lookup key' = if key' = key then none else s.lookup key' := by
  split
  · next heq => rw [heq, lookup_erase]
  · next hne => rw [lookup_erase_ne hne]

end Constant

theorem length_keys_eraseAll_le (keys : List α) (s : AList β) :
    (s.eraseAll keys).keys.length ≤ s.keys.length := by
  rw [eraseAll]
  induction keys generalizing s with
  | nil => exact Nat.le_refl _
  | cons key keys ih =>
    refine Nat.le_trans (ih (s.erase key)) ?_
    rw [keys_erase]
    exact List.length_erase_le

theorem length_keys_insert_of_mem {key : α} {value : β key} {s : AList β} (h : key ∈ s) :
    (s.insert key value).keys.length = s.keys.length := by
  rw [keys_insert, List.length_cons]
  exact List.length_erase_add_one (mem_keys.mp h)

theorem length_keys_insert_of_notMem {key : α} {value : β key} {s : AList β} (h : key ∉ s) :
    (s.insert key value).keys.length = s.keys.length + 1 := by
  rw [keys_insert, List.length_cons, List.erase_of_not_mem (mt mem_keys.mpr h)]

end AList

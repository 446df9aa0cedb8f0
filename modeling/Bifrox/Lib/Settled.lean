/-
What a log of inserts says of a key once and for all.

A log on disk has a committed part, which a replay inserts, and a tail, which may be committed
later or be lost.  `Kept good k committed tail` says that a replay finds a good value for the key
now, and at any time after more good entries were written.
-/
import Bifrox.Lib.Table

namespace Table

open List

variable {K V : Type*}

def Settled (good : V → Prop) (k : K) (entries : List (K × V)) : Prop :=
  ∃ left value right, entries = left ++ (k, value) :: right ∧ good value ∧
    ∀ v, (k, v) ∈ right → good v

variable {good : V → Prop} {k : K} {entries entries' : List (K × V)}

theorem Settled.append (h : Settled good k entries) (hgood : ∀ v, (k, v) ∈ entries' → good v) :
    Settled good k (entries ++ entries') := by
  obtain ⟨left, value, right, rfl, hvalue, hright⟩ := h
  refine ⟨left, value, right ++ entries', by rw [append_assoc]; rfl, hvalue, fun v hv => ?_⟩
  rcases mem_append.mp hv with hv | hv
  · exact hright v hv
  · exact hgood v hv

theorem Settled.prepend (h : Settled good k entries) (front : List (K × V)) :
    Settled good k (front ++ entries) := by
  obtain ⟨left, value, right, rfl, hvalue, hright⟩ := h
  exact ⟨front ++ left, value, right, (append_assoc ..).symm, hvalue, hright⟩

/-- Either the second part settles the key by itself, or all its entries of the key are good. -/
theorem Settled.right_or (h : Settled good k (entries ++ entries')) :
    Settled good k entries' ∨ ∀ v, (k, v) ∈ entries' → good v := by
  obtain ⟨left, value, right, heq, hvalue, hright⟩ := h
  rcases append_eq_append_iff.mp heq with ⟨m, rfl, hm⟩ | ⟨m, rfl, hm⟩
  · exact .inl ⟨m, value, right, hm, hvalue, hright⟩
  · cases m with
    | nil => exact .inl ⟨[], value, right, hm.symm, hvalue, hright⟩
    | cons =>
      rw [cons_append, List.cons.injEq] at hm
      refine .inr fun v hv => hright v ?_
      rw [hm.2]
      exact mem_append_right _ hv

theorem Settled.exists_mem (h : Settled good k entries) : ∃ v, (k, v) ∈ entries ∧ good v := by
  obtain ⟨left, value, right, rfl, hvalue, -⟩ := h
  exact ⟨value, by simp, hvalue⟩

theorem settled_of_mem {value : V} (hmem : (k, value) ∈ entries)
    (hnodup : (entries.map Prod.fst).Nodup) (hvalue : good value) : Settled good k entries := by
  obtain ⟨left, right, rfl⟩ := append_of_mem hmem
  refine ⟨left, value, right, rfl, hvalue, fun v hv => ?_⟩
  rw [map_append, map_cons] at hnodup
  have hrest := (nodup_cons.mp hnodup.of_append_right).1
  exact absurd (mem_map_of_mem hv) hrest

/-! ## Logs with a tail -/

structure Kept (good : V → Prop) (k : K) (committed tail : List (K × V)) : Prop where
  settled : Settled good k committed
  tail : ∀ v, (k, v) ∈ tail → good v

section Kept

variable {committed tail : List (K × V)}

theorem kept_snoc (entries : List (K × V)) {value : V} (h : good value) :
    Kept good k (entries ++ [(k, value)]) [] :=
  ⟨⟨entries, value, [], rfl, h, nofun⟩, nofun⟩

section

variable (h : Kept good k committed tail)
include h

theorem Kept.snoc {entry : K × V} (hentry : k = entry.1 → good entry.2) :
    Kept good k committed (tail ++ [entry]) := by
  refine ⟨h.settled, fun v hv => ?_⟩
  rcases mem_append.mp hv with hv | hv
  · exact h.tail v hv
  · obtain rfl := mem_singleton.mp hv
    exact hentry rfl

theorem Kept.checkpoint : Kept good k (committed ++ tail) [] :=
  ⟨h.settled.append h.tail, nofun⟩

theorem Kept.crash {rest : List (K × V)} (hrest : rest ⊆ tail) : Kept good k committed rest :=
  ⟨h.settled, fun v hv => h.tail v (hrest hv)⟩

end

end Kept

variable [DecidableEq K]

theorem lookup_insertAll_of_forall {t : Table K V} (ht : ∃ v, t.lookup k = some v ∧ good v)
    (hgood : ∀ v, (k, v) ∈ entries → good v) :
    ∃ v, (t.insertAll entries).lookup k = some v ∧ good v := by
  induction entries generalizing t with
  | nil => exact ht
  | cons entry entries ih =>
    rw [insertAll_cons]
    refine ih ?_ fun v hv => hgood v (mem_cons_of_mem _ hv)
    by_cases hkey : k = entry.1
    · subst hkey
      exact ⟨entry.2, lookup_insert_self _ _ _, hgood _ mem_cons_self⟩
    · rw [lookup_insert_of_ne _ hkey]
      exact ht

theorem Settled.lookup (h : Settled good k entries) (t : Table K V) :
    ∃ v, (t.insertAll entries).lookup k = some v ∧ good v := by
  obtain ⟨left, value, right, rfl, hvalue, hright⟩ := h
  rw [insertAll_append, insertAll_cons]
  exact lookup_insertAll_of_forall ⟨value, lookup_insert_self _ _ _, hvalue⟩ hright

end Table

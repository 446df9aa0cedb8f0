/-
Finite maps that are equal when every key finds the same.

`Lists t entries` says that `entries` goes through the table once, in some order: iterating over
a hash map gives such a list, and nothing else is known about it.
-/
import Mathlib.Data.Finset.Card

structure Table (K V : Type*) where
  lookup : K → Option V
  keys : Finset K
  mem_keys : ∀ k, k ∈ keys ↔ (lookup k).isSome

namespace Table

open List

variable {K V W : Type*}

theorem ext {s t : Table K V} (h : ∀ k, s.lookup k = t.lookup k) : s = t := by
  obtain ⟨find, keys, hkeys⟩ := s
  obtain ⟨find', keys', hkeys'⟩ := t
  have hfind : find = find' := funext h
  subst hfind
  have hsame : keys = keys' := by
    ext k
    rw [hkeys, hkeys']
  subst hsame
  rfl

instance : EmptyCollection (Table K V) :=
  ⟨{ lookup := fun _ => none, keys := ∅, mem_keys := by simp }⟩

def card (t : Table K V) : Nat := t.keys.card

def All (p : K → V → Prop) (t : Table K V) : Prop := ∀ k v, t.lookup k = some v → p k v

def map (f : K → V → W) (t : Table K V) : Table K W where
  lookup k := (t.lookup k).map (f k)
  keys := t.keys
  mem_keys k := by rw [t.mem_keys, Option.isSome_map]

def retain (p : K → Bool) (t : Table K V) : Table K V where
  lookup k := if p k then t.lookup k else none
  keys := t.keys.filter (fun k => p k)
  mem_keys k := by
    rw [Finset.mem_filter, t.mem_keys]
    by_cases hk : p k <;> simp [hk]

variable (f : K → V → Option W)

def filterMap (t : Table K V) : Table K W where
  lookup k := (t.lookup k).bind (f k)
  keys := t.keys.filter (fun k => ((t.lookup k).bind (f k)).isSome)
  mem_keys k := by
    rw [Finset.mem_filter, t.mem_keys, and_iff_right_iff_imp]
    exact Option.isSome_of_isSome_bind

section Update

variable [DecidableEq K]

def insert (t : Table K V) (key : K) (value : V) : Table K V where
  lookup k := if k = key then some value else t.lookup k
  keys := Insert.insert key t.keys
  mem_keys k := by
    rw [Finset.mem_insert, t.mem_keys]
    by_cases hk : k = key <;> simp [hk]

def erase (t : Table K V) (key : K) : Table K V := t.retain (fun k => k ≠ key)

def insertAll (t : Table K V) (entries : List (K × V)) : Table K V :=
  entries.foldl (fun t entry => t.insert entry.1 entry.2) t

/-- Collecting a list of entries: the last one of a key stays. -/
def ofList (entries : List (K × V)) : Table K V := (∅ : Table K V).insertAll entries

def const (keys : Finset K) (value : V) : Table K V where
  lookup k := if k ∈ keys then some value else none
  keys := keys
  mem_keys k := by by_cases hk : k ∈ keys <;> simp [hk]

end Update

structure Lists (t : Table K V) (entries : List (K × V)) : Prop where
  nodup : (entries.map Prod.fst).Nodup
  mem_iff : ∀ k v, (k, v) ∈ entries ↔ t.lookup k = some v

/-! ## Lookups -/

@[simp] theorem lookup_empty (k : K) : (∅ : Table K V).lookup k = none := rfl

@[simp] theorem lookup_map (f : K → V → W) (t : Table K V) (k : K) :
    (t.map f).lookup k = (t.lookup k).map (f k) := rfl

theorem lookup_filterMap (t : Table K V) (k : K) :
    (t.filterMap f).lookup k = (t.lookup k).bind (f k) := rfl

theorem lookup_retain (p : K → Bool) (t : Table K V) (k : K) :
    (t.retain p).lookup k = if p k then t.lookup k else none := rfl

theorem card_le_card {t : Table K V} {t' : Table K W}
    (h : ∀ k, (t.lookup k).isSome → (t'.lookup k).isSome) : t.card ≤ t'.card := by
  refine Finset.card_le_card fun k hk => ?_
  exact (t'.mem_keys k).mpr (h k ((t.mem_keys k).mp hk))

theorem card_lt_card {t : Table K V} {t' : Table K W} {key : K}
    (h : ∀ k, (t.lookup k).isSome → (t'.lookup k).isSome) (hnot : t.lookup key = none)
    (hkey : (t'.lookup key).isSome) : t.card < t'.card := by
  refine Finset.card_lt_card ((Finset.ssubset_iff_of_subset ?_).mpr ⟨key, ?_, ?_⟩)
  · intro k hk
    exact (t'.mem_keys k).mpr (h k ((t.mem_keys k).mp hk))
  · exact (t'.mem_keys key).mpr hkey
  · rw [t.mem_keys, hnot]
    exact Bool.false_ne_true

section Update

variable [DecidableEq K] (t : Table K V) (key : K)

theorem lookup_insert (value : V) (k : K) :
    (t.insert key value).lookup k = if k = key then some value else t.lookup k := rfl

@[simp] theorem lookup_insert_self (value : V) :
    (t.insert key value).lookup key = some value := if_pos rfl

theorem lookup_insert_of_ne {key k : K} (h : k ≠ key) (value : V) :
    (t.insert key value).lookup k = t.lookup k := if_neg h

theorem lookup_insert_eq_none {t : Table K V} {entry : K × W} {entries : List (K × W)}
    (hnew : ∀ e ∈ entry :: entries, t.lookup e.1 = none) (hnot : entry.1 ∉ entries.map Prod.fst)
    (value : V) : ∀ e ∈ entries, (t.insert entry.1 value).lookup e.1 = none := by
  intro e he
  have hne : e.1 ≠ entry.1 := fun heq => hnot (heq ▸ mem_map_of_mem he)
  rw [lookup_insert_of_ne _ hne]
  exact hnew e (mem_cons_of_mem _ he)

theorem insert_eq_self {t : Table K V} {key : K} {value : V} (h : t.lookup key = some value) :
    t.insert key value = t := by
  refine Table.ext fun k => ?_
  rw [lookup_insert]
  split
  · next hk => rw [hk, h]
  · rfl

@[simp] theorem insert_insert (value value' : V) :
    (t.insert key value).insert key value' = t.insert key value' := by
  refine Table.ext fun k => ?_
  rw [lookup_insert, lookup_insert, lookup_insert]
  split <;> rfl

@[simp] theorem lookup_erase_self : (t.erase key).lookup key = none := by
  simp [erase, lookup_retain]

theorem lookup_erase_of_ne {key k : K} (h : k ≠ key) : (t.erase key).lookup k = t.lookup k := by
  simp [erase, lookup_retain, h]

theorem card_insert_le (value : V) :
    (t.insert key value).card ≤ t.card + 1 := Finset.card_insert_le _ _

@[simp] theorem insertAll_cons (entry : K × V) (entries : List (K × V)) :
    t.insertAll (entry :: entries) = (t.insert entry.1 entry.2).insertAll entries := rfl

theorem insertAll_append (left right : List (K × V)) :
    t.insertAll (left ++ right) = (t.insertAll left).insertAll right := foldl_append

variable {entries : List (K × V)} {k : K}

theorem lookup_insertAll_of_notMem (h : k ∉ entries.map Prod.fst) (t : Table K V) :
    (t.insertAll entries).lookup k = t.lookup k := by
  induction entries generalizing t with
  | nil => rfl
  | cons entry entries ih =>
    rw [map_cons, mem_cons, not_or] at h
    rw [insertAll_cons, ih h.2, lookup_insert_of_ne t h.1]

theorem lookup_insertAll_of_mem (hnodup : (entries.map Prod.fst).Nodup) {v : V}
    (h : (k, v) ∈ entries) (t : Table K V) : (t.insertAll entries).lookup k = some v := by
  induction entries generalizing t with
  | nil => cases h
  | cons entry entries ih =>
    rw [map_cons, nodup_cons] at hnodup
    rw [insertAll_cons]
    rcases mem_cons.mp h with rfl | hrest
    · rw [lookup_insertAll_of_notMem hnodup.1, lookup_insert_self]
    · exact ih hnodup.2 hrest _

theorem mem_or_of_lookup_insertAll {t : Table K V} {v : V}
    (h : (t.insertAll entries).lookup k = some v) : (k, v) ∈ entries ∨ t.lookup k = some v := by
  induction entries generalizing t with
  | nil => exact .inr h
  | cons entry entries ih =>
    rw [insertAll_cons] at h
    rcases ih h with hmem | hfound
    · exact .inl (mem_cons_of_mem _ hmem)
    · rw [lookup_insert] at hfound
      split at hfound
      · next hk =>
        rw [hk, ← Option.some.inj hfound]
        exact .inl mem_cons_self
      · exact .inr hfound

theorem mem_of_lookup_ofList {v : V} (h : (ofList entries).lookup k = some v) : (k, v) ∈ entries :=
  (mem_or_of_lookup_insertAll h).resolve_right (by simp)

end Update

/-! ## Going through a table -/

theorem lists_empty : (∅ : Table K V).Lists [] :=
  ⟨nodup_nil, by simp⟩

namespace Lists

variable {t : Table K V} {entries : List (K × V)}

theorem mem_keys_iff (h : t.Lists entries) (k : K) :
    k ∈ entries.map Prod.fst ↔ (t.lookup k).isSome := by
  rw [mem_map, Option.isSome_iff_exists]
  constructor
  · rintro ⟨entry, hentry, rfl⟩
    exact ⟨entry.2, (h.mem_iff _ _).mp hentry⟩
  · rintro ⟨v, hv⟩
    exact ⟨(k, v), (h.mem_iff k v).mpr hv, rfl⟩

/-- The keys of one table list another one with the same keys. -/
theorem map_value (h : t.Lists entries) {t' : Table K W} {f : K → W}
    (hkeys : ∀ k, (t'.lookup k).isSome = (t.lookup k).isSome)
    (hf : ∀ k w, t'.lookup k = some w → f k = w) :
    t'.Lists (entries.map fun entry => (entry.1, f entry.1)) := by
  constructor
  · rw [map_map]
    exact h.nodup
  · intro k w
    rw [mem_map]
    constructor
    · rintro ⟨entry, hentry, heq⟩
      obtain ⟨rfl, rfl⟩ := Prod.mk.inj heq
      have hsome := hkeys entry.1
      rw [(h.mem_iff _ _).mp hentry] at hsome
      obtain ⟨w, hw⟩ := Option.isSome_iff_exists.mp hsome
      rw [hw, hf _ w hw]
    · intro hw
      have hsome := hkeys k
      rw [hw] at hsome
      obtain ⟨v, hv⟩ := Option.isSome_iff_exists.mp hsome.symm
      exact ⟨(k, v), (h.mem_iff k v).mpr hv, by rw [hf k w hw]⟩

variable [DecidableEq K]

theorem insert (h : t.Lists entries) {key : K} (hkey : t.lookup key = none) (value : V) :
    (t.insert key value).Lists ((key, value) :: entries) := by
  constructor
  · rw [map_cons, nodup_cons]
    refine ⟨?_, h.nodup⟩
    rw [h.mem_keys_iff, hkey]
    exact Bool.false_ne_true
  · intro k v
    rw [mem_cons, h.mem_iff, lookup_insert]
    by_cases hk : k = key
    · subst hk
      simp [hkey, eq_comm]
    · simp [hk]

/-- Inserting what a table lists rebuilds it, over any table with no other keys. -/
theorem insertAll_eq (h : t.Lists entries) {base : Table K V}
    (hbase : ∀ k, (base.lookup k).isSome → (t.lookup k).isSome) : base.insertAll entries = t := by
  refine Table.ext fun k => ?_
  by_cases hk : k ∈ entries.map Prod.fst
  · obtain ⟨entry, hentry, rfl⟩ := mem_map.mp hk
    rw [lookup_insertAll_of_mem h.nodup hentry, (h.mem_iff _ _).mp hentry]
  · have hnone : t.lookup k = none := by
      rw [h.mem_keys_iff] at hk
      exact Option.not_isSome_iff_eq_none.mp hk
    rw [lookup_insertAll_of_notMem hk, hnone]
    have hempty := mt (hbase k) (by rw [hnone]; exact Bool.false_ne_true)
    exact Option.not_isSome_iff_eq_none.mp hempty

theorem ofList_eq (h : t.Lists entries) : ofList entries = t :=
  h.insertAll_eq (by simp)

theorem subset_of_ofList {source : List (K × V)} (h : (ofList source).Lists entries) :
    entries ⊆ source := by
  rintro ⟨k, v⟩ hentry
  exact mem_of_lookup_ofList ((h.mem_iff k v).mp hentry)

end Lists

/-! ## Properties of all entries -/

namespace All

variable {p : K → V → Prop} {t : Table K V}

theorem empty : All p (∅ : Table K V) := by
  intro k v h
  cases h

theorem retain (h : All p t) (q : K → Bool) : All p (t.retain q) := by
  intro k v hv
  rw [lookup_retain] at hv
  split at hv
  · exact h k v hv
  · cases hv

variable [DecidableEq K]

theorem insert (h : All p t) {key : K} {value : V} (hvalue : p key value) :
    All p (t.insert key value) := by
  intro k v hv
  rw [lookup_insert] at hv
  split at hv
  · next hk =>
    rw [hk, ← Option.some.inj hv]
    exact hvalue
  · exact h k v hv

theorem erase (h : All p t) (key : K) : All p (t.erase key) := h.retain _

end All

end Table

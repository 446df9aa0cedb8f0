/-
Maps that are iterated in the order of their keys (Rust's `BTreeMap`, and with values of
type `Unit` its `BTreeSet`).
-/
import Mathlib.Data.List.Basic
import Mathlib.Order.Lattice

structure OrderedMap (κ ν : Type*) [LinearOrder κ] where
  entries : List (κ × ν)
  sorted : entries.Pairwise (fun e e' => e.1 < e'.1)

namespace OrderedMap

open List

variable {κ ν σ : Type*}

def popEntries (step : σ → κ × ν → Option σ) : σ → List (κ × ν) → σ × List (κ × ν)
  | s, [] => (s, [])
  | s, e :: rest =>
    match step s e with
    | some s' => popEntries step s' rest
    | none => (s, e :: rest)

theorem popEntries_suffix (step : σ → κ × ν → Option σ) (s : σ) (l : List (κ × ν)) :
    (popEntries step s l).2 <:+ l := by
  induction l generalizing s with
  | nil => exact suffix_rfl
  | cons e rest ih =>
    rw [popEntries]
    split
    · exact (ih _).trans (suffix_cons e rest)
    · exact suffix_rfl

variable {l : List (κ × ν)}

/-- What the taking of entries from the front preserves, and where it stops. -/
theorem popEntries_induction (step : σ → κ × ν → Option σ) {P : σ → List (κ × ν) → Prop}
    (hstep : ∀ s e rest s', P s (e :: rest) → step s e = some s' → P s' rest) {s : σ} (h : P s l) :
    P (popEntries step s l).1 (popEntries step s l).2 := by
  induction l generalizing s with
  | nil => exact h
  | cons e rest ih =>
    rw [popEntries]
    split
    · next s' hs' => exact ih (hstep s e rest s' h hs')
    · exact h

variable {e : κ × ν}

theorem popEntries_stop {step : σ → κ × ν → Option σ} {s : σ}
    (h : (popEntries step s l).2.head? = some e) : step (popEntries step s l).1 e = none := by
  induction l generalizing s with
  | nil => cases h
  | cons first rest ih =>
    rw [popEntries] at h ⊢
    split at h
    · exact ih h
    · next hnone =>
      rw [← Option.some.inj h]
      exact hnone

variable [LinearOrder κ]

instance : EmptyCollection (OrderedMap κ ν) := ⟨{ entries := [], sorted := List.Pairwise.nil }⟩

/-! ## Operations -/

variable (m : OrderedMap κ ν)

def lookup (key : κ) : Option ν :=
  (m.entries.find? (fun e => e.1 = key)).map Prod.snd

def insertEntry (key : κ) (value : ν) : List (κ × ν) → List (κ × ν)
  | [] => [(key, value)]
  | e :: rest =>
    if key < e.1 then (key, value) :: e :: rest
    else if key = e.1 then (key, value) :: rest
    else e :: insertEntry key value rest

variable {key : κ} {value : ν}

theorem mem_of_mem_insertEntry (h : e ∈ insertEntry key value l) : e = (key, value) ∨ e ∈ l := by
  induction l with
  | nil => exact .inl (mem_singleton.mp h)
  | cons first rest ih =>
    rw [insertEntry] at h
    split at h
    · exact mem_cons.mp h
    · split at h
      · exact (mem_cons.mp h).imp_right (mem_cons_of_mem first)
      · rcases mem_cons.mp h with rfl | hrest
        · exact .inr mem_cons_self
        · exact (ih hrest).imp_right (mem_cons_of_mem first)

theorem sorted_insertEntry (h : l.Pairwise (fun e e' => e.1 < e'.1)) :
    (insertEntry key value l).Pairwise (fun e e' => e.1 < e'.1) := by
  induction l with
  | nil => exact pairwise_singleton _ _
  | cons first rest ih =>
    obtain ⟨hfirst, hrest⟩ := pairwise_cons.mp h
    rw [insertEntry]
    split
    · next hlt =>
      refine pairwise_cons.mpr ⟨fun e he => ?_, h⟩
      rcases mem_cons.mp he with rfl | he
      · exact hlt
      · exact hlt.trans (hfirst e he)
    · split
      · next heq => exact pairwise_cons.mpr ⟨fun e he => heq ▸ hfirst e he, hrest⟩
      · next hge hne =>
        refine pairwise_cons.mpr ⟨fun e he => ?_, ih hrest⟩
        rcases mem_of_mem_insertEntry he with rfl | he
        · exact lt_of_le_of_ne (not_lt.mp hge) (Ne.symm hne)
        · exact hfirst e he

def insert (key : κ) (value : ν) : OrderedMap κ ν where
  entries := insertEntry key value m.entries
  sorted := sorted_insertEntry m.sorted

def erase (key : κ) : OrderedMap κ ν where
  entries := m.entries.filter (fun e => e.1 ≠ key)
  sorted := m.sorted.filter _

/-- `while let Some(entry) = map.first()`: the state and the map that are left. -/
def popWhile (step : σ → κ × ν → Option σ) (s : σ) (m : OrderedMap κ ν) : σ × OrderedMap κ ν :=
  ((popEntries step s m.entries).1,
    { entries := (popEntries step s m.entries).2
      sorted := m.sorted.sublist (popEntries_suffix step s m.entries).sublist })

def keysWhere (p : κ → ν → Bool) : List κ :=
  (m.entries.filter (fun e => p e.1 e.2)).map Prod.fst

/-! ## Membership -/

variable {m : OrderedMap κ ν}

theorem mem_of_mem_erase (h : e ∈ (m.erase key).entries) : e ∈ m.entries :=
  mem_of_mem_filter h

theorem eq_of_mem_of_mem {e' : κ × ν} (h : e ∈ m.entries) (h' : e' ∈ m.entries)
    (hkey : e.1 = e'.1) : e = e' := by
  obtain ⟨pre, post, hsplit⟩ := append_of_mem h
  have hsorted := m.sorted
  rw [hsplit] at hsorted h'
  obtain ⟨-, hpost, hcross⟩ := pairwise_append.mp hsorted
  rcases mem_append.mp h' with hmem | hmem
  · exact absurd hkey (hcross e' hmem e mem_cons_self).ne'
  · rcases mem_cons.mp hmem with rfl | hmem
    · rfl
    · exact absurd hkey ((pairwise_cons.mp hpost).1 e' hmem).ne

theorem mem_of_lookup (h : m.lookup key = some value) : (key, value) ∈ m.entries := by
  obtain ⟨e, hfind, rfl⟩ := Option.map_eq_some_iff.mp h
  have hfound := List.find?_some hfind
  rw [← of_decide_eq_true hfound]
  exact mem_of_find?_eq_some hfind

theorem lookup_of_mem (h : (key, value) ∈ m.entries) : m.lookup key = some value := by
  have hsome : (m.entries.find? (fun e => e.1 = key)).isSome = true :=
    List.find?_isSome.mpr ⟨_, h, decide_eq_true rfl⟩
  obtain ⟨e, hfind⟩ := Option.isSome_iff_exists.mp hsome
  have hfound := List.find?_some hfind
  have heq := eq_of_mem_of_mem (mem_of_find?_eq_some hfind) h (of_decide_eq_true hfound)
  rw [lookup, hfind, heq]
  rfl

/-! ## At a known place -/

variable {pre post : List (κ × ν)}

theorem entries_erase_between (h : m.entries = pre ++ e :: post) :
    (m.erase e.1).entries = pre ++ post := by
  have hsorted := m.sorted
  rw [h] at hsorted
  obtain ⟨-, hpost, hcross⟩ := pairwise_append.mp hsorted
  have hpre := filter_eq_self.mpr fun x hx => decide_eq_true (hcross x hx e mem_cons_self).ne
  have hrest := filter_eq_self.mpr fun x hx => decide_eq_true ((pairwise_cons.mp hpost).1 x hx).ne'
  show m.entries.filter (fun x => x.1 ≠ e.1) = pre ++ post
  rw [h, filter_append, filter_cons, if_neg (by simp), hpre, hrest]

theorem insertEntry_between (hpre : ∀ e ∈ pre, e.1 < key) (hpost : ∀ e ∈ post, key < e.1) :
    insertEntry key value (pre ++ post) = pre ++ (key, value) :: post := by
  induction pre with
  | nil =>
    cases post with
    | nil => rfl
    | cons e => rw [nil_append, insertEntry, if_pos (hpost e mem_cons_self), nil_append]
  | cons e pre ih =>
    have hlt := hpre e mem_cons_self
    rw [cons_append, insertEntry, if_neg hlt.not_gt, if_neg hlt.ne',
      ih fun x hx => hpre x (mem_cons_of_mem e hx), cons_append]

theorem entries_insert_between (h : m.entries = pre ++ post)
    (hpre : ∀ e ∈ pre, e.1 < key) (hpost : ∀ e ∈ post, key < e.1) :
    (m.insert key value).entries = pre ++ (key, value) :: post := by
  show insertEntry key value m.entries = _
  rw [h, insertEntry_between hpre hpost]

section

variable (h : m.entries = pre ++ e :: post)
include h

theorem lookup_between : m.lookup e.1 = some e.2 :=
  lookup_of_mem (by rw [h]; exact mem_append_right pre mem_cons_self)

theorem keys_between : (∀ x ∈ pre, x.1 < e.1) ∧ ∀ x ∈ post, e.1 < x.1 := by
  have hsorted := m.sorted
  rw [h] at hsorted
  obtain ⟨-, hpost, hcross⟩ := pairwise_append.mp hsorted
  exact ⟨fun x hx => hcross x hx e mem_cons_self, (pairwise_cons.mp hpost).1⟩

theorem entries_replace_between
    (value : ν) : ((m.erase e.1).insert e.1 value).entries = pre ++ (e.1, value) :: post :=
  entries_insert_between (entries_erase_between h) (keys_between h).1 (keys_between h).2

end

/-- A loop over the keys of the entries that satisfy `p`, which replaces the entry of each
key by entries in its place.  `P` relates the state, the entries that are behind and what
they were replaced by; `before` is what is known of an entry and a later one. -/
theorem foldl_keysWhere (get : σ → OrderedMap κ ν) {step : σ → κ → σ} {p : κ → ν → Bool}
    {before : κ × ν → κ × ν → Prop} {P : σ → List (κ × ν) → List (κ × ν) → Prop} (s : σ)
    (hbefore : (get s).entries.Pairwise before) (hinit : P s [] [])
    (hskip : ∀ s done out e, P s done out → p e.1 e.2 = false → P s (done ++ [e]) (out ++ [e]))
    (hstep : ∀ s' done out e rest, P s' done out → e ∈ (get s).entries → p e.1 e.2 = true →
      (get s').entries = out ++ e :: rest → (∀ x ∈ rest, before e x) →
      ∃ new, P (step s' e.1) (done ++ [e]) (out ++ new) ∧
        (get (step s' e.1)).entries = out ++ new ++ rest) :
    P (((get s).keysWhere p).foldl step s) (get s).entries
      (get (((get s).keysWhere p).foldl step s)).entries := by
  have hloop : ∀ (rest : List (κ × ν)) (s' : σ) (done out : List (κ × ν)), P s' done out →
      (get s').entries = out ++ rest → rest ⊆ (get s).entries → rest.Pairwise before →
      P (((rest.filter (fun e => p e.1 e.2)).map Prod.fst).foldl step s') (done ++ rest)
        (get (((rest.filter (fun e => p e.1 e.2)).map Prod.fst).foldl step s')).entries := by
    intro rest
    induction rest with
    | nil =>
      intro s' done out hP hentries _ _
      rw [append_nil] at hentries ⊢
      rw [← hentries] at hP
      exact hP
    | cons e rest ih =>
      intro s' done out hP hentries hsub hrest
      obtain ⟨hfirst, hrest⟩ := pairwise_cons.mp hrest
      obtain ⟨hmem, hsub⟩ := cons_subset.mp hsub
      rw [filter_cons, show done ++ e :: rest = done ++ [e] ++ rest by simp]
      by_cases hp : p e.1 e.2 = true
      · rw [if_pos hp, map_cons, foldl_cons]
        obtain ⟨new, hnew, hput⟩ := hstep s' done out e rest hP hmem hp hentries hfirst
        exact ih _ _ _ hnew hput hsub hrest
      · rw [if_neg hp]
        refine ih _ _ _ (hskip s' done out e hP (Bool.eq_false_iff.mpr hp)) ?_ hsub hrest
        rw [hentries]
        simp
  exact hloop (get s).entries s [] [] hinit rfl (List.Subset.refl _) hbefore

end OrderedMap

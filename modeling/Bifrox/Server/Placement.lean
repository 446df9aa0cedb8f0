/-
The placement of replicas (`striped_replicas` in `src/server/engine.rs`).

Every index is taken modulo the number of brokers.  Sums are taken in `Nat`: none of them comes
near the end of `usize` (`sums_lt`).
-/
import Mathlib.Algebra.Group.Nat.Defs
import Mathlib.Data.List.GetD
import Mathlib.Data.List.Perm.Subperm
import Mathlib.Data.List.Nodup

namespace Bifrox.Server

open List

variable (brokers : List UInt32)

def pushNew (replicas : List UInt32) (broker : UInt32) : List UInt32 :=
  if broker ∈ replicas then replicas else replicas ++ [broker]

def firstIndex (partition : UInt32) (seed : UInt64) (pinnedLeader : Option UInt32) : Nat :=
  (pinnedLeader.bind fun leader => brokers.findIdx? (· = leader)).getD
    ((partition.toNat + seed.toNat % brokers.length) % brokers.length)

/-- The leader and the loop over the followers, with their number. -/
def stripe (first shiftRound : Nat) : Nat → List UInt32
  | 0 => [brokers.getD first 0]
  | j + 1 => pushNew (stripe first shiftRound j)
      (brokers.getD ((first + (1 + (shiftRound + j) % (brokers.length - 1))) % brokers.length) 0)

/-- The loop that fills up: brokers are taken in their order until there are enough. -/
def fill (rf : Nat) : List UInt32 → List UInt32 → List UInt32
  | [], replicas => replicas
  | broker :: brokers, replicas =>
    if rf ≤ replicas.length then replicas else fill rf brokers (pushNew replicas broker)

def stripedReplicas (partition : UInt32) (replicationFactor : Nat) (seed : UInt64)
    (pinnedLeader : Option UInt32) : List UInt32 :=
  if brokers.length = 0 ∨ replicationFactor = 0 then []
  else
    let rf := min replicationFactor brokers.length
    let first := firstIndex brokers partition seed pinnedLeader
    if brokers.length = 1 then [brokers.getD first 0]
    else
      let shiftRound := partition.toNat / brokers.length + seed.toNat / brokers.length
      let replicas := stripe brokers first shiftRound (rf - 1)
      if replicas.length < rf then fill rf brokers replicas else replicas

/-- A list in memory has fewer than 2^62 entries. -/
theorem sums_lt (htwo : 2 ≤ brokers.length) (hlength : brokers.length < 2 ^ 62) (partition : UInt32)
    (seed : UInt64) {first j : Nat} (hfirst : first < brokers.length) (hj : j < brokers.length) :
    partition.toNat + seed.toNat % brokers.length < 2 ^ 64 ∧
      partition.toNat / brokers.length + seed.toNat / brokers.length + j < 2 ^ 64 ∧
      first + (1 + (partition.toNat / brokers.length + seed.toNat / brokers.length + j) %
        (brokers.length - 1)) < 2 ^ 64 := by
  have hpartition := partition.toNat_lt
  have hseed := seed.toNat_lt
  have hrest := Nat.mod_lt seed.toNat (show 0 < brokers.length by omega)
  have hround := Nat.div_le_div_left htwo (show 0 < 2 by decide) (a := partition.toNat)
  have hround' := Nat.div_le_div_left htwo (show 0 < 2 by decide) (a := seed.toNat)
  have hshift := Nat.mod_lt (partition.toNat / brokers.length + seed.toNat / brokers.length + j)
    (show 0 < brokers.length - 1 by omega)
  omega

/-- Brokers of the list, none of them twice, and the leader first. -/
structure Places (leader : UInt32) (replicas : List UInt32) : Prop where
  head : replicas.head? = some leader
  nodup : replicas.Nodup
  subset : ∀ broker ∈ replicas, broker ∈ brokers

variable {brokers} {leader : UInt32} {replicas : List UInt32}

theorem Places.pushNew (h : Places brokers leader replicas) {broker : UInt32}
    (hbroker : broker ∈ brokers) : Places brokers leader (pushNew replicas broker) ∧
      (pushNew replicas broker).length ≤ replicas.length + 1 := by
  obtain ⟨hhead, hnodup, hsubset⟩ := h
  rw [Server.pushNew]
  split
  · exact ⟨⟨hhead, hnodup, hsubset⟩, by omega⟩
  · next hnew => exact ⟨⟨by simp [head?_append, hhead], by grind, by grind⟩, by simp⟩

theorem places_stripe {first : Nat} (hfirst : first < brokers.length) (shiftRound n : Nat) :
    Places brokers (brokers.getD first 0) (stripe brokers first shiftRound n) ∧
      (stripe brokers first shiftRound n).length ≤ n + 1 := by
  have hmem : ∀ i < brokers.length, brokers.getD i 0 ∈ brokers := by
    intro i hi
    simp [getD_eq_getElem?_getD, hi]
  induction n with
  | zero =>
    exact ⟨⟨rfl, by simp [stripe], by simpa [stripe] using hmem first hfirst⟩, Nat.le_refl _⟩
  | succ n ih =>
    obtain ⟨hplaces, hlength⟩ := ih.1.pushNew (hmem _ (Nat.mod_lt _ (Nat.zero_lt_of_lt hfirst)))
    exact ⟨hplaces, Nat.le_trans hlength (Nat.succ_le_succ ih.2)⟩

theorem places_fill (rf : Nat) (h : Places brokers leader replicas) (hle : replicas.length ≤ rf)
    {l : List UInt32} (hl : l ⊆ brokers) :
    Places brokers leader (fill rf l replicas) ∧ (fill rf l replicas).length ≤ rf ∧
      (rf ≤ (fill rf l replicas).length ∨ ∀ broker ∈ l ++ replicas,
        broker ∈ fill rf l replicas) := by
  induction l generalizing replicas with
  | nil => exact ⟨h, hle, .inr fun _ hmem => hmem⟩
  | cons broker l ih =>
    rw [fill]
    split
    · next henough => exact ⟨h, hle, .inl henough⟩
    · next hfew =>
      obtain ⟨hplaces, hlength⟩ := h.pushNew (hl mem_cons_self)
      have hall := ih hplaces (by omega) (subset_of_cons_subset hl)
      grind [pushNew]

theorem firstIndex_spec (hpos : 0 < brokers.length) (partition : UInt32) (seed : UInt64)
    (pinnedLeader : Option UInt32) :
    firstIndex brokers partition seed pinnedLeader < brokers.length ∧
      ∀ pinned ∈ pinnedLeader, pinned ∈ brokers →
        brokers.getD (firstIndex brokers partition seed pinnedLeader) 0 = pinned := by
  rw [firstIndex]
  cases hfound : pinnedLeader.bind fun leader => brokers.findIdx? (· = leader) with
  | none =>
    refine ⟨Nat.mod_lt _ hpos, fun pinned hpinned hmem => ?_⟩
    obtain rfl := Option.mem_def.mp hpinned
    simpa using findIdx?_eq_none_iff.mp hfound pinned hmem
  | some =>
    obtain ⟨leader, rfl, hi⟩ := Option.bind_eq_some_iff.mp hfound
    obtain ⟨hlt, heq, -⟩ := findIdx?_eq_some_iff_getElem.mp hi
    refine ⟨hlt, fun pinned hpinned _ => ?_⟩
    rw [← Option.some.inj hpinned, Option.getD_some, getD_eq_getElem _ _ hlt]
    exact of_decide_eq_true heq

theorem places_stripedReplicas (hpos : 0 < brokers.length) (hnodup : brokers.Nodup) {rf : Nat}
    (hrf : 1 ≤ rf) (seed : UInt64) (partition : UInt32) (pinnedLeader : Option UInt32) :
    let rs := stripedReplicas brokers partition rf seed pinnedLeader
    Places brokers (brokers.getD (firstIndex brokers partition seed pinnedLeader) 0) rs ∧
      rs.length = min rf brokers.length := by
  have hlt := (firstIndex_spec hpos partition seed pinnedLeader).1
  rw [stripedReplicas, if_neg (by omega)]
  dsimp only
  split
  · exact ⟨(places_stripe hlt 0 0).1, by simp; omega⟩
  · obtain ⟨hplaces, hle⟩ := places_stripe hlt
      (partition.toNat / brokers.length + seed.toNat / brokers.length) (min rf brokers.length - 1)
    split
    · obtain ⟨hfill, hfillLe, hor⟩ := places_fill (min rf brokers.length) hplaces (by omega)
        (Subset.refl brokers)
      refine ⟨hfill, Nat.le_antisymm hfillLe (hor.elim id fun hall => ?_)⟩
      have hsub := hnodup.subperm fun broker hmem => hall broker (mem_append_left _ hmem)
      exact Nat.le_trans (Nat.min_le_right _ _) hsub.length_le
    · exact ⟨hplaces, by omega⟩

/-- The placement has as many brokers as are asked for and there are, with a pinned leader first;
without one, partitions in a row have different leaders. -/
theorem striped_and_balanced (brokers : List UInt32) (hne : brokers ≠ []) (hnodup : brokers.Nodup)
    (rf : Nat) (hrf : 1 ≤ rf) (seed : UInt64) :
    (∀ partition pinnedLeader,
      (stripedReplicas brokers partition rf seed pinnedLeader).length = min rf brokers.length ∧
      ∃ leader, Places brokers leader (stripedReplicas brokers partition rf seed pinnedLeader) ∧
        ∀ pinned ∈ pinnedLeader, pinned ∈ brokers → leader = pinned) ∧
    ∀ p q : UInt32, p < q → q.toNat < p.toNat + brokers.length →
      (stripedReplicas brokers p rf seed none).head? ≠
        (stripedReplicas brokers q rf seed none).head? := by
  have hpos := length_pos_iff.mpr hne
  have hplaces := places_stripedReplicas hpos hnodup hrf seed
  refine ⟨fun partition pinnedLeader => ?_, fun p q hpq hq heq => ?_⟩
  · obtain ⟨hplaced, hlength⟩ := hplaces partition pinnedLeader
    exact ⟨hlength, _, hplaced, (firstIndex_spec hpos partition seed pinnedLeader).2⟩
  · have hp := (firstIndex_spec hpos p seed none).1
    have hq' := (firstIndex_spec hpos q seed none).1
    rw [(hplaces p none).1.head, (hplaces q none).1.head, Option.some.injEq,
      getD_eq_getElem _ _ hp, getD_eq_getElem _ _ hq', hnodup.getElem_inj_iff] at heq
    have hmod := Nat.sub_mod_eq_zero_of_mod_eq heq.symm
    have hlt : p.toNat < q.toNat := hpq
    rw [Nat.add_sub_add_right, Nat.mod_eq_of_lt (by omega)] at hmod
    omega

/-- Five of seven brokers, with the largest seed and partition. -/
theorem striped_and_balanced_seven :
    (stripedReplicas [1, 2, 3, 4, 5, 6, 7] 0xFFFFFFFF 5 0xFFFFFFFFFFFFFFFF (some 3)).length = 5 :=
  ((striped_and_balanced [1, 2, 3, 4, 5, 6, 7] (by decide) (by decide) 5 (by decide) _).1 _ _).1

end Bifrox.Server

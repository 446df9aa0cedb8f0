/-
Votes that are kept in a register, and majorities.

The register only advances: to a later term, or from no vote to a vote.
-/
import Mathlib.Data.Finset.Card

namespace Bifrox.Ballot

variable {γ ν : Type*} {voters : Finset ν}

structure Register (γ : Type*) where
  term : Nat
  vote : Option γ

namespace Register

variable {r r' r'' : Register γ} {c c' : γ} {t : Nat}

/-- The register is past the term, or in it and has the vote on record. -/
def Backs (r : Register γ) (c : γ) (t : Nat) : Prop :=
  t < r.term ∨ t = r.term ∧ r.vote = some c

def Advances (r r' : Register γ) : Prop :=
  r.term < r'.term ∨ r.term = r'.term ∧ (r.vote = none ∨ r.vote = r'.vote)

theorem Advances.refl (r : Register γ) : r.Advances r := .inr ⟨rfl, .inr rfl⟩

theorem Advances.le (h : r.Advances r') : r.term ≤ r'.term := by
  rcases h with h | ⟨h, -⟩
  · exact Nat.le_of_lt h
  · exact Nat.le_of_eq h

theorem Backs.advances (h : r.Backs c t) (hadv : r.Advances r') : r'.Backs c t := by
  rcases h with hpast | ⟨hterm, hvote⟩
  · exact .inl (Nat.lt_of_lt_of_le hpast hadv.le)
  · rcases hadv with hlater | ⟨hsame, hnone | hkept⟩
    · exact .inl (hterm.trans_lt hlater)
    · rw [hvote] at hnone
      cases hnone
    · exact .inr ⟨hterm.trans hsame, hkept.symm.trans hvote⟩

/-- A register that advances to a vote had no other vote on record for the term. -/
theorem eq_of_backs (h : r.Backs c t) (hadv : r.Advances { term := t, vote := some c' }) :
    c = c' := by
  rcases h with hpast | ⟨hterm, hvote⟩
  · exact absurd hadv.le (Nat.not_le.mpr hpast)
  · rcases hadv with hlater | ⟨-, hnone | hkept⟩
    · exact absurd hlater (hterm ▸ Nat.lt_irrefl _)
    · rw [hvote] at hnone
      cases hnone
    · rw [hvote] at hkept
      exact Option.some.inj hkept

end Register

/-! ## Majorities -/

/-- More than half of the voters have cast a vote for the candidate. -/
def Carried (voters : Finset ν) (cast : ν → γ → Prop) (c : γ) : Prop :=
  ∃ quorum ⊆ voters, voters.card < 2 * quorum.card ∧ ∀ v ∈ quorum, cast v c

theorem Carried.imp {cast cast' : ν → γ → Prop} {c : γ}
    (h : Carried voters cast c) (himp : ∀ v, cast v c → cast' v c) : Carried voters cast' c := by
  obtain ⟨quorum, hsub, hcard, hcast⟩ := h
  exact ⟨quorum, hsub, hcard, fun v hv => himp v (hcast v hv)⟩

/-- Two majorities have a voter in common. -/
theorem eq_of_carried [DecidableEq ν] {cast : ν → γ → Prop} {c c' : γ}
    (hunique : ∀ v c c', cast v c → cast v c' → c = c') (h : Carried voters cast c)
    (h' : Carried voters cast c') : c = c' := by
  obtain ⟨quorum, hsub, hcard, hcast⟩ := h
  obtain ⟨quorum', hsub', hcard', hcast'⟩ := h'
  obtain ⟨v, hv⟩ := Finset.inter_nonempty_of_card_lt_card_add_card hsub hsub' (by omega)
  rw [Finset.mem_inter] at hv
  exact hunique v c c' (hcast v hv.1) (hcast' v hv.2)

end Bifrox.Ballot

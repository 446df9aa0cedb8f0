/-
One committed log that several nodes write to.

What a node writes next it decides from the part of the log that it has applied, and by the time
the record is committed the log may have grown.  In a `Legal` log each record is the one that its
node would still decide on.
-/
import Bifrox.Lib.Run

namespace Journal

open List
open Run (run Guarded)

variable {ν ι ρ : Type*} {log : List ρ}

structure Proposal (ν ι ρ : Type*) where
  node : ν
  input : ι
  record : ρ

structure State (ν ι ρ : Type*) where
  log : List ρ
  applied : ν → Nat
  pending : List (Proposal ν ι ρ)

def State.start : State ν ι ρ where
  log := []
  applied := fun _ => 0
  pending := []

def State.view (s : State ν ι ρ) (node : ν) : List ρ := s.log.take (s.applied node)

inductive Move (ν ι : Type*) where
  | apply (node : ν)
  | propose (node : ν) (input : ι)
  | commit (i : Nat)

def step [DecidableEq ν] (offer : ν → ι → List ρ → Option ρ) (s : State ν ι ρ) :
    Move ν ι → State ν ι ρ
  | .apply node =>
    { s with
      applied := Function.update s.applied node (min (s.applied node + 1) s.log.length) }
  | .propose node input =>
    match offer node input (s.view node) with
    | some record => { s with pending := s.pending ++ [⟨node, input, record⟩] }
    | none => s
  | .commit i =>
    match s.pending[i]? with
    | some proposal =>
      { s with
        log := s.log ++ [proposal.record]
        pending := s.pending.eraseIdx i }
    | none => s

/-- Its node would write the record after the whole log. -/
def Fresh (offer : ν → ι → List ρ → Option ρ) (log : List ρ) (proposal : Proposal ν ι ρ) : Prop :=
  offer proposal.node proposal.input log = some proposal.record

def Commits (may : List ρ → Proposal ν ι ρ → Prop) (s : State ν ι ρ) : Move ν ι → Prop
  | .apply _ | .propose _ _ => True
  | .commit i => ∀ proposal ∈ s.pending[i]?, may s.log proposal

/-- Every record met a condition on the records before it. -/
inductive Legal (may : List ρ → Proposal ν ι ρ → Prop) : List ρ → Prop where
  | nil : Legal may []
  | snoc {log : List ρ} (proposal : Proposal ν ι ρ) (legal : Legal may log)
      (allowed : may log proposal) : Legal may (log ++ [proposal.record])

theorem getElem?_snoc_eq_some {record record' : ρ} {i : Nat} :
    (log ++ [record])[i]? = some record' ↔
      log[i]? = some record' ∨ i = log.length ∧ record = record' := by
  by_cases hi : i < log.length
  · rw [List.getElem?_append_left hi]
    exact ⟨.inl, fun h => h.elim id (fun h => absurd h.1 (by omega))⟩
  · rw [List.getElem?_eq_none (Nat.not_lt.mp hi), List.getElem?_append_right (Nat.not_lt.mp hi),
      List.getElem?_singleton]
    by_cases hlast : i = log.length
    · simp [hlast]
    · simp [hlast, show i - log.length ≠ 0 by omega]

variable {offer : ν → ι → List ρ → Option ρ} {may : List ρ → Proposal ν ι ρ → Prop}
  {s : State ν ι ρ}

theorem log_prefix_step [DecidableEq ν] (s : State ν ι ρ) (move : Move ν ι) :
    s.log <+: (step offer s move).log := by
  cases move with
  | apply => exact prefix_refl _
  | propose =>
    rw [step]
    split <;> exact prefix_refl _
  | commit =>
    rw [step]
    split
    · exact prefix_append _ _
    · exact prefix_refl _

theorem legal_step [DecidableEq ν] {move : Move ν ι} (h : Legal may s.log)
    (hmay : Commits may s move) : Legal may (step offer s move).log := by
  cases move with
  | apply => exact h
  | propose =>
    rw [step]
    split <;> exact h
  | commit =>
    rw [step]
    split
    · next proposal hproposal => exact h.snoc proposal (hmay proposal hproposal)
    · exact h

theorem Legal.take (h : Legal may log) (i : Nat) : Legal may (log.take i) := by
  induction h with
  | nil =>
    rw [take_nil]
    exact .nil
  | @snoc log proposal hlog hallowed ih =>
    by_cases hi : i ≤ log.length
    · rw [take_append_of_le_length hi]
      exact ih
    · rw [take_of_length_le (by rw [length_append, length_singleton]; omega)]
      exact hlog.snoc proposal hallowed

theorem Legal.exists_take_succ (h : Legal may log) {i : Nat} (hi : i < log.length) :
    ∃ proposal, may (log.take i) proposal ∧ log.take (i + 1) = log.take i ++ [proposal.record] := by
  induction h with
  | nil => exact absurd hi (Nat.not_lt_zero i)
  | @snoc log proposal hlog hallowed ih =>
    rw [length_append, length_singleton] at hi
    by_cases hlast : i = log.length
    · subst hlast
      refine ⟨proposal, ?_, ?_⟩
      · rw [take_left]
        exact hallowed
      · rw [take_left, take_of_length_le (by simp)]
    · rw [take_append_of_le_length (by omega), take_append_of_le_length (by omega)]
      exact ih (by omega)

/-- A run that commits only what it may leads to a legal log. -/
theorem legal_run [DecidableEq ν] {moves : List (Move ν ι)} (h : Legal may s.log)
    (hmay : Guarded (step offer) (Commits may) s moves) :
    Legal may (run (step offer) s moves).log :=
  hmay.invariant (P := fun s => Legal may s.log) (fun _ _ h hmove => legal_step h hmove) h

end Journal

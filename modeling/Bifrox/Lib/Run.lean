/-
Runs of a deterministic step function.

`Guarded step ok s ops` says that every operation of the run meets `ok` in the state in which it
is taken.
-/
import Mathlib.Data.List.Basic

namespace Run

variable {σ ω : Type*}

def run (step : σ → ω → σ) (s : σ) (ops : List ω) : σ := ops.foldl step s

/-- Every operation meets `ok` in the state in which it is taken. -/
def Guarded (step : σ → ω → σ) (ok : σ → ω → Prop) : σ → List ω → Prop
  | _, [] => True
  | s, op :: ops => ok s op ∧ Guarded step ok (step s op) ops

variable {step : σ → ω → σ} {ok : σ → ω → Prop} {P : σ → Prop}

@[simp] theorem run_nil (s : σ) : run step s [] = s := rfl

@[simp] theorem run_cons (s : σ) (op : ω) (ops : List ω) :
    run step s (op :: ops) = run step (step s op) ops := rfl

theorem run_append (s : σ) (ops₁ ops₂ : List ω) :
    run step s (ops₁ ++ ops₂) = run step (run step s ops₁) ops₂ :=
  List.foldl_append

variable {s : σ}

theorem run_invariant (hstep : ∀ s op, P s → P (step s op)) (hinit : P s) (ops : List ω) :
    P (run step s ops) := by
  induction ops generalizing s with
  | nil => exact hinit
  | cons op ops ih => exact ih (hstep s op hinit)

variable {ops : List ω}

theorem Guarded.invariant (hstep : ∀ s op, P s → ok s op → P (step s op)) (hinit : P s)
    (h : Guarded step ok s ops) : P (run step s ops) := by
  induction ops generalizing s with
  | nil => exact hinit
  | cons op ops ih => exact ih (hstep s op hinit h.1) h.2

instance decidableGuarded [∀ s op, Decidable (ok s op)] : (s : σ) → (ops : List ω) →
    Decidable (Guarded step ok s ops)
  | _, [] => .isTrue trivial
  | s, op :: ops => @instDecidableAnd _ _ _ (decidableGuarded (step s op) ops)

/-- `Q` holds in every state of the run. -/
def Always (step : σ → ω → σ) (Q : σ → Prop) : σ → List ω → Prop
  | s, [] => Q s
  | s, op :: ops => Q s ∧ Always step Q (step s op) ops

variable {Q : σ → Prop}

theorem Always.run (h : Always step Q s ops) : Q (run step s ops) := by
  induction ops generalizing s with
  | nil => exact h
  | cons op ops ih => exact ih h.2

theorem Always.head (h : Always step Q s ops) : Q s := by
  cases ops with
  | nil => exact h
  | cons => exact h.1

/-- What holds in every state of a run holds before and after each step. -/
theorem Always.guarded (h : Always step Q s ops) :
    Guarded step (fun s op => Q s ∧ Q (step s op)) s ops := by
  induction ops generalizing s with
  | nil => trivial
  | cons op ops ih =>
    exact ⟨⟨h.1, h.2.head⟩, ih h.2⟩

instance decidableAlways {Q : σ → Prop} [∀ s, Decidable (Q s)] : (s : σ) → (ops : List ω) →
    Decidable (Always step Q s ops)
  | s, [] => inferInstanceAs (Decidable (Q s))
  | s, op :: ops => @instDecidableAnd _ _ _ (decidableAlways (step s op) ops)

/-- An invariant of guarded steps holds in every state of a guarded run. -/
theorem Guarded.always {Q inv : σ → Prop} (hQ : ∀ s, inv s → Q s)
    (hstep : ∀ s op, inv s → ok s op → inv (step s op)) (hinit : inv s)
    (h : Guarded step ok s ops) : Always step Q s ops := by
  induction ops generalizing s with
  | nil => exact hQ s hinit
  | cons op ops ih => exact ⟨hQ s hinit, ih (hstep s op hinit h.1) h.2⟩

/-- A condition on single steps is exact for `Q` when steps that meet it keep an
invariant that implies `Q`, and a step that does not meet it breaks `Q` at
once. -/
theorem always_iff_guarded {Q inv : σ → Prop} {cond : σ → ω → Prop} (hQ : ∀ s, inv s → Q s)
    (hkeep : ∀ s op, inv s → ok s op → cond s op → inv (step s op))
    (hbreak : ∀ s op, inv s → ok s op → Q (step s op) → cond s op) (hinit : inv s)
    (hops : Guarded step ok s ops) : Always step Q s ops ↔ Guarded step cond s ops := by
  induction ops generalizing s with
  | nil => exact ⟨fun _ => trivial, fun _ => hQ s hinit⟩
  | cons op ops ih =>
    constructor
    · rintro ⟨-, hrest⟩
      have hcond := hbreak s op hinit hops.1 hrest.head
      exact ⟨hcond, (ih (hkeep s op hinit hops.1 hcond) hops.2).mp hrest⟩
    · rintro ⟨hcond, hrest⟩
      exact ⟨hQ s hinit, (ih (hkeep s op hinit hops.1 hcond) hops.2).mpr hrest⟩

theorem Guarded.of_forall {good : ω → Prop} (h : ∀ op ∈ ops, good op) :
    Guarded step (fun _ op => good op) s ops := by
  induction ops generalizing s with
  | nil => trivial
  | cons op ops ih =>
    exact ⟨h op (List.mem_cons_self ..), ih (fun op' hop' => h op' (List.mem_cons_of_mem _ hop'))⟩

variable {ok' : σ → ω → Prop} {inv : σ → Prop}

/-- What follows from the guard in every state with an invariant guards the run too. -/
theorem Guarded.imp (hstep : ∀ s op, inv s → ok s op → inv (step s op))
    (himp : ∀ s op, inv s → ok s op → ok' s op) (hinit : inv s) (h : Guarded step ok s ops) :
    Guarded step ok' s ops := by
  induction ops generalizing s with
  | nil => trivial
  | cons op ops ih => exact ⟨himp s op hinit h.1, ih (hstep s op hinit h.1) h.2⟩

theorem Guarded.and (h : Guarded step ok s ops) (h' : Guarded step ok' s ops) :
    Guarded step (fun s op => ok s op ∧ ok' s op) s ops := by
  induction ops generalizing s with
  | nil => trivial
  | cons op ops ih => exact ⟨⟨h.1, h'.1⟩, ih h.2 h'.2⟩

/-- Two guards that agree wherever an invariant of all steps holds. -/
theorem guarded_congr (hstep : ∀ s op, inv s → inv (step s op))
    (h : ∀ s op, inv s → (ok s op ↔ ok' s op)) (hinit : inv s) :
    Guarded step ok s ops ↔ Guarded step ok' s ops := by
  induction ops generalizing s with
  | nil => exact Iff.rfl
  | cons op ops ih => exact and_congr (h s op hinit) (ih (hstep s op hinit))

variable {ops₁ ops₂ : List ω}

theorem Guarded.append (h₁ : Guarded step ok s ops₁)
    (h₂ : Guarded step ok (run step s ops₁) ops₂) : Guarded step ok s (ops₁ ++ ops₂) := by
  induction ops₁ generalizing s with
  | nil => exact h₂
  | cons op ops ih => exact ⟨h₁.1, ih h₁.2 h₂⟩

theorem Guarded.left (h : Guarded step ok s (ops₁ ++ ops₂)) : Guarded step ok s ops₁ := by
  induction ops₁ generalizing s with
  | nil => trivial
  | cons op ops ih => exact ⟨h.1, ih h.2⟩

theorem Guarded.right (h : Guarded step ok s (ops₁ ++ ops₂)) :
    Guarded step ok (run step s ops₁) ops₂ := by
  induction ops₁ generalizing s with
  | nil => exact h
  | cons op ops ih => exact ih h.2

/-- A measure that no guarded step lowers does not fall between two moments of a run. -/
theorem Guarded.le_run {f : σ → Nat} (hstep : ∀ s op, ok s op → f s ≤ f (step s op))
    {ops₁ ops₂ : List ω} (h : Guarded step ok s (ops₁ ++ ops₂)) :
    f (run step s ops₁) ≤ f (run step s (ops₁ ++ ops₂)) := by
  rw [run_append]
  exact Guarded.invariant (P := fun s' => f (run step s ops₁) ≤ f s')
    (fun s' op hle hok => Nat.le_trans hle (hstep s' op hok)) (Nat.le_refl _) h.right

end Run

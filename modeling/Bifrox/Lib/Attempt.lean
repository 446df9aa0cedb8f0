/-
Computations that may fail half way.

`Spec pre x post fail` says how a computation that starts in a state with `pre` ends: well in a
state with `post`, or with a failure in a state with `fail`.
-/
import Mathlib.Data.List.Basic

namespace Attempt

variable {ε σ α β : Type}

def after (x : EStateM ε σ α) (s : σ) : σ :=
  match x s with
  | .ok _ s' => s'
  | .error _ s' => s'

def Spec (pre : σ → Prop) (x : EStateM ε σ α) (post : α → σ → Prop) (fail : σ → Prop) : Prop :=
  ∀ s, pre s → match x s with
    | .ok a s' => post a s'
    | .error _ s' => fail s'

theorem after_bind_of_ok {x : EStateM ε σ α} {s s' : σ} {a : α} (h : x s = .ok a s')
    (f : α → EStateM ε σ β) : after (x >>= f) s = after (f a) s' := by
  have hbind : (x >>= f) s = f a s' := by
    show EStateM.bind x f s = f a s'
    rw [EStateM.bind, h]
  rw [after, after, hbind]

def ensure (c : Prop) [Decidable c] (e : ε) : EStateM ε σ Unit := if c then pure () else throw e

/-- Go on with a value if there is one. -/
def demand (o : Option α) (e : ε) : EStateM ε σ α :=
  match o with
  | some a => pure a
  | none => throw e

/-- Go on with the value of a check, or with its error under another name. -/
def lift {δ : Type} (wrap : δ → ε) (r : Except δ α) : EStateM ε σ α :=
  match r with
  | .ok a => pure a
  | .error e => throw (wrap e)

variable {pre pre' fail fail' : σ → Prop} {post post' : α → σ → Prop} {x : EStateM ε σ α}

theorem Spec.after {P : σ → Prop} (h : Spec pre x (fun _ => P) P) {s : σ} (hs : pre s) :
    P (after x s) := by
  have hx := h s hs
  rw [Attempt.after]
  cases hrun : x s <;> rw [hrun] at hx <;> exact hx

theorem Spec.weaken (h : Spec pre x post fail) (hpre : ∀ s, pre' s → pre s)
    (hpost : ∀ a s, post a s → post' a s) : Spec pre' x post' fail := by
  intro s hs
  have hx := h s (hpre s hs)
  cases hrun : x s <;> rw [hrun] at hx
  · exact hpost _ _ hx
  · exact hx

theorem Spec.weaken_fail (h : Spec pre x post fail) (hfail : ∀ s, fail s → fail' s) :
    Spec pre x post fail' := by
  intro s hs
  have hx := h s hs
  cases hrun : x s <;> rw [hrun] at hx
  · exact hx
  · exact hfail _ hx

/-- What the states before the computation have in common may be assumed. -/
theorem spec_assume {p : Prop} (hp : ∀ s, pre s → p) (h : p → Spec pre x post fail) :
    Spec pre x post fail := fun s hs => h (hp s hs) s hs

theorem spec_pure {a : α} (h : ∀ s, pre s → post a s) :
    Spec pre (pure a : EStateM ε σ α) post fail := h

theorem spec_throw {e : ε} (h : ∀ s, pre s → fail s) :
    Spec pre (throw e : EStateM ε σ α) post fail := h

theorem spec_modify {f : σ → σ} {post : Unit → σ → Prop} (h : ∀ s, pre s → post () (f s)) :
    Spec pre (modify f : EStateM ε σ Unit) post fail := h

variable {post : β → σ → Prop}

theorem Spec.bind {mid : α → σ → Prop} {f : α → EStateM ε σ β} (hx : Spec pre x mid fail)
    (hf : ∀ a, Spec (mid a) (f a) post fail) : Spec pre (x >>= f) post fail := by
  intro s hs
  have hmid := hx s hs
  show match EStateM.bind x f s with
    | .ok a s' => post a s'
    | .error _ s' => fail s'
  rw [EStateM.bind]
  cases hrun : x s with
  | ok a s' =>
    rw [hrun] at hmid
    exact hf a s' hmid
  | error =>
    rw [hrun] at hmid
    exact hmid

theorem spec_get_bind {f : σ → EStateM ε σ β} (h : ∀ s, pre s → Spec (· = s) (f s) post fail) :
    Spec pre (get >>= f) post fail :=
  fun s hs => h s hs s rfl

theorem spec_modify_bind {s : σ} {f : σ → σ} {g : Unit → EStateM ε σ β}
    (h : Spec (· = f s) (g ()) post fail) : Spec (· = s) (modify f >>= g) post fail := by
  rintro s' rfl
  exact h (f s') rfl

theorem spec_ensure {c : Prop} [Decidable c] {e : ε} {post : Unit → σ → Prop}
    (hfail : ∀ s, pre s → fail s) (h : c → ∀ s, pre s → post () s) :
    Spec pre (ensure c e) post fail := by
  rw [ensure]
  split
  · next hc => exact spec_pure (h hc)
  · exact spec_throw hfail

section Checks

variable {post : β → σ → Prop}

theorem spec_ensure_bind {c : Prop} [Decidable c] {e : ε} {f : Unit → EStateM ε σ β}
    (hfail : ∀ s, pre s → fail s) (h : c → Spec pre (f ()) post fail) :
    Spec pre (ensure c e >>= f) post fail := by
  rw [ensure]
  split
  · next hc => exact h hc
  · exact spec_throw hfail

variable {f : α → EStateM ε σ β}

theorem spec_demand_bind {o : Option α} {e : ε} (hfail : ∀ s, pre s → fail s)
    (h : ∀ a, o = some a → Spec pre (f a) post fail) : Spec pre (demand o e >>= f) post fail := by
  cases ho : o with
  | some a => exact h a ho
  | none => exact spec_throw hfail

theorem spec_lift_bind {δ : Type} {wrap : δ → ε} {r : Except δ α} (hfail : ∀ s, pre s → fail s)
    (h : ∀ a, r = .ok a → Spec pre (f a) post fail) : Spec pre (lift wrap r >>= f) post fail := by
  cases hr : r with
  | ok a => exact h a hr
  | error => exact spec_throw hfail

theorem spec_lift_error {δ : Type} {wrap : δ → ε} {r : Except δ α} (hr : ∃ e, r = .error e)
    (hfail : ∀ s, pre s → fail s) : Spec pre (lift wrap r >>= f) post fail := by
  obtain ⟨e, rfl⟩ := hr
  exact spec_throw hfail

end Checks

end Attempt

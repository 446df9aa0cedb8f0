/-
Threads that share data and take read-write locks.

`Follows` says in which order a program takes locks.  `not_deadlocked` derives from it that
some thread can go on, unless threads wait for each other in a circle.
-/
import Mathlib.Data.Finset.Insert

namespace Bifrox.Locks

open Function Relation.ReflTransGen

variable {ι κ σ : Type*}

/-! ## Programs -/

inductive Mode where
  | read
  | write
deriving DecidableEq

inductive Program (κ σ : Type*) where
  | done
  | lock (l : κ) (mode : Mode) (next : Program κ σ)
  | unlock (l : κ) (next : Program κ σ)
  | update (f : σ → σ) (next : Program κ σ)
  | test (p : σ → Bool) (yes no : Program κ σ)

namespace Program

def append : Program κ σ → Program κ σ → Program κ σ
  | done, k => k
  | lock l mode next, k => lock l mode (next.append k)
  | unlock l next, k => unlock l (next.append k)
  | update f next, k => update f (next.append k)
  | test p yes no, k => test p (yes.append k) (no.append k)

/-- What a program makes of the data when no other thread takes a turn. -/
def exec : Program κ σ → σ → σ
  | done, x => x
  | lock _ _ next, x => next.exec x
  | unlock _ next, x => next.exec x
  | update f next, x => next.exec (f x)
  | test p yes no, x => if p x then yes.exec x else no.exec x

theorem append_done (p : Program κ σ) : p.append done = p := by
  induction p with
  | done => rfl
  | lock l mode next ih => rw [append, ih]
  | unlock l next ih => rw [append, ih]
  | update f next ih => rw [append, ih]
  | test p yes no ihyes ihno => rw [append, ihyes, ihno]

theorem exec_append (p k : Program κ σ) (x : σ) : (p.append k).exec x = k.exec (p.exec x) := by
  induction p generalizing x with
  | done => rfl
  | lock l mode next ih => exact ih x
  | unlock l next ih => exact ih x
  | update f next ih => exact ih (f x)
  | test p yes no ihyes ihno =>
    rw [append, exec, exec]
    split
    · exact ihyes x
    · exact ihno x

end Program

/-! ## Systems -/

/-- What a thread holds, and what it has still to do. -/
structure Thread (κ σ : Type*) where
  held : List (κ × Mode)
  rest : Program κ σ

structure Machine (ι κ σ : Type*) where
  data : σ
  threads : ι → Thread κ σ

def release [DecidableEq κ] (l : κ) (held : List (κ × Mode)) : List (κ × Mode) :=
  held.filter fun e => e.1 ≠ l

namespace Machine

def start (data : σ) (programs : ι → Program κ σ) : Machine ι κ σ where
  data := data
  threads := fun i => { held := [], rest := programs i }

/-- A lock is granted when no thread holds it, or to read when it is only read. -/
def Grants (s : Machine ι κ σ) (l : κ) (mode : Mode) : Prop :=
  ∀ j mode', (l, mode') ∈ (s.threads j).held → mode = .read ∧ mode' = .read

def Finished (s : Machine ι κ σ) (i : ι) : Prop := (s.threads i).rest = .done

def put [DecidableEq ι] (s : Machine ι κ σ) (i : ι) (data : σ) (t : Thread κ σ) :
    Machine ι κ σ where
  data := data
  threads := update s.threads i t

end Machine

open Machine

section Step

variable [DecidableEq ι] [DecidableEq κ]

inductive Step (s : Machine ι κ σ) (i : ι) : Machine ι κ σ → Prop
  | lock {l : κ} {mode : Mode} {next : Program κ σ}
      (hrest : (s.threads i).rest = .lock l mode next) (hgrants : s.Grants l mode) :
      Step s i (s.put i s.data { held := (l, mode) :: (s.threads i).held, rest := next })
  | unlock {l : κ} {next : Program κ σ} (hrest : (s.threads i).rest = .unlock l next) :
      Step s i (s.put i s.data { held := release l (s.threads i).held, rest := next })
  | update {f : σ → σ} {next : Program κ σ} (hrest : (s.threads i).rest = .update f next) :
      Step s i (s.put i (f s.data) { held := (s.threads i).held, rest := next })
  | test {p : σ → Bool} {yes no : Program κ σ} (hrest : (s.threads i).rest = .test p yes no) :
      Step s i (s.put i s.data { held := (s.threads i).held, rest := if p s.data then yes else no })

def Reaches : Machine ι κ σ → Machine ι κ σ → Prop :=
  Relation.ReflTransGen fun s s' => ∃ i, Step s i s'

/-- Some thread is not finished, and none that is not can take a turn. -/
def Deadlocked (s : Machine ι κ σ) : Prop :=
  (∃ i, ¬ s.Finished i) ∧ ∀ i, ¬ s.Finished i → ∀ s', ¬ Step s i s'

theorem exists_holder {s : Machine ι κ σ} {i : ι} (hi : ¬ s.Finished i)
    (hstuck : ∀ s', ¬ Step s i s') :
    ∃ l mode next, (s.threads i).rest = .lock l mode next ∧
      ∃ j mode', (l, mode') ∈ (s.threads j).held := by
  rcases hrest : (s.threads i).rest with _ | ⟨l, mode, next⟩ | ⟨l, next⟩ | ⟨f, next⟩ | ⟨p, yes, no⟩
  · exact absurd hrest hi
  · refine ⟨l, mode, next, rfl, ?_⟩
    by_contra hnone
    refine hstuck _ (.lock hrest fun j mode' hheld => ?_)
    exact absurd ⟨j, mode', hheld⟩ hnone
  · exact absurd (.unlock hrest) (hstuck _)
  · exact absurd (.update hrest) (hstuck _)
  · exact absurd (.test hrest) (hstuck _)

end Step

/-! ## The order of locks -/

/-- The program takes a lock only while each lock that it holds is another one, and one
during which it may take it; and it holds nothing at its end. -/
def Program.Follows [DecidableEq κ] (allowed : κ → κ → Prop) : List (κ × Mode) → Program κ σ → Prop
  | held, .done => held = []
  | held, .lock l mode next =>
    (∀ e ∈ held, e.1 ≠ l ∧ allowed e.1 l) ∧ next.Follows allowed ((l, mode) :: held)
  | held, .unlock l next => next.Follows allowed (release l held)
  | held, .update _ next => next.Follows allowed held
  | held, .test _ yes no => yes.Follows allowed held ∧ no.Follows allowed held

theorem Program.Follows.append [DecidableEq κ] {allowed : κ → κ → Prop} {p k : Program κ σ}
    {held : List (κ × Mode)} (hp : p.Follows allowed held) (hk : k.Follows allowed []) :
    (p.append k).Follows allowed held := by
  induction p generalizing held with
  | done =>
    rw [show held = [] from hp]
    exact hk
  | lock l mode next ih => exact ⟨hp.1, ih hp.2⟩
  | unlock l next ih => exact ih hp
  | update f next ih => exact ih hp
  | test p yes no ihyes ihno => exact ⟨ihyes hp.1, ihno hp.2⟩

section Follows

variable [DecidableEq ι] [DecidableEq κ] {allowed : ι → κ → κ → Prop} {s s' : Machine ι κ σ}

def Follows (allowed : ι → κ → κ → Prop) (s : Machine ι κ σ) : Prop :=
  ∀ i, (s.threads i).rest.Follows (allowed i) (s.threads i).held

omit [DecidableEq κ] in
@[simp] theorem threads_put_self (s : Machine ι κ σ) (i : ι) (data : σ) (t : Thread κ σ) :
    (s.put i data t).threads i = t := by
  simp [put]

omit [DecidableEq κ] in
@[simp] theorem data_put (s : Machine ι κ σ) (i : ι) (data : σ) (t : Thread κ σ) :
    (s.put i data t).data = data := rfl

omit [DecidableEq κ] in
theorem threads_put_of_ne (s : Machine ι κ σ) {i j : ι} (h : j ≠ i) (data : σ) (t : Thread κ σ) :
    (s.put i data t).threads j = s.threads j := by
  simp only [put, update_of_ne h]

omit [DecidableEq κ] in
theorem put_self {s : Machine ι κ σ} {i : ι} {t : Thread κ σ} (h : s.threads i = t) :
    s.put i s.data t = s := by
  rw [put, ← h, update_eq_self]

omit [DecidableEq κ] in
@[simp] theorem put_put (s : Machine ι κ σ) (i : ι) (data data' : σ) (t t' : Thread κ σ) :
    (s.put i data t).put i data' t' = s.put i data' t' := by
  rw [put, put, put, update_idem]

theorem Follows.put (h : Follows allowed s) {i : ι} {t : Thread κ σ}
    (ht : t.rest.Follows (allowed i) t.held) (data : σ) : Follows allowed (s.put i data t) :=
  (forall_update_iff s.threads fun j t => t.rest.Follows (allowed j) t.held).mpr
    ⟨ht, fun j _ => h j⟩

theorem Follows.step (h : Follows allowed s) {i : ι} (hstep : Step s i s') :
    Follows allowed s' := by
  have hi := h i
  cases hstep with
  | lock hrest =>
    rw [hrest] at hi
    exact h.put hi.2 _
  | unlock hrest =>
    rw [hrest] at hi
    exact h.put hi _
  | update hrest =>
    rw [hrest] at hi
    exact h.put hi _
  | test hrest =>
    rw [hrest] at hi
    refine h.put ?_ _
    show Program.Follows _ _ (if _ then _ else _)
    split
    · exact hi.1
    · exact hi.2

theorem Follows.reaches (h : Follows allowed s) (hreaches : Reaches s s') : Follows allowed s' := by
  induction hreaches with
  | refl => exact h
  | tail _ hstep ih => exact ih.step hstep.choose_spec

omit [DecidableEq ι] in
theorem follows_start (data : σ) {programs : ι → Program κ σ}
    (h : ∀ i, (programs i).Follows (allowed i) []) : Follows allowed (start data programs) := h

omit [DecidableEq ι] [DecidableEq κ] in
def Awaits (s : Machine ι κ σ) (l' l : κ) : Prop :=
  ∃ i mode next, (s.threads i).rest = .lock l' mode next ∧ ∃ mode', (l, mode') ∈ (s.threads i).held

omit [DecidableEq ι] in
/-- What a thread awaits is another lock than those it holds, and allowed there. -/
theorem Follows.awaits (h : Follows allowed s) {i : ι} {l l' : κ} {mode mode' : Mode}
    {next : Program κ σ} (hrest : (s.threads i).rest = .lock l' mode next)
    (hheld : (l, mode') ∈ (s.threads i).held) : l ≠ l' ∧ allowed i l l' := by
  have hi := h i
  rw [hrest] at hi
  exact hi.1 _ hheld

omit [DecidableEq κ] in
/-- Threads that all wait in the same direction do not wait in a circle. -/
theorem wellFounded_of_direction {r : κ → κ → Prop} {a b : κ} (hab : a ≠ b)
    (h : ∀ x y, r x y → x = a ∧ y = b) : WellFounded r := by
  have ha : Acc r a := ⟨a, fun x hx => absurd (h x a hx).2 hab⟩
  refine ⟨fun y => ⟨y, fun x hx => ?_⟩⟩
  rw [(h x y hx).1]
  exact ha

/-- The lock order rule: threads that do not wait for each other in a circle can go on. -/
theorem not_deadlocked (h : Follows allowed s) (hacyclic : WellFounded (Awaits s)) :
    ¬ Deadlocked s := by
  rintro ⟨⟨i, hi⟩, hstuck⟩
  -- by induction along the circle that there is not: no lock is held
  have hfree : ∀ l, ¬ ∃ j mode, (l, mode) ∈ (s.threads j).held := by
    intro l
    induction l using hacyclic.induction with
    | _ l ih =>
      rintro ⟨j, mode, hheld⟩
      have hj : ¬ s.Finished j := by
        intro hdone
        have hfollows := h j
        rw [show (s.threads j).rest = .done from hdone] at hfollows
        rw [show (s.threads j).held = [] from hfollows] at hheld
        cases hheld
      obtain ⟨l', mode', next, hrest, hholder⟩ := exists_holder hj (hstuck j hj)
      exact ih l' ⟨j, mode', next, hrest, mode, hheld⟩ hholder
  obtain ⟨l, _, _, -, hholder⟩ := exists_holder hi (hstuck i hi)
  exact hfree l hholder

end Follows

/-! ## What all updates keep -/

/-- Every update of the program keeps `P`. -/
def Program.Keeps (P : σ → Prop) : Program κ σ → Prop
  | .done => True
  | .lock _ _ next | .unlock _ next => next.Keeps P
  | .update f next => (∀ x, P x → P (f x)) ∧ next.Keeps P
  | .test _ yes no => yes.Keeps P ∧ no.Keeps P

/-- The data has `P`, and what is left to do keeps it. -/
def Keeps (P : σ → Prop) (s : Machine ι κ σ) : Prop :=
  P s.data ∧ ∀ i, (s.threads i).rest.Keeps P

section Keeps

variable [DecidableEq ι] {P : σ → Prop} {s s' : Machine ι κ σ}

theorem Keeps.put (h : Keeps P s) {i : ι} {data : σ} (hdata : P data) {t : Thread κ σ}
    (ht : t.rest.Keeps P) : Keeps P (s.put i data t) :=
  ⟨hdata, (forall_update_iff s.threads fun _ t => t.rest.Keeps P).mpr ⟨ht, fun j _ => h.2 j⟩⟩

variable [DecidableEq κ]

theorem Keeps.step (h : Keeps P s) {i : ι} (hstep : Step s i s') : Keeps P s' := by
  have hi := h.2 i
  cases hstep with
  | lock hrest =>
    rw [hrest] at hi
    exact h.put h.1 hi
  | unlock hrest =>
    rw [hrest] at hi
    exact h.put h.1 hi
  | update hrest =>
    rw [hrest] at hi
    exact h.put (hi.1 _ h.1) hi.2
  | test hrest =>
    rw [hrest] at hi
    refine h.put h.1 ?_
    show Program.Keeps P (if _ then _ else _)
    split
    · exact hi.1
    · exact hi.2

/-- However the threads take turns. -/
theorem Keeps.reaches (h : Keeps P s) (hreaches : Reaches s s') : Keeps P s' := by
  induction hreaches with
  | refl => exact h
  | tail _ hstep ih => exact ih.step hstep.choose_spec

end Keeps

/-! ## One thread at a time -/

section Alone

variable [DecidableEq ι] [DecidableEq κ] {s : Machine ι κ σ} {i : ι}

theorem Step.reaches {s' s'' : Machine ι κ σ} (hstep : Step s i s') (hrest : Reaches s' s'') :
    Reaches s s'' := hrest.head ⟨i, hstep⟩

theorem reaches_put {data data' : σ} {t t' : Thread κ σ} {s' : Machine ι κ σ}
    (hstep : Step (s.put i data t) i ((s.put i data t).put i data' t'))
    (hrest : Reaches (s.put i data' t') s') : Reaches (s.put i data t) s' := by
  rw [put_put] at hstep
  exact hstep.reaches hrest

/-- While no other thread holds a lock, a thread runs a program to its end. -/
theorem reaches_append {allowed : κ → κ → Prop} {p : Program κ σ} {held : List (κ × Mode)}
    (hp : p.Follows allowed held) (hothers : ∀ j, j ≠ i → (s.threads j).held = []) (data : σ)
    (k : Program κ σ) :
    Reaches (s.put i data { held := held, rest := p.append k })
      (s.put i (p.exec data) { held := [], rest := k }) := by
  induction p generalizing held data with
  | done =>
    rw [show held = [] from hp]
    exact refl
  | lock l mode next ih =>
    refine reaches_put (.lock (by rw [threads_put_self]; rfl) fun j mode' hheld => ?_) ?_
    · by_cases hj : j = i
      · subst hj
        rw [threads_put_self] at hheld
        exact absurd rfl (hp.1 _ hheld).1
      · rw [threads_put_of_ne s hj, hothers j hj] at hheld
        cases hheld
    · rw [threads_put_self]
      exact ih hp.2 data
  | unlock l next ih =>
    refine reaches_put (.unlock (by rw [threads_put_self]; rfl)) ?_
    rw [threads_put_self]
    exact ih hp data
  | update f next ih =>
    refine reaches_put (.update (by rw [threads_put_self]; rfl)) ?_
    rw [threads_put_self]
    exact ih hp (f data)
  | test p yes no ihyes ihno =>
    refine reaches_put (.test (by rw [threads_put_self]; rfl)) ?_
    rw [threads_put_self, Program.exec]
    rw [data_put]
    split
    · exact ihyes hp.1 data
    · exact ihno hp.2 data

theorem reaches_peek (hothers : ∀ j, j ≠ i → (s.threads j).held = []) {data : σ} (l : κ)
    {p : σ → Bool} (hp : p data = true) (yes no : Program κ σ) :
    Reaches (s.put i data { held := [], rest := .lock l .read (.test p (.unlock l yes) no) })
      (s.put i data { held := [], rest := yes }) := by
  refine reaches_put (.lock (by rw [threads_put_self]) fun j mode hheld => ?_) ?_
  · by_cases hj : j = i
    · rw [hj, threads_put_self] at hheld
      cases hheld
    · rw [threads_put_of_ne s hj, hothers j hj] at hheld
      cases hheld
  simp only [threads_put_self, data_put]
  refine reaches_put (.test (by rw [threads_put_self])) ?_
  simp only [threads_put_self, data_put, hp, ↓reduceIte]
  refine reaches_put (.unlock (by rw [threads_put_self])) ?_
  have hrelease : release l [(l, Mode.read)] = [] := by simp [release]
  simp only [threads_put_self, data_put, hrelease]
  exact refl

def Idle (s : Machine ι κ σ) : Prop := ∀ i, (s.threads i).held = []

omit [DecidableEq κ] in
theorem Idle.put (h : Idle s) (i : ι) (data : σ) (p : Program κ σ) :
    Idle (s.put i data { held := [], rest := p }) :=
  (forall_update_iff s.threads fun _ t => t.held = []).mpr ⟨rfl, fun j _ => h j⟩

/-- While no lock is held, any threads can be run to their end, one after the other. -/
theorem reaches_finished {allowed : ι → κ → κ → Prop} (hs : Follows allowed s) (hidle : Idle s)
    (threads : Finset ι) :
    ∃ s', Reaches s s' ∧ Idle s' ∧ (∀ i ∈ threads, s'.Finished i) ∧
      ∀ i, i ∉ threads → s'.threads i = s.threads i := by
  induction threads using Finset.induction_on with
  | empty => exact ⟨s, refl, hidle, by simp, fun _ _ => rfl⟩
  | insert i threads hi ih =>
    obtain ⟨s', hreaches, hidle', hdone, hsame⟩ := ih
    have hrun := reaches_append (hs.reaches hreaches i) (fun j (_ : j ≠ i) => hidle' j)
        s'.data .done
    rw [Program.append_done, put_self rfl] at hrun
    refine ⟨_, hreaches.trans hrun, hidle'.put i _ _, fun j hj => ?_, fun j hj => ?_⟩
    · by_cases hji : j = i
      · rw [Finished, hji, threads_put_self]
      · rw [Finished, threads_put_of_ne s' hji]
        exact hdone j ((Finset.mem_insert.mp hj).resolve_left hji)
    · rw [Finset.mem_insert, not_or] at hj
      rw [threads_put_of_ne s' hj.1]
      exact hsame j hj.2

/-- A thread that waits for a lock that is held to be written cannot take a turn. -/
theorem stuck_of_held {l : κ} {mode : Mode} {next : Program κ σ} {j : ι}
    (hrest : (s.threads i).rest = .lock l mode next) (hheld : (l, .write) ∈ (s.threads j).held)
    (s' : Machine ι κ σ) : ¬ Step s i s' := by
  intro hstep
  cases hstep with
  | lock hrest' hgrants =>
    rw [hrest] at hrest'
    obtain ⟨rfl, rfl, -⟩ := Program.lock.inj hrest'
    exact absurd (hgrants j .write hheld).2 (by decide)
  | unlock hrest' =>
    rw [hrest] at hrest'
    cases hrest'
  | update hrest' =>
    rw [hrest] at hrest'
    cases hrest'
  | test hrest' =>
    rw [hrest] at hrest'
    cases hrest'

/-- Two threads that take two locks crosswise can come to wait for each other. -/
theorem reaches_deadlocked {j : ι} (hij : i ≠ j) {l l' : κ} (hl : l ≠ l') {k k' : Program κ σ}
    (hi : s.threads i = { held := [], rest := .lock l .write (.lock l' .write k) })
    (hj : s.threads j = { held := [], rest := .lock l' .write (.lock l .write k') })
    (hidle : Idle s) (hothers : ∀ x, x ≠ i → x ≠ j → s.Finished x) :
    ∃ s', Reaches s s' ∧ Deadlocked s' := by
  let s₁ := s.put i s.data { held := [(l, .write)], rest := .lock l' .write k }
  let s₂ := s₁.put j s.data { held := [(l', .write)], rest := .lock l .write k' }
  have hi₂ : s₂.threads i = { held := [(l, .write)], rest := .lock l' .write k } := by
    rw [threads_put_of_ne s₁ hij, threads_put_self]
  have hj₂ : s₂.threads j = { held := [(l', .write)], rest := .lock l .write k' } :=
    threads_put_self s₁ j _ _
  have hj₁ : s₁.threads j = s.threads j := threads_put_of_ne s hij.symm _ _
  have hfirst : Step s i s₁ := by
    have hstep := Step.lock (s := s) (i := i) (by rw [hi]) fun x mode hheld => by
      rw [hidle x] at hheld
      cases hheld
    rw [hi] at hstep
    exact hstep
  have hsecond : Step s₁ j s₂ := by
    have hstep := Step.lock (s := s₁) (i := j) (by rw [hj₁, hj]) fun x mode hheld => by
      by_cases hx : x = i
      · rw [hx, threads_put_self, List.mem_singleton, Prod.mk.injEq] at hheld
        exact absurd hheld.1.symm hl
      · rw [threads_put_of_ne s hx, hidle x] at hheld
        cases hheld
    rw [hj₁, hj] at hstep
    exact hstep
  refine ⟨s₂, hfirst.reaches (hsecond.reaches refl), ⟨i, ?_⟩, fun x hx => ?_⟩
  · rw [Finished, hi₂]
    intro h
    cases h
  · by_cases hxi : x = i
    · rw [hxi]
      exact stuck_of_held (by rw [hi₂]) (by rw [hj₂]; exact List.mem_singleton_self _)
    · by_cases hxj : x = j
      · rw [hxj]
        exact stuck_of_held (by rw [hj₂]) (by rw [hi₂]; exact List.mem_singleton_self _)
      · rw [Finished, threads_put_of_ne s₁ hxj, threads_put_of_ne s hxi] at hx
        exact absurd (hothers x hxi hxj) hx

end Alone

end Bifrox.Locks

/-
Parsers that are fed piece by piece.

A parser is stable when more input does not change its mind: a value stays the same value and
corrupt input stays corrupt.  The values it reads then do not depend on how the input was cut.
-/
import Mathlib.Data.List.Basic

namespace Incremental

open List

abbrev Bytes : Type := List UInt8

inductive Outcome (α : Type*) where
  | value (a : α) (rest : Bytes)
  | short
  | corrupt

variable {α β : Type*}

abbrev Parser (α : Type*) : Type _ := Bytes → Outcome α

def Parser.andThen (p : Parser α) (f : α → Parser β) : Parser β := fun buf =>
  match p buf with
  | .value a rest => f a rest
  | .short => .short
  | .corrupt => .corrupt

def take (n : Nat) : Parser Bytes := fun buf =>
  if buf.length < n then .short else .value (buf.take n) (buf.drop n)

/-- Turn what was read into a value, which may show that it is corrupt. -/
def check (f : Option α) : Parser α := fun buf =>
  match f with
  | some a => .value a buf
  | none => .corrupt

variable {p : Parser α} {n : Nat} {buf rest : Bytes}

theorem Parser.andThen_value {a : α} (h : p buf = .value a rest) (f : α → Parser β) :
    p.andThen f buf = f a rest := by
  simp only [Parser.andThen, h]

theorem take_append {bytes : Bytes} (h : bytes.length = n) (rest : Bytes) :
    take n (bytes ++ rest) = .value bytes rest := by
  subst h
  simp [take]

variable {f : α → Parser β}

theorem Parser.andThen_eq_value {b : β} (h : p.andThen f buf = .value b rest) :
    ∃ a mid, p buf = .value a mid ∧ f a mid = .value b rest := by
  unfold Parser.andThen at h
  cases hbuf : p buf with
  | value a mid =>
    rw [hbuf] at h
    exact ⟨a, mid, rfl, h⟩
  | short => exact absurd h (by simp [hbuf])
  | corrupt => exact absurd h (by simp [hbuf])

theorem take_eq_value {bytes : Bytes} (h : take n buf = .value bytes rest) :
    buf = bytes ++ rest ∧ bytes.length = n := by
  unfold take at h
  split at h
  · cases h
  · next hlen =>
    simp only [Outcome.value.injEq] at h
    rw [← h.1, ← h.2, take_append_drop, length_take]
    exact ⟨rfl, by omega⟩

theorem check_eq_value {f : Option α} {a : α} (h : check f buf = .value a rest) :
    f = some a ∧ buf = rest := by
  cases f with
  | none => exact absurd h (by simp [check])
  | some =>
    simp only [check, Outcome.value.injEq] at h
    exact ⟨congrArg some h.1, h.2⟩

/-! ## Stable parsers -/

structure Stable (p : Parser α) : Prop where
  value : ∀ {buf a rest} (more : Bytes), p buf = .value a rest →
    p (buf ++ more) = .value a (rest ++ more)
  corrupt : ∀ {buf} (more : Bytes), p buf = .corrupt → p (buf ++ more) = .corrupt

theorem stable_take : Stable (take n) where
  value := by
    intro buf a rest more h
    unfold take at h ⊢
    split at h
    · cases h
    · next hlen =>
      have hn : n ≤ buf.length := by omega
      rw [if_neg (by rw [length_append]; omega), take_append_of_le_length hn,
        drop_append_of_le_length hn]
      simp only [Outcome.value.injEq] at h ⊢
      exact ⟨h.1, by rw [h.2]⟩
  corrupt := by
    intro buf more h
    unfold take at h
    split at h <;> cases h

theorem stable_check {f : Option α} : Stable (check f) where
  value := by
    intro buf a rest more h
    cases f with
    | none => exact absurd h (by simp [check])
    | some =>
      simp only [check, Outcome.value.injEq] at h ⊢
      exact ⟨h.1, by rw [h.2]⟩
  corrupt := by
    intro buf more h
    cases f with
    | none => rfl
    | some => exact absurd h (by simp [check])

theorem Stable.andThen (hp : Stable p) (hf : ∀ a, Stable (f a)) : Stable (p.andThen f) where
  value := by
    intro buf b rest more h
    unfold Parser.andThen at h ⊢
    cases hbuf : p buf with
    | value a =>
      rw [hbuf] at h
      rw [hp.value more hbuf]
      exact (hf a).value more h
    | short => exact absurd h (by simp [hbuf])
    | corrupt => exact absurd h (by simp [hbuf])
  corrupt := by
    intro buf more h
    unfold Parser.andThen at h ⊢
    cases hbuf : p buf with
    | value a =>
      rw [hbuf] at h
      rw [hp.value more hbuf]
      exact (hf a).corrupt more h
    | short => exact absurd h (by simp [hbuf])
    | corrupt => rw [hp.corrupt more hbuf]

/-- A parser that reads at least one byte. -/
def Consumes (p : Parser α) : Prop :=
  ∀ buf a rest, p buf = .value a rest → rest.length < buf.length

def Shrinks (p : Parser α) : Prop :=
  ∀ buf a rest, p buf = .value a rest → rest.length ≤ buf.length

theorem shrinks_take : Shrinks (take n) := by
  intro buf a rest h
  obtain ⟨rfl, -⟩ := take_eq_value h
  rw [length_append]
  omega

theorem shrinks_check {f : Option α} : Shrinks (check f) := by
  intro buf a rest h
  obtain ⟨-, rfl⟩ := check_eq_value h
  exact Nat.le_refl _

theorem Shrinks.andThen (hp : Shrinks p) (hf : ∀ a, Shrinks (f a)) : Shrinks (p.andThen f) := by
  intro buf b rest h
  obtain ⟨a, mid, hmid, hrest⟩ := Parser.andThen_eq_value h
  exact Nat.le_trans (hf a mid b rest hrest) (hp buf a mid hmid)

theorem Consumes.andThen (hp : Consumes p) (hf : ∀ a, Shrinks (f a)) : Consumes (p.andThen f) := by
  intro buf b rest h
  obtain ⟨a, mid, hmid, hrest⟩ := Parser.andThen_eq_value h
  exact Nat.lt_of_le_of_lt (hf a mid b rest hrest) (hp buf a mid hmid)

theorem consumes_take (hn : 0 < n) : Consumes (take n) := by
  intro buf a rest h
  obtain ⟨rfl, hlen⟩ := take_eq_value h
  rw [length_append]
  omega

/-! ## Reading all the values there are -/

structure Drained (α : Type*) where
  values : List α
  rest : Bytes
  isCorrupt : Bool

def Drained.cons (a : α) (d : Drained α) : Drained α := { d with values := a :: d.values }

/-- Read values until the input is used up, too short or corrupt. -/
def drainLoop (p : Parser α) : Nat → Bytes → Drained α
  | 0, buf => { values := [], rest := buf, isCorrupt := false }
  | fuel + 1, buf =>
    if buf = [] then { values := [], rest := [], isCorrupt := false }
    else
      match p buf with
      | .value a rest => (drainLoop p fuel rest).cons a
      | .short => { values := [], rest := buf, isCorrupt := false }
      | .corrupt => { values := [], rest := buf, isCorrupt := true }

/-- Each value uses up a byte, so the length of the input is fuel enough. -/
def drain (p : Parser α) (buf : Bytes) : Drained α := drainLoop p buf.length buf

section Drain

variable {a : α}

theorem drainLoop_nil (fuel : Nat) :
    drainLoop p fuel [] = { values := [], rest := [], isCorrupt := false } := by
  cases fuel <;> rfl

theorem drainLoop_fuel (hp : Consumes p) {m n : Nat} (hm : buf.length ≤ m) (hn : buf.length ≤ n) :
    drainLoop p m buf = drainLoop p n buf := by
  induction m generalizing n buf with
  | zero =>
    rw [length_eq_zero_iff.mp (Nat.le_zero.mp hm), drainLoop_nil, drainLoop_nil]
  | succ m ih =>
    by_cases hbuf : buf = []
    · rw [hbuf, drainLoop_nil, drainLoop_nil]
    · cases n with
      | zero => exact absurd (length_eq_zero_iff.mp (Nat.le_zero.mp hn)) hbuf
      | succ n =>
        simp only [drainLoop, hbuf, if_false]
        cases hvalue : p buf with
        | value a rest =>
          have hlt := hp buf a rest hvalue
          have hrest : drainLoop p m rest = drainLoop p n rest := ih (by omega) (by omega)
          simp only [hrest]
        | short => rfl
        | corrupt => rfl

theorem drain_ne_nil (hbuf : buf ≠ []) : ∃ n, buf.length = n + 1 ∧
    drain p buf = drainLoop p (n + 1) buf := by
  obtain ⟨n, hn⟩ := Nat.exists_eq_succ_of_ne_zero (mt length_eq_zero_iff.mp hbuf)
  exact ⟨n, hn, by rw [drain, hn]⟩

theorem drain_value (hp : Consumes p) (h : p buf = .value a rest) :
    drain p buf = (drain p rest).cons a := by
  have hlt := hp buf a rest h
  have hbuf : buf ≠ [] := by
    rintro rfl
    exact absurd hlt (Nat.not_lt_zero _)
  obtain ⟨n, hn, hdrain⟩ := drain_ne_nil (p := p) hbuf
  have hrest : drainLoop p n rest = drain p rest := drainLoop_fuel hp (by omega) (Nat.le_refl _)
  rw [hdrain, drainLoop, if_neg hbuf, h]
  exact congrArg (Drained.cons a) hrest

theorem drain_short (hbuf : buf ≠ []) (h : p buf = .short) :
    drain p buf = { values := [], rest := buf, isCorrupt := false } := by
  obtain ⟨n, -, hdrain⟩ := drain_ne_nil (p := p) hbuf
  rw [hdrain, drainLoop, if_neg hbuf, h]

theorem drain_corrupt (hbuf : buf ≠ []) (h : p buf = .corrupt) :
    drain p buf = { values := [], rest := buf, isCorrupt := true } := by
  obtain ⟨n, -, hdrain⟩ := drain_ne_nil (p := p) hbuf
  rw [hdrain, drainLoop, if_neg hbuf, h]

/-- The values are read one by one, until nothing more is. -/
theorem drain_induction (hp : Consumes p) {motive : Bytes → Drained α → Prop}
    (stop : ∀ buf isCorrupt, (isCorrupt = true → buf ≠ [] ∧ p buf = .corrupt) →
      motive buf ⟨[], buf, isCorrupt⟩)
    (value : ∀ buf a rest, p buf = .value a rest → motive rest (drain p rest) →
      motive buf ((drain p rest).cons a)) (buf : Bytes) : motive buf (drain p buf) := by
  induction hlen : buf.length using Nat.strongRecOn generalizing buf with
  | _ n ih =>
    by_cases hbuf : buf = []
    · subst hbuf
      exact stop [] false nofun
    · cases hvalue : p buf with
      | value a rest =>
        have hlt := hp buf a rest hvalue
        rw [drain_value hp hvalue]
        exact value buf a rest hvalue (ih rest.length (by omega) rest rfl)
      | short =>
        rw [drain_short hbuf hvalue]
        exact stop buf false nofun
      | corrupt =>
        rw [drain_corrupt hbuf hvalue]
        exact stop buf true fun _ => ⟨hbuf, hvalue⟩

/-- What was left over is read again together with what follows. -/
theorem drain_append (hp : Consumes p) (hs : Stable p) (more : Bytes) :
    (drain p buf).isCorrupt = false →
    drain p (buf ++ more) = { drain p ((drain p buf).rest ++ more) with
        values := (drain p buf).values ++ (drain p ((drain p buf).rest ++ more)).values } := by
  refine drain_induction (motive := fun buf d => d.isCorrupt = false → drain p (buf ++ more) =
    { drain p (d.rest ++ more) with values := d.values ++ (drain p (d.rest ++ more)).values }) hp
    (fun buf _ _ _ => rfl) (fun buf a rest hvalue ih h => ?_) buf
  rw [drain_value hp (hs.value more hvalue), ih h]
  rfl

theorem drain_append_of_corrupt (hp : Consumes p) (hs : Stable p) (more : Bytes) :
    (drain p buf).isCorrupt = true →
    drain p (buf ++ more) = { drain p buf with rest := (drain p buf).rest ++ more } := by
  refine drain_induction (motive := fun buf d => d.isCorrupt = true →
    drain p (buf ++ more) = { d with rest := d.rest ++ more }) hp
    (fun buf isCorrupt hcorrupt h => ?_) (fun buf a rest hvalue ih h => ?_) buf
  · obtain ⟨hbuf, hvalue⟩ := hcorrupt h
    rw [drain_corrupt (by simp [hbuf]) (hs.corrupt more hvalue), h]
  · rw [drain_value hp (hs.value more hvalue), ih h]
    rfl

theorem drain_flatMap_append (hp : Consumes p) {enc : α → Bytes} {values : List α} {tail : Bytes}
    (henc : ∀ a ∈ values, ∀ rest, p (enc a ++ rest) = .value a rest)
    (htail : ∀ a rest, p tail ≠ .value a rest) :
    ∃ isCorrupt, drain p (values.flatMap enc ++ tail) = ⟨values, tail, isCorrupt⟩ ∧
      (isCorrupt = true → p tail = .corrupt) := by
  induction values with
  | nil =>
    revert htail
    exact drain_induction (motive := fun buf d => (∀ a rest, p buf ≠ .value a rest) →
      ∃ isCorrupt, d = ⟨[], buf, isCorrupt⟩ ∧ (isCorrupt = true → p buf = .corrupt)) hp
      (fun _ isCorrupt h _ => ⟨isCorrupt, rfl, fun hc => (h hc).2⟩)
      (fun _ a rest hvalue _ h => absurd hvalue (h a rest)) tail
  | cons a values ih =>
    obtain ⟨isCorrupt, hdrain, hcorrupt⟩ := ih fun a' ha' => henc a' (mem_cons_of_mem a ha')
    refine ⟨isCorrupt, ?_, hcorrupt⟩
    rw [flatMap_cons, append_assoc, drain_value hp (henc a mem_cons_self _), hdrain]
    rfl

theorem length_rest_le (hp : Consumes p) : (drain p buf).rest.length ≤ buf.length := by
  refine drain_induction (motive := fun buf d => d.rest.length ≤ buf.length) hp
    (fun _ _ _ => Nat.le_refl _) (fun buf a rest hvalue ih => ?_) buf
  exact Nat.le_trans ih (Nat.le_of_lt (hp buf a rest hvalue))

end Drain

/-! ## Feeding pieces -/

structure Feed (α : Type*) where
  values : List α
  buf : Bytes
  lastGoodPos : Nat
  isCorrupt : Bool

def Feed.start : Feed α := { values := [], buf := [], lastGoodPos := 0, isCorrupt := false }

/-- One round of the loop.  Once it has met corrupt input it reads no more. -/
def Feed.read (p : Parser α) (s : Feed α) (chunk : Bytes) : Feed α :=
  if s.isCorrupt then s
  else
    let d := drain p (s.buf ++ chunk)
    { values := s.values ++ d.values
      buf := d.rest
      lastGoodPos := s.lastGoodPos + ((s.buf ++ chunk).length - d.rest.length)
      isCorrupt := d.isCorrupt }

def feed (p : Parser α) (chunks : List Bytes) : Feed α := chunks.foldl (Feed.read p) .start

/-- The loop has read what `drain` reads from the bytes so far. -/
structure Feed.Reads (p : Parser α) (s : Feed α) (bytes : Bytes) : Prop where
  values : s.values = (drain p bytes).values
  isCorrupt : s.isCorrupt = (drain p bytes).isCorrupt
  lastGoodPos : s.lastGoodPos + (drain p bytes).rest.length = bytes.length
  buf : s.isCorrupt = false → s.buf = (drain p bytes).rest

section Feed

variable {p : Parser α}

theorem Feed.Reads.read (hp : Consumes p) (hs : Stable p) {s : Feed α} {bytes : Bytes}
    (h : s.Reads p bytes) (chunk : Bytes) : (s.read p chunk).Reads p (bytes ++ chunk) := by
  cases hcorrupt : s.isCorrupt with
  | true =>
    have hdrain := drain_append_of_corrupt hp hs chunk (h.isCorrupt ▸ hcorrupt)
    have hpos := h.lastGoodPos
    have hread : s.read p chunk = s := by simp [Feed.read, hcorrupt]
    rw [hread]
    refine ⟨?_, ?_, ?_, ?_⟩
    · rw [hdrain, h.values]
    · rw [hdrain, h.isCorrupt]
    · rw [hdrain]
      simp only [length_append]
      omega
    · intro hfalse
      rw [hcorrupt] at hfalse
      cases hfalse
  | false =>
    have hdrain := drain_append hp hs chunk (h.isCorrupt ▸ hcorrupt)
    have hbuf := h.buf hcorrupt
    have hpos := h.lastGoodPos
    have hle : (drain p (s.buf ++ chunk)).rest.length ≤ (s.buf ++ chunk).length :=
      length_rest_le hp
    rw [← hbuf] at hdrain hpos
    have hread : s.read p chunk =
        { values := s.values ++ (drain p (s.buf ++ chunk)).values
          buf := (drain p (s.buf ++ chunk)).rest
          lastGoodPos := s.lastGoodPos +
            ((s.buf ++ chunk).length - (drain p (s.buf ++ chunk)).rest.length)
          isCorrupt := (drain p (s.buf ++ chunk)).isCorrupt } := by
      simp [Feed.read, hcorrupt]
    rw [hread]
    refine ⟨?_, ?_, ?_, ?_⟩
    · rw [hdrain, h.values]
    · rw [hdrain]
    · rw [hdrain]
      simp only [length_append] at hle ⊢
      omega
    · intro _
      rw [hdrain]

/-- However the bytes are cut, the loop ends with what `drain` reads from all of
them. -/
theorem feed_reads (hp : Consumes p) (hs : Stable p) (chunks : List Bytes) :
    (feed p chunks).Reads p chunks.flatten := by
  have key (s : Feed α) (bytes : Bytes) (h : s.Reads p bytes) :
      (chunks.foldl (Feed.read p) s).Reads p (bytes ++ chunks.flatten) := by
    induction chunks generalizing s bytes with
    | nil =>
      rw [flatten_nil, append_nil]
      exact h
    | cons chunk chunks ih =>
      rw [foldl_cons, flatten_cons, ← append_assoc]
      exact ih _ _ (h.read hp hs chunk)
  exact key .start [] ⟨rfl, rfl, rfl, fun _ => rfl⟩

/-- Encoded values are found, however they are cut, and what follows them is left. -/
theorem feed_flatMap (hp : Consumes p) (hs : Stable p) {enc : α → Bytes} {values : List α}
    {tail : Bytes} (henc : ∀ a ∈ values, ∀ rest, p (enc a ++ rest) = .value a rest)
    (htail : ∀ a rest, p tail ≠ .value a rest) {chunks : List Bytes}
    (hchunks : chunks.flatten = values.flatMap enc ++ tail) :
    (feed p chunks).values = values ∧ (feed p chunks).lastGoodPos = (values.flatMap enc).length ∧
      ((feed p chunks).isCorrupt = true → p tail = .corrupt) ∧
      ((feed p chunks).isCorrupt = false → (feed p chunks).buf = tail) := by
  obtain ⟨isCorrupt, hdrain, hcorrupt⟩ := drain_flatMap_append hp henc htail
  obtain ⟨hvalues, heq, hpos, hbuf⟩ := feed_reads hp hs chunks
  rw [hchunks, hdrain] at hvalues heq hpos hbuf
  rw [length_append] at hpos
  exact ⟨hvalues, Nat.add_right_cancel hpos, fun h => hcorrupt (heq.symm.trans h), hbuf⟩

end Feed

end Incremental

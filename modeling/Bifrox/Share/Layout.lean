/-
What the calls do to the batches as intervals of offsets (`src/server/share/partition.rs`).

A call cuts each batch into parts that fill it, or appends one at the end.
-/
import Mathlib.Data.List.Perm.Basic
import Bifrox.Lib.Interval
import Bifrox.Share.Partition

namespace Bifrox.Share

open List OrderedMap InFlightBatch
open Interval (Links Cut)
open SharePartition

abbrev Entry : Type := Nat × InFlightBatch

variable (entry : Entry)

abbrev firstOf : Nat := entry.2.firstOffset

abbrev lastOf : Nat := entry.2.lastOffset

abbrev Laid (rel : Nat → Nat → Prop) (lo hi : Nat) (entries : List Entry) : Prop :=
  Interval.Laid firstOf lastOf rel lo hi entries

abbrev Has (offset : Nat) : Prop := Interval.Covers firstOf lastOf entry offset

def Keyed (entries : List Entry) : Prop := ∀ entry ∈ entries, entry.1 = firstOf entry

/-- The batches are laid out from the start offset up to the next offset to read. -/
structure Sound (rel : Nat → Nat → Prop) (lo hi : Nat) (batches : Batches) : Prop where
  keyed : Keyed batches.entries
  laid : Laid rel lo hi batches.entries

variable {rel : Nat → Nat → Prop} {lo hi : Nat} {batches : Batches}

theorem Sound.before (hrel : Links rel) (h : Sound rel lo hi batches) :
    batches.entries.Pairwise fun e x => e.1 = firstOf e ∧ firstOf e ≤ lastOf e ∧
      lastOf e < x.1 := by
  refine (h.laid.pairwise hrel).imp_of_mem fun he hx hlt => ⟨h.keyed _ he, ?_, ?_⟩
  · exact (h.laid.bounds hrel he).2.1
  · rw [h.keyed _ hx]
    exact hlt

/-! ## Parts -/

/-- The parts fill the batch and have their first offsets for keys. -/
def Fills (parts : List Entry) : Prop :=
  Keyed parts ∧ Laid (· = ·) (firstOf entry) (lastOf entry + 1) parts

theorem Sound.cut (hrel : Links rel) {batches batches' : Batches} {R : Entry → List Entry → Prop}
    (h : Sound rel lo hi batches) (hcut : Cut R batches.entries batches'.entries)
    (hR : ∀ e ∈ batches.entries, ∀ parts, R e parts → e.1 = firstOf e → firstOf e ≤ lastOf e →
      Fills e parts) : Sound rel lo hi batches' := by
  have hfills := hcut.imp_of_mem fun e he parts hparts => hR e he parts hparts (h.keyed e he)
    (h.laid.bounds hrel he).2.1
  constructor
  · intro x hx
    obtain ⟨e, -, parts, hparts, hmem⟩ := hfills.exists_of_mem hx
    exact hparts.1 x hmem
  · exact hfills.laid hrel (fun e parts hparts _ => hparts.2) h.laid

theorem fills_singleton {entry entry' : Entry} (hkey : entry'.1 = firstOf entry')
    (hfirst : firstOf entry' = firstOf entry) (hlast : lastOf entry' = lastOf entry)
    (hle : firstOf entry ≤ lastOf entry) : Fills entry [entry'] := by
  constructor
  · intro x hx
    rw [mem_singleton.mp hx]
    exact hkey
  · rw [← hfirst, ← hlast] at hle ⊢
    exact ⟨rfl, hle, rfl⟩

/-! ## Accounts -/

def archivedOf : List Nat :=
  if entry.2.state = .archived then offsets (firstOf entry) (lastOf entry) else []

def archivedIn (entries : List Entry) : List Nat := entries.flatMap archivedOf

/-- As often as an offset became archived it was reported. -/
def Accounted (w w' : Settling) : Prop :=
  ∀ offset, (archivedIn w'.batches.entries).count offset + w.dlqOffsets.count offset =
    (archivedIn w.batches.entries).count offset + w'.dlqOffsets.count offset

theorem Accounted.refl (w : Settling) : Accounted w w := fun _ => rfl

theorem Accounted.trans {w₁ w₂ w₃ : Settling} (h₁ : Accounted w₁ w₂) (h₂ : Accounted w₂ w₃) :
    Accounted w₁ w₃ := by
  intro offset
  have h₁ := h₁ offset
  have h₂ := h₂ offset
  omega

variable {w : Settling}

theorem accounted_of_flatMap {w' : Settling} {parts : Entry → List Entry}
    {letters : Entry → List Nat} (hentries : w'.batches.entries = w.batches.entries.flatMap parts)
    (hletters : w'.dlqOffsets = w.dlqOffsets ++ w.batches.entries.flatMap letters)
    (h : ∀ e ∈ w.batches.entries, archivedIn (parts e) = archivedOf e ++ letters e) :
    Accounted w w' := by
  intro offset
  have hparts : archivedIn w'.batches.entries =
      w.batches.entries.flatMap fun e => archivedOf e ++ letters e := by
    rw [hentries, archivedIn, flatMap_assoc]
    exact flatMap_congr h
  rw [hparts, ← (flatMap_append_perm _ _ _).count_eq, hletters, count_append,
    count_append, archivedIn]
  omega

/-- A pass over some of the batches that puts parts in the place of each and reports letters. -/
theorem foldl_settles {step : Settling → Nat → Settling} {p : Nat → InFlightBatch → Bool}
    {before : Entry → Entry → Prop} {parts : Entry → List Entry} {letters : Entry → List Nat}
    (hbefore : w.batches.entries.Pairwise before)
    (hskip : ∀ e : Entry, p e.1 e.2 = false → parts e = [e] ∧ letters e = [])
    (hstep : ∀ (w' : Settling) out e rest, e ∈ w.batches.entries → p e.1 e.2 = true →
      w'.batches.entries = out ++ e :: rest → (∀ x ∈ rest, before e x) →
      (step w' e.1).batches.entries = out ++ parts e ++ rest ∧
        (step w' e.1).dlqOffsets = w'.dlqOffsets ++ letters e) :
    let r := (w.batches.keysWhere p).foldl step w
    r.batches.entries = w.batches.entries.flatMap parts ∧
      r.dlqOffsets = w.dlqOffsets ++ w.batches.entries.flatMap letters := by
  refine foldl_keysWhere Settling.batches (P := fun w' done out => out = done.flatMap parts ∧
    w'.dlqOffsets = w.dlqOffsets ++ done.flatMap letters) w hbefore ⟨rfl, (append_nil _).symm⟩ ?_ ?_
  · rintro w' done out e ⟨rfl, hletters⟩ hskipped
    obtain ⟨hparts, hnone⟩ := hskip e hskipped
    rw [flatMap_append, flatMap_append, flatMap_singleton, flatMap_singleton, hparts, hnone,
      append_nil]
    exact ⟨rfl, hletters⟩
  · rintro w' done out e rest ⟨rfl, hletters⟩ he hmatch hentries hrest
    obtain ⟨hput, hsaid⟩ := hstep w' _ e rest he hmatch hentries hrest
    refine ⟨parts e, ?_, hput⟩
    rw [hsaid, hletters, flatMap_append, flatMap_append, flatMap_singleton, flatMap_singleton,
      append_assoc]
    exact ⟨rfl, rfl⟩

/-! ## Sweeping -/

variable (maxDeliveryAttempts : UInt16) (now : Nat) {timer : ExpiryTimer}

def lapseEntry (timer : ExpiryTimer) (entry : Entry) : Entry :=
  if (entry.1 ≤ timer.lastOffset ∧ timer.firstOffset ≤ lastOf entry) ∧
      hasLapsed now timer.memberId entry.2 then
    (entry.1, lapse maxDeliveryAttempts entry.2)
  else entry

def lapseLetters (timer : ExpiryTimer) (entry : Entry) : List Nat :=
  if (entry.1 ≤ timer.lastOffset ∧ timer.firstOffset ≤ lastOf entry) ∧
      hasLapsed now timer.memberId entry.2 ∧ maxDeliveryAttempts ≤ entry.2.deliveryCount then
    offsets (firstOf entry) (lastOf entry)
  else []

theorem expire_eq : (expire maxDeliveryAttempts now w timer).batches.entries =
        w.batches.entries.flatMap (fun e => [lapseEntry maxDeliveryAttempts now timer e]) ∧
      (expire maxDeliveryAttempts now w timer).dlqOffsets =
        w.dlqOffsets ++ w.batches.entries.flatMap (lapseLetters maxDeliveryAttempts now timer) := by
  refine foldl_settles w.batches.sorted (fun e hskip => ?_) fun w' out e rest _ hmatch hentries _ =>
    ?_
  · have hmiss : ¬ (e.1 ≤ timer.lastOffset ∧ timer.firstOffset ≤ lastOf e) := by
      intro h
      simp [h.1, h.2] at hskip
    exact ⟨congrArg (fun x => [x]) (if_neg fun h => hmiss h.1), if_neg fun h => hmiss h.1⟩
  · have hmeets : e.1 ≤ timer.lastOffset ∧ timer.firstOffset ≤ lastOf e := by
      simpa using hmatch
    rw [lapseKey, lookup_between hentries, lapseEntry, lapseLetters]
    by_cases hlapsed : hasLapsed now timer.memberId e.2 = true
    · rw [if_pos ⟨hmeets, hlapsed⟩]
      simp only [hlapsed, if_true, true_and]
      constructor
      · rw [entries_replace_between hentries]
        simp
      · by_cases hceiling : maxDeliveryAttempts ≤ e.2.deliveryCount
        · rw [if_pos hceiling, if_pos ⟨hmeets, hceiling⟩]
        · rw [if_neg hceiling, if_neg fun h => hceiling h.2, append_nil]
    · rw [if_neg fun h => hlapsed h.2, if_neg fun h => hlapsed h.2.1]
      simpa [hlapsed] using hentries

def Expired (batch : InFlightBatch) : Prop :=
  ∃ memberId, hasLapsed now memberId batch = true

theorem Expired.acquired {now : Nat} {batch : InFlightBatch} (h : Expired now batch) :
    batch.state = .acquired := by
  obtain ⟨memberId, h⟩ := h
  rw [hasLapsed, Bool.and_eq_true, Bool.and_eq_true, decide_eq_true_iff] at h
  exact h.1.1

theorem archivedIn_lapseEntry {entry : Entry} :
    archivedIn [lapseEntry maxDeliveryAttempts now timer entry] =
      archivedOf entry ++ lapseLetters maxDeliveryAttempts now timer entry := by
  rw [archivedIn, flatMap_singleton, lapseEntry, lapseLetters]
  by_cases hlapses : (entry.1 ≤ timer.lastOffset ∧ timer.firstOffset ≤ lastOf entry) ∧
      hasLapsed now timer.memberId entry.2 = true
  · have hold : archivedOf entry = [] := by
      rw [archivedOf, Expired.acquired ⟨_, hlapses.2⟩]
      rfl
    rw [if_pos hlapses, hold, nil_append, archivedOf, lapse]
    by_cases hceiling : maxDeliveryAttempts ≤ entry.2.deliveryCount
    · simp only [if_pos hceiling, if_true]
      exact (if_pos ⟨hlapses.1, hlapses.2, hceiling⟩).symm
    · simp only [if_neg hceiling]
      exact (if_neg fun h => hceiling h.2.2).symm
  · rw [if_neg hlapses, if_neg fun h => hlapses ⟨h.1, h.2.1⟩, append_nil]

theorem accounted_expire : Accounted w (expire maxDeliveryAttempts now w timer) := by
  obtain ⟨hentries, hletters⟩ := expire_eq maxDeliveryAttempts now
  exact accounted_of_flatMap hentries hletters fun e _ =>
    archivedIn_lapseEntry maxDeliveryAttempts now

/-- A batch after a sweep: the same, or with a lease that has run out ended. -/
def Lapses (entry : Entry) (parts : List Entry) : Prop :=
  parts = [entry] ∨ Expired now entry.2 ∧ parts = [(entry.1, lapse maxDeliveryAttempts entry.2)]

theorem not_expired_lapse {batch : InFlightBatch} :
    ¬ Expired now (lapse maxDeliveryAttempts batch) := by
  rintro ⟨memberId, h⟩
  simp [hasLapsed, lapse] at h

theorem Lapses.comp {maxDeliveryAttempts : UInt16} {now : Nat} {entry : Entry}
    {mid parts : List Entry} (h : Lapses maxDeliveryAttempts now entry mid)
    (h' : Cut (Lapses maxDeliveryAttempts now) mid parts) :
    Lapses maxDeliveryAttempts now entry parts := by
  have hone : ∀ {e : Entry} {parts}, Cut (Lapses maxDeliveryAttempts now) [e] parts →
      Lapses maxDeliveryAttempts now e parts := by
    intro e parts hcut
    cases hcut with
    | cons he hrest =>
      cases hrest
      rwa [append_nil]
  rcases h with rfl | ⟨hexpired, rfl⟩
  · exact hone h'
  · rcases hone h' with rfl | ⟨hagain, -⟩
    · exact .inr ⟨hexpired, rfl⟩
    · exact absurd hagain (not_expired_lapse maxDeliveryAttempts now)

theorem sweepTimers_spec (s : SharePartition) (now : Nat) :
    Cut (Lapses s.maxDeliveryAttempts now) s.batches.entries (s.sweepTimers now).batches.entries ∧
      Accounted s.settling (s.sweepTimers now) := by
  refine popEntries_induction (timerStep s.maxDeliveryAttempts now) (P := fun w _ =>
    Cut (Lapses s.maxDeliveryAttempts now) s.batches.entries (Settling.batches w).entries ∧
      Accounted s.settling w) ?_ ⟨?_, Accounted.refl _⟩
  · rintro w entry rest w' ⟨hcut, haccounted⟩ hstep
    rw [timerStep] at hstep
    split at hstep
    · cases hstep
    · rw [← Option.some.inj hstep]
      refine ⟨?_, haccounted.trans (accounted_expire s.maxDeliveryAttempts now)⟩
      rw [(expire_eq s.maxDeliveryAttempts now).1]
      have hnext := (Cut.of_flatMap (fun e => [lapseEntry s.maxDeliveryAttempts now entry.1 e])
        w.batches.entries).imp_of_mem (S := Lapses s.maxDeliveryAttempts now)
        fun e _ parts hparts => by
          rw [hparts, lapseEntry]
          split
          · next h => exact .inr ⟨⟨_, h.2⟩, rfl⟩
          · exact .inl rfl
      exact (hcut.comp hnext).imp_of_mem fun e _ parts hparts =>
        hparts.choose_spec.1.comp hparts.choose_spec.2
  · have hsame := Cut.of_flatMap (fun e : Entry => [e]) s.batches.entries
    rw [flatMap_singleton'] at hsame
    exact hsame.imp_of_mem fun e _ parts hparts => .inl hparts

/-! ## Acknowledging -/

section Acknowledging

variable (maxDeliveryAttempts : UInt16) (memberId : Text) (now : Nat) (ack : AckBatch)

variable (entry : Entry)

/-- The batch is the member's and has offsets that are acknowledged. -/
def Concerned : Prop :=
  (entry.1 ≤ ack.lastOffset ∧ ack.firstOffset ≤ lastOf entry) ∧ isHeldBy memberId entry.2 = true

instance (entry : Entry) : Decidable (Concerned memberId ack entry) :=
  inferInstanceAs (Decidable (_ ∧ _))

def leftPart : List Entry :=
  if firstOf entry < ack.firstOffset then
    [(firstOf entry, entry.2.piece (firstOf entry) (ack.firstOffset - 1))]
  else []

def middlePart : Entry :=
  (max (firstOf entry) ack.firstOffset, acked maxDeliveryAttempts memberId now ack.ackType entry.2
      (max (firstOf entry) ack.firstOffset) (min (lastOf entry) ack.lastOffset))

def rightPart : List Entry :=
  if ack.lastOffset < lastOf entry then
    [(ack.lastOffset + 1, entry.2.piece (ack.lastOffset + 1) (lastOf entry))]
  else []

/-- What an acknowledgement makes of a batch. -/
def ackParts : List Entry :=
  if Concerned memberId ack entry then
    leftPart ack entry ++ middlePart maxDeliveryAttempts memberId now ack entry ::
      rightPart ack entry
  else [entry]

def ackLetters : List Nat :=
  if Concerned memberId ack entry ∧
      ackState maxDeliveryAttempts entry.2 ack.ackType = .archived then
    offsets (max (firstOf entry) ack.firstOffset) (min (lastOf entry) ack.lastOffset)
  else []

variable {maxDeliveryAttempts memberId now ack} {w : Settling} {e : Entry}

theorem entries_ackKey {out rest : List Entry} (hentries : w.batches.entries = out ++ e :: rest)
    (hkey : e.1 = firstOf e) (hle : firstOf e ≤ lastOf e) (hack : ack.firstOffset ≤ ack.lastOffset)
    (hrest : ∀ x ∈ rest, lastOf e < x.1) (h : Concerned memberId ack e) :
    (ackKey maxDeliveryAttempts memberId now ack w e.1).batches.entries =
      out ++ (leftPart ack e ++ middlePart maxDeliveryAttempts memberId now ack e ::
        rightPart ack e) ++ rest := by
  have hout := (keys_between hentries).1
  have herased := entries_erase_between hentries
  obtain ⟨⟨hfirst, hlast⟩, hheld⟩ := h
  rw [hkey] at hfirst hout
  -- The left part goes in front of what follows the batch.
  have hleft : (if firstOf e < max (firstOf e) ack.firstOffset then
      (w.batches.erase e.1).insert (firstOf e)
        (e.2.piece (firstOf e) (max (firstOf e) ack.firstOffset - 1))
      else w.batches.erase e.1).entries = (out ++ leftPart ack e) ++ rest := by
    rw [leftPart]
    by_cases hcut : firstOf e < ack.firstOffset
    · rw [if_pos (by omega), if_pos hcut, Nat.max_eq_right hcut.le,
        entries_insert_between herased hout fun x hx => by
          have hlt := hrest x hx
          omega]
      simp
    · rw [if_neg (by omega), if_neg hcut, herased, append_nil]
  have hkeys : ∀ x ∈ out ++ leftPart ack e, x.1 < max (firstOf e) ack.firstOffset := by
    intro x hx
    rcases mem_append.mp hx with hx | hx
    · exact Nat.lt_of_lt_of_le (hout x hx) (Nat.le_max_left _ _)
    · rw [leftPart] at hx
      split at hx
      · next hcut =>
        rw [mem_singleton.mp hx]
        exact Nat.lt_of_lt_of_le hcut (Nat.le_max_right _ _)
      · cases hx
  have hbefore : ∀ x ∈ rest, max (firstOf e) ack.firstOffset < x.1 := by
    intro x hx
    have hlt := hrest x hx
    omega
  have hmiddle := (entries_insert_between hleft hkeys hbefore).trans
    (append_cons _ (middlePart maxDeliveryAttempts memberId now ack e) rest)
  rw [ackKey, lookup_between hentries]
  simp only [hheld, if_true, decide_eq_true_iff]
  rw [rightPart]
  by_cases hcut : ack.lastOffset < e.2.lastOffset
  · have hmin : min e.2.lastOffset ack.lastOffset = ack.lastOffset := Nat.min_eq_right hcut.le
    rw [if_pos (hmin.trans_lt hcut), if_pos hcut]
    refine (entries_insert_between hmiddle ?_ ?_).trans ?_
    · intro x hx
      rcases mem_append.mp hx with hx | hx
      · have hlt := hkeys x hx
        omega
      · rw [mem_singleton.mp hx]
        show max (firstOf e) ack.firstOffset < min (lastOf e) ack.lastOffset + 1
        omega
    · intro x hx
      have hlt : e.2.lastOffset < x.1 := hrest x hx
      omega
    · simp [hmin]
  · have hmin : min e.2.lastOffset ack.lastOffset = e.2.lastOffset :=
      Nat.min_eq_left (Nat.le_of_not_lt hcut)
    rw [if_neg (by rw [hmin]; exact Nat.lt_irrefl _), if_neg hcut]
    refine hmiddle.trans ?_
    simp

variable (maxDeliveryAttempts memberId now) in
theorem ackRange_eq (hrel : Links rel) (h : Sound rel lo hi w.batches)
    (hack : ack.firstOffset ≤ ack.lastOffset) :
    let r := ackRange maxDeliveryAttempts memberId now w ack
    r.batches.entries = w.batches.entries.flatMap (ackParts maxDeliveryAttempts memberId now ack) ∧
      r.dlqOffsets = w.dlqOffsets ++ w.batches.entries.flatMap (ackLetters maxDeliveryAttempts
      memberId ack) := by
  refine foldl_settles (h.before hrel) (fun e hskip => ?_)
    fun w' out e rest he hmatch hentries hrest => ?_
  · have hmiss : ¬ Concerned memberId ack e := by
      intro hconcerned
      simp [hconcerned.1.1, hconcerned.1.2] at hskip
    exact ⟨if_neg hmiss, if_neg fun h => hmiss h.1⟩
  · have hmeets : e.1 ≤ ack.lastOffset ∧ ack.firstOffset ≤ lastOf e := by simpa using hmatch
    rw [ackParts, ackLetters]
    by_cases hheld : isHeldBy memberId e.2 = true
    · have hconcerned : Concerned memberId ack e := ⟨hmeets, hheld⟩
      rw [if_pos hconcerned]
      refine ⟨entries_ackKey hentries (h.keyed e he) (h.laid.bounds hrel he).2.1 hack
        (fun x hx => (hrest x hx).2.2) hconcerned, ?_⟩
      rw [ackKey, lookup_between hentries]
      simp only [hheld, if_true]
      by_cases harchived : ackState maxDeliveryAttempts e.2 ack.ackType = .archived
      · rw [if_pos (show (acked ..).state = _ from harchived), if_pos ⟨hconcerned, harchived⟩]
      · rw [if_neg (show ¬ (acked ..).state = _ from harchived), if_neg fun h => harchived h.2,
          append_nil]
    · have hmiss : ¬ Concerned memberId ack e := fun h => hheld h.2
      rw [if_neg hmiss, if_neg fun h => hmiss h.1, ackKey, lookup_between hentries]
      simpa [hheld] using hentries

theorem fills_ackParts (hkey : e.1 = firstOf e) (hle : firstOf e ≤ lastOf e)
    (hack : ack.firstOffset ≤ ack.lastOffset) :
    Fills e (ackParts maxDeliveryAttempts memberId now ack e) := by
  rw [ackParts]
  split
  · next h =>
    obtain ⟨⟨hfirst, hlast⟩, -⟩ := h
    rw [hkey] at hfirst
    have hkeyed : Keyed (leftPart ack e ++ middlePart maxDeliveryAttempts memberId now ack e ::
        rightPart ack e) := by
      intro x hx
      rw [leftPart, rightPart, mem_append, mem_cons] at hx
      rcases hx with hx | rfl | hx
      · split at hx
        · rw [mem_singleton.mp hx]
          rfl
        · cases hx
      · rfl
      · split at hx
        · rw [mem_singleton.mp hx]
          rfl
        · cases hx
    have hright : Laid (· = ·) (min (lastOf e) ack.lastOffset + 1) (lastOf e + 1)
        (rightPart ack e) := by
      rw [rightPart]
      split
      · next hcut => exact ⟨congrArg (· + 1) (Nat.min_eq_right hcut.le), hcut, rfl⟩
      · next hcut =>
        show min (lastOf e) ack.lastOffset + 1 = lastOf e + 1
        omega
    have hmiddle : Laid (· = ·) (max (firstOf e) ack.firstOffset) (lastOf e + 1)
        (middlePart maxDeliveryAttempts memberId now ack e :: rightPart ack e) := by
      refine ⟨rfl, ?_, hright⟩
      show max (firstOf e) ack.firstOffset ≤ min (lastOf e) ack.lastOffset
      omega
    refine ⟨hkeyed, ?_⟩
    rw [leftPart]
    split
    · next hcut =>
      rw [Nat.max_eq_right hcut.le] at hmiddle
      refine ⟨rfl, Nat.le_sub_one_of_lt hcut, ?_⟩
      show Laid (· = ·) (ack.firstOffset - 1 + 1) _ _
      rwa [Nat.sub_add_cancel (Nat.one_le_of_lt hcut)]
    · next hcut =>
      rwa [Nat.max_eq_left (Nat.le_of_not_lt hcut)] at hmiddle
  · exact fills_singleton hkey rfl rfl hle

theorem archivedIn_ackParts : archivedIn (ackParts maxDeliveryAttempts memberId now ack e) =
      archivedOf e ++ ackLetters maxDeliveryAttempts memberId ack e := by
  rw [ackParts, ackLetters]
  by_cases hconcerned : Concerned memberId ack e
  · have hstate : e.2.state = .acquired := by
      have hheld := hconcerned.2
      rw [isHeldBy, Bool.and_eq_true, decide_eq_true_iff] at hheld
      exact hheld.1
    have hold : ∀ first last, archivedOf (first, e.2.piece first last) = [] := fun _ _ =>
      if_neg (by rw [piece, hstate]; decide)
    have hleft : archivedIn (leftPart ack e) = [] := by
      rw [leftPart]
      split
      · rw [archivedIn, flatMap_singleton, hold]
      · rfl
    have hright : archivedIn (rightPart ack e) = [] := by
      rw [rightPart]
      split
      · rw [archivedIn, flatMap_singleton, hold]
      · rfl
    have hself : archivedOf e = [] := if_neg (by rw [hstate]; decide)
    rw [archivedIn] at hleft hright
    rw [if_pos hconcerned, archivedIn, flatMap_append, flatMap_cons, hleft, hright, hself,
      nil_append, append_nil, nil_append, archivedOf]
    by_cases harchived : ackState maxDeliveryAttempts e.2 ack.ackType = .archived
    · rw [if_pos (show (middlePart ..).2.state = _ from harchived), if_pos ⟨hconcerned, harchived⟩]
      rfl
    · rw [if_neg (show ¬ (middlePart ..).2.state = _ from harchived), if_neg fun h => harchived h.2]
  · rw [if_neg hconcerned, if_neg fun h => hconcerned h.1, archivedIn, flatMap_singleton,
      append_nil]

variable (maxDeliveryAttempts memberId now) in
theorem ackRange_spec (hrel : Links rel) (h : Sound rel lo hi w.batches)
    (hack : ack.firstOffset ≤ ack.lastOffset) :
    let r := ackRange maxDeliveryAttempts memberId now w ack
    Sound rel lo hi r.batches ∧ Accounted w r := by
  obtain ⟨hentries, hletters⟩ := ackRange_eq maxDeliveryAttempts memberId now hrel h hack
  refine ⟨h.cut hrel (R := fun e parts =>
    parts = ackParts maxDeliveryAttempts memberId now ack e) ?_ ?_, ?_⟩
  · rw [hentries]
    exact Cut.of_flatMap _ _
  · rintro e - parts rfl hkey hle
    exact fills_ackParts hkey hle hack
  · exact accounted_of_flatMap hentries hletters fun e _ => archivedIn_ackParts

end Acknowledging

def Ordered (acks : List AckBatch) : Prop := ∀ ack ∈ acks, ack.firstOffset ≤ ack.lastOffset

theorem ordered_single {ack : AckBatch} (h : ack.firstOffset ≤ ack.lastOffset) : Ordered [ack] := by
  intro ack' hack
  rw [mem_singleton.mp hack]
  exact h

variable {s : SharePartition} {fetch : Reader} {now}

theorem ackRanges_spec (hrel : Links rel) (h : Sound rel lo hi s.batches) {memberId : Text}
    {acks : List AckBatch} (hacks : Ordered acks) :
    Sound rel lo hi (s.ackRanges memberId acks now).batches ∧
      Accounted s.settling (s.ackRanges memberId acks now) := by
  refine List.foldlRecOn acks _ (motive := fun w => Sound rel lo hi (Settling.batches w) ∧
    Accounted s.settling w) ⟨h, Accounted.refl _⟩ fun w hw ack hack => ?_
  have hstep := ackRange_spec s.maxDeliveryAttempts memberId now hrel hw.1 (hacks ack hack)
  exact ⟨hstep.1, hw.2.trans hstep.2⟩

theorem sweepTimers_sound (hrel : Links rel) (h : Sound rel lo hi s.batches) :
    Sound rel lo hi (s.sweepTimers now).batches := by
  refine h.cut hrel (sweepTimers_spec s now).1 fun e _ parts hparts hkey hle => ?_
  rcases hparts with rfl | ⟨-, rfl⟩ <;> exact fills_singleton hkey rfl rfl hle

/-! ## Acquiring -/

section Acquiring

variable (memberId : Text) (now timeout : Nat)

def remainder (batch : InFlightBatch) (first : Nat) : InFlightBatch :=
  { batch.piece first batch.lastOffset with
    state := .available
    acquiredBy := none
    acquiredAt := none }

/-- A batch after records were acquired: the same, or acquired if it was available, as a
whole or at its front. -/
def Takes (entry : Entry) (parts : List Entry) : Prop :=
  parts = [entry] ∨ entry.2.state = .available ∧
    (parts = [(firstOf entry, entry.2.acquire memberId now timeout)] ∨
      ∃ split, firstOf entry ≤ split ∧ split < lastOf entry ∧
        parts = [(firstOf entry,
          (entry.2.piece (firstOf entry) split).acquire memberId now timeout),
          (split + 1, remainder entry.2 (split + 1))])

def Leased (batch : InFlightBatch) : Prop :=
  batch.state = .acquired ∧ batch.acquiredBy = some memberId ∧ batch.acquiredAt = some now ∧
    batch.lockTimeout = timeout

/-- A record that is handed out lies in a batch that was available and is leased now. -/
def Given (entries entries' : List Entry) (info : AcquiredRecordInfo) : Prop :=
  (∃ e ∈ entries, e.2.state = .available ∧ Has e info.offset) ∧
    ∃ e ∈ entries', Leased memberId now timeout e.2 ∧ Has e info.offset

variable {memberId now timeout} {info : AcquiredRecordInfo} {batch : InFlightBatch}

theorem Takes.fills {e : Entry} {parts : List Entry} (h : Takes memberId now timeout e parts)
    (hkey : e.1 = firstOf e) (hle : firstOf e ≤ lastOf e) : Fills e parts := by
  rcases h with rfl | ⟨-, rfl | ⟨split, hfirst, hlast, rfl⟩⟩
  · exact fills_singleton hkey rfl rfl hle
  · exact fills_singleton rfl rfl rfl hle
  · constructor
    · intro x hx
      rw [mem_cons, mem_singleton] at hx
      rcases hx with rfl | rfl <;> rfl
    · exact ⟨rfl, hfirst, rfl, hlast, rfl⟩

theorem Given.mono {entries entries' more more' : List Entry}
    (h : Given memberId now timeout entries entries' info) (hold : entries ⊆ more)
    (hnew : entries' ⊆ more') : Given memberId now timeout more more' info := by
  obtain ⟨⟨e, he, hstate⟩, ⟨e', he', hlease⟩⟩ := h
  exact ⟨⟨e, hold he, hstate⟩, ⟨e', hnew he', hlease⟩⟩

theorem mem_deliver {fetch : Reader} (h : info ∈ deliver fetch batch) :
    batch.firstOffset ≤ info.offset ∧ info.offset ≤ batch.lastOffset := by
  obtain ⟨frame, hframe, rfl⟩ := mem_map.mp h
  have hin := of_mem_filter hframe
  rw [Bool.and_eq_true, decide_eq_true_iff, decide_eq_true_iff] at hin
  exact hin

variable (memberId now timeout) in
theorem acquireKey_spec {maxRecords : Nat} {a : Acquisition}
    {out rest : List Entry} {e : Entry} (hentries : a.batches.entries = out ++ e :: rest)
    (hkey : e.1 = firstOf e)
    (hle : firstOf e ≤ lastOf e) (hrest : ∀ x ∈ rest, lastOf e < x.1)
    (hstate : e.2.state = .available) :
    let r := acquireKey fetch memberId maxRecords now timeout a e.1
    ∃ parts, Takes memberId now timeout e parts ∧ r.batches.entries = out ++ parts ++ rest ∧
      ∀ info ∈ r.acquiredInfos, info ∈ a.acquiredInfos ∨
      Given memberId now timeout [e] parts info := by
  unfold acquireKey
  by_cases hfull : maxRecords ≤ a.acquiredInfos.length
  · refine ⟨[e], .inl rfl, ?_⟩
    rw [if_pos hfull, hentries]
    exact ⟨by simp, fun info hinfo => .inl hinfo⟩
  · rw [if_neg hfull, lookup_between hentries]
    simp only [hstate, ne_eq, not_true_eq_false, if_false]
    have hout := (keys_between hentries).1
    have hrest' := (keys_between hentries).2
    have herased := entries_erase_between hentries
    rw [hkey] at hout hrest'
    split
    · refine ⟨[(firstOf e, e.2.acquire memberId now timeout)], .inr ⟨hstate, .inl rfl⟩, ?_, ?_⟩
      · refine (entries_insert_between herased hout hrest').trans ?_
        simp [acquire]
      · intro info hinfo
        refine (mem_append.mp hinfo).imp_right fun hnew => ?_
        have hhas := mem_deliver hnew
        exact ⟨⟨e, mem_singleton_self e, hstate, hhas⟩,
          ⟨_, mem_singleton_self _, ⟨rfl, rfl, rfl, rfl⟩, hhas⟩⟩
    · next hlong =>
      rw [InFlightBatch.length, if_pos hle] at hlong
      have hsplit : firstOf e ≤ e.2.firstOffset + (maxRecords - a.acquiredInfos.length) - 1 ∧
          e.2.firstOffset + (maxRecords - a.acquiredInfos.length) - 1 < e.2.lastOffset := by
        have hle := hle
        show e.2.firstOffset ≤ _ ∧ _
        omega
      refine ⟨_, .inr ⟨hstate, .inr ⟨_, hsplit.1, hsplit.2, rfl⟩⟩, ?_, ?_⟩
      · have hfront : ∀ x ∈ rest, e.2.firstOffset + (maxRecords - a.acquiredInfos.length) - 1 + 1 <
            x.1 := by
          intro x hx
          have hlt : e.2.lastOffset < x.1 := hrest x hx
          omega
        refine (entries_insert_between ((entries_insert_between herased hout hrest').trans
            (append_cons out _ rest)) ?_ hfront).trans ?_
        · intro x hx
          rcases mem_append.mp hx with hx | hx
          · have hlt := hout x hx
            show x.1 < e.2.firstOffset + (maxRecords - a.acquiredInfos.length) - 1 + 1
            omega
          · rw [mem_singleton.mp hx]
            exact Nat.lt_succ_of_le hsplit.1
        · simp [acquire, piece, remainder]
      · intro info hinfo
        refine (mem_append.mp hinfo).imp_right fun hnew => ?_
        have hhas := mem_deliver hnew
        refine ⟨⟨e, mem_singleton_self e, hstate, hhas.1, ?_⟩,
          ⟨_, mem_cons_self, ⟨rfl, rfl, rfl, rfl⟩, hhas⟩⟩
        exact hhas.2.trans hsplit.2.le

theorem acquireAvailable_spec (hrel : Links rel) (h : Sound rel lo hi batches) (fetch : Reader)
    (memberId : Text) (maxRecords now timeout : Nat) :
    let a := acquireAvailable fetch memberId maxRecords now timeout batches
    Cut (Takes memberId now timeout) batches.entries a.batches.entries ∧
      ∀ info ∈ a.acquiredInfos,
        Given memberId now timeout batches.entries a.batches.entries info := by
  refine foldl_keysWhere Acquisition.batches
    (P := fun a done out => Cut (Takes memberId now timeout) done out ∧
      ∀ info ∈ a.acquiredInfos, Given memberId now timeout done out info)
    { batches := batches, acquiredInfos := [], newAcquiredRanges := [] } (h.before hrel) ?_ ?_ ?_
  · exact ⟨Cut.nil, nofun⟩
  · intro a done out e hP _
    refine ⟨hP.1.concat (.inl rfl), fun info hinfo => ?_⟩
    exact (hP.2 info hinfo).mono (subset_append_left _ _) (subset_append_left _ _)
  · intro a done out e rest hP he havailable hentries hrest
    obtain ⟨parts, hparts, hput, hinfos⟩ := acquireKey_spec memberId now timeout
      hentries (h.keyed e he) (h.laid.bounds hrel he).2.1 (fun x hx => (hrest x hx).2.2)
      (of_decide_eq_true havailable)
    refine ⟨parts, ⟨hP.1.concat hparts, fun info hinfo => ?_⟩, hput⟩
    rcases hinfos info hinfo with hold | hnew
    · exact (hP.2 info hold).mono (subset_append_left _ _) (subset_append_left _ _)
    · exact hnew.mono (subset_append_right _ _) (subset_append_right _ _)

end Acquiring

def Increasing (fetch : Reader) : Prop :=
  ∀ start frames, fetch start = some frames → frames.Pairwise fun r r' => r.offset < r'.offset

theorem increasing_logOf {offsets : List Nat} (h : offsets.Pairwise (· < ·)) :
    Increasing (logOf offsets) := by
  intro start frames hframes
  rw [← Option.some.inj hframes, pairwise_map]
  exact h.filter _

theorem freshFrames_increasing (h : Increasing fetch) (next needed : Nat) :
    (freshFrames fetch next needed).Pairwise fun r r' => r.offset < r'.offset := by
  rw [freshFrames]
  refine ((List.Pairwise.filter _ ?_)).take
  rcases hread : fetch next with _ | frames
  · exact List.Pairwise.nil
  · exact h next frames hread

theorem le_of_mem_freshFrames {next needed : Nat} {frame : Segment.Record}
    (h : frame ∈ freshFrames fetch next needed) : next ≤ frame.offset := by
  have hin := of_mem_filter (mem_of_mem_take h)
  exact of_decide_eq_true hin

theorem offset_between {frames : List Segment.Record} {first last frame : Segment.Record}
    (h : frames.Pairwise fun r r' => r.offset < r'.offset) (hfirst : frames.head? = some first)
    (hlast : frames.getLast? = some last) (hframe : frame ∈ frames) :
    first.offset ≤ frame.offset ∧ frame.offset ≤ last.offset := by
  constructor
  · obtain ⟨rest, rfl⟩ := List.head?_eq_some_iff.mp hfirst
    rcases mem_cons.mp hframe with rfl | hmem
    · exact Nat.le_refl _
    · exact ((pairwise_cons.mp h).1 frame hmem).le
  · obtain ⟨init, rfl⟩ := List.getLast?_eq_some_iff.mp hlast
    rcases mem_append.mp hframe with hmem | hmem
    · exact ((pairwise_append.mp h).2.2 frame hmem last (mem_singleton_self _)).le
    · rw [mem_singleton.mp hmem]

theorem Sound.concat (hrel : Links rel) {next : Nat} (h : Sound rel lo next batches)
    {batch : InFlightBatch} (hlink : rel next batch.firstOffset)
    (hle : batch.firstOffset ≤ batch.lastOffset) :
    (batches.insert batch.firstOffset batch).entries =
        batches.entries ++ [(batch.firstOffset, batch)] ∧
      Sound rel lo (batch.lastOffset + 1) (batches.insert batch.firstOffset batch) := by
  have hnext := hrel.le _ _ hlink
  have hentries : (batches.insert batch.firstOffset batch).entries =
      batches.entries ++ [(batch.firstOffset, batch)] := by
    refine entries_insert_between (append_nil _).symm (fun e he => ?_)
      fun x hx => absurd hx not_mem_nil
    have hbounds := h.laid.bounds hrel he
    rw [h.keyed e he]
    omega
  refine ⟨hentries, fun x hx => ?_, ?_⟩
  · rw [hentries] at hx
    rcases mem_append.mp hx with hx | hx
    · exact h.keyed x hx
    · rw [mem_singleton.mp hx]
  · rw [hentries]
    exact h.laid.append hrel ⟨hlink, hle, hrel.refl _⟩

/-- What is read for the first time becomes one batch after all the others. -/
theorem acquireFresh_spec (hrel : Links rel) {next : Nat} {a : Acquisition}
    (h : Sound rel lo next a.batches) (hfetch : Increasing fetch)
    (hlink : ∀ needed frame, (freshFrames fetch next needed).head? = some frame →
      rel next frame.offset) (memberId : Text) (maxRecords now timeout : Nat) :
    let r := acquireFresh fetch memberId maxRecords now timeout next a
    Sound rel lo r.2 r.1.batches ∧ (r = (a, next) ∨
      ∃ first last, next ≤ first ∧ first ≤ last ∧ r.2 = last + 1 ∧ r.1.batches.entries =
          a.batches.entries ++ [(first, freshBatch memberId now timeout first last)] ∧
        ∀ info ∈ r.1.acquiredInfos,
          info ∈ a.acquiredInfos ∨ first ≤ info.offset ∧ info.offset ≤ last) := by
  rcases acquireFresh_cases fetch memberId maxRecords now timeout next a with
    heq | ⟨frames, first, last, hframes, hfirst, hlast, heq⟩
  · rw [heq]
    exact ⟨h, .inl rfl⟩
  · have hinc := freshFrames_increasing hfetch next (maxRecords - a.acquiredInfos.length)
    rw [← hframes] at hinc
    have hmem : first ∈ frames := mem_of_head? hfirst
    have hle := (offset_between hinc hfirst hlast hmem).2
    have hnext : next ≤ first.offset := by
      rw [hframes] at hmem
      exact le_of_mem_freshFrames hmem
    have hlinks : rel next (freshBatch memberId now timeout first.offset last.offset).firstOffset :=
      hlink _ first (hframes ▸ hfirst)
    obtain ⟨hentries, hsound⟩ := h.concat hrel hlinks hle
    rw [heq]
    refine ⟨hsound,
      .inr ⟨first.offset, last.offset, hnext, hle, rfl, hentries, fun info hinfo => ?_⟩⟩
    refine (mem_append.mp hinfo).imp_right fun hnew => ?_
    obtain ⟨frame, hframe, rfl⟩ := mem_map.mp hnew
    exact offset_between hinc hfirst hlast hframe

/-! ## The watermark -/

theorem watermarkStep_eq_some {start start' : Nat} {e : Entry}
    (h : watermarkStep start e = some start') :
    e.1 = start ∧ e.2.state.isDone = true ∧ start' = lastOf e + 1 := by
  rw [watermarkStep] at h
  split at h
  · next hpop => exact ⟨hpop.1, hpop.2, (Option.some.inj h).symm⟩
  · cases h

/-- The batches that are left are laid out from the new start offset on, and those that are not are
done and below it. -/
theorem settle_spec (hrel : Links rel) {w : Settling}
    (h : Sound rel s.startOffset s.nextFetchOffset w.batches) :
    let s' := s.settle w
    Sound rel s'.startOffset s'.nextFetchOffset s'.batches ∧ s.startOffset ≤ s'.startOffset ∧
      ∀ e ∈ w.batches.entries, e ∈ s'.batches.entries ∨ e.2.state.isDone = true ∧
      lastOf e < s'.startOffset := by
  have hpop := popEntries_induction watermarkStep
    (P := fun start l => (Keyed l ∧ Laid rel start s.nextFetchOffset l) ∧ s.startOffset ≤ start ∧
      ∀ e ∈ w.batches.entries, e ∈ l ∨ e.2.state.isDone = true ∧ lastOf e < start)
    (s := s.startOffset) (l := w.batches.entries) ?_
    ⟨⟨h.keyed, h.laid⟩, Nat.le_refl _, fun _ hmem => .inl hmem⟩
  · exact ⟨⟨hpop.1.1, hpop.1.2⟩, hpop.2⟩
  · rintro start first rest start' ⟨⟨hkeyed, hlaid⟩, hle, hmem⟩ hstep
    obtain ⟨-, hdone, rfl⟩ := watermarkStep_eq_some hstep
    have hlink := hrel.le _ _ hlaid.1
    have hspan := hlaid.2.1
    refine ⟨⟨fun x hx => hkeyed x (mem_cons_of_mem first hx), hlaid.2.2⟩, by omega, fun x hx => ?_⟩
    rcases hmem x hx with hin | ⟨hxdone, hbelow⟩
    · rcases mem_cons.mp hin with rfl | hrest
      · exact .inr ⟨hdone, Nat.lt_succ_self _⟩
      · exact .inl hrest
    · exact .inr ⟨hxdone, by omega⟩

/-! ## Calls -/

/-- Ranges are the right way round, and the log is read in order. -/
def Proper : ShareCall → Prop
  | .acquire _ _ fetch => Increasing fetch
  | .acknowledge _ acks _ => Ordered acks
  | .checkLockTimeouts _ => True

/-- The first record that a call reads for the first time continues the layout. -/
def Linked (rel : Nat → Nat → Prop) (s : SharePartition) : ShareCall → Prop
  | .acquire _ _ fetch => ∀ needed frame,
      (freshFrames fetch s.nextFetchOffset needed).head? = some frame →
        rel s.nextFetchOffset frame.offset
  | .acknowledge _ _ _ | .checkLockTimeouts _ => True

theorem linked_le {call : ShareCall} : Linked (· ≤ ·) s call := by
  cases call with
  | acquire =>
    exact fun needed frame hframe => le_of_mem_freshFrames (mem_of_head? hframe)
  | acknowledge => trivial
  | checkLockTimeouts => trivial

abbrev LaidOut (rel : Nat → Nat → Prop) (s : SharePartition) : Prop :=
  Sound rel s.startOffset s.nextFetchOffset s.batches

section Serve

variable (hrel : Links rel) {request : AcquireRequest}
include hrel

theorem sweepTimersInternal_laidOut (h : LaidOut rel s) :
    LaidOut rel (s.sweepTimersInternal now).1 :=
  (settle_spec hrel (sweepTimers_sound hrel h)).1

theorem acknowledge_laidOut (h : LaidOut rel s) {memberId : Text} {acks : List AckBatch}
    (hacks : Ordered acks) : LaidOut rel (s.acknowledge memberId acks now).1 :=
  (settle_spec hrel (ackRanges_spec hrel h hacks).1).1

theorem sweepTimersInline_laidOut (h : LaidOut rel s) (now : Nat) :
    LaidOut rel (s.sweepTimersInline now) := by
  rw [sweepTimersInline]
  split
  · exact sweepTimersInternal_laidOut hrel h
  · exact h

omit hrel in
theorem nextFetchOffset_sweepTimersInline (s : SharePartition) (now : Nat) :
    (s.sweepTimersInline now).nextFetchOffset = s.nextFetchOffset := by
  rw [sweepTimersInline]
  split <;> rfl

/-- What a call acquires: batches that were available after the sweep, and fresh offsets
after all of them. -/
theorem acquireRecords_spec (h : LaidOut rel s) {fetch : Reader}
    (hproper : Proper (.acquire request now fetch))
    (hlinked : Linked rel s (.acquire request now fetch)) (hmax : request.maxRecords ≠ 0) :
    let r := s.acquireRecords request now fetch
    let timeout := request.lockTimeout.getD s.defaultLockTimeout
    LaidOut rel r.1 ∧ r.1.startOffset = (s.sweepTimersInline now).startOffset ∧
      (∃ taken, Cut (Takes request.memberId now timeout)
          (s.sweepTimersInline now).batches.entries taken ∧
        (r.1.batches.entries = taken ∧ r.1.nextFetchOffset = s.nextFetchOffset ∨
          ∃ first last, s.nextFetchOffset ≤ first ∧ first ≤ last ∧
            r.1.nextFetchOffset = last + 1 ∧ r.1.batches.entries =
              taken ++ [(first, freshBatch request.memberId now timeout first last)])) ∧
      ∀ info ∈ r.2,
        (∃ e ∈ r.1.batches.entries, Leased request.memberId now timeout e.2 ∧
          Has e info.offset) ∧
        ((∃ e ∈ (s.sweepTimersInline now).batches.entries,
            e.2.state = .available ∧ Has e info.offset) ∨ s.nextFetchOffset ≤ info.offset) := by
  have hswept := sweepTimersInline_laidOut hrel h now
  rw [LaidOut, nextFetchOffset_sweepTimersInline] at hswept
  obtain ⟨hcut, hgiven⟩ := acquireAvailable_spec hrel hswept fetch request.memberId
    request.maxRecords now (request.lockTimeout.getD s.defaultLockTimeout)
  have htaken := hswept.cut hrel hcut fun e _ parts hparts => hparts.fills
  obtain ⟨hsound, hfresh⟩ := acquireFresh_spec hrel htaken hproper hlinked request.memberId
    request.maxRecords now (request.lockTimeout.getD s.defaultLockTimeout)
  unfold SharePartition.acquireRecords acquireLocked
  rw [if_neg hmax]
  simp only [LaidOut, nextFetchOffset_sweepTimersInline, true_and]
  refine ⟨hsound, ⟨_, hcut, ?_⟩, ?_⟩
  · rcases hfresh with heq | ⟨first, last, hnext, hle, hlast, hentries, -⟩
    · rw [heq]
      exact .inl ⟨rfl, rfl⟩
    · exact .inr ⟨first, last, hnext, hle, hlast, hentries⟩
  · intro info hinfo
    rcases hfresh with heq | ⟨first, last, hnext, hle, -, hentries, hinfos⟩
    · rw [heq] at hinfo ⊢
      exact ⟨(hgiven info hinfo).2, .inl (hgiven info hinfo).1⟩
    · rw [hentries]
      rcases hinfos info hinfo with hold | hnew
      · obtain ⟨hbefore, e, he, hlease⟩ := hgiven info hold
        exact ⟨⟨e, mem_append_left _ he, hlease⟩, .inl hbefore⟩
      · refine ⟨⟨_, mem_append_right _ (mem_singleton_self _), ⟨rfl, rfl, rfl, rfl⟩, hnew⟩,
          .inr (hnext.trans hnew.1)⟩

omit hrel in
theorem acquireRecords_of_zero (h : request.maxRecords = 0) :
    s.acquireRecords request now fetch = (s, []) := if_pos h

theorem serve_laidOut (h : LaidOut rel s) {call : ShareCall} (hproper : Proper call)
    (hlinked : Linked rel s call) : LaidOut rel (s.serve call) := by
  cases call with
  | acquire request =>
    by_cases hmax : request.maxRecords = 0
    · rw [serve, acquireRecords_of_zero hmax]
      exact h
    · exact (acquireRecords_spec hrel h hproper hlinked hmax).1
  | acknowledge memberId acks now => exact acknowledge_laidOut hrel h hproper
  | checkLockTimeouts now => exact sweepTimersInternal_laidOut hrel h

theorem startOffset_le_serve (h : LaidOut rel s) {call : ShareCall} (hproper : Proper call)
    (hlinked : Linked rel s call) : s.startOffset ≤ (s.serve call).startOffset := by
  cases call with
  | acquire request now =>
    by_cases hmax : request.maxRecords = 0
    · rw [serve, acquireRecords_of_zero hmax]
    · rw [serve, (acquireRecords_spec hrel h hproper hlinked hmax).2.1, sweepTimersInline]
      split
      · exact (settle_spec hrel (sweepTimers_sound hrel h)).2.1
      · exact Nat.le_refl _
  | acknowledge memberId acks now =>
    exact (settle_spec hrel (ackRanges_spec hrel h hproper).1).2.1
  | checkLockTimeouts now => exact (settle_spec hrel (sweepTimers_sound hrel h)).2.1

end Serve

theorem laidOut_new (hrel : Links rel) (defaultLockTimeout : Nat) (maxDeliveryAttempts : UInt16)
    (startOffset : Nat) :
    LaidOut rel (new defaultLockTimeout maxDeliveryAttempts startOffset) where
  keyed := nofun
  laid := hrel.refl startOffset

end Bifrox.Share

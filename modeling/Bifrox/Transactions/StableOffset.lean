/-
The last stable offset (`last_stable_offset` in `src/server/transaction.rs`).

It is read off an index of pins.  Every way to put a state in place pins its starts, and only the
end of a transaction takes pins out again, by the starts that the state has then.
-/
import Bifrox.Transactions.Broker

namespace Bifrox
namespace Transactions

open List TxBroker
open Metadata (PartitionRange TransactionState TxStateRecord)
open Run (run Guarded Always)

/-- What the last stable offset depends on. -/
structure LsoManager where
  transactions : Table Text TransactionState
  lsoIndex : List Pin

inductive LsoOp where
  | begin (id : Text) (producerId now : UInt64)
  | addPartitions (id : Text) (producerId : UInt64) (topics : List (Text × List UInt32))
    (now : UInt64)
  | register (id topic : Text) (partition : UInt32) (start : UInt64)
  | prepare (id : Text) (decision : Decision)
  | complete (id : Text) (decision : Decision) (ends : EndOffsets)
  | install (state : TransactionState)
  | restore (record : TxStateRecord) (now : UInt64)
  | prune (maxAgeMs now : UInt64)

def inFlight (state : TransactionState) : Bool := !isTerminal state.record.status

namespace LsoManager

variable (s : LsoManager)

def new : LsoManager := ⟨∅, []⟩

def lastStableOffset (topic : Text) (partition : UInt32) : UInt64 :=
  ((s.lsoIndex.filter fun pin => pin.topic = topic && pin.partition = partition).map
    Pin.firstOffset).foldr min noOffset

def pin (id : Text) (state : TransactionState) : LsoManager where
  transactions := s.transactions.insert id state
  lsoIndex := state.record.partitions.foldl (pinLso id) s.lsoIndex

/-- The pins that are taken out are those of the state that is replaced. -/
def retire (id : Text) (state : TransactionState) : LsoManager where
  transactions := s.transactions.insert id state
  lsoIndex :=
    match s.transactions.lookup id with
    | some old => retireFromLsoIndex id old.record.partitions s.lsoIndex
    | none => s.lsoIndex

def transition (id : Text) (change : Option TransactionState → Except TxError TransactionState) :
    LsoManager :=
  match change (s.transactions.lookup id) with
  | .ok next => s.pin id next
  | .error _ => s

def withEnds (ends : EndOffsets) (ranges : List PartitionRange) : List PartitionRange :=
  ends.foldl (fun ranges entry => ranges.map fun range =>
    if isFor entry.1 entry.2.1 range then { range with endOffset := entry.2.2 } else range) ranges

def isStale (maxAgeMs now : UInt64) (state : TransactionState) : Bool :=
  now.toNat - state.createdAtMs.toNat > maxAgeMs.toNat || (maxAgeMs == 0 && !inFlight state)

def step (s : LsoManager) : LsoOp → LsoManager
  | .begin id producerId now => s.transition id (beginChange id producerId now)
  | .addPartitions id producerId topics now =>
    s.transition id (addPartitionsChange id producerId topics now)
  | .register id topic partition start =>
    s.transition id (registerChange id topic partition start)
  | .prepare id decision => s.transition id (prepareChange id decision)
  | .complete id decision ends =>
    match s.transactions.lookup id with
    | some old =>
      s.retire id { old with record := { old.record with
        status := decision.terminal, partitions := withEnds ends old.record.partitions } }
    | none => s
  | .install state =>
    if inFlight state then s.pin state.record.transactionId state
    else s.retire state.record.transactionId state
  | .restore record now =>
    if inFlight ⟨record, now⟩ then s.pin record.transactionId ⟨record, now⟩
    else { s with transactions := s.transactions.insert record.transactionId ⟨record, now⟩ }
  | .prune maxAgeMs now =>
    { s with transactions := s.transactions.filterMap fun _ state =>
        if isStale maxAgeMs now state then none else some state }

/-! ## Specification -/

/-- The state has this start registered. -/
def Starts (state : TransactionState) (pin : Pin) : Prop :=
  pin.firstOffset ≠ noOffset ∧ ∃ range ∈ state.record.partitions, range.topic = pin.topic ∧
    range.partition = pin.partition ∧ range.startOffset = pin.firstOffset

/-- A transaction in flight has this start registered. -/
def Holds (pin : Pin) : Prop :=
  ∃ state, s.transactions.lookup pin.transactionId = some state ∧ inFlight state = true ∧
    Starts state pin

/-- The last stable offset is the least start of the transactions in flight, if there is one. -/
def Exact : Prop :=
  ∀ topic partition, (s.lastStableOffset topic partition = noOffset ∨
      ∃ id, s.Holds ⟨topic, partition, s.lastStableOffset topic partition, id⟩) ∧
    ∀ id first, s.Holds ⟨topic, partition, first, id⟩ → s.lastStableOffset topic partition ≤ first

/-- The condition on an operation: no start of a transaction in flight is lowered, is left out of
a state that replaces its transaction, or is pruned with it. -/
def Keeps : LsoOp → Prop
  | .register id topic partition start =>
    ∀ first, s.Holds ⟨topic, partition, first, id⟩ → first ≤ start
  | .install state => inFlight state = true →
    ∀ pin, s.Holds pin → pin.transactionId = state.record.transactionId → Starts state pin
  | .restore record now => ∀ pin, s.Holds pin → pin.transactionId = record.transactionId →
    inFlight ⟨record, now⟩ = true ∧ Starts ⟨record, now⟩ pin
  | .prune maxAgeMs now => ∀ id state, s.transactions.lookup id = some state →
    inFlight state = true → isStale maxAgeMs now state = false
  | .begin .. | .addPartitions .. | .prepare .. | .complete .. => True

/-! ## The index -/

def Indexed : Prop := ∀ pin, pin ∈ s.lsoIndex ↔ s.Holds pin

variable {s} {id : Text} {state : TransactionState}

theorem foldr_min_spec {l : List UInt64} : (l.foldr min noOffset = noOffset ∨
    l.foldr min noOffset ∈ l) ∧ ∀ x ∈ l, l.foldr min noOffset ≤ x := by
  induction l with
  | nil => simp
  | cons x l ih =>
    rw [foldr_cons]
    refine ⟨?_, fun y hy => ?_⟩
    · rcases Std.min_eq_or (a := x) (b := l.foldr min noOffset) with h | h <;> rw [h]
      · exact .inr mem_cons_self
      · exact ih.1.imp_right (mem_cons_of_mem _)
    · rcases mem_cons.mp hy with rfl | hy
      · exact Std.min_le_left
      · exact UInt64.le_trans Std.min_le_right (ih.2 y hy)

theorem Indexed.exact (h : s.Indexed) : s.Exact := by
  intro topic partition
  obtain ⟨hmem, hle⟩ := foldr_min_spec
  constructor
  · refine hmem.imp_right fun hmem => ?_
    obtain ⟨pin, hpin, hfirst⟩ := mem_map.mp hmem
    simp only [mem_filter, Bool.and_eq_true, decide_eq_true_eq] at hpin
    obtain ⟨hpin, rfl, rfl⟩ := hpin
    refine ⟨pin.transactionId, (h _).mp ?_⟩
    rw [lastStableOffset, ← hfirst]
    exact hpin
  · intro id first hholds
    exact hle first (mem_map.mpr ⟨_, mem_filter.mpr ⟨(h _).mpr hholds, by simp⟩, rfl⟩)

theorem mem_foldl_pinLso {ranges : List PartitionRange} {pins : List Pin} {pin : Pin} :
    pin ∈ ranges.foldl (pinLso id) pins ↔ pin ∈ pins ∨ pin.transactionId = id ∧
      pin.firstOffset ≠ noOffset ∧ ∃ range ∈ ranges, range.topic = pin.topic ∧
        range.partition = pin.partition ∧ range.startOffset = pin.firstOffset := by
  induction ranges generalizing pins with
  | nil => simp
  | cons range ranges ih =>
    rw [foldl_cons, ih, pinLso]
    obtain ⟨topic, partition, first, id'⟩ := pin
    split <;> simp <;> grind

theorem holds_insert {pin : Pin} {lsoIndex : List Pin} :
    Holds ⟨s.transactions.insert id state, lsoIndex⟩ pin ↔
      if pin.transactionId = id then inFlight state = true ∧ Starts state pin else s.Holds pin := by
  simp only [Holds, Table.lookup_insert]
  split <;> simp

/-- Where no start is lost, the pins of a new state make the index complete. -/
theorem Indexed.pin (h : s.Indexed) (hflight : inFlight state = true)
    (hkeep : ∀ pin, s.Holds pin → pin.transactionId = id → Starts state pin) :
    (s.pin id state).Indexed := by
  intro pin
  have hkeep := hkeep pin
  rw [LsoManager.pin, holds_insert, mem_foldl_pinLso, h pin]
  grind [Starts]

theorem Indexed.retire (h : s.Indexed) (hflight : inFlight state = false) :
    (s.retire id state).Indexed := by
  intro pin
  have hpin := h pin
  rw [LsoManager.retire, holds_insert]
  cases hold : s.transactions.lookup id with
  | none => grind [Holds]
  | some =>
    simp only [retireFromLsoIndex, mem_filter, Bool.not_eq_true', any_eq_false, decide_eq_true_eq]
    obtain ⟨topic, partition, first, id'⟩ := pin
    grind [Holds, Starts]

theorem Indexed.transition (h : s.Indexed)
    {change : Option TransactionState → Except TxError TransactionState}
    (hchange : ∀ next, change (s.transactions.lookup id) = .ok next → inFlight next = true ∧
      ∀ pin, s.Holds pin → pin.transactionId = id → Starts next pin) :
    (s.transition id change).Indexed := by
  rw [LsoManager.transition]
  split
  · next next hnext => exact h.pin (hchange next hnext).1 (hchange next hnext).2
  · exact h

theorem Starts.mono {next : TransactionState} {pin : Pin} (h : Starts state pin)
    (hsub : state.record.partitions ⊆ next.record.partitions) : Starts next pin := by
  obtain ⟨hfirst, range, hrange, hpin⟩ := h
  exact ⟨hfirst, range, hsub hrange, hpin⟩

theorem mem_updateRange {topic : Text} {partition : UInt32}
    {change : PartitionRange → PartitionRange} {new range : PartitionRange}
    {ranges : List PartitionRange} (h : range ∈ ranges) :
    range ∈ updateRange topic partition change new ranges ∨
      isFor topic partition range = true ∧
        change range ∈ updateRange topic partition change new ranges := by
  induction ranges with
  | nil => cases h
  | cons other ranges ih =>
    rw [updateRange]
    split
    · next hfor =>
      rcases mem_cons.mp h with rfl | h
      · exact .inr ⟨hfor, mem_cons_self⟩
      · exact .inl (mem_cons_of_mem _ h)
    · rcases mem_cons.mp h with rfl | h
      · exact .inl mem_cons_self
      · exact (ih h).imp (mem_cons_of_mem _) (And.imp_right (mem_cons_of_mem _))

/-- A registration that is not below the start that there is leaves it. -/
theorem Starts.register {topic : Text} {partition : UInt32} {start : UInt64} {pin : Pin}
    (h : Starts state pin)
    (hle : pin.topic = topic → pin.partition = partition → pin.firstOffset ≤ start) :
    Starts (withPartitions state (registerRange topic partition start state.record.partitions))
      pin := by
  obtain ⟨hfirst, range, hrange, htopic, hpartition, hstart⟩ := h
  rcases mem_updateRange hrange with hsame | ⟨hfor, hchanged⟩
  · exact ⟨hfirst, range, hsame, htopic, hpartition, hstart⟩
  · simp only [isFor, Bool.and_eq_true, decide_eq_true_eq] at hfor
    refine ⟨hfirst, _, hchanged, htopic, hpartition, ?_⟩
    show min range.startOffset start = _
    rw [hstart]
    exact if_pos (hle (htopic.symm.trans hfor.1) (hpartition.symm.trans hfor.2))

theorem Indexed.step (h : s.Indexed) (op : LsoOp) (hkeep : s.Keeps op) : (s.step op).Indexed := by
  cases op with
  | begin id =>
    refine h.transition fun next hnext => ?_
    rw [beginChange] at hnext
    split at hnext
    · cases hnext
    · next hnone =>
      cases hnext
      refine ⟨rfl, fun pin hpin hid => ?_⟩
      obtain ⟨old, hold, -⟩ := hpin
      rw [← hid, hold] at hnone
      exact absurd rfl hnone
  | addPartitions id producerId topics now =>
    refine h.transition fun next hnext => ?_
    simp only [addPartitionsChange] at hnext
    split at hnext
    · cases hnext
    · next hongoing =>
      rw [not_or, not_not, not_not] at hongoing
      cases hnext
      refine ⟨by simp [inFlight, withPartitions, isTerminal, hongoing.2], fun pin hpin hid => ?_⟩
      obtain ⟨old, hold, -, hstarts⟩ := hpin
      rw [← hid, hold]
      exact hstarts.mono (subset_enlistAll _ _)
  | register id topic partition start =>
    refine h.transition fun next hnext => ?_
    cases hold : s.transactions.lookup id with
    | none => simp [hold, registerChange] at hnext
    | some old =>
      simp only [hold, registerChange, ne_eq, ite_not] at hnext
      split at hnext
      · next hongoing =>
        cases hnext
        refine ⟨by simp [inFlight, withPartitions, isTerminal, hongoing], fun pin hpin hid => ?_⟩
        have hholds := hpin
        obtain ⟨old', hold', -, hstarts⟩ := hpin
        rw [hid, hold] at hold'
        cases hold'
        refine hstarts.register fun htopic hpartition => hkeep pin.firstOffset ?_
        rw [← htopic, ← hpartition, ← hid]
        exact hholds
      · cases hnext
  | prepare id decision =>
    refine h.transition fun next hnext => ?_
    cases hold : s.transactions.lookup id with
    | none => simp [hold, prepareChange] at hnext
    | some old =>
      simp only [hold, prepareChange] at hnext
      split at hnext
      · cases hnext
      · cases hnext
        refine ⟨by cases decision <;> rfl, fun pin hpin hid => ?_⟩
        obtain ⟨old', hold', -, hstarts⟩ := hpin
        rw [hid, hold] at hold'
        cases hold'
        exact hstarts
  | complete id decision =>
    rw [LsoManager.step]
    split
    · exact h.retire (by cases decision <;> rfl)
    · exact h
  | install =>
    rw [LsoManager.step]
    split
    · next hflight => exact h.pin hflight (hkeep hflight)
    · next hflight => exact h.retire (by simpa using hflight)
  | restore =>
    rw [LsoManager.step]
    split
    · next hflight => exact h.pin hflight fun pin hpin hid => (hkeep pin hpin hid).2
    · next hflight =>
      intro pin
      rw [holds_insert, h pin]
      have hpin := hkeep pin
      grind
  | prune maxAgeMs now =>
    intro pin
    refine (h pin).trans (exists_congr fun state => and_congr_left fun hrest => ?_)
    rw [LsoManager.step, Table.lookup_filterMap, Option.bind_eq_some_iff]
    constructor
    · intro hstate
      exact ⟨state, hstate, by rw [hkeep _ _ hstate hrest.1]; rfl⟩
    · rintro ⟨old, hold, hkept⟩
      split at hkept
      · cases hkept
      · cases hkept
        exact hold

/-- In every run in which a registered start stays until its transaction ends, the last stable
offset is exact. -/
theorem exact_of_keeps (ops : List LsoOp) (h : Guarded LsoManager.step Keeps new ops) :
    Always LsoManager.step Exact new ops :=
  h.always (fun _ (hs : Indexed _) => hs.exact) (fun _ op (hs : Indexed _) hop => hs.step op hop)
    fun _ => ⟨nofun, fun ⟨_, hstate, _⟩ => nomatch hstate⟩

/-- A transaction registers a start and ends. -/
def ended (starts : List UInt64) : List LsoOp :=
  .begin ['a'] 1 0 :: starts.map (.register ['a'] ['t'] 0) ++ [.complete ['a'] .commit []]

theorem exact_ended : Always LsoManager.step Exact new (ended [5]) := by
  refine exact_of_keeps (ended [5]) ⟨trivial, fun first h => ?_, trivial, trivial⟩
  obtain ⟨state, hstate, -, -, range, hrange, -⟩ := h
  cases hstate
  cases hrange

/-- The pin of the start that was registered first stays for ever. -/
theorem not_exact_ended : ¬ Always LsoManager.step Exact new (ended [5, 3]) := by
  intro h
  have hended : ∀ id ∈ (run LsoManager.step new (ended [5, 3])).transactions.keys,
      ((run LsoManager.step new (ended [5, 3])).transactions.lookup id).any inFlight = false := by
    decide +kernel
  obtain hnone | ⟨id, state, hstate, hflight, -⟩ := (h.run ['t'] 0).1
  · exact absurd hnone (by decide +kernel)
  · have hid := hended id ((Table.mem_keys _ id).mpr (Option.isSome_of_eq_some hstate))
    simp [show Table.lookup _ id = some state from hstate, hflight] at hid

/-! ## Safety -/

/-- Every start of a transaction in flight is in the index. -/
def Pinned (s : LsoManager) : Prop := ∀ pin, s.Holds pin → pin ∈ s.lsoIndex

theorem Pinned.pin (h : s.Pinned) : (s.pin id state).Pinned := by
  intro pin hpin
  rw [LsoManager.pin, holds_insert] at hpin
  rw [LsoManager.pin, mem_foldl_pinLso]
  split at hpin
  · next hid => exact .inr ⟨hid, hpin.2⟩
  · exact .inl (h pin hpin)

/-- A state that is not in flight takes no pin of another transaction out. -/
theorem Pinned.insert (h : s.Pinned) (hflight : inFlight state = false) {lsoIndex : List Pin}
    (hindex : ∀ pin ∈ s.lsoIndex, pin.transactionId ≠ id → pin ∈ lsoIndex) :
    Pinned ⟨s.transactions.insert id state, lsoIndex⟩ := by
  intro pin hpin
  rw [holds_insert, hflight] at hpin
  split at hpin
  · cases hpin.1
  · next hid => exact hindex pin (h pin hpin) hid

theorem Pinned.retire (h : s.Pinned) (hflight : inFlight state = false) :
    (s.retire id state).Pinned := by
  refine h.insert hflight fun pin hpin hid => ?_
  split
  · refine mem_filter.mpr ⟨hpin, ?_⟩
    simp only [Bool.not_eq_true', any_eq_false, decide_eq_true_eq]
    rintro range - rfl
    exact hid rfl
  · exact hpin

theorem Pinned.transition (h : s.Pinned)
    (change : Option TransactionState → Except TxError TransactionState) :
    (s.transition id change).Pinned := by
  rw [LsoManager.transition]
  split
  · exact h.pin
  · exact h

theorem Pinned.step (h : s.Pinned) (op : LsoOp) : (s.step op).Pinned := by
  cases op with
  | begin | addPartitions | register | prepare => exact h.transition _
  | complete id decision =>
    rw [LsoManager.step]
    split
    · exact h.retire (by cases decision <;> rfl)
    · exact h
  | install =>
    rw [LsoManager.step]
    split
    · exact h.pin
    · next hflight => exact h.retire (by simpa using hflight)
  | restore =>
    rw [LsoManager.step]
    split
    · exact h.pin
    · next hflight => exact h.insert (by simpa using hflight) fun pin hpin _ => hpin
  | prune =>
    rintro pin ⟨state, hstate, hrest⟩
    rw [LsoManager.step, Table.lookup_filterMap, Option.bind_eq_some_iff] at hstate
    obtain ⟨old, hold, hkept⟩ := hstate
    split at hkept <;> cases hkept
    exact h pin ⟨state, hold, hrest⟩

/-- In every run, whatever is lost or replaced, the last stable offset stays at or below every
start of a transaction in flight. -/
theorem lastStableOffset_le_starts (ops : List LsoOp) :
    Always LsoManager.step (fun s => ∀ pin, s.Holds pin →
      s.lastStableOffset pin.topic pin.partition ≤ pin.firstOffset) new ops := by
  have hops : Guarded LsoManager.step (fun _ _ => True) new ops :=
    Guarded.of_forall fun _ _ => trivial
  refine hops.always (fun s (hs : Pinned s) pin hpin => ?_) (fun s op hs _ => hs.step op) ?_
  · exact foldr_min_spec.2 _ (mem_map.mpr ⟨pin, mem_filter.mpr ⟨hs pin hpin, by simp⟩, rfl⟩)
  · rintro pin ⟨state, hstate, -⟩
    cases hstate

end LsoManager
end Transactions
end Bifrox

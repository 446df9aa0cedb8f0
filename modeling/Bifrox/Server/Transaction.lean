/-
Transactions on one partition (`src/server/transaction.rs`).

`persist` always succeeds here: it writes the coordinator's own log, which no
reader of the partition sees.
-/
import Mathlib.Data.List.AList
import Mathlib.Data.List.Dedup
import Bifrox.Server.Produce

namespace Bifrox.Server

open Protocol Segment BigEndian AList

inductive TxStatus where
  | ongoing
  | prepareCommit
  | prepareAbort
  | committed
  | aborted
deriving DecidableEq

/-- `u64::MAX`, for an offset that is not known yet. -/
def noOffset : Nat := 2 ^ 64 - 1

structure TransactionState where
  producerId : UInt64
  status : TxStatus
  /-- The first and last offset on the partition, once the transaction has it. -/
  range : Option (Nat × Nat)
deriving DecidableEq

structure TransactionalProducerState where
  producerId : UInt64
  producerEpoch : Int16
deriving DecidableEq

inductive TxError where
  | alreadyExists (id : Bytes)
  | notFound (id : Bytes)
  | notOngoing
  | notOngoingOrFenced
  | differentDecision
  | epochExhausted
  | notInitialized (id : Bytes)
  | producerIdMismatch (id : Bytes)
  | producerFenced (id : Bytes) (expected got : Int16)
deriving DecidableEq

structure TransactionManager where
  transactions : AList (fun _ : Bytes => TransactionState)
  lsoIndex : List (Nat × Bytes)
  transactionalProducers : AList (fun _ : Bytes => TransactionalProducerState)
  nextProducerId : UInt64

namespace TransactionManager

def new : TransactionManager :=
  { transactions := ∅, lsoIndex := [], transactionalProducers := ∅, nextProducerId := 1 }

variable (m : TransactionManager) (id : Bytes)

def state : Option TransactionState :=
  m.transactions.lookup id

/-! ## Producers -/

def generateProducerId : TransactionManager × UInt64 :=
  ({ m with nextProducerId := m.nextProducerId + 1 }, m.nextProducerId)

def nextTransactionalProducer : Except TxError (TransactionManager × TransactionalProducerState) :=
  match m.transactionalProducers.lookup id with
  | some current =>
    if current.producerEpoch = Int16.maxValue then .error .epochExhausted
    else .ok (m, { current with producerEpoch := current.producerEpoch + 1 })
  | none =>
    let (m, producerId) := m.generateProducerId
    .ok (m, { producerId, producerEpoch := 0 })

/-- What a call registers.  Every call without a transactional id gets an id of its own. -/
def nextProducer : Except TxError (TransactionManager × TransactionalProducerState) :=
  if id = [] then
    let (m, producerId) := m.generateProducerId
    .ok (m, { producerId, producerEpoch := 0 })
  else m.nextTransactionalProducer id

def restoreTransactionalProducer (producer : TransactionalProducerState) : TransactionManager :=
  { m with
    transactionalProducers := m.transactionalProducers.insert id producer
    -- `saturating_add` and `fetch_max`
    nextProducerId := max m.nextProducerId
      (if producer.producerId + 1 = 0 then producer.producerId else producer.producerId + 1) }

def validateTransactionalProducer (producerId : UInt64)
    (producerEpoch : Int16) : Except TxError Unit :=
  match m.transactionalProducers.lookup id with
  | none => .error (.notInitialized id)
  | some current =>
    if current.producerId ≠ producerId then .error (.producerIdMismatch id)
    else if current.producerEpoch ≠ producerEpoch then
      .error (.producerFenced id current.producerEpoch producerEpoch)
    else .ok ()

def hasTransactionalProducer : Bool :=
  (m.transactionalProducers.lookup id).isSome

/-! ## The last stable offset -/

def lastStableOffset : Nat :=
  (m.lsoIndex.map Prod.fst).foldr min noOffset

def pinLso (firstOffset : Nat) (id : Bytes) : TransactionManager :=
  { m with lsoIndex := m.lsoIndex.insert (firstOffset, id) }

def retireFromLsoIndex : TransactionManager :=
  match (m.state id).bind TransactionState.range with
  | some (firstOffset, _) =>
    { m with lsoIndex := m.lsoIndex.filter (fun pin => pin ≠ (firstOffset, id)) }
  | none => m

/-! ## Transitions -/

def install (next : TransactionState) : TransactionManager :=
  let m := { m with transactions := m.transactions.insert id next }
  match next.range with
  | some (start, _) => if start ≠ noOffset then m.pinLso start id else m
  | none => m

def transition (change : Option TransactionState → Except TxError TransactionState) :
    Except TxError TransactionManager :=
  (change (m.state id)).map (m.install id)

def beginTransaction (producerId : UInt64) : Except TxError TransactionManager :=
  m.transition id (fun old =>
    if old.isSome then .error (.alreadyExists id)
    else .ok { producerId, status := .ongoing, range := none })

def addPartition (producerId : UInt64) : Except TxError TransactionManager :=
  m.transition id (fun old =>
    let next := old.getD { producerId, status := .ongoing, range := none }
    if next.producerId ≠ producerId ∨ next.status ≠ .ongoing then .error .notOngoingOrFenced
    else .ok { next with range := some (next.range.getD (noOffset, noOffset)) })

def registerPartition (start : Nat) : Except TxError TransactionManager :=
  m.transition id (fun old =>
    match old with
    | none => .error (.notFound id)
    | some next =>
      if next.status ≠ .ongoing then .error .notOngoing
      else
        .ok { next with range := some (match next.range with
          | some (first, last) => (min first start, last)
          | none => (start, noOffset)) })

/-- `prepare_durable`, for a commit or an abort. -/
def prepare (status : TxStatus) : Except TxError TransactionManager :=
  m.transition id (fun old =>
    match old with
    | none => .error (.notFound id)
    | some next =>
      if next.status ≠ .ongoing ∧ next.status ≠ status then .error .differentDecision
      else .ok { next with status })

/-- The end of a transaction, with the offset of its marker if it has one. -/
def completeWithStatus (status : TxStatus)
    (endOffset : Option Nat) : Except TxError TransactionManager :=
  match m.state id with
  | none => .error (.notFound id)
  | some state =>
    let range := match endOffset with
      | some last => state.range.map (fun (first, _) => (first, last))
      | none => state.range
    .ok (({ m with transactions := m.transactions.insert id { state with status, range } } :
      TransactionManager).retireFromLsoIndex id)

def cleanupCompletedTransaction : TransactionManager :=
  match m.state id with
  | some state =>
    if state.status = .committed ∨ state.status = .aborted then
      { m with transactions := m.transactions.erase id }
    else m
  | none => m

def abortedRanges : List (Nat × Nat) :=
  m.transactions.entries.filterMap (fun ⟨_, state⟩ =>
    if state.status = .aborted then state.range else none)

def isOngoing : Bool :=
  (m.state id).any (fun state =>
    state.status = .ongoing ∨ state.status = .prepareCommit ∨ state.status = .prepareAbort)

/-! ## What the operations change -/

/-- Nothing at or above `first` is stable as long as the transaction holds it. -/
def Holds (first : Nat) : Prop :=
  first = noOffset ∨ (first, id) ∈ m.lsoIndex

variable {m m' : TransactionManager} {id id' : Bytes} {next : TransactionState}

theorem foldr_min_le (offsets : List Nat) : offsets.foldr min noOffset ≤ noOffset ∧
    ∀ offset ∈ offsets, offsets.foldr min noOffset ≤ offset := by
  induction offsets with
  | nil => exact ⟨Nat.le_refl _, nofun⟩
  | cons offset offsets ih =>
    rw [List.foldr_cons]
    refine ⟨(Nat.min_le_right _ _).trans ih.1, fun offset' hmem => ?_⟩
    rcases List.mem_cons.mp hmem with rfl | hmem
    · exact Nat.min_le_left _ _
    · exact (Nat.min_le_right _ _).trans (ih.2 offset' hmem)

variable {first : Nat} {producerId : UInt64} {status : TxStatus}

theorem Holds.lastStableOffset_le (h : m.Holds id first) : m.lastStableOffset ≤ first := by
  rcases h with rfl | hpin
  · exact (foldr_min_le _).1
  · exact (foldr_min_le _).2 first (List.mem_map.mpr ⟨_, hpin, rfl⟩)

theorem state_install_self (m : TransactionManager) : (m.install id next).state id = some next := by
  rw [install]
  split
  · split <;> exact lookup_insert _
  · exact lookup_insert _

theorem state_install_ne (m : TransactionManager) (h : id' ≠ id) :
    (m.install id next).state id' = m.state id' := by
  rw [install]
  split
  · split <;> exact lookup_insert_ne h
  · exact lookup_insert_ne h

theorem holds_install (h : m.Holds id' first) : (m.install id next).Holds id' first := by
  refine h.imp_right (fun hpin => ?_)
  rw [install]
  split
  · split
    · exact List.mem_insert_of_mem hpin
    · exact hpin
  · exact hpin

theorem holds_install_self {last : Nat} (h : next.range = some (first, last)) :
    (m.install id next).Holds id first := by
  by_cases hno : first = noOffset
  · exact .inl hno
  · right
    simp only [install, h, hno, ne_eq, not_false_eq_true, if_true]
    exact List.mem_insert_self ..

theorem transition_ok {change : Option TransactionState → Except TxError TransactionState}
    (h : m.transition id change = .ok m') :
    ∃ next, change (m.state id) = .ok next ∧ m' = m.install id next := by
  rw [transition] at h
  cases hchange : change (m.state id) with
  | error =>
    rw [hchange] at h
    cases h
  | ok next =>
    rw [hchange] at h
    cases h
    exact ⟨next, rfl, rfl⟩

/-- What a new state keeps of the old one: it does not end the transaction, and
its first offset can only move down. -/
structure Extends (old : Option TransactionState) (next : TransactionState) : Prop where
  alive : next.status ≠ .aborted
  first_le : ∀ state ∈ old, ∀ first last, state.range = some (first, last) →
    ∃ first' last', next.range = some (first', last') ∧ first' ≤ first

theorem beginTransaction_extends (h : m.beginTransaction id producerId = .ok m') :
    ∃ next, Extends (m.state id) next ∧ m' = m.install id next := by
  obtain ⟨next, hchange, rfl⟩ := transition_ok h
  refine ⟨next, ?_, rfl⟩
  split at hchange
  · cases hchange
  · rename_i hnone
    cases hchange
    refine ⟨nofun, fun state hstate => ?_⟩
    rw [Option.mem_def.mp hstate] at hnone
    exact absurd rfl hnone

theorem addPartition_extends (h : m.addPartition id producerId = .ok m') :
    ∃ next, Extends (m.state id) next ∧ m' = m.install id next := by
  obtain ⟨next, hchange, rfl⟩ := transition_ok h
  refine ⟨next, ?_, rfl⟩
  simp only at hchange
  split at hchange
  · cases hchange
  · rename_i hongoing
    cases hchange
    rw [not_or, not_not, not_not] at hongoing
    refine ⟨?_, fun state hstate first last hrange => ?_⟩
    · show TransactionState.status _ ≠ _
      rw [hongoing.2]
      nofun
    · rw [Option.mem_def.mp hstate, Option.getD_some, hrange]
      exact ⟨first, last, rfl, Nat.le_refl _⟩

theorem registerPartition_extends {start : Nat} (h : m.registerPartition id start = .ok m') :
    ∃ next, Extends (m.state id) next ∧ m' = m.install id next ∧
      ∃ first last, next.range = some (first, last) ∧ first ≤ start := by
  obtain ⟨next, hchange, rfl⟩ := transition_ok h
  cases hstate : m.state id with
  | none =>
    rw [hstate] at hchange
    cases hchange
  | some old =>
    rw [hstate] at hchange
    simp only at hchange
    split at hchange
    · cases hchange
    · rename_i hongoing
      cases hchange
      have halive : old.status ≠ .aborted := by
        rw [not_not.mp hongoing]
        nofun
      cases hrange : old.range with
      | none =>
        refine ⟨{ old with range := some (start, noOffset) },
          ⟨halive, fun state hmem first last hsome => ?_⟩, rfl, _, _, rfl, Nat.le_refl _⟩
        cases hmem
        rw [hrange] at hsome
        cases hsome
      | some range =>
        refine ⟨{ old with range := some (min range.1 start, range.2) },
          ⟨halive, fun state hmem first' last' hsome => ?_⟩, rfl, _, _, rfl, Nat.min_le_right _ _⟩
        cases hmem
        rw [hrange] at hsome
        cases hsome
        exact ⟨_, _, rfl, Nat.min_le_left _ _⟩

theorem prepare_extends (halive : status ≠ .aborted) (h : m.prepare id status = .ok m') :
    ∃ next, Extends (m.state id) next ∧ m' = m.install id next := by
  obtain ⟨next, hchange, rfl⟩ := transition_ok h
  refine ⟨next, ?_, rfl⟩
  cases hstate : m.state id with
  | none =>
    rw [hstate] at hchange
    cases hchange
  | some =>
    rw [hstate] at hchange
    simp only at hchange
    split at hchange
    · cases hchange
    · cases hchange
      refine ⟨halive, fun state hmem first last hrange => ?_⟩
      cases hmem
      exact ⟨first, last, hrange, Nat.le_refl _⟩

theorem holds_retire (hne : id' ≠ id) (h : m.Holds id' first) :
    (m.retireFromLsoIndex id).Holds id' first := by
  refine h.imp_right (fun hpin => ?_)
  rw [retireFromLsoIndex]
  split
  · refine List.mem_filter.mpr ⟨hpin, decide_eq_true (fun heq => hne ?_)⟩
    exact (Prod.mk.inj heq).2
  · exact hpin

theorem state_retire (m : TransactionManager) (id id' : Bytes) :
    (m.retireFromLsoIndex id).state id' = m.state id' := by
  rw [retireFromLsoIndex]
  split <;> rfl

theorem completeWithStatus_ok {endOffset : Option Nat}
    (h : m.completeWithStatus id status endOffset = .ok m') :
    ∃ state state', m.state id = some state ∧ m'.state id = some state' ∧ state'.status = status ∧
      (∀ range, state'.range = some range → ∃ first last, state.range = some (first, last) ∧
        ∀ marker ∈ endOffset, range = (first, marker)) ∧
      (∀ id', id' ≠ id → m'.state id' = m.state id') ∧
      ∀ id', id' ≠ id → ∀ first, m.Holds id' first → m'.Holds id' first := by
  rw [completeWithStatus] at h
  split at h
  · cases h
  · rename_i state hstate
    cases h
    refine ⟨state, { state with
        status
        range := match endOffset with
          | some last => state.range.map (fun (first, _) => (first, last))
          | none => state.range },
      hstate, ?_, rfl, fun range hrange => ?_, fun id' hne => ?_, fun id' hne first hold => ?_⟩
    · rw [state_retire]
      exact lookup_insert _
    · cases endOffset with
      | none => exact ⟨range.1, range.2, hrange, nofun⟩
      | some =>
        obtain ⟨⟨first, last⟩, hsome, rfl⟩ := Option.map_eq_some_iff.mp hrange
        exact ⟨first, last, hsome, fun marker' hmem => by cases hmem; rfl⟩
    · rw [state_retire]
      exact lookup_insert_ne hne
    · exact holds_retire hne hold

theorem state_cleanup_ne (hne : id' ≠ id) :
    (m.cleanupCompletedTransaction id).state id' = m.state id' := by
  rw [cleanupCompletedTransaction]
  split
  · split
    · exact lookup_erase_ne hne
    · rfl
  · rfl

theorem state_of_cleanup {state : TransactionState}
    (h : (m.cleanupCompletedTransaction id).state id' = some state) : m.state id' = some state := by
  by_cases hne : id' = id
  · subst hne
    rw [cleanupCompletedTransaction] at h
    split at h
    · split at h
      · rw [TransactionManager.state, lookup_erase] at h
        cases h
      · exact h
    · exact h
  · rw [state_cleanup_ne hne] at h
    exact h

theorem holds_cleanup (h : m.Holds id' first) :
    (m.cleanupCompletedTransaction id).Holds id' first := by
  rw [cleanupCompletedTransaction]
  split
  · split <;> exact h
  · exact h

theorem mem_abortedRanges {range : Nat × Nat} : range ∈ m.abortedRanges ↔
    ∃ id state, m.state id = some state ∧ state.status = .aborted ∧ state.range = some range := by
  simp only [abortedRanges, List.mem_filterMap]
  constructor
  · rintro ⟨⟨id, state⟩, hmem, hsome⟩
    split at hsome
    · rename_i haborted
      exact ⟨id, state, mem_lookup_iff.mpr hmem, haborted, hsome⟩
    · cases hsome
  · rintro ⟨id, state, hstate, haborted, hrange⟩
    refine ⟨⟨id, state⟩, mem_lookup_iff.mp hstate, ?_⟩
    rw [if_pos haborted, hrange]

end TransactionManager

/-! ## What readers are told -/

def readCommittedFilter (m : TransactionManager) (pm : PartitionManager) : Nat × List (Nat × Nat) :=
  (m.lastStableOffset, ((m.abortedRanges ++ pm.log.abortedRanges).mergeSort (fun a b =>
      a.1 < b.1 || (a.1 = b.1 && a.2 ≤ b.2))).dedup)

/-- A fetch response, decoded down to its entries. -/
structure FetchResponse where
  lastStableOffset : Nat
  aborted : List (Nat × Nat)
  entries : List RecordBatch

def fetchReadCommitted (m : TransactionManager) (pm : PartitionManager)
    (startOffset maxBytes : Nat) : FetchResponse :=
  let (lastStableOffset, aborted) := readCommittedFilter m pm
  { lastStableOffset, aborted, entries := pm.fetchEntries startOffset maxBytes }

/-- The client's side: the records of a response that its reader gets to see. -/
def decodeFetchEntriesRecords (c : Crates) (response : FetchResponse) (startOffset : Nat)
    (dropControlAndAborted : Bool) : List Record :=
  let isAborted (offset : Nat) : Bool :=
    response.aborted.any (fun (first, last) => offset ≥ first && offset ≤ last)
  let excluded (offset : Nat) : Bool :=
    dropControlAndAborted && (offset ≥ response.lastStableOffset || isAborted offset)
  (recordsFromEntries c response.entries).filter (fun r =>
    r.offset ≥ startOffset && !(dropControlAndAborted && (r.isControl || excluded r.offset)))

end Bifrox.Server

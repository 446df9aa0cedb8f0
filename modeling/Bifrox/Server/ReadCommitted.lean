/-
Read-committed readers and any interleaving of transactions.

An abort is recorded as one range of offsets, from the first offset of the transaction to its
marker, and a reader drops whatever lies in the range.
-/
import Bifrox.Segment.Scan
import Bifrox.Segment.Stacked
import Bifrox.Server.Transaction

namespace Bifrox.Server

open Function List Protocol Segment BigEndian TransactionManager PartitionManager

/-! ## The engine -/

/-- What the holder of the gate is in the middle of. -/
inductive Pending where
  | produce (id : Bytes) (request : ProduceRequest)
  | decided (id : Bytes) (abort : Bool)
  | marked (id : Bytes) (abort : Bool) (endOffset : Option Nat)
  | completed (id : Bytes)
deriving DecidableEq

/-- The partition and the transactions on it.  The base offsets of the batches
that each open transaction has stored, and of those whose transaction was aborted,
are kept for the statements only. -/
structure TxEngine where
  partition : PartitionManager
  manager : TransactionManager
  pending : Option Pending
  owned : Bytes → List Nat
  abortedBases : List Nat

inductive TxEvent where
  | produce (request : ProduceRequest) (now : Nat)
  | initProducerId (id : Bytes)
  | beginTransaction (id : Bytes) (producerId : UInt64)
  | addPartition (id : Bytes) (producerId : UInt64) (producerEpoch : Int16)
  | txProduce (id : Bytes) (request : ProduceRequest)
  | txAppend (now : Nat)
  | prepare (id : Bytes) (abort : Bool)
  | mark (timestamp : UInt64) (now : Nat)
  | complete
  | cleanup

def TxEvent.isWhole : TxEvent → Bool
  | .produce _ _ | .txProduce _ _ | .txAppend _ | .mark _ _ => false
  | _ => true

inductive TxProduceError where
  | noProducerId
  | fenced (error : TxError)
  | notActive (id : Bytes)
  | rejected (error : ProduceError)
  | notFound
  | notActiveOrMismatch
deriving DecidableEq

/-- The checks of a transactional produce request, in their order. -/
def TransactionManager.checkTxProduce (c : Crates) (limits : ProduceLimits)
    (m : TransactionManager) (id : Bytes) (r : ProduceRequest) : Except TxProduceError Unit := do
  if m.hasTransactionalProducer id then
    if r.batch.producerId = 0 then throw .noProducerId
    match m.validateTransactionalProducer id r.batch.producerId r.batch.producerEpoch with
    | .error e => throw (.fenced e)
    | .ok () => pure ()
  if m.isOngoing id = false then throw (.notActive id)
  if let some e := r.check c limits then throw (.rejected e)
  match m.state id with
  | none => throw .notFound
  | some state =>
    if state.status ≠ .ongoing ∨
        (r.batch.producerId ≠ 0 ∧ state.producerId ≠ r.batch.producerId) then
      throw .notActiveOrMismatch

namespace TxEngine

def create (config : EngineConfig) (policy : FlushPolicy) (now : Nat) : TxEngine :=
  { partition := .create config policy now, manager := .new, pending := none,
    owned := fun _ => [], abortedBases := [] }

variable (c : Crates)

/-- The second half of a transactional produce: the append, and the registration
of the offset it is answered with. -/
def txAppend (s : TxEngine) (id : Bytes) (r : ProduceRequest) (now : Nat) : TxEngine :=
  let (partition, result) := s.partition.produceBatchEos c r.batch now
  let owned := if result.appended then
      update s.owned id (s.owned id ++ [s.partition.logEndOffset])
    else s.owned
  match answer r.batch.recordCount result with
  | .error _ => { s with partition, owned, pending := none }
  | .ok (first, last) =>
    let partition := partition.flushIfSyncPolicy
    match s.manager.registerPartition id first with
    | .error _ => { s with partition, owned, pending := none }
    | .ok manager =>
      { s with
        partition := partition.advanceCommittedHw (last + 1), manager, owned, pending := none }

def mark (s : TxEngine) (id : Bytes) (abort : Bool) (timestamp : UInt64) (now : Nat) : TxEngine :=
  match s.manager.state id with
  | none => s
  | some state =>
    match state.range with
    | none => { s with pending := some (.marked id abort none) }
    | some (first, _) =>
      let (partition, marker) := s.partition.produceControlMarker c
        (if abort then ctrlAbort else ctrlCommit)
        state.producerId id timestamp now
      let partition := partition.flushDurable
      { s with
        partition := if abort then
            partition.appendAbortedTxn state.producerId first marker.baseOffset
          else partition
        pending := some (.marked id abort (some marker.baseOffset)) }

variable (s : TxEngine)

def complete (id : Bytes) (abort : Bool) (endOffset : Option Nat) : TxEngine :=
  match s.manager.completeWithStatus id (if abort then .aborted else .committed) endOffset with
  | .error _ => s
  | .ok manager =>
    { s with
      manager
      pending := some (.completed id)
      owned := update s.owned id []
      abortedBases := if abort then s.abortedBases ++ s.owned id else s.abortedBases }

def withManager (pending : Option Pending) : Except TxError TransactionManager → TxEngine
  | .ok manager => { s with manager, pending }
  | .error _ => s

/-- One step of the system.  An operation that needs the gate waits while another
one holds it. -/
def step (limits : ProduceLimits) (s : TxEngine) : TxEvent → TxEngine
  | .produce r now => { s with partition := (produceBatchLocal c limits s.partition r now).1 }
  | .initProducerId id =>
    if s.pending = none ∧ s.manager.isOngoing id = false then
      match s.manager.nextProducer id with
      | .ok (manager, producer) =>
        { s with manager := manager.restoreTransactionalProducer id producer }
      | .error _ => s
    else s
  | .beginTransaction id producerId =>
    if s.pending = none then s.withManager none (s.manager.beginTransaction id producerId) else s
  | .addPartition id producerId producerEpoch =>
    if s.pending = none ∧ (s.manager.hasTransactionalProducer id →
        s.manager.validateTransactionalProducer id producerId producerEpoch = .ok ()) then
      s.withManager none (s.manager.addPartition id producerId)
    else s
  | .txProduce id r =>
    if s.pending = none ∧ s.manager.checkTxProduce c limits id r = .ok () then
      s.withManager (some (.produce id r)) (s.manager.registerPartition id s.partition.logEndOffset)
    else s
  | .txAppend now =>
    match s.pending with
    | some (.produce id r) => s.txAppend c id r now
    | _ => s
  | .prepare id abort =>
    if s.pending = none then
      s.withManager (some (.decided id abort))
        (s.manager.prepare id (if abort then .prepareAbort else .prepareCommit))
    else s
  | .mark timestamp now =>
    match s.pending with
    | some (.decided id abort) => s.mark c id abort timestamp now
    | _ => s
  | .complete =>
    match s.pending with
    | some (.marked id abort endOffset) => s.complete id abort endOffset
    | _ => s
  | .cleanup =>
    match s.pending with
    | some (.completed id) =>
      { s with manager := s.manager.cleanupCompletedTransaction id, pending := none }
    | _ => s

/-! ## What a reader should see -/

def visible (startOffset : Nat) (b : RecordBatch) (r : Record) : Bool :=
  startOffset ≤ r.offset ∧ r.isControl = false ∧ r.offset < s.manager.lastStableOffset ∧
    b.baseOffset ∉ s.abortedBases

/-- Every fetch yields exactly the visible records of the entries it returns. -/
def ReadsExactly (s : TxEngine) : Prop :=
  ∀ startOffset maxBytes,
    decodeFetchEntriesRecords c (fetchReadCommitted s.manager s.partition startOffset maxBytes)
      startOffset true =
    (s.partition.fetchEntries startOffset maxBytes).flatMap (fun b =>
      (recordsOf c b).filter (s.visible startOffset b))

def dataOf (s : TxEngine) (P : Nat → Prop) (r : Record) : Prop :=
  ∃ b ∈ s.partition.log.retained, P b.baseOffset ∧ r ∈ recordsOf c b ∧ r.isControl = false

/-- Not of an aborted transaction nor of an open one. -/
def settled (base : Nat) : Prop :=
  base ∉ s.abortedBases ∧ ∀ id, base ∉ s.owned id

def inRange (offset : Nat) : Prop :=
  ∃ range ∈ s.partition.log.abortedRanges, range.1 ≤ offset ∧ offset ≤ range.2

/-- The condition on a step.  When an abort is marked, every settled record lies
below the first offset of the transaction, and its own records do not lie beyond
the log end.  When a commit completes, no record of the transaction lies in an
aborted range. -/
def Undisturbed (s : TxEngine) : TxEvent → Prop
  | .mark _ _ => ∀ id, s.pending = some (.decided id true) →
    ∀ state ∈ s.manager.state id, ∀ first last, state.range = some (first, last) →
      (∀ r, s.dataOf c s.settled r → r.offset < first) ∧
      (∀ r, s.dataOf c (fun base => base ∈ s.owned id) r → r.offset ≤ s.partition.logEndOffset)
  | .complete => ∀ id endOffset, s.pending = some (.marked id false endOffset) →
    ∀ r, s.dataOf c (fun base => base ∈ s.owned id) r → ¬ s.inRange r.offset
  | _ => True

/-- The transaction holds the partition from `bound` on or from further below. -/
def Taken (m : TransactionManager) (id : Bytes) (bound : Nat) : Prop :=
  ∃ state first last, m.state id = some state ∧ state.range = some (first, last) ∧
    first ≤ bound ∧ m.Holds id first

/-- What the holder of the gate relies on. -/
def Prepared (s : TxEngine) : Option Pending → Prop
  | some (.produce id _) => Taken s.manager id s.partition.logEndOffset
  | some (.marked id true endOffset) =>
    (∀ r, s.dataOf c (fun base => base ∈ s.owned id) r → s.inRange r.offset) ∧
    ∀ state first last, s.manager.state id = some state → state.range = some (first, last) →
      ∃ marker ∈ endOffset, (first, marker) ∈ s.partition.log.abortedRanges
  | some (.completed id) => s.owned id = []
  | _ => True

/-- What every state of a run has.  With `strict`, no settled record lies in the range
of an aborted transaction either. -/
structure Settles (strict : Prop) (c : Crates) (s : TxEngine) : Prop where
  stacked : s.partition.log.Stacked
  owned_lt : ∀ id, ∀ base ∈ s.owned id, base < s.partition.logEndOffset
  aborted_lt : ∀ base ∈ s.abortedBases, base < s.partition.logEndOffset
  range_lt : ∀ range ∈ s.partition.log.abortedRanges, range.2 < s.partition.logEndOffset
  held : ∀ id, ∀ base ∈ s.owned id, Taken s.manager id base
  known : ∀ range ∈ s.manager.abortedRanges, range ∈ s.partition.log.abortedRanges
  dropped : ∀ r, s.dataOf c (fun base => base ∈ s.abortedBases) r → s.inRange r.offset
  kept : strict → ∀ r, s.dataOf c s.settled r → ¬ s.inRange r.offset
  prepared : s.Prepared c s.pending

/-! ## Reading -/

variable {strict : Prop} {c : Crates} {limits : ProduceLimits} {s : TxEngine}

variable {id : Bytes}

/-- The last stable offset lies at or below every record of an open transaction. -/
theorem Settles.lastStableOffset_le (h : s.Settles strict c) {base : Nat}
    (hbase : base ∈ s.owned id) : s.manager.lastStableOffset ≤ base := by
  obtain ⟨state, first, last, -, -, hle, hholds⟩ := h.held id base hbase
  exact hholds.lastStableOffset_le.trans hle

variable {b : RecordBatch}

/-- A stable record lies in a range exactly when its transaction was aborted. -/
theorem Settles.inRange_iff (h : s.Settles True c) {r : Record} (hb : b ∈ s.partition.log.retained)
    (hr : r ∈ recordsOf c b) (hdata : r.isControl = false)
    (hstable : r.offset < s.manager.lastStableOffset) :
    s.inRange r.offset ↔ b.baseOffset ∈ s.abortedBases := by
  constructor
  · intro hin
    by_contra hnot
    have hopen : ∃ id, b.baseOffset ∈ s.owned id := by
      by_contra hnone
      exact h.kept trivial r ⟨b, hb, ⟨hnot, not_exists.mp hnone⟩, hr, hdata⟩ hin
    obtain ⟨id, hid⟩ := hopen
    have hlow := h.lastStableOffset_le hid
    have hbase := (base_le_of_mem_recordsOf hr).1
    omega
  · exact fun hmem => h.dropped r ⟨b, hb, hmem, hr, hdata⟩

theorem readsExactly_of_settles (h : s.Settles True c) : s.ReadsExactly c := by
  intro startOffset maxBytes
  rw [decodeFetchEntriesRecords, recordsFromEntries, filter_flatMap]
  refine flatMap_congr (fun b hb => filter_congr (fun r hr => ?_))
  have hretained := SegmentManager.mem_retained_of_mem_fetchEntries hb
  have hany : (fetchReadCommitted s.manager s.partition startOffset maxBytes).aborted.any
      (fun range => r.offset ≥ range.1 && r.offset ≤ range.2) = false ↔ ¬ s.inRange r.offset := by
    rw [← Bool.not_eq_true, any_eq_true, not_iff_not]
    refine exists_congr (fun range => ?_)
    rw [show (fetchReadCommitted s.manager s.partition startOffset maxBytes).aborted =
      (readCommittedFilter s.manager s.partition).2 from rfl, readCommittedFilter, mem_dedup,
      mem_mergeSort, mem_append, or_iff_right_of_imp (h.known range)]
    simp
  have hlso : (fetchReadCommitted s.manager s.partition startOffset maxBytes).lastStableOffset =
    s.manager.lastStableOffset := rfl
  rw [Bool.eq_iff_iff, visible, decide_eq_true_eq]
  simp only [Bool.and_eq_true, Bool.not_eq_true', Bool.true_and, Bool.or_eq_false_iff,
    decide_eq_true_eq, decide_eq_false_iff_not, hlso, ge_iff_le, not_le]
  rw [hany]
  refine and_congr_right
    (fun _ => and_congr_right (fun hdata => and_congr_right (fun hstable => ?_)))
  exact not_congr (h.inRange_iff hretained hr hdata hstable)

/-! ## Appending -/

variable {pm : PartitionManager}

theorem Settles.of_log (h : s.Settles strict c) (hlog : pm.log = s.partition.log) :
    { s with partition := pm }.Settles strict c := by
  cases pm
  subst hlog
  exact { h with }

variable {m : TransactionManager}

theorem Taken.mono {bound bound' : Nat} (h : Taken m id bound) (hle : bound ≤ bound') :
    Taken m id bound' := by
  obtain ⟨state, first, last, hstate, hrange, hfirst, hholds⟩ := h
  exact ⟨state, first, last, hstate, hrange, hfirst.trans hle, hholds⟩

structure Grown (s : TxEngine) (log : SegmentManager) (b : RecordBatch) : Prop where
  stacked : log.Stacked
  base : b.baseOffset = s.partition.logEndOffset
  retained : log.retained = s.partition.log.retained ++ [b]
  logEnd : log.highWatermark = b.lastOffset + 1
  ranges : ∀ range, range ∈ log.abortedRanges ↔ range ∈ s.partition.log.abortedRanges

theorem Grown.lt {log : SegmentManager} (h : Grown s log b) :
    s.partition.logEndOffset < log.highWatermark := by
  have hle := base_le_lastOffset b
  have hbase := h.base
  have hend := h.logEnd
  omega

theorem Grown.inRange_iff {s s' : TxEngine} (h : Grown s s'.partition.log b) (offset : Nat) :
    s'.inRange offset ↔ s.inRange offset :=
  exists_congr (fun range => and_congr_left' (h.ranges range))

theorem Grown.dataOf {s s' : TxEngine} (h : Grown s s'.partition.log b) {P : Nat → Prop}
    {r : Record} (hr : s'.dataOf c P r) :
    s.dataOf c P r ∨ P s.partition.logEndOffset ∧ s.partition.logEndOffset ≤ r.offset ∧
      r ∈ recordsOf c b ∧ r.isControl = false := by
  obtain ⟨b', hb', hP, hmem, hdata⟩ := hr
  rw [h.retained] at hb'
  rcases mem_append.mp hb' with hb' | hb'
  · exact .inl ⟨b', hb', hP, hmem, hdata⟩
  · rw [mem_singleton.mp hb'] at hP hmem
    rw [h.base] at hP
    exact .inr ⟨hP, h.base ▸ (base_le_of_mem_recordsOf hmem).1, hmem, hdata⟩

variable {pending : Option Pending} {next : TransactionState} {r : ProduceRequest}
  {now first last : Nat} {abort : Bool}

section

variable (h : s.Settles strict c)
include h

theorem Settles.grow (hgrown : Grown s pm.log b) {owned : Bytes → List Nat}
    (hsub : ∀ id, ∀ base ∈ s.owned id, base ∈ owned id)
    (hnew : ∀ id, ∀ base ∈ owned id, base ∈ s.owned id ∨
      base = s.partition.logEndOffset ∧ Taken s.manager id base)
    (hpending : { s with partition := pm, owned, pending }.Prepared c pending) :
    { s with partition := pm, owned, pending }.Settles strict c := by
  have hlt := hgrown.lt
  have hgrown' : Grown s ({ s with partition := pm, owned, pending } : TxEngine).partition.log b :=
    hgrown
  refine ⟨hgrown.stacked, fun id base hbase => ?_, fun base hbase => ?_, fun range hrange => ?_,
    fun id base hbase => ?_, fun range hrange => ?_, fun r hr => ?_,
    fun hstrict r hr => ?_, hpending⟩
  · rcases hnew id base hbase with hold | ⟨rfl, -⟩
    · exact (h.owned_lt id base hold).trans hlt
    · exact hlt
  · exact (h.aborted_lt base hbase).trans hlt
  · exact (h.range_lt range ((hgrown.ranges range).mp hrange)).trans hlt
  · rcases hnew id base hbase with hold | ⟨-, htaken⟩
    · exact h.held id base hold
    · exact htaken
  · exact (hgrown.ranges range).mpr (h.known range hrange)
  · rw [hgrown'.inRange_iff]
    rcases hgrown'.dataOf hr with hold | ⟨hmem, -⟩
    · exact h.dropped r hold
    · exact absurd (h.aborted_lt _ hmem) (Nat.lt_irrefl _)
  · rw [hgrown'.inRange_iff]
    rcases hgrown'.dataOf hr with hold | ⟨-, hoffset, -⟩
    · obtain ⟨b, hb, hbase, hrest⟩ := hold
      exact h.kept hstrict r ⟨b, hb, ⟨hbase.1, fun id hid => hbase.2 id (hsub id _ hid)⟩, hrest⟩
    · -- every range ends below the batch
      rintro ⟨range, hrange, -, hle⟩
      have hend := h.range_lt range hrange
      omega

theorem Settles.prepared_grow (hgrown : Grown s pm.log b) :
    { s with partition := pm }.Prepared c s.pending := by
  have hprepared := h.prepared
  have hgrown' : Grown s ({ s with partition := pm } : TxEngine).partition.log b := hgrown
  cases hpending : s.pending with
  | none => trivial
  | some pending =>
    rw [hpending] at hprepared
    cases pending with
    | produce => exact Taken.mono hprepared (Nat.le_of_lt hgrown.lt)
    | decided => trivial
    | completed => exact hprepared
    | marked id abort =>
      cases abort with
      | false => trivial
      | true =>
        refine ⟨fun r hr => ?_, fun state first last hstate hrange => ?_⟩
        · refine (hgrown'.inRange_iff r.offset).mpr ?_
          rcases hgrown'.dataOf hr with hold | ⟨hmem, -⟩
          · exact hprepared.1 r hold
          · exact absurd (h.owned_lt id _ hmem) (Nat.lt_irrefl _)
        · obtain ⟨marker, hmarker, hmem⟩ := hprepared.2 state first last hstate hrange
          exact ⟨marker, hmarker, (hgrown.ranges _).mpr hmem⟩

theorem Settles.grown_append {batch : RecordBatch} {leaderEpoch : UInt32} :
    let r := s.partition.log.appendBatch c batch leaderEpoch now
    Grown s r.1 r.2 := by
  have hbase : (s.partition.log.appendBatch c batch leaderEpoch now).2.baseOffset =
    s.partition.log.highWatermark := rfl
  obtain ⟨hstacked, hretained⟩ := h.stacked.append hbase
    (s.partition.log.appendBatch c batch leaderEpoch now).2.encodedSize now
  exact ⟨hstacked, rfl, hretained, rfl, SegmentManager.mem_abortedRanges_append _ _ _ _⟩

theorem Settles.produceBatchEos_cases (batch : RecordBatch) (now : Nat) :
    (s.partition.produceBatchEos c batch now).1.log = s.partition.log ∧
        (s.partition.produceBatchEos c batch now).2.appended = false ∨
      ∃ b, Grown s (s.partition.produceBatchEos c batch now).1.log b := by
  rcases Server.produceBatchEos_cases c s.partition batch now with ⟨-, e, -, heq⟩ | ⟨-, heq⟩ <;>
    rw [heq]
  · exact .inl ⟨rfl, appended_refusal⟩
  · rw [storeBatch_log]
    exact .inr ⟨_, h.grown_append⟩

theorem Settles.produceBatchLocal_cases :
    (produceBatchLocal c limits s.partition r now).1.log = s.partition.log ∨
      ∃ b, Grown s (produceBatchLocal c limits s.partition r now).1.log b := by
  cases hcheck : r.check c limits with
  | some =>
    rw [produceBatchLocal, hcheck]
    exact .inl rfl
  | none =>
    rw [(produceBatchLocal_of_check s.partition hcheck now).1]
    exact (h.produceBatchEos_cases r.batch now).imp_left And.left

theorem settles_produce : (s.step c limits (.produce r now)).Settles strict c := by
  show Settles strict c { s with partition := (produceBatchLocal c limits s.partition r now).1 }
  rcases h.produceBatchLocal_cases with hsame | ⟨b, hgrown⟩
  · exact h.of_log hsame
  · exact h.grow hgrown (fun _ _ hbase => hbase) (fun _ _ hbase => .inl hbase)
      (h.prepared_grow hgrown)

end

/-! ## Transitions of the manager -/

theorem Taken.install {id' : Bytes} {bound : Nat}
    (h : Taken m id' bound) (hext : TransactionManager.Extends (m.state id) next) :
    Taken (m.install id next) id' bound := by
  obtain ⟨state, first, last, hstate, hrange, hle, hholds⟩ := h
  by_cases hid : id' = id
  · subst hid
    obtain ⟨first', last', hrange', hle'⟩ := hext.first_le state hstate first last hrange
    exact ⟨next, first', last', m.state_install_self, hrange', hle'.trans hle,
      holds_install_self hrange'⟩
  · refine ⟨state, first, last, ?_, hrange, hle, holds_install hholds⟩
    rw [m.state_install_ne hid]
    exact hstate

theorem Settles.install (h : s.Settles strict c)
    (hext : TransactionManager.Extends (s.manager.state id) next)
    (hpending : { s with manager := s.manager.install id next, pending }.Prepared c pending) :
    { s with manager := s.manager.install id next, pending }.Settles strict c := by
  refine { h with
    held := fun id' base hbase => (h.held id' base hbase).install hext
    known := fun range hrange => ?_
    prepared := hpending }
  obtain ⟨id', state, hstate, haborted, hsome⟩ := mem_abortedRanges.mp hrange
  by_cases hid : id' = id
  · subst hid
    rw [s.manager.state_install_self] at hstate
    cases hstate
    exact absurd haborted hext.alive
  · rw [s.manager.state_install_ne hid] at hstate
    exact h.known range (mem_abortedRanges.mpr ⟨id', state, hstate, haborted, hsome⟩)

theorem Settles.register (h : s.Settles strict c) {start : Nat}
    (hm : s.manager.registerPartition id start = .ok m)
    (hpending : Taken m id start → { s with manager := m, pending }.Prepared c pending) :
    { s with manager := m, pending }.Settles strict c := by
  obtain ⟨next, hext, rfl, first, last, hrange, hle⟩ :=
    registerPartition_extends hm
  refine h.install hext (hpending ?_)
  exact ⟨next, first, last, s.manager.state_install_self, hrange, hle,
    holds_install_self hrange⟩

theorem Settles.release (h : s.Settles strict c) : { s with pending := none }.Settles strict c :=
  { h with prepared := trivial }

def stored (c : Crates) (s : TxEngine) (id : Bytes) (r : ProduceRequest) (now : Nat) : TxEngine :=
  { s with
    partition := (s.partition.produceBatchEos c r.batch now).1
    owned := if (s.partition.produceBatchEos c r.batch now).2.appended then
        update s.owned id (s.owned id ++ [s.partition.logEndOffset])
      else s.owned
    pending := none }

theorem mem_update_concat {owned : Bytes → List Nat} {id id' : Bytes} {base new : Nat} :
    base ∈ update owned id (owned id ++ [new]) id' ↔ base ∈ owned id' ∨ id' = id ∧ base = new := by
  by_cases hid : id' = id
  · subst hid
    simp
  · simp [hid]

theorem mem_update_nil {owned : Bytes → List Nat} {id id' : Bytes} {base : Nat} :
    base ∈ update owned id [] id' ↔ id' ≠ id ∧ base ∈ owned id' := by
  by_cases hid : id' = id <;> simp [hid]

theorem settles_stored (h : s.Settles strict c) (hpending : s.pending = some (.produce id r))
    (now : Nat) : (s.stored c id r now).Settles strict c := by
  have htaken : Taken s.manager id s.partition.logEndOffset := by
    have hprepared := h.prepared
    rw [hpending] at hprepared
    exact hprepared
  rw [stored]
  rcases h.produceBatchEos_cases r.batch now with ⟨hsame, hno⟩ | ⟨b, hgrown⟩
  · rw [hno]
    exact h.release.of_log hsame
  · refine h.grow hgrown (fun id' base hbase => ?_) (fun id' base hbase => ?_) trivial
    · split
      · exact mem_update_concat.mpr (.inl hbase)
      · exact hbase
    · split at hbase
      · rcases mem_update_concat.mp hbase with hold | ⟨rfl, rfl⟩
        · exact .inl hold
        · exact .inr ⟨rfl, htaken⟩
      · exact .inl hbase

theorem settles_txAppend (h : s.Settles strict c) (hpending : s.pending = some (.produce id r)) :
    (s.txAppend c id r now).Settles strict c := by
  have hstored := settles_stored h hpending now
  rw [txAppend]
  simp only
  split
  · exact hstored
  · have hflushed := hstored.of_log (flushIfSyncPolicy_log
      (s.partition.produceBatchEos c r.batch now).1).1
    split
    · exact hflushed
    · rename_i m hm
      refine Settles.of_log (hflushed.register hm (fun _ => ?_)) (advanceCommittedHw_log _ _).1
      trivial

/-! ## The end of a transaction -/

theorem Settles.addRange (h : s.Settles strict c) {producerId : UInt64}
    (hlog : pm.log = s.partition.log.appendAbortedTxn producerId first last)
    (hlast : last < s.partition.logEndOffset)
    (hclear : strict → ∀ r, s.dataOf c s.settled r → r.offset < first ∨ last < r.offset)
    (hpending : { s with partition := pm, pending }.Prepared c pending) :
    { s with partition := pm, pending }.Settles strict c := by
  obtain ⟨hstacked, hretained⟩ := h.stacked.appendAbortedTxn producerId first last
  have hmem := s.partition.log.mem_abortedRanges_appendAbortedTxn producerId first last
  have hend := (s.partition.log.appendAbortedTxn_end producerId first last).1
  rw [← hlog] at hstacked hretained hmem hend
  have hdata : ∀ P r, ({ s with partition := pm, pending } : TxEngine).dataOf c P r ↔
      s.dataOf c P r := by
    intro P r
    refine exists_congr (fun b => and_congr_left' ?_)
    show b ∈ pm.log.retained ↔ _
    rw [hretained]
  have hlogEnd : pm.logEndOffset = s.partition.logEndOffset := hend
  refine ⟨hstacked, fun id base hbase => ?_, fun base hbase => ?_, fun range hrange => ?_, h.held,
    fun range hrange => (hmem range).mpr (.inl (h.known range hrange)), fun r hr => ?_,
    fun hstrict r hr => ?_, hpending⟩
  · rw [hlogEnd]
    exact h.owned_lt id base hbase
  · rw [hlogEnd]
    exact h.aborted_lt base hbase
  · rw [hlogEnd]
    rcases (hmem range).mp hrange with hold | rfl
    · exact h.range_lt range hold
    · exact hlast
  · obtain ⟨range, hrange, hin⟩ := h.dropped r ((hdata _ r).mp hr)
    exact ⟨range, (hmem range).mpr (.inl hrange), hin⟩
  · rintro ⟨range, hrange, hin⟩
    have hold := (hdata _ r).mp hr
    rcases (hmem range).mp hrange with hrange | rfl
    · exact h.kept hstrict r hold ⟨range, hrange, hin⟩
    · have hout := hclear hstrict r hold
      omega

theorem Settles.grown_marker (h : s.Settles strict c) (controlType : UInt8) (producerId : UInt64)
    (id : Bytes) (timestamp : UInt64) (now : Nat) :
    let r := s.partition.produceControlMarker c controlType producerId id timestamp now
    Grown s r.1.log r.2 ∧ r.2.isControl = true := by
  refine ⟨?_, RecordBatch.isControl_setControl c _⟩
  rw [produceControlMarker]
  simp only [(advanceCommittedHw_log _ _).1]
  exact h.grown_append

variable {state : TransactionState}

section

variable (h : s.Settles strict c)
include h

section

variable (hstate : s.manager.state id = some state) {marker : RecordBatch}
include hstate

theorem Settles.first_le {base : Nat} (hbase : base ∈ s.owned id) :
    ∃ first last, state.range = some (first, last) ∧ first ≤ base := by
  obtain ⟨state', first, last, hstate', hrange, hle, -⟩ := h.held id base hbase
  rw [hstate] at hstate'
  cases hstate'
  exact ⟨first, last, hrange, hle⟩

theorem Settles.mem_range (hrange : state.range = some (first, last))
    (hwithin : ∀ r, s.dataOf c (fun base => base ∈ s.owned id) r →
      r.offset ≤ s.partition.logEndOffset) {s' : TxEngine}
    (hgrown : Grown s s'.partition.log marker) {r : Record}
    (hr : s'.dataOf c (fun base => base ∈ s.owned id) r) :
    first ≤ r.offset ∧ r.offset ≤ marker.baseOffset := by
  rcases hgrown.dataOf hr with hold | ⟨howned, -⟩
  · obtain ⟨b, hb, hbase, hmem, hdata⟩ := hold
    obtain ⟨first', last', hrange', hle⟩ := h.first_le hstate hbase
    rw [hrange] at hrange'
    cases hrange'
    refine ⟨hle.trans (base_le_of_mem_recordsOf hmem).1, ?_⟩
    rw [hgrown.base]
    exact hwithin r ⟨b, hb, hbase, hmem, hdata⟩
  · exact absurd (h.owned_lt id _ howned) (Nat.lt_irrefl _)

theorem Settles.mark_abort (hrange : state.range = some (first, last))
    (hbelow : strict → ∀ r, s.dataOf c s.settled r → r.offset < first)
    (hwithin : ∀ r, s.dataOf c (fun base => base ∈ s.owned id) r →
      r.offset ≤ s.partition.logEndOffset) (hgrown : Grown s pm.log marker)
    (hcontrol : marker.isControl = true) :
    Settles strict c { s with
      partition := pm.appendAbortedTxn state.producerId first marker.baseOffset
      pending := some (.marked id true (some marker.baseOffset)) } := by
  have hgrow : Settles strict c { s with partition := pm, pending := none } :=
    h.grow hgrown (fun _ _ hbase => hbase) (fun _ _ hbase => .inl hbase) trivial
  have hgrown' : Grown s ({ s with partition := pm, pending := none } :
    TxEngine).partition.log marker := hgrown
  have hmem := (pm.log.mem_abortedRanges_appendAbortedTxn state.producerId first
    marker.baseOffset (first, marker.baseOffset)).mpr (.inr rfl)
  have hretained := (hgrown.stacked.appendAbortedTxn state.producerId first marker.baseOffset).2
  refine hgrow.addRange rfl ?_ (fun hstrict r hr => .inl ?_) ⟨fun r hr => ⟨_, hmem, ?_⟩, ?_⟩
  · rw [hgrown.base]
    exact hgrown.lt
  · rcases hgrown'.dataOf hr with hold | ⟨-, -, hmarker, hdata⟩
    · exact hbelow hstrict r hold
    · rw [(base_le_of_mem_recordsOf hmarker).2, hcontrol] at hdata
      cases hdata
  · obtain ⟨b, hb, hrest⟩ := hr
    exact h.mem_range hstate hrange hwithin hgrown' ⟨b, hretained ▸ hb, hrest⟩
  · intro state' first' last' hstate' hrange'
    have hsame : some state' = some state := hstate'.symm.trans hstate
    cases hsame
    rw [hrange] at hrange'
    cases hrange'
    exact ⟨_, rfl, hmem⟩

theorem Settles.mark_none (hrange : state.range = none) :
    Settles strict c { s with pending := some (.marked id abort none) } := by
  have hnone : ∀ base, base ∉ s.owned id := by
    intro base hbase
    obtain ⟨first, last, hsome, -⟩ := h.first_le hstate hbase
    rw [hrange] at hsome
    cases hsome
  refine { h with prepared := ?_ }
  cases abort with
  | false => trivial
  | true =>
    refine ⟨fun r ⟨b, _, hbase, _⟩ => absurd hbase (hnone _), fun state' first last hs hr => ?_⟩
    have hsame : some state' = some state := hs.symm.trans hstate
    cases hsame
    rw [hrange] at hr
    cases hr

end

theorem settles_mark {timestamp : UInt64}
    (hcond : abort = true → ∀ state ∈ s.manager.state id, ∀ first last,
      state.range = some (first, last) → (strict → ∀ r, s.dataOf c s.settled r → r.offset < first) ∧
        (∀ r, s.dataOf c (fun base => base ∈ s.owned id) r →
          r.offset ≤ s.partition.logEndOffset)) :
    (s.mark c id abort timestamp now).Settles strict c := by
  rw [mark]
  cases hstate : s.manager.state id with
  | none => exact h
  | some state =>
    simp only
    cases hrange : state.range with
    | none => exact h.mark_none hstate hrange
    | some range =>
      obtain ⟨first, last⟩ := range
      cases abort with
      | false =>
        have hgrown := (h.grown_marker ctrlCommit state.producerId id timestamp now).1
        have hgrow : Settles strict c { s with
            partition := (s.partition.produceControlMarker c ctrlCommit
              state.producerId id timestamp now).1
            pending := some (.marked id false (some (s.partition.produceControlMarker c
              ctrlCommit state.producerId id timestamp now).2.baseOffset)) } :=
          h.grow hgrown (fun _ _ hbase => hbase) (fun _ _ hbase => .inl hbase) trivial
        exact hgrow.of_log rfl
      | true =>
        obtain ⟨hbelow, hwithin⟩ := hcond rfl state hstate first last hrange
        obtain ⟨hgrown, hcontrol⟩ := h.grown_marker ctrlAbort state.producerId id timestamp now
        exact (h.mark_abort hstate hrange hbelow hwithin hgrown hcontrol).of_log rfl

end

theorem Taken.of_other {m' : TransactionManager} {bound : Nat} (h : Taken m id bound)
    (hstate : m'.state id = m.state id) (hholds : ∀ first, m.Holds id first → m'.Holds id first) :
    Taken m' id bound := by
  obtain ⟨state, first, last, hsome, hrange, hle, hold⟩ := h
  exact ⟨state, first, last, hstate.trans hsome, hrange, hle, hholds first hold⟩

/-- The transaction is over.  An aborted one leaves its records to be dropped, and
those of a committed one are settled from now on. -/
theorem settles_complete (h : s.Settles strict c) {endOffset : Option Nat}
    (hpending : s.pending = some (.marked id abort endOffset))
    (hcond : strict → abort = false → ∀ r, s.dataOf c (fun base => base ∈ s.owned id) r →
      ¬ s.inRange r.offset) : (s.complete id abort endOffset).Settles strict c := by
  have hprepared := h.prepared
  rw [hpending] at hprepared
  rw [complete]
  split
  · exact h
  · rename_i m hm
    obtain ⟨state, state', hstate, hstate', hstatus, hrange, hother, hholds⟩ :=
      completeWithStatus_ok hm
    refine ⟨h.stacked, fun id' base hbase => h.owned_lt id' base (mem_update_nil.mp hbase).2,
      fun base hbase => ?_, h.range_lt, fun id' base hbase => ?_, fun range hmem => ?_,
      fun r hr => ?_, fun hstrict r hr hin => ?_, update_self ..⟩
    · simp only at hbase
      split at hbase
      · rcases mem_append.mp hbase with hbase | hbase
        · exact h.aborted_lt base hbase
        · exact h.owned_lt id base hbase
      · exact h.aborted_lt base hbase
    · obtain ⟨hid, hold⟩ := mem_update_nil.mp hbase
      exact (h.held id' base hold).of_other (hother id' hid) (hholds id' hid)
    · obtain ⟨id', other, hsome, haborted, hrng⟩ := mem_abortedRanges.mp hmem
      by_cases hid : id' = id
      · subst hid
        rw [hstate'] at hsome
        cases hsome
        cases abort with
        | false =>
          rw [hstatus] at haborted
          cases haborted
        | true =>
          obtain ⟨first, last, hold, hmarker⟩ := hrange range hrng
          obtain ⟨marker, hend, hin⟩ := hprepared.2 state first last hstate hold
          rw [hmarker marker hend]
          exact hin
      · rw [hother id' hid] at hsome
        exact h.known range (mem_abortedRanges.mpr ⟨id', other, hsome, haborted, hrng⟩)
    · obtain ⟨b, hb, hbase, hmem, hdata⟩ := hr
      cases abort with
      | false => exact h.dropped r ⟨b, hb, hbase, hmem, hdata⟩
      | true =>
        rcases mem_append.mp hbase with hbase | hbase
        · exact h.dropped r ⟨b, hb, hbase, hmem, hdata⟩
        · exact hprepared.1 r ⟨b, hb, hbase, hmem, hdata⟩
    · obtain ⟨b, hb, ⟨hnot, hnone⟩, hmem, hdata⟩ := hr
      by_cases hown : b.baseOffset ∈ s.owned id
      · cases abort with
        | false => exact hcond hstrict rfl r ⟨b, hb, hown, hmem, hdata⟩ hin
        | true => exact hnot (mem_append_right _ hown)
      · refine h.kept hstrict r ⟨b, hb, ⟨fun haborted => hnot ?_, fun id' => ?_⟩, hmem, hdata⟩ hin
        · cases abort with
          | false => exact haborted
          | true => exact mem_append_left _ haborted
        · by_cases hid : id' = id
          · subst hid
            exact hown
          · exact fun hbase => hnone id' (mem_update_nil.mpr ⟨hid, hbase⟩)

theorem settles_cleanup (h : s.Settles strict c) (hpending : s.pending = some (.completed id)) :
    { s with manager := s.manager.cleanupCompletedTransaction id, pending := none }.Settles
      strict c := by
  have hnone : s.owned id = [] := by
    have hprepared := h.prepared
    rw [hpending] at hprepared
    exact hprepared
  refine { h with
    held := fun id' base hbase => ?_
    known := fun range hmem => ?_
    prepared := trivial }
  · have hid : id' ≠ id := by
      rintro rfl
      rw [show ({ s with manager := _, pending := none } : TxEngine).owned id' =
        s.owned id' from rfl, hnone] at hbase
      cases hbase
    exact (h.held id' base hbase).of_other (state_cleanup_ne hid)
      (fun first hold => holds_cleanup hold)
  · obtain ⟨id', state, hsome, haborted, hrng⟩ := mem_abortedRanges.mp hmem
    exact h.known range (mem_abortedRanges.mpr ⟨id', state, state_of_cleanup hsome, haborted, hrng⟩)

/-! ## Runs -/

theorem settles_whole {e : TxEvent} (he : e.isWhole = true) (h : s.Settles strict c)
    (hcond : strict → s.Undisturbed c e) : (s.step c limits e).Settles strict c := by
  cases e with
  | initProducerId =>
    rw [step]
    split
    · split
      · rename_i m producer hm
        unfold nextProducer nextTransactionalProducer at hm
        split at hm
        · cases hm
          exact { h with }
        · split at hm
          · split at hm <;> cases hm
            exact { h with }
          · cases hm
            exact { h with }
      · exact h
    · exact h
  | beginTransaction id producerId =>
    rw [step]
    split
    · cases hm : s.manager.beginTransaction id producerId with
      | error => exact h
      | ok =>
        obtain ⟨next, hext, rfl⟩ := beginTransaction_extends hm
        exact h.install hext trivial
    · exact h
  | addPartition id producerId =>
    rw [step]
    split
    · cases hm : s.manager.addPartition id producerId with
      | error => exact h
      | ok =>
        obtain ⟨next, hext, rfl⟩ := addPartition_extends hm
        exact h.install hext trivial
    · exact h
  | prepare id abort =>
    rw [step]
    split
    · cases hm : s.manager.prepare id (if abort then .prepareAbort else .prepareCommit) with
      | error => exact h
      | ok =>
        have halive : (if abort then TxStatus.prepareAbort else .prepareCommit) ≠ .aborted := by
          cases abort with
          | true => nofun
          | false => nofun
        obtain ⟨next, hext, rfl⟩ := prepare_extends halive hm
        exact h.install hext trivial
    · exact h
  | complete =>
    rw [step]
    split
    · rename_i id abort endOffset hpending
      refine settles_complete h hpending (fun hstrict habort => ?_)
      subst habort
      exact hcond hstrict id endOffset hpending
    · exact h
  | cleanup =>
    rw [step]
    split
    · rename_i id hpending
      exact settles_cleanup h hpending
    · exact h
  | _ => cases he

theorem settles_step (s : TxEngine) (e : TxEvent) (h : s.Settles True c)
    (hcond : s.Undisturbed c e) : (s.step c limits e).Settles True c := by
  cases he : e.isWhole with
  | true => exact settles_whole he h (fun _ => hcond)
  | false =>
    cases e with
    | produce r now => exact settles_produce h
    | txProduce id =>
      rw [step]
      split
      · cases hm : s.manager.registerPartition id s.partition.logEndOffset with
        | error => exact h
        | ok => exact h.register hm (fun htaken => htaken)
      · exact h
    | txAppend =>
      rw [step]
      split
      · exact settles_txAppend h (by assumption)
      · exact h
    | mark =>
      rw [step]
      split
      · rename_i id abort hpending
        refine settles_mark h (fun habort state hstate first last hrange => ?_)
        subst habort
        obtain ⟨hbelow, hwithin⟩ := hcond id hpending state hstate first last hrange
        exact ⟨fun _ => hbelow, hwithin⟩
      · exact h
    | _ => cases he

theorem settles_create {config : EngineConfig} {policy : FlushPolicy} :
    (create config policy now).Settles strict c := by
  refine ⟨SegmentManager.Stacked.create config now, nofun, nofun, nofun, nofun, nofun, ?_,
    ?_, trivial⟩
  · rintro r ⟨b, -, hbase, -⟩
    cases hbase
  · rintro - r ⟨b, hb, -⟩
    cases hb

/-- Readers see exactly the records they should throughout a run in which no
settled record lies in the range of an aborted transaction. -/
theorem readsExactly_of_undisturbed (c : Crates) (limits : ProduceLimits) (config : EngineConfig)
    (policy : FlushPolicy) (now : Nat) (events : List TxEvent)
    (h : Run.Guarded (step c limits) (Undisturbed c) (create config policy now) events) :
    Run.Always (step c limits) (ReadsExactly c) (create config policy now) events :=
  h.always (fun _ => readsExactly_of_settles) settles_step settles_create

theorem undisturbed_mark {timestamp : UInt64} (hpending : s.pending = some (.decided id true))
    (hstate : s.manager.state id = some state) (hrange : state.range = some (first, last))
    (hbatches : ∀ b ∈ s.partition.log.retained, b.baseOffset ∈ s.owned id ∨
      b.baseOffset ∈ s.abortedBases ∨ ∀ r ∈ recordsOf c b, r.offset < first)
    (hwithin : ∀ b ∈ s.partition.log.retained, ∀ r ∈ recordsOf c b,
      r.offset ≤ s.partition.logEndOffset) : s.Undisturbed c (.mark timestamp now) := by
  intro id' hpending' state' hstate' first' last' hrange'
  rw [hpending] at hpending'
  cases hpending'
  rw [hstate] at hstate'
  cases hstate'
  rw [hrange] at hrange'
  cases hrange'
  constructor
  · rintro r ⟨b, hb, ⟨haborted, hopen⟩, hr, -⟩
    rcases hbatches b hb with howned | hmem | hbelow
    · exact absurd howned (hopen id)
    · exact absurd hmem haborted
    · exact hbelow r hr
  · rintro r ⟨b, hb, -, hr, -⟩
    exact hwithin b hb r hr

/-- A transaction stores a record after one of no transaction, and is aborted. -/
def abortedAfter : List TxEvent :=
  [.produce ⟨numbered 0 0 1, 1⟩ 0, .beginTransaction [1] 7, .txProduce [1] ⟨numbered 7 0 1, 1⟩,
    .txAppend 0, .prepare [1] true, .mark 0 0, .complete, .cleanup, .produce ⟨numbered 0 0 1, 1⟩ 0]

theorem readsExactly_abortedAfter :
    Run.Always (step .storing unlimited) (ReadsExactly .storing) (create .plain .syncEveryBatch 0)
      abortedAfter := by
  apply readsExactly_of_undisturbed
  have hdecided : (Run.run (step .storing unlimited) (create .plain .syncEveryBatch 0)
      (abortedAfter.take 5)).pending = some (.decided [1] true) := by
    decide +kernel
  have hstate : (Run.run (step .storing unlimited) (create .plain .syncEveryBatch 0)
      (abortedAfter.take 5)).manager.state [1] =
        some { producerId := 7, status := .prepareAbort, range := some (1, noOffset) } := by
    decide +kernel
  have hmarked : (Run.run (step .storing unlimited) (create .plain .syncEveryBatch 0)
      (abortedAfter.take 6)).pending = some (.marked [1] true (some 2)) := by
    decide +kernel
  refine ⟨trivial, trivial, trivial, trivial, trivial, ?_, ?_, trivial, trivial, trivial⟩
  · exact undisturbed_mark hdecided hstate rfl (by decide +kernel) (by decide +kernel)
  · intro id endOffset hpending
    cases hmarked.symm.trans hpending

/-- A record of no transaction between the record of an aborted one and its
marker. -/
theorem not_readsExactly_between : ¬ Run.Always (step .storing unlimited) (ReadsExactly .storing)
      (create .plain .syncEveryBatch 0)
      [.beginTransaction [1] 7, .txProduce [1] ⟨numbered 7 0 1, 1⟩, .txAppend 0,
        .produce ⟨numbered 0 0 1, 1⟩ 0, .prepare [1] true, .mark 0 0, .complete, .cleanup] := by
  rintro ⟨-, -, -, -, -, -, -, -, hread⟩
  have hlength := congrArg List.length (hread 0 1000)
  exact absurd hlength (by decide +kernel)

end TxEngine

end Bifrox.Server

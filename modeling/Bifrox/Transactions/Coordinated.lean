/-
Transactions that the controllers of a cluster decide
(`src/server/engine/distributed_transactions.rs`).

A controller reads the state that it has applied, changes it and proposes the result; the barrier
before the proposal makes it apply more of the log, but does not make it read again.

A transaction instance is known by the offset of the record that began it.  The log holds the
records about transactions only.  The revision of a record is one more than the end of the
controller's log, so it is above every revision that it has applied.
-/
import Bifrox.Lib.Journal
import Bifrox.Metadata.Equivalence
import Bifrox.Transactions.Manager

namespace Bifrox.Transactions

open Function Option
open Journal (Legal Fresh getElem?_snoc_eq_some)
open Metadata (Broker Engine PartitionRange TransactionState TopicConfig)
open Run (run Guarded)
open Server (EngineSettings TopicError TxStatus TransactionalProducerState validateClientTopicName)

/-! ## The log and what a node has applied -/

structure Entry where
  revision : UInt64
  state : TransactionState
  /-- The offset of the record that began the transaction, unless this one did. -/
  origin : Option Nat

namespace Entry

def id (e : Entry) : Text := e.state.record.transactionId

def status (e : Entry) : TxStatus := e.state.record.status

/-- The instance of the record at an offset. -/
def instanceAt (e : Entry) (offset : Nat) : Nat := e.origin.getD offset

theorem instanceAt_of_none {e : Entry} (h : e.origin = none) (offset : Nat) :
    e.instanceAt offset = offset := by
  rw [instanceAt, h]
  rfl

theorem instanceAt_of_some {e : Entry} {origin : Nat} (h : e.origin = some origin) (offset : Nat) :
    e.instanceAt offset = origin := by
  rw [instanceAt, h]
  rfl

end Entry

/-- The state of a transaction that a node knows. -/
structure Known where
  revision : UInt64
  state : TransactionState
  origin : Nat

def Known.status (k : Known) : TxStatus := k.state.record.status

structure View where
  applied : Nat
  known : Text → Option Known

namespace View

def start : View where
  applied := 0
  known := fun _ => none

def install (v : View) (e : Entry) : View where
  applied := v.applied + 1
  known :=
    if (v.known e.id).any (e.revision ≤ ·.revision) then v.known
    else update v.known e.id (some ⟨e.revision, e.state, e.instanceAt v.applied⟩)

end View

def viewOf (log : List Entry) : View := run View.install .start log

/-- The engine has the states and the revisions of a view. -/
structure View.Mirrors (v : View) (s : Engine) : Prop where
  states : ∀ id, s.transactions.lookup id = (v.known id).map (·.state)
  revisions : ∀ id, s.transactionRevisions.lookup id = (v.known id).map (·.revision)

theorem View.Mirrors.install {v : View} {s : Engine} (h : v.Mirrors s) (broker : Broker)
    (e : Entry) : (v.install e).Mirrors (s.applyMetadataRecord broker
        (.transactionState e.revision e.state.createdAtMs e.state.record)) := by
  have hold : (s.transactionRevisions.lookup e.state.record.transactionId).any (e.revision ≤ ·) =
      (v.known e.id).any (e.revision ≤ ·.revision) := by
    rw [h.revisions, any_map]
    rfl
  show (v.install e).Mirrors (s.installReplicatedTransaction e.revision e.state)
  rw [Engine.installReplicatedTransaction]
  by_cases hstale : (v.known e.id).any (e.revision ≤ ·.revision) = true
  · rw [if_pos (hold.trans hstale), View.install, if_pos hstale]
    exact ⟨h.states, h.revisions⟩
  · rw [if_neg (fun hany => hstale (hold.symm.trans hany)), View.install, if_neg hstale]
    refine ⟨fun id => ?_, fun id => ?_⟩ <;> dsimp only <;> by_cases hid : id = e.id
    · subst hid
      rw [update_self]
      exact Table.lookup_insert_self _ _ _
    · rw [update_of_ne hid, ← h.states]
      exact Table.lookup_insert_of_ne _ hid _
    · subst hid
      rw [update_self]
      exact Table.lookup_insert_self _ _ _
    · rw [update_of_ne hid, ← h.revisions]
      exact Table.lookup_insert_of_ne _ hid _

/-- What a node knows of transactions is what its metadata holds when it has applied the log. -/
theorem mirrors_viewOf (broker : Broker) (opened : Finset (Text × UInt32)) (log : List Entry) :
    (viewOf log).Mirrors (run (Engine.applyMetadataRecord broker) (broker.fresh opened)
      (log.map fun e => .transactionState e.revision e.state.createdAtMs e.state.record)) := by
  have hstart : View.start.Mirrors (broker.fresh opened) := ⟨fun _ => rfl, fun _ => rfl⟩
  rw [viewOf]
  generalize View.start = v, broker.fresh opened = s at hstart
  induction log generalizing v s with
  | nil => exact hstart
  | cons e log ih => exact ih _ _ (hstart.install broker e)

/-! ## What a controller proposes -/

/-- What else a controller reads. -/
structure Surroundings where
  settings : EngineSettings
  producers : Table Text TransactionalProducerState
  registry : Table Text TopicConfig

inductive CoordinatedError where
  | alreadyActive
  | notOngoingOrFenced
  | unknownTopicPartition
  | notFound
  | differentDecision
  | notOngoing
  | producerMismatch
  | invalidPartitionCount
  | producer (error : TxError)
  | topic (error : TopicError)
  | command

structure Save where
  state : TransactionState
  origin : Option Nat

def Known.save (k : Known) (status : TxStatus) (partitions : List PartitionRange) : Save where
  state := { k.state with record := { k.state.record with status, partitions } }
  origin := some k.origin

inductive Request where
  | begin (id : Text) (producerId : UInt64) (now : UInt64)
  | addPartitions (id : Text) (producerId : UInt64) (producerEpoch : Int16)
    (topics : List (Text × List UInt32)) (now : UInt64)
  /-- A produce for a partition whose leader has told the end of its log. -/
  | produce (id : Text) (producerId : UInt64) (producerEpoch : Int16) (topic : Text)
    (numPartitions partition : UInt32) (start : UInt64)
  /-- `ends` is what the partition leaders answer when they have written their markers. -/
  | finish (id : Text) (decision : Decision) (ends : Text → UInt32 → Option UInt64)

section Plans

variable (around : Surroundings) (v : View) (id : Text)

def beginCoordinated (producerId now : UInt64) : Except CoordinatedError (Option Save) :=
  if (v.known id).any (fun k => !isTerminal k.status) then .error .alreadyActive
  else .ok (some { state := newState id producerId now, origin := none })

/-- The partitions of a request that the registry knows are enlisted. -/
def enlistKnown (ranges : List PartitionRange) (topics : List (Text × List UInt32)) :
    Except CoordinatedError (List PartitionRange) :=
  topics.foldlM (fun ranges (entry : Text × List UInt32) =>
    match validateClientTopicName around.settings entry.1 with
    | .error e => .error (.topic e)
    | .ok () =>
      entry.2.foldlM (fun ranges partition =>
        if (around.registry.lookup entry.1).any
          (fun cfg => (cfg.partitions.lookup partition).isSome)
        then .ok (enlist entry.1 ranges partition)
        else .error .unknownTopicPartition) ranges) ranges

/-- A transaction that is not known is begun. -/
def readOrBegin (producerId now : UInt64) : Save :=
  match v.known id with
  | some k => k.save k.status k.state.record.partitions
  | none => { state := newState id producerId now, origin := none }

/-- The state is read before the controller makes sure that it has applied the log. -/
def addPartitionsCoordinated (producerId : UInt64) (producerEpoch : Int16)
    (topics : List (Text × List UInt32)) (now : UInt64) : Except CoordinatedError (Option Save) :=
  match validateIfInitialized around.producers id producerId producerEpoch with
  | .error e => .error (.producer e)
  | .ok () =>
    let save := readOrBegin v id producerId now
    if save.state.record.producerId ≠ producerId ∨ save.state.record.status ≠ .ongoing then
      .error .notOngoingOrFenced
    else
      match enlistKnown around save.state.record.partitions topics with
      | .error e => .error e
      | .ok partitions =>
        .ok (some { save with
          state := { save.state with record := { save.state.record with partitions } } })

/-- A partition is pinned before the first batch goes to it. -/
def produceCoordinated (producerId : UInt64) (producerEpoch : Int16) (topic : Text)
    (numPartitions partition : UInt32) (start : UInt64) :
    Except CoordinatedError (Option Save) :=
  match v.known id with
  | none => .error .notFound
  | some k =>
    if k.status ≠ .ongoing then .error .notOngoing
    else if producerId ≠ k.state.record.producerId then .error .producerMismatch
    else
      match validateIfInitialized around.producers id producerId producerEpoch with
      | .error e => .error (.producer e)
      | .ok () =>
        match validateClientTopicName around.settings topic with
        | .error e => .error (.topic e)
        | .ok () =>
          if numPartitions = 0 ∨
              numPartitions.toNat > around.settings.produce.maxPartitionsPerTopic then
            .error .invalidPartitionCount
          else if k.state.record.partitions.any
              (fun range => isFor topic partition range && range.startOffset != noOffset) then
            .ok none
          else
            .ok (some (k.save k.status (updateRange topic partition
              (fun range => { range with startOffset := start })
              ⟨topic, partition, start, noOffset⟩ k.state.record.partitions)))

/-- Ranges that were written to end at their markers. -/
def setEnds (ends : Text → UInt32 → Option UInt64) (ranges : List PartitionRange) :
    Option (List PartitionRange) :=
  ranges.mapM fun range =>
    if range.startOffset = noOffset then some range
    else (ends range.topic range.partition).map fun endOffset => { range with endOffset }

/-- `finish_transaction_locked`.  A finish that has saved its decision goes on as one that
finds it saved. -/
def finishTransactionLocked (decision : Decision)
    (ends : Text → UInt32 → Option UInt64) : Except CoordinatedError (Option Save) :=
  match v.known id with
  | none => .error .notFound
  | some k =>
    if k.status = decision.terminal then .ok none
    else if k.status ≠ .ongoing ∧ k.status ≠ decision.prepared then .error .differentDecision
    else if k.status = .ongoing then
      .ok (some (k.save decision.prepared k.state.record.partitions))
    else
      match setEnds ends k.state.record.partitions with
      | none => .error .command
      | some partitions => .ok (some (k.save decision.terminal partitions))

def plan : Request → Except CoordinatedError (Option Save)
  | .begin id producerId now => beginCoordinated v id producerId now
  | .addPartitions id producerId producerEpoch topics now =>
    addPartitionsCoordinated around v id producerId producerEpoch topics now
  | .produce id producerId producerEpoch topic numPartitions partition start =>
    produceCoordinated around v id producerId producerEpoch topic numPartitions partition start
  | .finish id decision ends => finishTransactionLocked v id decision ends

end Plans

/-- One read of a controller and the save that comes of it. -/
structure Operation where
  request : Request
  around : Surroundings
  revision : UInt64

/-- The record that a controller proposes after the records that it has applied. -/
def offer (_node : UInt32) (op : Operation) (log : List Entry) : Option Entry :=
  match plan op.around (viewOf log) op.request with
  | .ok (some save) =>
    let e : Entry := ⟨op.revision, save.state, save.origin⟩
    if ((viewOf log).known e.id).any (e.revision ≤ ·.revision) then none else some e
  | .ok none | .error _ => none

/-! ## Markers -/

structure Marker where
  topic : Text
  partition : UInt32
  origin : Nat
  decision : Decision

inductive CommandError where
  | missingTransaction
  | staleCommand
  | notEnlisted
  | missingDecision

/-- The second operation of `execute_transaction_command`: a partition leader writes the marker
for the decision that it has applied. -/
def writeMarker (v : View) (topic : Text) (partition : UInt32) (id : Text) (revision : UInt64) :
    Except CommandError Marker :=
  match v.known id with
  | none => .error .missingTransaction
  | some k =>
    if k.revision ≠ revision then .error .staleCommand
    else if ¬ k.state.record.partitions.any (isFor topic partition) then .error .notEnlisted
    else
      match k.status with
      | .prepareCommit => .ok ⟨topic, partition, k.origin, .commit⟩
      | .prepareAbort => .ok ⟨topic, partition, k.origin, .abort⟩
      | .ongoing | .committed | .aborted => .error .missingDecision

/-! ## Runs -/

structure Cluster where
  journal : Journal.State UInt32 Operation Entry
  markers : List Marker

inductive Event where
  | metadata (move : Journal.Move UInt32 Operation)
  | command (node : UInt32) (topic : Text) (partition : UInt32) (id : Text) (revision : UInt64)

namespace Cluster

def start : Cluster where
  journal := .start
  markers := []

def log (s : Cluster) : List Entry := s.journal.log

def step (s : Cluster) : Event → Cluster
  | .metadata move => { s with journal := Journal.step offer s.journal move }
  | .command node topic partition id revision =>
    match writeMarker (viewOf (s.journal.view node)) topic partition id revision with
    | .ok marker => { s with markers := marker :: s.markers }
    | .error _ => s

/-- A record is committed only while the state that its controller has read is current. -/
def Reads (s : Cluster) : Event → Prop
  | .metadata move => Journal.Commits (Fresh offer) s.journal move
  | .command .. => True

/-- After a prepared record, the instance has only records with the same decision. -/
def DecisionsFinal (log : List Entry) : Prop :=
  ∀ (i j : Nat) (e e' : Entry) (d : Decision), i < j → log[i]? = some e → log[j]? = some e' →
    e.instanceAt i = e'.instanceAt j → e.status = d.prepared →
      e'.status = d.prepared ∨ e'.status = d.terminal

structure Final (s : Cluster) : Prop where
  records : DecisionsFinal s.log
  markers : ∀ m ∈ s.markers, ∀ m' ∈ s.markers, m.origin = m'.origin → m.decision = m'.decision

end Cluster

/-! ## What follows from what was read -/

/-- The steps of a transaction. -/
inductive Follows : TxStatus → TxStatus → Prop where
  | ongoing : Follows .ongoing .ongoing
  | prepare (d : Decision) : Follows .ongoing d.prepared
  | complete (d : Decision) : Follows d.prepared d.terminal

/-- A save begins a transaction or takes the next step of one that was read. -/
inductive Planned (v : View) (save : Save) : Prop where
  | begins (status : save.state.record.status = .ongoing) (origin : save.origin = none)
  | follows (id : Text) (k : Known) (known : v.known id = some k)
    (same : save.state.record.transactionId = k.state.record.transactionId)
    (origin : save.origin = some k.origin) (next : Follows k.status save.state.record.status)

section Spec

variable {around : Surroundings} {v : View} {save : Save} {id : Text}

theorem planned_readOrBegin {producerId now : UInt64}
    (h : (readOrBegin v id producerId now).state.record.status = .ongoing)
    (partitions : List PartitionRange) :
    Planned v { readOrBegin v id producerId now with
      state := { (readOrBegin v id producerId now).state with
        record := { (readOrBegin v id producerId now).state.record with partitions } } } := by
  cases hknown : v.known id with
  | none =>
    simp only [readOrBegin, hknown]
    exact .begins rfl rfl
  | some k =>
    simp only [readOrBegin, hknown] at h ⊢
    refine .follows id k hknown rfl rfl ?_
    show Follows k.status k.status
    rw [show k.status = .ongoing from h]
    exact .ongoing

theorem finishTransactionLocked_spec {decision : Decision} {ends : Text → UInt32 → Option UInt64}
    (h : finishTransactionLocked v id decision ends = .ok (some save)) : Planned v save := by
  rw [finishTransactionLocked] at h
  split at h
  · cases h
  · next k hknown =>
    split at h
    · exact absurd (Except.ok.inj h) (some_ne_none _).symm
    · split at h
      · cases h
      · next hallowed =>
        split at h
        · next hongoing =>
          rw [← Option.some.inj (Except.ok.inj h)]
          refine .follows id k hknown rfl rfl ?_
          rw [hongoing]
          exact .prepare decision
        · next hongoing =>
          have hprepared : k.status = decision.prepared :=
            not_not.mp (fun hne => hallowed ⟨hongoing, hne⟩)
          split at h
          · cases h
          · rw [← Option.some.inj (Except.ok.inj h)]
            refine .follows id k hknown rfl rfl ?_
            rw [hprepared]
            exact .complete decision

theorem plan_spec {request : Request} (h : plan around v request = .ok (some save)) :
    Planned v save := by
  cases request with
  | begin =>
    rw [plan, beginCoordinated] at h
    split at h
    · cases h
    · rw [← Option.some.inj (Except.ok.inj h)]
      exact .begins rfl rfl
  | addPartitions =>
    rw [plan, addPartitionsCoordinated] at h
    split at h
    · cases h
    · dsimp only at h
      split at h
      · cases h
      · next hcond =>
        rw [not_or, not_not, not_not] at hcond
        split at h
        · cases h
        · rw [← Option.some.inj (Except.ok.inj h)]
          exact planned_readOrBegin hcond.2 _
  | produce id =>
    rw [plan, produceCoordinated] at h
    split at h
    · cases h
    · next k hknown =>
      split at h
      · cases h
      · next hongoing =>
        repeat' split at h
        all_goals cases h
        refine .follows id k hknown rfl rfl ?_
        show Follows k.status k.status
        rw [not_not.mp hongoing]
        exact .ongoing
  | finish => exact finishTransactionLocked_spec h

end Spec

variable {d : Decision} {e : Entry} {id : Text} {origin : Nat} {log : List Entry}

theorem Follows.eq_terminal {status status' : TxStatus} (h : Follows status status')
    (hd : status = d.prepared ∨ status = d.terminal) : status' = d.terminal := by
  cases h with
  | ongoing => exact absurd hd (by simp [d.prepared_ne_ongoing.symm, d.terminal_ne_ongoing.symm])
  | prepare => exact absurd hd (by simp [d.prepared_ne_ongoing.symm, d.terminal_ne_ongoing.symm])
  | complete d' =>
    rcases hd with hd | hd
    · rw [Decision.prepared_injective hd]
    · exact absurd hd (d'.prepared_ne_terminal d)

/-! ## Views of a log -/

theorem viewOf_snoc (log : List Entry) (e : Entry) :
    viewOf (log ++ [e]) = (viewOf log).install e := by
  rw [viewOf, Run.run_append]
  rfl

theorem applied_viewOf (log : List Entry) : (viewOf log).applied = log.length := by
  induction log using List.reverseRecOn with
  | nil => rfl
  | append_singleton log e ih =>
    rw [viewOf_snoc, List.length_append, List.length_singleton, ← ih]
    rfl

structure IsRecord (log : List Entry) (i : Nat) (e : Entry) (id : Text) (origin : Nat) : Prop where
  found : log[i]? = some e
  id_eq : e.id = id
  instance_eq : e.instanceAt i = origin

theorem IsRecord.mono {log' : List Entry} {i : Nat} (h : IsRecord log i e id origin)
    (hlog : log <+: log') : IsRecord log' i e id origin := by
  obtain ⟨hi, -⟩ := List.getElem?_eq_some_iff.mp h.found
  obtain ⟨rest, rfl⟩ := hlog
  exact { h with found := by rw [List.getElem?_append_left hi, h.found] }

theorem exists_of_known {k : Known} (h : (viewOf log).known id = some k) :
    ∃ i e, IsRecord log i e id k.origin ∧ e.state = k.state := by
  induction log using List.reverseRecOn with
  | nil => exact absurd h (some_ne_none k).symm
  | append_singleton log e ih =>
    have hold : (viewOf log).known id = some k →
        ∃ i e', IsRecord (log ++ [e]) i e' id k.origin ∧ e'.state = k.state := by
      intro h
      obtain ⟨i, e', hrecord, hstate⟩ := ih h
      exact ⟨i, e', hrecord.mono (List.prefix_append _ _), hstate⟩
    rw [viewOf_snoc, View.install] at h
    dsimp only at h
    split at h
    · exact hold h
    · by_cases hid : id = e.id
      · subst hid
        rw [update_self, applied_viewOf] at h
        cases h
        exact ⟨log.length, e, ⟨getElem?_snoc_eq_some.mpr (.inr ⟨rfl, rfl⟩), rfl, rfl⟩, rfl⟩
      · rw [update_of_ne hid] at h
        exact hold h

/-- A record that is offered begins its transaction or takes its next step. -/
inductive Continues (log : List Entry) (e : Entry) : Prop where
  | begins (status : e.status = .ongoing) (origin : e.origin = none)
  | follows (k : Known) (known : (viewOf log).known e.id = some k)
    (origin : e.origin = some k.origin) (next : Follows k.status e.status)

theorem offer_spec {node : UInt32} {op : Operation} (h : offer node op log = some e) :
    Continues log e ∧ (viewOf (log ++ [e])).known = update (viewOf log).known e.id
      (some ⟨e.revision, e.state, e.instanceAt log.length⟩) := by
  rw [offer] at h
  split at h
  · next save hplan =>
    dsimp only at h
    split at h
    · cases h
    · next hnewer =>
      cases h
      refine ⟨?_, ?_⟩
      · cases plan_spec hplan with
        | begins hstatus horigin => exact .begins hstatus horigin
        | follows id k hknown hsame horigin hnext =>
          obtain ⟨i, e, hrecord, hstate⟩ := exists_of_known hknown
          have hid : save.state.record.transactionId = id := by
            rw [hsame, ← hstate]
            exact hrecord.id_eq
          exact .follows k (by rw [← hknown, ← hid]; rfl) horigin hnext
      · rw [viewOf_snoc, View.install, applied_viewOf]
        exact if_neg hnewer
  · cases h
  · cases h

/-! ## Decisions are final -/

/-- What holds of every record of a log whose records were all offered on those before. -/
structure Tracked (log : List Entry) : Prop where
  /-- It belongs to the transaction that its instance began. -/
  origin : ∀ (i : Nat) (e : Entry), log[i]? = some e →
    ∃ e₀ : Entry, log[e.instanceAt i]? = some e₀ ∧ e₀.id = e.id
  /-- The state that is known is of the same instance or of a later one, and keeps its
  decision. -/
  known : ∀ (i : Nat) (e : Entry), log[i]? = some e → ∃ k, (viewOf log).known e.id = some k ∧
    e.instanceAt i ≤ k.origin ∧ (e.instanceAt i = k.origin →
      ∀ d : Decision, e.status = d.prepared → k.status = d.prepared ∨ k.status = d.terminal)

namespace Tracked

variable {i : Nat}

theorem instance_lt (h : Tracked log) (he : log[i]? = some e) : e.instanceAt i < log.length := by
  obtain ⟨e₀, he₀, -⟩ := h.origin i e he
  exact (List.getElem?_eq_some_iff.mp he₀).1

theorem id_of_instance (h : Tracked log) (he : log[i]? = some e) {k : Known}
    (hk : (viewOf log).known id = some k) (heq : e.instanceAt i = k.origin) : e.id = id := by
  obtain ⟨j, e', hrecord, -⟩ := exists_of_known hk
  obtain ⟨e₀, he₀, hid₀⟩ := h.origin i e he
  obtain ⟨e₁, he₁, hid₁⟩ := h.origin j e' hrecord.found
  rw [hrecord.instance_eq, ← heq, he₀] at he₁
  rw [← hid₀, Option.some.inj he₁, hid₁, hrecord.id_eq]

theorem keeps_decision (h : Tracked log) (he : log[i]? = some e) {e' : Entry}
    (hcontinues : Continues log e') (heq : e.instanceAt i = e'.instanceAt log.length)
    (hd : e.status = d.prepared) : e'.status = d.terminal := by
  cases hcontinues with
  | begins hstatus horigin =>
    rw [Entry.instanceAt_of_none horigin] at heq
    exact absurd heq (Nat.ne_of_lt (h.instance_lt he))
  | follows k hk horigin hnext =>
    rw [Entry.instanceAt_of_some horigin] at heq
    obtain ⟨k', hk', -, hkeeps⟩ := h.known i e he
    rw [h.id_of_instance he hk heq, hk] at hk'
    cases hk'
    exact hnext.eq_terminal (hkeeps heq d hd)

theorem snoc (h : Tracked log) (hcontinues : Continues log e)
    (hknown : (viewOf (log ++ [e])).known = update (viewOf log).known e.id
      (some ⟨e.revision, e.state, e.instanceAt log.length⟩)) : Tracked (log ++ [e]) where
  origin i e' he' := by
    rcases getElem?_snoc_eq_some.mp he' with hold | ⟨rfl, rfl⟩
    · obtain ⟨e₀, he₀, hid⟩ := h.origin i e' hold
      exact ⟨e₀, getElem?_snoc_eq_some.mpr (.inl he₀), hid⟩
    · cases hcontinues with
      | begins _ horigin =>
        refine ⟨e, ?_, rfl⟩
        rw [Entry.instanceAt_of_none horigin]
        exact he'
      | follows k hk horigin _ =>
        obtain ⟨j, e', hrecord, -⟩ := exists_of_known hk
        obtain ⟨e₀, he₀, hid⟩ := h.origin j e' hrecord.found
        refine ⟨e₀, ?_, hid.trans hrecord.id_eq⟩
        rw [hrecord.instance_eq] at he₀
        rw [Entry.instanceAt_of_some horigin]
        exact getElem?_snoc_eq_some.mpr (.inl he₀)
  known i e' he' := by
    rw [hknown]
    rcases getElem?_snoc_eq_some.mp he' with hold | ⟨rfl, rfl⟩
    · by_cases hid : e'.id = e.id
      · rw [hid, update_self]
        refine ⟨_, rfl, ?_, fun heq d hd => .inr (h.keeps_decision hold hcontinues heq hd)⟩
        cases hcontinues with
        | begins _ horigin =>
          have hlt := h.instance_lt hold
          rw [Entry.instanceAt_of_none horigin]
          exact Nat.le_of_lt hlt
        | follows k hk horigin =>
          obtain ⟨k', hk', hle, -⟩ := h.known i e' hold
          rw [hid, hk] at hk'
          cases hk'
          rw [Entry.instanceAt_of_some horigin]
          exact hle
      · rw [update_of_ne hid]
        exact h.known i e' hold
    · rw [update_self]
      exact ⟨_, rfl, Nat.le_refl _, fun _ d hd => .inl hd⟩

end Tracked

namespace Cluster

theorem tracked_of_legal (h : Legal (Fresh offer) log) : Tracked log := by
  induction h with
  | nil => exact ⟨fun _ _ h => absurd h (some_ne_none _).symm,
      fun _ _ h => absurd h (some_ne_none _).symm⟩
  | snoc proposal _ hfresh ih =>
    obtain ⟨hcontinues, hknown⟩ := offer_spec hfresh
    exact ih.snoc hcontinues hknown

theorem decisionsFinal_of_legal (h : Legal (Fresh offer) log) : DecisionsFinal log := by
  induction h with
  | nil => exact fun i _ e _ _ _ h => absurd h (some_ne_none e).symm
  | snoc proposal hlog hfresh ih =>
    intro i j e e' d hij he he' heq hd
    rcases getElem?_snoc_eq_some.mp he' with hold' | ⟨rfl, rfl⟩
    · have hlt : j < _ := (List.getElem?_eq_some_iff.mp hold').1
      rcases getElem?_snoc_eq_some.mp he with hold | ⟨rfl, -⟩
      · exact ih i j e e' d hij hold hold' heq hd
      · omega
    · rcases getElem?_snoc_eq_some.mp he with hold | ⟨rfl, -⟩
      · exact .inr ((tracked_of_legal hlog).keeps_decision hold (offer_spec hfresh).1 heq hd)
      · exact absurd hij (Nat.lt_irrefl _)

theorem writeMarker_spec {topic : Text} {partition : UInt32} {revision : UInt64} {marker : Marker}
    (h : writeMarker (viewOf log) topic partition id revision = .ok marker) :
    ∃ i e, IsRecord log i e id marker.origin ∧ e.status = marker.decision.prepared := by
  rw [writeMarker] at h
  split at h
  · cases h
  · next k hknown =>
    obtain ⟨i, e, hrecord, hstate⟩ := exists_of_known hknown
    have hstatus : e.status = k.status := by rw [Entry.status, hstate, Known.status]
    repeat' split at h
    all_goals cases h
    · next hk => exact ⟨i, e, hrecord, hstatus.trans hk⟩
    · next hk => exact ⟨i, e, hrecord, hstatus.trans hk⟩

/-- The log is legal, and every marker has a prepared record. -/
structure Sound (s : Cluster) : Prop where
  legal : Legal (Fresh offer) s.log
  backed : ∀ m ∈ s.markers, ∃ i id e,
    IsRecord s.log i e id m.origin ∧ e.status = m.decision.prepared

theorem sound_start : Sound start where
  legal := .nil
  backed _ hm := absurd hm List.not_mem_nil

theorem sound_step {s : Cluster} {event : Event} (h : Sound s) (hreads : Reads s event) :
    Sound (step s event) := by
  cases event with
  | metadata move =>
    refine ⟨Journal.legal_step h.legal hreads, ?_⟩
    intro m hm
    obtain ⟨i, id, e, hrecord, hstatus⟩ := h.backed m hm
    exact ⟨i, id, e, hrecord.mono (Journal.log_prefix_step s.journal move), hstatus⟩
  | command node topic partition id =>
    rw [step]
    split
    · next marker hmarker =>
      refine ⟨h.legal, ?_⟩
      intro m hm
      rcases List.mem_cons.mp hm with rfl | hm
      · obtain ⟨i, e, hrecord, hstatus⟩ := writeMarker_spec hmarker
        exact ⟨i, id, e, hrecord.mono (List.take_prefix _ _), hstatus⟩
      · exact h.backed m hm
    · exact h

/-- Two prepared records of one instance have the same decision. -/
theorem prepared_unique (h : DecisionsFinal log) {i j : Nat} {e' : Entry} {id' : Text}
    (he : IsRecord log i e id origin) (he' : IsRecord log j e' id' origin) {d' : Decision}
    (hd : e.status = d.prepared) (hd' : e'.status = d'.prepared) : d = d' := by
  have hsame := he.instance_eq.trans he'.instance_eq.symm
  rcases Nat.lt_trichotomy i j with hij | rfl | hji
  · rcases h i j e e' d hij he.found he'.found hsame hd with h' | h'
    · exact Decision.prepared_injective (h'.symm.trans hd')
    · exact absurd (hd'.symm.trans h') (d'.prepared_ne_terminal d)
  · have heq : e = e' := Option.some.inj (he.found.symm.trans he'.found)
    exact Decision.prepared_injective (hd.symm.trans ((congrArg Entry.status heq).trans hd'))
  · rcases h j i e' e d' hji he'.found he.found hsame.symm hd' with h' | h'
    · exact Decision.prepared_injective (hd.symm.trans h')
    · exact absurd (hd.symm.trans h') (d.prepared_ne_terminal d')

theorem Sound.final {s : Cluster} (h : Sound s) : Final s where
  records := decisionsFinal_of_legal h.legal
  markers m hm m' hm' heq := by
    obtain ⟨i, id, e, hrecord, hstatus⟩ := h.backed m hm
    obtain ⟨j, id', e', hrecord', hstatus'⟩ := h.backed m' hm'
    rw [← heq] at hrecord'
    exact prepared_unique (decisionsFinal_of_legal h.legal) hrecord hrecord' hstatus hstatus'

/-- In every run in which a record is committed only while its controller's read is current,
decisions are final in every state that is reached. -/
theorem final_of_fresh (events : List Event) (h : Guarded step Reads start events) :
    Run.Always step Final start events :=
  h.always (fun s (hs : Sound s) => hs.final)
    (fun _ _ (hs : Sound _) hreads => sound_step hs hreads) sound_start

/-! ### A whole transaction and a stale read

Controller 2 of the second run has taken over from controller 1, whose decision to commit it has
in its log but has not applied.  It reads the transaction as ongoing to add a partition. -/

def knownTopic : TopicConfig where
  numPartitions := 1
  replicationFactor := 1
  cleanupPolicy := .delete
  partitions := (∅ : Table UInt32 Metadata.PartitionAssignment).insert 0
    Broker.plain.defaultAssignment
  configs := ∅

def surroundings : Surroundings where
  settings := Broker.plain.settings
  producers := ∅
  registry := (∅ : Table Text TopicConfig).insert ['a'] knownTopic

def begins : Operation where
  request := .begin ['t'] 7 0
  around := surroundings
  revision := 1

def addsPartition (revision : UInt64) : Operation where
  request := .addPartitions ['t'] 7 0 [(['a'], [0])] 0
  around := surroundings
  revision := revision

def commits (revision : UInt64) : Operation where
  request := .finish ['t'] .commit (fun _ _ => none)
  around := surroundings
  revision := revision

/-- A transaction from its begin over the decision and the marker to the outcome. -/
def completes : List Event :=
  [.metadata (.propose 1 begins), .metadata (.commit 0), .metadata (.apply 1),
    .metadata (.propose 1 (addsPartition 2)), .metadata (.commit 0), .metadata (.apply 1),
    .metadata (.propose 1 (commits 3)), .metadata (.commit 0), .metadata (.apply 1),
    .command 1 ['a'] 0 ['t'] 3, .metadata (.propose 1 (commits 4)), .metadata (.commit 0)]

theorem final_completes : Run.Always step Final start completes ∧
    (run step start completes).markers = [⟨['a'], 0, 0, .commit⟩] ∧
    (run step start completes).log.map Entry.status =
      [.ongoing, .ongoing, .prepareCommit, .committed] := by
  refine ⟨final_of_fresh _ ⟨trivial, ?_, trivial, trivial, ?_, trivial, trivial, ?_, trivial,
    trivial, trivial, ?_, trivial⟩, rfl, rfl⟩
  all_goals
    intro proposal hproposal
    cases hproposal
    rfl

theorem not_final_staleRead : ¬ Run.Always step Final start
      [.metadata (.propose 1 begins), .metadata (.commit 0), .metadata (.apply 1),
        .metadata (.apply 2), .metadata (.propose 1 (commits 2)),
        .metadata (.propose 2 (addsPartition 3)), .metadata (.commit 0),
        .metadata (.commit 0)] := by
  intro h
  have hstatus := h.run.records 1 2 _ _ .commit (by decide) rfl rfl rfl rfl
  exact absurd hstatus (by decide)

end Cluster

end Bifrox.Transactions

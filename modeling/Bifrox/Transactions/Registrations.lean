/-
Registrations of producers (`init_producer_id` and `init_producer_id_coordinated` in
`src/server/engine.rs`, `next_transactional_producer` and `restore_transactional_producer` in
`src/server/transaction.rs`) on a broker that is its only controller.

Calls hold one lock, and are single steps.  A crash during a call is a write that gets only so
far, and a restart after it.
-/
import Bifrox.Lib.Settled
import Bifrox.Metadata.Equivalence
import Bifrox.Transactions.Manager

namespace Bifrox.Transactions

open List
open Metadata (Broker Engine Iteration MetadataRecord)
open Run (run)
open Server (TransactionalProducerState)

/-! ## Registrations -/

abbrev Registration := Text × TransactionalProducerState

def Registration.record (r : Registration) : MetadataRecord :=
  .transactionalProducerRegistration r.1 r.2.producerId r.2.producerEpoch

def registration : MetadataRecord → Option Registration
  | .transactionalProducerRegistration id producerId producerEpoch =>
    some (id, { producerId, producerEpoch })
  | _ => none

def registrations (records : List MetadataRecord) : List Registration :=
  records.filterMap registration

theorem registrations_append {left right : List MetadataRecord} :
    registrations (left ++ right) = registrations left ++ registrations right :=
  filterMap_append

section Apply

variable (broker : Broker) {partition : UInt32} {s : Engine}

def SameProducers (s s' : Engine) : Prop :=
  s'.transactionalProducers = s.transactionalProducers ∧ s'.nextProducerId = s.nextProducerId

theorem sameProducers_getOrCreatePartition {s' : Engine} {topic : Text}
    (h : s.getOrCreatePartition broker topic partition = .ok s') : SameProducers s s' := by
  rw [Engine.getOrCreatePartition] at h
  split at h
  · cases h
  · split at h <;> obtain rfl := Except.ok.inj h <;> exact ⟨rfl, rfl⟩

theorem sameProducers_changeLeadership {topic : Text} {assignment : Metadata.PartitionAssignment} :
    SameProducers s (s.changeLeadership broker topic partition assignment) := by
  have hassign : SameProducers s (s.assignPartition topic partition assignment) := by
    rw [Engine.assignPartition]
    split <;> exact ⟨rfl, rfl⟩
  rw [Engine.changeLeadership]
  split
  · next s' hopen =>
    have hsame := sameProducers_getOrCreatePartition broker hopen
    have hupdate : SameProducers s' (s'.updateLeadership topic partition assignment) := by
      rw [Engine.updateLeadership]
      split <;> exact ⟨rfl, rfl⟩
    exact ⟨hupdate.1.trans (hsame.1.trans hassign.1), hupdate.2.trans (hsame.2.trans hassign.2)⟩
  · exact hassign

theorem sameProducers_applyMetadataRecord {record : MetadataRecord} (h : registration record = none)
    :
    SameProducers s (s.applyMetadataRecord broker record) := by
  cases record with
  | transactionalProducerRegistration => cases h
  | transactionState =>
    rw [Engine.applyMetadataRecord, Engine.installReplicatedTransaction]
    split <;> exact ⟨rfl, rfl⟩
  | topicPartition topic partition =>
    rw [Engine.applyMetadataRecord]
    cases hopen : s.getOrCreatePartition broker topic partition with
    | ok => exact sameProducers_getOrCreatePartition broker hopen
    | error => exact ⟨rfl, rfl⟩
  | partitionLeadershipChange =>
    exact sameProducers_changeLeadership broker
  | _ => exact ⟨rfl, rfl⟩

theorem run_applyMetadataRecord (s : Engine) (records : List MetadataRecord) :
    let s' := run (Engine.applyMetadataRecord broker) s records
    s'.transactionalProducers = s.transactionalProducers.insertAll (registrations records) ∧
      s.nextProducerId ≤ s'.nextProducerId ∧
      (∀ r ∈ registrations records, Engine.nextCandidate r.2.producerId ≤ s'.nextProducerId) ∧
      (s.nextProducerId < 2 ^ 64 → s'.nextProducerId < 2 ^ 64) := by
  induction records generalizing s with
  | nil => exact ⟨rfl, Nat.le_refl _, nofun, id⟩
  | cons record records ih =>
    obtain ⟨hproducers, hnext, hpassed, hlt⟩ := ih (s.applyMetadataRecord broker record)
    rw [Run.run_cons]
    cases hrecord : registration record with
    | none =>
      obtain ⟨hsame, hsame'⟩ := sameProducers_applyMetadataRecord broker hrecord
      rw [hsame] at hproducers
      rw [hsame'] at hnext hlt
      rw [registrations, filterMap_cons_none hrecord]
      exact ⟨hproducers, hnext, hpassed, hlt⟩
    | some r =>
      have happly : s.applyMetadataRecord broker record =
          s.restoreTransactionalProducer r.1 r.2 := by
        cases record with
        | transactionalProducerRegistration =>
          obtain rfl := Option.some.inj hrecord
          rfl
        | _ => cases hrecord
      rw [happly] at hproducers hnext hpassed hlt ⊢
      rw [registrations, filterMap_cons_some hrecord]
      refine ⟨hproducers, Nat.le_trans (Nat.le_max_left _ _) hnext, fun r' hr' => ?_, fun h => ?_⟩
      · rcases mem_cons.mp hr' with rfl | hr'
        · exact Nat.le_trans (Nat.le_max_right _ _) hnext
        · exact hpassed r' hr'
      · refine hlt (Nat.max_lt.mpr ⟨h, ?_⟩)
        rw [Engine.nextCandidate]
        omega

end Apply

/-- The counter wraps. -/
def generateProducerId (s : Engine) : UInt64 × Engine :=
  (UInt64.ofNat s.nextProducerId, { s with nextProducerId := (s.nextProducerId + 1) % 2 ^ 64 })

def nextTransactionalProducer (s : Engine) (id : Text) :
    Except TxError (TransactionalProducerState × Engine) :=
  match s.transactionalProducers.lookup id with
  | some current =>
    if current.producerEpoch = Int16.maxValue then .error .epochExhausted
    else .ok ({ current with producerEpoch := current.producerEpoch + 1 }, s)
  | none =>
    .ok ({ producerId := (generateProducerId s).1, producerEpoch := 0 }, (generateProducerId s).2)

/-- What a call registers.  Every call without a transactional id gets an id of its own. -/
def nextProducer (s : Engine) (id : Text) : Except TxError (TransactionalProducerState × Engine) :=
  if id = [] then
    .ok ({ producerId := (generateProducerId s).1, producerEpoch := 0 }, (generateProducerId s).2)
  else nextTransactionalProducer s id

theorem lt_add_one_of_ne {epoch : Int16} (h : epoch ≠ Int16.maxValue) : epoch < epoch + 1 := by
  have hle := Int16.toInt_le epoch
  have hge := Int16.le_toInt epoch
  have hne : epoch.toInt ≠ Int16.maxValue.toInt := fun heq => h (Int16.toInt_inj.mp heq)
  have hmax : Int16.maxValue.toInt = 32767 := rfl
  rw [Int16.lt_iff_toInt_lt, Int16.toInt_add, show (1 : Int16).toInt = 1 from rfl, Int.bmod_eq_emod]
  split <;> omega

/-- The next registration of an id has the id of the counter, or that of the last one with a
larger epoch. -/
inductive Succeeds (s : Engine) (id : Text) : TransactionalProducerState → Engine → Prop where
  | new {producer : TransactionalProducerState} {s' : Engine}
    (unknown : id ≠ [] → s.transactionalProducers.lookup id = none)
    (producerId : producer.producerId.toNat = s.nextProducerId)
    (producers : s'.transactionalProducers = s.transactionalProducers)
    (next : s'.nextProducerId = s.nextProducerId + 1) : Succeeds s id producer s'
  | known {producer : TransactionalProducerState} (current : TransactionalProducerState)
    (nonempty : id ≠ []) (lookup : s.transactionalProducers.lookup id = some current)
    (producerId : producer.producerId = current.producerId)
    (epoch : current.producerEpoch < producer.producerEpoch) : Succeeds s id producer s

theorem succeeds_of_nextProducer {s s' : Engine} {id : Text} {producer : TransactionalProducerState}
    (h : nextProducer s id = .ok (producer, s')) (hroom : s.nextProducerId + 1 < 2 ^ 64) :
    Succeeds s id producer s' := by
  have hid := UInt64.toNat_ofNat_of_lt' (show s.nextProducerId < 2 ^ 64 by omega)
  have hnext : (s.nextProducerId + 1) % 2 ^ 64 = s.nextProducerId + 1 := Nat.mod_eq_of_lt hroom
  rw [nextProducer] at h
  split at h
  · next hempty =>
    cases h
    exact .new (fun hne => absurd hempty hne) hid rfl hnext
  · next hne =>
    rw [nextTransactionalProducer] at h
    split at h
    · next current hlookup =>
      split at h
      · cases h
      · next hepoch =>
        cases h
        exact .known current hne hlookup rfl (lt_add_one_of_ne hepoch)
    · next hlookup =>
      cases h
      exact .new (fun _ => hlookup) hid rfl hnext

/-! ## The broker -/

structure ProducerBroker where
  engine : Engine
  /-- The metadata log.  What lies before `logStart` was trimmed. -/
  log : List MetadataRecord
  logStart : Nat
  durable : Nat
  highWatermark : Nat
  applied : Nat
  snapshot : Option (Nat × List MetadataRecord)
  uncertain : Bool
  /-- The log end that the last restart has found. -/
  boot : Nat
  returned : List Registration

inductive ProducerEvent where
  | initProducerId (id : Text) (write : Write)
  | initProducerIdCoordinated (id : Text) (write : Write)
  | register (bindAddr : Text) (write : Write)
  | snapshot (it : Iteration)
  | trim (upTo : Nat)
  | restart (kept : Nat) (opened : Finset (Text × UInt32))

namespace ProducerBroker

variable (broker : Broker) (s : ProducerBroker)

def start : ProducerBroker where
  engine := broker.fresh ∅
  log := []
  logStart := 0
  durable := 0
  highWatermark := 0
  applied := 0
  snapshot := none
  uncertain := false
  boot := 0
  returned := []

def snapshotOffset : Nat := (s.snapshot.map Prod.fst).getD 0

def snapshotRecords : List MetadataRecord := (s.snapshot.map Prod.snd).getD []

def append (record : MetadataRecord) : ProducerBroker := { s with log := s.log ++ [record] }

/-- The watermark moves to the log end, with the log synced before. -/
def checkpoint : ProducerBroker :=
  { s with durable := s.log.length, highWatermark := s.log.length }

def applyCommitted : ProducerBroker :=
  { s with
    engine := run (Engine.applyMetadataRecord broker) s.engine
      ((s.log.take s.highWatermark).drop s.applied)
    applied := max s.applied s.highWatermark }

def write (record : MetadataRecord) : Write → ProducerBroker
  | .lost => s
  | .appended => s.append record
  | .checkpointed | .completed => (s.append record).checkpoint

/-- The registration is not applied from the log but restored, and the index of what was applied
stays. -/
def initProducerId (id : Text) (write : Write) : ProducerBroker :=
  match nextProducer s.engine id with
  | .error _ => s
  | .ok (producer, engine) =>
    let s' := { s with engine }.write (Registration.record (id, producer)) write
    if write = .completed then
      { s' with
        engine := engine.restoreTransactionalProducer id producer
        returned := (id, producer) :: s.returned }
    else s'

/-- The call after `require_transaction_controller`.  A proposal that fails leaves the
coordinator uncertain. -/
def proposeRegistration (id : Text) (write : Write) : ProducerBroker :=
  match nextProducer s.engine id with
  | .error _ => s
  | .ok (producer, engine) =>
    let s' := { s with engine }.write (Registration.record (id, producer)) write
    if write = .completed then
      { s'.applyCommitted broker with returned := (id, producer) :: s.returned }
    else { s' with uncertain := true }

def initProducerIdCoordinated (id : Text) (write : Write) : ProducerBroker :=
  if s.uncertain then s
  else if s.log.length = s.highWatermark then
    (s.applyCommitted broker).proposeRegistration broker id write
  -- an unresolved tail
  else s.applyCommitted broker

def minNewRecordsForSnapshot : Nat := 500

def snapshotMetadataIfNeeded (it : Iteration) : ProducerBroker :=
  let offset := min s.highWatermark s.applied
  if s.snapshotOffset + minNewRecordsForSnapshot ≤ offset then
    { s with snapshot := some (offset, s.engine.buildMetadataSnapshotRecords it) }
  else s

/-- The part of the log that a replay reads. -/
def replayed : List MetadataRecord :=
  (s.log.take s.highWatermark).drop (max s.logStart s.snapshotOffset)

def restart (kept : Nat) (opened : Finset (Text × UInt32)) : ProducerBroker :=
  { s with
    engine := run (Engine.applyMetadataRecord broker) (broker.fresh opened)
      (s.snapshotRecords ++ s.replayed)
    log := s.log.take kept
    durable := kept
    applied := s.highWatermark
    uncertain := false
    boot := kept }

def step (s : ProducerBroker) : ProducerEvent → ProducerBroker
  | .initProducerId id write => s.initProducerId id write
  | .initProducerIdCoordinated id write => s.initProducerIdCoordinated broker id write
  | .register bindAddr write =>
    s.write (.brokerRegister broker.nodeId bindAddr (Metadata.rolesToBytes broker.roles)) write
  | .snapshot it => s.snapshotMetadataIfNeeded it
  | .trim upTo => { s with logStart := max s.logStart (min upTo s.snapshotOffset) }
  | .restart kept opened =>
    if s.durable ≤ kept ∧ kept ≤ s.log.length then s.restart broker kept opened else s

/-! ## What every step keeps -/

/-- The registrations on disk that a replay may come to see. -/
def live : List Registration :=
  registrations s.snapshotRecords ++ registrations (s.log.drop s.snapshotOffset)

/-- Those that a restart would see now. -/
def committed : List Registration :=
  registrations s.snapshotRecords ++
    registrations ((s.log.take s.highWatermark).drop s.snapshotOffset)

def tail : List Registration := registrations (s.log.drop s.highWatermark)

/-- The order of the offsets. -/
structure Laid : Prop where
  durable_le : s.durable ≤ s.log.length
  highWatermark_le : s.highWatermark ≤ s.durable
  applied_le : s.applied ≤ s.highWatermark
  snapshotOffset_le : s.snapshotOffset ≤ s.applied
  logStart_le : s.logStart ≤ s.snapshotOffset
  boot_le : s.boot ≤ s.log.length

/-- Memory has a good registration of the id, and so has any replay. -/
structure Holds (good : TransactionalProducerState → Prop) (id : Text) : Prop where
  memory : ∃ producer, s.engine.transactionalProducers.lookup id = some producer ∧ good producer
  disk : Table.Kept good id s.committed s.tail

theorem laid_start : (start broker).Laid where
  durable_le := Nat.le_refl _
  highWatermark_le := Nat.le_refl _
  applied_le := Nat.le_refl _
  snapshotOffset_le := Nat.le_refl _
  logStart_le := Nat.le_refl _
  boot_le := Nat.le_refl _

variable {broker s} {good : TransactionalProducerState → Prop} {id : Text} {record : MetadataRecord}

theorem registrations_subset {records records' : List MetadataRecord}
    (h : records.Sublist records') : registrations records ⊆ registrations records' :=
  (h.filterMap registration).subset

theorem registrations_drop {log : List MetadataRecord} {i n : Nat} (hi : i ≤ n) :
    registrations (log.drop i) =
      registrations ((log.take n).drop i) ++ registrations (log.drop n) := by
  rw [← registrations_append, drop_take, show log.drop n = (log.drop i).drop (n - i) by
    rw [drop_drop, Nat.add_sub_cancel' hi], take_append_drop]

theorem registrations_drop_take {log : List MetadataRecord} {i m n : Nat} (hi : i ≤ m)
    (hm : m ≤ n) :
    registrations ((log.take n).drop i) =
      registrations ((log.take m).drop i) ++ registrations ((log.take n).drop m) := by
  rw [registrations_drop hi, take_take, Nat.min_eq_left hm]

theorem Laid.committed_eq (h : s.Laid) : s.committed = registrations s.snapshotRecords ++
      registrations ((s.log.take s.applied).drop s.snapshotOffset) ++
        registrations ((s.log.take s.highWatermark).drop s.applied) := by
  rw [committed, registrations_drop_take h.snapshotOffset_le h.applied_le, append_assoc]

theorem Laid.live_eq (h : s.Laid) : s.live = s.committed ++ s.tail := by
  rw [live, committed, tail, registrations_drop
    (Nat.le_trans h.snapshotOffset_le h.applied_le), append_assoc]

theorem committed_subset_live (s : ProducerBroker) : s.committed ⊆ s.live := by
  intro r hr
  rcases mem_append.mp hr with hr | hr
  · exact mem_append_left _ hr
  · exact mem_append_right _ (registrations_subset ((take_sublist _ _).drop _) hr)

section

variable (h : s.Laid)
include h

theorem Laid.highWatermark_le_length : s.highWatermark ≤ s.log.length :=
  Nat.le_trans h.highWatermark_le h.durable_le

theorem Laid.applied_le_length : s.applied ≤ s.log.length :=
  Nat.le_trans h.applied_le h.highWatermark_le_length

/-! ### Writes -/

theorem Laid.append (record : MetadataRecord) : (s.append record).Laid := by
  have hlength : s.log.length ≤ (s.append record).log.length := by
    rw [ProducerBroker.append, length_append]
    exact Nat.le_add_right _ _
  exact { h with
    durable_le := Nat.le_trans h.durable_le hlength
    boot_le := Nat.le_trans h.boot_le hlength }

theorem Laid.checkpoint : s.checkpoint.Laid :=
  { h with
    durable_le := Nat.le_refl _
    highWatermark_le := Nat.le_refl _
    applied_le := h.applied_le_length }

theorem Laid.write (record : MetadataRecord) (write : Write) : (s.write record write).Laid := by
  cases write with
  | lost => exact h
  | appended => exact h.append record
  | checkpointed | completed => exact (h.append record).checkpoint

theorem Laid.committed_append : (s.append record).committed = s.committed := by
  show _ ++ registrations (((s.log ++ [record]).take s.highWatermark).drop s.snapshotOffset) = _
  rw [take_append_of_le_length h.highWatermark_le_length, committed]
  rfl

theorem Laid.tail_append : (s.append record).tail = s.tail ++ registrations [record] := by
  show registrations ((s.log ++ [record]).drop s.highWatermark) = _
  rw [drop_append_of_le_length h.highWatermark_le_length, registrations_append]
  rfl

theorem Laid.live_append : (s.append record).live = s.live ++ registrations [record] := by
  rw [(h.append record).live_eq, h.committed_append, h.tail_append, h.live_eq, append_assoc]

theorem Laid.mem_live_append (r : Registration) : r ∈ (s.append r.record).live := by
  rw [h.live_append]
  exact mem_append_right _ mem_cons_self

end

theorem committed_checkpoint : s.checkpoint.committed = s.live := by
  show _ ++ registrations ((s.log.take s.log.length).drop s.snapshotOffset) = _
  rw [take_length]
  rfl

theorem tail_checkpoint : s.checkpoint.tail = [] := by
  show registrations (s.log.drop s.log.length) = []
  rw [drop_length]
  rfl

variable {engine : Engine} {it : Iteration} {r : Registration} {kept : Nat}

theorem mem_registrations_singleton :
    r ∈ registrations [record] ↔ registration record = some r := by
  simp [registrations]

theorem Holds.append (h : s.Holds good id) (hl : s.Laid)
    (hgood : ∀ producer, registration record = some (id, producer) → good producer) :
    (s.append record).Holds good id := by
  refine ⟨h.memory, ?_⟩
  rw [hl.committed_append, hl.tail_append]
  refine ⟨h.disk.settled, fun producer hproducer => ?_⟩
  rcases mem_append.mp hproducer with hold | hnew
  · exact h.disk.tail producer hold
  · exact hgood producer (mem_registrations_singleton.mp hnew)

theorem Holds.checkpoint (h : s.Holds good id) (hl : s.Laid) : s.checkpoint.Holds good id := by
  refine ⟨h.memory, ?_⟩
  rw [committed_checkpoint, tail_checkpoint, hl.live_eq]
  exact h.disk.checkpoint

theorem Holds.write (h : s.Holds good id) (hl : s.Laid)
    (hgood : ∀ producer, registration record = some (id, producer) → good producer)
    (write : Write) : (s.write record write).Holds good id := by
  cases write with
  | lost => exact h
  | appended => exact h.append hl hgood
  | checkpointed | completed => exact (h.append hl hgood).checkpoint (hl.append record)

theorem Laid.committed_completed (h : s.Laid) :
    (s.write r.record .completed).committed = s.live ++ [r] := by
  rw [ProducerBroker.write, committed_checkpoint, h.live_append]
  rfl

theorem Laid.kept_completed (h : s.Laid) (hr : good r.2) :
    Table.Kept good r.1 (s.write r.record .completed).committed
      (s.write r.record .completed).tail := by
  rw [h.committed_completed, ProducerBroker.write, tail_checkpoint]
  exact Table.kept_snoc s.live hr

/-! ### Memory -/

theorem Holds.congr (h : s.Holds good id)
    (hproducers : engine.transactionalProducers = s.engine.transactionalProducers) :
    { s with engine }.Holds good id := by
  refine ⟨?_, h.disk⟩
  rw [hproducers]
  exact h.memory

theorem Holds.restore (h : s.Holds good id) (hr : id = r.1 → good r.2) :
    { s with engine := s.engine.restoreTransactionalProducer r.1 r.2 }.Holds good id := by
  refine ⟨?_, h.disk⟩
  rw [Engine.restoreTransactionalProducer]
  by_cases hid : id = r.1
  · rw [hid]
    exact ⟨r.2, Table.lookup_insert_self _ _ _, hr hid⟩
  · rw [Table.lookup_insert_of_ne _ hid]
    exact h.memory

theorem Laid.applyCommitted (h : s.Laid) (broker : Broker) : (s.applyCommitted broker).Laid :=
  { h with
    applied_le := Nat.max_le.mpr ⟨h.applied_le, Nat.le_refl _⟩
    snapshotOffset_le := Nat.le_trans h.snapshotOffset_le (Nat.le_max_left _ _) }

theorem Holds.applyCommitted (h : s.Holds good id) (hl : s.Laid) (broker : Broker) :
    (s.applyCommitted broker).Holds good id := by
  refine ⟨?_, h.disk⟩
  have hsettled := h.disk.settled
  rw [hl.committed_eq] at hsettled
  rw [ProducerBroker.applyCommitted, (run_applyMetadataRecord broker s.engine _).1]
  rcases hsettled.right_or with hright | hgood
  · exact hright.lookup _
  · exact Table.lookup_insertAll_of_forall h.memory hgood

/-- Applying a log that was applied up to a new registration finds that registration. -/
theorem lookup_applyCommitted_completed (hend : s.log.length = s.highWatermark)
    (happlied : s.applied = s.highWatermark) :
    ((({ s with engine }.write r.record .completed).applyCommitted
      broker).engine.transactionalProducers).lookup r.1 = some r.2 := by
  have hlast : ((s.log ++ [r.record]).take (s.log ++ [r.record]).length).drop s.applied =
      [r.record] := by
    rw [take_length, happlied, ← hend, drop_left]
  show (run _ engine (List.drop s.applied _)).transactionalProducers.lookup r.1 = some r.2
  rw [ProducerBroker.write, ProducerBroker.append, ProducerBroker.checkpoint, hlast]
  exact Table.lookup_insert_self _ _ _

/-! ### Snapshots and restarts -/

theorem registrations_buildMetadataSnapshotRecords :
    registrations (engine.buildMetadataSnapshotRecords it) = it.producers := by
  have hnone : ∀ {α : Type} (entries : List α) (record : α → MetadataRecord),
      (∀ entry, registration (record entry) = none) → registrations (entries.map record) = [] := by
    intro α entries record hrecord
    rw [registrations, filterMap_eq_nil_iff, forall_mem_map]
    exact fun entry _ => hrecord entry
  have htopics : registrations (it.topics.flatMap (Engine.topicRecords it)) = [] := by
    rw [registrations, filterMap_eq_nil_iff]
    intro record hrecord
    obtain ⟨entry, -, hrecord⟩ := mem_flatMap.mp hrecord
    rw [Engine.topicRecords, Engine.configRecords, mem_cons, mem_append] at hrecord
    rcases hrecord with rfl | hrecord | hrecord
    · rfl
    · obtain ⟨_, -, rfl⟩ := mem_map.mp hrecord
      rfl
    · split at hrecord
      · cases hrecord
      · rw [mem_singleton.mp hrecord]
        rfl
  have hproducers : registrations (it.producers.map Engine.producerRecord) = it.producers := by
    rw [registrations, filterMap_map]
    exact filterMap_some
  have htransactions : registrations
      (it.transactions.filterMap fun entry => engine.transactionRecord entry.2) = [] := by
    rw [registrations, filterMap_eq_nil_iff]
    intro record hrecord
    obtain ⟨_, -, hrecord⟩ := mem_filterMap.mp hrecord
    obtain ⟨_, -, rfl⟩ := Option.map_eq_some_iff.mp hrecord
    rfl
  simp [Engine.buildMetadataSnapshotRecords, registrations_append,
    hnone it.brokers engine.brokerRecord fun _ => rfl, htopics,
    hnone it.acls .aclCreated fun _ => rfl,
    hnone it.credentials (fun entry => Engine.credentialRecord entry.2) fun _ => rfl,
    hproducers, htransactions]

def withSnapshot (s : ProducerBroker) (it : Iteration) : ProducerBroker :=
  { s with snapshot := some (s.applied, s.engine.buildMetadataSnapshotRecords it) }

theorem Laid.withSnapshot (h : s.Laid) (it : Iteration) : (s.withSnapshot it).Laid :=
  { h with
    snapshotOffset_le := Nat.le_refl _
    logStart_le := Nat.le_trans h.logStart_le h.snapshotOffset_le }

theorem live_withSnapshot :
    (s.withSnapshot it).live = it.producers ++ registrations (s.log.drop s.applied) := by
  rw [← registrations_buildMetadataSnapshotRecords]
  rfl

theorem committed_withSnapshot : (s.withSnapshot it).committed =
      it.producers ++ registrations ((s.log.take s.highWatermark).drop s.applied) := by
  rw [← registrations_buildMetadataSnapshotRecords]
  rfl

theorem Holds.withSnapshot (h : s.Holds good id) (hl : s.Laid) (hit : it.Of s.engine) :
    (s.withSnapshot it).Holds good id := by
  obtain ⟨producer, hlookup, hproducer⟩ := h.memory
  refine ⟨h.memory, ?_, h.disk.tail⟩
  have hsettled := h.disk.settled
  rw [hl.committed_eq] at hsettled
  rw [committed_withSnapshot]
  rcases hsettled.right_or with hright | hgood
  · exact hright.prepend _
  · have hmem := (hit.producers.mem_iff id producer).mpr hlookup
    exact (Table.settled_of_mem hmem hit.producers.nodup hproducer).append hgood

theorem Laid.trim (h : s.Laid) (upTo : Nat) :
    { s with logStart := max s.logStart (min upTo s.snapshotOffset) }.Laid :=
  { h with logStart_le := Nat.max_le.mpr ⟨h.logStart_le, Nat.min_le_right _ _⟩ }

theorem Laid.restart (h : s.Laid) (broker : Broker) (hdurable : s.durable ≤ kept)
    (hkept : kept ≤ s.log.length) (opened : Finset (Text × UInt32)) :
    (s.restart broker kept opened).Laid := by
  have hlength : kept ≤ (s.log.take kept).length := by
    rw [length_take, Nat.min_eq_left hkept]
  exact
    { durable_le := hlength
      highWatermark_le := Nat.le_trans h.highWatermark_le hdurable
      applied_le := Nat.le_refl _
      snapshotOffset_le := Nat.le_trans h.snapshotOffset_le h.applied_le
      logStart_le := h.logStart_le
      boot_le := hlength }

theorem Laid.committed_restart (h : s.Laid) (broker : Broker) (hdurable : s.durable ≤ kept)
    (opened : Finset (Text × UInt32)) : (s.restart broker kept opened).committed = s.committed := by
  show _ ++ registrations (((s.log.take kept).take s.highWatermark).drop s.snapshotOffset) = _
  rw [take_take, Nat.min_eq_left (Nat.le_trans h.highWatermark_le hdurable)]
  rfl

theorem tail_restart_subset (broker : Broker) (s : ProducerBroker) (kept : Nat)
    (opened : Finset (Text × UInt32)) : (s.restart broker kept opened).tail ⊆ s.tail :=
  registrations_subset ((take_sublist _ _).drop _)

theorem Laid.registrations_replayed (h : s.Laid) :
    registrations (s.snapshotRecords ++ s.replayed) = s.committed := by
  rw [registrations_append, replayed, Nat.max_eq_right h.logStart_le, committed]

theorem Laid.producers_restart (h : s.Laid) (broker : Broker) (kept : Nat)
    (opened : Finset (Text × UInt32)) :
    (s.restart broker kept opened).engine.transactionalProducers = .ofList s.committed := by
  rw [ProducerBroker.restart, (run_applyMetadataRecord broker _ _).1, h.registrations_replayed]
  rfl

theorem Holds.restart (h : s.Holds good id) (hl : s.Laid) (broker : Broker)
    (hdurable : s.durable ≤ kept) (opened : Finset (Text × UInt32)) :
    (s.restart broker kept opened).Holds good id := by
  constructor
  · rw [hl.producers_restart]
    exact h.disk.settled.lookup _
  · rw [hl.committed_restart broker hdurable]
    exact h.disk.crash (tail_restart_subset broker s kept opened)

end ProducerBroker

end Bifrox.Transactions

/-
A producer that was superseded can do nothing more.

The requests of a producer are checked against memory before anything else happens, so one with a
smaller epoch leaves the broker as it is.
-/
import Bifrox.Transactions.Finality

namespace Bifrox.Transactions

open List Option

open Attempt (Spec spec_pure spec_throw spec_modify spec_get_bind spec_modify_bind
  spec_ensure_bind spec_demand_bind spec_lift_bind spec_lift_error)
open Metadata (Broker Engine TransactionState)
open Run (Guarded Always)
open Server (TransactionalProducerState)

/-! ## Specification -/

/-- The transaction that a request of a producer names, and the epoch it comes with. -/
def TxEvent.names : TxEvent → Option (Text × Int16)
  | .addPartitionsToTxn id _ producerEpoch _ _ _ => some (id, producerEpoch)
  | .produceBatch batch _ _ _ _ => some (batch.id, batch.producerEpoch)
  | .endTransaction id _ producerEpoch _ _ => some (id, producerEpoch)
  | _ => none

namespace TxBroker

/-- A request with an epoch below one that was returned for its id changes nothing. -/
def Fenced (broker : Broker) (s : TxBroker) : Prop :=
  ∀ r ∈ s.producers.returned, ∀ event producerEpoch,
    TxEvent.names event = some (r.1, producerEpoch) → producerEpoch < r.2.producerEpoch →
      step broker s event = s

/-- The transaction of an id that was open in the first state is completed in the second. -/
structure Completed (s s' : TxBroker) (id : Text) : Prop where
  closed : s'.isOngoing id = false
  outcome : ∀ state, s.state id = some state → isTerminal state.record.status = false →
    ∃ e decision, s'.stateLog.entries.getLast? = some e ∧
      s'.stateLog.highWatermark = s'.stateLog.entries.length ∧
      e.id = id ∧ e.origin = s.originOf id ∧ e.record.status = Decision.terminal decision ∧
      ∀ range ∈ state.record.partitions,
        s'.HasMarker id (s.originOf id) decision range.topic range.partition

/-- A step that returns an epoch has completed what was open. -/
def CompletesFirst (broker : Broker) (s : TxBroker) (event : TxEvent) : Prop :=
  ∀ r, (step broker s event).producers.returned = r :: s.producers.returned →
    Completed s (step broker s event) r.1

end TxBroker

/-! ## Registrations -/

theorem nextProducer_spec {s s' : Engine} {id : Text} {producer : TransactionalProducerState}
    (h : nextProducer s id = .ok (producer, s')) :
    s'.transactionalProducers = s.transactionalProducers ∧ (id = [] → producer.producerEpoch = 0) ∧
      (id ≠ [] → ∀ current, s.transactionalProducers.lookup id = some current →
        current.producerEpoch < producer.producerEpoch) := by
  rw [nextProducer] at h
  split at h
  · next hempty =>
    cases h
    exact ⟨rfl, fun _ => rfl, fun hne => absurd hempty hne⟩
  · next hne =>
    rw [nextTransactionalProducer] at h
    split at h
    · next current hlookup =>
      split at h
      · cases h
      · next hepoch =>
        cases h
        refine ⟨rfl, fun hempty => absurd hempty hne, fun _ current' hlookup' => ?_⟩
        rw [hlookup] at hlookup'
        exact some.inj hlookup' ▸ lt_add_one_of_ne hepoch
    · next hlookup =>
      cases h
      refine ⟨rfl, fun hempty => absurd hempty hne, fun _ current hlookup' => ?_⟩
      rw [hlookup] at hlookup'
      cases hlookup'

namespace ProducerBroker

/-- The epoch of a registration was not passed by. -/
def Reaches (r : Registration) (producer : TransactionalProducerState) : Prop :=
  r.2.producerEpoch ≤ producer.producerEpoch

structure Registered (s : ProducerBroker) : Prop extends Laid s where
  /-- Memory and any replay have the epochs that were returned, or larger ones. -/
  returned : ∀ r ∈ s.returned, s.Holds (Reaches r) r.1
  anonymous : ∀ r ∈ s.returned, r.1 = [] → r.2.producerEpoch = 0

theorem registered_start {broker : Broker} : (start broker).Registered :=
  { laid_start broker with
    returned := nofun
    anonymous := nofun }

variable {s : ProducerBroker} {broker : Broker}

section

variable (h : s.Registered) {new : Registration}
include h

/-- What a call registers reaches everything that was returned for its id. -/
theorem Registered.reaches_next {id : Text} {producer : TransactionalProducerState}
    {engine : Engine} (hnext : nextProducer s.engine id = .ok (producer, engine)) :
    ∀ r ∈ s.returned, r.1 = id → Reaches r producer := by
  intro r hr hid
  obtain ⟨-, hempty, hknown⟩ := nextProducer_spec hnext
  by_cases hne : id = []
  · show r.2.producerEpoch ≤ producer.producerEpoch
    rw [hempty hne, h.anonymous r hr (hid.trans hne)]
    exact Int16.le_refl 0
  · obtain ⟨current, hlookup, hreaches⟩ := (h.returned r hr).memory
    rw [hid] at hlookup
    exact Int16.le_of_lt (Int16.lt_of_le_of_lt hreaches (hknown hne current hlookup))

theorem Registered.withEngine {engine : Engine}
    (hproducers : engine.transactionalProducers = s.engine.transactionalProducers) :
    { s with engine }.Registered :=
  { h with returned := fun r hr => (h.returned r hr).congr hproducers }

theorem Registered.write (hreaches : ∀ r ∈ s.returned, r.1 = new.1 → Reaches r new.2)
    (write : Write) : (s.write new.record write).Registered := by
  have hreturned : (s.write new.record write).returned = s.returned := by cases write <;> rfl
  refine { h.toLaid.write new.record write with
    returned := fun r hr => ?_
    anonymous := fun r hr => h.anonymous r (hreturned ▸ hr) }
  rw [hreturned] at hr
  refine (h.returned r hr).write h.toLaid (fun producer hproducer => ?_) write
  obtain ⟨hid, rfl⟩ := Prod.mk.inj (some.inj hproducer)
  exact hreaches r hr hid.symm

theorem Registered.applyCommitted (broker : Broker) : (s.applyCommitted broker).Registered :=
  { h.toLaid.applyCommitted broker, h with
    returned := fun r hr => (h.returned r hr).applyCommitted h.toLaid broker }

theorem Registered.restore (hreaches : ∀ r ∈ s.returned, r.1 = new.1 → Reaches r new.2) :
    { s with engine := s.engine.restoreTransactionalProducer new.1 new.2 }.Registered :=
  { h with returned := fun r hr => (h.returned r hr).restore (hreaches r hr) }

theorem Registered.handOut (hlookup : s.engine.transactionalProducers.lookup new.1 = some new.2)
    (hdisk : Table.Kept (Reaches new) new.1 s.committed s.tail)
    (hempty : new.1 = [] → new.2.producerEpoch = 0) :
    { s with returned := new :: s.returned }.Registered := by
  refine { h with
    returned := fun r hr => ?_
    anonymous := fun r hr => ?_ }
  · rcases mem_cons.mp hr with rfl | hr
    · exact ⟨⟨r.2, hlookup, Int16.le_refl _⟩, hdisk⟩
    · exact ⟨(h.returned r hr).memory, (h.returned r hr).disk⟩
  · rcases mem_cons.mp hr with rfl | hr
    · exact hempty
    · exact h.anonymous r hr

theorem Registered.initProducerId (id : Text) (write : Write) :
    (s.initProducerId id write).Registered := by
  rw [ProducerBroker.initProducerId]
  split
  · exact h
  · next producer engine hnext =>
    obtain ⟨hproducers, hempty, -⟩ := nextProducer_spec hnext
    have hs := h.withEngine hproducers
    have hreaches := h.reaches_next hnext
    have hwritten : ({ s with engine }.write (Registration.record (id, producer))
        write).Registered := hs.write hreaches write
    cases write with
    | completed =>
      have hrestored := hwritten.restore (show ∀ r ∈ s.returned, r.1 = (id, producer).1 → Reaches r
        (id, producer).2 from hreaches)
      exact hrestored.handOut (Table.lookup_insert_self _ _ _)
        (hs.kept_completed (r := (id, producer)) (Int16.le_refl _)) hempty
    | _ => exact hwritten

theorem Registered.proposeRegistration
    (hend : s.log.length = s.highWatermark) (happlied : s.applied = s.highWatermark) (id : Text)
    (write : Write) : (s.proposeRegistration broker id write).Registered := by
  rw [ProducerBroker.proposeRegistration]
  split
  · exact h
  · next producer engine hnext =>
    obtain ⟨hproducers, hempty, -⟩ := nextProducer_spec hnext
    have hs := h.withEngine hproducers
    have hwritten : ({ s with engine }.write (Registration.record (id, producer))
        write).Registered := hs.write (h.reaches_next hnext) write
    cases write with
    | completed =>
      exact (hwritten.applyCommitted broker).handOut
        (lookup_applyCommitted_completed hend happlied)
        (hs.kept_completed (r := (id, producer)) (Int16.le_refl _)) hempty
    | _ => exact { hwritten with
        returned := fun r hr => ⟨(hwritten.returned r hr).memory, (hwritten.returned r hr).disk⟩ }

theorem Registered.restart (broker : Broker) {kept : Nat}
    (hdurable : s.durable ≤ kept) (hkept : kept ≤ s.log.length)
    (opened : Finset (Text × UInt32)) : (s.restart broker kept opened).Registered :=
  { h.toLaid.restart broker hdurable hkept opened with
    returned := fun r hr => (h.returned r hr).restart h.toLaid broker hdurable opened
    anonymous := h.anonymous }

end

end ProducerBroker

/-! ## Requests with an old epoch -/

section Validation

variable {producers : Table Text TransactionalProducerState} {id : Text} {producerEpoch : Int16}
  {current : TransactionalProducerState} {producerId : UInt64}

theorem validateTransactionalProducer_of_lt (hlookup : producers.lookup id = some current)
    (hlt : producerEpoch < current.producerEpoch) :
    ∃ e, validateTransactionalProducer producers id producerId producerEpoch = .error e := by
  rw [validateTransactionalProducer, hlookup]
  by_cases hid : current.producerId ≠ producerId
  · exact ⟨_, if_pos hid⟩
  · have hne : current.producerEpoch ≠ producerEpoch := (Int16.ne_of_lt hlt).symm
    exact ⟨_, (if_neg hid).trans (if_pos hne)⟩

theorem validateIfInitialized_of_lt (hlookup : producers.lookup id = some current)
    (hlt : producerEpoch < current.producerEpoch) :
    ∃ e, validateIfInitialized producers id producerId producerEpoch = .error e := by
  have hsome : (producers.lookup id).isSome := by rw [hlookup]; rfl
  rw [validateIfInitialized, if_pos hsome]
  exact validateTransactionalProducer_of_lt hlookup hlt

end Validation

namespace TxBroker

variable {s : TxBroker} {id : Text} {broker : Broker}

theorem fenced_of_registered (h : s.producers.Registered) : Fenced broker s := by
  intro r hr event producerEpoch hnames hlt
  obtain ⟨current, hlookup, hreaches⟩ := (h.returned r hr).memory
  have hbelow := Int16.lt_of_lt_of_le hlt hreaches
  -- a check that fails ends the request where it started
  have hsame : ∀ s' : TxBroker, s' = s → s' = s := fun _ hs' => hs'
  have hspec : ∀ {f : TxBroker → Attempt Unit},
      Spec (· = s) (f s) (fun _ s' => s' = s) (· = s) → Attempt.after (get >>= f) s = s := by
    intro f hf
    have hget : Spec (· = s) (get >>= f) (fun _ s' => s' = s) (· = s) :=
      spec_get_bind fun s' hs' => hs' ▸ hf
    exact hget.after rfl
  cases event with
  | addPartitionsToTxn =>
    obtain ⟨hid, rfl⟩ := Prod.mk.inj (some.inj hnames)
    exact hspec (spec_lift_error (validateIfInitialized_of_lt (hid ▸ hlookup) hbelow) hsame)
  | produceBatch =>
    obtain ⟨hid, rfl⟩ := Prod.mk.inj (some.inj hnames)
    exact hspec (spec_ensure_bind hsame fun _ => spec_lift_error
      (validateIfInitialized_of_lt (hid ▸ hlookup) hbelow) hsame)
  | endTransaction =>
    obtain ⟨hid, rfl⟩ := Prod.mk.inj (some.inj hnames)
    exact hspec (spec_lift_error (validateTransactionalProducer_of_lt (hid ▸ hlookup) hbelow) hsame)
  | _ => cases hnames

/-! ## The end of the previous transaction -/

variable {s' : TxBroker} {r : Running} {writes : EndWrites}
  {change : Option TransactionState → Except TxError TransactionState} {write : Write}

theorem spec_transition_producers : Spec (· = s) (transition id change write)
      (fun r s' => s'.producers = s.producers ∧ change (s.state id) = .ok r.state ∧
        r.origin = s.originOf id) (fun s' => s'.producers = s.producers) := by
  have hadvance : Spec (· = s) (transition id change write)
      (fun r s' => change (s.state id) = .ok r.state ∧ Encodable r.record ∧
        r.origin = s.originOf id ∧ s' = s.advance id r.state)
      (fun s' => s'.producers = s.producers) := spec_transition_advance rfl rfl fun _ _ _ => rfl
  exact hadvance.weaken (fun _ hs => hs) fun _ _ hs => ⟨hs.2.2.2 ▸ rfl, hs.1, hs.2.2.1⟩

theorem spec_endTransactionInner_completed {d : Decision} :
    Spec (· = s) (endTransactionInner d id writes)
      (fun _ s' => s'.producers = s.producers ∧ Completed s s' id)
      (fun s' => s'.producers = s.producers) := by
  refine spec_endTransactionInner_of spec_transition_producers
    (fun _ _ _ _ _ hs => hs) (fun _ _ hs => hs.1) (fun _ _ _ _ hs _ => hs.1)
    fun r s₁ ends r' hs hmarked => ?_
  obtain ⟨hproducers, hchange, horigin⟩ := hs
  rw [cleanup_complete]
  refine ⟨hproducers, ?_, fun state hstate _ => ?_⟩
  · show Option.any _ (Option.map _ (Option.map _ (Table.lookup (Table.erase _ id) id))) = false
    rw [Table.lookup_erase_self]
    rfl
  · obtain ⟨-, -, state', hstate', hpartitions⟩ := advances_prepareChange hchange
    obtain rfl := some.inj (hstate.symm.trans hstate')
    refine ⟨outcome id r d ends, d, getLast?_concat, rfl, rfl, horigin, rfl,
      fun range hrange => ?_⟩
    rw [← horigin]
    exact hmarked range (hpartitions ▸ hrange)

theorem spec_finishPreviousTransaction_completed :
    Spec (· = s) (finishPreviousTransaction id writes)
      (fun _ s' => s'.producers = s.producers ∧ Completed s s' id)
      (fun s' => s'.producers = s.producers) := by
  refine spec_get_bind fun s' hs' => ?_
  rw [hs']
  split
  · exact spec_endTransactionInner_completed
  · next hcommit =>
    split
    · exact spec_endTransactionInner_completed
    · next habort =>
      refine spec_pure fun s' hs' => ?_
      -- a transaction in memory that is in none of the other states is over
      have hterminal : ∀ state, s.state id = some state →
          isTerminal state.record.status = true := by
        intro state hstate
        rw [getStatus, hstate] at hcommit habort
        cases hstatus : state.record.status <;> simp_all [isTerminal]
      rw [hs']
      refine ⟨rfl, ?_, fun state hstate hopen => ?_⟩
      · rw [isOngoing, getStatus]
        cases hstate : s.state id with
        | none => rfl
        | some state =>
          show (!isTerminal state.record.status) = false
          rw [hterminal state hstate]
          rfl
      · rw [hterminal state hstate] at hopen
        cases hopen

/-! ## Steps -/

/-- What holds of a step whatever it does. -/
structure Proper (s s' : TxBroker) : Prop where
  completes : ∀ r, s'.producers.returned = r :: s.producers.returned → Completed s s' r.1
  registered : s.producers.Registered → s'.producers.Registered

theorem proper_of_eq (h : s'.producers = s.producers) : Proper s s' where
  completes r hr := by
    rw [h] at hr
    exact absurd hr.symm (cons_ne_self _ _)
  registered hr := h ▸ hr

/-- A request that leaves the registrations alone. -/
def KeepsProducers {α : Type} (x : Attempt α) : Prop :=
  ∀ s : TxBroker, Spec (· = s) x (fun _ s' => s'.producers = s.producers)
    (fun s' => s'.producers = s.producers)

theorem KeepsProducers.proper {x : Attempt Unit} (h : KeepsProducers x) (s : TxBroker) :
    Proper s (Attempt.after x s) := proper_of_eq ((h s).after rfl)

theorem KeepsProducers.spec {α : Type} {x : Attempt α} (h : KeepsProducers x)
    (producers : ProducerBroker) :
    Spec (fun s => s.producers = producers) x (fun _ s => s.producers = producers)
      (fun s => s.producers = producers) := fun s hs => hs ▸ h s s rfl

theorem keepsProducers_transition : KeepsProducers (transition id change write) := fun _ =>
  spec_transition_producers.weaken (fun _ hs' => hs') fun _ _ hs' => hs'.1

theorem keepsProducers_endTransactionInner {d : Decision} :
    KeepsProducers (endTransactionInner d id writes) := fun _ =>
  spec_endTransactionInner_completed.weaken (fun _ hs' => hs') fun _ _ hs' => hs'.1

theorem keepsProducers_appendBatch {batch : TxBatch} {append : Append} :
    KeepsProducers (appendBatch batch append) := by
  intro s
  cases append with
  | failed => exact spec_throw fun s' hs' => hs' ▸ rfl
  | unsynced => exact spec_modify_bind (spec_throw fun s' hs' => hs' ▸ rfl)
  | stored =>
    refine spec_get_bind fun s' hs' => ?_
    rw [hs']
    exact spec_modify_bind (spec_pure fun s' hs' => hs' ▸ rfl)
  | duplicate =>
    exact spec_ensure_bind (fun s' hs' => hs' ▸ rfl) fun _ => spec_pure fun s' hs' => hs' ▸ rfl

theorem keepsProducers_produceBatchLocal {batch : TxBatch}
    {refusal : Option Server.ProduceError} {first : Write} {append : Append} {second : Write} :
    KeepsProducers (produceBatchLocal broker batch refusal first append second) := by
  intro s
  have hfail : ∀ s' : TxBroker, s' = s → s'.producers = s.producers := fun _ hs' => hs' ▸ rfl
  refine spec_get_bind fun s' hs' => ?_
  rw [hs']
  refine spec_ensure_bind hfail fun _ => spec_lift_bind hfail fun _ _ => ?_
  refine spec_ensure_bind hfail fun _ => spec_lift_bind hfail fun _ _ => ?_
  refine spec_lift_bind hfail fun _ _ => spec_demand_bind hfail fun _ _ => ?_
  refine spec_ensure_bind hfail fun _ => ?_
  refine (keepsProducers_transition s).bind fun _ => ?_
  refine (keepsProducers_appendBatch.spec s.producers).bind fun firstOffset => ?_
  exact (keepsProducers_transition.spec s.producers).bind fun _ => spec_pure fun _ hs' => hs'

theorem Completed.proper (h : Completed s s' id) {producers : ProducerBroker}
    (hreturned : producers.returned = s.producers.returned ∨
      ∃ producer, producers.returned = (id, producer) :: s.producers.returned)
    (hregistered : s.producers.Registered → producers.Registered) :
    Proper s { s' with producers } where
  completes r hr := by
    rcases hreturned with hsame | ⟨producer, hnew⟩
    · exact absurd (hr.symm.trans hsame) (cons_ne_self _ _)
    · obtain rfl := (cons.inj (hr.symm.trans hnew)).1
      exact ⟨h.closed, h.outcome⟩
  registered := hregistered

theorem proper_initProducerId : Proper s (Attempt.after (initProducerId id writes write) s) := by
  have hspec : Spec (· = s) (initProducerId id writes write) (fun _ => Proper s) (Proper s) := by
    refine (spec_finishPreviousTransaction_completed.weaken_fail
      fun _ => proper_of_eq).bind fun _ => spec_modify fun s' hs' => ?_
    refine hs'.2.proper ?_ fun hr => ?_
    · rw [← hs'.1, ProducerBroker.initProducerId]
      split
      · exact .inl rfl
      · next producer engine hnext =>
        cases write with
        | completed => exact .inr ⟨producer, rfl⟩
        | _ => exact .inl rfl
    · rw [hs'.1]
      exact hr.initProducerId id write
  exact hspec.after rfl

def applied (broker : Broker) (s : TxBroker) : TxBroker :=
  { s with producers := s.producers.applyCommitted broker }

theorem proper_initProducerIdCoordinated :
    Proper s (Attempt.after (initProducerIdCoordinated broker id writes write) s) := by
  have happlied : ∀ s', s'.producers = (s.applied broker).producers → Proper s s' := by
    intro s' hs'
    refine ⟨fun r hr => ?_, fun hr => ?_⟩
    · rw [hs'] at hr
      exact absurd hr.symm (cons_ne_self _ _)
    · rw [hs']
      exact hr.applyCommitted broker
  have hspec : Spec (· = s) (initProducerIdCoordinated broker id writes write)
      (fun _ => Proper s) (Proper s) := by
    refine spec_get_bind fun s' hs' => ?_
    rw [hs']
    refine spec_ensure_bind (fun s' hs' => proper_of_eq (hs' ▸ rfl)) fun _ => spec_modify_bind ?_
    refine spec_ensure_bind (fun s' hs' => happlied s' (hs' ▸ rfl)) fun hend => ?_
    refine (spec_finishPreviousTransaction_completed.weaken_fail
      happlied).bind fun _ => spec_modify fun s' hs' => ?_
    have hcompleted : Completed s s' id := ⟨hs'.2.closed, hs'.2.outcome⟩
    refine hcompleted.proper ?_ fun hr => ?_
    · rw [hs'.1, ProducerBroker.proposeRegistration]
      split
      · exact .inl rfl
      · next producer engine hnext =>
        cases write with
        | completed => exact .inr ⟨producer, rfl⟩
        | _ => exact .inl rfl
    · rw [hs'.1]
      exact (hr.applyCommitted broker).proposeRegistration hend (Nat.max_eq_right hr.applied_le)
        id write
  exact hspec.after rfl

theorem proper_restart {c : Crash} : Proper s (s.restart broker c) where
  completes r hr := absurd hr.symm (cons_ne_self _ _)
  registered hr := by
    refine hr.restart broker (Nat.le_max_left _ _) ?_ c.opened
    exact Nat.max_le.mpr ⟨hr.durable_le, Nat.min_le_right _ _⟩

theorem proper_step {event : TxEvent} : Proper s (step broker s event) := by
  cases event with
  | beginTransaction =>
    exact KeepsProducers.proper (fun s => (keepsProducers_transition s).bind
      fun _ => spec_pure fun _ hs' => hs') s
  | addPartitionsToTxn =>
    refine KeepsProducers.proper (fun s => ?_) s
    have hfail : ∀ s' : TxBroker, s' = s → s'.producers = s.producers := fun _ hs' => hs' ▸ rfl
    refine spec_get_bind fun s' hs' => ?_
    rw [hs']
    refine spec_lift_bind hfail fun _ _ => spec_lift_bind hfail fun _ _ => ?_
    exact (keepsProducers_transition s).bind fun _ => spec_pure fun _ hs' => hs'
  | produceBatch =>
    exact keepsProducers_produceBatchLocal.proper s
  | commitTransaction =>
    exact keepsProducers_endTransactionInner.proper s
  | abortTransaction =>
    exact keepsProducers_endTransactionInner.proper s
  | endTransaction =>
    refine KeepsProducers.proper (fun s => ?_) s
    refine spec_get_bind fun s' hs' => ?_
    rw [hs']
    refine spec_lift_bind (fun s' hs' => hs' ▸ rfl) fun _ _ => ?_
    split <;> exact keepsProducers_endTransactionInner s
  | initProducerId => exact proper_initProducerId
  | initProducerIdCoordinated =>
    exact proper_initProducerIdCoordinated
  | sweep =>
    refine KeepsProducers.proper ?_ s
    rw [sweepExpired]
    split <;> exact keepsProducers_endTransactionInner
  | restart => exact proper_restart

def Registered (s : TxBroker) : Prop := s.producers.Registered

/-- In every run a request with an epoch below one that was returned changes nothing, and an epoch
is returned only after the transaction that was open is completed. -/
theorem fenced_and_completesFirst (broker : Broker) (events : List TxEvent) :
    Always (step broker) (Fenced broker) (start broker) events ∧
      Guarded (step broker) (CompletesFirst broker) (start broker) events := by
  have hany : Guarded (step broker) (fun _ _ => True) (start broker) events :=
    Guarded.of_forall fun _ _ => trivial
  constructor
  · exact hany.always (fun s (hs : Registered s) => fenced_of_registered hs)
      (fun s event (hs : Registered s) _ => proper_step.registered hs)
      ProducerBroker.registered_start
  · exact hany.imp (fun _ _ (_ : True) _ => trivial)
      (fun s event _ _ => proper_step.completes) trivial

end TxBroker

end Bifrox.Transactions

/-
Producer ids are not handed out twice.

The counter of producer ids is not stored anywhere.  A registration that was written but is not
committed can be missed by a restart and committed after it.
-/
import Bifrox.Transactions.Registrations

namespace Bifrox.Transactions

open List
open Metadata (Broker Engine Iteration MetadataRecord)
open Run (run Guarded Always)
open Server (TransactionalProducerState)

namespace ProducerBroker

variable (broker : Broker) (s : ProducerBroker)

/-! ## Specification -/

/-- What a later call returns is new: the same transactional id gets a larger epoch, and
everyone else another producer id. -/
structure Supersedes (newer older : Registration) : Prop where
  epoch : newer.1 = older.1 → newer.1 ≠ [] → older.2.producerEpoch < newer.2.producerEpoch
  producerId : newer.1 ≠ older.1 ∨ newer.1 = [] → newer.2.producerId ≠ older.2.producerId

def Distinct : Prop := s.returned.Pairwise Supersedes

/-- A snapshot goes through the maps of the engine. -/
def Iterates : ProducerEvent → Prop
  | .snapshot it => it.Of s.engine
  | _ => True

/-- The condition: there is an id left, and a call that is not coordinated comes after everything
that the last restart found in the log was applied. -/
def Recovered : ProducerEvent → Prop
  | .initProducerId _ _ => s.boot ≤ s.applied ∧ s.engine.nextProducerId + 1 < 2 ^ 64
  | .initProducerIdCoordinated _ _ =>
    (s.applyCommitted broker).engine.nextProducerId + 1 < 2 ^ 64
  | _ => True

instance : (event : ProducerEvent) → Decidable (s.Recovered broker event)
  | .initProducerId _ _ => inferInstanceAs (Decidable (_ ∧ _))
  | .initProducerIdCoordinated _ _ => inferInstanceAs (Decidable (_ < _))
  | .register _ _ | .snapshot _ | .trim _ | .restart _ _ => .isTrue trivial

/-! ## What every step keeps -/

/-- What may come after a registration of the same id. -/
def Follows (r : Registration) (producer : TransactionalProducerState) : Prop :=
  r.2.producerId ≤ producer.producerId ∧ (r.1 ≠ [] → producer.producerId = r.2.producerId ∧
      r.2.producerEpoch ≤ producer.producerEpoch)

theorem Follows.rfl (r : Registration) : Follows r r.2 :=
  ⟨UInt64.le_refl _, fun _ => ⟨Eq.refl _, Int16.le_refl _⟩⟩

structure Sound : Prop extends Laid s where
  next_lt : s.engine.nextProducerId < 2 ^ 64
  /-- What was returned is on disk and in memory, or something that follows it. -/
  returned : ∀ r ∈ s.returned, s.Holds (Follows r) r.1
  known : ∀ id producer, s.engine.transactionalProducers.lookup id = some producer →
    producer.producerId.toNat < s.engine.nextProducerId ∧
      ∃ r ∈ s.live, r.1 = id ∧ r.2.producerId = producer.producerId
  owner : ∀ r ∈ s.live ++ s.returned, ∀ r' ∈ s.live ++ s.returned,
    r.2.producerId = r'.2.producerId → r.1 = r'.1
  room : ∀ r ∈ s.live, r.2.producerId.toNat + 1 < 2 ^ 64
  /-- The counter is past everything that the broker knows of. -/
  passed : ∀ r, r ∈ registrations s.snapshotRecords ∨
    r ∈ registrations ((s.log.take s.applied).drop s.snapshotOffset) ∨
    r ∈ registrations (s.log.drop s.boot) ∨ r ∈ s.returned →
      r.2.producerId.toNat < s.engine.nextProducerId
  distinct : s.Distinct

theorem sound_start : (start broker).Sound :=
  { laid_start broker with
    next_lt := show 1 < 2 ^ 64 by decide
    returned := nofun
    known := nofun
    owner := nofun
    room := nofun
    passed := fun r h => by
      rcases h with h | h | h | h <;> cases h
    distinct := List.Pairwise.nil }

variable {broker s}

theorem lt_nextCandidate {producerId : UInt64} (h : producerId.toNat + 1 < 2 ^ 64) :
    producerId.toNat < Engine.nextCandidate producerId := by
  rw [Engine.nextCandidate]
  omega

variable {r : Registration}

theorem Sound.passed_of_mem_live (h : s.Sound) (hboot : s.boot ≤ s.applied) (hr : r ∈ s.live) :
    r.2.producerId.toNat < s.engine.nextProducerId := by
  rw [live, registrations_drop h.snapshotOffset_le] at hr
  rcases mem_append.mp hr with hr | hr
  · exact h.passed r (.inl hr)
  · rcases mem_append.mp hr with hr | hr
    · exact h.passed r (.inr (.inl hr))
    · refine h.passed r (.inr (.inr (.inl (registrations_subset ?_ hr))))
      exact drop_sublist_drop_left _ hboot

/-! ## A call -/

/-- A registration that may be written and handed out. -/
structure Fits (s : ProducerBroker) (r : Registration) : Prop where
  passed : r.2.producerId.toNat < s.engine.nextProducerId
  owner : ∀ r' ∈ s.live ++ s.returned, r.2.producerId = r'.2.producerId → r.1 = r'.1
  follows : ∀ r' ∈ s.returned, r'.1 = r.1 → Follows r' r.2
  supersedes : ∀ r' ∈ s.returned, Supersedes r r'

theorem Sound.generate (h : s.Sound) {engine : Engine}
    (hproducers : engine.transactionalProducers = s.engine.transactionalProducers)
    (hnext : s.engine.nextProducerId ≤ engine.nextProducerId)
    (hlt : engine.nextProducerId < 2 ^ 64) : { s with engine }.Sound :=
  { h with
    next_lt := hlt
    returned := fun r hr => (h.returned r hr).congr hproducers
    known := fun id producer hlookup => by
      rw [hproducers] at hlookup
      exact ⟨Nat.lt_of_lt_of_le (h.known id producer hlookup).1 hnext,
        (h.known id producer hlookup).2⟩
    passed := fun r hr => Nat.lt_of_lt_of_le (h.passed r hr) hnext }

variable {producer : TransactionalProducerState}

section

variable (h : s.Sound) {record : MetadataRecord} {id : Text}
include h

/-- An id of the counter is above everything on disk. -/
theorem Sound.fits_new (hboot : s.boot ≤ s.applied) {engine : Engine}
    (hunknown : id ≠ [] → s.engine.transactionalProducers.lookup id = none)
    (hid : producer.producerId.toNat = s.engine.nextProducerId)
    (hnext : engine.nextProducerId = s.engine.nextProducerId + 1) :
    Fits { s with engine } (id, producer) := by
  have hlt : ∀ r ∈ s.live ++ s.returned, r.2.producerId.toNat < producer.producerId.toNat := by
    intro r hr
    rw [hid]
    rcases mem_append.mp hr with hr | hr
    · exact h.passed_of_mem_live hboot hr
    · exact h.passed r (.inr (.inr (.inr hr)))
  have hne : ∀ r ∈ s.live ++ s.returned, producer.producerId ≠ r.2.producerId := by
    intro r hr heq
    have := hlt r hr
    rw [heq] at this
    exact Nat.lt_irrefl _ this
  -- an id that was returned is in memory
  have hempty : ∀ r ∈ s.returned, r.1 = id → id = [] := by
    intro r hr hrid
    by_contra hid'
    obtain ⟨_, hlookup, -⟩ := (h.returned r hr).memory
    rw [hrid, hunknown hid'] at hlookup
    cases hlookup
  refine ⟨?_, fun r hr heq => absurd heq (hne r hr), fun r hr hrid => ⟨?_, fun hrne => ?_⟩,
    fun r hr => ⟨fun hrid hidne => ?_, fun _ => hne r (mem_append_right _ hr)⟩⟩
  · show producer.producerId.toNat < engine.nextProducerId
    omega
  · exact UInt64.le_iff_toNat_le.mpr (Nat.le_of_lt (hlt r (mem_append_right _ hr)))
  · exact absurd (hrid.trans (hempty r hr hrid)) hrne
  · exact absurd (hempty r hr hrid.symm) hidne

/-- A known id goes on with its producer id and a larger epoch. -/
theorem Sound.fits_known {current : TransactionalProducerState}
    (hne : id ≠ []) (hlookup : s.engine.transactionalProducers.lookup id = some current)
    (hid : producer.producerId = current.producerId)
    (hepoch : current.producerEpoch < producer.producerEpoch) : Fits s (id, producer) := by
  obtain ⟨hpassed, source, hsource, rfl, hsourceId⟩ := h.known id current hlookup
  have howner : ∀ r ∈ s.live ++ s.returned, producer.producerId = r.2.producerId →
      source.1 = r.1 := fun r hr heq =>
    h.owner source (mem_append_left _ hsource) r hr (hsourceId.trans (hid.symm.trans heq))
  have hfollows : ∀ r ∈ s.returned, r.1 = source.1 → Follows r current := by
    intro r hr hrid
    obtain ⟨producer', hlookup', hfollows⟩ := (h.returned r hr).memory
    rw [hrid, hlookup, Option.some.injEq] at hlookup'
    exact hlookup' ▸ hfollows
  refine ⟨hid ▸ hpassed, howner, fun r hr hrid => ?_, fun r hr => ⟨fun hrid _ => ?_, fun hor => ?_⟩⟩
  · obtain ⟨hle, hsame⟩ := hfollows r hr hrid
    refine ⟨hid ▸ hle, fun hrne => ⟨hid.trans (hsame hrne).1, ?_⟩⟩
    exact Int16.le_of_lt (Int16.lt_of_le_of_lt (hsame hrne).2 hepoch)
  · have hsame := (hfollows r hr hrid.symm).2 fun hr' => hne (hrid.trans hr')
    exact Int16.lt_of_le_of_lt hsame.2 hepoch
  · intro heq
    have hsame := howner r (mem_append_right _ hr) heq
    exact hor.elim (fun hother => hother hsame) hne

theorem Sound.fits (hboot : s.boot ≤ s.applied) {engine : Engine}
    (hroom : s.engine.nextProducerId + 1 < 2 ^ 64)
    (hsucceeds : Succeeds s.engine id producer engine) :
    { s with engine }.Sound ∧ Fits { s with engine } (id, producer) := by
  cases hsucceeds with
  | new unknown producerId producers next =>
    refine ⟨h.generate producers ?_ ?_, h.fits_new hboot unknown producerId next⟩ <;> omega
  | known current nonempty lookup producerId epoch =>
    exact ⟨h, h.fits_known nonempty lookup producerId epoch⟩

/-! ## Writes -/

theorem Sound.append
    (hfits : ∀ r, registration record = some r → Fits s r) : (s.append record).Sound := by
  have hlive : ∀ r ∈ (s.append record).live, r ∈ s.live ∨ registration record = some r := by
    intro r hr
    rw [h.live_append] at hr
    exact (mem_append.mp hr).imp_right mem_registrations_singleton.mp
  have hall : ∀ r ∈ (s.append record).live ++ s.returned,
      r ∈ s.live ++ s.returned ∨ registration record = some r := by
    intro r hr
    rcases mem_append.mp hr with hr | hr
    · exact (hlive r hr).imp_left (mem_append_left _)
    · exact .inl (mem_append_right _ hr)
  refine { h.toLaid.append record with
    next_lt := h.next_lt
    returned := fun r hr => (h.returned r hr).append h.toLaid ?_
    known := fun id producer hlookup => ?_
    owner := fun r hr r' hr' heq => ?_
    room := fun r hr => ?_
    passed := fun r hr => ?_
    distinct := h.distinct }
  · exact fun producer hnew => (hfits _ hnew).follows r hr rfl
  · obtain ⟨hpassed, r, hr, hrid⟩ := h.known id producer hlookup
    rw [h.live_append]
    exact ⟨hpassed, r, mem_append_left _ hr, hrid⟩
  · rcases hall r hr with hold | hnew
    · rcases hall r' hr' with hold' | hnew'
      · exact h.owner r hold r' hold' heq
      · exact ((hfits r' hnew').owner r hold heq.symm).symm
    · rcases hall r' hr' with hold' | hnew'
      · exact (hfits r hnew).owner r' hold' heq
      · rw [Option.some.inj (hnew.symm.trans hnew')]
  · rcases hlive r hr with hold | hnew
    · exact h.room r hold
    · exact Nat.lt_of_le_of_lt (hfits r hnew).passed h.next_lt
  · rcases hr with hr | hr | hr | hr
    · exact h.passed r (.inl hr)
    · rw [ProducerBroker.append, take_append_of_le_length h.applied_le_length] at hr
      exact h.passed r (.inr (.inl hr))
    · rw [ProducerBroker.append, drop_append_of_le_length h.boot_le, registrations_append] at hr
      rcases mem_append.mp hr with hold | hnew
      · exact h.passed r (.inr (.inr (.inl hold)))
      · exact (hfits r (mem_registrations_singleton.mp hnew)).passed
    · exact h.passed r (.inr (.inr (.inr hr)))

theorem Sound.checkpoint : s.checkpoint.Sound :=
  { h.toLaid.checkpoint, h with
    returned := fun r hr => (h.returned r hr).checkpoint h.toLaid }

theorem Sound.write (hfits : ∀ r, registration record = some r → Fits s r) (write : Write) :
    (s.write record write).Sound := by
  cases write with
  | lost => exact h
  | appended => exact h.append hfits
  | checkpointed | completed => exact (h.append hfits).checkpoint

theorem Sound.write_registration (hfits : Fits s r) (write : Write) :
    (s.write r.record write).Sound := by
  refine h.write ?_ write
  intro r' hr'
  exact Option.some.inj hr' ▸ hfits

/-! ## Memory -/

theorem Sound.applyCommitted (broker : Broker) : (s.applyCommitted broker).Sound := by
  obtain ⟨hproducers, hnext, hpassed, hlt⟩ := run_applyMetadataRecord broker s.engine
    ((s.log.take s.highWatermark).drop s.applied)
  have hlive : registrations ((s.log.take s.highWatermark).drop s.applied) ⊆ s.live := by
    intro r hr
    refine committed_subset_live s ?_
    rw [h.committed_eq]
    exact mem_append_right _ hr
  have hnew : ∀ r ∈ registrations ((s.log.take s.highWatermark).drop s.applied),
      r.2.producerId.toNat < (s.applyCommitted broker).engine.nextProducerId := fun r hr =>
    Nat.lt_of_lt_of_le (lt_nextCandidate (h.room r (hlive hr))) (hpassed r hr)
  refine { h.toLaid.applyCommitted broker, h with
    next_lt := hlt h.next_lt
    returned := fun r hr => (h.returned r hr).applyCommitted h.toLaid broker
    known := fun id producer hlookup => ?_
    passed := fun r hr => ?_ }
  · rw [ProducerBroker.applyCommitted, hproducers] at hlookup
    rcases Table.mem_or_of_lookup_insertAll hlookup with hmem | hold
    · exact ⟨hnew _ hmem, _, hlive hmem, rfl, rfl⟩
    · exact ⟨Nat.lt_of_lt_of_le (h.known id producer hold).1 hnext, (h.known id producer hold).2⟩
  · rcases hr with hr | hr | hr
    · exact Nat.lt_of_lt_of_le (h.passed r (.inl hr)) hnext
    · change r ∈ registrations
        ((s.log.take (max s.applied s.highWatermark)).drop s.snapshotOffset) at hr
      rw [Nat.max_eq_right h.applied_le,
        registrations_drop_take h.snapshotOffset_le h.applied_le] at hr
      rcases mem_append.mp hr with hr | hr
      · exact Nat.lt_of_lt_of_le (h.passed r (.inr (.inl hr))) hnext
      · exact hnew r hr
    · exact Nat.lt_of_lt_of_le (h.passed r (.inr (.inr hr))) hnext

theorem Sound.restore (hr : r ∈ s.live)
    (hfollows : ∀ r' ∈ s.returned, r'.1 = r.1 → Follows r' r.2) :
    { s with engine := s.engine.restoreTransactionalProducer r.1 r.2 }.Sound := by
  have hroom := h.room r hr
  have hnext : s.engine.nextProducerId ≤
      (s.engine.restoreTransactionalProducer r.1 r.2).nextProducerId := Nat.le_max_left _ _
  refine { h with
    next_lt := ?_
    returned := fun r' hr' => (h.returned r' hr').restore (hfollows r' hr')
    known := fun id producer hlookup => ?_
    passed := fun r' hr' => Nat.lt_of_lt_of_le (h.passed r' hr') hnext }
  · refine Nat.max_lt.mpr ⟨h.next_lt, ?_⟩
    rw [Engine.nextCandidate]
    omega
  · rw [Engine.restoreTransactionalProducer, Table.lookup_insert] at hlookup
    split at hlookup
    · next hid =>
      obtain rfl := Option.some.inj hlookup
      exact ⟨Nat.lt_of_lt_of_le (lt_nextCandidate hroom) (Nat.le_max_right _ _), r, hr, hid.symm,
        rfl⟩
    · exact ⟨Nat.lt_of_lt_of_le (h.known id producer hlookup).1 hnext,
        (h.known id producer hlookup).2⟩

theorem Sound.handOut (hlookup : s.engine.transactionalProducers.lookup r.1 = some r.2)
    (hlive : r ∈ s.live) (hdisk : Table.Kept (Follows r) r.1 s.committed s.tail)
    (hsupersedes : ∀ r' ∈ s.returned, Supersedes r r') :
    { s with returned := r :: s.returned }.Sound := by
  have hall : ∀ r' ∈ s.live ++ (r :: s.returned), r' ∈ s.live ++ s.returned := by
    intro r' hr'
    rcases mem_append.mp hr' with hr' | hr'
    · exact mem_append_left _ hr'
    · rcases mem_cons.mp hr' with rfl | hr'
      · exact mem_append_left _ hlive
      · exact mem_append_right _ hr'
  refine { h with
    returned := fun r' hr' => ?_
    owner := fun r₁ hr₁ r₂ hr₂ => h.owner r₁ (hall r₁ hr₁) r₂ (hall r₂ hr₂)
    passed := fun r' hr' => ?_
    distinct := pairwise_cons.mpr ⟨hsupersedes, h.distinct⟩ }
  · rcases mem_cons.mp hr' with rfl | hr'
    · exact ⟨⟨r'.2, hlookup, .rfl r'⟩, hdisk⟩
    · exact ⟨(h.returned r' hr').memory, (h.returned r' hr').disk⟩
  · rcases hr' with hr' | hr' | hr' | hr'
    · exact h.passed r' (.inl hr')
    · exact h.passed r' (.inr (.inl hr'))
    · exact h.passed r' (.inr (.inr (.inl hr')))
    · rcases mem_cons.mp hr' with rfl | hr'
      · exact (h.known _ _ hlookup).1
      · exact h.passed r' (.inr (.inr (.inr hr')))

/-! ## The steps -/

theorem Sound.initProducerId (hboot : s.boot ≤ s.applied)
    (hroom : s.engine.nextProducerId + 1 < 2 ^ 64) (id : Text) (write : Write) :
    (s.initProducerId id write).Sound := by
  rw [ProducerBroker.initProducerId]
  split
  · exact h
  · next producer engine hnext =>
    obtain ⟨hs, hfits⟩ := h.fits hboot hroom (succeeds_of_nextProducer hnext hroom)
    have hwritten := hs.write_registration hfits write
    cases write with
    | completed =>
      have hlive := hs.mem_live_append (id, producer)
      exact (hwritten.restore hlive hfits.follows).handOut (Table.lookup_insert_self _ _ _) hlive
        (hs.kept_completed (.rfl (id, producer))) hfits.supersedes
    | _ => exact hwritten

theorem Sound.proposeRegistration (hend : s.log.length = s.highWatermark)
    (happlied : s.applied = s.highWatermark) (hroom : s.engine.nextProducerId + 1 < 2 ^ 64)
    (id : Text) (write : Write) : (s.proposeRegistration broker id write).Sound := by
  have hboot : s.boot ≤ s.applied := by
    rw [happlied, ← hend]
    exact h.boot_le
  rw [ProducerBroker.proposeRegistration]
  split
  · exact h
  · next producer engine hnext =>
    obtain ⟨hs, hfits⟩ := h.fits hboot hroom (succeeds_of_nextProducer hnext hroom)
    have hwritten := hs.write_registration hfits write
    cases write with
    | completed =>
      have hlive := hs.mem_live_append (id, producer)
      exact (hwritten.applyCommitted broker).handOut
        (lookup_applyCommitted_completed hend happlied) hlive
        (hs.kept_completed (.rfl (id, producer))) hfits.supersedes
    | _ => exact { hwritten with
        returned := fun r hr => ⟨(hwritten.returned r hr).memory, (hwritten.returned r hr).disk⟩ }

theorem Sound.initProducerIdCoordinated
    (hroom : (s.applyCommitted broker).engine.nextProducerId + 1 < 2 ^ 64) (id : Text)
    (write : Write) : (s.initProducerIdCoordinated broker id write).Sound := by
  have happlied := h.applyCommitted broker
  rw [ProducerBroker.initProducerIdCoordinated]
  split
  · exact h
  · split
    · next hend =>
      exact happlied.proposeRegistration hend (Nat.max_eq_right h.applied_le) hroom id write
    · exact happlied

/-- A snapshot keeps the producer ids and forgets who else had one. -/
theorem Sound.withSnapshot {it : Iteration} (hit : it.Of s.engine) : (s.withSnapshot it).Sound := by
  have hknown : ∀ r ∈ it.producers, s.engine.transactionalProducers.lookup r.1 = some r.2 :=
    fun r hr => (hit.producers.mem_iff r.1 r.2).mp hr
  -- every registration that is kept has the ids of one that was there
  have hlive : ∀ r ∈ (s.withSnapshot it).live,
      ∃ r' ∈ s.live, r'.1 = r.1 ∧ r'.2.producerId = r.2.producerId := by
    intro r hr
    rw [live_withSnapshot] at hr
    rcases mem_append.mp hr with hr | hr
    · exact (h.known r.1 r.2 (hknown r hr)).2
    · refine ⟨r, ?_, rfl, rfl⟩
      rw [live, registrations_drop h.snapshotOffset_le]
      exact mem_append_right _ (mem_append_right _ hr)
  have hall : ∀ r ∈ (s.withSnapshot it).live ++ s.returned,
      ∃ r' ∈ s.live ++ s.returned, r'.1 = r.1 ∧ r'.2.producerId = r.2.producerId := by
    intro r hr
    rcases mem_append.mp hr with hr | hr
    · obtain ⟨r', hr', hsame⟩ := hlive r hr
      exact ⟨r', mem_append_left _ hr', hsame⟩
    · exact ⟨r, mem_append_right _ hr, rfl, rfl⟩
  refine { h.toLaid.withSnapshot it, h with
    returned := fun r hr => (h.returned r hr).withSnapshot h.toLaid hit
    known := fun id producer hlookup => ?_
    owner := fun r hr r' hr' heq => ?_
    room := fun r hr => ?_
    passed := fun r hr => ?_ }
  · refine ⟨(h.known id producer hlookup).1, (id, producer), ?_, rfl, rfl⟩
    rw [live_withSnapshot]
    exact mem_append_left _ ((hit.producers.mem_iff id producer).mpr hlookup)
  · obtain ⟨r₁, hr₁, hid₁, hproducer₁⟩ := hall r hr
    obtain ⟨r₂, hr₂, hid₂, hproducer₂⟩ := hall r' hr'
    rw [← hid₁, ← hid₂]
    exact h.owner r₁ hr₁ r₂ hr₂ (hproducer₁.trans (heq.trans hproducer₂.symm))
  · obtain ⟨r', hr', -, hproducer⟩ := hlive r hr
    rw [← hproducer]
    exact h.room r' hr'
  · rcases hr with hr | hr | hr
    · change r ∈ registrations (s.engine.buildMetadataSnapshotRecords it) at hr
      rw [registrations_buildMetadataSnapshotRecords] at hr
      exact (h.known r.1 r.2 (hknown r hr)).1
    · change r ∈ registrations ((s.log.take s.applied).drop s.applied) at hr
      rw [drop_eq_nil_of_le (length_take_le _ _)] at hr
      cases hr
    · exact h.passed r (.inr (.inr hr))

theorem Sound.restart {kept : Nat} (hdurable : s.durable ≤ kept) (hkept : kept ≤ s.log.length)
    (opened : Finset (Text × UInt32)) : (s.restart broker kept opened).Sound := by
  obtain ⟨-, -, hpassed, hlt⟩ := run_applyMetadataRecord broker (broker.fresh opened)
    (s.snapshotRecords ++ s.replayed)
  rw [h.registrations_replayed] at hpassed
  have hcommitted := h.committed_restart broker hdurable opened
  have hlive : (s.restart broker kept opened).live ⊆ s.live := by
    rw [(h.toLaid.restart broker hdurable hkept opened).live_eq, hcommitted, h.live_eq]
    exact append_subset.mpr ⟨subset_append_left _ _,
      subset_append_of_subset_right _ (tail_restart_subset broker s kept opened)⟩
  have hcommittedLive : s.committed ⊆ (s.restart broker kept opened).live := by
    rw [← hcommitted]
    exact committed_subset_live _
  have hnew : ∀ r ∈ s.committed,
      r.2.producerId.toNat < (s.restart broker kept opened).engine.nextProducerId := fun r hr =>
    Nat.lt_of_lt_of_le (lt_nextCandidate (h.room r (committed_subset_live s hr))) (hpassed r hr)
  have hall : ∀ r ∈ (s.restart broker kept opened).live ++ s.returned,
      r ∈ s.live ++ s.returned := by
    intro r hr
    rcases mem_append.mp hr with hr | hr
    · exact mem_append_left _ (hlive hr)
    · exact mem_append_right _ hr
  refine { h.toLaid.restart broker hdurable hkept opened with
    next_lt := hlt (show 1 < 2 ^ 64 by decide)
    returned := fun r hr => (h.returned r hr).restart h.toLaid broker hdurable opened
    known := fun id producer hlookup => ?_
    owner := fun r hr r' hr' => h.owner r (hall r hr) r' (hall r' hr')
    room := fun r hr => h.room r (hlive hr)
    passed := fun r hr => ?_
    distinct := h.distinct }
  · rw [h.producers_restart] at hlookup
    have hmem := Table.mem_of_lookup_ofList hlookup
    exact ⟨hnew _ hmem, _, hcommittedLive hmem, rfl, rfl⟩
  · rcases hr with hr | hr | hr | hr
    · exact hnew r (mem_append_left _ hr)
    · refine hnew r ?_
      rw [← hcommitted]
      exact mem_append_right _ hr
    · change r ∈ registrations ((s.log.take kept).drop kept) at hr
      rw [drop_eq_nil_of_le (length_take_le _ _)] at hr
      cases hr
    · obtain ⟨producer, hmem, hle, -⟩ := (h.returned r hr).disk.settled.exists_mem
      exact Nat.lt_of_le_of_lt (UInt64.le_iff_toNat_le.mp hle) (hnew _ hmem)

theorem Sound.step {event : ProducerEvent} (hiterates : s.Iterates event)
    (hrecovered : s.Recovered broker event) : (step broker s event).Sound := by
  cases event with
  | initProducerId id write => exact h.initProducerId hrecovered.1 hrecovered.2 id write
  | initProducerIdCoordinated id write => exact h.initProducerIdCoordinated hrecovered id write
  | register bindAddr write =>
    refine h.write ?_ write
    intro r hr
    cases hr
  | snapshot =>
    rw [ProducerBroker.step, ProducerBroker.snapshotMetadataIfNeeded, Nat.min_eq_right h.applied_le]
    split
    · exact h.withSnapshot hiterates
    · exact h
  | trim upTo => exact { h.toLaid.trim upTo, h with
      returned := fun r hr => ⟨(h.returned r hr).memory, (h.returned r hr).disk⟩ }
  | restart kept opened =>
    rw [ProducerBroker.step]
    split
    · next hbounds => exact h.restart hbounds.1 hbounds.2 opened
    · exact h

end

/-- In a run in which calls that are not coordinated wait for the recovery, no call returns what
another one has returned. -/
theorem distinct_of_recovered (broker : Broker) (events : List ProducerEvent)
    (hiterates : Guarded (step broker) Iterates (start broker) events)
    (hrecovered : Guarded (step broker) (Recovered broker) (start broker) events) :
    Always (step broker) Distinct (start broker) events := by
  exact (hiterates.and hrecovered).always (fun s (hs : Sound s) => hs.distinct)
    (fun s event (hs : Sound s) hevent => hs.step hevent.1 hevent.2) (sound_start broker)

/-- Two transactional ids, and a restart between two calls of the first. -/
def twoProducers : List ProducerEvent :=
  [.register [] .completed, .initProducerId ['a'] .completed, .restart 2 ∅,
    .register [] .completed, .initProducerId ['b'] .completed,
    .initProducerIdCoordinated ['a'] .completed]

/-- The registration of `a` is written but never made visible, and the restart does not see it.
Then the watermark passes it, the counter does not, and `b` gets the same producer id. -/
def lostRegistration : List ProducerEvent :=
  [.register [] .completed, .initProducerId ['a'] .appended, .restart 2 ∅,
    .register [] .completed, .initProducerId ['b'] .completed, .restart 4 ∅,
    .register [] .completed, .initProducerId ['a'] .completed, .initProducerId ['b'] .completed]

theorem distinct_twoProducers :
    Always (step Broker.plain) Distinct (start Broker.plain) twoProducers := by
  refine distinct_of_recovered Broker.plain twoProducers ?_ ?_
  · exact ⟨trivial, trivial, trivial, trivial, trivial, trivial, trivial⟩
  · decide +kernel

theorem not_distinct_lostRegistration :
    ¬ Always (step Broker.plain) Distinct (start Broker.plain) lostRegistration := by
  intro h
  have hreturned : (run (step Broker.plain) (start Broker.plain) lostRegistration).returned =
      [(['b'], ⟨1, 1⟩), (['a'], ⟨1, 1⟩), (['b'], ⟨1, 0⟩)] := by decide +kernel
  have hdistinct := h.run
  rw [Distinct, hreturned, pairwise_cons] at hdistinct
  exact (hdistinct.1 _ mem_cons_self).producerId (.inl (by decide)) rfl

end ProducerBroker

end Bifrox.Transactions

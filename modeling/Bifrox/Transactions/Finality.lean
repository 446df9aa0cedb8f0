/-
Decisions about transactions are final on a broker without peers.

Each record that is written for an instance has the partitions of the records before it, and after
a decision has that decision.  A replay passes by records with more than 100000 partitions, which
nothing keeps the broker from writing.
-/
import Bifrox.Transactions.Broker

namespace Bifrox.Transactions

open List StateLog Table DataLog Attempt
open Attempt (Spec spec_assume spec_pure spec_throw spec_modify spec_get_bind spec_ensure
  spec_modify_bind spec_ensure_bind spec_demand_bind spec_lift_bind)
open Metadata (Broker PartitionRange TransactionState TxStateRecord maxItems)
open Run (run Guarded Always)
open Table (Kept)

/-! ## Specification -/

def Touches (record : TxStateRecord) (topic : Text) (partition : UInt32) : Prop :=
  record.partitions.any (isFor topic partition) = true

namespace TxBroker

variable (s : TxBroker)

def HasMarker (id : Text) (origin : Nat) (decision : Decision) (topic : Text)
    (partition : UInt32) : Prop :=
  ∃ producerId, DataEntry.marker ⟨decision, producerId, id, origin⟩ ∈
    (s.data topic partition).entries.take (s.data topic partition).durable

structure Final : Prop where
  /-- No instance has received a commit and an abort marker. -/
  agreed : ∀ m ∈ s.received, ∀ m' ∈ s.received, m.transactionId = m'.transactionId →
    m.origin = m'.origin → m.decision = m'.decision
  /-- An outcome is in the state log only after the markers. -/
  marked : ∀ e ∈ s.stateLog.entries, ∀ d : Decision, e.record.status = d.terminal →
    ∀ v ∈ s.seen, v.id = e.id → v.origin = e.origin → ∀ topic partition,
      Touches v.record topic partition → s.HasMarker e.id e.origin d topic partition

def partitionsOf (id : Text) : List PartitionRange :=
  ((s.state id).map fun state => state.record.partitions).getD []

/-- The condition: a replay can decode what is written, and reads all of it. -/
def Readable : TxEvent → Prop
  | .addPartitionsToTxn id _ _ topics _ _ =>
    (enlistAll topics (s.partitionsOf id)).length ≤ maxItems
  | .produceBatch batch _ _ _ _ =>
    (registerRange batch.topic batch.partition
      (.ofNat (s.data batch.topic batch.partition).entries.length)
      (s.partitionsOf batch.id)).length ≤ maxItems
  | .restart c => ∀ offset < s.stateLog.highWatermark, s.stateLog.isRead c.seeks offset = true
  | _ => True

instance : (event : TxEvent) → Decidable (s.Readable event)
  | .addPartitionsToTxn .. | .produceBatch .. => inferInstanceAs (Decidable (_ ≤ _))
  | .restart c => inferInstanceAs (Decidable (∀ offset < s.stateLog.highWatermark,
      s.stateLog.isRead c.seeks offset = true))
  | .beginTransaction .. | .commitTransaction .. | .abortTransaction .. | .endTransaction ..
  | .initProducerId .. | .initProducerIdCoordinated .. | .sweep .. => .isTrue trivial

end TxBroker

/-! ## Logs -/

namespace StateLog

variable (log : StateLog)

theorem reached_eq {seeks : Nat → Nat}
    (h : ∀ offset < log.highWatermark, log.isRead seeks offset = true) :
    log.reached seeks = log.highWatermark := by
  have hall : (List.range log.highWatermark).takeWhile (log.isRead seeks) =
      List.range log.highWatermark :=
    takeWhile_eq_self_iff.mpr fun offset hoffset => h offset (mem_range.mp hoffset)
  rw [reached, hall, length_range]

structure Laid : Prop where
  durable_le : log.durable ≤ log.entries.length
  highWatermark_le : log.highWatermark ≤ log.durable

def committed : List (Text × StateEntry) :=
  (log.entries.take log.highWatermark).map StateEntry.keyed

def tail : List (Text × StateEntry) := (log.entries.drop log.highWatermark).map StateEntry.keyed

/-- Whatever a restart finds for the id is good. -/
abbrev Keeps (good : StateEntry → Prop) (id : Text) : Prop := Kept good id log.committed log.tail

variable {log} {good : StateEntry → Prop} {id : Text} {e : StateEntry} {durable length wanted : Nat}

theorem le_keep : durable ≤ keep durable length wanted :=
  Nat.le_max_left _ _

theorem keep_le (h : durable ≤ length) : keep durable length wanted ≤ length :=
  Nat.max_le.mpr ⟨h, Nat.min_le_right _ _⟩

theorem Laid.write (h : log.Laid) (e : StateEntry) (write : Write) : (log.write e write).Laid := by
  cases write with
  | lost => exact h
  | appended =>
    refine ⟨?_, h.highWatermark_le⟩
    rw [StateLog.write, StateLog.append, length_append]
    exact Nat.le_trans h.durable_le (Nat.le_add_right _ _)
  | checkpointed | completed => exact ⟨Nat.le_refl _, Nat.le_refl _⟩

theorem Laid.crash (h : log.Laid) (wanted : Nat) : (log.crash wanted).Laid := by
  refine ⟨?_, Nat.le_trans h.highWatermark_le le_keep⟩
  rw [StateLog.crash, length_take, Nat.min_eq_left (keep_le h.durable_le)]

theorem Laid.highWatermark_le_length (h : log.Laid) : log.highWatermark ≤ log.entries.length :=
  Nat.le_trans h.highWatermark_le h.durable_le

theorem Laid.keeps_append (h : log.Laid) (hkeeps : log.Keeps good id) (he : id = e.id → good e) :
    (log.append e).Keeps good id := by
  have hle := h.highWatermark_le_length
  rw [Keeps, committed, tail, append, take_append_of_le_length hle,
    drop_append_of_le_length hle, map_append]
  exact hkeeps.snoc he

theorem Laid.keeps_checkpoint (hkeeps : log.Keeps good id) : log.checkpoint.Keeps good id := by
  rw [Keeps, committed, tail, checkpoint, take_length, drop_length]
  have hall := hkeeps.checkpoint
  rw [committed, tail, ← map_append, take_append_drop] at hall
  exact hall

theorem Laid.keeps_write (h : log.Laid) (hkeeps : log.Keeps good id) (he : id = e.id → good e)
    {write : Write} : (log.write e write).Keeps good id := by
  cases write with
  | lost => exact hkeeps
  | appended => exact h.keeps_append hkeeps he
  | checkpointed | completed => exact Laid.keeps_checkpoint (h.keeps_append hkeeps he)

theorem keeps_completed (he : good e) : (log.write e .completed).Keeps good e.id := by
  rw [Keeps, committed, tail, write, checkpoint, take_length, drop_length, append, map_append]
  exact kept_snoc _ he

theorem Laid.keeps_crash (h : log.Laid) (hkeeps : log.Keeps good id) :
    (log.crash wanted).Keeps good id := by
  rw [Keeps, committed, tail, StateLog.crash, take_take,
    Nat.min_eq_left (Nat.le_trans h.highWatermark_le le_keep)]
  refine hkeeps.crash fun entry hentry => ?_
  exact ((((take_sublist _ _).drop _).map _).subset) hentry

theorem mem_write {e' : StateEntry} {write : Write} (h : e' ∈ (log.write e write).entries) :
    e' ∈ log.entries ∨ e' = e := by
  cases write with
  | lost => exact .inl h
  | appended | checkpointed | completed =>
    exact (mem_append.mp h).imp_right mem_singleton.mp

theorem read_eq (h : e.record.Fits) : e.read = some e.keyed := by
  rw [StateEntry.read, Metadata.decodeTxStateRecord_encode h]
  rfl

theorem latestStates_eq (h : ∀ e ∈ log.entries, e.record.Fits) :
    log.latestStates log.highWatermark = .ofList log.committed := by
  rw [latestStates, committed]
  congr 1
  rw [filterMap_congr fun e he => read_eq (h e (mem_of_mem_take he)), filterMap_eq_map']

end StateLog

namespace DataLog

variable {log : DataLog}

theorem subset_completed (log : DataLog) {e : DataEntry} : log.entries.take log.durable ⊆
      (log.write e .completed).entries.take (log.write e .completed).durable := by
  rw [write, append, take_length]
  exact fun _ hmem => mem_append_left _ (mem_of_mem_take hmem)

theorem write_spec (h : log.durable ≤ log.entries.length) {e : DataEntry} {write : Write} :
    (log.write e write).durable ≤ (log.write e write).entries.length ∧
      log.entries.take log.durable ⊆
        (log.write e write).entries.take (log.write e write).durable := by
  cases write with
  | lost => exact ⟨h, fun _ hmem => hmem⟩
  | appended =>
    rw [write, append, length_append, take_append_of_le_length h]
    exact ⟨Nat.le_trans h (Nat.le_add_right _ _), fun _ hmem => hmem⟩
  | checkpointed | completed => exact ⟨Nat.le_refl _, log.subset_completed⟩

end DataLog

/-! ## Records of one instance -/

variable {d : Decision} {topic : Text} {partition : UInt32} {ranges : List PartitionRange}

theorem isTerminal_prepared : isTerminal d.prepared = false := by
  cases d <;> rfl

theorem isTerminal_terminal : isTerminal d.terminal = true := by
  cases d <;> rfl

/-- What may be written after a record.  Partitions stay enlisted, and after a decision there is
neither another one nor another partition. -/
structure Extends (old new : TxStateRecord) : Prop where
  partitions : ∀ topic partition, Touches old topic partition → Touches new topic partition
  decision : ∀ d : Decision, old.status = d.prepared →
    (new.status = d.prepared ∨ new.status = d.terminal) ∧
      ∀ topic partition, Touches new topic partition → Touches old topic partition

namespace Extends

variable {record new : TxStateRecord} {partitions : List PartitionRange}

theorem rfl (record : TxStateRecord) : Extends record record :=
  ⟨fun _ _ h => h, fun _ h => ⟨.inl h, fun _ _ h => h⟩⟩

theorem status_eq (h : Extends record new) (hd : record.status = d.prepared)
    (hnew : isTerminal new.status = false) : new.status = d.prepared := by
  refine (h.decision d hd).1.resolve_right fun hterminal => ?_
  rw [hterminal, isTerminal_terminal] at hnew
  cases hnew

theorem trans {last : TxStateRecord} (h : Extends record new) (h' : Extends new last)
    (hnew : isTerminal new.status = false) : Extends record last := by
  refine ⟨fun topic partition ht => h'.partitions _ _ (h.partitions _ _ ht), fun d hd => ?_⟩
  obtain ⟨hstatus, hback⟩ := h'.decision d (h.status_eq hd hnew)
  exact ⟨hstatus, fun topic partition ht => (h.decision d hd).2 _ _ (hback _ _ ht)⟩

theorem of_ongoing (hongoing : record.status = .ongoing)
    (h : ∀ topic partition, Touches record topic partition →
      partitions.any (isFor topic partition) = true) :
    Extends record { record with partitions } :=
  ⟨h, fun d hd => absurd (hd.symm.trans hongoing) d.prepared_ne_ongoing⟩

theorem of_terminal (h : record.status = d.prepared) (hpartitions : ∀ topic partition,
      partitions.any (isFor topic partition) = record.partitions.any (isFor topic partition))
    (transactionId : Text) :
    Extends record { record with status := d.terminal, transactionId, partitions } := by
  refine ⟨fun topic partition ht => (hpartitions topic partition).trans ht, fun d' hd' => ?_⟩
  rw [Decision.prepared_injective (hd'.symm.trans h)]
  exact ⟨.inr (Eq.refl _), fun topic partition ht => (hpartitions topic partition).symm.trans ht⟩

end Extends

theorem any_enlistAll {topics : List (Text × List UInt32)} {p : PartitionRange → Bool}
    (h : ranges.any p = true) : (TxBroker.enlistAll topics ranges).any p = true := by
  obtain ⟨range, hrange, hp⟩ := any_eq_true.mp h
  exact any_eq_true.mpr ⟨range, TxBroker.subset_enlistAll topics ranges hrange, hp⟩

theorem any_registerRange_iff {start : UInt64} {topic' : Text} {partition' : UInt32} :
    (TxBroker.registerRange topic partition start ranges).any (isFor topic' partition') = true ↔
      ranges.any (isFor topic' partition') = true ∨ topic = topic' ∧ partition = partition' := by
  rw [TxBroker.registerRange]
  induction ranges with
  | nil => simp [updateRange, isFor]
  | cons =>
    rw [updateRange]
    split <;> grind [isFor]

theorem length_registerRange {start : UInt64} (h : ranges.any (isFor topic partition) = true) :
    (TxBroker.registerRange topic partition start ranges).length = ranges.length := by
  rw [TxBroker.registerRange]
  induction ranges with
  | nil => cases h
  | cons range ranges ih =>
    rw [updateRange]
    split
    · rfl
    · next hfor =>
      rw [any_cons, Bool.or_eq_true] at h
      rw [length_cons, length_cons, ih (h.resolve_left hfor)]

/-! ## Changes of a state -/

/-- What a transition makes of a state. -/
structure Advances (id : Text) (old : Option TransactionState) (next : TransactionState) :
    Prop where
  transactionId : (∀ state ∈ old, state.record.transactionId = id) → next.record.transactionId = id
  alive : isTerminal next.record.status = false
  follows : ∀ state ∈ old, Extends state.record next.record

section Changes

open TxBroker

variable {id : Text} {old : Option TransactionState} {next : TransactionState}

theorem advances_addPartitionsChange {producerId now : UInt64} {topics : List (Text × List UInt32)}
    (h : addPartitionsChange id producerId topics now old = .ok next) :
    Advances id old next ∧ next.record.partitions =
      enlistAll topics ((old.map fun state => state.record.partitions).getD []) := by
  rw [addPartitionsChange] at h
  split at h
  · cases h
  · next hongoing =>
    rw [not_or, not_not, not_not] at hongoing
    cases h
    refine ⟨⟨fun hid => ?_, ?_, fun state hstate => ?_⟩, by cases old <;> rfl⟩
    · cases old with
      | none => rfl
      | some state => exact hid state rfl
    · show isTerminal _ = false
      rw [withPartitions, hongoing.2]
      rfl
    · obtain rfl := Option.mem_def.mp hstate
      exact .of_ongoing hongoing.2 fun topic partition ht => any_enlistAll ht

theorem advances_registerChange {start : UInt64}
    (h : registerChange id topic partition start old = .ok next) :
    Advances id old next ∧ ∃ state, old = some state ∧
      next.record.partitions = registerRange topic partition start state.record.partitions := by
  cases old with
  | none => cases h
  | some state =>
    rw [registerChange] at h
    split at h
    · cases h
    · next hongoing =>
      rw [not_not] at hongoing
      cases h
      refine ⟨⟨fun hid => hid state rfl, ?_, fun state' hstate' => ?_⟩, state, rfl, rfl⟩
      · show isTerminal _ = false
        rw [withPartitions, hongoing]
        rfl
      · obtain rfl := Option.some.inj hstate'
        exact .of_ongoing hongoing fun topic' partition' ht =>
          any_registerRange_iff.mpr (.inl ht)

theorem advances_prepareChange (h : prepareChange id d old = .ok next) :
    Advances id old next ∧ next.record.status = d.prepared ∧
      ∃ state, old = some state ∧ next.record.partitions = state.record.partitions := by
  cases old with
  | none => cases h
  | some state =>
    rw [prepareChange] at h
    split at h
    · cases h
    · next hother =>
      have hstatus : state.record.status = .ongoing ∨ state.record.status = d.prepared := by
        by_contra hnot
        exact hother (not_or.mp hnot)
      cases h
      refine ⟨⟨fun hid => hid state rfl, isTerminal_prepared, fun state' hstate' => ?_⟩, rfl,
        state, rfl, rfl⟩
      obtain rfl := Option.some.inj hstate'
      refine ⟨fun _ _ ht => ht, fun d' hd' => ⟨.inl ?_, fun _ _ ht => ht⟩⟩
      rcases hstatus with hstatus | hstatus
      · exact absurd (hd'.symm.trans hstatus) d'.prepared_ne_ongoing
      · rw [Decision.prepared_injective (hd'.symm.trans hstatus)]

end Changes

/-! ## What every step keeps -/

/-- What is written for the instance after a state extends it. -/
def StateEntry.Precedes (v e : StateEntry) : Prop :=
  e.origin = v.origin → Extends v.record e.record

structure Running.Alive (r : Running) (id : Text) : Prop where
  transactionId : r.record.transactionId = id
  alive : isTerminal r.status = false
  fits : r.record.Fits

namespace TxBroker

variable (s : TxBroker)

def Prepared (id : Text) (origin : Nat) (d : Decision) : Prop :=
  ∃ v ∈ s.seen, v.id = id ∧ v.origin = origin ∧ v.record.status = d.prepared

structure Sound : Prop where
  log : s.stateLog.Laid
  data : ∀ topic partition,
    (s.data topic partition).durable ≤ (s.data topic partition).entries.length
  fits : ∀ e ∈ s.stateLog.entries, e.record.Fits
  origin_lt : ∀ e ∈ s.stateLog.entries, e.origin < s.origins
  running : ∀ id r, s.transactions.lookup id = some r → r.Alive id ∧ r.origin < s.origins
  seen_lt : ∀ v ∈ s.seen, v.origin < s.origins
  memory : ∀ v ∈ s.seen, ∀ r, s.transactions.lookup v.id = some r → v.Precedes r.entry
  kept : ∀ v ∈ s.seen, s.stateLog.Keeps v.Precedes v.id
  decided : ∀ m ∈ s.received, s.Prepared m.transactionId m.origin m.decision
  prepared : ∀ e ∈ s.stateLog.entries, ∀ d : Decision, e.record.status = d.terminal →
    s.Prepared e.id e.origin d
  final : s.Final

theorem sound_start (broker : Broker) : (start broker).Sound where
  log := ⟨Nat.le_refl _, Nat.le_refl _⟩
  data _ _ := Nat.le_refl _
  fits := nofun
  origin_lt := nofun
  running := nofun
  seen_lt := nofun
  memory := nofun
  kept := nofun
  decided := nofun
  prepared := nofun
  final := ⟨nofun, nofun⟩

variable {s} {id : Text} {r : Running} {e : StateEntry}

theorem Sound.of_prepared (h : s.Sound) (hlookup : s.transactions.lookup id = some r)
    (hprepared : s.Prepared id r.origin d) :
    r.status = d.prepared ∧ ∃ v ∈ s.seen, v.id = id ∧ v.origin = r.origin ∧
      ∀ topic partition, Touches r.record topic partition → Touches v.record topic partition := by
  obtain ⟨v, hv, hid, horigin, hstatus⟩ := hprepared
  have hfollows := h.memory v hv r (hid ▸ hlookup) horigin.symm
  exact ⟨hfollows.status_eq hstatus (h.running id r hlookup).1.alive, v, hv, hid, horigin,
    (hfollows.decision d hstatus).2⟩

/-! ### Writes to the state log -/

theorem Sound.countOrigin (h : s.Sound) (origin : Nat) : (s.countOrigin origin).Sound := by
  have hle : s.origins ≤ (s.countOrigin origin).origins := Nat.le_max_left _ _
  exact { h with
    origin_lt := fun e he => Nat.lt_of_lt_of_le (h.origin_lt e he) hle
    running := fun id r hr =>
      ⟨(h.running id r hr).1, Nat.lt_of_lt_of_le (h.running id r hr).2 hle⟩
    seen_lt := fun v hv => Nat.lt_of_lt_of_le (h.seen_lt v hv) hle
    final := ⟨h.final.agreed, h.final.marked⟩ }

structure Admits (s : TxBroker) (e : StateEntry) : Prop where
  fits : e.record.Fits
  origin_lt : e.origin < s.origins
  follows : ∀ v ∈ s.seen, v.id = e.id → v.Precedes e
  terminal : ∀ d : Decision, e.record.status = d.terminal → s.Prepared e.id e.origin d ∧
    ∀ v ∈ s.seen, v.id = e.id → v.origin = e.origin → ∀ topic partition,
      Touches v.record topic partition → s.HasMarker e.id e.origin d topic partition

theorem Sound.writeState (h : s.Sound) (he : s.Admits e) (write : Write) :
    (s.writeState e write).Sound := by
  refine { h with
    log := h.log.write e write
    fits := fun e' he' => ?_
    origin_lt := fun e' he' => ?_
    kept := fun v hv => h.log.keeps_write (h.kept v hv) (he.follows v hv)
    prepared := fun e' he' d hd => ?_
    final := ⟨h.final.agreed, fun e' he' d hd => ?_⟩ }
  all_goals rcases mem_write he' with hold | rfl
  · exact h.fits e' hold
  · exact he.fits
  · exact h.origin_lt e' hold
  · exact he.origin_lt
  · exact h.prepared e' hold d hd
  · exact (he.terminal d hd).1
  · exact h.final.marked e' hold d hd
  · exact (he.terminal d hd).2

theorem Sound.install (h : s.Sound) (hr : r.Alive id) (horigin : r.origin < s.origins)
    (hkeeps : s.stateLog.Keeps r.entry.Precedes id)
    (hfollows : ∀ v ∈ s.seen, v.id = id → v.Precedes r.entry)
    (hmarked : ∀ e ∈ s.stateLog.entries, ∀ d : Decision, e.record.status = d.terminal →
      e.id = id → e.origin = r.origin → ∀ topic partition,
        Touches r.record topic partition → s.HasMarker id r.origin d topic partition) :
    (s.install id r).Sound := by
  have hid : r.entry.id = id := hr.transactionId
  refine { h with
    running := fun id' r' hr' => ?_
    seen_lt := fun v hv => ?_
    memory := fun v hv r' hr' => ?_
    kept := fun v hv => ?_
    decided := fun m hm => ?_
    prepared := fun e he d hd => ?_
    final := ⟨h.final.agreed, fun e he d hd v hv hvid hvorigin => ?_⟩ }
  · rw [TxBroker.install, lookup_insert] at hr'
    split at hr'
    · next heq =>
      obtain rfl := Option.some.inj hr'
      exact ⟨heq ▸ hr, horigin⟩
    · exact h.running id' r' hr'
  · rcases mem_cons.mp hv with rfl | hv
    · exact horigin
    · exact h.seen_lt v hv
  · rw [TxBroker.install, lookup_insert] at hr'
    rcases mem_cons.mp hv with rfl | hv
    · rw [if_pos hid] at hr'
      obtain rfl := Option.some.inj hr'
      exact fun _ => .rfl r.record
    · split at hr'
      · next heq =>
        obtain rfl := Option.some.inj hr'
        exact hfollows v hv heq
      · exact h.memory v hv r' hr'
  · rcases mem_cons.mp hv with rfl | hv
    · exact hid ▸ hkeeps
    · exact h.kept v hv
  · obtain ⟨v, hv, hprepared⟩ := h.decided m hm
    exact ⟨v, mem_cons_of_mem _ hv, hprepared⟩
  · obtain ⟨v, hv, hprepared⟩ := h.prepared e he d hd
    exact ⟨v, mem_cons_of_mem _ hv, hprepared⟩
  · rcases mem_cons.mp hv with rfl | hv
    · rw [← hvid, ← hvorigin, hid]
      exact hmarked e he d hd (hvid.symm.trans hid) hvorigin.symm
    · exact h.final.marked e he d hd v hv hvid hvorigin

/-! ### Transitions -/

theorem Sound.state_transactionId (h : s.Sound) {state : TransactionState}
    (hstate : state ∈ s.state id) : state.record.transactionId = id := by
  obtain ⟨r, hr, rfl⟩ := Option.map_eq_some_iff.mp hstate
  exact (h.running id r hr).1.transactionId

theorem originOf_cases : (∃ r, s.transactions.lookup id = some r ∧ s.originOf id = r.origin) ∨
      s.state id = none ∧ s.originOf id = s.origins := by
  rw [state, originOf]
  cases s.transactions.lookup id with
  | none => exact .inr ⟨rfl, rfl⟩
  | some r => exact .inl ⟨r, rfl, rfl⟩

variable {next : TransactionState}

/-- A new state follows everything that the instance has had. -/
theorem Sound.precedes_next (h : s.Sound) (hnext : Advances id (s.state id) next) {v : StateEntry}
    (hv : v ∈ s.seen) (hid : v.id = id) : v.Precedes ⟨next.record, s.originOf id⟩ := by
  intro horigin
  rcases originOf_cases with ⟨r, hlookup, heq⟩ | ⟨-, heq⟩
  · have hfollows := h.memory v hv r (hid ▸ hlookup) (heq.symm.trans horigin)
    have hstep := hnext.follows r.state (by rw [state, hlookup]; rfl)
    exact hfollows.trans hstep (h.running id r hlookup).1.alive
  · have hlt := h.seen_lt v hv
    change s.originOf id = v.origin at horigin
    omega

/-- No partition is enlisted when there is an outcome. -/
theorem Sound.marked_next (h : s.Sound) (hnext : Advances id (s.state id) next)
    (he : e ∈ s.stateLog.entries) (hd : e.record.status = d.terminal) (hid : e.id = id)
    (horigin : e.origin = s.originOf id) (ht : Touches next.record topic partition) :
    s.HasMarker id (s.originOf id) d topic partition := by
  rcases originOf_cases with ⟨r, hlookup, heq⟩ | ⟨-, heq⟩
  · have hprepared := h.prepared e he d hd
    rw [hid, horigin, heq] at hprepared
    obtain ⟨hstatus, v, hv, hvid, hvorigin, hback⟩ := h.of_prepared hlookup hprepared
    have hstep := hnext.follows r.state (by rw [state, hlookup]; rfl)
    have hmarker := h.final.marked e he d hd v hv (hvid.trans hid.symm)
      (hvorigin.trans (heq.symm.trans horigin.symm)) topic partition
      (hback _ _ ((hstep.decision d hstatus).2 _ _ ht))
    rw [hid, horigin] at hmarker
    exact hmarker
  · have hlt := h.origin_lt e he
    omega

theorem originOf_lt : s.originOf id < (s.countOrigin (s.originOf id)).origins :=
  Nat.lt_of_lt_of_le (Nat.lt_succ_self _) (Nat.le_max_right _ _)

theorem Sound.admits_next (h : s.Sound) (hnext : Advances id (s.state id) next)
    (hfits : next.record.Fits) :
    (s.countOrigin (s.originOf id)).Admits ⟨next.record, s.originOf id⟩ where
  fits := hfits
  origin_lt := originOf_lt
  follows v hv hid := h.precedes_next hnext hv
    (hid.trans (hnext.transactionId fun _ hstate => h.state_transactionId hstate))
  terminal d hd := by
    have halive := hnext.alive
    rw [hd, isTerminal_terminal] at halive
    cases halive

def advance (s : TxBroker) (id : Text) (next : TransactionState) : TxBroker :=
  ((s.countOrigin (s.originOf id)).writeState ⟨next.record, s.originOf id⟩ .completed).install id
    ⟨next, s.originOf id⟩

theorem Sound.install_next (h : s.Sound) (hnext : Advances id (s.state id) next)
    (hfits : next.record.Fits) : (s.advance id next).Sound := by
  have hid := hnext.transactionId fun _ hstate => h.state_transactionId hstate
  refine ((h.countOrigin _).writeState (h.admits_next hnext hfits) .completed).install
    ⟨hid, hnext.alive, hfits⟩ originOf_lt ?_ ?_ ?_
  · have hkeeps : (s.stateLog.write ⟨next.record, s.originOf id⟩ .completed).Keeps
        (StateEntry.Precedes ⟨next.record, s.originOf id⟩) next.record.transactionId :=
      keeps_completed fun _ => .rfl next.record
    rw [hid] at hkeeps
    exact hkeeps
  · exact fun v hv hvid => h.precedes_next hnext hv hvid
  · intro e he d hd heid horigin topic partition ht
    rcases mem_write he with hold | rfl
    · exact h.marked_next hnext hold hd heid horigin ht
    · have halive := hnext.alive
      rw [hd, isTerminal_terminal] at halive
      cases halive

/-! ### Partitions -/

variable {origin : Nat} {data : Text → UInt32 → DataLog}

def Grows (data data' : Text → UInt32 → DataLog) : Prop :=
  ∀ topic partition, (data topic partition).entries.take (data topic partition).durable ⊆
    (data' topic partition).entries.take (data' topic partition).durable

theorem HasMarker.mono {s' : TxBroker} (h : s.HasMarker id origin d topic partition)
    (hgrows : Grows s.data s'.data) : s'.HasMarker id origin d topic partition := by
  obtain ⟨producerId, hmem⟩ := h
  exact ⟨producerId, hgrows topic partition hmem⟩

theorem grows_putLog {log : DataLog}
    (hsubset : (data topic partition).entries.take (data topic partition).durable ⊆
      log.entries.take log.durable) : Grows data (putLog data topic partition log) := by
  intro topic' partition'
  rcases putLog_cases data topic partition log topic' partition' with ⟨rfl, rfl⟩ | hsame
  · rw [putLog_self]
    exact hsubset
  · rw [hsame]
    exact fun _ hmem => hmem

theorem Sound.withData (h : s.Sound) (hdurable : ∀ topic partition,
      (data topic partition).durable ≤ (data topic partition).entries.length)
    (hgrows : Grows s.data data) : { s with data }.Sound :=
  { h with
    data := hdurable
    final := ⟨h.final.agreed, fun e he d hd v hv hid horigin topic partition ht =>
      (h.final.marked e he d hd v hv hid horigin topic partition ht).mono hgrows⟩ }

theorem Sound.withLog (h : s.Sound) {log : DataLog} (hdurable : log.durable ≤ log.entries.length)
    (hsubset : (s.data topic partition).entries.take (s.data topic partition).durable ⊆
      log.entries.take log.durable) :
    { s with data := putLog s.data topic partition log }.Sound ∧
      Grows s.data (putLog s.data topic partition log) := by
  have hgrows := grows_putLog hsubset
  refine ⟨h.withData (fun topic' partition' => ?_) hgrows, hgrows⟩
  rcases putLog_cases s.data topic partition log topic' partition' with ⟨rfl, rfl⟩ | hsame
  · rw [putLog_self]
    exact hdurable
  · rw [hsame]
    exact h.data topic' partition'

theorem Sound.appendRecords (h : s.Sound) (batch : TxBatch) : (s.appendRecords batch).Sound := by
  have hdurable := h.data batch.topic batch.partition
  refine (h.withLog ?_ ?_).1
  · rw [DataLog.append, length_append]
    exact Nat.le_trans hdurable (Nat.le_add_right _ _)
  · rw [DataLog.append, take_append_of_le_length hdurable]
    exact fun _ hmem => hmem

/-- The transaction is in memory as an operation has just put it there. -/
structure Holding (id : Text) (r : Running) (s : TxBroker) : Prop where
  sound : s.Sound
  lookup : s.transactions.lookup id = some r
  seen : r.entry ∈ s.seen

theorem Holding.prepared (h : Holding id r s) (hd : r.status = d.prepared) :
    s.Prepared id r.origin d :=
  ⟨r.entry, h.seen, (h.sound.running id r h.lookup).1.transactionId, rfl, hd⟩

/-- A partition receives the marker of the decision that is in force. -/
theorem Holding.writeMarker (h : Holding id r s) (hd : r.status = d.prepared) (topic : Text)
    (partition : UInt32) (producerId : UInt64) (write : Write) :
    let s' := s.writeMarker topic partition ⟨d, producerId, id, r.origin⟩ write
    Holding id r s' ∧ Grows s.data s'.data := by
  obtain ⟨hdurable, hsubset⟩ := write_spec (h.sound.data topic partition)
  obtain ⟨hsound, hgrows⟩ := h.sound.withLog hdurable hsubset
  refine ⟨⟨?_, h.lookup, h.seen⟩, hgrows⟩
  have hagrees : ∀ m ∈ s.received, m.transactionId = id → m.origin = r.origin → m.decision = d := by
    intro m hm hid horigin
    have hprepared := h.sound.decided m hm
    rw [hid, horigin] at hprepared
    exact Decision.prepared_injective ((h.sound.of_prepared h.lookup hprepared).1.symm.trans hd)
  rw [TxBroker.writeMarker]
  split
  · exact hsound
  · refine { hsound with
      decided := fun m hm => ?_
      final := ⟨fun m hm m' hm' hid horigin => ?_, hsound.final.marked⟩ }
    · rcases mem_cons.mp hm with rfl | hm
      · exact h.prepared hd
      · exact h.sound.decided m hm
    · rcases mem_cons.mp hm with rfl | hm <;> rcases mem_cons.mp hm' with rfl | hm'
      · rfl
      · exact (hagrees m' hm' hid.symm horigin.symm).symm
      · exact hagrees m hm hid horigin
      · exact h.sound.final.agreed m hm m' hm' hid horigin

/-! ### Memory -/

theorem Sound.forget (h : s.Sound) {transactions : Table Text Running}
    (ht : ∀ id r, transactions.lookup id = some r → s.transactions.lookup id = some r)
    {lsoIndex : List Pin} : { s with transactions, lsoIndex }.Sound :=
  { h with
    running := fun id r hr => h.running id r (ht id r hr)
    memory := fun v hv r hr => h.memory v hv r (ht v.id r hr)
    final := ⟨h.final.agreed, h.final.marked⟩ }

theorem Sound.withProducers (h : s.Sound) {producers : ProducerBroker} :
    { s with producers }.Sound :=
  { h with final := ⟨h.final.agreed, h.final.marked⟩ }

theorem cleanup_complete
    {ends : EndOffsets} : (s.completeWithStatus id r d.terminal ends).cleanup id =
      { s.completeWithStatus id r d.terminal ends with
        transactions := (s.completeWithStatus id r d.terminal ends).transactions.erase id } := by
  rw [cleanup, if_pos]
  rw [completeWithStatus, lookup_insert_self]
  exact isTerminal_terminal

theorem Sound.complete (h : s.Sound) (id : Text) (r : Running) (d : Decision)
    (ends : EndOffsets) : ((s.completeWithStatus id r d.terminal ends).cleanup id).Sound := by
  rw [cleanup_complete]
  refine h.forget (fun id' r' hr' => ?_)
  by_cases hid : id' = id
  · rw [hid, lookup_erase_self] at hr'
    cases hr'
  · rw [lookup_erase_of_ne _ hid, completeWithStatus, lookup_insert_of_ne _ hid] at hr'
    exact hr'

/-- A restart finds records that follow everything that was in memory. -/
theorem Sound.restart (h : s.Sound) (broker : Broker) {c : Crash}
    (hread : ∀ offset < s.stateLog.highWatermark, s.stateLog.isRead c.seeks offset = true) :
    (s.restart broker c).Sound := by
  have hentries : ∀ e ∈ (s.stateLog.crash c.state).entries, e ∈ s.stateLog.entries :=
    fun e he => mem_of_mem_take he
  have hgrows : Grows s.data fun topic partition =>
      (s.data topic partition).crash (c.data topic partition) := by
    intro topic partition
    simp only [DataLog.crash, take_take, Nat.min_self]
    exact (take_prefix_take_left le_keep).subset
  -- what memory has is what the table of the latest states has
  have hlatest : ∀ id r, (s.restart broker c).transactions.lookup id = some r →
      ∃ e ∈ s.stateLog.entries, e.id = id ∧ r.entry = e ∧ isTerminal e.record.status = false ∧
        (ofList s.stateLog.committed).lookup id = some e := by
    intro id r hr
    rw [TxBroker.restart, reached_eq _ hread, lookup_filterMap, latestStates_eq h.fits] at hr
    obtain ⟨e, hlookup, hrestore⟩ := Option.bind_eq_some_iff.mp hr
    obtain ⟨e', he', hkeyed⟩ := mem_map.mp (mem_of_lookup_ofList hlookup)
    obtain ⟨rfl, rfl⟩ := Prod.mk.inj hkeyed
    rw [restoreTransaction] at hrestore
    split at hrestore
    · cases hrestore
    · next halive =>
      cases hrestore
      exact ⟨e', mem_of_mem_take he', rfl, rfl, Bool.not_eq_true _ ▸ halive, hlookup⟩
  refine {
    log := h.log.crash c.state
    data := fun topic partition => ?_
    fits := fun e he => h.fits e (hentries e he)
    origin_lt := fun e he => h.origin_lt e (hentries e he)
    running := fun id r hr => ?_
    seen_lt := h.seen_lt
    memory := fun v hv r hr => ?_
    kept := fun v hv => h.log.keeps_crash (h.kept v hv)
    decided := h.decided
    prepared := fun e he => h.prepared e (hentries e he)
    final := ⟨h.final.agreed, fun e he d hd v hv hid horigin topic partition ht =>
      (h.final.marked e (hentries e he) d hd v hv hid horigin topic partition ht).mono hgrows⟩ }
  · show keep _ _ _ ≤ ((s.data topic partition).entries.take (keep _ _ _)).length
    rw [length_take, Nat.min_eq_left (keep_le (h.data topic partition))]
  · obtain ⟨e, he, hid, rfl, halive, -⟩ := hlatest id r hr
    exact ⟨⟨hid, halive, h.fits _ he⟩, h.origin_lt _ he⟩
  · obtain ⟨e, -, -, rfl, -, hlookup⟩ := hlatest v.id r hr
    obtain ⟨e', hlookup', hprecedes⟩ := (h.kept v hv).settled.lookup ∅
    rw [ofList, hlookup'] at hlookup
    exact Option.some.inj hlookup ▸ hprecedes

/-! ## Operations -/

variable {write : Write}

theorem spec_persist {pre fail post : TxBroker → Prop} (hpre : ∀ s, pre s → fail s)
    (hwrite : Encodable e.record → ∀ s, pre s → fail (s.writeState e write))
    (hdone : Encodable e.record → ∀ s, pre s → post (s.writeState e .completed)) :
    Spec pre (persist e write) (fun _ => post) fail := by
  refine spec_ensure_bind hpre fun henc => ?_
  have hmodify : Spec pre (modify (TxBroker.writeState · e write) : TxBroker.Attempt Unit)
      (fun _ s' => fail s' ∧ (write = .completed → post s')) fail :=
    spec_modify fun s hs => ⟨hwrite henc s hs, fun hw => hw ▸ hdone henc s hs⟩
  exact hmodify.bind fun _ => spec_ensure (fun s hs => hs.1) fun hw s hs => hs.2 hw

variable {change : Option TransactionState → Except TxError TransactionState}
  {pre : TxBroker → Prop} {writes : EndWrites}

/-- A transition is put in place, or ends on the way to it. -/
theorem spec_transition_advance {fail : TxBroker → Prop} (hsame : fail s)
    (hcount : fail (s.countOrigin (s.originOf id)))
    (hwrite : ∀ next, change (s.state id) = .ok next → Encodable next.record →
      fail ((s.countOrigin (s.originOf id)).writeState ⟨next.record, s.originOf id⟩ write)) :
    Spec (· = s) (transition id change write)
      (fun r s' => change (s.state id) = .ok r.state ∧ Encodable r.record ∧
        r.origin = s.originOf id ∧ s' = s.advance id r.state) fail := by
  refine spec_get_bind fun s' hs' => ?_
  subst hs'
  refine spec_lift_bind (fun _ hs => hs ▸ hsame) fun next hnext => spec_modify_bind ?_
  have hpersist : Spec (· = s'.countOrigin (s'.originOf id))
      (persist ⟨next.record, s'.originOf id⟩ write)
      (fun _ s => Encodable next.record ∧
        s = (s'.countOrigin (s'.originOf id)).writeState ⟨next.record, s'.originOf id⟩ .completed)
      fail :=
    spec_persist (fun _ hs => hs ▸ hcount) (fun henc _ hs => hs ▸ hwrite next hnext henc)
      fun henc _ hs => ⟨henc, by rw [hs]⟩
  refine hpersist.bind fun _ => ?_
  have hinstall : Spec (fun s => Encodable next.record ∧
        s = (s'.countOrigin (s'.originOf id)).writeState ⟨next.record, s'.originOf id⟩ .completed)
      (modify (TxBroker.install · id ⟨next, s'.originOf id⟩) : TxBroker.Attempt Unit)
      (fun _ s => Encodable next.record ∧ s = s'.advance id next) fail :=
    spec_modify fun s hs => ⟨hs.1, by rw [hs.2, advance]⟩
  exact hinstall.bind fun _ => spec_pure fun s hs => ⟨hnext, hs.1, rfl, hs.2⟩

theorem spec_transition (hpre : ∀ s, pre s → s.Sound)
    (hchange : ∀ s, pre s → ∀ next, change (s.state id) = .ok next →
      Advances id (s.state id) next ∧ next.record.partitions.length ≤ maxItems) :
    Spec pre (transition id change write)
      (fun r s' => Holding id r s' ∧ ∃ s, pre s ∧ change (s.state id) = .ok r.state) Sound := by
  intro s hs
  have hsound := hpre s hs
  have hfits : ∀ next, change (s.state id) = .ok next → Encodable next.record →
      next.record.Fits := fun next hnext henc => ⟨henc.1, (hchange s hs next hnext).2, henc.2⟩
  have hadvance := spec_transition_advance hsound (hsound.countOrigin _) fun next hnext henc =>
    (hsound.countOrigin _).writeState (hsound.admits_next (hchange s hs next hnext).1 (hfits next
    hnext henc)) write
  refine (hadvance.weaken (fun _ hs' => hs') fun r s' hs' => ?_) s rfl
  obtain ⟨hnext, henc, horigin, rfl⟩ := hs'
  obtain ⟨next, origin⟩ := r
  obtain rfl : origin = s.originOf id := horigin
  exact ⟨⟨hsound.install_next (hchange s hs next hnext).1 (hfits next hnext henc),
    lookup_insert_self _ _ _, mem_cons_self⟩, s, hs, hnext⟩

/-- The ranges have the markers of a decision. -/
def AllMarked (id : Text) (r : Running) (d : Decision) (ranges : List PartitionRange)
    (s : TxBroker) : Prop :=
  ∀ range ∈ ranges, s.HasMarker id r.origin d range.topic range.partition

section Markers

variable {holds fail : TxBroker → Prop} {producerId : UInt64}

section

variable (hkeep : ∀ s topic partition write, holds s →
  holds (s.writeMarker topic partition ⟨d, producerId, id, r.origin⟩ write))
include hkeep

theorem spec_produceControlMarker (hfail : ∀ s, holds s → fail s) (range : PartitionRange)
    (marked : List PartitionRange) (write : Write) :
    Spec (fun s => holds s ∧ AllMarked id r d marked s)
      (produceControlMarker range ⟨d, producerId, id, r.origin⟩ write)
      (fun _ s => holds s ∧ AllMarked id r d (range :: marked) s) fail := by
  refine spec_get_bind fun s hs => spec_modify_bind ?_
  have hholds := hkeep s range.topic range.partition write hs.1
  refine spec_ensure_bind (fun s' hs' => hs' ▸ hfail _ hholds) fun hwrite => ?_
  refine spec_pure fun s' hs' => ?_
  rw [hs']
  refine ⟨hholds, fun range' hrange' => ?_⟩
  rw [hwrite]
  rcases mem_cons.mp hrange' with rfl | hrange'
  · refine ⟨producerId, ?_⟩
    simp only [TxBroker.writeMarker, putLog_self]
    rw [DataLog.write, DataLog.append, take_length]
    exact mem_append_right _ mem_cons_self
  · exact (hs.2 range' hrange').mono (grows_putLog (DataLog.subset_completed _))

theorem spec_writeMarkers
    (hfail : ∀ s, holds s → fail s) (ranges marked : List PartitionRange) (writes : List Write) :
    Spec (fun s => holds s ∧ AllMarked id r d marked s)
      (writeMarkers ⟨d, producerId, id, r.origin⟩ ranges writes)
      (fun _ s => holds s ∧ AllMarked id r d ranges s ∧ AllMarked id r d marked s) fail := by
  induction ranges generalizing marked writes with
  | nil => exact spec_pure fun s hs => ⟨hs.1, nofun, hs.2⟩
  | cons range ranges ih =>
    cases writes with
    | nil => exact spec_throw fun s hs => hfail s hs.1
    | cons write writes =>
      refine (spec_produceControlMarker hkeep hfail range marked write).bind fun _ => ?_
      refine (ih (range :: marked) writes).bind fun _ => spec_pure fun s hs => ?_
      obtain ⟨hholds, hranges, hmarked⟩ := hs
      refine ⟨hholds, fun range' hrange' => ?_, fun range' hrange' =>
        hmarked range' (mem_cons_of_mem _ hrange')⟩
      rcases mem_cons.mp hrange' with rfl | hrange'
      · exact hmarked _ mem_cons_self
      · exact hranges range' hrange'

end

end Markers

abbrev outcome (id : Text) (r : Running) (d : Decision) (ends : EndOffsets) : StateEntry :=
  ⟨{ r.record with
    status := d.terminal, transactionId := id,
    partitions := r.record.partitions.map (resolveEnd ends) }, r.origin⟩

/-- The outcome may be written when every partition has its marker. -/
theorem Holding.admits_terminal (h : Holding id r s) (hd : r.status = d.prepared)
    (hmarked : AllMarked id r d r.record.partitions s) {ends : EndOffsets} :
    s.Admits (outcome id r d ends) := by
  obtain ⟨halive, horigin⟩ := h.sound.running id r h.lookup
  have hextends := Extends.of_terminal hd (fun _ _ => any_map (f := resolveEnd ends)) id
  refine ⟨⟨?_, ?_, fun range hrange => ?_⟩, horigin, fun v hv hid hvorigin => ?_,
    fun d' hd' => ⟨?_, fun v hv hid hvorigin topic partition ht => ?_⟩⟩
  · exact halive.transactionId ▸ halive.fits.transactionId
  · rw [length_map]
    exact halive.fits.count
  · obtain ⟨range', hrange', rfl⟩ := mem_map.mp hrange
    exact halive.fits.topics range' hrange'
  · exact (h.sound.memory v hv r (hid ▸ h.lookup) hvorigin).trans hextends halive.alive
  · rw [← Decision.terminal_injective hd']
    exact h.prepared hd
  · rw [← Decision.terminal_injective hd']
    have htouches := (h.sound.memory v hv r (hid ▸ h.lookup) hvorigin.symm).partitions _ _ ht
    obtain ⟨range, hrange, hfor⟩ := any_eq_true.mp htouches
    rw [isFor, Bool.and_eq_true, decide_eq_true_eq, decide_eq_true_eq] at hfor
    obtain ⟨rfl, rfl⟩ := hfor
    exact hmarked range hrange

/-- `commit_transaction_inner` and `abort_transaction_inner`, with what holds between the decision
and the outcome. -/
theorem spec_endTransactionInner_of {pre fail post : TxBroker → Prop}
    {holds : Running → TxBroker → Prop}
    (hprepare : Spec pre (transition id (prepareChange id d) writes.prepare) holds fail)
    (hmarker : ∀ r s topic partition write, holds r s →
      holds r (s.writeMarker topic partition ⟨d, r.record.producerId, id, r.origin⟩ write))
    (hfail : ∀ r s, holds r s → fail s)
    (hterminal : ∀ r s ends write, holds r s → AllMarked id r d r.record.partitions s →
      fail (s.writeState (outcome id r d ends) write))
    (hdone : ∀ r s ends r', holds r s → AllMarked id r d r.record.partitions s →
      post (((s.writeState (outcome id r d ends) .completed).completeWithStatus id r' d.terminal
        ends).cleanup id)) : Spec pre (endTransactionInner d id writes) (fun _ => post) fail := by
  refine hprepare.bind fun r => ?_
  refine ((spec_writeMarkers (hmarker r) (hfail r) r.record.partitions [] writes.markers).weaken
    (fun s hs => ⟨hs, nofun⟩) fun _ _ hs => hs).bind fun ends => ?_
  have hpersist : Spec
      (fun s => holds r s ∧ AllMarked id r d r.record.partitions s ∧ AllMarked id r d [] s)
      (persist (outcome id r d ends) writes.terminal)
      (fun _ s' => ∃ s, holds r s ∧ AllMarked id r d r.record.partitions s ∧
        s' = s.writeState (outcome id r d ends) .completed) fail :=
    spec_persist (fun s hs => hfail r s hs.1)
      (fun _ s hs => hterminal r s ends _ hs.1 hs.2.1) fun _ s hs => ⟨s, hs.1, hs.2.1, rfl⟩
  refine hpersist.bind fun _ => spec_get_bind fun s' hs' => ?_
  obtain ⟨s, hholds, hmarked, rfl⟩ := hs'
  refine spec_demand_bind (fun _ hs' => hs' ▸ hterminal r s ends _ hholds hmarked) fun r' _ => ?_
  exact spec_modify_bind (spec_modify fun _ hs' => hs' ▸ hdone r s ends r' hholds hmarked)

theorem spec_endTransactionInner :
    Spec Sound (endTransactionInner d id writes) (fun _ => Sound) Sound := by
  have hprepare : Spec Sound (transition id (prepareChange id d) writes.prepare)
      (fun r s' => Holding id r s' ∧ r.status = d.prepared) Sound := by
    refine (spec_transition (fun s hs => hs) fun s hs next hnext => ?_).weaken (fun _ hs => hs)
      fun r _ hs' => ⟨hs'.1, ?_⟩
    · obtain ⟨hadvances, -, state, hstate, hpartitions⟩ := advances_prepareChange hnext
      obtain ⟨r, hr, rfl⟩ := Option.map_eq_some_iff.mp hstate
      refine ⟨hadvances, ?_⟩
      rw [hpartitions]
      exact (hs.running id r hr).1.fits.count
    · obtain ⟨-, _, -, hchange⟩ := hs'
      exact (advances_prepareChange hchange).2.1
  have hwrite : ∀ r s ends write, Holding id r s ∧ r.status = d.prepared →
      AllMarked id r d r.record.partitions s → (s.writeState (outcome id r d ends) write).Sound :=
    fun r s ends write hs hmarked =>
      hs.1.sound.writeState (hs.1.admits_terminal hs.2 hmarked) write
  exact spec_endTransactionInner_of hprepare
    (fun _ _ topic partition write hs => ⟨(hs.1.writeMarker hs.2 topic partition _ write).1, hs.2⟩)
    (fun _ _ hs => hs.1.sound) hwrite
    fun r s ends r' hs hmarked => (hwrite r s ends .completed hs hmarked).complete id r' d ends

theorem spec_appendBatch {batch : TxBatch} {append : Append} :
    Spec (Holding id r) (appendBatch batch append) (fun _ => Holding id r) Sound := by
  have hstored : ∀ s, Holding id r s → Holding id r (s.appendRecords batch) := fun s hs =>
    ⟨hs.sound.appendRecords batch, hs.lookup, hs.seen⟩
  cases append with
  | failed => exact spec_throw fun s hs => hs.sound
  | unsynced =>
    have hmodify : Spec (Holding id r)
        (modify (TxBroker.appendRecords · batch) : TxBroker.Attempt Unit)
        (fun _ => Holding id r) Sound := spec_modify hstored
    exact hmodify.bind fun _ => spec_throw fun s hs => hs.sound
  | stored =>
    exact spec_get_bind fun s hs => spec_modify_bind (spec_pure fun s' hs' => hs' ▸ hstored s hs)
  | duplicate =>
    exact spec_ensure_bind (fun s hs => hs.sound) fun _ => spec_pure fun s hs => hs

theorem spec_registerChange {start : UInt64} (hpre : ∀ s, pre s → s.Sound) (hcount : ∀ s, pre s →
      (registerRange topic partition start (s.partitionsOf id)).length ≤ maxItems) :
    Spec pre (transition id (registerChange id topic partition start) write)
      (fun r s => Holding id r s ∧ Touches r.record topic partition) Sound := by
  have htransition : Spec pre (transition id (registerChange id topic partition start) write)
      (fun r s' => Holding id r s' ∧ ∃ s, pre s ∧
        registerChange id topic partition start (s.state id) = .ok r.state) Sound := by
    refine spec_transition hpre fun s hs next hnext => ?_
    obtain ⟨hadvances, state, hstate, hpartitions⟩ := advances_registerChange hnext
    refine ⟨hadvances, ?_⟩
    have hle := hcount s hs
    rw [partitionsOf, hstate] at hle
    rw [hpartitions]
    exact hle
  refine htransition.weaken (fun s hs => hs) fun r s' hs' => ⟨hs'.1, ?_⟩
  obtain ⟨-, s, -, hchange⟩ := hs'
  obtain ⟨-, state, -, hpartitions⟩ := advances_registerChange hchange
  rw [Touches, Running.record, hpartitions]
  exact any_registerRange_iff.mpr (.inr ⟨rfl, rfl⟩)

theorem spec_produceBatchLocal {broker : Broker} {batch : TxBatch} {refusal : Option _}
    {first : Write} {append : Append} {second : Write} :
    Spec (fun s => s.Sound ∧ s.Readable (.produceBatch batch refusal first append second))
      (produceBatchLocal broker batch refusal first append second) (fun _ => Sound) Sound := by
  refine spec_get_bind fun s hs => ?_
  have hfail : ∀ s', s' = s → s'.Sound := fun s' hs' => hs' ▸ hs.1
  -- the checks change nothing
  refine spec_ensure_bind hfail fun _ => spec_lift_bind hfail fun _ _ => ?_
  refine spec_ensure_bind hfail fun _ => spec_lift_bind hfail fun _ _ => ?_
  refine spec_lift_bind hfail fun _ _ => spec_demand_bind hfail fun _ _ => ?_
  refine spec_ensure_bind hfail fun _ => ?_
  refine (spec_registerChange hfail fun s' hs' => hs' ▸ hs.2).bind fun r => ?_
  refine spec_assume (p := Touches r.record batch.topic batch.partition) (fun s' hs' => hs'.2)
    fun htouches => ?_
  refine (spec_appendBatch.weaken (fun s' hs' => hs'.1) fun _ _ hs' => hs').bind
    fun firstOffset => ?_
  -- the partition is there, so the second registration adds none
  refine (spec_registerChange (fun s' hs' => Holding.sound hs') fun s' hs' => ?_).bind
    fun _ => spec_pure fun s' hs' => hs'.1.sound
  rw [partitionsOf, state, hs'.lookup]
  refine Nat.le_trans (Nat.le_of_eq (length_registerRange htouches)) ?_
  exact (hs'.sound.running batch.id r hs'.lookup).1.fits.count

theorem Sound.endTransactionInner (h : s.Sound) (d : Decision) (id : Text) (writes : EndWrites) :
    Spec (· = s) (endTransactionInner d id writes) (fun _ => Sound) Sound :=
  spec_endTransactionInner.weaken (fun _ hs' => hs' ▸ h) fun _ _ hs' => hs'

theorem spec_finishPreviousTransaction :
    Spec Sound (finishPreviousTransaction id writes) (fun _ => Sound) Sound := by
  refine spec_get_bind fun s hs => ?_
  split
  · exact hs.endTransactionInner .commit id writes
  · split
    · exact hs.endTransactionInner .abort id writes
    · exact spec_pure fun s' hs' => hs' ▸ hs

theorem spec_initProducerIdCoordinated {broker : Broker} :
    Spec Sound (initProducerIdCoordinated broker id writes write) (fun _ => Sound) Sound := by
  refine spec_get_bind fun s hs => ?_
  refine spec_ensure_bind (fun s' hs' => hs' ▸ hs) fun _ => spec_modify_bind ?_
  have happlied : ∀ s' : TxBroker,
      s' = { s with producers := s.producers.applyCommitted broker } → s'.Sound :=
    fun _ hs' => hs' ▸ hs.withProducers
  refine spec_ensure_bind happlied fun _ => ?_
  refine (spec_finishPreviousTransaction.weaken happlied fun _ _ hs => hs).bind fun _ => ?_
  exact spec_modify fun _ hs => hs.withProducers

theorem Sound.step (h : s.Sound) (broker : Broker) {event : TxEvent}
    (hreadable : s.Readable event) : (step broker s event).Sound := by
  cases event with
  | beginTransaction =>
    refine Spec.after ((spec_transition (fun s hs => hs) fun s hs next hnext => ?_).bind
      fun _ => spec_pure fun s hs => hs.1.sound) h
    rw [beginChange] at hnext
    split at hnext
    · cases hnext
    · next hnone =>
      cases hnext
      refine ⟨⟨fun _ => rfl, rfl, fun state hstate => ?_⟩, Nat.zero_le _⟩
      rw [Option.mem_def.mp hstate] at hnone
      exact absurd rfl hnone
  | addPartitionsToTxn =>
    have hfail : ∀ s', s' = s → s'.Sound := fun s' hs' => hs' ▸ h
    refine Spec.after (?_ : Spec (· = s) _ _ _) rfl
    refine spec_get_bind fun s' hs' => ?_
    rw [hs']
    refine spec_lift_bind hfail fun _ _ => spec_lift_bind hfail fun _ _ => ?_
    refine (spec_transition hfail fun s' hs' next hnext => ?_).bind
      fun _ => spec_pure fun s hs => hs.1.sound
    obtain ⟨hadvances, hpartitions⟩ := advances_addPartitionsChange hnext
    refine ⟨hadvances, ?_⟩
    rw [hpartitions, hs']
    exact hreadable
  | produceBatch =>
    exact spec_produceBatchLocal.after ⟨h, hreadable⟩
  | commitTransaction => exact spec_endTransactionInner.after h
  | abortTransaction => exact spec_endTransactionInner.after h
  | endTransaction id producerId producerEpoch committed writes =>
    refine Spec.after (spec_get_bind fun s hs => ?_) h
    refine spec_lift_bind (fun s' hs' => hs' ▸ hs) fun _ _ => ?_
    cases committed
    · exact hs.endTransactionInner .abort id writes
    · exact hs.endTransactionInner .commit id writes
  | initProducerId =>
    exact Spec.after (spec_finishPreviousTransaction.bind fun _ =>
      spec_modify fun _ hs => hs.withProducers) h
  | initProducerIdCoordinated =>
    exact spec_initProducerIdCoordinated.after h
  | sweep =>
    rw [TxBroker.step, sweepExpired]
    split <;> exact spec_endTransactionInner.after h
  | restart => exact h.restart broker hreadable

/-- In a run in which a replay can read everything that was written, no instance has a commit and
an abort marker, and there is no outcome before the markers. -/
theorem final_of_readable (broker : Broker) (events : List TxEvent)
    (h : Guarded (step broker) Readable (start broker) events) :
    Always (step broker) Final (start broker) events :=
  h.always (fun s (hs : Sound s) => hs.final)
    (fun s _ (hs : Sound s) hevent => hs.step broker hevent) (sound_start broker)

/-! ## Two runs -/

/-- A commit whose outcome is lost, a restart and a sweep that finds the decision. -/
def lostOutcome : List TxEvent :=
  [.beginTransaction ['a'] 1 0 .completed,
    .addPartitionsToTxn ['a'] 1 0 [(['t'], [0, 1])] 0 .completed,
    .produceBatch ⟨['a'], ['t'], 0, 1, 0, 2⟩ none .completed .stored .completed,
    .commitTransaction ['a'] ⟨.completed, [.completed, .completed], .appended⟩,
    .restart ⟨0, ∅, 6, fun _ => 0, fun _ _ => 3, 0⟩,
    .sweep ['a'] (some .prepareCommit) ⟨.completed, [.completed, .completed], .completed⟩]

theorem final_lostOutcome : Always (step Broker.plain) Final (start Broker.plain) lostOutcome :=
  final_of_readable Broker.plain lostOutcome (by decide +kernel)

theorem state_advance : (s.advance id next).state id = some next := by
  show Option.map Running.state (lookup (insert _ id _) id) = _
  rw [lookup_insert_self]
  rfl

theorem originOf_advance : (s.advance id next).originOf id = s.originOf id := by
  show (Option.map Running.origin (lookup (insert _ id _) id)).getD _ = _
  rw [lookup_insert_self]
  rfl

theorem transition_completed (hnext : change (s.state id) = .ok next)
    (henc : Encodable next.record) :
    transition id change .completed s = .ok ⟨next, s.originOf id⟩ (s.advance id next) := by
  have hpersist : ∀ s' : TxBroker, persist ⟨next.record, s.originOf id⟩ .completed s' =
      .ok () (s'.writeState ⟨next.record, s.originOf id⟩ .completed) := by
    intro s'
    show (ensure (Encodable next.record) _ >>= _ : Attempt Unit) s' = _
    rw [ensure, if_pos henc]
    rfl
  show (lift _ (change (s.state id)) >>= _ : Attempt Running) s = _
  rw [hnext]
  show (persist ⟨next.record, s.originOf id⟩ .completed >>= _ : Attempt Running)
    (s.countOrigin (s.originOf id)) = _
  show EStateM.bind _ _ _ = _
  rw [EStateM.bind]
  simp only [hpersist]
  rfl

def plainRange (partition : UInt32) : PartitionRange := ⟨['t'], partition, noOffset, noOffset⟩

variable {partitions : List UInt32}

theorem foldl_enlist (hnodup : partitions.Nodup)
    (hnew : ∀ partition ∈ partitions, ranges.any (isFor ['t'] partition) = false) :
    partitions.foldl (enlist ['t']) ranges = ranges ++ partitions.map plainRange := by
  induction partitions generalizing ranges with
  | nil => rw [foldl_nil, map_nil, append_nil]
  | cons partition partitions ih =>
    rw [nodup_cons] at hnodup
    have henlist : enlist ['t'] ranges partition = ranges ++ [plainRange partition] := by
      rw [enlist, if_neg]
      · rfl
      · rw [hnew partition mem_cons_self]
        exact Bool.false_ne_true
    rw [foldl_cons, henlist, ih hnodup.2, map_cons, append_assoc]
    · rfl
    · intro partition' hmem
      rw [any_append, hnew partition' (mem_cons_of_mem _ hmem), Bool.false_or]
      have hne : partition ≠ partition' := fun heq => hnodup.1 (heq ▸ hmem)
      simp [isFor, plainRange, hne]

/-- The end of a transaction fails at the second marker. -/
theorem after_endTransactionInner (terminal : Write) {range range' : PartitionRange}
    (hnext : prepareChange id d (s.state id) = .ok next) (henc : Encodable next.record)
    (hranges : next.record.partitions = range :: range' :: ranges) :
    after (endTransactionInner d id ⟨.completed, [.completed], terminal⟩) s =
      (s.advance id next).writeMarker range.topic range.partition
        ⟨d, next.record.producerId, id, s.originOf id⟩ .completed := by
  refine (after_bind_of_ok (transition_completed hnext henc) _).trans ?_
  show after (writeMarkers _ next.record.partitions _ >>= _ : Attempt Unit) _ = _
  rw [hranges]
  rfl

/-- Two partitions are enlisted. -/
def openTransaction : List TxEvent :=
  [.beginTransaction ['a'] 1 0 .completed,
    .addPartitionsToTxn ['a'] 1 0 [(['t'], [0, 1])] 0 .completed]

/-- Every record of the state log has an index entry. -/
def dense (offset : Nat) : Nat := offset

theorem isRead_dense (log : StateLog) (offset : Nat) : log.isRead dense offset = true := by
  have hlength : ((log.entries.take (offset + 1)).drop offset).length ≤ 1 := by
    rw [length_drop, length_take]
    omega
  rw [isRead, decide_eq_true_iff, dense]
  generalize (log.entries.take (offset + 1)).drop offset = read at hlength
  match read, hlength with
  | [], _ | [_], _ => simp

/-- Two partitions are enlisted, then too many.  The commit and the sweep after the restart both
fail at the second marker. -/
def tooManyPartitions (partitions : List UInt32) : List TxEvent :=
  openTransaction ++ [.addPartitionsToTxn ['a'] 1 0 [(['t'], partitions)] 0 .completed,
      .commitTransaction ['a'] ⟨.completed, [.completed], .completed⟩,
      .restart ⟨0, ∅, 4, dense, fun _ _ => 1, 0⟩,
      .sweep ['a'] (some .ongoing) ⟨.completed, [.completed], .completed⟩]

def twoPartitions : TxStateRecord := ⟨.ongoing, 1, ['a'], [plainRange 0, plainRange 1]⟩

def wide (partitions : List UInt32) (status : Server.TxStatus) : TransactionState :=
  ⟨{ twoPartitions with
    status, partitions := plainRange 0 :: plainRange 1 :: partitions.map plainRange }, 0⟩

theorem encodable_wide (partitions : List UInt32) (status : Server.TxStatus) :
    Encodable (wide partitions status).record := by
  refine ⟨(by decide : Metadata.Short ['a']), fun range hrange => ?_⟩
  simp only [wide, mem_cons, mem_map] at hrange
  rcases hrange with rfl | rfl | ⟨_, -, rfl⟩ <;> exact (by decide : Metadata.Short ['t'])

theorem read_wide (hlength : partitions.length = maxItems) {status : Server.TxStatus} :
    StateEntry.read ⟨(wide partitions status).record, origin⟩ = none := by
  have hunread : Metadata.decodeTxStateRecord (wide partitions status).record.encode = none := by
    refine Metadata.decodeTxStateRecord_encode_of_lt (by decide : Metadata.Short ['a']) ?_ ?_ <;>
      simp only [wide, length_cons, length_map, hlength, maxItems] <;> decide
  rw [StateEntry.read, hunread]
  rfl

def opened : TxBroker := run (step Broker.plain) (start Broker.plain) openTransaction

/-- The broker whose commit has failed at the second marker. -/
def interrupted (partitions : List UInt32) : TxBroker :=
  ((opened.advance ['a'] (wide partitions .ongoing)).advance ['a']
    (wide partitions .prepareCommit)).writeMarker ['t'] 0 ⟨.commit, 1, ['a'], 0⟩ .completed

theorem state_opened : opened.state ['a'] = some ⟨twoPartitions, 0⟩ := rfl

theorem originOf_opened : opened.originOf ['a'] = 0 := rfl

theorem step_opened (hnodup : partitions.Nodup) (hzero : 0 ∉ partitions) (hone : 1 ∉ partitions) :
    step Broker.plain opened (.addPartitionsToTxn ['a'] 1 0 [(['t'], partitions)] 0 .completed) =
      opened.advance ['a'] (wide partitions .ongoing) := by
  have hranges : enlistAll [(['t'], partitions)] twoPartitions.partitions =
      (wide partitions .ongoing).record.partitions := by
    refine foldl_enlist hnodup fun partition hmem => ?_
    have hne : partition ≠ 0 := fun heq => hzero (heq ▸ hmem)
    have hne' : partition ≠ 1 := fun heq => hone (heq ▸ hmem)
    simp [twoPartitions, isFor, plainRange, hne.symm, hne'.symm]
  have hnext : addPartitionsChange ['a'] 1 [(['t'], partitions)] 0 (opened.state ['a']) =
      .ok (wide partitions .ongoing) := by
    rw [state_opened]
    exact congrArg (fun ranges => Except.ok (withPartitions ⟨twoPartitions, 0⟩ ranges)) hranges
  exact after_bind_of_ok (transition_completed hnext (encodable_wide partitions .ongoing)) _

theorem step_commit : step Broker.plain (opened.advance ['a'] (wide partitions .ongoing))
      (.commitTransaction ['a'] ⟨.completed, [.completed], .completed⟩) =
        interrupted partitions := by
  have hprepare : prepareChange ['a'] .commit
      ((opened.advance ['a'] (wide partitions .ongoing)).state ['a']) =
        .ok (wide partitions .prepareCommit) := by
    rw [state_advance]
    rfl
  have horigin : (opened.advance ['a'] (wide partitions .ongoing)).originOf ['a'] = 0 :=
    originOf_advance.trans originOf_opened
  have hend := after_endTransactionInner .completed hprepare
    (encodable_wide partitions .prepareCommit) rfl
  rw [horigin] at hend
  exact hend

/-- The broker after the restart, which finds the state with two partitions. -/
def resumed (partitions : List UInt32) : TxBroker :=
  (interrupted partitions).restart Broker.plain ⟨0, ∅, 4, dense, fun _ _ => 1, 0⟩

theorem lookup_resumed (hlength : partitions.length = maxItems) :
    (resumed partitions).transactions.lookup ['a'] = some ⟨⟨twoPartitions, 0⟩, 0⟩ := by
  have hlog : (interrupted partitions).stateLog.entries = opened.stateLog.entries ++
      [⟨(wide partitions .ongoing).record, 0⟩, ⟨(wide partitions .prepareCommit).record, 0⟩] := by
    show (opened.stateLog.entries ++ [_]) ++ [⟨_, originOf _ ['a']⟩] = _
    rw [originOf_advance, originOf_opened, append_assoc]
    rfl
  have hread : ((interrupted partitions).stateLog.entries.take 4).filterMap StateEntry.read =
      opened.stateLog.entries.filterMap StateEntry.read := by
    rw [hlog, take_of_length_le (by exact (Nat.le_refl 4 :)), filterMap_append]
    simp [read_wide hlength]
  have hmark : (interrupted partitions).stateLog.highWatermark = 4 := rfl
  rw [resumed, restart, reached_eq _ fun offset _ => isRead_dense _ offset, lookup_filterMap,
    latestStates, hmark, hread]
  rfl

theorem step_resumed (hlength : partitions.length = maxItems) :
    step Broker.plain (resumed partitions)
      (.sweep ['a'] (some .ongoing) ⟨.completed, [.completed], .completed⟩) =
        ((resumed partitions).advance ['a'] ⟨{ twoPartitions with status := .prepareAbort }, 0⟩
          ).writeMarker ['t'] 0 ⟨.abort, 1, ['a'], 0⟩ .completed := by
  have horigin : (resumed partitions).originOf ['a'] = 0 := by
    rw [originOf, lookup_resumed hlength]
    rfl
  have hprepare : prepareChange ['a'] .abort ((resumed partitions).state ['a']) =
      .ok ⟨{ twoPartitions with status := .prepareAbort }, 0⟩ := by
    rw [state, lookup_resumed hlength]
    rfl
  have hend := after_endTransactionInner .completed hprepare
    (by decide : Encodable { twoPartitions with status := .prepareAbort }) rfl
  rw [horigin] at hend
  exact hend

theorem received_tooManyPartitions (hnodup : partitions.Nodup) (hzero : 0 ∉ partitions)
    (hone : 1 ∉ partitions) (hlength : partitions.length = maxItems) :
    (run (step Broker.plain) (start Broker.plain) (tooManyPartitions partitions)).received =
      [⟨.abort, 1, ['a'], 0⟩, ⟨.commit, 1, ['a'], 0⟩] := by
  have hrestart : step Broker.plain (interrupted partitions)
      (.restart ⟨0, ∅, 4, dense, fun _ _ => 1, 0⟩) = resumed partitions := rfl
  rw [tooManyPartitions, Run.run_append, ← opened, Run.run_cons, step_opened hnodup hzero hone,
    Run.run_cons, step_commit, Run.run_cons, hrestart, Run.run_cons, step_resumed hlength]
  rfl

def laterPartitions (n : Nat) : List UInt32 := (List.range' 2 n).map UInt32.ofNat

theorem toNat_ofNat_of_mem_range' {n k : Nat} (hn : n + 2 ≤ 2 ^ 32) (hk : k ∈ List.range' 2 n) :
    2 ≤ k ∧ (UInt32.ofNat k).toNat = k := by
  rw [mem_range'_1] at hk
  exact ⟨hk.1, UInt32.toNat_ofNat_of_lt' (show k < 2 ^ 32 by omega)⟩

theorem nodup_laterPartitions {n : Nat} (hn : n + 2 ≤ 2 ^ 32) : (laterPartitions n).Nodup := by
  refine List.Nodup.map_on (fun k hk k' hk' heq => ?_) nodup_range'
  rw [← (toNat_ofNat_of_mem_range' hn hk).2, ← (toNat_ofNat_of_mem_range' hn hk').2, heq]

theorem notMem_laterPartitions {n : Nat} (hn : n + 2 ≤ 2 ^ 32) (hsmall : partition.toNat < 2) :
    partition ∉ laterPartitions n := by
  intro hmem
  obtain ⟨k, hk, rfl⟩ := mem_map.mp hmem
  have htoNat := toNat_ofNat_of_mem_range' hn hk
  omega

theorem not_final_tooManyPartitions : ¬ Always (step Broker.plain) Final (start Broker.plain)
      (tooManyPartitions (laterPartitions maxItems)) := by
  intro h
  have hn : maxItems + 2 ≤ 2 ^ 32 := by decide
  have hreceived := received_tooManyPartitions (nodup_laterPartitions hn)
    (notMem_laterPartitions hn (by decide)) (notMem_laterPartitions hn (by decide))
    (by rw [laterPartitions, length_map, length_range'])
  have hagreed := h.run.agreed
  rw [hreceived] at hagreed
  exact absurd (hagreed _ mem_cons_self _ (mem_cons_of_mem _ mem_cons_self) rfl rfl) (by decide)

end TxBroker

end Bifrox.Transactions

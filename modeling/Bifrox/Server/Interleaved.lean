/-
A fetch in two steps, between all the steps of transactional operations.

A fetch reads its entries first and takes the last stable offset and the aborted ranges
afterwards.  What is written to the state log in between is seen by no reader.
-/
import Bifrox.Server.OffsetIntegrity
import Bifrox.Server.ReadCommitted

namespace Bifrox.Server

open Run Protocol Segment BigEndian PartitionManager

/-- Where the holder of the gate is between two effects of one operation. -/
inductive Half where
  | reserved (id : Bytes) (request : ProduceRequest) (start : Nat)
  | appended (id : Bytes) (first last : Nat)
  | enlisted (last : Nat)
  | written (id : Bytes) (abort : Bool) (producerId : UInt64) (first marker : Nat)

structure Interleaved where
  engine : TxEngine
  half : Option Half

/-- An operation that fails gives the gate back wherever it is. -/
inductive InterleavedEvent where
  | produce (request : ProduceRequest) (now : Nat)
  | whole (event : TxEvent)
  | reserve (id : Bytes) (request : ProduceRequest)
  | proceed (timestamp : UInt64) (now : Nat)
  | fail

namespace Interleaved

open TxEngine

def create (config : EngineConfig) (policy : FlushPolicy) (now : Nat) : Interleaved :=
  ⟨.create config policy now, none⟩

def append (c : Crates) (s : TxEngine) (id : Bytes) (r : ProduceRequest) (now : Nat) :
    Interleaved :=
  match answer r.batch.recordCount (s.partition.produceBatchEos c r.batch now).2 with
  | .error _ => ⟨s.stored c id r now, none⟩
  | .ok (first, last) =>
    ⟨{ s.stored c id r now with partition := (s.stored c id r now).partition.flushIfSyncPolicy },
      some (.appended id first last)⟩

def writeMarker (c : Crates) (s : TxEngine) (id : Bytes) (abort : Bool) (timestamp : UInt64)
    (now : Nat) : Interleaved :=
  match s.manager.state id with
  | none => ⟨s, none⟩
  | some state =>
    match state.range with
    | none => ⟨{ s with pending := some (.marked id abort none) }, none⟩
    | some (first, _) =>
      let (partition, marker) := s.partition.produceControlMarker c
        (if abort then ctrlAbort else ctrlCommit)
        state.producerId id timestamp now
      ⟨{ s with partition, pending := none },
        some (.written id abort state.producerId first marker.baseOffset)⟩

/-- The second half of an operation's step. -/
def resume (s : TxEngine) : Half → Interleaved
  | .reserved id r start =>
    ⟨s.withManager (some (.produce id r)) (s.manager.registerPartition id start), none⟩
  | .appended id first last =>
    match s.manager.registerPartition id first with
    | .error _ => ⟨s, none⟩
    | .ok manager => ⟨{ s with manager, pending := none }, some (.enlisted last)⟩
  | .enlisted last => ⟨{ s with partition := s.partition.advanceCommittedHw (last + 1) }, none⟩
  | .written id abort producerId first marker =>
    ⟨{ s with
      partition := if abort then s.partition.flushDurable.appendAbortedTxn producerId first marker
        else s.partition.flushDurable
      pending := some (.marked id abort (some marker)) }, none⟩

variable (c : Crates)

def step (limits : ProduceLimits) (s : Interleaved) : InterleavedEvent → Interleaved
  | .produce r now => { s with engine := s.engine.step c limits (.produce r now) }
  | .whole e =>
    if e.isWhole = true ∧ s.half = none then { s with engine := s.engine.step c limits e } else s
  | .reserve id r =>
    if s.half = none ∧ s.engine.pending = none ∧
        s.engine.manager.checkTxProduce c limits id r = .ok () then
      { s with half := some (.reserved id r s.engine.partition.logEndOffset) }
    else s
  | .proceed timestamp now =>
    match s.half, s.engine.pending with
    | some half, _ => resume s.engine half
    | none, some (.produce id r) => append c s.engine id r now
    | none, some (.decided id abort) => writeMarker c s.engine id abort timestamp now
    | none, _ => s
  | .fail => ⟨{ s.engine with pending := none }, none⟩

/-- The response to a fetch that has read its entries in one state and takes the
filter in another. -/
def fetchAcross (read taken : TxEngine) (startOffset maxBytes : Nat) : FetchResponse :=
  let (lastStableOffset, aborted) := readCommittedFilter taken.manager taken.partition
  { lastStableOffset, aborted, entries := read.partition.fetchEntries startOffset maxBytes }

/-- A record that the client keeps is of no transaction that is open or aborted when
the filter is taken. -/
def NoDirtyRead (read taken : TxEngine) : Prop :=
  ∀ startOffset maxBytes,
    ∀ r ∈ decodeFetchEntriesRecords c (fetchAcross read taken startOffset maxBytes)
      startOffset true,
    ∀ b ∈ read.partition.fetchEntries startOffset maxBytes, r ∈ recordsOf c b →
      taken.settled b.baseOffset

/-- The condition on a step: when the marker of an abort is written, no record of the
transaction lies beyond the log end. -/
def Within (s : Interleaved) : InterleavedEvent → Prop
  | .proceed _ _ => ∀ id, s.half = none → s.engine.pending = some (.decided id true) →
    ∀ r, s.engine.dataOf c (fun base => base ∈ s.engine.owned id) r →
      r.offset ≤ s.engine.partition.logEndOffset
  | _ => True

/-- What the second half of a step relies on. -/
def Ready (s : TxEngine) : Option Half → Prop
  | some (.reserved _ _ start) => start ≤ s.partition.logEndOffset
  | some (.written id true _ first marker) =>
    marker < s.partition.logEndOffset ∧
    (∀ r, s.dataOf c (fun base => base ∈ s.owned id) r → first ≤ r.offset ∧ r.offset ≤ marker) ∧
    ∀ state first' last, s.manager.state id = some state → state.range = some (first', last) →
      first' = first
  | _ => True

structure Sound (c : Crates) (log : List RecordBatch) (s : Interleaved) : Prop where
  settles : s.engine.Settles False c
  ready : Ready c s.engine s.half
  kept : log ⊆ s.engine.partition.log.retained

variable {c : Crates} {limits : ProduceLimits} {log : List RecordBatch} {s : Interleaved}

theorem noDirtyRead_of_sound {read : TxEngine}
    (h : Sound c read.partition.log.retained s) : NoDirtyRead c read s.engine := by
  intro startOffset maxBytes r hr b hb hmem
  have hread := h.kept (SegmentManager.mem_retained_of_mem_fetchEntries hb)
  obtain ⟨-, hkeep⟩ := List.mem_filter.mp hr
  simp only [fetchAcross, readCommittedFilter, Bool.and_eq_true, Bool.not_eq_true', Bool.true_and,
    Bool.or_eq_false_iff, decide_eq_true_eq, decide_eq_false_iff_not, ge_iff_le, not_le,
    List.any_eq_false] at hkeep
  obtain ⟨-, hdata, hstable, hout⟩ := hkeep
  refine ⟨fun haborted => ?_, fun id howned => ?_⟩
  · obtain ⟨range, hrange, hin⟩ := h.settles.dropped r ⟨b, hread, haborted, hmem, hdata⟩
    refine hout range ?_ hin
    rw [List.mem_dedup, List.mem_mergeSort, List.mem_append]
    exact .inr hrange
  · have hle := h.settles.lastStableOffset_le howned
    have hbase := (base_le_of_mem_recordsOf hmem).1
    omega

/-! ## Steps -/

variable {engine : TxEngine} {pm : PartitionManager} {half : Option Half}

theorem Sound.of_partition (h : Sound c log s)
    (hsettles : engine.Settles False c) (hready : Ready c engine half)
    (hsame : engine.partition.log = s.engine.partition.log) : Sound c log ⟨engine, half⟩ :=
  ⟨hsettles, hready, hsame ▸ h.kept⟩

theorem Sound.subset_of_grown (h : Sound c log s) {log' : SegmentManager} {b : RecordBatch}
    (hgrown : Grown s.engine log' b) : log ⊆ log'.retained := by
  rw [hgrown.retained]
  exact List.subset_append_of_subset_left _ h.kept

theorem Sound.ready_grow (h : Sound c log s) {b : RecordBatch}
    (hgrown : Grown s.engine pm.log b) : Ready c { s.engine with partition := pm } s.half := by
  have hready := h.ready
  have hlt := hgrown.lt
  have hgrown' : Grown s.engine ({ s.engine with partition := pm } : TxEngine).partition.log b :=
    hgrown
  obtain ⟨engine, half⟩ := s
  match half with
  | none | some (.appended ..) | some (.enlisted ..) | some (.written _ false ..) => trivial
  | some (.reserved _ _ start) => exact hready.trans hlt.le
  | some (.written id true _ first marker) =>
    refine ⟨hready.1.trans hlt, fun r hr => ?_, hready.2.2⟩
    rcases hgrown'.dataOf hr with hold | ⟨howned, -⟩
    · exact hready.2.1 r hold
    · exact absurd (h.settles.owned_lt id _ howned) (Nat.lt_irrefl _)

theorem ready_of_log (h : Ready c engine half) (hlog : pm.log = engine.partition.log) :
    Ready c { engine with partition := pm } half := by
  cases pm
  subst hlog
  exact h

theorem Sound.produce (h : Sound c log s) (r : ProduceRequest) (now : Nat) :
    Sound c log { s with engine := s.engine.step c limits (.produce r now) } := by
  have hsettles : (s.engine.step c limits (.produce r now)).Settles False c :=
    settles_produce h.settles
  rcases h.settles.produceBatchLocal_cases with hsame | ⟨b, hgrown⟩
  · exact h.of_partition hsettles (ready_of_log h.ready hsame) hsame
  · exact ⟨hsettles, h.ready_grow hgrown, h.subset_of_grown hgrown⟩

@[simp] theorem withManager_log (s : TxEngine) (pending : Option Pending)
    (result : Except TxError TransactionManager) :
    (s.withManager pending result).partition.log = s.partition.log := by
  cases result <;> rfl

theorem log_step_whole {s : TxEngine} {e : TxEvent} (he : e.isWhole = true) :
    (s.step c limits e).partition.log = s.partition.log := by
  cases e with
  | produce => cases he
  | txProduce => cases he
  | txAppend => cases he
  | mark => cases he
  | initProducerId =>
    rw [TxEngine.step]
    split
    · split <;> rfl
    · rfl
  | complete =>
    rw [TxEngine.step]
    split
    · rw [TxEngine.complete]
      split <;> rfl
    · rfl
  | cleanup =>
    rw [TxEngine.step]
    split <;> rfl
  | _ =>
    rw [TxEngine.step]
    split <;> simp

variable {id : Bytes}

theorem Sound.append (h : Sound c log s) {r : ProduceRequest}
    (hpending : s.engine.pending = some (.produce id r)) (now : Nat) :
    Sound c log (append c s.engine id r now) := by
  have hsettles := settles_stored h.settles hpending now
  have hkept : log ⊆ (s.engine.stored c id r now).partition.log.retained := by
    rcases h.settles.produceBatchEos_cases r.batch now with ⟨hsame, -⟩ | ⟨b, hgrown⟩
    · rw [stored, hsame]
      exact h.kept
    · exact h.subset_of_grown hgrown
  have hflush := (flushIfSyncPolicy_log (s.engine.stored c id r now).partition).1
  rw [Interleaved.append]
  split
  · exact ⟨hsettles, trivial, hkept⟩
  · exact ⟨hsettles.of_log hflush, trivial, hflush ▸ hkept⟩

theorem Sound.writeMarker (h : Sound c log s) {abort : Bool} (timestamp : UInt64) (now : Nat)
    (hwithin : abort = true → ∀ r, s.engine.dataOf c (fun base => base ∈ s.engine.owned id) r →
      r.offset ≤ s.engine.partition.logEndOffset) :
    Sound c log (writeMarker c s.engine id abort timestamp now) := by
  rw [Interleaved.writeMarker]
  cases hstate : s.engine.manager.state id with
  | none => exact ⟨h.settles, trivial, h.kept⟩
  | some state =>
    simp only
    cases hrange : state.range with
    | none => exact ⟨h.settles.mark_none hstate hrange, trivial, h.kept⟩
    | some range =>
      obtain ⟨first, last⟩ := range
      have hgrown := (h.settles.grown_marker (if abort then ctrlAbort
        else ctrlCommit) state.producerId id timestamp now).1
      refine ⟨h.settles.grow hgrown (fun _ _ hbase => hbase) (fun _ _ hbase => .inl hbase) trivial,
        ?_, h.subset_of_grown hgrown⟩
      cases abort with
      | false => trivial
      | true =>
        refine ⟨?_, fun r hr => ?_, fun state' first' last' hstate' hrange' => ?_⟩
        · rw [hgrown.base]
          exact hgrown.lt
        · exact h.settles.mem_range hstate hrange (hwithin rfl) hgrown hr
        · cases hstate.symm.trans hstate'
          cases hrange.symm.trans hrange'
          rfl

theorem Sound.resume {half : Half} (h : Sound c log ⟨engine, some half⟩) :
    Sound c log (resume engine half) := by
  have hready := h.ready
  match half with
  | .reserved id r start =>
    refine h.of_partition ?_ trivial (withManager_log ..)
    cases hm : engine.manager.registerPartition id start with
    | error => exact h.settles
    | ok => exact h.settles.register hm (fun htaken => htaken.mono hready)
  | .appended id first last =>
    rw [Interleaved.resume]
    split
    · exact h.of_partition h.settles trivial rfl
    · next m hm => exact h.of_partition (h.settles.register hm (fun _ => trivial)) trivial rfl
  | .enlisted last =>
    have hlog := (advanceCommittedHw_log engine.partition (last + 1)).1
    exact h.of_partition (h.settles.of_log hlog) trivial hlog
  | .written id false producerId first marker =>
    exact h.of_partition { h.settles with prepared := trivial } trivial rfl
  | .written id true producerId first marker =>
    obtain ⟨hlt, hin, hfirst⟩ := hready
    have hretained := (h.settles.stacked.appendAbortedTxn producerId first marker).2
    have hmem := (engine.partition.log.mem_abortedRanges_appendAbortedTxn producerId first marker
      (first, marker)).mpr (.inr rfl)
    refine ⟨h.settles.addRange rfl hlt nofun ⟨fun r hr => ⟨_, hmem, ?_⟩, ?_⟩, trivial, ?_⟩
    · obtain ⟨b, hb, hrest⟩ := hr
      exact hin r ⟨b, hretained ▸ hb, hrest⟩
    · intro state first' last hstate hrange
      rw [hfirst state first' last hstate hrange]
      exact ⟨_, rfl, hmem⟩
    · show log ⊆ (engine.partition.log.appendAbortedTxn producerId first marker).retained
      rw [hretained]
      exact h.kept

theorem sound_step (s : Interleaved) (e : InterleavedEvent) (h : Sound c log s)
    (hcond : Within c s e) : Sound c log (s.step c limits e) := by
  obtain ⟨engine, half⟩ := s
  cases e with
  | produce r now => exact h.produce r now
  | whole =>
    rw [step]
    split
    · next hwhole =>
      obtain rfl : half = none := hwhole.2
      exact h.of_partition
        (settles_whole hwhole.1 h.settles nofun) trivial (log_step_whole hwhole.1)
    · exact h
  | reserve =>
    rw [step]
    split
    · exact ⟨h.settles, Nat.le_refl _, h.kept⟩
    · exact h
  | proceed timestamp now =>
    cases half with
    | some => exact h.resume
    | none =>
      rw [step]
      split
      · next heq => cases heq
      · next hpending => exact h.append hpending now
      · next id abort _ hpending =>
        exact h.writeMarker timestamp now (fun habort => hcond id rfl (habort ▸ hpending))
      · exact h
  | fail => exact ⟨h.settles.release, trivial, h.kept⟩

theorem sound_create (config : EngineConfig) (policy : FlushPolicy) (now : Nat) :
    Sound c [] (create config policy now) :=
  ⟨settles_create, trivial, List.nil_subset _⟩

/-- However a fetch is interleaved with transactions, no dirty record is kept as long
as no marker of an abort is written below a record of its transaction. -/
theorem noDirtyRead_of_within (c : Crates) (limits : ProduceLimits) (config : EngineConfig)
    (policy : FlushPolicy) (now : Nat) (before between : List InterleavedEvent)
    (h : Run.Guarded (step c limits) (Within c) (create config policy now) (before ++ between)) :
    NoDirtyRead c (run (step c limits) (create config policy now) before).engine
      (run (step c limits) (create config policy now) (before ++ between)).engine := by
  have hread := h.left.invariant sound_step (sound_create config policy now)
  rw [run_append]
  exact noDirtyRead_of_sound
    (h.right.invariant sound_step ⟨hread.settles, hread.ready, List.Subset.refl _⟩)

def aborting (batch : RecordBatch) : List InterleavedEvent :=
  [.whole (.beginTransaction [1] 7), .reserve [1] ⟨batch, 1⟩, .proceed 0 0, .proceed 0 0,
    .proceed 0 0,
    .proceed 0 0, .whole (.prepare [1] true), .proceed 0 0, .proceed 0 0, .whole .complete,
    .whole .cleanup]

theorem within_of_all (h : ∀ b ∈ s.engine.partition.log.retained, ∀ r ∈ recordsOf c b,
    r.offset ≤ s.engine.partition.logEndOffset) (e : InterleavedEvent) : Within c s e := by
  cases e with
  | proceed => exact fun id _ _ r ⟨b, hb, _, hr, _⟩ => h b hb r hr
  | _ => trivial

theorem noDirtyRead_aborting : NoDirtyRead .storing
      (run (step .storing unlimited) (create .plain .syncEveryBatch 0)
        ((aborting (numbered 7 0 1)).take 7)).engine
      (run (step .storing unlimited) (create .plain .syncEveryBatch 0)
        ((aborting (numbered 7 0 1)).take 7 ++ (aborting (numbered 7 0 1)).drop 7)).engine := by
  apply noDirtyRead_of_within
  have hall : Run.Guarded (step .storing unlimited) (fun s _ =>
      ∀ b ∈ s.engine.partition.log.retained, ∀ r ∈ recordsOf .storing b,
        r.offset ≤ s.engine.partition.logEndOffset) (create .plain .syncEveryBatch 0)
      ((aborting (numbered 7 0 1)).take 7 ++ (aborting (numbered 7 0 1)).drop 7) := by
    decide +kernel
  exact hall.imp (fun _ _ (h : True) _ => h) (fun _ e _ h => within_of_all h e) trivial

/-- The record lies five offsets above its batch, and so above the marker. -/
theorem not_noDirtyRead_overreaching : ¬ NoDirtyRead .storing
      (run (step .storing unlimited) (create .plain .syncEveryBatch 0)
        (aborting Broker.overreaching)).engine
      (run (step .storing unlimited) (create .plain .syncEveryBatch 0)
        (aborting Broker.overreaching)).engine := by
  intro h
  have hkept := fun r hr b hb hmem => (h 0 1000 r hr b hb hmem).1
  exact absurd hkept (by decide +kernel)

end Interleaved

end Bifrox.Server

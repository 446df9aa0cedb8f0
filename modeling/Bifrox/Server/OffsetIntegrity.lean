/-
The offsets of what clients send.

The broker takes the number of offsets that a batch occupies from the header.  The records are not
decoded on the way in, so nothing ties the header to them.
-/
import Bifrox.Segment.Stacked
import Bifrox.Server.Produce

namespace Bifrox.Server

open List Protocol Segment BigEndian RecordBatch

/-! ## Requests on the wire -/

structure WireProduce where
  batch : Bytes
  numPartitions : Nat
  now : Nat

/-- The `ProduceBatch` arm of `process_request`. -/
def Broker.receive (c : Crates) (limits : ProduceLimits) (b : Broker) (r : WireProduce) : Broker :=
  match decode c r.batch with
  | .error _ => b
  | .ok (batch, _) => b.step c limits (⟨batch, r.numPartitions⟩, r.now)

def Broker.records (c : Crates) (b : Broker) : List Record :=
  recordsFromEntries c b.partition.log.retained

structure Broker.OffsetIntegrity (c : Crates) (b : Broker) : Prop where
  increasing : (b.records c).Pairwise (fun r r' => r.offset < r'.offset)
  within : ∀ e ∈ b.partition.log.retained, ∀ r ∈ recordsOf c e,
    e.baseOffset ≤ r.offset ∧ r.offset ≤ e.lastOffset
  counted : ∀ a ∈ b.accepted,
    (b.records c).countP (fun r => a.first ≤ r.offset ∧ r.offset ≤ a.last) =
    a.request.batch.recordCount.toNat

def Overflows (batch : RecordBatch) : Prop :=
  batch.producerId ≠ 0 ∧ batch.recordCount.toNat = 2 ^ 31

/-- A batch keeps to its own header: its records have increasing offsets up to the
last one it declares, and there are as many as it declares. -/
structure Conforms (c : Crates) (batch : RecordBatch) : Prop where
  increasing : (recordsOf c batch).Pairwise (fun r r' => r.offset < r'.offset)
  within : ∀ r ∈ recordsOf c batch, r.offset ≤ batch.lastOffset
  counted : ¬ Overflows batch → (recordsOf c batch).length = batch.recordCount.toNat

structure Broker.Stores (c : Crates) (limits : ProduceLimits) (b : Broker) (r : WireProduce)
    (batch : RecordBatch) : Prop where
  decodes : ∃ consumed, decode c r.batch = .ok (batch, consumed)
  checks : ProduceRequest.check c limits ⟨batch, r.numPartitions⟩ = none
  next : batch.producerId ≠ 0 → b.partition.states.validateSequence batch.producerId
    batch.producerEpoch batch.baseSequence = .ok ()

def Broker.Conforming (c : Crates) (limits : ProduceLimits) (b : Broker) (r : WireProduce) : Prop :=
  ∀ batch, b.Stores c limits r batch → Conforms c batch

section Stamp

variable {c : Crates} {batch : RecordBatch}

theorem recordsOf_storedBatch (c : Crates) (pm : PartitionManager) (batch : RecordBatch) :
    recordsOf c (storedBatch c pm batch) = (recordsOf c batch).map
      (fun r => { r with offset := pm.logEndOffset + (r.offset - batch.baseOffset) }) := by
  have hcontrol : (storedBatch c pm batch).isControl = batch.isControl := rfl
  rw [recordsOf, recordsOf, storedBatch, records_assign]
  cases batch.records c with
  | error => rfl
  | ok =>
    simp only [Except.map, map_map]
    rfl

theorem conforms_storedBatch {pm : PartitionManager} :
    Conforms c (storedBatch c pm batch) ↔ Conforms c batch := by
  have hrecords := recordsOf_storedBatch c pm batch
  have hbase : ∀ r ∈ recordsOf c batch, batch.baseOffset ≤ r.offset :=
    fun r hr => (base_le_of_mem_recordsOf hr).1
  have hlast : (storedBatch c pm batch).lastOffset =
    pm.logEndOffset + batch.lastOffsetDelta.toNat := rfl
  have hlast' : batch.lastOffset = batch.baseOffset + batch.lastOffsetDelta.toNat := rfl
  have hincreasing : (recordsOf c (storedBatch c pm batch)).Pairwise
      (fun r r' => r.offset < r'.offset) ↔
        (recordsOf c batch).Pairwise (fun r r' => r.offset < r'.offset) := by
    rw [hrecords, pairwise_map]
    refine List.Pairwise.iff_of_mem (fun {r r'} hr hr' => ?_)
    have hle := hbase r hr
    have hle' := hbase r' hr'
    simp only
    omega
  have hwithin : (∀ r ∈ recordsOf c (storedBatch c pm batch), r.offset ≤
      (storedBatch c pm batch).lastOffset) ↔ ∀ r ∈ recordsOf c batch,
        r.offset ≤ batch.lastOffset := by
    rw [hrecords, hlast, hlast', forall_mem_map]
    refine forall₂_congr (fun r hr => ?_)
    have hle := hbase r hr
    simp only
    omega
  have hcounted : (recordsOf c (storedBatch c pm batch)).length = (recordsOf c batch).length := by
    rw [hrecords, length_map]
  constructor
  · rintro ⟨h₁, h₂, h₃⟩
    exact ⟨hincreasing.mp h₁, hwithin.mp h₂, fun hno => hcounted ▸ h₃ hno⟩
  · rintro ⟨h₁, h₂, h₃⟩
    exact ⟨hincreasing.mpr h₁, hwithin.mpr h₂, fun hno => hcounted.trans (h₃ hno)⟩

end Stamp

namespace Broker

variable {c : Crates} {limits : ProduceLimits} {b : Broker} {r : WireProduce}

theorem record_eq_none_iff (states : ProducerStates) (batch : RecordBatch) :
    states.record batch = none ↔ Overflows batch := by
  rw [ProducerStates.record, Overflows]
  by_cases hid : batch.producerId ≠ 0
  · rw [if_pos hid, Option.map_eq_none_iff, lastSequence_eq]
    by_cases hcount : batch.recordCount.toNat = 2 ^ 31
    · rw [if_pos hcount]
      exact ⟨fun _ => ⟨hid, hcount⟩, fun _ => rfl⟩
    · rw [if_neg hcount]
      exact iff_of_false (Option.some_ne_none _) fun h => hcount h.2
  · rw [if_neg hid]
    exact iff_of_false (Option.some_ne_none _) fun h => hid h.1

/-- A request changes nothing, or puts its batch on top of the log and reports its
offsets unless the count overflows. -/
theorem receive_cases : let b' := b.receive c limits r
    ((∀ batch, ¬ b.Stores c limits r batch) ∧ b'.partition.log = b.partition.log ∧
      b'.accepted = b.accepted) ∨
    ∃ batch, b.Stores c limits r batch ∧ (∀ batch', b.Stores c limits r batch' → batch' = batch) ∧
      b'.partition.log = (b.partition.log.appendBatch c batch b.partition.leaderEpoch r.now).1 ∧
      (Overflows batch ∧ b'.accepted = b.accepted ∨
        ¬ Overflows batch ∧ b'.accepted = b.accepted ++
          [⟨⟨batch, r.numPartitions⟩, (storedBatch c b.partition batch).baseOffset,
            (storedBatch c b.partition batch).lastOffset⟩]) := by
  rw [receive]
  cases hdecode : decode c r.batch with
  | error =>
    refine .inl ⟨fun batch hstores => ?_, rfl, rfl⟩
    obtain ⟨consumed, hok⟩ := hstores.decodes
    rw [hdecode] at hok
    cases hok
  | ok decoded =>
    obtain ⟨batch, consumed⟩ := decoded
    have hunique : ∀ batch', b.Stores c limits r batch' → batch' = batch := by
      intro batch' hstores
      obtain ⟨consumed', hok⟩ := hstores.decodes
      rw [hdecode] at hok
      cases hok
      rfl
    simp only [step]
    cases hcheck : ProduceRequest.check c limits ⟨batch, r.numPartitions⟩ with
    | some =>
      refine .inl ⟨fun batch' hstores => ?_, ?_, ?_⟩
      · have hnone := hstores.checks
        rw [hunique batch' hstores, hcheck] at hnone
        cases hnone
      · rw [produceBatchLocal, hcheck]
      · rw [storedBy, hcheck]
    | none =>
      have hlog := (produceBatchLocal_of_check b.partition hcheck r.now).1
      rcases produceBatchEos_cases c b.partition batch r.now with
        ⟨hid, e, hval, heq⟩ | ⟨hok, heq⟩ <;> rw [heq] at hlog
      · refine .inl ⟨fun batch' hstores => ?_, hlog, ?_⟩
        · have hok := hstores.next
          rw [hunique batch' hstores] at hok
          cases hval.symm.trans (hok hid)
        · simp only [storedBy, hcheck, heq]
          obtain ⟨_ | _, _⟩ := e <;> rfl
      · refine .inr ⟨batch, ⟨⟨consumed, hdecode⟩, hcheck, hok⟩, hunique, ?_, ?_⟩
        · rw [hlog, storeBatch_log]
        · simp only [storedBy, hcheck, heq]
          rcases storeBatch_cases c b.partition batch r.now with
            ⟨hnone, hres, -⟩ | ⟨states, hsome, hres, -⟩
          · rw [hres]
            exact .inl ⟨(record_eq_none_iff _ (storedBatch c b.partition batch)).mp hnone, rfl⟩
          · rw [hres]
            refine .inr ⟨fun hover => ?_, rfl⟩
            rw [(record_eq_none_iff _ (storedBatch c b.partition batch)).mpr hover] at hsome
            cases hsome

/-! ## Integrity -/

structure Sound (c : Crates) (b : Broker) : Prop where
  stacked : b.partition.log.Stacked
  last_lt : ∀ e ∈ b.partition.log.retained, e.lastOffset < b.partition.logEndOffset
  accepted_lt : ∀ a ∈ b.accepted, a.last < b.partition.logEndOffset
  integrity : b.OffsetIntegrity c

theorem Sound.records_lt (h : b.Sound c) {x : Record} (hx : x ∈ b.records c) :
    x.offset < b.partition.logEndOffset := by
  obtain ⟨e, he, hmem⟩ := mem_flatMap.mp hx
  have hwithin := (h.integrity.within e he x hmem).2
  have hlast := h.last_lt e he
  omega

theorem Sound.congr (h : b.Sound c) {b' : Broker} (hlog : b'.partition.log = b.partition.log)
    (haccepted : b'.accepted = b.accepted) : b'.Sound c := by
  obtain ⟨pm, accepted⟩ := b'
  cases pm
  simp only at hlog haccepted
  subst hlog haccepted
  exact ⟨h.stacked, h.last_lt, h.accepted_lt, ⟨h.integrity.increasing, h.integrity.within,
    h.integrity.counted⟩⟩

theorem Sound.store_iff (h : b.Sound c) {b' : Broker} {e : RecordBatch} {overflows : Prop}
    (hbase : e.baseOffset = b.partition.logEndOffset)
    (hretained : b'.partition.log.retained = b.partition.log.retained ++ [e]) {r : ProduceRequest}
    (hcount : r.batch.recordCount = e.recordCount)
    (haccepted : overflows ∧ b'.accepted = b.accepted ∨
      ¬ overflows ∧ b'.accepted = b.accepted ++ [⟨r, e.baseOffset, e.lastOffset⟩])
    (hover : overflows ↔ Overflows e) : b'.OffsetIntegrity c ↔ Conforms c e := by
  have hrecords : b'.records c = b.records c ++ recordsOf c e := by
    rw [records, records, hretained, recordsFromEntries_append, recordsFromEntries_singleton]
  have hlow : ∀ x ∈ b.records c, x.offset < e.baseOffset := by
    intro x hx
    rw [hbase]
    exact h.records_lt hx
  have hhigh : ∀ x ∈ recordsOf c e, e.baseOffset ≤ x.offset :=
    fun x hx => (base_le_of_mem_recordsOf hx).1
  have hold : ∀ a ∈ b.accepted, (recordsOf c e).countP
      (fun x => a.first ≤ x.offset ∧ x.offset ≤ a.last) = 0 := by
    intro a ha
    refine countP_eq_zero.mpr (fun x hx hin => ?_)
    have hlast := h.accepted_lt a ha
    have hle := hhigh x hx
    have hin' := (of_decide_eq_true hin).2
    omega
  have hnew : (b.records c).countP
      (fun x => e.baseOffset ≤ x.offset ∧ x.offset ≤ e.lastOffset) = 0 := by
    refine countP_eq_zero.mpr (fun x hx hin => ?_)
    have hlt := hlow x hx
    have hin' := (of_decide_eq_true hin).1
    omega
  constructor
  · intro hint
    have hinc := hint.increasing
    rw [hrecords] at hinc
    have hwithin := hint.within e (by rw [hretained]; simp)
    refine ⟨(pairwise_append.mp hinc).2.1, fun x hx => (hwithin x hx).2, fun hno => ?_⟩
    rcases haccepted with ⟨hyes, -⟩ | ⟨-, haccepted⟩
    · exact absurd (hover.mp hyes) hno
    · have hcounted := hint.counted ⟨r, e.baseOffset, e.lastOffset⟩ (by rw [haccepted]; simp)
      rw [hrecords, countP_append, hnew, Nat.zero_add, hcount] at hcounted
      rw [← hcounted]
      exact (countP_eq_length.mpr (fun x hx => decide_eq_true (hwithin x hx))).symm
  · intro hconf
    refine ⟨?_, fun e' he' x hx => ?_, fun a ha => ?_⟩
    · rw [hrecords]
      refine pairwise_append.mpr ⟨h.integrity.increasing, hconf.increasing, fun x hx y hy => ?_⟩
      exact Nat.lt_of_lt_of_le (hlow x hx) (hhigh y hy)
    · rw [hretained] at he'
      rcases mem_append.mp he' with he' | he'
      · exact h.integrity.within e' he' x hx
      · rw [mem_singleton.mp he'] at hx ⊢
        exact ⟨hhigh x hx, hconf.within x hx⟩
    · rw [hrecords, countP_append]
      have hprevious : ∀ a ∈ b.accepted, (b.records c).countP
          (fun x => a.first ≤ x.offset ∧ x.offset ≤ a.last) + (recordsOf c e).countP
            (fun x => a.first ≤ x.offset ∧ x.offset ≤ a.last) =
              a.request.batch.recordCount.toNat := by
        intro a ha
        rw [hold a ha, Nat.add_zero]
        exact h.integrity.counted a ha
      rcases haccepted with ⟨-, haccepted⟩ | ⟨hno, haccepted⟩
      · exact hprevious a (haccepted ▸ ha)
      · rw [haccepted] at ha
        rcases mem_append.mp ha with ha | ha
        · exact hprevious a ha
        · rw [mem_singleton.mp ha, hnew, Nat.zero_add, hcount,
            ← hconf.counted (fun hyes => hno (hover.mpr hyes))]
          refine countP_eq_length.mpr (fun x hx => decide_eq_true ?_)
          exact ⟨hhigh x hx, hconf.within x hx⟩

theorem Sound.receive (h : b.Sound c) (limits : ProduceLimits) (r : WireProduce) :
    ((b.receive c limits r).OffsetIntegrity c ↔ b.Conforming c limits r) ∧
      ((b.receive c limits r).OffsetIntegrity c → (b.receive c limits r).Sound c) := by
  rcases receive_cases with ⟨hno, hlog, haccepted⟩ | ⟨batch, hstores, hunique, hlog, haccepted⟩
  · have hsound := h.congr hlog haccepted
    exact ⟨⟨fun _ batch hstores => absurd hstores (hno batch), fun _ => hsound.integrity⟩,
      fun _ => hsound⟩
  · have hbase : (storedBatch c b.partition batch).baseOffset = b.partition.logEndOffset := rfl
    have happend := h.stacked.append hbase (storedBatch c b.partition batch).encodedSize r.now
    have hstacked : (b.receive c limits r).partition.log.Stacked := hlog ▸ happend.1
    have hretained : (b.receive c limits r).partition.log.retained =
        b.partition.log.retained ++ [storedBatch c b.partition batch] := hlog ▸ happend.2
    have hend : (b.receive c limits r).partition.logEndOffset =
        (storedBatch c b.partition batch).lastOffset + 1 := by
      rw [PartitionManager.logEndOffset, hlog]
      rfl
    have hle := logEndOffset_le_storedBatch c b.partition batch
    refine ⟨?_, fun hint => ⟨hstacked, fun e he => ?_, fun a ha => ?_, hint⟩⟩
    · rw [h.store_iff hbase hretained rfl haccepted Iff.rfl, conforms_storedBatch]
      exact ⟨fun hconf batch' hstores' => hunique batch' hstores' ▸ hconf,
        fun hconf => hconf batch hstores⟩
    · rw [hend]
      rw [hretained] at he
      rcases mem_append.mp he with he | he
      · have hlt := h.last_lt e he
        omega
      · rw [mem_singleton.mp he]
        exact Nat.lt_succ_self _
    · rw [hend]
      rcases haccepted with ⟨-, haccepted⟩ | ⟨-, haccepted⟩
      · have hlt := h.accepted_lt a (haccepted ▸ ha)
        omega
      · rw [haccepted] at ha
        rcases mem_append.mp ha with ha | ha
        · have hlt := h.accepted_lt a ha
          omega
        · rw [mem_singleton.mp ha]
          exact Nat.lt_succ_self _

theorem sound_create (config : EngineConfig) (policy : FlushPolicy) (now : Nat) :
    (Broker.mk (.create config policy now) []).Sound c :=
  ⟨SegmentManager.Stacked.create config now, nofun, nofun, ⟨.nil, nofun, nofun⟩⟩

/-- Offsets are sound throughout a run, and the ranges reported for the batches that are stored,
exactly when every batch that goes into the log conforms to its header. -/
theorem offsetIntegrity_iff_conforming (c : Crates) (limits : ProduceLimits)
    (config : EngineConfig) (policy : FlushPolicy) (now : Nat) (requests : List WireProduce) :
    Run.Always (Broker.receive c limits) (OffsetIntegrity c) ⟨.create config policy now, []⟩
      requests ↔
    Run.Guarded (Broker.receive c limits) (Conforming c limits) ⟨.create config policy now, []⟩
      requests :=
  Run.always_iff_guarded (fun _ h => h.integrity)
    (fun _ r h _ hconf => (h.receive limits r).2 ((h.receive limits r).1.mpr hconf))
    (fun _ r h _ hint => (h.receive limits r).1.mp hint) (sound_create config policy now)
    (Run.Guarded.of_forall (fun _ _ => trivial))

/-- One record whose offset delta is five, under a header that declares one
offset. -/
def overreaching : RecordBatch :=
  withCrc .storing { numbered 0 0 1 with recordData := encodeRecord 5 0 0 none (some []) }

/-- Two records whose offset deltas are zero and five, under a header that says so. -/
def sparse : RecordBatch :=
  withCrc .storing { numbered 7 0 2 with
    lastOffsetDelta := 5
    recordData := encodeRecord 0 0 0 none (some []) ++ encodeRecord 5 0 0 none (some []) }

/-- The bytes pass the checksum, and the record lies outside its batch.  A batch that conforms is
answered with the range from 0 to 5, but when it is repeated with a range that holds one of its two
records. -/
theorem not_offsetIntegrity_overreaching :
    let b := Broker.mk (.create .plain .syncEveryBatch 0) []
    let b' := b.receive .storing unlimited ⟨sparse.encode, 1, 0⟩
    ¬ Run.Always (Broker.receive .storing unlimited) (OffsetIntegrity .storing) b
      [⟨overreaching.encode, 1, 0⟩] ∧
    b'.accepted = [⟨⟨sparse, 1⟩, 0, 5⟩] ∧
    (produceBatchLocal .storing unlimited b'.partition ⟨sparse, 1⟩ 0).2 = .ok (4, 5) ∧
    (b'.records .storing).map Record.offset = [0, 5] := by
  refine ⟨?_, by decide +kernel⟩
  rintro ⟨-, hint⟩
  have hwithin := hint.within
  revert hwithin
  decide +kernel

end Broker

end Bifrox.Server

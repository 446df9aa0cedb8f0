/-
A produce request, and the answer to a repeated one.

For a duplicate `produce_batch_local` has only the last offset of the producer's last batch at
hand and gets the first one by subtraction.
-/
import Bifrox.Server.Idempotence

namespace Bifrox.Server

open List Option Protocol Segment

/-! ## The request -/

/-- What bounds a request: engine settings, and whether the topic is
compacted. -/
structure ProduceLimits where
  messageMaxBytes : Option Nat
  maxPartitionsPerTopic : Nat
  compacted : Bool

inductive ProduceError where
  | tooLarge (size max : Nat)
  | tooManyPartitions (requested max : Nat)
  | malformed (error : BatchError)
  | keyless (bad total : Nat)
  | outOfOrder
  | panicked
deriving DecidableEq

structure ProduceRequest where
  batch : RecordBatch
  numPartitions : Nat
deriving DecidableEq

def ProduceRequest.check (c : Crates) (limits : ProduceLimits) (r : ProduceRequest) :
    Option ProduceError :=
  let size := r.batch.encodedSize
  if limits.messageMaxBytes.any (fun max => size > max) then
    some (.tooLarge size (limits.messageMaxBytes.getD 0))
  else if r.numPartitions > limits.maxPartitionsPerTopic then
    some (.tooManyPartitions r.numPartitions limits.maxPartitionsPerTopic)
  else if limits.compacted then
    match r.batch.records c with
    | .error e => some (.malformed e)
    | .ok records =>
      (records.findIdx? (fun r => r.key.isNone)).map (fun bad => .keyless bad records.length)
  else none

def answer (recordCount : UInt32) : ProduceResult → Except ProduceError (Nat × Nat)
  | .stored batch => .ok (batch.baseOffset, batch.lastOffset)
  | .duplicate lastOffset =>
    -- `num_records as u64 - 1` underflows on an empty batch
    if recordCount = 0 then .error .panicked
    else .ok (lastOffset - (recordCount.toNat - 1), lastOffset)
  | .outOfOrder => .error .outOfOrder
  | .panicked => .error .panicked

def produceBatchLocal (c : Crates) (limits : ProduceLimits) (pm : PartitionManager)
    (r : ProduceRequest) (now : Nat) : PartitionManager × Except ProduceError (Nat × Nat) :=
  match r.check c limits with
  | some e => (pm, .error e)
  | none =>
    let (pm, result) := pm.produceBatchEos c r.batch now
    match answer r.batch.recordCount result with
    | .error e => (pm, .error e)
    | .ok (first, last) =>
      (pm.flushIfSyncPolicy.advanceCommittedHw (last + 1), .ok (first, last))

/-! ## A partition and the requests it accepted -/

structure Accepted where
  request : ProduceRequest
  first : Nat
  last : Nat
deriving DecidableEq

/-- The partition and the requests it stored, in order, with their offsets. -/
structure Broker where
  partition : PartitionManager
  accepted : List Accepted

def storedBy (c : Crates) (limits : ProduceLimits) (pm : PartitionManager) (r : ProduceRequest)
    (now : Nat) : Option RecordBatch :=
  match r.check c limits with
  | some _ => none
  | none =>
    match (pm.produceBatchEos c r.batch now).2 with
    | .stored batch => some batch
    | _ => none

def Broker.step (c : Crates) (limits : ProduceLimits) (b : Broker) : ProduceRequest × Nat → Broker
  | (r, now) =>
    { partition := (produceBatchLocal c limits b.partition r now).1
      accepted := match storedBy c limits b.partition r now with
        | some batch => b.accepted ++ [⟨r, batch.baseOffset, batch.lastOffset⟩]
        | none => b.accepted }

def Broker.lastOf (b : Broker) (producerId : UInt64) : Option Accepted :=
  (b.accepted.filter (fun a => a.request.batch.producerId = producerId)).getLast?

def Accepted.entry (a : Accepted) : Option ProducerStateEntry :=
  (lastSequence a.request.batch).map (fun lastSequence =>
    { epoch := a.request.batch.producerEpoch, lastSequence, lastOffset := a.last })

structure Broker.Tracks (c : Crates) (limits : ProduceLimits) (b : Broker) : Prop where
  states : ∀ producerId, producerId ≠ 0 →
    b.partition.states producerId = (b.lastOf producerId).bind Accepted.entry
  increasing : b.accepted.Pairwise (fun a a' => a.last < a'.last)
  below : ∀ a ∈ b.accepted, a.last < b.partition.logEndOffset
  checked : ∀ a ∈ b.accepted, a.request.check c limits = none
  counted : ∀ a ∈ b.accepted, a.request.batch.producerId ≠ 0 → a.entry.isSome

section Run

variable {c : Crates} {limits : ProduceLimits} {b : Broker}

variable {r : ProduceRequest}

theorem produceBatchLocal_of_check (pm : PartitionManager) (h : r.check c limits = none)
    (now : Nat) :
    let out := produceBatchLocal c limits pm r now
    out.1.log = (pm.produceBatchEos c r.batch now).1.log ∧
      out.1.states = (pm.produceBatchEos c r.batch now).1.states ∧
      out.2 = answer r.batch.recordCount (pm.produceBatchEos c r.batch now).2 := by
  rw [produceBatchLocal, h]
  simp only
  split
  · rename_i e he
    exact ⟨rfl, rfl, he.symm⟩
  · rename_i first last hok
    refine ⟨?_, ?_, hok.symm⟩
    · rw [(advanceCommittedHw_log _ _).1, (flushIfSyncPolicy_log _).1]
    · rw [(advanceCommittedHw_log _ _).2, (flushIfSyncPolicy_log _).2]

/-! ## Runs of requests -/

variable {pm : PartitionManager} {states : ProducerStates} {a : Accepted} {producerId : UInt64}

theorem storedBatch_entry (hrecord : pm.states.record (storedBatch c pm r.batch) = some states)
    (hpid : producerId ≠ 0) :
    states producerId = if r.batch.producerId = producerId then
      Accepted.entry ⟨r, (storedBatch c pm r.batch).baseOffset,
        (storedBatch c pm r.batch).lastOffset⟩
      else pm.states producerId := by
  rw [ProducerStates.record] at hrecord
  by_cases hown : r.batch.producerId = producerId
  · rw [if_pos hown]
    rw [if_pos (show (storedBatch c pm r.batch).producerId ≠ 0 from hown ▸ hpid)] at hrecord
    obtain ⟨seq, hseq, rfl⟩ := map_eq_some_iff.mp hrecord
    have hseq' : lastSequence r.batch = some seq := hseq
    rw [Accepted.entry, hseq', ← hown]
    exact Function.update_self ..
  · rw [if_neg hown]
    split at hrecord
    · obtain ⟨seq, -, rfl⟩ := map_eq_some_iff.mp hrecord
      exact Function.update_of_ne (Ne.symm hown) _ _
    · cases hrecord
      rfl

/-- A request that stores nothing keeps the record of the accepted ones; the log
can still grow, by a batch whose count overflows. -/
theorem Broker.Tracks.unchanged (h : b.Tracks c limits) (hstates : pm.states = b.partition.states)
    (hend : b.partition.logEndOffset ≤ pm.logEndOffset) :
    (Broker.mk pm b.accepted).Tracks c limits := by
  refine ⟨fun producerId hpid => ?_, h.increasing, fun a ha => ?_, h.checked, h.counted⟩
  · show pm.states producerId = _
    rw [hstates]
    exact h.states producerId hpid
  · exact Nat.lt_of_lt_of_le (h.below a ha) hend

theorem Broker.lastOf_concat : (Broker.mk pm (b.accepted ++ [a])).lastOf producerId =
      if a.request.batch.producerId = producerId then some a else b.lastOf producerId := by
  rw [Broker.lastOf, filter_append, Broker.lastOf]
  by_cases hown : a.request.batch.producerId = producerId
  · rw [if_pos hown, filter_cons_of_pos (by simpa using hown), filter_nil, List.getLast?_concat]
  · rw [if_neg hown, filter_cons_of_neg (by simpa using hown), filter_nil, append_nil]

theorem Broker.Tracks.store (h : b.Tracks c limits) (hcheck : r.check c limits = none)
    (hrecord : b.partition.states.record (storedBatch c b.partition r.batch) = some states)
    (hstates : pm.states = states)
    (hend : pm.logEndOffset = (storedBatch c b.partition r.batch).lastOffset + 1) :
    let stored := storedBatch c b.partition r.batch
    (Broker.mk pm (b.accepted ++ [⟨r, stored.baseOffset, stored.lastOffset⟩])).Tracks c
      limits := by
  have hle := logEndOffset_le_storedBatch c b.partition r.batch
  refine ⟨fun producerId hpid => ?_, ?_, fun a ha => ?_, fun a ha => ?_, fun a ha hpid => ?_⟩
  · rw [Broker.lastOf_concat]
    show pm.states producerId = _
    rw [hstates, storedBatch_entry hrecord hpid]
    by_cases hown : r.batch.producerId = producerId
    · rw [if_pos hown, if_pos hown, bind_some]
    · rw [if_neg hown, if_neg hown]
      exact h.states producerId hpid
  · rw [pairwise_append]
    refine ⟨h.increasing, pairwise_singleton _ _, fun a ha a' ha' => ?_⟩
    rw [mem_singleton.mp ha']
    exact Nat.lt_of_lt_of_le (h.below a ha) hle
  · show a.last < pm.logEndOffset
    rw [hend]
    rcases mem_append.mp ha with ha | ha
    · have hbelow := h.below a ha
      omega
    · rw [mem_singleton.mp ha]
      exact Nat.lt_succ_self _
  · rcases mem_append.mp ha with ha | ha
    · exact h.checked a ha
    · rw [mem_singleton.mp ha]
      exact hcheck
  · rcases mem_append.mp ha with ha | ha
    · exact h.counted a ha hpid
    · rw [mem_singleton.mp ha] at hpid ⊢
      rw [ProducerStates.record,
        if_pos (show (storedBatch c b.partition r.batch).producerId ≠ 0 from hpid)] at hrecord
      obtain ⟨seq, hseq, -⟩ := map_eq_some_iff.mp hrecord
      have hseq' : lastSequence r.batch = some seq := hseq
      rw [Accepted.entry, hseq']
      rfl

theorem Broker.tracks_step (b : Broker) (op : ProduceRequest × Nat) (h : b.Tracks c limits) :
    (b.step c limits op).Tracks c limits := by
  obtain ⟨r, now⟩ := op
  rw [Broker.step]
  cases hcheck : r.check c limits with
  | some =>
    rw [storedBy, produceBatchLocal, hcheck]
    exact h
  | none =>
    obtain ⟨hlog, hstates, -⟩ :=
      produceBatchLocal_of_check b.partition hcheck now
    have hend : (produceBatchLocal c limits b.partition r now).1.logEndOffset =
        (b.partition.produceBatchEos c r.batch now).1.logEndOffset := by
      rw [PartitionManager.logEndOffset, hlog]
      rfl
    simp only [storedBy, hcheck]
    rcases produceBatchEos_cases c b.partition r.batch now with ⟨-, e, -, heq⟩ | ⟨-, heq⟩ <;>
      rw [heq] at hstates hend ⊢
    · obtain ⟨_ | _, _⟩ := e <;> exact h.unchanged hstates (Nat.le_of_eq hend.symm)
    · rw [storeBatch_logEndOffset] at hend
      have hle := logEndOffset_le_storedBatch c b.partition r.batch
      rcases storeBatch_cases c b.partition r.batch now with
        ⟨-, hres, hsame⟩ | ⟨states, hrecord, hres, hnew⟩
      · rw [hres]
        exact h.unchanged (hstates.trans hsame) (by omega)
      · rw [hres]
        exact h.store hcheck hrecord (hstates.trans hnew) hend

theorem Broker.tracks_create (config : EngineConfig) (flushPolicy : FlushPolicy) (now : Nat) :
    (Broker.mk (.create config flushPolicy now) []).Tracks c limits :=
  ⟨fun _ _ => rfl, .nil, fun _ ha => (nomatch ha), fun _ ha => (nomatch ha),
    fun _ ha => (nomatch ha)⟩

/-- The last accepted request of a producer lies above its others. -/
theorem Broker.Tracks.lastOf (h : b.Tracks c limits) (ha : a ∈ b.accepted) :
    ∃ a', b.lastOf a.request.batch.producerId = some a' ∧ a' ∈ b.accepted ∧
      (a = a' ∨ a.last < a'.last) := by
  have hmem : a ∈ b.accepted.filter
      (fun x => x.request.batch.producerId = a.request.batch.producerId) :=
    mem_filter.mpr ⟨ha, decide_eq_true rfl⟩
  have hinc := h.increasing.filter
    (fun x => decide (x.request.batch.producerId = a.request.batch.producerId))
  rcases eq_nil_or_concat' (b.accepted.filter
    (fun x => x.request.batch.producerId = a.request.batch.producerId)) with hnil |
      ⟨init, a', hlist⟩
  · rw [hnil] at hmem
    cases hmem
  · refine ⟨a', ?_, ?_, ?_⟩
    · rw [Broker.lastOf, hlist, List.getLast?_concat]
    · have hlast : a' ∈ init ++ [a'] := mem_append_right _ (mem_singleton_self _)
      rw [← hlist] at hlast
      exact (mem_filter.mp hlast).1
    · rw [hlist] at hmem hinc
      rcases mem_append.mp hmem with hinit | hlast
      · exact .inr ((pairwise_append.mp hinc).2.2 a hinit a' (mem_singleton_self _))
      · exact .inl (mem_singleton.mp hlast)

/-- The condition under which a request is answered with its own offsets: its
batch is the last one of the producer, has as many records as offsets, and its
numbers do not wrap. -/
structure Accepted.Repeatable (b : Broker) (a : Accepted) : Prop where
  latest : b.lastOf a.request.batch.producerId = some a
  nonempty : a.request.batch.recordCount ≠ 0
  dense : a.last - (a.request.batch.recordCount.toNat - 1) = a.first
  unwrapped : ∀ seq ∈ lastSequence a.request.batch, a.request.batch.baseSequence ≤ seq

theorem validateSequence_duplicate {epoch : Int16} {base : Int32}
    {entry : ProducerStateEntry} {lastOffset : Nat} (hentry : states producerId = some entry)
    (h : states.validateSequence producerId epoch base = .error (true, lastOffset)) :
    lastOffset = entry.lastOffset := by
  rw [ProducerStates.validateSequence, hentry] at h
  simp only at h
  split at h
  · cases h
  · split at h
    · split at h
      · cases h
        rfl
      · split at h
        · cases h
        · cases h
    · cases h

theorem answer_storeBatch_ne (h : b.Tracks c limits) (ha : a ∈ b.accepted)
    (batch : RecordBatch) (count : UInt32) (now : Nat) :
    answer count (b.partition.storeBatch c batch now).2 ≠ .ok (a.first, a.last) := by
  intro heq
  have hbelow := h.below a ha
  have hle := logEndOffset_le_storedBatch c b.partition batch
  rcases storeBatch_cases c b.partition batch now with ⟨-, hres, -⟩ | ⟨states, -, hres, -⟩
  · rw [hres] at heq
    cases heq
  · rw [hres, answer] at heq
    have hlast := (Prod.mk.inj (Except.ok.inj heq)).2
    omega

theorem answer_iff_repeatable (h : b.Tracks c limits) (ha : a ∈ b.accepted)
    (hpid : a.request.batch.producerId ≠ 0) {now : Nat} :
    (produceBatchLocal c limits b.partition a.request now).2 = .ok (a.first, a.last) ↔
      a.Repeatable b := by
  obtain ⟨-, -, hanswer⟩ := produceBatchLocal_of_check b.partition (h.checked a ha) now
  rw [hanswer]
  obtain ⟨a', hlast, ha', hcmp⟩ := h.lastOf ha
  have hentry := h.states a.request.batch.producerId hpid
  rw [hlast, bind_some] at hentry
  have hpid' : a'.request.batch.producerId = a.request.batch.producerId := by
    have hmem := mem_of_getLast? hlast
    exact of_decide_eq_true (mem_filter.mp hmem).2
  obtain ⟨entry, hsome⟩ := isSome_iff_exists.mp (h.counted a' ha' (hpid' ▸ hpid))
  rw [hsome] at hentry
  obtain ⟨seq, hseq, rfl⟩ := map_eq_some_iff.mp hsome
  have hstored := answer_storeBatch_ne h ha a.request.batch a.request.batch.recordCount now
  rcases hcmp with rfl | hlt
  · -- the request repeats the last batch
    have hval : b.partition.states.validateSequence _ _ a.request.batch.baseSequence = _ :=
      validateSequence_of_same hentry rfl
    constructor
    · intro heq
      by_cases hle : a.request.batch.baseSequence.toInt ≤ seq.toInt
      · rw [if_pos hle] at hval
        rw [produceBatchEos_of_error c now hpid hval, if_pos rfl, answer] at heq
        split at heq
        · cases heq
        · rename_i hcount
          refine ⟨hlast, hcount, (Prod.mk.inj (Except.ok.inj heq)).1, fun seq' hseq' => ?_⟩
          rw [hseq] at hseq'
          cases hseq'
          exact Int32.le_iff_toInt_le.mpr hle
      · rw [if_neg hle] at hval
        split at hval
        · rw [produceBatchEos_of_error c now hpid hval] at heq
          cases heq
        · rw [produceBatchEos_of_ok hval] at heq
          exact absurd heq hstored
    · intro hrep
      rw [if_pos (Int32.le_iff_toInt_le.mp (hrep.unwrapped seq hseq))] at hval
      rw [produceBatchEos_of_error c now hpid hval, if_pos rfl, answer,
        if_neg hrep.nonempty, hrep.dense]
  · -- a later batch has taken its place
    constructor
    · intro heq
      cases hval : b.partition.states.validateSequence a.request.batch.producerId
        a.request.batch.producerEpoch a.request.batch.baseSequence with
      | ok =>
        rw [produceBatchEos_of_ok hval] at heq
        exact absurd heq hstored
      | error e =>
        obtain ⟨isDuplicate, lastOffset⟩ := e
        rw [produceBatchEos_of_error c now hpid hval] at heq
        cases isDuplicate with
        | false => cases heq
        | true =>
          rw [if_pos rfl, answer] at heq
          split at heq
          · cases heq
          · have hoffset := validateSequence_duplicate hentry hval
            have hsnd := (Prod.mk.inj (Except.ok.inj heq)).2
            simp only at hoffset
            omega
    · intro hrep
      rw [Option.some.inj (hlast.symm.trans hrep.latest)] at hlt
      exact absurd hlt (Nat.lt_irrefl _)

end Run

/-- After any sequence of requests, of any producers, a request of an idempotent
producer that is sent again is answered with its own offsets exactly when it is
repeatable. -/
theorem repeated_request_answer_iff (c : Crates) (limits : ProduceLimits) (config : EngineConfig)
    (flushPolicy : FlushPolicy) (created : Nat) (ops : List (ProduceRequest × Nat)) (a : Accepted)
    (ha : a ∈ (Run.run (Broker.step c limits)
      ⟨.create config flushPolicy created, []⟩ ops).accepted)
    (hpid : a.request.batch.producerId ≠ 0) (now : Nat) :
    (produceBatchLocal c limits (Run.run (Broker.step c limits)
      ⟨.create config flushPolicy created, []⟩ ops).partition a.request now).2 =
        .ok (a.first, a.last) ↔
      a.Repeatable (Run.run (Broker.step c limits)
        ⟨.create config flushPolicy created, []⟩ ops) := by
  have htracks : (Run.run (Broker.step c limits)
      ⟨.create config flushPolicy created, []⟩ ops).Tracks c limits :=
    (Run.Guarded.of_forall (fun _ _ => trivial)).invariant
      (fun b op h _ => Broker.tracks_step b op h) (Broker.tracks_create config flushPolicy created)
  exact answer_iff_repeatable htracks ha hpid

def unlimited : ProduceLimits :=
  { messageMaxBytes := none, maxPartitionsPerTopic := 1, compacted := false }

def twoBatches : Broker :=
  Run.run (Broker.step .storing unlimited) ⟨.create .plain .syncEveryBatch 0, []⟩
    [(⟨numbered 7 0 2, 1⟩, 0), (⟨numbered 7 2 2, 1⟩, 0)]

theorem second_batch_repeated :
    (produceBatchLocal .storing unlimited twoBatches.partition ⟨numbered 7 2 2, 1⟩ 0).2 =
      .ok (2, 3) := by
  refine (repeated_request_answer_iff .storing unlimited .plain .syncEveryBatch 0
    [(⟨numbered 7 0 2, 1⟩, 0), (⟨numbered 7 2 2, 1⟩, 0)] ⟨⟨numbered 7 2 2, 1⟩, 2, 3⟩
    (by decide +kernel) (by decide +kernel) 0).mpr ⟨?_, ?_, ?_, forall_mem_of_all ?_⟩
  all_goals decide +kernel

/-- The first batch, sent again, is answered with the offsets of the second. -/
theorem first_batch_not_repeated : ⟨⟨numbered 7 0 2, 1⟩, 0, 1⟩ ∈ twoBatches.accepted ∧
    (produceBatchLocal .storing unlimited twoBatches.partition ⟨numbered 7 0 2, 1⟩ 0).2 ≠
      .ok (0, 1) := by
  decide +kernel

end Bifrox.Server

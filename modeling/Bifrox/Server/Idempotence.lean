/-
Idempotent production.

The positions of a producer's records are natural numbers; the sequence number of a position wraps
at 2^32.  The broker compares the sequence number of a batch's first record with the last one it
has stored, and nothing else.
-/
import Bifrox.Server.Partition

namespace Bifrox.Server

open List Option Protocol Segment ProducerStates

/-! ## Sequence numbers -/

variable (first : Int32)

def seqAt (position : Nat) : Int32 := first + Int32.ofNat position

theorem bmod_eq_add (x : Int) : ∃ k : Int, x.bmod (2 ^ 32) = x + k * 2 ^ 32 := by
  obtain ⟨k, hk⟩ := Int.dvd_bmod_sub_self (x := x) (m := 2 ^ 32)
  have hcast : ((2 ^ 32 : Nat) : Int) = 2 ^ 32 := rfl
  rw [hcast] at hk
  exact ⟨k, by omega⟩

theorem toInt_add_eq (a b : Int32) : ∃ k : Int, (a + b).toInt = a.toInt + b.toInt + k * 2 ^ 32 := by
  rw [Int32.toInt_add]
  exact bmod_eq_add _

theorem toInt_ofNat_eq (n : Nat) : ∃ k : Int, (Int32.ofNat n).toInt = n + k * 2 ^ 32 := by
  rw [Int32.toInt_ofNat']
  exact bmod_eq_add n

theorem toInt_seqAt (position : Nat) :
    ∃ k : Int, (seqAt first position).toInt = first.toInt + position + k * 2 ^ 32 := by
  obtain ⟨k, hk⟩ := toInt_ofNat_eq position
  obtain ⟨l, hl⟩ := toInt_add_eq first (Int32.ofNat position)
  exact ⟨k + l, by rw [seqAt]; omega⟩

/-- The number before that of position `m`, as the broker's last one. -/
theorem toInt_seqAt_sub_one (m : Nat) :
    ∃ k : Int, (seqAt first m - 1).toInt = first.toInt + m - 1 + k * 2 ^ 32 := by
  obtain ⟨k, hk⟩ := toInt_seqAt first m
  obtain ⟨l, hl⟩ := toInt_add_eq (seqAt first m - 1) 1
  rw [Int32.sub_add_cancel] at hl
  have hone : (1 : Int32).toInt = 1 := rfl
  exact ⟨k - l, by omega⟩

theorem seqAt_add_sub_one (m n : Nat) :
    seqAt first m + (Int32.ofNat n - 1) = seqAt first (m + n) - 1 := by
  rw [seqAt, seqAt, Int32.ofNat_add]
  grind

theorem eq_add_one_of_toInt {a b : Int32} (h : a.toInt = b.toInt + 1) : a = b + 1 := by
  obtain ⟨k, hk⟩ := toInt_add_eq b 1
  have hone : (1 : Int32).toInt = 1 := rfl
  have hlow := (b + 1).le_toInt
  have hhigh := (b + 1).toInt_lt
  have hlow' := a.le_toInt
  have hhigh' := a.toInt_lt
  rw [← Int32.toInt_inj]
  omega

theorem toInt32_eq_ofNat {n : UInt32} : n.toInt32 = Int32.ofNat n.toNat := by
  apply Int32.toBitVec_inj.mp
  simp

theorem toInt32_eq_minValue_iff (n : UInt32) : n.toInt32 = Int32.minValue ↔ n.toNat = 2 ^ 31 := by
  rw [← Int32.toInt_inj, Int32.toInt_minValue, toInt32_eq_ofNat]
  obtain ⟨k, hk⟩ := toInt_ofNat_eq n.toNat
  have hlt := n.toNat_lt
  have hlow := (Int32.ofNat n.toNat).le_toInt
  have hhigh := (Int32.ofNat n.toNat).toInt_lt
  omega

section Validate

variable {states : ProducerStates} {producerId : UInt64} {epoch : Int16} {base : Int32}
  {entry : ProducerStateEntry}

theorem validateSequence_of_none (h : states producerId = none) :
    states.validateSequence producerId epoch base = .ok () := by
  rw [validateSequence, h]

theorem validateSequence_of_older (h : states producerId = some entry) (hlt : entry.epoch < epoch) :
    states.validateSequence producerId epoch base = .ok () := by
  rw [validateSequence, h]
  rw [Int16.lt_iff_toInt_lt] at hlt
  have hnlt : ¬ epoch < entry.epoch := by
    rw [Int16.lt_iff_toInt_lt]
    omega
  have hne : epoch ≠ entry.epoch := by
    intro heq
    rw [heq] at hlt
    exact absurd hlt (Int.lt_irrefl _)
  simp only [if_neg hnlt, if_neg hne]

/-- Within an epoch the answer depends on how the first sequence number compares
with the last one stored. -/
theorem validateSequence_of_same (h : states producerId = some entry) (hep : entry.epoch = epoch) :
    states.validateSequence producerId epoch base =
      if base.toInt ≤ entry.lastSequence.toInt then .error (true, entry.lastOffset)
      else if entry.lastSequence.toInt + 1 < base.toInt then .error (false, 0)
      else .ok () := by
  rw [validateSequence, h]
  have hnlt : ¬ epoch < entry.epoch := by
    rw [hep, Int16.lt_iff_toInt_lt]
    exact Int.lt_irrefl _
  simp only [if_neg hnlt, if_pos hep.symm, Int32.le_iff_toInt_le]
  by_cases hle : base.toInt ≤ entry.lastSequence.toInt
  · rw [if_pos hle, if_pos hle]
  · have hbase := base.toInt_lt
    obtain ⟨k, hk⟩ := toInt_add_eq entry.lastSequence 1
    have hone : (1 : Int32).toInt = 1 := rfl
    have hlow := (entry.lastSequence + 1).le_toInt
    have hhigh := (entry.lastSequence + 1).toInt_lt
    have hlast := entry.lastSequence.le_toInt
    have hsucc : (entry.lastSequence + 1).toInt = entry.lastSequence.toInt + 1 := by omega
    simp [if_neg hle, Int32.lt_iff_toInt_lt, hsucc]

end Validate

/-! ## A producer and its partition -/

structure Producer where
  id : UInt64
  epoch : Int16
  first : Int32
  id_ne : id ≠ 0

/-- One call of the producer: the positions it sent, how many were stored before,
and the answer. -/
structure Exchange where
  start : Nat
  count : Nat
  already : Nat
  result : ProduceResult
deriving DecidableEq

/-- The partition, the positions of the producer's records in the order in which
the log received them, and the calls so far. -/
structure Session where
  partition : PartitionManager
  journal : List Nat
  exchanges : List Exchange

inductive Call where
  | send (start : Nat) (batch : RecordBatch) (now : Nat)
  | other (batch : RecordBatch) (now : Nat)

def ProduceResult.appended : ProduceResult → Bool
  | .stored _ | .panicked => true
  | .duplicate _ | .outOfOrder => false

@[simp] theorem appended_refusal {e : Bool × Nat} : (refusal e).appended = false := by
  obtain ⟨_ | _, _⟩ := e <;> rfl

@[simp] theorem appended_storeBatch {c : Crates} {pm : PartitionManager} {batch : RecordBatch}
    {now : Nat} : (pm.storeBatch c batch now).2.appended = true := by
  rcases storeBatch_cases c pm batch now with ⟨-, hres, -⟩ | ⟨states, -, hres, -⟩ <;>
    rw [hres] <;> rfl

def Session.step (c : Crates) (s : Session) : Call → Session
  | .send start batch now =>
    let (partition, result) := s.partition.produceBatchEos c batch now
    let count := batch.recordCount.toNat
    { partition
      journal := if result.appended then s.journal ++ List.range' start count else s.journal
      exchanges := s.exchanges ++ [{ start, count, already := s.journal.length, result }] }
  | .other batch now => { s with partition := (s.partition.produceBatchEos c batch now).1 }

/-- The producer sends records it has sent before or those that come next, under
their sequence numbers.  Other producers do as they like. -/
def Session.Consecutive (p : Producer) (s : Session) : Call → Prop
  | .send start batch _ =>
    batch.producerId = p.id ∧ batch.producerEpoch = p.epoch ∧
      batch.baseSequence = seqAt p.first start ∧ start ≤ s.journal.length
  | .other batch _ => batch.producerId ≠ p.id

structure Exchange.Good (x : Exchange) : Prop where
  duplicate : ∀ lastOffset, x.result = .duplicate lastOffset → x.start + x.count ≤ x.already
  received : x.start = x.already → x.result ≠ .outOfOrder
  total : x.result ≠ .panicked

/-- The log has each position once and in order, and every call was answered as
it should be. -/
structure Session.ExactlyOnce (s : Session) : Prop where
  ordered : s.journal = List.range s.journal.length
  answers : ∀ x ∈ s.exchanges, x.Good

def lastStored (p : Producer) (pm : PartitionManager) : Option Int32 :=
  (pm.states p.id).bind (fun entry =>
    if entry.epoch = p.epoch then some entry.lastSequence else none)

/-- The condition on a call.  With nothing stored in the epoch only the record
count matters.  Otherwise a batch that starts below the end of what is stored must
not reach beyond it unless its number reads as one from ahead, a batch with new
records must not start right after the greatest number, and a batch must not be a
whole cycle of numbers old. -/
def Session.Safe (p : Producer) (s : Session) : Call → Prop
  | .send start batch _ =>
    (lastStored p s.partition = none → batch.recordCount.toNat ≠ 2 ^ 31) ∧
    ∀ last ∈ lastStored p s.partition,
      (start < s.journal.length → s.journal.length < start + batch.recordCount.toNat →
        last.toInt + 1 < batch.baseSequence.toInt) ∧
      (start = s.journal.length → 0 < batch.recordCount.toNat →
        last ≠ Int32.maxValue ∧ batch.recordCount.toNat ≠ 2 ^ 31) ∧
      (start < s.journal.length → 0 < batch.recordCount.toNat →
        (s.journal.length - start) % 2 ^ 32 = 0 → last = Int32.maxValue)
  | .other .. => True

structure Session.Tracks (p : Producer) (s : Session) : Prop where
  unfenced : ∀ entry, s.partition.states p.id = some entry →
    entry.epoch < p.epoch ∨ entry.epoch = p.epoch
  last : (lastStored p s.partition = none ∧ s.journal = []) ∨
    lastStored p s.partition = some (seqAt p.first s.journal.length - 1)
  once : s.ExactlyOnce

/-! ## One call of a session -/

section Step

variable {c : Crates} {p : Producer} {s : Session} {start : Nat} {batch : RecordBatch} {now : Nat}
  {pm : PartitionManager}

theorem range_append_range' {m start n : Nat} :
    List.range m ++ List.range' start n = List.range (m + n) ↔ n = 0 ∨ start = m := by
  have hsplit : List.range (m + n) = List.range m ++ List.range' m n := by
    rw [range_eq_range', range_eq_range', ← List.range'_append_1, Nat.zero_add]
  rw [hsplit, append_cancel_left_eq]
  cases n with
  | zero => simp
  | succ =>
    refine ⟨fun h => .inr (List.cons.inj h).1, fun h => ?_⟩
    rcases h with h | rfl
    · cases h
    · rfl

theorem verdict_of_last {last : Int32} (hlast : lastStored p s.partition = some last)
    (base : Int32) : ∃ lastOffset, s.partition.states.validateSequence p.id p.epoch base =
      if base.toInt ≤ last.toInt then .error (true, lastOffset)
      else if last.toInt + 1 < base.toInt then .error (false, 0)
      else .ok () := by
  obtain ⟨entry, hentry, hsome⟩ := bind_eq_some_iff.mp hlast
  split at hsome
  · rename_i hep
    cases hsome
    exact ⟨entry.lastOffset, validateSequence_of_same hentry hep⟩
  · cases hsome

theorem lastSequence_eq :
    lastSequence batch = if batch.recordCount.toNat = 2 ^ 31 then none
      else some (batch.baseSequence + (Int32.ofNat batch.recordCount.toNat - 1)) := by
  rw [lastSequence, ← toInt32_eq_ofNat]
  exact if_congr (toInt32_eq_minValue_iff _) rfl rfl

theorem storeBatch_tracked (hid : batch.producerId ≠ 0) :
    (batch.recordCount.toNat = 2 ^ 31 ∧ (pm.storeBatch c batch now).2 = .panicked ∧
      (pm.storeBatch c batch now).1.states = pm.states) ∨
    (batch.recordCount.toNat ≠ 2 ^ 31 ∧
      (pm.storeBatch c batch now).2 = .stored (storedBatch c pm batch) ∧
      ∃ lastOffset, (pm.storeBatch c batch now).1.states batch.producerId = some
        { epoch := batch.producerEpoch, lastOffset,
          lastSequence := batch.baseSequence + (Int32.ofNat batch.recordCount.toNat - 1) }) := by
  have hrecord : pm.states.record (storedBatch c pm batch) =
      (lastSequence batch).map (fun lastSequence => pm.states.update batch.producerId
        { epoch := batch.producerEpoch, lastSequence,
          lastOffset := (storedBatch c pm batch).lastOffset }) := by
    rw [record, if_pos (show (storedBatch c pm batch).producerId ≠ 0 from hid)]
    rfl
  rw [lastSequence_eq] at hrecord
  by_cases hcount : batch.recordCount.toNat = 2 ^ 31
  · rw [if_pos hcount, map_none] at hrecord
    rcases storeBatch_cases c pm batch now with ⟨-, hres, hstates⟩ | ⟨states, hsome, -⟩
    · exact .inl ⟨hcount, hres, hstates⟩
    · rw [hrecord] at hsome
      cases hsome
  · rw [if_neg hcount, map_some] at hrecord
    rcases storeBatch_cases c pm batch now with ⟨hnone, -⟩ | ⟨states, hsome, hres, hstates⟩
    · rw [hrecord] at hnone
      cases hnone
    · rw [hrecord] at hsome
      cases hsome
      refine .inr ⟨hcount, hres, (storedBatch c pm batch).lastOffset, ?_⟩
      rw [hstates]
      exact Function.update_self ..

theorem produceBatchEos_accepted (c : Crates) (now : Nat) (hid : batch.producerId = p.id)
    (hep : batch.producerEpoch = p.epoch)
    (hok : pm.states.validateSequence batch.producerId batch.producerEpoch batch.baseSequence =
      .ok ()) :
    (batch.recordCount.toNat = 2 ^ 31 ∧ (pm.produceBatchEos c batch now).2 = .panicked) ∨
    (batch.recordCount.toNat ≠ 2 ^ 31 ∧
      (∃ stored, (pm.produceBatchEos c batch now).2 = .stored stored) ∧
      ∃ lastOffset, (pm.produceBatchEos c batch now).1.states p.id = some
        { epoch := p.epoch, lastOffset,
          lastSequence := batch.baseSequence + (Int32.ofNat batch.recordCount.toNat - 1) }) := by
  rw [produceBatchEos_of_ok hok, ← hid, ← hep]
  rcases storeBatch_tracked (hid ▸ p.id_ne) with
    ⟨hcount, hres, -⟩ | ⟨hcount, hres, hentry⟩
  · exact .inl ⟨hcount, hres⟩
  · exact .inr ⟨hcount, ⟨_, hres⟩, hentry⟩

/-- A session after a call is in order when the call leaves the journal in order
and is answered as it should be. -/
theorem exactlyOnce_step_iff (c : Crates) (start : Nat) (batch : RecordBatch) (now : Nat)
    (h : s.ExactlyOnce) :
    (s.step c (.send start batch now)).ExactlyOnce ↔
      ((s.partition.produceBatchEos c batch now).2.appended = true →
        batch.recordCount.toNat = 0 ∨ start = s.journal.length) ∧
      Exchange.Good { start, count := batch.recordCount.toNat, already := s.journal.length,
                      result := (s.partition.produceBatchEos c batch now).2 } := by
  have hordered : ∀ n, s.journal ++ List.range' start n =
      List.range (s.journal ++ List.range' start n).length ↔ n = 0 ∨ start = s.journal.length := by
    intro n
    rw [← range_append_range', length_append, length_range', ← h.ordered]
  constructor
  · intro hs
    refine ⟨fun happ => ?_, hs.answers _ (mem_append_right _ (mem_singleton_self _))⟩
    have hord := hs.ordered
    simp only [Session.step, happ, if_true] at hord
    exact (hordered _).mp hord
  · rintro ⟨happ, hgood⟩
    refine ⟨?_, fun x hx => ?_⟩
    · cases hres : (s.partition.produceBatchEos c batch now).2.appended with
      | true =>
        simp only [Session.step, hres, if_true]
        exact (hordered _).mpr (happ hres)
      | false =>
        simp only [Session.step, hres, Bool.false_eq_true, if_false]
        exact h.ordered
    · rcases mem_append.mp hx with hx | hx
      · exact h.answers x hx
      · rw [mem_singleton.mp hx]
        exact hgood

/-- A call that passes the check.  It then carries the number of the next
position, whatever position it starts at. -/
theorem tracks_step_of_ok (c : Crates) (start now : Nat) (h : s.Tracks p)
    (hid : batch.producerId = p.id) (hep : batch.producerEpoch = p.epoch)
    (hok : s.partition.states.validateSequence batch.producerId batch.producerEpoch
      batch.baseSequence = .ok ())
    (hseq : batch.baseSequence = seqAt p.first s.journal.length) :
    let s' := s.step c (.send start batch now)
    (s'.ExactlyOnce ↔ batch.recordCount.toNat ≠ 2 ^ 31 ∧ (batch.recordCount.toNat = 0 ∨
      start = s.journal.length)) ∧ (s'.ExactlyOnce → s'.Tracks p) := by
  have honce := exactlyOnce_step_iff c start batch now h.once
  rcases produceBatchEos_accepted c now hid hep hok with
    ⟨hcount, hres⟩ | ⟨hcount, ⟨stored, hres⟩, lastOffset, hentry⟩
  · rw [hres] at honce
    have hbad : ¬ (s.step c (.send start batch now)).ExactlyOnce :=
      fun hs => (honce.mp hs).2.total rfl
    exact ⟨⟨fun hs => absurd hs hbad, fun hs => absurd hcount hs.1⟩, fun hs => absurd hs hbad⟩
  · rw [hres] at honce
    refine ⟨honce.trans ⟨fun hs => ⟨hcount, hs.1 rfl⟩, fun hs => ⟨fun _ => hs.2, ?_⟩⟩, fun hs => ?_⟩
    · exact ⟨fun _ hdup => (nomatch hdup), fun _ hout => (nomatch hout),
        fun hpanic => (nomatch hpanic)⟩
    · have hjournal : (s.step c (.send start batch now)).journal =
          s.journal ++ List.range' start batch.recordCount.toNat := by
        simp [Session.step, hres, ProduceResult.appended]
      have hpartition : (s.step c (.send start batch now)).partition =
          (s.partition.produceBatchEos c batch now).1 := rfl
      refine ⟨fun entry he => ?_, .inr ?_, hs⟩
      · rw [hpartition, hentry] at he
        cases he
        exact .inr rfl
      · rw [hpartition, lastStored, hentry, bind_some, if_pos rfl, hjournal, length_append,
          length_range', hseq, seqAt_add_sub_one]

theorem tracks_step_of_error (c : Crates) (start now : Nat) (h : s.Tracks p) {isDuplicate : Bool}
    {lastOffset : Nat} (hid : batch.producerId = p.id)
    (herr : s.partition.states.validateSequence batch.producerId batch.producerEpoch
      batch.baseSequence = .error (isDuplicate, lastOffset)) :
    let s' := s.step c (.send start batch now)
    (s'.ExactlyOnce ↔ if isDuplicate then start + batch.recordCount.toNat ≤
      s.journal.length else start ≠ s.journal.length) ∧ (s'.ExactlyOnce → s'.Tracks p) := by
  have honce := exactlyOnce_step_iff c start batch now h.once
  have heq := produceBatchEos_of_error c now (hid ▸ p.id_ne) herr
  have happended : (s.partition.produceBatchEos c batch now).2.appended = false := by
    rw [heq]
    cases isDuplicate with
    | true => rfl
    | false => rfl
  refine ⟨honce.trans ?_, fun hs => ?_⟩
  · rw [happended, heq]
    cases isDuplicate with
    | true =>
      refine ⟨fun hs => hs.2.duplicate lastOffset rfl,
        fun hle => ⟨fun hfalse => (nomatch hfalse), ?_⟩⟩
      exact ⟨fun _ _ => hle, fun _ hout => (nomatch hout), fun hpanic => (nomatch hpanic)⟩
    | false =>
      refine ⟨fun hs heq => hs.2.received heq rfl, fun hne => ⟨fun hfalse => (nomatch hfalse), ?_⟩⟩
      exact ⟨fun _ hdup => (nomatch hdup), fun heq => absurd heq hne,
        fun hpanic => (nomatch hpanic)⟩
  · have hpartition : (s.step c (.send start batch now)).partition = s.partition := by
      show (s.partition.produceBatchEos c batch now).1 = s.partition
      rw [heq]
    have hjournal : (s.step c (.send start batch now)).journal = s.journal := by
      simp [Session.step, happended]
    refine ⟨?_, ?_, hs⟩
    · rw [hpartition]
      exact h.unfenced
    · rw [hpartition, hjournal]
      exact h.last

theorem exactlyOnce_send_iff (h : s.Tracks p) (hop : s.Consecutive p (.send start batch now)) :
    let s' := s.step c (.send start batch now)
    (s'.ExactlyOnce ↔ s.Safe p (.send start batch now)) ∧ (s'.ExactlyOnce → s'.Tracks p) := by
  obtain ⟨hid, hep, hseq, hle⟩ := hop
  rcases h.last with ⟨hfresh, hnil⟩ | hlast
  · have hok : s.partition.states.validateSequence batch.producerId batch.producerEpoch
        batch.baseSequence = .ok () := by
      rw [hid, hep]
      cases hentry : s.partition.states p.id with
      | none => exact validateSequence_of_none hentry
      | some entry =>
        rcases h.unfenced entry hentry with hlt | heq
        · exact validateSequence_of_older hentry hlt
        · rw [lastStored, hentry, bind_some, if_pos heq] at hfresh
          cases hfresh
    have hstart : start = s.journal.length := by
      rw [hnil] at hle ⊢
      exact Nat.le_zero.mp hle
    rw [hstart] at hseq
    obtain ⟨honce, htracks⟩ := tracks_step_of_ok c start now h hid hep hok hseq
    refine ⟨honce.trans ?_, htracks⟩
    simp only [Session.Safe, hfresh, mem_def]
    exact ⟨fun hs => ⟨fun _ => hs.1, fun _ hnone => (nomatch hnone)⟩,
      fun hs => ⟨hs.1 trivial, .inr hstart⟩⟩
  · obtain ⟨lastOffset, hverdict⟩ := verdict_of_last hlast batch.baseSequence
    rw [← hid, ← hep] at hverdict
    -- the two numbers, as integers
    obtain ⟨k, hbase⟩ := toInt_seqAt p.first start
    obtain ⟨l, hend⟩ := toInt_seqAt_sub_one p.first s.journal.length
    rw [← hseq] at hbase
    have hbaseLow := batch.baseSequence.le_toInt
    have hbaseHigh := batch.baseSequence.toInt_lt
    have hendLow := (seqAt p.first s.journal.length - 1).le_toInt
    have hendHigh := (seqAt p.first s.journal.length - 1).toInt_lt
    have hcount := batch.recordCount.toNat_lt
    have hmax : seqAt p.first s.journal.length - 1 = Int32.maxValue ↔
        (seqAt p.first s.journal.length - 1).toInt = 2 ^ 31 - 1 := by
      rw [← Int32.toInt_inj, Int32.toInt_maxValue]
    simp only [Session.Safe, hlast, mem_some, forall_eq', Ne, hmax, reduceCtorEq,
      false_implies, true_and]
    by_cases hdup : batch.baseSequence.toInt ≤ (seqAt p.first s.journal.length - 1).toInt
    · rw [if_pos hdup] at hverdict
      obtain ⟨honce, htracks⟩ := tracks_step_of_error c start now h hid hverdict
      refine ⟨honce.trans ?_, htracks⟩
      rw [if_pos rfl]
      omega
    · rw [if_neg hdup] at hverdict
      by_cases hgap : (seqAt p.first s.journal.length - 1).toInt + 1 < batch.baseSequence.toInt
      · rw [if_pos hgap] at hverdict
        obtain ⟨honce, htracks⟩ := tracks_step_of_error c start now h hid hverdict
        refine ⟨honce.trans ?_, htracks⟩
        rw [if_neg Bool.false_ne_true]
        omega
      · rw [if_neg hgap] at hverdict
        have hnext : batch.baseSequence = seqAt p.first s.journal.length := by
          have hsucc := eq_add_one_of_toInt (a := batch.baseSequence)
            (b := seqAt p.first s.journal.length - 1) (by omega)
          rw [hsucc, Int32.sub_add_cancel]
        obtain ⟨honce, htracks⟩ := tracks_step_of_ok c start now h hid hep hverdict hnext
        refine ⟨honce.trans ?_, htracks⟩
        omega

theorem tracks_other (h : s.Tracks p) (hne : batch.producerId ≠ p.id) :
    (s.step c (.other batch now)).Tracks p := by
  have hstates : (s.step c (.other batch now)).partition.states p.id = s.partition.states p.id :=
    produceBatchEos_states_other hne
  refine ⟨?_, ?_, ⟨h.once.ordered, h.once.answers⟩⟩
  · rw [hstates]
    exact h.unfenced
  · rw [lastStored, hstates]
    exact h.last

end Step

/-- The start of an epoch: the partition knows the producer from an earlier
epoch, or not at all. -/
def Session.begin (pm : PartitionManager) : Session :=
  { partition := pm, journal := [], exchanges := [] }

theorem tracks_begin {p : Producer} {pm : PartitionManager}
    (h : ∀ entry, pm.states p.id = some entry → entry.epoch < p.epoch) :
    (Session.begin pm).Tracks p := by
  refine ⟨fun entry he => .inl (h entry he), .inl ⟨?_, rfl⟩, ⟨rfl, fun x hx => (nomatch hx)⟩⟩
  show lastStored p pm = none
  rw [lastStored]
  cases hentry : pm.states p.id with
  | none => rfl
  | some entry =>
    have hlt := h entry hentry
    rw [Int16.lt_iff_toInt_lt] at hlt
    have hne : entry.epoch ≠ p.epoch := by
      intro heq
      rw [heq] at hlt
      exact absurd hlt (Int.lt_irrefl _)
    rw [bind_some, if_neg hne]

/-- However a producer cuts and repeats what it sends, and whatever other
producers send in between, each record is stored once, in order and with the right
answers throughout exactly when every call is safe. -/
theorem exactlyOnce_iff_safe (c : Crates) (p : Producer) (pm : PartitionManager)
    (hnew : ∀ entry, pm.states p.id = some entry → entry.epoch < p.epoch) {calls : List Call}
    (hcalls : Run.Guarded (Session.step c) (Session.Consecutive p) (Session.begin pm) calls) :
    Run.Always (Session.step c) Session.ExactlyOnce (Session.begin pm) calls ↔
      Run.Guarded (Session.step c) (Session.Safe p) (Session.begin pm) calls := by
  refine Run.always_iff_guarded (fun s h => h.once) ?_ ?_ (tracks_begin hnew) hcalls
  · intro s call h hop hsafe
    cases call with
    | send =>
      obtain ⟨honce, htracks⟩ := exactlyOnce_send_iff (c := c) h hop
      exact htracks (honce.mpr hsafe)
    | other => exact tracks_other h hop
  · intro s call h hop honce
    cases call with
    | send => exact (exactlyOnce_send_iff h hop).1.mp honce
    | other => trivial

/-- A bounded statement about an optional value is decided by looking at the value,
not by running through its type. -/
theorem forall_mem_of_all {α : Type} {P : α → Prop} [DecidablePred P] {o : Option α}
    (h : o.all (fun a => decide (P a)) = true) : ∀ a ∈ o, P a := by
  intro a ha
  exact of_decide_eq_true (all_eq_true _ _ |>.mp h a ha)

def numbered (producerId : UInt64) (baseSequence : Int32) (count : Nat) : RecordBatch :=
  RecordBatch.create .storing 0 0 0 producerId 0 baseSequence false .none
    (List.replicate count (0, none, some []))

def producerSeven : Producer := { id := 7, epoch := 0, first := 0, id_ne := by decide }

def newPartition : PartitionManager := .create .plain .syncEveryBatch 0

/-- A batch, another producer's batch, the first one again, and the next. -/
def retried : List Call :=
  [.send 0 (numbered 7 0 2) 0, .other (numbered 9 0 1) 0, .send 0 (numbered 7 0 2) 0,
    .send 2 (numbered 7 2 1) 0]

theorem exactlyOnce_retried :
    Run.Always (Session.step .storing) Session.ExactlyOnce (Session.begin newPartition)
      retried := by
  refine (exactlyOnce_iff_safe .storing producerSeven newPartition ?_ ?_).mpr ?_
  · intro entry hentry
    cases hentry
  · simp only [retried, Run.Guarded, Session.Consecutive]
    decide +kernel
  · refine ⟨?_, trivial, ?_, ?_, trivial⟩
    all_goals
      simp only [Session.Safe]
      refine ⟨by decide +kernel, forall_mem_of_all ?_⟩
      decide +kernel

/-- Two records, and then the second of them again with a third. -/
def resplit : List Call := [.send 0 (numbered 7 0 2) 0, .send 1 (numbered 7 1 2) 0]

/-- The third record is answered as a duplicate and never stored. -/
theorem not_exactlyOnce_resplit :
    ¬ (Run.run (Session.step .storing) (Session.begin newPartition) resplit).ExactlyOnce := by
  intro h
  have hgood := h.answers { start := 1, count := 2, already := 2, result := .duplicate 1 }
    (by decide +kernel)
  exact absurd (hgood.duplicate 1 rfl) (by decide)

end Bifrox.Server

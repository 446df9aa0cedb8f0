/-
Idempotence across crashes and changes of leader.

After a start the producer states are those of the last snapshot and the entries are those that
were synced.  Nothing brings the two together.
-/
import Bifrox.Server.Durability
import Bifrox.Server.Idempotence

namespace Bifrox.Server

open Function List Option Protocol Segment

/-! ## The batches of one producer -/

structure Tag where
  epoch : Int16
  base : Int32
  count : UInt32
deriving DecidableEq

def Tag.last (t : Tag) : Int32 := t.base + (t.count.toInt32 - 1)

def tagOf (b : RecordBatch) : Tag := ⟨b.producerEpoch, b.baseSequence, b.recordCount⟩

def tagsOf (producerId : UInt64) (log : List RecordBatch) : List Tag :=
  (log.filter (fun b => b.producerId = producerId)).map tagOf

def lastTag (tags : List Tag) : Option (Int16 × Int32) :=
  tags.getLast?.map (fun t => (t.epoch, t.last))

def ProducerStateEntry.position (entry : ProducerStateEntry) : Int16 × Int32 :=
  (entry.epoch, entry.lastSequence)

/-- The batches `tags` in the log out of all that were `sent`.  They are in order
and none wraps, and a batch that is not in the log lies ahead of them. -/
structure Accounted (sent tags : List Tag) : Prop where
  known : ∀ t ∈ tags, t ∈ sent
  whole : ∀ t ∈ tags, t.base.toInt ≤ t.last.toInt
  ordered : tags.Pairwise (fun t t' => t.epoch = t'.epoch ∧ t.last.toInt < t'.base.toInt)
  ahead : ∀ t ∈ sent, t ∉ tags → ∀ t' ∈ tags, t.epoch = t'.epoch → t'.last.toInt < t.base.toInt

def Remembers (entry : Option ProducerStateEntry) (sent : List Tag) : Prop :=
  ∀ e ∈ entry, ∃ t ∈ sent, (t.epoch, t.last) = e.position ∧ t.base.toInt ≤ t.last.toInt

def Covers (entry : Option ProducerStateEntry) (t : Tag) : Prop :=
  ∃ e ∈ entry, t.epoch = e.epoch ∧ t.base.toInt ≤ e.lastSequence.toInt

namespace Accounted

variable {sent tags rest : List Tag} {entry : Option ProducerStateEntry} {t : Tag}

theorem nil (sent : List Tag) : Accounted sent [] :=
  ⟨nofun, nofun, .nil, fun _ _ _ _ h => (not_mem_nil h).elim⟩

theorem of_append (h : Accounted sent (tags ++ rest)) : Accounted sent tags := by
  have hordered := pairwise_append.mp h.ordered
  refine ⟨fun t ht => h.known t (mem_append_left _ ht),
    fun t ht => h.whole t (mem_append_left _ ht), hordered.1, fun t ht hnot t' ht' hep => ?_⟩
  by_cases hrest : t ∈ rest
  · exact (hordered.2.2 t' ht' t hrest).2
  · refine h.ahead t ht (fun hmem => ?_) t' (mem_append_left _ ht') hep
    exact (mem_append.mp hmem).elim hnot hrest

theorem of_initial {pre : List Tag} (h : Accounted sent tags) (hpre : pre <+: tags) :
    Accounted sent pre := by
  obtain ⟨rest, rfl⟩ := hpre
  exact h.of_append

theorem le_last {init : List Tag} {last : Tag} (h : Accounted sent (init ++ [last])) :
    ∀ t ∈ init ++ [last], t.last.toInt ≤ last.last.toInt := by
  intro t ht
  have hwhole := h.whole last (by simp)
  rcases mem_append.mp ht with ht | ht
  · have hlt := ((pairwise_append.mp h.ordered).2.2 t ht last (mem_singleton_self _)).2
    omega
  · rw [mem_singleton.mp ht]

/-- The state of a producer recognises its batches exactly when it is that of the
last one in the log. -/
theorem recognises_iff (h : Accounted sent tags) (hentry : Remembers entry sent) :
    (∀ t ∈ sent, Covers entry t ↔ t ∈ tags) ↔
      entry.map ProducerStateEntry.position = lastTag tags := by
  rcases eq_nil_or_concat' tags with rfl | ⟨init, last, rfl⟩
  · constructor
    · intro hrec
      cases entry with
      | none => rfl
      | some e =>
        obtain ⟨t, ht, hpos, hwhole⟩ := hentry e rfl
        obtain ⟨hep, hlast⟩ := Prod.mk.inj hpos
        have hcovers : Covers (some e) t := ⟨e, rfl, hep, hlast ▸ hwhole⟩
        exact (not_mem_nil ((hrec t ht).mp hcovers)).elim
    · intro hnone t _
      rw [map_eq_none_iff.mp hnone]
      exact ⟨fun ⟨e, he, _⟩ => (nomatch he), fun hmem => (nomatch hmem)⟩
  · have hmem : last ∈ init ++ [last] := mem_append_right _ (mem_singleton_self _)
    have hbefore : ∀ t ∈ init, t.epoch = last.epoch ∧ t.last.toInt < last.base.toInt :=
      fun t ht => (pairwise_append.mp h.ordered).2.2 t ht last (mem_singleton_self _)
    have hlastTag : lastTag (init ++ [last]) = some (last.epoch, last.last) := by
      rw [lastTag, List.getLast?_concat]
      rfl
    rw [hlastTag]
    constructor
    · intro hrec
      obtain ⟨e, he, hep, hbase⟩ := (hrec last (h.known last hmem)).mpr hmem
      obtain ⟨t, ht, hpos, hwhole⟩ := hentry e he
      obtain ⟨htep, htlast⟩ := Prod.mk.inj hpos
      -- the batch the state stands for is in the log, and not before the last one
      have hin := (hrec t ht).mp ⟨e, he, htep, htlast ▸ hwhole⟩
      rw [mem_def.mp he, map_some, ← hpos]
      rcases mem_append.mp hin with hin | hin
      · have hlt := (hbefore t hin).2
        rw [htlast] at hlt
        omega
      · rw [mem_singleton.mp hin]
    · intro hpos t ht
      obtain ⟨e, rfl, he⟩ := map_eq_some_iff.mp hpos
      obtain ⟨hep, hlast⟩ := Prod.mk.inj he
      constructor
      · rintro ⟨e', he', htep, hbase⟩
        cases he'
        rw [hep] at htep
        rw [hlast] at hbase
        by_contra hnot
        have hahead := h.ahead t ht hnot last hmem htep
        omega
      · intro hin
        refine ⟨e, rfl, ?_⟩
        rw [hep, hlast]
        have hwhole := h.whole t hin
        have hwhole' := h.whole last hmem
        rcases mem_append.mp hin with hin | hin
        · have hlt := hbefore t hin
          exact ⟨hlt.1, by omega⟩
        · rw [mem_singleton.mp hin]
          exact ⟨rfl, hwhole'⟩

end Accounted

/-- The next batch in the log fits the account: its numbers do not wrap, it is of
the epoch of the batches in the log, and it does not reach over another batch that
was lost. -/
structure Continues (sent tags : List Tag) (t : Tag) : Prop where
  count : t.count.toNat ≠ 2 ^ 31
  whole : t.base.toInt ≤ t.last.toInt
  epoch : ∀ t' ∈ tags, t'.epoch = t.epoch
  lost : ∀ t' ∈ sent, t' ∉ tags → t' ≠ t → t'.epoch = t.epoch → t.last.toInt < t'.base.toInt

theorem Accounted.push {sent tags : List Tag} {t : Tag} (h : Accounted sent tags)
    (ht : Continues sent tags t) (hlast : ∀ t' ∈ tags, t'.last.toInt < t.base.toInt) :
    Accounted (sent ++ [t]) (tags ++ [t]) := by
  refine ⟨fun t' ht' => ?_, fun t' ht' => ?_, ?_, fun t' ht' hnot t'' ht'' hep => ?_⟩
  · rcases mem_append.mp ht' with ht' | ht'
    · exact mem_append_left _ (h.known t' ht')
    · exact mem_append_right _ ht'
  · rcases mem_append.mp ht' with ht' | ht'
    · exact h.whole t' ht'
    · rw [mem_singleton.mp ht']
      exact ht.whole
  · refine pairwise_append.mpr ⟨h.ordered, pairwise_singleton _ _, fun t' ht' t'' ht'' => ?_⟩
    rw [mem_singleton.mp ht'']
    exact ⟨ht.epoch t' ht', hlast t' ht'⟩
  · rw [mem_append, mem_singleton, not_or] at hnot
    have hsent : t' ∈ sent := (mem_append.mp ht').resolve_right
      (fun hmem => hnot.2 (mem_singleton.mp hmem))
    rcases mem_append.mp ht'' with ht'' | ht''
    · exact h.ahead t' hsent hnot.1 t'' ht'' hep
    · rw [mem_singleton.mp ht''] at hep ⊢
      exact ht.lost t' hsent hnot.1 hnot.2 hep

/-! ## A replica of a partition -/

/-- The partition on one broker, every batch it ever had of each producer, and
whether the broker follows another one. -/
structure Replica where
  partition : PartitionManager
  sent : UInt64 → List Tag
  following : Bool

inductive Event where
  | produce (batch : RecordBatch) (now : Nat)
  | flushDurable
  | flush
  | advanceCommittedHw (candidate : Nat)
  | crash (now : Nat)
  | replicate (batch : RecordBatch) (now : Nat)
  | takeover

def isDuplicate (states : ProducerStates) (producerId : UInt64) (t : Tag) : Bool :=
  match states.validateSequence producerId t.epoch t.base with
  | .error (true, _) => true
  | _ => false

namespace Replica

def note (sent : UInt64 → List Tag) (b : RecordBatch) : UInt64 → List Tag :=
  update sent b.producerId (sent b.producerId ++ [tagOf b])

/-- A follower takes no batch from a producer.  A partition that does not open
stays as it is. -/
def step (c : Crates) (s : Replica) : Event → Replica
  | .produce batch now =>
    if s.following then s
    else
      let (partition, result) := s.partition.produceBatchEos c batch now
      { s with partition, sent := if result.appended then note s.sent batch else s.sent }
  | .flushDurable => { s with partition := s.partition.flushDurable }
  | .flush => { s with partition := s.partition.flush }
  | .advanceCommittedHw candidate =>
    { s with partition := s.partition.advanceCommittedHw candidate }
  | .crash now =>
    match s.partition.crash now with
    | .ok partition => { s with partition }
    | .error _ => s
  | .replicate batch now =>
    { partition := s.partition.appendReplicaEntriesVerbatim [(batch, now)]
      sent := if (s.partition.log.appendBatchVerbatim batch now).2 = .appended then
          note s.sent batch
        else s.sent
      following := true }
  | .takeover => { s with following := false }

/-- A batch sent before is taken for a duplicate exactly when it is in the log. -/
def Recognises (s : Replica) : Prop :=
  s.following = false → ∀ producerId, producerId ≠ 0 → ∀ t ∈ s.sent producerId,
    (isDuplicate s.partition.states producerId t = true ↔
      t ∈ tagsOf producerId s.partition.log.retained)

/-- The states are those of the producers' last batches among these entries. -/
def Current (states : ProducerStates) (entries : List RecordBatch) : Prop :=
  ∀ producerId, producerId ≠ 0 →
    (states producerId).map ProducerStateEntry.position = lastTag (tagsOf producerId entries)

/-- The condition on an event.  A batch that passes the check must fit its
producer's account, the snapshot must be that of the entries on disk when the
leader crashes, and the states must be those of the entries when a follower takes
over. -/
def InStep (s : Replica) : Event → Prop
  | .produce batch _ => s.following = false → batch.producerId ≠ 0 →
    s.partition.states.validateSequence batch.producerId batch.producerEpoch batch.baseSequence =
      .ok () →
    Continues (s.sent batch.producerId) (tagsOf batch.producerId s.partition.log.retained)
      (tagOf batch)
  | .crash _ => s.following = false → Current s.partition.snapshot s.partition.durableEntries
  | .takeover => Current s.partition.states s.partition.log.retained
  | _ => True

/-- What the leader sends: a batch that goes into the log comes after those of its
producer and fits their account. -/
def FromLeader (s : Replica) : Event → Prop
  | .replicate batch now => batch.producerId ≠ 0 →
    (s.partition.log.appendBatchVerbatim batch now).2 = .appended →
    Continues (s.sent batch.producerId) (tagsOf batch.producerId s.partition.log.retained)
      (tagOf batch) ∧
    ∀ t ∈ tagsOf batch.producerId s.partition.log.retained, t.last.toInt < batch.baseSequence.toInt
  | _ => True

structure Tracks (s : Replica) : Prop where
  durable : s.partition.Durable
  accounted : ∀ producerId, producerId ≠ 0 →
    Accounted (s.sent producerId) (tagsOf producerId s.partition.log.retained)
  states : ∀ producerId, producerId ≠ 0 →
    Remembers (s.partition.states producerId) (s.sent producerId)
  snapshot : ∀ producerId, producerId ≠ 0 →
    Remembers (s.partition.snapshot producerId) (s.sent producerId)
  current : s.following = false → Current s.partition.states s.partition.log.retained

end Replica

/-! ## One event -/

theorem isDuplicate_iff (states : ProducerStates) (producerId : UInt64) (t : Tag) :
    isDuplicate states producerId t = true ↔ Covers (states producerId) t := by
  cases hentry : states producerId with
  | none =>
    rw [isDuplicate, validateSequence_of_none hentry]
    exact ⟨nofun, fun ⟨e, he, _⟩ => (nomatch he)⟩
  | some e =>
    have hcovers : Covers (some e) t ↔ t.epoch = e.epoch ∧ t.base.toInt ≤ e.lastSequence.toInt := by
      constructor
      · rintro ⟨e', he', h⟩
        cases he'
        exact h
      · exact fun h => ⟨e, rfl, h⟩
    rw [hcovers, isDuplicate]
    by_cases hep : t.epoch = e.epoch
    · rw [validateSequence_of_same hentry hep.symm]
      by_cases hle : t.base.toInt ≤ e.lastSequence.toInt
      · simp [hle, hep]
      · by_cases hgap : e.lastSequence.toInt + 1 < t.base.toInt
        · simp [hle, hgap]
        · simp [hle, hgap]
    · rw [ProducerStates.validateSequence, hentry]
      by_cases hlt : t.epoch < e.epoch
      · simp [hlt, hep]
      · simp [hlt, hep]

theorem tagsOf_initial {producerId : UInt64} {log log' : List RecordBatch} (h : log <+: log') :
    tagsOf producerId log <+: tagsOf producerId log' :=
  (h.filter _).map _

theorem tagsOf_concat_same (log : List RecordBatch) (b : RecordBatch) :
    tagsOf b.producerId (log ++ [b]) = tagsOf b.producerId log ++ [tagOf b] := by
  simp [tagsOf]

theorem tagsOf_concat_other {producerId : UInt64} {log : List RecordBatch} {b : RecordBatch}
    (h : b.producerId ≠ producerId) : tagsOf producerId (log ++ [b]) = tagsOf producerId log := by
  simp [tagsOf, h]

namespace Replica

variable {c : Crates} {s : Replica} {batch : RecordBatch} {now : Nat}

theorem Tracks.recognises_iff (h : s.Tracks) {states : ProducerStates} {entries : List RecordBatch}
    (hstates : ∀ producerId, producerId ≠ 0 → Remembers (states producerId) (s.sent producerId))
    (hentries : entries <+: s.partition.log.retained) :
    (∀ producerId, producerId ≠ 0 → ∀ t ∈ s.sent producerId,
      (isDuplicate states producerId t = true ↔ t ∈ tagsOf producerId entries)) ↔
    Current states entries := by
  refine forall₂_congr (fun producerId hid => ?_)
  have hpre : Accounted (s.sent producerId) (tagsOf producerId entries) :=
    (h.accounted producerId hid).of_initial (tagsOf_initial hentries)
  rw [← hpre.recognises_iff (hstates producerId hid)]
  simp only [isDuplicate_iff]

variable {sent : UInt64 → List Tag} {producerId : UInt64} {b : RecordBatch}

theorem mem_note {t : Tag} (h : t ∈ sent producerId) : t ∈ note sent b producerId := by
  by_cases hid : producerId = b.producerId
  · subst hid
    rw [note, update_self]
    exact mem_append_left _ h
  · rw [note, update_of_ne hid]
    exact h

theorem remembers_note {entry : Option ProducerStateEntry}
    (h : Remembers entry (sent producerId)) : Remembers entry (note sent b producerId) := by
  intro e he
  obtain ⟨t, ht, hpos⟩ := h e he
  exact ⟨t, mem_note ht, hpos⟩

theorem accounted_note {log : List RecordBatch}
    (h : Accounted (sent producerId) (tagsOf producerId log)) (hfits : b.producerId = producerId →
      Continues (sent producerId) (tagsOf producerId log) (tagOf b) ∧
        ∀ t ∈ tagsOf producerId log, t.last.toInt < b.baseSequence.toInt) :
    Accounted (note sent b producerId) (tagsOf producerId (log ++ [b])) := by
  by_cases hid : b.producerId = producerId
  · subst hid
    rw [note, update_self, tagsOf_concat_same]
    exact h.push (hfits rfl).1 (hfits rfl).2
  · rw [note, update_of_ne (Ne.symm hid), tagsOf_concat_other hid]
    exact h

theorem Tracks.of_same (h : s.Tracks) {pm : PartitionManager} (hdurable : pm.Durable)
    (hlog : pm.log = s.partition.log) (hstates : pm.states = s.partition.states)
    (hsnapshot : pm.snapshot = s.partition.snapshot ∨ pm.snapshot = s.partition.states) :
    { s with partition := pm }.Tracks := by
  refine ⟨hdurable, ?_, ?_, ?_, ?_⟩
  · show ∀ producerId, producerId ≠ 0 → Accounted _ (tagsOf producerId pm.log.retained)
    rw [hlog]
    exact h.accounted
  · show ∀ producerId, producerId ≠ 0 → Remembers (pm.states producerId) _
    rw [hstates]
    exact h.states
  · show ∀ producerId, producerId ≠ 0 → Remembers (pm.snapshot producerId) _
    rcases hsnapshot with hsnapshot | hsnapshot
    · rw [hsnapshot]
      exact h.snapshot
    · rw [hsnapshot]
      exact h.states
  · show s.following = false → Current pm.states pm.log.retained
    rw [hlog, hstates]
    exact h.current

/-! ### A batch from a producer -/

theorem lt_of_validated (h : s.Tracks) (hleads : s.following = false) (hid : batch.producerId ≠ 0)
    (hok : s.partition.states.validateSequence batch.producerId batch.producerEpoch
      batch.baseSequence = .ok ())
    (hepoch : ∀ t ∈ tagsOf batch.producerId s.partition.log.retained,
      t.epoch = batch.producerEpoch) :
    ∀ t ∈ tagsOf batch.producerId s.partition.log.retained,
      t.last.toInt < batch.baseSequence.toInt := by
  intro t ht
  have hcurrent := h.current hleads batch.producerId hid
  have haccount := h.accounted batch.producerId hid
  rcases eq_nil_or_concat' (tagsOf batch.producerId s.partition.log.retained) with
    hnil | ⟨init, last, htags⟩
  · rw [hnil] at ht
    cases ht
  · rw [htags] at hcurrent haccount ht hepoch
    rw [lastTag, List.getLast?_concat, map_some] at hcurrent
    obtain ⟨e, hentry, hpos⟩ := map_eq_some_iff.mp hcurrent
    obtain ⟨hep, hlast⟩ := Prod.mk.inj hpos
    have hsame : e.epoch = batch.producerEpoch := hep.trans (hepoch last (by simp))
    rw [validateSequence_of_same hentry hsame] at hok
    have hahead : ¬ batch.baseSequence.toInt ≤ e.lastSequence.toInt := by
      intro hle
      rw [if_pos hle] at hok
      cases hok
    have hle := haccount.le_last t ht
    rw [← hlast] at hle
    omega

theorem produce_cases (hleads : s.following = false) :
    s.step c (.produce batch now) = s ∧ (batch.producerId ≠ 0 ∧
      s.partition.states.validateSequence batch.producerId batch.producerEpoch
        batch.baseSequence ≠ .ok ()) ∨
    s.step c (.produce batch now) =
      { s with partition := (s.partition.storeBatch c batch now).1, sent := note s.sent batch } ∧
      (batch.producerId ≠ 0 → s.partition.states.validateSequence batch.producerId
        batch.producerEpoch batch.baseSequence = .ok ()) := by
  rcases produceBatchEos_cases c s.partition batch now with ⟨hid, e, hval, heq⟩ | ⟨hok, heq⟩
  · refine .inl ⟨?_, hid, by rw [hval]; nofun⟩
    simp only [step, hleads, Bool.false_eq_true, if_false, heq, appended_refusal]
    exact hleads ▸ rfl
  · refine .inr ⟨?_, hok⟩
    simp only [step, hleads, Bool.false_eq_true, if_false, heq, appended_storeBatch, if_true]

theorem states_storeBatch (c : Crates) (s : Replica) (now : Nat) (hid : batch.producerId ≠ 0)
    (hcount : (tagOf batch).count.toNat ≠ 2 ^ 31) :
    ∃ lastOffset, (s.partition.storeBatch c batch now).1.states batch.producerId =
      some { epoch := batch.producerEpoch, lastSequence := (tagOf batch).last, lastOffset } := by
  rcases storeBatch_tracked hid with ⟨hoverflow, -⟩ | ⟨-, -, lastOffset, hentry⟩
  · exact absurd hoverflow hcount
  · refine ⟨lastOffset, ?_⟩
    rw [hentry, Tag.last, toInt32_eq_ofNat]
    rfl

section

variable (h : s.Tracks)
include h

theorem tracks_produce (hleads : s.following = false)
    (hstep : s.InStep (.produce batch now)) : (s.step c (.produce batch now)).Tracks := by
  rcases produce_cases hleads with ⟨hsame, -⟩ | ⟨heq, hok⟩
  · rw [hsame]
    exact h
  · rw [heq]
    obtain ⟨hdurable, hretained, hsnapshot⟩ := h.durable.storeBatch (c := c) batch now
    have hfits : batch.producerId ≠ 0 → Continues (s.sent batch.producerId)
        (tagsOf batch.producerId s.partition.log.retained) (tagOf batch) :=
      fun hid => hstep hleads hid (hok hid)
    have hstates : ∀ producerId, producerId ≠ 0 → Remembers
        ((s.partition.storeBatch c batch now).1.states producerId)
        (note s.sent batch producerId) := by
      intro producerId hid
      by_cases hsame : batch.producerId = producerId
      · subst hsame
        obtain ⟨lastOffset, hentry⟩ := states_storeBatch c s now hid (hfits hid).count
        rw [hentry]
        intro e he
        cases he
        refine ⟨tagOf batch, ?_, rfl, (hfits hid).whole⟩
        rw [note, update_self]
        exact mem_append_right _ (mem_singleton_self _)
      · rw [storeBatch_states_other hsame]
        exact remembers_note (h.states producerId hid)
    refine ⟨hdurable, fun producerId hid => ?_, hstates, fun producerId hid => ?_,
      fun _ producerId hid => ?_⟩
    · rw [hretained]
      refine accounted_note (b := storedBatch c s.partition batch) (h.accounted producerId hid) ?_
      rintro rfl
      have hlt := lt_of_validated h hleads hid (hok hid) (hfits hid).epoch
      exact ⟨hfits hid, hlt⟩
    · rcases hsnapshot with hsnapshot | hsnapshot
      · rw [hsnapshot]
        exact remembers_note (h.snapshot producerId hid)
      · rw [hsnapshot]
        exact hstates producerId hid
    · rw [hretained]
      by_cases hsame : batch.producerId = producerId
      · subst hsame
        obtain ⟨lastOffset, hentry⟩ := states_storeBatch c s now hid (hfits hid).count
        have htags := tagsOf_concat_same s.partition.log.retained (storedBatch c s.partition batch)
        rw [hentry]
        show _ = lastTag (tagsOf (storedBatch c s.partition batch).producerId _)
        rw [htags, lastTag, List.getLast?_concat]
        rfl
      · have hother : (storedBatch c s.partition batch).producerId ≠ producerId := hsame
        rw [storeBatch_states_other hsame, tagsOf_concat_other hother]
        exact h.current hleads producerId hid

/-- A batch that does not fit its producer's account is misjudged at once. -/
theorem inStep_of_recognises_produce
    (hrec : (s.step c (.produce batch now)).Recognises) : s.InStep (.produce batch now) := by
  intro hleads hid hok
  rcases produce_cases hleads with ⟨-, -, hno⟩ | ⟨heq, -⟩
  · exact absurd hok hno
  · rw [heq] at hrec
    have hretained := (h.durable.storeBatch (c := c) batch now).2.1
    have hrec' := hrec hleads batch.producerId hid
    have htags : tagsOf batch.producerId (s.partition.storeBatch c batch now).1.log.retained =
        tagsOf batch.producerId s.partition.log.retained ++ [tagOf batch] := by
      rw [hretained]
      exact tagsOf_concat_same s.partition.log.retained (storedBatch c s.partition batch)
    simp only [htags, note, update_self, isDuplicate_iff] at hrec'
    have hself := (hrec' (tagOf batch) (by simp)).mpr (by simp)
    rcases storeBatch_tracked hid with
      ⟨-, -, hstates⟩ | ⟨hcount, -, lastOffset, hentry⟩
    · -- the overflow leaves the states as they were, and those let the batch pass
      rw [hstates, ← isDuplicate_iff, isDuplicate] at hself
      simp [tagOf, hok] at hself
    · have hcovers : ∀ t,
        Covers ((s.partition.storeBatch c batch now).1.states batch.producerId) t ↔
          t.epoch = batch.producerEpoch ∧ t.base.toInt ≤ (tagOf batch).last.toInt := by
        intro t
        obtain ⟨lastOffset, hentry⟩ := states_storeBatch c s now hid hcount
        rw [hentry]
        constructor
        · rintro ⟨e, he, ht⟩
          cases he
          exact ht
        · exact fun ht => ⟨_, rfl, ht⟩
      simp only [hcovers] at hrec' hself
      refine ⟨hcount, hself.2, fun t ht => ?_, fun t ht hnot hne hep => ?_⟩
      · have hmem := (h.accounted batch.producerId hid).known t ht
        exact ((hrec' t (mem_append_left _ hmem)).mpr (mem_append_left _ ht)).1
      · have hlost : t ∉ tagsOf batch.producerId s.partition.log.retained ++ [tagOf batch] := by
          rw [mem_append, mem_singleton]
          exact fun hor => hor.elim hnot hne
        by_contra hle
        exact hlost ((hrec' t (mem_append_left _ ht)).mp ⟨hep, by omega⟩)

/-! ### The other events -/

theorem crash_eq : ∃ partition : PartitionManager, s.step c (.crash now) = { s with partition } ∧
      partition.Durable ∧ partition.log.retained = s.partition.durableEntries ∧
      partition.states = s.partition.snapshot ∧ partition.snapshot = s.partition.snapshot := by
  obtain ⟨partition, hcrash, hdurable, hretained, hstates, hsnapshot, -⟩ := h.durable.crash now
  refine ⟨partition, ?_, hdurable, hretained, hstates, hsnapshot⟩
  simp only [step, hcrash]

theorem tracks_crash (hstep : s.InStep (.crash now)) : (s.step c (.crash now)).Tracks := by
  obtain ⟨partition, heq, hdurable, hretained, hstates, hsnapshot⟩ := crash_eq h
  rw [heq]
  refine ⟨hdurable, fun producerId hid => ?_, fun producerId hid => ?_, fun producerId hid => ?_,
    fun hleads => ?_⟩
  · rw [hretained]
    exact (h.accounted producerId hid).of_initial
      (tagsOf_initial s.partition.durableEntries_initial)
  · rw [hstates]
    exact h.snapshot producerId hid
  · rw [hsnapshot]
    exact h.snapshot producerId hid
  · rw [hstates, hretained]
    exact hstep hleads

theorem inStep_of_recognises_crash (hrec : (s.step c (.crash now)).Recognises) :
    s.InStep (.crash now) := by
  intro hleads
  obtain ⟨partition, heq, -, hretained, hstates, -⟩ := crash_eq h
  rw [heq] at hrec
  have hrec' := hrec hleads
  simp only [hretained, hstates] at hrec'
  exact (h.recognises_iff h.snapshot s.partition.durableEntries_initial).mp hrec'

theorem inStep_crash_of_flush : (s.step c .flush).InStep (.crash now) := by
  intro hleads
  have hentries : s.partition.flush.durableEntries = s.partition.log.retained :=
    PartitionManager.durableEntries_of_synced rfl
  show Current s.partition.states s.partition.flush.durableEntries
  rw [hentries]
  exact h.current hleads

theorem tracks_replicate (hfrom : s.FromLeader (.replicate batch now)) :
    (s.step c (.replicate batch now)).Tracks := by
  rcases h.durable.replicate batch now with
    ⟨hno, hsame⟩ | ⟨happended, hdurable, hretained, hstates, hsnapshot⟩
  · simp only [step, if_neg hno, hsame]
    exact ⟨h.durable, h.accounted, h.states, h.snapshot, nofun⟩
  · simp only [step, if_pos happended]
    refine ⟨hdurable, fun producerId hid => ?_, fun producerId hid => ?_, fun producerId hid => ?_,
      nofun⟩
    · rw [hretained]
      refine accounted_note (h.accounted producerId hid) ?_
      rintro rfl
      exact hfrom hid happended
    · rw [hstates]
      exact remembers_note (h.states producerId hid)
    · rw [hsnapshot]
      exact remembers_note (h.snapshot producerId hid)

end

theorem tracks_step (s : Replica) (e : Event) (h : s.Tracks) (hfrom : s.FromLeader e)
    (hstep : s.InStep e) : (s.step c e).Tracks := by
  cases e with
  | produce =>
    cases hleads : s.following with
    | false => exact tracks_produce h hleads hstep
    | true =>
      simp only [step, hleads, if_true]
      exact h
  | flushDurable => exact h.of_same h.durable.flushDurable rfl rfl (.inl rfl)
  | flush => exact h.of_same (h.durable.flushDurable.congr rfl rfl rfl) rfl rfl (.inr rfl)
  | advanceCommittedHw candidate =>
    obtain ⟨hlog, hstates⟩ := advanceCommittedHw_log s.partition candidate
    exact h.of_same (h.durable.advanceCommittedHw candidate) hlog hstates
      (.inl (by rw [PartitionManager.advanceCommittedHw]; split <;> rfl))
  | crash => exact tracks_crash h hstep
  | replicate => exact tracks_replicate h hfrom
  | takeover => exact ⟨h.durable, h.accounted, h.states, h.snapshot, fun _ => hstep⟩

/-- An event that is not in step is followed by a wrong answer. -/
theorem inStep_of_recognises {e : Event} (h : s.Tracks)
    (hrec : (s.step c e).Recognises) : s.InStep e := by
  cases e with
  | produce => exact inStep_of_recognises_produce h hrec
  | crash => exact inStep_of_recognises_crash h hrec
  | takeover => exact (h.recognises_iff h.states prefix_rfl).mp (hrec rfl)
  | flushDurable => trivial
  | flush => trivial
  | advanceCommittedHw => trivial
  | replicate => trivial

def create (config : EngineConfig) (policy : FlushPolicy) (now : Nat) : Replica :=
  { partition := .create config policy now, sent := fun _ => [], following := false }

theorem tracks_create (config : EngineConfig) (policy : FlushPolicy) (now : Nat) :
    (create config policy now).Tracks :=
  ⟨.create config policy now, fun _ _ => Accounted.nil _, fun _ _ => nofun, fun _ _ => nofun,
    fun _ _ _ => rfl⟩

/-- Retried batches are recognised throughout a run exactly when the states on
disk keep step with the entries on disk. -/
theorem recognises_iff_inStep (c : Crates) (config : EngineConfig) (policy : FlushPolicy)
    (now : Nat) (events : List Event)
    (hfrom : Run.Guarded (step c) FromLeader (create config policy now) events) :
    Run.Always (step c) Recognises (create config policy now) events ↔
      Run.Guarded (step c) InStep (create config policy now) events :=
  Run.always_iff_guarded
    (fun _ h hleads => (h.recognises_iff h.states prefix_rfl).mpr (h.current hleads))
    (fun s e h hok hcond => tracks_step s e h hok hcond)
    (fun _ _ h _ hrec => inStep_of_recognises h hrec) (tracks_create config policy now) hfrom

/-- Two records are stored and flushed, and sent again after a crash. -/
theorem recognises_flushed : Run.Always (step .storing) Recognises (create .plain .syncEveryBatch 0)
      [.produce (numbered 7 0 2) 0, .flush, .crash 0, .produce (numbered 7 0 2) 0] := by
  have hfits : (create .plain .syncEveryBatch 0).InStep (.produce (numbered 7 0 2) 0) := by
    intro _ _ _
    exact ⟨by decide, by decide +kernel, nofun, nofun⟩
  have htracks : ((create .plain .syncEveryBatch 0).step .storing
      (.produce (numbered 7 0 2) 0)).Tracks :=
    tracks_step _ _ (tracks_create .plain .syncEveryBatch 0) trivial hfits
  refine (recognises_iff_inStep .storing .plain .syncEveryBatch 0 _ ?_).mpr
    ⟨hfits, trivial, inStep_crash_of_flush htracks, ?_, trivial⟩
  · exact ⟨trivial, trivial, trivial, trivial, trivial⟩
  -- the second time the batch does not pass the check
  intro _ _ hok
  have herr : ¬ ((((create .plain .syncEveryBatch 0).step .storing
      (.produce (numbered 7 0 2) 0)).step .storing .flush).step .storing
        (.crash 0)).partition.states.validateSequence 7 0 0 = .ok () := by
    decide +kernel
  exact absurd hok herr

/-- Two records are stored and synced.  After a crash they are in the log, and
sent again they are stored again. -/
theorem not_recognises_synced :
    ¬ Run.Always (step .storing) Recognises (create .plain .syncEveryBatch 0)
      [.produce (numbered 7 0 2) 0, .flushDurable, .crash 0] := by
  rintro ⟨-, -, -, hrec⟩
  have hdup := (hrec rfl 7 (by decide) (tagOf (numbered 7 0 2)) (by decide +kernel)).mpr
    (by decide +kernel)
  exact absurd hdup (by decide +kernel)

end Replica

end Bifrox.Server

/-
The ceiling of deliveries (`acquire_records`, `acknowledge`, `sweep_timers_internal`,
`snapshot` and `restore` in `src/server/share/partition.rs`).

`restore` ends a lease too, and does not look at the count.
-/
import Bifrox.Lib.Run
import Bifrox.Share.Partition

namespace Bifrox.Share

open List
open Run (Guarded)
open SharePartition

/-! ## Where batches come from -/

def Batches.All (p : InFlightBatch → Prop) (batches : Batches) : Prop :=
  ∀ entry ∈ batches.entries, p entry.2

namespace Batches.All

variable {p : InFlightBatch → Prop} {batches : Batches} {batch : InFlightBatch}

theorem empty : Batches.All p ∅ := fun _ h => absurd h not_mem_nil

theorem insert (h : Batches.All p batches) {key : Nat} (hbatch : p batch) :
    Batches.All p (batches.insert key batch) := by
  intro entry hentry
  rcases OrderedMap.mem_of_mem_insertEntry hentry with rfl | hmem
  · exact hbatch
  · exact h entry hmem

theorem erase (h : Batches.All p batches) (key : Nat) : Batches.All p (batches.erase key) :=
  fun entry hentry => h entry (OrderedMap.mem_of_mem_erase hentry)

theorem lookup (h : Batches.All p batches) {key : Nat}
    (hlookup : batches.lookup key = some batch) : p batch :=
  h (key, batch) (OrderedMap.mem_of_lookup hlookup)

end Batches.All

/-- What is kept of a batch when it is cut and its lease begins or ends. -/
structure Kept (maxDeliveryAttempts : UInt16) (p : InFlightBatch → Prop) : Prop where
  piece : ∀ batch first last, p batch → p (batch.piece first last)
  free : ∀ batch, batch.state = .available → p batch →
    p { batch with state := .available, acquiredBy := none, acquiredAt := none }
  acquire : ∀ batch memberId now timeout, batch.state = .available → p batch →
    p (batch.acquire memberId now timeout)
  fresh : ∀ memberId now timeout first last, p (freshBatch memberId now timeout first last)
  lapse : ∀ batch, batch.state = .acquired → p batch → p (lapse maxDeliveryAttempts batch)
  acked : ∀ batch memberId now ackType first last, batch.state = .acquired → p batch →
    p (acked maxDeliveryAttempts memberId now ackType batch first last)

namespace Kept

variable {maxDeliveryAttempts : UInt16} {p : InFlightBatch → Prop}

theorem lapseKey (hp : Kept maxDeliveryAttempts p) {w : Settling} (h : w.batches.All p) (now : Nat)
    (memberId : Text) (key : Nat) :
    (lapseKey maxDeliveryAttempts now memberId w key).batches.All p := by
  unfold SharePartition.lapseKey
  split
  · exact h
  · next batch hlookup =>
    split
    · next hlapsed =>
      rw [hasLapsed, Bool.and_eq_true, Bool.and_eq_true] at hlapsed
      exact (h.erase key).insert (hp.lapse batch (of_decide_eq_true hlapsed.1.1) (h.lookup hlookup))
    · exact h

variable {s : SharePartition}

section

variable (hp : Kept maxDeliveryAttempts p)
include hp

theorem sweepTimers (hmax : s.maxDeliveryAttempts = maxDeliveryAttempts) (h : s.batches.All p)
    (now : Nat) : (s.sweepTimers now).batches.All p := by
  refine OrderedMap.popEntries_induction (timerStep s.maxDeliveryAttempts now)
    (P := fun w _ => Batches.All p (Settling.batches w)) ?_ h
  intro w entry rest w' hw hstep
  rw [timerStep] at hstep
  split at hstep
  · exact absurd hstep.symm (Option.some_ne_none w')
  · rw [← Option.some.inj hstep, hmax]
    exact Run.run_invariant (P := fun w => Batches.All p (Settling.batches w))
      (fun w key hw => hp.lapseKey hw now entry.1.memberId key) hw _

theorem ackKey {w : Settling} (h : w.batches.All p) (memberId : Text) (now : Nat) (ack : AckBatch)
    (key : Nat) : (ackKey maxDeliveryAttempts memberId now ack w key).batches.All p := by
  unfold SharePartition.ackKey
  split
  · exact h
  · next batch hlookup =>
    split
    · next hheld =>
      rw [isHeldBy, Bool.and_eq_true, decide_eq_true_iff] at hheld
      have hbatch := h.lookup hlookup
      have hmiddle := hp.acked batch memberId now ack.ackType
        (max batch.firstOffset ack.firstOffset) (min batch.lastOffset ack.lastOffset) hheld.1 hbatch
      dsimp only
      split <;> split <;>
        first
        | exact (((h.erase key).insert (hp.piece _ _ _ hbatch)).insert hmiddle).insert
            (hp.piece _ _ _ hbatch)
        | exact ((h.erase key).insert (hp.piece _ _ _ hbatch)).insert hmiddle
        | exact ((h.erase key).insert hmiddle).insert (hp.piece _ _ _ hbatch)
        | exact (h.erase key).insert hmiddle
    · exact h

section

variable (hmax : s.maxDeliveryAttempts = maxDeliveryAttempts)
include hmax

section

variable (h : s.batches.All p)
include h

theorem ackRanges (memberId : Text)
    (acks : List AckBatch) (now : Nat) : (s.ackRanges memberId acks now).batches.All p := by
  rw [SharePartition.ackRanges, hmax]
  refine Run.run_invariant (P := fun w => Batches.All p (Settling.batches w)) ?_ h acks
  intro w ack hw
  exact Run.run_invariant (P := fun w => Batches.All p (Settling.batches w))
    (fun w key hw => hp.ackKey hw memberId now ack key) hw _

theorem sweepTimersInternal (now : Nat) : (s.sweepTimersInternal now).1.batches.All p :=
  fun entry hentry => hp.sweepTimers hmax h now entry (mem_of_mem_advanceWatermark hentry)

theorem sweepTimersInline (now : Nat) : (s.sweepTimersInline now).batches.All p := by
  rw [SharePartition.sweepTimersInline]
  split
  · exact hp.sweepTimersInternal hmax h now
  · exact h

theorem acknowledge (memberId : Text)
    (acks : List AckBatch) (now : Nat) : (s.acknowledge memberId acks now).1.batches.All p :=
  fun entry hentry =>
    hp.ackRanges hmax h memberId acks now entry (mem_of_mem_advanceWatermark hentry)

end

end

end

end Kept

/-- Every record was handed out with the count of a batch that is acquired and satisfies
`p`. -/
def Infos (p : InFlightBatch → Prop) (infos : List AcquiredRecordInfo) : Prop :=
  ∀ info ∈ infos, ∃ batch, p batch ∧ batch.state = .acquired ∧
    info.deliveryCount = batch.deliveryCount

theorem infos_deliver {p : InFlightBatch → Prop} {fetch : Reader} {batch : InFlightBatch}
    (hbatch : p batch) (hstate : batch.state = .acquired) : Infos p (deliver fetch batch) := by
  intro info hinfo
  obtain ⟨frame, -, rfl⟩ := mem_map.mp hinfo
  exact ⟨batch, hbatch, hstate, rfl⟩

theorem Infos.append {p : InFlightBatch → Prop} {left right : List AcquiredRecordInfo}
    (hleft : Infos p left) (hright : Infos p right) : Infos p (left ++ right) :=
  fun info hinfo => (mem_append.mp hinfo).elim (hleft info) (hright info)

namespace Kept

variable {maxDeliveryAttempts : UInt16} {p : InFlightBatch → Prop}

section

variable (hp : Kept maxDeliveryAttempts p)
include hp

theorem acquireKey {a : Acquisition} (h : a.batches.All p) (hinfos : Infos p a.acquiredInfos)
    (fetch : Reader) (memberId : Text) (maxRecords now timeout key : Nat) :
    let r := acquireKey fetch memberId maxRecords now timeout a key
    r.batches.All p ∧ Infos p r.acquiredInfos := by
  unfold SharePartition.acquireKey
  split
  · exact ⟨h, hinfos⟩
  · split
    · exact ⟨h, hinfos⟩
    · next batch hlookup =>
      have hbatch := h.lookup hlookup
      split
      · exact ⟨h, hinfos⟩
      · next hstate =>
        rw [not_not] at hstate
        split
        · have hacquired := hp.acquire batch memberId now timeout hstate hbatch
          exact ⟨(h.erase key).insert hacquired, hinfos.append (infos_deliver hacquired rfl)⟩
        · have hacquired := hp.acquire (batch.piece batch.firstOffset
            (batch.firstOffset + (maxRecords - a.acquiredInfos.length) - 1)) memberId now timeout
            hstate (hp.piece _ _ _ hbatch)
          exact ⟨((h.erase key).insert hacquired).insert (hp.free _ hstate (hp.piece _ _ _ hbatch)),
            hinfos.append (infos_deliver hacquired rfl)⟩

theorem acquireAvailable {batches : Batches}
    (h : batches.All p) (fetch : Reader) (memberId : Text) (maxRecords now timeout : Nat) :
    let r := acquireAvailable fetch memberId maxRecords now timeout batches
    r.batches.All p ∧ Infos p r.acquiredInfos := by
  refine Run.run_invariant (P := fun a => Batches.All p (Acquisition.batches a) ∧
    Infos p a.acquiredInfos)
    (fun a key ha => hp.acquireKey ha.1 ha.2 fetch memberId maxRecords now timeout key) ?_ _
  exact ⟨h, fun _ hinfo => absurd hinfo not_mem_nil⟩

theorem acquireFresh {a : Acquisition} (h : a.batches.All p) (hinfos : Infos p a.acquiredInfos)
    (fetch : Reader) (memberId : Text) (maxRecords now timeout nextFetchOffset : Nat) :
    let r := acquireFresh fetch memberId maxRecords now timeout nextFetchOffset a
    r.1.batches.All p ∧ Infos p r.1.acquiredInfos := by
  rcases acquireFresh_cases fetch memberId maxRecords now timeout nextFetchOffset a with
    heq | ⟨frames, first, last, -, -, -, heq⟩
  · rw [heq]
    exact ⟨h, hinfos⟩
  · rw [heq]
    refine ⟨h.insert (hp.fresh _ _ _ _ _), hinfos.append fun info hinfo => ?_⟩
    obtain ⟨frame, -, rfl⟩ := mem_map.mp hinfo
    exact ⟨_, hp.fresh memberId now timeout first.offset last.offset, rfl, rfl⟩

theorem acquireRecords {s : SharePartition} (hmax : s.maxDeliveryAttempts = maxDeliveryAttempts)
    (h : s.batches.All p) (request : AcquireRequest) (now : Nat) (fetch : Reader) :
    (s.acquireRecords request now fetch).1.batches.All p ∧
      Infos p (s.acquireRecords request now fetch).2 := by
  unfold SharePartition.acquireRecords
  split
  · exact ⟨h, fun _ hinfo => absurd hinfo not_mem_nil⟩
  · have hswept := hp.sweepTimersInline hmax h now
    have htaken := hp.acquireAvailable hswept fetch request.memberId request.maxRecords now
      (request.lockTimeout.getD s.defaultLockTimeout)
    exact hp.acquireFresh htaken.1 htaken.2 fetch request.memberId request.maxRecords now
      (request.lockTimeout.getD s.defaultLockTimeout) (s.sweepTimersInline now).nextFetchOffset

theorem serve {s : SharePartition}
    (hmax : s.maxDeliveryAttempts = maxDeliveryAttempts) (h : s.batches.All p) (call : ShareCall) :
    (s.serve call).batches.All p ∧ Infos p (s.handedOut call) := by
  cases call with
  | acquire request now fetch => exact hp.acquireRecords hmax h request now fetch
  | acknowledge memberId acks now =>
    exact ⟨hp.acknowledge hmax h memberId acks now, fun _ hinfo => absurd hinfo not_mem_nil⟩
  | checkLockTimeouts now =>
    exact ⟨hp.sweepTimersInternal hmax h now, fun _ hinfo => absurd hinfo not_mem_nil⟩

end

end Kept

variable (s : SharePartition)

theorem maxDeliveryAttempts_serve (call : ShareCall) :
    (s.serve call).maxDeliveryAttempts = s.maxDeliveryAttempts := by
  cases call with
  | acquire request now fetch =>
    show (s.acquireRecords request now fetch).1.maxDeliveryAttempts = s.maxDeliveryAttempts
    unfold SharePartition.acquireRecords
    split
    · rfl
    · show (s.sweepTimersInline now).maxDeliveryAttempts = _
      rw [sweepTimersInline]
      split <;> rfl
  | acknowledge => rfl
  | checkLockTimeouts => rfl

/-! ## Runs with restarts -/

inductive ShareEvent where
  | call (call : ShareCall)
  | restart

/-- The state is persisted after every call, and read back by a restart. -/
def SharePartition.step : ShareEvent → SharePartition
  | .call call => s.serve call
  | .restart => s.restart

/-- Every batch that the call finds available can be counted up. -/
def CountsFit : ShareCall → Prop
  | .acquire _ now _ => (s.sweepTimersInline now).batches.All fun batch =>
      batch.state = .available → batch.deliveryCount.toNat + 1 < 2 ^ 16
  | .acknowledge _ _ _ | .checkLockTimeouts _ => True

/-- No record is handed out more often than the ceiling allows, and no count overflows. -/
def Capped : ShareEvent → Prop
  | .call call =>
    (∀ info ∈ s.handedOut call, info.deliveryCount ≤ s.maxDeliveryAttempts) ∧ CountsFit s call
  | .restart => True

/-- The broker is restarted only while no batch is on its last delivery. -/
def RestartsEarly : ShareEvent → Prop
  | .call _ => True
  | .restart => s.batches.All fun batch =>
      batch.state = .acquired → batch.deliveryCount < s.maxDeliveryAttempts

def Below (maxDeliveryAttempts : UInt16) (batch : InFlightBatch) : Prop :=
  (batch.state = .available → batch.deliveryCount < maxDeliveryAttempts) ∧
    batch.deliveryCount ≤ maxDeliveryAttempts

theorem add_one_le {count bound : UInt16} (h : count < bound) :
    count + 1 ≤ bound ∧ (count + 1).toNat = count.toNat + 1 := by
  rw [UInt16.lt_iff_toNat_lt] at h
  have hbound := bound.toNat_lt
  have hsum : (count + 1).toNat = count.toNat + 1 := by
    rw [UInt16.toNat_add]
    exact Nat.mod_eq_of_lt (by
      show count.toNat + 1 < 2 ^ 16
      omega)
  rw [UInt16.le_iff_toNat_le, hsum]
  omega

theorem ackCount_yield {count : UInt16} : (if count = 0 then 0 else count - 1 : UInt16) ≤ count ∧
      (count ≠ 0 → (if count = 0 then 0 else count - 1 : UInt16) < count) := by
  by_cases hzero : count = 0
  · simp [hzero]
  · rw [if_neg hzero]
    have hpos : 0 < count.toNat := Nat.pos_of_ne_zero fun h => hzero (UInt16.toNat_inj.mp h)
    have hsub : (count - 1).toNat = count.toNat - 1 := by
      rw [UInt16.toNat_sub_of_le]
      · rfl
      · rw [UInt16.le_iff_toNat_le]
        exact hpos
    rw [UInt16.le_iff_toNat_le, UInt16.lt_iff_toNat_lt, hsub]
    omega

variable {maxDeliveryAttempts : UInt16} {s}

theorem kept_below (hmax : 1 ≤ maxDeliveryAttempts) :
    Kept maxDeliveryAttempts (Below maxDeliveryAttempts) where
  piece := fun _ _ _ h => h
  free := fun _ hstate h => ⟨fun _ => h.1 hstate, h.2⟩
  acquire := by
    intro batch memberId now timeout hstate h
    exact ⟨fun hacquired => (by cases hacquired), (add_one_le (h.1 hstate)).1⟩
  fresh := fun _ _ _ _ _ => ⟨fun hacquired => (by cases hacquired), hmax⟩
  lapse := by
    intro batch hstate h
    refine ⟨fun havailable => ?_, h.2⟩
    by_cases hceiling : maxDeliveryAttempts ≤ batch.deliveryCount
    · rw [SharePartition.lapse, if_pos hceiling] at havailable
      cases havailable
    · exact UInt16.not_le.mp hceiling
  acked := by
    intro batch memberId now ackType first last hstate h
    cases ackType with
    | accept => exact ⟨fun hdone => (by cases hdone), h.2⟩
    | release =>
      refine ⟨fun havailable => ?_, h.2⟩
      by_cases hceiling : maxDeliveryAttempts ≤ batch.deliveryCount
      · exact absurd ((if_pos hceiling).symm.trans havailable) (by decide)
      · exact UInt16.not_le.mp hceiling
    | reject => exact ⟨fun hdone => (by cases hdone), h.2⟩
    | renew => exact ⟨fun hheld => (by cases hheld), h.2⟩
    | yield =>
      have hyield := @ackCount_yield batch.deliveryCount
      refine ⟨fun _ => ?_, UInt16.le_trans hyield.1 h.2⟩
      by_cases hzero : batch.deliveryCount = 0
      · show (if batch.deliveryCount = 0 then 0 else batch.deliveryCount - 1) < maxDeliveryAttempts
        rw [if_pos hzero]
        exact UInt16.lt_of_lt_of_le (by decide) hmax
      · exact UInt16.lt_of_lt_of_le (hyield.2 hzero) h.2

theorem all_restart {p q : InFlightBatch → Prop} (h : s.batches.All p)
    (hpq : ∀ batch : InFlightBatch, p batch → q
        { firstOffset := batch.firstOffset
          lastOffset := batch.lastOffset
          state := if batch.state = .acquired then .available else batch.state
          acquiredBy := none
          acquiredAt := none
          lockTimeout := s.defaultLockTimeout
          deliveryCount := batch.deliveryCount }) : s.restart.batches.All q := by
  show Batches.All q (List.foldl _ ∅ (s.batches.entries.map _))
  rw [foldl_map]
  refine List.foldlRecOn _ _ Batches.All.empty fun batches hbatches entry hentry => ?_
  exact hbatches.insert (hpq entry.2 (h entry hentry))

structure BelowCeiling (maxDeliveryAttempts : UInt16) (s : SharePartition) : Prop where
  ceiling : s.maxDeliveryAttempts = maxDeliveryAttempts
  batches : s.batches.All (Below maxDeliveryAttempts)

/-- The batches stay below the ceiling, whatever happens before a restart on a last
delivery. -/
theorem below_step (hmax : 1 ≤ maxDeliveryAttempts) {event : ShareEvent}
    (h : BelowCeiling maxDeliveryAttempts s) (hevent : RestartsEarly s event) :
    BelowCeiling maxDeliveryAttempts (s.step event) := by
  cases event with
  | call call =>
    exact ⟨(maxDeliveryAttempts_serve s call).trans h.ceiling,
      ((kept_below hmax).serve h.ceiling h.batches call).1⟩
  | restart =>
    refine ⟨h.ceiling, ?_⟩
    have hboth : s.batches.All fun batch => Below maxDeliveryAttempts batch ∧
        (batch.state = .acquired → batch.deliveryCount < maxDeliveryAttempts) :=
      fun entry hentry => ⟨h.batches entry hentry, h.ceiling ▸ hevent entry hentry⟩
    refine all_restart hboth fun batch hbatch => ⟨fun havailable => ?_, hbatch.1.2⟩
    by_cases hacquired : batch.state = .acquired
    · exact hbatch.2 hacquired
    · exact hbatch.1.1 ((if_neg hacquired).symm.trans havailable)

theorem capped_of_below (hmax : 1 ≤ maxDeliveryAttempts) (h : BelowCeiling maxDeliveryAttempts s)
    (event : ShareEvent) : Capped s event := by
  cases event with
  | restart => trivial
  | call call =>
    refine ⟨fun info hinfo => ?_, ?_⟩
    · obtain ⟨batch, hbatch, -, hcount⟩ :=
        ((kept_below hmax).serve h.ceiling h.batches call).2 info hinfo
      rw [hcount, h.ceiling]
      exact hbatch.2
    · cases call with
      | acquire request now =>
        intro entry hentry havailable
        have hbelow := (kept_below hmax).sweepTimersInline h.ceiling h.batches now entry hentry
        have hlt := hbelow.1 havailable
        rw [← (add_one_le hlt).2]
        exact UInt16.toNat_lt _
      | acknowledge => trivial
      | checkLockTimeouts => trivial

/-- In a run of calls and restarts no record is handed out more often than the ceiling
allows and no count overflows, if the broker is never restarted while a batch is on its
last delivery. -/
theorem capped_of_restartsEarly (defaultLockTimeout : Nat) (maxDeliveryAttempts : UInt16)
    (hmax : 1 ≤ maxDeliveryAttempts) (startOffset : Nat) (events : List ShareEvent)
    (h : Guarded step RestartsEarly (new defaultLockTimeout maxDeliveryAttempts startOffset)
      events) :
    Guarded step Capped (new defaultLockTimeout maxDeliveryAttempts startOffset) events := by
  exact h.imp (fun s event hs hevent => below_step hmax hs hevent)
    (fun s event hs _ => capped_of_below hmax hs event) ⟨rfl, Batches.All.empty⟩

/-! ### A restart on the last delivery -/

def takeOne (memberId : Text) : ShareCall :=
  .acquire (ask memberId 1) 0 (logOf [0])

/-- Two deliveries are allowed, and the restart comes after the first. -/
theorem capped_restart_early : Guarded step Capped (new 10 2 0)
      [.call (takeOne ['a']), .restart, .call (takeOne ['b'])] :=
  capped_of_restartsEarly 10 2 (by decide) 0 _ ⟨trivial, by
    intro entry hentry _
    rw [show entry = (0, freshBatch ['a'] 0 10 0 0) from mem_singleton.mp hentry]
    decide, trivial, trivial⟩

/-- One delivery is allowed.  After the restart the record is delivered a second time. -/
theorem not_capped_restart :
    ¬ Guarded step Capped (new 10 1 0)
      [.call (takeOne ['a']), .restart, .call (takeOne ['b'])] := by
  intro h
  have hsecond := h.2.2.1.1 _ mem_cons_self
  exact absurd hsecond (by decide)

end Bifrox.Share

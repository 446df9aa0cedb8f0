/-
The locks of a share partition (`acquire_records`, `acknowledge`, `check_lock_timeouts`,
`snapshot` and `inflight_count` in `src/server/share/partition.rs`).

`acquire_records` and `acknowledge` take the batches first and then the timers; a sweep takes the
timers first.
-/
import Bifrox.Lib.Locks
import Bifrox.Share.Lease
import Mathlib.Data.Fintype.Basic

namespace Bifrox.Share

open Locks
open Interval (links_le)
open SharePartition

/-! ## The calls as programs -/

inductive PartitionLock where
  | batches
  | timers
deriving DecidableEq

abbrev LockProgram := Program PartitionLock SharePartition

/-- The critical section of `acquire_records`. -/
def acquireSection (request : AcquireRequest) (now : Nat) (fetch : Reader) (s : SharePartition) :
    SharePartition :=
  (s.acquireLocked request (request.lockTimeout.getD s.defaultLockTimeout) now fetch).1

/-- The batches and then the timers; they are released the other way round. -/
def withBatchesAndTimers (f : SharePartition → SharePartition) : LockProgram :=
  .lock .batches .write <| .lock .timers .write <| .update f <| .unlock .timers <|
    .unlock .batches .done

/-- `sweep_timers_internal`: the timers and then the batches. -/
def sweepTimersProgram (now : Nat) : LockProgram :=
  .lock .timers .write <| .lock .batches .write <|
    .update (fun s => (s.sweepTimersInternal now).1) <| .unlock .batches <| .unlock .timers .done

/-- `sweep_timers_inline`: a look at the first timer, and a sweep if it has run out. -/
def sweepInlineProgram (now : Nat) : LockProgram :=
  .lock .timers .read <| .test (fun s => s.shouldSweep now)
    (.unlock .timers (sweepTimersProgram now)) (.unlock .timers .done)

def readBatches : LockProgram := .lock .batches .read <| .unlock .batches .done

inductive PartitionCall where
  | serve (call : ShareCall)
  | snapshot
  | inflightCount

namespace PartitionCall

def program : PartitionCall → LockProgram
  | .serve (.acquire request now fetch) =>
    if request.maxRecords = 0 then .done
    else (sweepInlineProgram now).append
      (withBatchesAndTimers (acquireSection request now fetch))
  | .serve (.acknowledge memberId acks now) =>
    withBatchesAndTimers fun s => (s.acknowledge memberId acks now).1
  | .serve (.checkLockTimeouts now) => sweepTimersProgram now
  | .snapshot | .inflightCount => readBatches

/-- The call takes the timers while it holds the batches. -/
def TakesBatchesFirst : PartitionCall → Prop
  | .serve (.acquire request _ _) => request.maxRecords ≠ 0
  | .serve (.acknowledge _ _ _) => True
  | .serve (.checkLockTimeouts _) | .snapshot | .inflightCount => False

/-- The call takes the batches while it holds the timers, at least when a timer has run out. -/
def MaySweep : PartitionCall → Prop
  | .serve (.acquire request _ _) => request.maxRecords ≠ 0
  | .serve (.checkLockTimeouts _) => True
  | .serve (.acknowledge _ _ _) | .snapshot | .inflightCount => False

end PartitionCall

open PartitionCall

theorem defaultLockTimeout_sweepTimersInline (s : SharePartition) (now : Nat) :
    (s.sweepTimersInline now).defaultLockTimeout = s.defaultLockTimeout := by
  rw [sweepTimersInline]
  split <;> rfl

theorem exec_program (call : ShareCall) (s : SharePartition) :
    (program (.serve call)).exec s = s.serve call := by
  cases call with
  | acquire request now fetch =>
    rw [program, SharePartition.serve]
    by_cases hmax : request.maxRecords = 0
    · rw [if_pos hmax, acquireRecords_of_zero hmax]
      rfl
    · rw [if_neg hmax, Program.exec_append]
      show acquireSection request now fetch (s.sweepTimersInline now) =
        (s.acquireRecords request now fetch).1
      rw [acquireSection, defaultLockTimeout_sweepTimersInline, acquireRecords, if_neg hmax]
  | acknowledge => rfl
  | checkLockTimeouts => rfl

/-! ## The order of the locks -/

variable (call : PartitionCall)

def Allowed : PartitionLock → PartitionLock → Prop
  | .batches, .timers => call.TakesBatchesFirst
  | .timers, .batches => call.MaySweep
  | .batches, .batches | .timers, .timers => False

theorem follows_withBatchesAndTimers (h : call.TakesBatchesFirst)
    (f : SharePartition → SharePartition) : (withBatchesAndTimers f).Follows (Allowed call) [] := by
  refine ⟨fun e he => absurd he List.not_mem_nil, fun e he => ?_, rfl⟩
  rw [List.mem_singleton.mp he]
  exact ⟨by decide, h⟩

theorem follows_sweepTimersProgram (h : call.MaySweep) (now : Nat) :
    (sweepTimersProgram now).Follows (Allowed call) [] := by
  refine ⟨fun e he => absurd he List.not_mem_nil, fun e he => ?_, rfl⟩
  rw [List.mem_singleton.mp he]
  exact ⟨by decide, h⟩

theorem follows_program : call.program.Follows (Allowed call) [] := by
  have hread : readBatches.Follows (Allowed call) [] :=
    ⟨fun e he => absurd he List.not_mem_nil, rfl⟩
  cases call with
  | serve call =>
    cases call with
    | acquire request now fetch =>
      rw [program]
      split
      · rfl
      · next hmax =>
        have hbatches := follows_withBatchesAndTimers (.serve (.acquire request now fetch)) hmax
        have hsweep := follows_sweepTimersProgram (.serve (.acquire request now fetch)) hmax now
        exact Program.Follows.append ⟨fun e he => absurd he List.not_mem_nil, hsweep, rfl⟩
          (hbatches _)
    | acknowledge memberId acks now =>
      exact follows_withBatchesAndTimers (.serve (.acknowledge memberId acks now)) trivial _
    | checkLockTimeouts now =>
      exact follows_sweepTimersProgram (.serve (.checkLockTimeouts now)) trivial now
  | snapshot => exact hread
  | inflightCount => exact hread

/-! ## Deadlocks -/

variable {n : Nat}

def DeadlockFree (calls : Fin n → PartitionCall) (s : SharePartition) : Prop :=
  ∀ m, Reaches (Machine.start s fun i => (calls i).program) m → ¬ Deadlocked m

/-- One call takes the batches first, and another may sweep. -/
def Crossing (calls : Fin n → PartitionCall) : Prop :=
  ∃ i j, i ≠ j ∧ (calls i).TakesBatchesFirst ∧ (calls j).MaySweep

/-- A call that awaits the timers takes the batches first, and one that awaits the batches
sweeps. -/
theorem awaits_cases {calls : Fin n → PartitionCall}
    {m : Machine (Fin n) PartitionLock SharePartition}
    (h : Follows (fun i => Allowed (calls i)) m) {l l' : PartitionLock} (hawaits : Awaits m l' l) :
    ∃ i mode next, (m.threads i).rest = .lock l' mode next ∧
      (l' = .timers ∧ l = .batches ∧ (calls i).TakesBatchesFirst ∨
        l' = .batches ∧ l = .timers ∧ (calls i).MaySweep) := by
  obtain ⟨i, mode, next, hrest, mode', hheld⟩ := hawaits
  obtain ⟨hne, hallowed⟩ := h.awaits hrest hheld
  refine ⟨i, mode, next, hrest, ?_⟩
  cases l with
  | batches =>
    cases l' with
    | batches => exact absurd rfl hne
    | timers => exact .inl ⟨rfl, rfl, hallowed⟩
  | timers =>
    cases l' with
    | batches => exact .inr ⟨rfl, rfl, hallowed⟩
    | timers => exact absurd rfl hne

theorem deadlockFree_of_not_crossing {calls : Fin n → PartitionCall}
    (h : ¬ Crossing calls) (s : SharePartition) : DeadlockFree calls s := by
  intro m hreaches
  have hfollows : Follows (fun i => Allowed (calls i)) m :=
    (follows_start s fun i => follows_program (calls i)).reaches hreaches
  refine not_deadlocked hfollows ?_
  by_cases hbatches : Awaits m .timers .batches
  · have hdirection : ∀ l' l, Awaits m l' l → l' = .timers ∧ l = .batches := by
      intro l' l hawaits
      obtain ⟨i, _, _, hrest, ⟨-, -, hfirst⟩ | ⟨hl', -⟩⟩ := awaits_cases hfollows hbatches
      · obtain ⟨j, _, _, hrest', ⟨hl', hl, -⟩ | ⟨rfl, -, hsweep⟩⟩ := awaits_cases hfollows hawaits
        · exact ⟨hl', hl⟩
        · refine absurd ⟨i, j, fun hij => ?_, hfirst, hsweep⟩ h
          rw [hij, hrest'] at hrest
          cases hrest
      · cases hl'
    exact wellFounded_of_direction (by decide) hdirection
  · have hdirection : ∀ l' l, Awaits m l' l → l' = .batches ∧ l = .timers := by
      intro l' l hawaits
      obtain ⟨-, -, -, -, ⟨rfl, rfl, -⟩ | ⟨hl', hl, -⟩⟩ := awaits_cases hfollows hawaits
      · exact absurd hawaits hbatches
      · exact ⟨hl', hl⟩
    exact wellFounded_of_direction (by decide) hdirection

/-! ## How a deadlock comes about -/

section Crossing

variable {n : Nat} {calls : Fin n → PartitionCall} {i : Fin n}
  {m : Machine (Fin n) PartitionLock SharePartition}

/-- The first timer has run out, whatever the time. -/
def Overdue (s : SharePartition) : Prop := ∀ now, s.shouldSweep now = true

/-- While a timer has run out, a call that may sweep comes to do so. -/
theorem reaches_sweep {call : PartitionCall} (hidle : Idle m) (hdata : Overdue m.data)
    (hi : m.threads i = { held := [], rest := call.program }) (hsweep : call.MaySweep) :
    ∃ now k, Reaches m
      (m.put i m.data { held := [], rest := (sweepTimersProgram now).append k }) := by
  rcases call with (⟨request, now, fetch⟩ | ⟨memberId, acks, now⟩ | ⟨now⟩) | _ | _
  · rw [program, if_neg hsweep] at hi
    refine ⟨now, withBatchesAndTimers (acquireSection request now fetch), ?_⟩
    nth_rewrite 1 [← put_self hi]
    exact reaches_peek (fun j _ => hidle j) .timers (hdata now) _ _
  · exact hsweep.elim
  · rw [program] at hi
    refine ⟨now, .done, ?_⟩
    rw [Program.append_done, put_self hi]
    exact Relation.ReflTransGen.refl
  · exact hsweep.elim
  · exact hsweep.elim

/-- A call that takes the batches first comes to do so, after a sweep if a timer has run out. -/
theorem reaches_batches {call : PartitionCall} (hidle : Idle m) (hdata : Overdue m.data)
    (hi : m.threads i = { held := [], rest := call.program }) (hfirst : call.TakesBatchesFirst) :
    ∃ (p : LockProgram) (f : SharePartition → SharePartition), p.Follows (Allowed call) [] ∧
      Reaches m (m.put i m.data { held := [], rest := p.append (withBatchesAndTimers f) }) := by
  rcases call with (⟨request, now, fetch⟩ | ⟨memberId, acks, now⟩ | ⟨now⟩) | _ | _
  · rw [program, if_neg hfirst] at hi
    refine ⟨sweepTimersProgram now, acquireSection request now fetch,
      follows_sweepTimersProgram (.serve (.acquire request now fetch)) hfirst now, ?_⟩
    nth_rewrite 1 [← put_self hi]
    exact reaches_peek (fun j _ => hidle j) .timers (hdata now) _ _
  · rw [program] at hi
    refine ⟨.done, fun s => (s.acknowledge memberId acks now).1, rfl, ?_⟩
    rw [Program.append, put_self hi]
    exact Relation.ReflTransGen.refl
  · exact hfirst.elim
  · exact hfirst.elim
  · exact hfirst.elim

/-- Both calls look at the timers first, if they do at all; then all others are served, and the
sweep of the call that takes the batches first, if there is one. -/
theorem exists_deadlocked {s : SharePartition} (hs : Overdue s) (h : Crossing calls) :
    ¬ DeadlockFree calls s := by
  obtain ⟨i, j, hij, hfirst, hsweep⟩ := h
  let m₀ : Machine (Fin n) PartitionLock SharePartition :=
    Machine.start s fun i => (calls i).program
  have hfollows := follows_start s fun i => follows_program (calls i)
  have hidle₀ : Idle m₀ := fun _ => rfl
  obtain ⟨now, k, hreach₁⟩ := reaches_sweep hidle₀ hs (show m₀.threads j = _ from rfl) hsweep
  have hidle₁ := hidle₀.put j s ((sweepTimersProgram now).append k)
  obtain ⟨p, f, hp, hreach₂⟩ := reaches_batches hidle₁ hs (threads_put_of_ne m₀ hij _ _) hfirst
  have hreach := hreach₁.trans hreach₂
  obtain ⟨m, hfinish, hidle, hdone, hsame⟩ := reaches_finished (hfollows.reaches hreach)
    (hidle₁.put i s (p.append (withBatchesAndTimers f))) (Finset.univ.filter fun x => x ≠ i ∧ x ≠ j)
  have hi := hsame i (by simp)
  have hj := hsame j (by simp)
  rw [threads_put_self] at hi
  rw [threads_put_of_ne _ hij.symm, threads_put_self] at hj
  have hlast := reaches_append hp (fun x (_ : x ≠ i) => hidle x) m.data (withBatchesAndTimers f)
  rw [put_self hi] at hlast
  obtain ⟨m', hreach', hdeadlocked⟩ := reaches_deadlocked hij (by decide) (threads_put_self m i _ _)
    ((threads_put_of_ne m hij.symm _ _).trans hj) (hidle.put i _ _) fun x hxi hxj => by
      rw [Machine.Finished, threads_put_of_ne m hxi]
      exact hdone x (by simp [hxi, hxj])
  intro hfree
  exact hfree m' (hreach.trans (hfinish.trans (hlast.trans hreach'))) hdeadlocked

end Crossing

/-- A partition that has a record on a lease of no time. -/
def overdue : SharePartition := (new 0 5 0).serve (.acquire (ask ['a'] 1) 0 (logOf [0]))

theorem overdue_overdue : Overdue overdue := by
  intro now
  rfl

theorem reached_overdue : Reached overdue := by
  refine ⟨0, 5, 0, [.acquire (ask ['a'] 1) 0 (logOf [0])], fun call hcall => ?_, rfl⟩
  rw [List.mem_singleton.mp hcall]
  exact increasing_logOf (by decide)

/-- Calls can be made at the same time without ever reaching a deadlock, whatever state the
partition is in, if and only if none of them that takes the batches first runs beside another
that may sweep. -/
theorem deadlockFree_iff (calls : Fin n → PartitionCall) :
    (∀ s, Reached s → DeadlockFree calls s) ↔ ¬ Crossing calls := by
  constructor
  · intro h hcrossing
    exact exists_deadlocked overdue_overdue hcrossing (h overdue reached_overdue)
  · intro h s _
    exact deadlockFree_of_not_crossing h s

/-! ### An acknowledgement beside the background sweep -/

def acknowledgeAndSweep : Fin 2 → PartitionCall
  | 0 => .serve (.acknowledge ['a'] [] 0)
  | 1 => .serve (.checkLockTimeouts 0)

/-- The acknowledgement holds the batches, the sweep holds the timers, and each waits for the
other. -/
theorem not_deadlockFree_acknowledgeAndSweep :
    Reached (new 10 5 0) ∧ ¬ DeadlockFree acknowledgeAndSweep (new 10 5 0) := by
  refine ⟨⟨10, 5, 0, [], nofun, rfl⟩, fun hfree => ?_⟩
  have hothers : ∀ x : Fin 2, x ≠ 0 → x ≠ 1 →
      (Machine.start (new 10 5 0) fun i => (acknowledgeAndSweep i).program).Finished x := by
    intro x h0 h1
    omega
  obtain ⟨m, hreach, hdeadlocked⟩ := reaches_deadlocked (i := (0 : Fin 2)) (j := 1)
    (l := PartitionLock.batches) (by decide) (by decide) rfl rfl (fun _ => rfl) hothers
  exact hfree m hreach hdeadlocked

/-! ## What calls keep -/

/-- The batches are laid out, and the start offset has not fallen below `start`. -/
def LaidOutFrom (start : Nat) (s : SharePartition) : Prop :=
  LaidOut (· ≤ ·) s ∧ start ≤ s.startOffset

variable {start : Nat} {s : SharePartition}

theorem LaidOutFrom.serve (h : LaidOutFrom start s) {call : ShareCall} (hproper : Proper call) :
    LaidOutFrom start (s.serve call) :=
  ⟨serve_laidOut links_le h.1 hproper linked_le,
    h.2.trans (startOffset_le_serve links_le h.1 hproper linked_le)⟩

theorem LaidOutFrom.acquireSection (h : LaidOutFrom start s) {request : AcquireRequest} {now : Nat}
    {fetch : Reader} (hproper : Proper (.acquire request now fetch))
    (hmax : request.maxRecords ≠ 0) : LaidOutFrom start (acquireSection request now fetch s) := by
  -- without timers there is no sweep, and the batches do not depend on them
  have hbare : LaidOut (· ≤ ·) { s with timers := ∅ } := h.1
  have hlaid := (acquireRecords_spec links_le hbare hproper linked_le hmax).1
  rw [SharePartition.acquireRecords, if_neg hmax] at hlaid
  exact ⟨hlaid, h.2⟩

theorem keeps_program {call : PartitionCall} (hcall : ∀ c, call = .serve c → Proper c) :
    call.program.Keeps (LaidOutFrom start) := by
  have hsweep : ∀ now s, LaidOutFrom start s → LaidOutFrom start (s.sweepTimersInternal now).1 :=
    fun now s hs => hs.serve (show Proper (.checkLockTimeouts now) from trivial)
  rcases call with (⟨request, now, fetch⟩ | ⟨memberId, acks, now⟩ | ⟨now⟩) | _ | _
  · rw [program]
    split
    · trivial
    · next hmax =>
      have hacquire := fun s (hs : LaidOutFrom start s) => hs.acquireSection (hcall _ rfl) hmax
      exact ⟨⟨hsweep now, hacquire, trivial⟩, hacquire, trivial⟩
  · exact ⟨fun s hs => hs.serve (hcall _ rfl), trivial⟩
  · exact ⟨hsweep now, trivial⟩
  · trivial
  · trivial

/-- However calls take turns at their locks, and in the middle of them too, the batches are laid
out and the start offset has not fallen. -/
theorem laidOutFrom_of_reaches (hs : Reached s) (calls : Fin n → PartitionCall)
    (hproper : ∀ i call, calls i = .serve call → Proper call)
    {m : Machine (Fin n) PartitionLock SharePartition}
    (h : Reaches (Machine.start s fun i => (calls i).program) m) :
    LaidOutFrom s.startOffset m.data := by
  have hstart : Keeps (LaidOutFrom s.startOffset) (Machine.start s fun i => (calls i).program) :=
    ⟨⟨hs.laidOut, Nat.le_refl _⟩, fun i => keeps_program (hproper i)⟩
  exact (hstart.reaches h).1

theorem laidOutFrom_acknowledgeAndSweep : ∃ m, (∀ i, m.Finished i) ∧ LaidOutFrom 0 m.data ∧
    Reaches (Machine.start (new 10 5 0) fun i => (acknowledgeAndSweep i).program) m := by
  obtain ⟨m, hreaches, -, hdone, -⟩ := reaches_finished
    (follows_start (new 10 5 0) fun i => follows_program (acknowledgeAndSweep i)) (fun _ => rfl)
    Finset.univ
  refine ⟨m, fun i => hdone i (Finset.mem_univ i), laidOutFrom_of_reaches
    ⟨10, 5, 0, [], nofun, rfl⟩ acknowledgeAndSweep (fun i call hcall => ?_) hreaches, hreaches⟩
  match i with
  | 0 =>
    obtain rfl := PartitionCall.serve.inj hcall
    exact nofun
  | 1 =>
    obtain rfl := PartitionCall.serve.inj hcall
    trivial

end Bifrox.Share

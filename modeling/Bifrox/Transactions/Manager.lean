/-
States of transactions over several partitions (`src/server/transaction.rs`).
-/
import Bifrox.Metadata.Engine

namespace Bifrox.Transactions

open Metadata (PartitionRange TransactionState)
open Server (TxStatus TransactionalProducerState)

/-! ## Decisions -/

inductive Decision where
  | commit
  | abort
deriving DecidableEq

def Decision.prepared : Decision → TxStatus
  | .commit => .prepareCommit
  | .abort => .prepareAbort

def Decision.terminal : Decision → TxStatus
  | .commit => .committed
  | .abort => .aborted

def isTerminal (status : TxStatus) : Bool := status = .committed || status = .aborted

theorem Decision.prepared_injective : Function.Injective prepared := by
  intro d d' h
  cases d <;> cases d' <;> first | rfl | cases h

theorem Decision.terminal_injective : Function.Injective terminal := by
  intro d d' h
  cases d <;> cases d' <;> first | rfl | cases h

theorem Decision.prepared_ne_terminal (d d' : Decision) : d.prepared ≠ d'.terminal := by
  cases d <;> cases d' <;> decide

theorem Decision.prepared_ne_ongoing (d : Decision) : d.prepared ≠ .ongoing := by
  cases d <;> decide

theorem Decision.terminal_ne_ongoing (d : Decision) : d.terminal ≠ .ongoing := by
  cases d <;> decide

/-! ## Producers -/

inductive TxError where
  | alreadyExists (id : Text)
  | notFound (id : Text)
  | notOngoing
  | notOngoingOrFenced
  | differentDecision
  | epochExhausted
  | notInitialized (id : Text)
  | producerIdMismatch (id : Text)
  | producerFenced (id : Text) (expected got : Int16)

def validateTransactionalProducer (producers : Table Text TransactionalProducerState) (id : Text)
    (producerId : UInt64) (producerEpoch : Int16) : Except TxError Unit :=
  match producers.lookup id with
  | none => .error (.notInitialized id)
  | some current =>
    if current.producerId ≠ producerId then .error (.producerIdMismatch id)
    else if current.producerEpoch ≠ producerEpoch then
      .error (.producerFenced id current.producerEpoch producerEpoch)
    else .ok ()

/-- Requests for an id that was never initialized are not fenced. -/
def validateIfInitialized (producers : Table Text TransactionalProducerState) (id : Text)
    (producerId : UInt64) (producerEpoch : Int16) : Except TxError Unit :=
  if (producers.lookup id).isSome then
    validateTransactionalProducer producers id producerId producerEpoch
  else .ok ()

/-- How far a durable write gets.  A call that fails may have left its record in the log, below
or above the watermark. -/
inductive Write where
  | lost
  | appended
  | checkpointed
  | completed
deriving DecidableEq

/-! ## Ranges -/

def noOffset : UInt64 := UInt64.ofNat (2 ^ 64 - 1)

def isFor (topic : Text) (partition : UInt32) (range : PartitionRange) : Bool :=
  range.topic = topic && range.partition = partition

/-- A partition that is enlisted has no first offset yet. -/
def enlist (topic : Text) (ranges : List PartitionRange) (partition : UInt32) :
    List PartitionRange :=
  if ranges.any (isFor topic partition) then ranges
  else ranges ++ [⟨topic, partition, noOffset, noOffset⟩]

/-- Change the first range of a partition, or add one. -/
def updateRange (topic : Text) (partition : UInt32) (change : PartitionRange → PartitionRange)
    (new : PartitionRange) : List PartitionRange → List PartitionRange
  | [] => [new]
  | range :: ranges =>
    if isFor topic partition range then change range :: ranges
    else range :: updateRange topic partition change new ranges

def newState (id : Text) (producerId createdAtMs : UInt64) : TransactionState where
  record := { status := .ongoing, producerId, transactionId := id, partitions := [] }
  createdAtMs

end Bifrox.Transactions

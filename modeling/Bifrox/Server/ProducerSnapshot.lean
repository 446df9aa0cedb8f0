/-
The file of the producer states (`ProducerStateManager::take_snapshot` and `open` in
`src/server/partition.rs`).

A snapshot is written beside the file that it replaces.  Unlinks and renames take effect in their
order.
-/
import Bifrox.Lib.FileSystem
import Bifrox.Lib.FixedRecords
import Bifrox.Server.Partition

namespace Bifrox.Server

open BigEndian List
open FixedRecords (Format)

/-- The fields of a producer in their order in the file. -/
def snapshotFields (p : UInt64 × ProducerStateEntry) : List Bytes :=
  [put 8 p.1.toNat, put 2 p.2.epoch.toUInt16.toNat, put 4 p.2.lastSequence.toUInt32.toNat,
    put 8 p.2.lastOffset]

def snapshotFormat : Format (UInt64 × ProducerStateEntry) where
  size := 22
  encode p := (snapshotFields p).flatten
  decode cursor :=
    let (producerId, cursor) := split 8 cursor
    let (epoch, cursor) := split 2 cursor
    let (lastSequence, cursor) := split 4 cursor
    (.ofNat producerId,
      { epoch := (UInt16.ofNat epoch).toInt16
        lastSequence := (UInt32.ofNat lastSequence).toInt32
        lastOffset := (split 8 cursor).1 })
  Fits p := p.2.lastOffset < 256 ^ 8
  size_pos := by decide
  length_encode _ := by simp [snapshotFields]
  decode_encode {p} h := by
    have hid : p.1.toNat < 256 ^ 8 := p.1.toNat_lt
    have hepoch : p.2.epoch.toUInt16.toNat < 256 ^ 2 := UInt16.toNat_lt _
    have hsequence : p.2.lastSequence.toUInt32.toNat < 256 ^ 4 := UInt32.toNat_lt _
    simp only [snapshotFields, flatten_cons, flatten_nil, append_nil, split_put,
      split_put_self, Nat.mod_eq_of_lt, hid, hepoch, hsequence, h, UInt64.ofNat_toNat,
      UInt16.ofNat_toNat, UInt32.ofNat_toNat, Int16.toInt16_toUInt16, Int32.toInt32_toUInt32]
  fits_decode _ := split_fst_lt ..

def statesOf (entries : List (UInt64 × ProducerStateEntry)) : ProducerStates :=
  entries.foldl (fun states p => states.update p.1 p.2) .empty

structure SnapshotFiles where
  snapshot : Option Inode
  tmp : Option Inode

inductive SnapshotOp where
  | createTmp
  | writeTmp (bytes : Bytes)
  | syncTmp
  | removeSnapshot
  | renameTmp
deriving DecidableEq

namespace SnapshotFiles

variable (d : SnapshotFiles)

def step : SnapshotOp → SnapshotFiles
  | .createTmp => { d with tmp := some { data := [], synced := d.tmp.elim [] Inode.synced } }
  | .writeTmp bytes => { d with tmp := d.tmp.map fun f => { f with data := f.data ++ bytes } }
  | .syncTmp => { d with tmp := d.tmp.map fun f => { f with synced := f.data } }
  | .removeSnapshot => { d with snapshot := none }
  | .renameTmp => { snapshot := d.tmp, tmp := none }

def run (ops : List SnapshotOp) : SnapshotFiles := ops.foldl step d

/-- `open` after a crash, which keeps what was synced. -/
def openStates : ProducerStates :=
  match d.snapshot with
  | some f => statesOf (snapshotFormat.readAll f.synced)
  | none => .empty

end SnapshotFiles

/-- What is done before the old file is removed. -/
def writeTmpOps (entries : List (UInt64 × ProducerStateEntry)) : List SnapshotOp :=
  [.createTmp] ++ (entries.flatMap snapshotFields).map .writeTmp ++ [.syncTmp]

def takeSnapshotOps (entries : List (UInt64 × ProducerStateEntry)) : List SnapshotOp :=
  writeTmpOps entries ++ [.removeSnapshot] ++ [.renameTmp]

namespace SnapshotFiles

variable (d : SnapshotFiles) {entries earlier later : List (UInt64 × ProducerStateEntry)}
  {ops : List SnapshotOp}

theorem run_writes (f : Inode) (chunks : List Bytes) :
    ({ d with tmp := some f } : SnapshotFiles).run (chunks.map .writeTmp) =
      { d with tmp := some { f with data := f.data ++ chunks.flatten } } := by
  induction chunks generalizing f with
  | nil => simp [run]
  | cons bytes chunks ih =>
    have hnext := ih { f with data := f.data ++ bytes }
    simp only [run, step, map_cons, foldl_cons, Option.map_some, flatten_cons,
      append_assoc] at hnext ⊢
    exact hnext

theorem snapshot_run_writeTmpOps (h : ops <+: writeTmpOps entries) :
    (d.run ops).snapshot = d.snapshot := by
  refine foldlRecOn (motive := fun d' => d'.snapshot = d.snapshot) ops step rfl
    fun d' hd' op hop => ?_
  rw [← hd']
  cases op with
  | removeSnapshot | renameTmp => simpa [writeTmpOps] using h.subset hop
  | _ => rfl

theorem synced_run_takeSnapshotOps : ((d.run (takeSnapshotOps entries)).snapshot.map Inode.synced) =
      some (snapshotFormat.encodeAll entries) := by
  have hbytes : (entries.flatMap snapshotFields).flatten = snapshotFormat.encodeAll entries := by
    simp [Format.encodeAll, snapshotFormat, flatMap, flatten_flatten, Function.comp_def]
  have hwrites := d.run_writes { data := [], synced := d.tmp.elim [] Inode.synced }
    (entries.flatMap snapshotFields)
  rw [hbytes] at hwrites
  simp only [run] at hwrites
  simp [takeSnapshotOps, writeTmpOps, run, step, hwrites]

theorem openStates_run (h : ∀ p ∈ entries, snapshotFormat.Fits p) :
    (d.run (takeSnapshotOps entries)).openStates = statesOf entries := by
  obtain ⟨f, hf, hsynced⟩ := Option.map_eq_some_iff.mp d.synced_run_takeSnapshotOps
  rw [openStates, hf]
  simp only [hsynced, snapshotFormat.readAll_encodeAll h]

/-- A crash during the second of two snapshots leaves one of them, exactly if it does not fall
between the removal of the first and the renaming of the second or one of them is empty. -/
theorem openStates_eq_or_iff (hearlier : ∀ p ∈ earlier, snapshotFormat.Fits p)
    (hlater : ∀ p ∈ later, snapshotFormat.Fits p) (hops : ops <+: takeSnapshotOps later) :
    (((d.run (takeSnapshotOps earlier)).run ops).openStates = statesOf earlier ∨
      ((d.run (takeSnapshotOps earlier)).run ops).openStates = statesOf later) ↔
      (ops.getLast? = some .removeSnapshot →
        statesOf earlier = .empty ∨ statesOf later = .empty) := by
  rcases prefix_concat_iff.mp hops with rfl | hops
  · exact iff_of_true (.inr (openStates_run _ hlater)) (by simp)
  rcases prefix_concat_iff.mp hops with rfl | hops
  · have hnone : ((d.run (takeSnapshotOps earlier)).run
        (writeTmpOps later ++ [.removeSnapshot])).openStates = .empty := by
      simp [run, step, openStates]
    rw [hnone, getLast?_append, getLast?_singleton, eq_comm, @eq_comm _ _ (statesOf later)]
    exact ⟨fun h _ => h, fun h => h rfl⟩
  · refine iff_of_true (.inl ?_) fun hlast => ?_
    · rw [openStates, snapshot_run_writeTmpOps _ hops]
      exact d.openStates_run hearlier
    · exact absurd (hops.subset (mem_of_getLast? hlast)) (by simp [writeTmpOps])

def oneProducer : List (UInt64 × ProducerStateEntry) :=
  [(1, { epoch := 0, lastSequence := 4, lastOffset := 4 })]

theorem openStates_written :
    ((run ⟨none, none⟩ (takeSnapshotOps oneProducer)).run (writeTmpOps [])).openStates =
        statesOf oneProducer ∨
      ((run ⟨none, none⟩ (takeSnapshotOps oneProducer)).run (writeTmpOps [])).openStates =
        statesOf [] :=
  (openStates_eq_or_iff _ (by simp [oneProducer, snapshotFormat]) (by simp)
    ⟨[.removeSnapshot, .renameTmp], rfl⟩).mpr fun h => absurd h (by decide)

/-- The first snapshot is removed, and the second is not there yet. -/
theorem openStates_removed :
    writeTmpOps oneProducer ++ [.removeSnapshot] <+: takeSnapshotOps oneProducer ∧
      ((run ⟨none, none⟩ (takeSnapshotOps oneProducer)).run
        (writeTmpOps oneProducer ++ [.removeSnapshot])).openStates ≠ statesOf oneProducer := by
  refine ⟨prefix_append .., fun h => ?_⟩
  exact absurd (congrFun h 1) (by decide +kernel)

end SnapshotFiles

end Bifrox.Server

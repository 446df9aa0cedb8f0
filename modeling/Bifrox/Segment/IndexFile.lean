/-
The files of the time and the transaction index (`open` and `append` in
`src/segment/{timeindex,txnindex}.rs`).

An open reads whole entries and leaves the rest of the file where it is.  An append goes to the end
of the file.
-/
import Bifrox.Lib.FixedRecords
import Bifrox.Segment.Index

namespace Bifrox.Segment

open BigEndian
open FixedRecords (Format)

def timeFormat : Format TimeIndexEntry where
  size := 16
  encode e := put 8 e.timestamp ++ put 8 e.logicalOffset
  decode buf :=
    { timestamp := (split 8 buf).1, logicalOffset := (split 8 (split 8 buf).2).1 }
  Fits e := e.timestamp < 256 ^ 8 ∧ e.logicalOffset < 256 ^ 8
  size_pos := by decide
  length_encode _ := by simp
  decode_encode h := by
    simp only [split_put, split_put_self, Nat.mod_eq_of_lt h.1, Nat.mod_eq_of_lt h.2]
  fits_decode _ := ⟨split_fst_lt .., split_fst_lt ..⟩

def txnFormat : Format TxnIndexEntry where
  size := 24
  encode e := put 8 e.producerId.toNat ++ (put 8 e.firstOffset ++ put 8 e.lastOffset)
  decode buf :=
    { producerId := UInt64.ofNat (split 8 buf).1
      firstOffset := (split 8 (split 8 buf).2).1
      lastOffset := (split 8 (split 8 (split 8 buf).2).2).1 }
  Fits e := e.firstOffset < 256 ^ 8 ∧ e.lastOffset < 256 ^ 8
  size_pos := by decide
  length_encode _ := by simp
  decode_encode {e} h := by
    have hid : e.producerId.toNat < 256 ^ 8 := e.producerId.toNat_lt
    simp only [split_put, split_put_self, Nat.mod_eq_of_lt hid, Nat.mod_eq_of_lt h.1,
      Nat.mod_eq_of_lt h.2, UInt64.ofNat_toNat]
  fits_decode _ := ⟨split_fst_lt .., split_fst_lt ..⟩

structure IndexFile (α : Type) where
  file : Bytes
  entries : List α

namespace IndexFile

variable {α : Type} (f : Format α)

def openFile (file : Bytes) : IndexFile α := { file, entries := f.readAll file }

def push (x : IndexFile α) (e : α) : IndexFile α :=
  { file := x.file ++ f.encode e, entries := x.entries ++ [e] }

/-- The next open finds the entries that are in memory. -/
def Survives (x : IndexFile α) : Prop := (openFile f x.file).entries = x.entries

/-- What is written for a list of entries, each of which may depend on those in memory. -/
def written (entry : List α → α → α) : List α → List α → List α
  | _, [] => []
  | entries, e :: rest => entry entries e :: written entry (entries ++ [entry entries e]) rest

theorem written_self (entries rest : List α) : written (fun _ e => e) entries rest = rest := by
  induction rest generalizing entries with
  | nil => rfl
  | cons e rest ih => rw [written, ih]

theorem foldl_push (entry : List α → α → α) (x : IndexFile α) (rest : List α) :
    rest.foldl (fun x e => x.push f (entry x.entries e)) x =
      { file := x.file ++ f.encodeAll (written entry x.entries rest)
        entries := x.entries ++ written entry x.entries rest } := by
  induction rest generalizing x with
  | nil => simp [written, Format.encodeAll]
  | cons e rest ih =>
    rw [List.foldl_cons, ih]
    simp [written, push, Format.encodeAll]

variable {f}

theorem fits_openFile {file : Bytes} : ∀ e ∈ (openFile f file).entries, f.Fits e := by
  intro e he
  obtain ⟨i, -, rfl⟩ := List.mem_map.mp he
  exact f.fits_decode _

theorem fits_written {entry : List α → α → α}
    (hentry : ∀ entries e, (∀ e ∈ entries, f.Fits e) → f.Fits e → f.Fits (entry entries e))
    {entries rest : List α} (hentries : ∀ e ∈ entries, f.Fits e) (hrest : ∀ e ∈ rest, f.Fits e) :
    ∀ e ∈ written entry entries rest, f.Fits e := by
  induction rest generalizing entries with
  | nil => exact nofun
  | cons e rest ih =>
    obtain ⟨he, hrest⟩ := List.forall_mem_cons.mp hrest
    have hnew := hentry entries e hentries he
    exact List.forall_mem_cons.mpr ⟨hnew, ih (List.forall_mem_append.mpr
      ⟨hentries, List.forall_mem_singleton.mpr hnew⟩) hrest⟩

theorem survives_foldl_iff (hf : f.Faithful) (entry : List α → α → α)
    (hentry : ∀ entries e, (∀ e ∈ entries, f.Fits e) → f.Fits e → f.Fits (entry entries e))
    (file : Bytes) {rest : List α} (hrest : ∀ e ∈ rest, f.Fits e) :
    (rest.foldl (fun x e => x.push f (entry x.entries e)) (openFile f file)).Survives f ↔
      f.encodeAll (written entry (f.readAll file) rest) <+:
        f.leftover file ++ f.encodeAll (written entry (f.readAll file) rest) := by
  rw [Survives, foldl_push]
  exact f.readAll_append_encodeAll_iff hf file (fits_written hentry fits_openFile hrest)

end IndexFile

theorem faithful_timeFormat : timeFormat.Faithful := by
  intro bytes (h : bytes.length = 16)
  have hoffset : put 8 (split 8 (split 8 bytes).2).1 = (split 8 bytes).2 :=
    put_split_self (by rw [split, List.length_drop, h])
  show put 8 (split 8 bytes).1 ++ put 8 (split 8 (split 8 bytes).2).1 = bytes
  rw [hoffset, put_split (by omega)]

theorem faithful_txnFormat : txnFormat.Faithful := by
  intro bytes (h : bytes.length = 24)
  have hid : (UInt64.ofNat (split 8 bytes).1).toNat = (split 8 bytes).1 :=
    UInt64.toNat_ofNat_of_lt' (split_fst_lt 8 bytes)
  have hrest : (split 8 bytes).2.length = 16 := by rw [split, List.length_drop, h]
  have hoffsets : put 8 (split 8 (split 8 bytes).2).1 ++
      put 8 (split 8 (split 8 (split 8 bytes).2).2).1 = (split 8 bytes).2 :=
    faithful_timeFormat _ hrest
  show put 8 (UInt64.ofNat (split 8 bytes).1).toNat ++ (put 8 _ ++ put 8 _) = bytes
  rw [hid]
  exact (congrArg (put 8 (split 8 bytes).1 ++ ·) hoffsets).trans (put_split (by omega))

def TxnIndexSegment.append (x : IndexFile TxnIndexEntry) (e : TxnIndexEntry) :
    IndexFile TxnIndexEntry :=
  x.push txnFormat e

/-- A time is not before the one ahead of it. -/
def TimeIndexSegment.clamped (entries : List TimeIndexEntry) (e : TimeIndexEntry) :
    TimeIndexEntry :=
  (TimeIndexEntry.append entries e.timestamp e.logicalOffset).getLastD e

def TimeIndexSegment.append (x : IndexFile TimeIndexEntry) (e : TimeIndexEntry) :
    IndexFile TimeIndexEntry :=
  x.push timeFormat (clamped x.entries e)

theorem fits_clamped (entries : List TimeIndexEntry) (e : TimeIndexEntry)
    (h : ∀ e ∈ entries, timeFormat.Fits e) (he : timeFormat.Fits e) :
    timeFormat.Fits (TimeIndexSegment.clamped entries e) := by
  rw [TimeIndexSegment.clamped, TimeIndexEntry.append]
  cases hlast : entries.getLast? with
  | none => simpa using he
  | some last =>
    have hfits := h last (List.mem_of_getLast? hlast)
    simpa using ⟨max_lt he.1 hfits.1, he.2⟩

/-- Entries that are appended to a file survive with its whole entries exactly if what was left of
a torn one does not shift them, or shifts them into themselves. -/
theorem survives_appends_iff (file : Bytes) :
    (∀ entries : List TxnIndexEntry, (∀ e ∈ entries, txnFormat.Fits e) →
      ((entries.foldl TxnIndexSegment.append (.openFile txnFormat file)).Survives txnFormat ↔
        txnFormat.encodeAll entries <+: txnFormat.leftover file ++ txnFormat.encodeAll entries)) ∧
    ∀ entries : List TimeIndexEntry, (∀ e ∈ entries, timeFormat.Fits e) →
      let new := IndexFile.written TimeIndexSegment.clamped (timeFormat.readAll file) entries
      ((entries.foldl TimeIndexSegment.append (.openFile timeFormat file)).Survives timeFormat ↔
        timeFormat.encodeAll new <+: timeFormat.leftover file ++ timeFormat.encodeAll new) := by
  constructor
  · intro entries hfits
    have hiff := IndexFile.survives_foldl_iff faithful_txnFormat (fun _ e => e)
      (fun _ _ _ he => he) file hfits
    rw [IndexFile.written_self] at hiff
    exact hiff
  · intro entries hfits
    exact IndexFile.survives_foldl_iff faithful_timeFormat _ fits_clamped file hfits

/-- Nothing is left over of a file of whole entries. -/
theorem survives_appends_whole :
    (TxnIndexSegment.append (.openFile txnFormat (txnFormat.encode ⟨7, 0, 2⟩))
      ⟨1, 3, 5⟩).Survives txnFormat :=
  ((survives_appends_iff (txnFormat.encode ⟨7, 0, 2⟩)).1 [⟨1, 3, 5⟩]
    (List.forall_mem_singleton.mpr ⟨by decide, by decide⟩)).mpr (by decide +kernel)

/-- A byte of an entry that was not written in full is taken for a part of the next one. -/
theorem not_survives_torn :
    ¬ (TxnIndexSegment.append (.openFile txnFormat [0]) ⟨1, 0, 5⟩).Survives txnFormat ∧
      ¬ (TimeIndexSegment.append (.openFile timeFormat [0]) ⟨1, 0⟩).Survives timeFormat := by
  unfold IndexFile.Survives
  decide +kernel

end Bifrox.Segment

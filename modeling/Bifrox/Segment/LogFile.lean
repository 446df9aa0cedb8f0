/-
Recovery of a segment file (`open_at_path_with_trust` in `src/segment/log.rs`, without trust).

The file is read in chunks, and whole batches are taken off the front of what was read until
there is something else: zeros, a torn batch, or bytes that are none.
-/
import Bifrox.Lib.FileSystem
import Bifrox.Lib.Incremental
import Bifrox.Protocol.BatchFrame
import Bifrox.Segment.Layout

namespace Bifrox
namespace Protocol

open BigEndian

namespace RecordBatch

variable {c : Crates}

theorem parse_append (magic : UInt8) {body : Bytes} {n : Nat}
    (h : batchLengthCoveredFixed + n ≤ body.length) (more : Bytes) :
    parse magic (body ++ more) n = parse magic body n := by
  obtain ⟨b, rest, hparse, rfl, rfl, hbase, rfl⟩ := exists_header magic h
  rw [hparse, List.append_assoc, List.append_assoc]
  exact parse_crcInput hbase _

theorem decode_append {src : Bytes}
    (h : ∀ required found, decode c src ≠ .error (.bufferTooShort required found))
    (more : Bytes) : decode c (src ++ more) = decode c src := by
  by_cases hshort : src.length < 5
  · exact absurd (decode_of_length_lt hshort) (h _ _)
  obtain ⟨magic, rest, rfl⟩ := List.exists_cons_of_ne_nil (List.ne_nil_of_length_pos
    (show 0 < src.length by omega))
  rw [List.length_cons] at hshort
  obtain ⟨length, body, -, rfl, -⟩ := exists_put (show 4 + 0 ≤ rest.length by omega)
  rw [decode_cons _ _ _ (length_put _ _)] at h ⊢
  rw [List.cons_append, List.append_assoc, decode_cons _ _ _ (length_put _ _)]
  split
  · rfl
  split
  · rfl
  next hmagic hmin =>
  rw [if_neg hmagic, if_neg hmin] at h
  have hroom : ¬ body.length < get (put 4 length) :=
    fun hlt => h _ _ (if_pos hlt)
  rw [if_neg hroom, if_neg (by rw [List.length_append]; omega), parse_append _ (by omega)]

end RecordBatch
end Protocol

namespace Segment

open BigEndian (Bytes)
open Incremental (Consumes Stable drain feed)
open Protocol
open RecordBatch (decode encode decode_append encode_of_decode withCrc)

/-- One entry off the front.  A header of zeros was allocated and not written; the scan waits
there as it does when bytes are missing. -/
def scanEntry (c : Crates) : Incremental.Parser RecordBatch := fun buf =>
  if buf.length < batchHeaderSize ∨ (buf.take batchHeaderSize).all (· == 0) then .short
  else
    match decode c buf with
    | .ok (b, entryLen) => .value b (buf.drop entryLen)
    | .error (.bufferTooShort _ _) => .short
    | .error _ => .corrupt

structure LogSegment where
  file : Bytes
  physicalSize : Nat
  nextOffset : Nat
  index : List IndexEntry
deriving DecidableEq

def nextOffsetAfter (baseOffset : Nat) (batches : List RecordBatch) : Nat :=
  match batches.getLast? with
  | some b => b.lastOffset + 1
  | none => baseOffset

/-- `open_at_path` of a file that is read in the given chunks.  It panics when the offset after a
batch is too large. -/
def openAtPath (c : Crates) (baseOffset indexInterval : Nat) (chunks : List Bytes) :
    Option LogSegment :=
  let scan := feed (scanEntry c) chunks
  -- at the end of the file what is left over is damaged, unless it begins with zeros
  let encounteredCorruption := scan.isCorrupt || !(scan.buf.take batchHeaderSize).all (· == 0)
  if scan.values.all fun b => b.lastOffset + 1 < 2 ^ 64 then
    some
      { file := if encounteredCorruption then chunks.flatten.take scan.lastGoodPos
          else chunks.flatten
        physicalSize := scan.lastGoodPos
        nextOffset := nextOffsetAfter baseOffset scan.values
        index := (rebuildIndex baseOffset indexInterval scan.values).map fun e =>
          { e with physicalPosition := e.physicalPosition % 2 ^ 32 } }
  else none

def encodeAll (batches : List RecordBatch) : Bytes := batches.flatMap encode

theorem length_encodeAll (batches : List RecordBatch) :
    (encodeAll batches).length = sizeOf batches := by
  rw [encodeAll, List.length_flatMap, sizeOf]
  exact congrArg List.sum (List.map_congr_left fun b _ => b.length_encode)

/-! ## The scan -/

variable {c : Crates} {batches : List RecordBatch} {tail : Bytes} {chunks : List Bytes}

section Scan

theorem scanEntry_encode {b : RecordBatch} (h : b.Valid c) (rest : Bytes) :
    scanEntry c (b.encode ++ rest) = .value b rest := by
  have hlong : ¬ ((b.encode ++ rest).length < batchHeaderSize ∨
      ((b.encode ++ rest).take batchHeaderSize).all (· == 0) = true) := by
    rw [not_or, Nat.not_lt]
    constructor
    · rw [List.length_append, b.length_encode, RecordBatch.encodedSize]
      omega
    · rw [b.encode_append rest, h.magic, batchHeaderSize, List.take_succ_cons, List.all_cons,
        show (batchMagicByte == 0) = false from rfl, Bool.false_and]
      exact Bool.false_ne_true
  rw [scanEntry, if_neg hlong, RecordBatch.decode_encode_append h.magic h.crc h.baseOffset_lt
    h.length_lt]
  simp only [List.drop_left]

theorem scanEntry_eq_value {buf rest : Bytes} {b : RecordBatch}
    (h : scanEntry c buf = .value b rest) :
    ∃ n, decode c buf = .ok (b, n) ∧ rest = buf.drop n ∧
      ¬ (buf.length < batchHeaderSize ∨ (buf.take batchHeaderSize).all (· == 0) = true) := by
  unfold scanEntry at h
  split at h
  · cases h
  · next hlong =>
    split at h
    · next b' n hok =>
      cases h
      exact ⟨n, hok, rfl, hlong⟩
    · cases h
    · cases h

theorem stable_scanEntry : Stable (scanEntry c) := by
  have hlong : ∀ {buf : Bytes} (more : Bytes), ¬ (buf.length < batchHeaderSize ∨
      (buf.take batchHeaderSize).all (· == 0) = true) → ¬ ((buf ++ more).length < batchHeaderSize ∨
        ((buf ++ more).take batchHeaderSize).all (· == 0) = true) := by
    intro buf more h
    rw [not_or, Nat.not_lt] at h ⊢
    rw [List.take_append_of_le_length h.1, List.length_append]
    exact ⟨by omega, h.2⟩
  constructor
  · intro buf b rest more h
    obtain ⟨n, hok, rfl, hcheck⟩ := scanEntry_eq_value h
    rw [scanEntry, if_neg (hlong more hcheck), decode_append (by simp [hok]), hok]
    simp only [List.drop_append_of_le_length (encode_of_decode hok).2.1]
  · intro buf more h
    unfold scanEntry at h
    split at h
    · cases h
    · next hcheck =>
      have hshort : ∀ required found,
          decode c buf ≠ .error (.bufferTooShort required found) := by
        intro required found heq
        simp [heq] at h
      rw [scanEntry, if_neg (hlong more hcheck), decode_append hshort]
      cases hdecode : decode c buf with
      | ok => simp [hdecode] at h
      | error e =>
        cases e with
        | bufferTooShort required found => exact absurd hdecode (hshort required found)
        | _ => rfl

theorem consumes_scanEntry : Consumes (scanEntry c) := by
  intro buf b rest h
  obtain ⟨n, hok, rfl, -⟩ := scanEntry_eq_value h
  obtain ⟨hencode, hle, -⟩ := encode_of_decode hok
  have hlen := congrArg List.length hencode
  rw [b.length_encode, List.length_take, Nat.min_eq_left hle] at hlen
  have hpos := encodedSize_pos b
  rw [List.length_drop]
  omega

theorem feed_encodeAll (hvalid : ∀ b ∈ batches, b.Valid c) (htail : ∀ r, decode c tail ≠ .ok r)
    (hfile : chunks.flatten = encodeAll batches ++ tail) :
    let s := feed (scanEntry c) chunks
    s.values = batches ∧ s.lastGoodPos = (encodeAll batches).length ∧
      (s.isCorrupt = true → scanEntry c tail = .corrupt) ∧
      (s.isCorrupt = false → s.buf = tail) := by
  refine Incremental.feed_flatMap consumes_scanEntry stable_scanEntry
    (fun b hb => scanEntry_encode (hvalid b hb)) (fun b rest hscan => ?_) hfile
  obtain ⟨n, hok, -⟩ := scanEntry_eq_value hscan
  exact htail _ hok

end Scan

theorem scanIndex_ascending (base interval position bytesSince : Nat) (isFirst : Bool)
    (log : List RecordBatch) :
    (∀ e ∈ scanIndex base interval position bytesSince isFirst log, position ≤ e.physicalPosition) ∧
      (scanIndex base interval position bytesSince isFirst log).Pairwise
        fun e e' => e.physicalPosition < e'.physicalPosition := by
  induction log generalizing position bytesSince isFirst with
  | nil => exact ⟨nofun, List.Pairwise.nil⟩
  | cons b log ih =>
    have hpos := encodedSize_pos b
    rw [scanIndex]
    split
    · obtain ⟨hle, hlt⟩ := ih (position + b.encodedSize) b.encodedSize false
      refine ⟨fun e he => ?_, List.pairwise_cons.mpr ⟨fun e he => ?_, hlt⟩⟩
      · rcases List.mem_cons.mp he with rfl | he
        · exact Nat.le_refl _
        · exact (Nat.le_add_right _ _).trans (hle e he)
      · exact Nat.lt_of_lt_of_le (Nat.lt_add_of_pos_right hpos) (hle e he)
    · obtain ⟨hle, hlt⟩ := ih (position + b.encodedSize) (bytesSince + b.encodedSize) false
      exact ⟨fun e he => (Nat.le_add_right _ _).trans (hle e he), hlt⟩

/-! ## What is recovered -/

/-- What the scan of a file with these batches and this tail leads to. -/
def recovered (baseOffset indexInterval : Nat) (batches : List RecordBatch) (tail : Bytes) :
    LogSegment where
  file := encodeAll batches ++ if (tail.take batchHeaderSize).all (· == 0) then tail else []
  physicalSize := (encodeAll batches).length
  nextOffset := nextOffsetAfter baseOffset batches
  index := rebuildIndex baseOffset indexInterval batches

section Recovery

variable {c : Crates} {baseOffset indexInterval : Nat} {batches : List RecordBatch} {tail : Bytes}
  (hvalid : ∀ b ∈ batches, b.Valid c) (htail : ∀ r, decode c tail ≠ .ok r)
  (hsize : (encodeAll batches ++ tail).length < 2 ^ 32)
include hvalid htail hsize

theorem openAtPath_eq (hfile : chunks.flatten = encodeAll batches ++ tail) :
    openAtPath c baseOffset indexInterval chunks =
      if batches.all fun b => b.lastOffset + 1 < 2 ^ 64 then
        some (recovered baseOffset indexInterval batches tail)
      else none := by
  obtain ⟨hvalues, hpos, hcorrupt, hbuf⟩ := feed_encodeAll hvalid htail hfile
  have hindex : (rebuildIndex baseOffset indexInterval batches).map (fun e =>
      { e with physicalPosition := e.physicalPosition % 2 ^ 32 }) =
        rebuildIndex baseOffset indexInterval batches := by
    refine (List.map_congr_left fun e he => ?_).trans (List.map_id _)
    obtain ⟨pre, b, post, hlog, rfl⟩ := (rebuildIndex_sound _ _ _).boundary e he
    have hle : sizeOf pre % 2 ^ 32 = sizeOf pre := by
      rw [List.length_append, length_encodeAll, hlog, sizeOf_append] at hsize
      exact Nat.mod_eq_of_lt (by omega)
    simp only [IndexEntry.at, hle, id_eq]
  have hend : ((feed (scanEntry c) chunks).isCorrupt ||
      !((feed (scanEntry c) chunks).buf.take batchHeaderSize).all (· == 0)) =
        !(tail.take batchHeaderSize).all (· == 0) := by
    cases hc : (feed (scanEntry c) chunks).isCorrupt with
    | true =>
      have hzero : (tail.take batchHeaderSize).all (· == 0) = false := by
        refine Bool.eq_false_iff.mpr fun hzero => ?_
        have hscan := hcorrupt hc
        rw [scanEntry, if_pos (.inr hzero)] at hscan
        cases hscan
      rw [hzero, Bool.true_or, Bool.not_false]
    | false => rw [hbuf hc, Bool.false_or]
  simp only [openAtPath, hend, hvalues, hpos, hindex, hfile, List.take_left, recovered]
  cases (tail.take batchHeaderSize).all (· == 0) <;> simp

/-- The scan recovers the batches before the tail, from any chunks and again from the file that
it leaves, exactly if the offset after each of them is a number of 64 bits. -/
theorem recovers_iff : (∃ r, (∀ chunks, chunks.flatten = encodeAll batches ++ tail →
        openAtPath c baseOffset indexInterval chunks = some r) ∧
      r.physicalSize = (encodeAll batches).length ∧
      r.nextOffset = nextOffsetAfter baseOffset batches ∧
      IndexSound baseOffset batches r.index ∧
      r.index.Pairwise (fun e e' => e.physicalPosition < e'.physicalPosition) ∧
      ∀ chunks, chunks.flatten = r.file → openAtPath c baseOffset indexInterval chunks = some r) ↔
      ∀ b ∈ batches, b.lastOffset + 1 < 2 ^ 64 := by
  have hopen (chunks : List Bytes) (hfile : chunks.flatten = encodeAll batches ++ tail) :
      openAtPath c baseOffset indexInterval chunks = _ := openAtPath_eq hvalid htail hsize hfile
  constructor
  · rintro ⟨r, hr, -⟩
    have hone := (hopen [encodeAll batches ++ tail] (by simp)).symm.trans (hr _ (by simp))
    split at hone
    · next hall => simpa using hall
    · cases hone
  · intro hoffsets
    have hall : (batches.all fun b => b.lastOffset + 1 < 2 ^ 64) = true := by simpa using hoffsets
    refine ⟨recovered baseOffset indexInterval batches tail, fun chunks hfile => ?_, rfl, rfl,
      rebuildIndex_sound _ _ _, (scanIndex_ascending _ _ _ _ _ _).2, fun chunks hfile => ?_⟩
    · rw [hopen chunks hfile, if_pos hall]
    · -- The file is as before, or has lost its tail.
      rw [recovered] at hfile
      dsimp only at hfile
      split at hfile
      · rw [hopen chunks hfile, if_pos hall]
      · next hdirty =>
        have hempty : ∀ r, decode c [] ≠ .ok r := fun r h => nomatch h
        rw [openAtPath_eq hvalid hempty (by rw [List.length_append] at hsize ⊢; simp; omega) hfile,
          if_pos hall, recovered, recovered, if_neg hdirty]
        rfl

end Recovery

/-- A batch and the first byte of another. -/
theorem recovers_torn : ∃ r,
    (∀ chunks, chunks.flatten = encodeAll [.keyed 1 none] ++ [batchMagicByte] →
      openAtPath .storing 0 4096 chunks = some r) ∧ r.physicalSize = 74 ∧ r.nextOffset = 1 := by
  have hvalid : ∀ b ∈ [RecordBatch.keyed 1 none], b.Valid .storing := by
    intro b hb
    rw [List.mem_singleton.mp hb]
    exact ⟨rfl, rfl, by decide, by decide⟩
  have htail : ∀ r, decode .storing [batchMagicByte] ≠ .ok r := fun r h => nomatch h
  obtain ⟨r, hopen, hsize, hnext, -⟩ :=
    (recovers_iff hvalid htail (by decide)).mpr (by decide)
  exact ⟨r, hopen, hsize.trans (by decide), hnext⟩

def lastBatch : RecordBatch :=
  withCrc .storing { RecordBatch.keyed 1 none with baseOffset := 2 ^ 64 - 1 }

theorem openAtPath_lastBatch :
    lastBatch.Valid .storing ∧ openAtPath .storing 0 4096 [lastBatch.encode] = none :=
  ⟨⟨rfl, rfl, by decide, by decide⟩, by decide +kernel⟩

/-! ## Appends after a recovery -/

def LogSegment.appendBytes (s : LogSegment) (bytes : Bytes) : LogSegment :=
  { s with file := FileSystem.overwrite s.file s.physicalSize bytes
           physicalSize := s.physicalSize + bytes.length }

def LogSegment.appendAll (s : LogSegment) (batches : List RecordBatch) : LogSegment :=
  batches.foldl (fun s b => s.appendBytes b.encode) s

section Appends

theorem file_appendAll {s : LogSegment} {front back : Bytes} (hfile : s.file = front ++ back)
    (hsize : s.physicalSize = front.length) (batches : List RecordBatch) :
    (s.appendAll batches).file =
      front ++ encodeAll batches ++ back.drop (encodeAll batches).length := by
  induction batches generalizing s front back with
  | nil => simp [LogSegment.appendAll, encodeAll, hfile]
  | cons b batches ih =>
    have hnext : (s.appendBytes b.encode).file =
        front ++ b.encode ++ back.drop b.encode.length := by
      simp [LogSegment.appendBytes, hfile, hsize, FileSystem.overwrite, List.drop_append]
    have hrest := ih hnext (by simp [LogSegment.appendBytes, hsize])
    simpa [LogSegment.appendAll, encodeAll, Nat.add_comm] using hrest

theorem exists_encodeAll (c : Crates) (file : Bytes) : ∃ batches tail,
    file = encodeAll batches ++ tail ∧ (∀ b ∈ batches, b.Valid c) ∧
      ∀ r, decode c tail ≠ .ok r := by
  induction hn : file.length using Nat.strongRecOn generalizing file with
  | _ n ih =>
    cases hdecode : decode c file with
    | error => exact ⟨[], file, rfl, by simp, by simp [hdecode]⟩
    | ok r =>
      obtain ⟨hencode, hle, hvalid⟩ := encode_of_decode hdecode
      have hlen := congrArg List.length hencode
      rw [r.1.length_encode, List.length_take, Nat.min_eq_left hle] at hlen
      have hpos := encodedSize_pos r.1
      obtain ⟨batches, tail, hfile, hvalids, htail⟩ :=
        ih _ (by rw [← hn, List.length_drop]; omega) (file.drop r.2) rfl
      refine ⟨r.1 :: batches, tail, ?_, List.forall_mem_cons.mpr ⟨hvalid, hvalids⟩, htail⟩
      rw [encodeAll, List.flatMap_cons, List.append_assoc, ← encodeAll, ← hfile, hencode,
        List.take_append_drop]

theorem eq_nil_iff_of_encodeAll {bytes : Bytes} (hbytes : bytes = encodeAll batches ++ tail)
    (hvalid : ∀ b ∈ batches, b.Valid c) (htail : ∀ r, decode c tail ≠ .ok r) :
    batches = [] ↔ ∀ r, decode c bytes ≠ .ok r := by
  subst hbytes
  cases batches with
  | nil => exact iff_of_true rfl htail
  | cons b batches =>
    obtain ⟨hb, -⟩ := List.forall_mem_cons.mp hvalid
    refine iff_of_false (List.cons_ne_nil _ _) fun h => ?_
    rw [encodeAll, List.flatMap_cons, List.append_assoc] at h
    exact h _ (RecordBatch.decode_encode_append hb.magic hb.crc hb.baseOffset_lt hb.length_lt _)

/-- The batches appended after an open are found behind those that it has found and before none,
exactly if no old batch begins where they end. -/
theorem values_appendAll_iff {baseOffset indexInterval : Nat} {chunks chunks' : List Bytes}
    {s : LogSegment} (hopen : openAtPath c baseOffset indexInterval chunks = some s)
    {batches : List RecordBatch} (hbatches : ∀ b ∈ batches, b.Valid c)
    (hchunks : chunks'.flatten = (s.appendAll batches).file) :
    (feed (scanEntry c) chunks').values = (feed (scanEntry c) chunks).values ++ batches ↔
      ∀ r, decode c (s.file.drop (s.physicalSize + (encodeAll batches).length)) ≠ .ok r := by
  obtain ⟨old, tail, hfile, hold, htail⟩ := exists_encodeAll c chunks.flatten
  obtain ⟨hvalues, hpos, -⟩ := feed_encodeAll hold htail hfile
  -- the file is left as it is or is cut after the last batch
  obtain ⟨back, hback, hsize⟩ : ∃ back, s.file = encodeAll old ++ back ∧
      s.physicalSize = (encodeAll old).length := by
    simp only [openAtPath] at hopen
    split at hopen
    · rw [← Option.some.inj hopen, hfile, hpos]
      dsimp only
      split
      · exact ⟨[], by simp, rfl⟩
      · exact ⟨tail, rfl, rfl⟩
    · cases hopen
  obtain ⟨stale, tail', hrest, hstale, htail'⟩ :=
    exists_encodeAll c (back.drop (encodeAll batches).length)
  have hall : ∀ b ∈ old ++ batches ++ stale, b.Valid c :=
    List.forall_mem_append.mpr ⟨List.forall_mem_append.mpr ⟨hold, hbatches⟩, hstale⟩
  have hchunks' : chunks'.flatten = encodeAll (old ++ batches ++ stale) ++ tail' := by
    rw [hchunks, file_appendAll hback hsize, hrest]
    simp [encodeAll]
  rw [(feed_encodeAll hall htail' hchunks').1, hvalues, hback, hsize, ← List.drop_drop,
    List.drop_left, ← eq_nil_iff_of_encodeAll hrest hstale htail']
  exact List.append_right_eq_self

end Appends

/-- What is left of a batch is cut off, and the next one is written in its place. -/
theorem values_appendAll_torn : (feed (scanEntry .storing)
      [(LogSegment.appendAll ⟨[], 0, 0, []⟩ [RecordBatch.keyed 1 none]).file]).values =
      (feed (scanEntry .storing) [[batchMagicByte]]).values ++ [RecordBatch.keyed 1 none] :=
  (values_appendAll_iff (show openAtPath .storing 0 4096 [[batchMagicByte]] = _ by decide +kernel)
    (List.forall_mem_singleton.mpr ⟨rfl, rfl, by decide, by decide⟩)
    (List.append_nil _)).mpr (by simp [decode])

/-- A gap of zeros with an old batch behind it. -/
def gapped : Bytes := List.replicate 74 0 ++ (RecordBatch.keyed 1 none).encode

/-- The batch that is appended fills the gap, and the next open goes on to the old one. -/
theorem values_appendAll_gapped : ∃ s, openAtPath .storing 0 4096 [gapped] = some s ∧
    (feed (scanEntry .storing) [gapped]).values = [] ∧
    (feed (scanEntry .storing) [(s.appendAll [RecordBatch.keyed 1 none]).file]).values =
      [RecordBatch.keyed 1 none, RecordBatch.keyed 1 none] :=
  ⟨⟨gapped, 0, 0, []⟩, by decide +kernel, by decide +kernel, by decide +kernel⟩

end Segment
end Bifrox

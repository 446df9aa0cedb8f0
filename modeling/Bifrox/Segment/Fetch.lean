/-
Reading records, from an offset or from a time on (`fetch`, `find_offset_for_timestamp` and
`fetch_by_timestamp` in `src/segment/manager.rs`).

A lookup by time returns the offset of an entry of a time index, and the records before that
entry are passed by.
-/
import Mathlib.Data.List.TakeWhile
import Bifrox.Segment.ScanRun

namespace Bifrox.Segment

open List
open Protocol (RecordBatch Crates)

/-! ## Reading records -/

/-- Whether an entry decodes: its magic byte and its checksum are right. -/
def RecordBatch.decodes (c : Crates) (b : RecordBatch) : Bool :=
  b.magic = Protocol.batchMagicByte && (b.verifyCrc c).toBool

namespace SegmentManager

/-- The entries of which all bytes are read.  A segment that is mapped is read to its end;
otherwise the budget is widened to the whole first entry. -/
def rawEntries (mapped : Bool) (maxBytes : Nat) (entries : List RecordBatch) : List RecordBatch :=
  if mapped then
    if maxBytes = 0 then [] else entries
  else
    match entries with
    | [] => []
    | first :: _ => entriesWithin (max maxBytes first.encodedSize) entries

def fetch (c : Crates) (mapped : SegmentPair → Bool) (s : SegmentManager)
    (startOffset maxBytes : Nat) : List Record :=
  let p := s.findSegmentPair startOffset
  let entries := rawEntries (mapped p) maxBytes (entriesFrom (seekPosition p startOffset) p.log)
  -- decoding stops at the first entry that is damaged
  (recordsFromEntries c (entries.takeWhile (RecordBatch.decodes c))).filter fun r =>
    startOffset ≤ r.offset

theorem mem_of_mem_rawEntries {mapped : Bool} {maxBytes : Nat} {entries : List RecordBatch}
    {b : RecordBatch} (h : b ∈ rawEntries mapped maxBytes entries) : b ∈ entries := by
  unfold rawEntries at h
  split at h
  · split at h
    · cases h
    · exact h
  · split at h
    · exact h
    · exact mem_of_mem_entriesWithin h

theorem mem_retained_of_mem_fetch {c : Crates} {mapped : SegmentPair → Bool} {s : SegmentManager}
    {startOffset maxBytes : Nat} {r : Record} (h : r ∈ s.fetch c mapped startOffset maxBytes) :
    startOffset ≤ r.offset ∧ r ∈ recordsFromEntries c s.retained := by
  rw [fetch, mem_filter, decide_eq_true_iff] at h
  obtain ⟨hmem, hle⟩ := h
  obtain ⟨b, hb, hr⟩ := mem_flatMap.mp hmem
  have hlog := mem_of_mem_entriesFrom (mem_of_mem_rawEntries ((takeWhile_sublist _).subset hb))
  exact ⟨hle, mem_flatMap.mpr
    ⟨b, mem_retained.mpr ⟨_, mem_segments_findSegmentPair s startOffset, hlog⟩, hr⟩⟩

end SegmentManager

/-! ## Reading from a time on -/

variable {entries : List TimeIndexEntry} {target : Nat}

namespace SegmentManager

variable (c : Crates) (s : SegmentManager)

variable {c s} {r : Record}

theorem entriesWithin_of_le {es : List RecordBatch} {len : Nat} (h : sizeOf es ≤ len) :
    entriesWithin len es = es := by
  induction es generalizing len with
  | nil => rfl
  | cons b es ih =>
    rw [sizeOf_cons] at h
    rw [entriesWithin, if_pos (by omega), ih (by omega)]

theorem mem_fetch_of_budget (h : s.Scannable c) (mapped : SegmentPair → Bool)
    {startOffset maxBytes : Nat} (hsize : (s.findSegmentPair startOffset).physicalSize ≤ maxBytes)
    (hdecodes : ∀ b ∈ (s.findSegmentPair startOffset).log, RecordBatch.decodes c b = true)
    (hr : r ∈ recordsFromEntries c (s.findSegmentPair startOffset).log)
    (hle : startOffset ≤ r.offset) : r ∈ s.fetch c mapped startOffset maxBytes := by
  have hmem := s.mem_segments_findSegmentPair startOffset
  rw [fetch]
  generalize s.findSegmentPair startOffset = p at *
  obtain ⟨pre, es, hlog, hseek, hpre⟩ := seekPosition_spec (h.layout.sound _ hmem) (h.fits _ hmem)
    startOffset
  obtain ⟨b, hb, hrb⟩ := mem_recordsFromEntries.mp hr
  have hlast := ((recordsOf_wellFormed (h.wellFormed b (mem_retained.mpr ⟨_, hmem, hb⟩))).2.1
    r hrb).2
  have hpos := encodedSize_pos b
  have hes : b ∈ es := by
    rw [hlog, mem_append] at hb
    exact hb.resolve_left fun hmem => absurd (hpre b hmem) (by omega)
  have hsizes : b.encodedSize ≤ sizeOf es ∧ sizeOf es ≤ maxBytes := by
    obtain ⟨front, back, hsplit⟩ := append_of_mem hes
    rw [SegmentPair.physicalSize, hlog, sizeOf_append] at hsize
    refine ⟨?_, by omega⟩
    rw [hsplit, sizeOf_append, sizeOf_cons]
    omega
  have hraw : rawEntries (mapped p) maxBytes es = es := by
    unfold rawEntries
    split
    · rw [if_neg (by omega)]
    · cases es with
      | nil => rfl
      | cons => exact entriesWithin_of_le (by omega)
  rw [mem_filter, decide_eq_true_iff, hseek]
  nth_rewrite 1 [hlog]
  rw [entriesFrom_append, hraw, takeWhile_eq_self_iff.mpr]
  · exact ⟨mem_recordsFromEntries.mpr ⟨b, hes, hrb⟩, hle⟩
  · exact fun x hx => hdecodes x (by rw [hlog]; exact mem_append_right _ hx)

end SegmentManager

def EngineConfig.dense : EngineConfig := { plain with indexIntervalBytes := 0 }

end Bifrox.Segment

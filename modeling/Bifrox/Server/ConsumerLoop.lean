/-
Consumer loops (`fetch_with_isolation` in `src/client.rs`, `GroupConsumer::poll` in
`src/consumer.rs`).

The broker chooses the entries of an answer by their size alone, and the client then drops
markers, aborted records and entries that do not decode.
-/
import Bifrox.Lib.Cursor
import Bifrox.Segment.ScanRun
import Bifrox.Server.ReadCommitted

namespace Bifrox.Server

open Protocol (Crates)
open Segment

inductive IsolationLevel where
  | readUncommitted
  | readCommitted
deriving DecidableEq

namespace TxEngine

/-- The broker's answer.  A reader of uncommitted data is told to filter nothing. -/
def fetchResponse (s : TxEngine) (isolation : IsolationLevel) (offset maxBytes : Nat) :
    FetchResponse :=
  match isolation with
  | .readUncommitted =>
    { lastStableOffset := noOffset
      aborted := []
      entries := s.partition.fetchEntries offset maxBytes }
  | .readCommitted => fetchReadCommitted s.manager s.partition offset maxBytes

variable (c : Crates)

def fetchWithIsolation (s : TxEngine) (isolation : IsolationLevel)
    (maxBytes offset : Nat) : List Record :=
  decodeFetchEntriesRecords c (s.fetchResponse isolation offset maxBytes) offset
    (isolation = .readCommitted)

/-- A data record below the last stable offset, of a committed batch, and for a reader of
committed data not in an aborted range. -/
def Visible (s : TxEngine) (isolation : IsolationLevel) (r : Record) : Prop :=
  (∃ b ∈ s.partition.log.retained, b.lastOffset < s.partition.committedHw ∧ r ∈ recordsOf c b) ∧
    r.isControl = false ∧ r.offset < s.manager.lastStableOffset ∧
    (isolation = .readCommitted → ∀ range ∈ (readCommittedFilter s.manager s.partition).2,
        ¬ (range.1 ≤ r.offset ∧ r.offset ≤ range.2))

/-- The client keeps the record, if it decodes. -/
def Keeps (s : TxEngine) (isolation : IsolationLevel) (r : Record) : Prop :=
  isolation = .readCommitted → r.isControl = false ∧ r.offset < s.manager.lastStableOffset ∧
    ∀ range ∈ (readCommittedFilter s.manager s.partition).2,
      ¬ (range.1 ≤ r.offset ∧ r.offset ≤ range.2)

/-- Each committed batch with a visible record after it ends in a record that the client keeps. -/
def EndsKept (s : TxEngine) (isolation : IsolationLevel) : Prop :=
  ∀ b ∈ s.partition.log.retained, b.lastOffset < s.partition.committedHw →
    (∃ a, s.Visible c isolation a ∧ b.lastOffset < a.offset) →
      ∃ r ∈ recordsOf c b, r.offset = b.lastOffset ∧ s.Keeps isolation r

variable {c : Crates} {s : TxEngine} {isolation : IsolationLevel} {maxBytes next : Nat}
  {r : Record}

/-! ## Answers -/

theorem mem_fetchWithIsolation : r ∈ s.fetchWithIsolation c isolation maxBytes next ↔
    (∃ b ∈ s.partition.fetchEntries next maxBytes, r ∈ recordsOf c b) ∧ next ≤ r.offset ∧
      s.Keeps isolation r := by
  rw [fetchWithIsolation, decodeFetchEntriesRecords, List.mem_filter, Keeps]
  refine and_congr ?_ ?_
  · cases isolation <;> exact mem_recordsFromEntries
  · cases isolation with
    | readUncommitted => simp
    | readCommitted => simp [fetchResponse, fetchReadCommitted, readCommittedFilter]

theorem Visible.keeps (h : s.Visible c isolation r) : s.Keeps isolation r :=
  fun hcommitted => ⟨h.2.1, h.2.2.1, h.2.2.2 hcommitted⟩

/-! ## Whole loops -/

section Log

variable (hlayout : s.partition.log.Layout c)
  (hfits : ∀ p ∈ s.partition.log.segments, SegmentManager.FitsIndex p)
  (hgap : s.partition.log.NoBoundaryGap)
include hlayout hfits hgap

theorem EndsKept.advances (h : s.EndsKept c isolation) (maxBytes next : Nat) :
    Cursor.Advances Record.offset (s.fetchWithIsolation c isolation maxBytes)
      (s.Visible c isolation) next := by
  intro a ha hnext
  obtain ⟨own, hown, hcommitted, hmem⟩ := ha.1
  have hle := hlayout.offset_le hown hmem
  obtain ⟨before, b, after, hret, hbefore, hb, hbown⟩ :=
    hlayout.exists_first hown (hnext.trans hle)
  obtain ⟨taken, rest, rfl, -, hfetch⟩ := SegmentManager.fetchEntries_of_wanted hlayout hfits
    (SegmentManager.exists_wanted hlayout hgap hret hb) maxBytes hret hbefore hb
    (Nat.lt_of_le_of_lt hbown hcommitted)
  have hentries : s.partition.fetchEntries next maxBytes = b :: taken := hfetch
  have hinc := hlayout.retained_increasing
  rw [hret, ← List.cons_append, ← List.append_assoc] at hown hinc
  rcases List.mem_append.mp hown with hfetched | hlater
  · refine .inl (mem_fetchWithIsolation.mpr ⟨⟨own, ?_, hmem⟩, hnext, ha.keeps⟩)
    rw [hentries]
    refine (List.mem_append.mp hfetched).resolve_left fun hskipped => ?_
    have hlt := hbefore own hskipped
    omega
  · have hbelow : ∀ x ∈ b :: taken, x.lastOffset < a.offset := fun x hx => Nat.lt_of_lt_of_le
      ((List.pairwise_append.mp hinc).2.2 x (List.mem_append_right _ hx) own hlater)
      (base_le_of_mem_recordsOf hmem).1
    obtain ⟨r, hr, hlast, hkeeps⟩ := h b (by rw [hret]; simp)
      (Nat.lt_of_le_of_lt hbown hcommitted) ⟨a, ha, hbelow b List.mem_cons_self⟩
    have hgot : r ∈ s.fetchWithIsolation c isolation maxBytes next := mem_fetchWithIsolation.mpr
      ⟨⟨b, by rw [hentries]; exact List.mem_cons_self, hr⟩, by omega, hkeeps⟩
    obtain ⟨last, hlast⟩ := Option.ne_none_iff_exists'.mp
      (mt List.getLast?_eq_none_iff.mp (List.ne_nil_of_mem hgot))
    obtain ⟨⟨x, hx, hlastx⟩, -⟩ := mem_fetchWithIsolation.mp (List.mem_of_getLast? hlast)
    rw [hentries] at hx
    refine .inr ⟨last, hlast, Nat.lt_of_le_of_lt (hlayout.offset_le ?_ hlastx) (hbelow x hx)⟩
    rw [hret, ← List.cons_append]
    exact List.mem_append_right _ (List.mem_append_left _ hx)

end Log

/-- Two records of no transaction. -/
def twoRecords : List TxEvent := [.produce ⟨numbered 0 0 1, 1⟩ 0, .produce ⟨numbered 0 0 1, 1⟩ 0]

end TxEngine
end Bifrox.Server

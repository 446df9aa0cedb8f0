/-
What a restart finds of the committed offsets.

Calls that keep out of each other's way leave a log from which the map is read back.
-/
import Bifrox.ConsumerGroup.Coherence

namespace Bifrox.ConsumerGroup
namespace Manager

open Run List Function FileSystem
open Incremental (Bytes feed)

variable {Thread : Type} [DecidableEq Thread] {crc : Checksum} {m : Manager Thread} {t : Thread}

/-! ## Reopening after calls that took turns -/

section

variable (h : m.Coherent crc)
include h

theorem Coherent.commit {c : Commit}
    (hop : m.Orderly (t, .commit c)) (ht : m.phase t = .idle) : (m.insert t c).Coherent crc := by
  obtain ⟨hfits, hquiet, hkey⟩ := hop ht
  cases h with
  | serving entries synced h => exact .serving entries synced (h.insert ht hfits hkey)
  | compacting t₀ hlock hothers hstage =>
    have hbusy := isCompacting_of_stage hstage
    rw [hquiet t₀] at hbusy
    cases hbusy

theorem Coherent.compact (hidle : ∀ t, m.phase t = .idle) : (m.startScan t none).Coherent crc := by
  cases h with
  | serving entries synced h =>
    rcases h.lock with ⟨hlock, hsynced, -⟩ | ⟨t₀, c, before, -, -, -, hphase⟩
    · have hscan := coherent_startScan (t := t) h hsynced (fun t' _ => hidle t')
        (by simp [hidle t]) none
      have heq : ({ m.startScan t none with lock := none } : Manager Thread) =
          m.startScan t none := by
        rw [← hlock]
        rfl
      exact heq ▸ hscan
    · rcases hphase with ⟨hp, -⟩ | ⟨hp, -⟩ <;> rw [hidle t₀] at hp <;> cases hp
  | compacting t₀ hlock hothers hstage =>
    rw [hidle t₀] at hstage
    exact hstage.elim

theorem Coherent.scan {call : Option Commit} {started : List GroupKey}
    {collected : List Commit} (ht : m.phase t = .scanning call started collected) (key : GroupKey) :
    (m.scan t call started collected key).Coherent crc := by
  obtain ⟨hlock, hothers, hstage⟩ := h.stage ht rfl
  have hnext := hstage.scan ht key
  unfold Manager.scan at hnext ⊢
  split
  · exact h
  · next entry hentry =>
    split
    · exact h
    · next hnew =>
      simp only [hentry, hnew, if_false] at hnext
      exact .compacting t hlock (others_setPhase hothers) hnext

theorem Coherent.step (op : Thread × Action) (hop : m.Orderly op) :
    (m.step crc op).Coherent crc := by
  obtain ⟨t, action⟩ := op
  cases action with
  | commit c =>
    show (if m.phase t = .idle then m.insert t c else m).Coherent crc
    split
    · next ht => exact h.commit hop ht
    · exact h
  | compact =>
    show (if m.phase t = .idle then m.startScan t none else m).Coherent crc
    split
    · next ht => exact h.compact (hop ht)
    · exact h
  | scan key =>
    cases hphase : m.phase t with
    | scanning call started collected =>
      have heq : m.step crc (t, .scan key) = m.scan t call started collected key := by
        simp only [Manager.step, hphase]
      rw [heq]
      exact h.scan hphase key
    | _ =>
      have heq : m.step crc (t, .scan key) = m := by simp only [Manager.step, hphase]
      rw [heq]
      exact h
  | advance => exact h.advance hop

/-- Once every call has returned, and none with an error, reopening the log gives the
map. -/
def ReopensAsHeld (crc : Checksum) (m : Manager Thread) : Prop :=
  (∀ t, m.phase t = .idle) → m.failed = false →
    ∀ key, (openLog crc m.disk).2.2.lookup key = m.offsets.lookup key

omit [DecidableEq Thread] in
theorem Coherent.reopensAsHeld : m.ReopensAsHeld crc := by
  intro hidle _ key
  cases h with
  | serving entries synced h =>
    rw [openLog_offsets h.inPlace.dir, h.inPlace.data, recover_encodeEntries h.inPlace.fits]
    apply h.lookup key
    intro t entry
    rw [hidle t]
    simp
  | compacting t₀ hlock hothers hstage =>
    rw [hidle t₀] at hstage
    exact hstage.elim

end

/-- In every interleaving of orderly steps, from any disk as a restart finds it, what
is reopened is what is held whenever all calls have returned. -/
theorem reopensAsHeld_of_orderly (crc : Checksum) (disk : Disk) (ops : List (Thread × Action))
    (hops : Run.Guarded (step crc) Orderly (Manager.open crc Thread disk.crash) ops) :
    Run.Always (step crc) (ReopensAsHeld crc) (Manager.open crc Thread disk.crash) ops :=
  Run.Guarded.always (fun _ h => h.reopensAsHeld) (fun _ op h hop => h.step op hop)
    (coherent_open disk) hops

/-! ### Two commits of one key -/

theorem length_encodeEntry (crc : Checksum) (c : Commit) : (encodeEntry crc c).length =
      23 + c.1.groupId.utf8.length + c.1.topic.utf8.length + c.2.metadata.utf8.length := by
  simp only [encodeEntry, length_cons, length_append, BigEndian.length_put]
  omega

/-- The three steps that bring an entry from the map to a log that stays small. -/
def appended (t : Thread) : List (Thread × Action) :=
  [(t, .advance), (t, .advance), (t, .advance)]

theorem run_appended {entries synced : List Commit} {c : Commit}
    (hplace : m.InPlace crc entries synced) (hlock : m.lock = none) (ht : m.phase t = .inserted c)
    (hc : Fits c) (hsmall : (encodeEntries crc (entries ++ [c])).length ≤ compactionThreshold) :
    let m' := run (step crc) m (appended t)
    m'.InPlace crc (entries ++ [c]) (entries ++ [c]) ∧ m'.lock = none ∧ m'.offsets = m.offsets ∧
      m'.phase = update m.phase t .idle ∧ m'.acknowledged = m.acknowledged ++ [c] ∧
      m'.failed = m.failed ∧ Run.Guarded (step crc) Orderly m (appended t) := by
  intro m'
  set m₁ := m.writeEntry crc t c
  set m₂ : Manager Thread :=
      { m₁.setPhase t (.synced c) with disk := m₁.disk.sync m₁.logFile.inode }
  have h₁ : m.step crc (t, .advance) = m₁ := by
    show m.advance crc t = m₁
    simp only [advance, ht, hlock, if_true]
    rfl
  have hphase₁ : m₁.phase t = .written c := setPhase_phase_self m t _
  have h₂ : m₁.step crc (t, .advance) = m₂ := by
    show m₁.advance crc t = m₂
    simp only [advance, hphase₁]
    rfl
  have hphase₂ : m₂.phase t = .synced c := setPhase_phase_self m₁ t _
  have hplace₂ : m₂.InPlace crc (entries ++ [c]) (entries ++ [c]) :=
    (hplace.writeEntry hc).sync (.synced c)
  have hoversized : m₂.isOversized = false := by
    unfold isOversized
    rw [hplace₂.data]
    exact decide_eq_false (Nat.not_lt.mpr hsmall)
  have h₃ : m₂.step crc (t, .advance) = { m₂.acknowledge t (some c) with lock := none } := by
    show m₂.advance crc t = _
    simp only [advance, hphase₂, finishAppend, hoversized, Bool.false_eq_true, if_false]
  have heq : m' = { m₂.acknowledge t (some c) with lock := none } := by
    simp only [m', appended, run_cons, run_nil, h₁, h₂, h₃]
  have horderly : Run.Guarded (step crc) Orderly m (appended t) := by
    refine ⟨fun c' hp => absurd (ht.symm.trans hp) (by simp), ?_⟩
    rw [h₁]
    refine ⟨fun c' hp => absurd (hphase₁.symm.trans hp) (by simp), ?_⟩
    rw [h₂]
    exact ⟨fun c' _ hbig => absurd (hoversized.symm.trans hbig) (by simp), trivial⟩
  rw [heq]
  refine ⟨hplace₂.congr rfl rfl rfl, rfl, rfl, ?_, rfl, rfl, horderly⟩
  show update (update (update m.phase t (.written c)) t (.synced c)) t .idle = _
  rw [update_idem, update_idem]

def bothInserted (crc : Checksum) (first second : Commit) : Manager Bool :=
  run (step crc) (Manager.open crc Bool (crash empty))
    [(true, .commit first), (false, .commit second)]

/-- Both commits are in the map before either is in the log, and the second one comes to
the log first. -/
def overtaking (first second : Commit) : List (Bool × Action) :=
  [(true, .commit first), (false, .commit second)] ++ (appended false ++ appended true)

theorem run_overtaking (crc : Checksum) (first second : Commit) (hfirst : Fits first)
    (hsecond : Fits second)
    (hsmall : (encodeEntries crc [second, first]).length ≤ compactionThreshold) :
    let m := run (step crc) (Manager.open crc Bool (crash empty))
      (overtaking first second)
    m.InPlace crc [second, first] [second, first] ∧ (∀ t, m.phase t = .idle) ∧ m.failed = false ∧
      m.offsets = insertAll ∅ [first, second] ∧
      Run.Guarded (step crc) Orderly (bothInserted crc first second)
        (appended false ++ appended true) := by
  have hplace : (bothInserted crc first second).InPlace crc [] [] := ⟨rfl, rfl, rfl, rfl, by simp⟩
  have hone : (encodeEntries crc ([] ++ [second])).length ≤ compactionThreshold := by
    refine Nat.le_trans ?_ hsmall
    simp [encodeEntries]
  obtain ⟨hplace₁, hlock₁, hoffsets₁, hphase₁, -, hfailed₁, horderly₁⟩ := run_appended (t := false)
    hplace rfl rfl hsecond hone
  obtain ⟨hplace₂, -, hoffsets₂, hphase₂, -, hfailed₂, horderly₂⟩ := run_appended (t := true)
    (c := first) hplace₁ hlock₁ (by rw [hphase₁]; rfl) hfirst hsmall
  intro m
  have hm : m = run (step crc) (run (step crc) (bothInserted crc first second)
      (appended false)) (appended true) := by
    show run (step crc) _ ([_, _] ++ (_ ++ _)) = _
    rw [run_append, run_append]
    rfl
  rw [hm]
  refine ⟨hplace₂, ?_, hfailed₂.trans (hfailed₁.trans rfl), hoffsets₂.trans (hoffsets₁.trans rfl),
    horderly₁.append horderly₂⟩
  intro t
  rw [hphase₂, hphase₁]
  cases t <;> rfl

def someKey : GroupKey where
  groupId := ['g']
  topic := ['t']
  partition := 0

def otherKey : GroupKey := { someKey with partition := 1 }

def commitOf (key : GroupKey) (offset : UInt64) : Commit :=
  (key, { offset := offset, metadata := [] })

theorem length_commitOf (crc : Checksum) (key key' : GroupKey) (offset offset' : UInt64)
    (hkey : key.groupId = ['g'] ∧ key.topic = ['t'])
    (hkey' : key'.groupId = ['g'] ∧ key'.topic = ['t']) :
    (encodeEntries crc [commitOf key offset, commitOf key' offset']).length ≤
      compactionThreshold := by
  simp only [encodeEntries, flatMap_cons, flatMap_nil, length_append,
    length_encodeEntry, commitOf, hkey, hkey']
  decide

/-- The map keeps the second commit and the log the first. -/
theorem not_reopensAsHeld_overtaking : ¬ ∃ crc : Checksum, Run.Always (step crc) (ReopensAsHeld crc)
      (Manager.open crc Bool (crash empty))
      (overtaking (commitOf someKey 1) (commitOf someKey 2)) := by
  rintro ⟨crc, halways⟩
  obtain ⟨hplace, hidle, hfailed, hoffsets, -⟩ := run_overtaking crc (commitOf someKey 1)
    (commitOf someKey 2) (by decide) (by decide)
    (length_commitOf crc _ _ _ _ ⟨rfl, rfl⟩ ⟨rfl, rfl⟩)
  have hkey := halways.run hidle hfailed someKey
  rw [openLog_offsets hplace.dir, hplace.data, recover_encodeEntries hplace.fits, hoffsets] at hkey
  cases hkey

/-- Commits of two keys may overtake each other. -/
theorem reopensAsHeld_twoKeys : let crc : Checksum := fun _ => 0;
    Run.Guarded (step crc) Orderly (Manager.open crc Bool (crash empty))
        (overtaking (commitOf someKey 1) (commitOf otherKey 2)) ∧
      Run.Always (step crc) (ReopensAsHeld crc) (Manager.open crc Bool (crash empty))
        (overtaking (commitOf someKey 1) (commitOf otherKey 2)) := by
  intro crc
  obtain ⟨-, -, -, -, happended⟩ := run_overtaking crc (commitOf someKey 1)
    (commitOf otherKey 2) (by decide) (by decide)
    (length_commitOf crc _ _ _ _ ⟨rfl, rfl⟩ ⟨rfl, rfl⟩)
  have horderly : Run.Guarded (step crc) Orderly (Manager.open crc Bool (crash empty))
      (overtaking (commitOf someKey 1) (commitOf otherKey 2)) := by
    refine Run.Guarded.append ⟨fun _ => ⟨by decide, fun _ => rfl, ?_⟩,
      fun _ => ⟨by decide, ?_, ?_⟩, trivial⟩ happended
    · intro t c h
      exact absurd h (by simp [Manager.open])
    · intro t
      cases t <;> rfl
    · intro t c h
      cases t with
      | false => exact absurd (show Phase.idle = .inserted c from h) (by simp)
      | true =>
        have hc : commitOf someKey 1 = c :=
          Phase.inserted.inj (show Phase.inserted (commitOf someKey 1) = .inserted c from h)
        rw [← hc]
        decide
  exact ⟨horderly, reopensAsHeld_of_orderly crc _ _ horderly⟩

/-! ## Files with something behind their entries -/

/-- The value of a key in the last entry for it. -/
def lastValue (commits : List Commit) (key : GroupKey) : Option OffsetEntry :=
  (commits.reverse.find? (·.1 = key)).map Prod.snd

theorem lookup_insertAll (commits : List Commit) (key : GroupKey) :
    (insertAll ∅ commits).lookup key = lastValue commits key := by
  induction commits using reverseRecOn with
  | nil => rfl
  | append_singleton commits c ih =>
    rw [lookup_insertAll_concat, ih, lastValue, lastValue, reverse_concat, find?_cons]
    by_cases hkey : key = c.1
    · simp [hkey]
    · simp [hkey, Ne.symm hkey]

def appendAll (crc : Checksum) (m : Manager Unit) (more : List Commit) : Manager Unit :=
  more.foldl (fun m c => m.writeEntry crc () c) m

theorem InPlace.appendAll {m : Manager Unit} {entries synced more : List Commit}
    (h : m.InPlace crc entries synced) (hmore : ∀ c ∈ more, Fits c) :
    (m.appendAll crc more).InPlace crc (entries ++ more) synced := by
  induction more generalizing m entries with
  | nil =>
    rw [append_nil]
    exact h
  | cons c more ih =>
    rw [append_cons]
    exact ih (h.writeEntry (hmore c mem_cons_self))
      fun c' hc' => hmore c' (mem_cons_of_mem c hc')

/-- A log with some entries and a tail: however the reads cut the file, it is cut to the entries,
and the next opening finds what is appended. -/
structure RecoversExactly (crc : Checksum) (disk : Disk) (commits : List Commit) (tail : Bytes)
    (more : List Commit) : Prop where
  chunks : ∀ chunks : List Bytes, chunks.flatten = encodeEntries crc commits ++ tail →
    (feed (readEntry crc) chunks).values = commits ∧
      (feed (readEntry crc) chunks).lastGoodPos = (encodeEntries crc commits).length
  offsets : ∀ key, (Manager.open crc Unit disk).offsets.lookup key = lastValue commits key
  data : let m := Manager.open crc Unit disk
    (m.disk.inode m.logFile.inode).data = encodeEntries crc commits
  entries : let m := (Manager.open crc Unit disk).appendAll crc more
    (recover crc (m.disk.inode m.logFile.inode).data).values = commits ++ more
  reopened : ∀ key, (openLog crc ((Manager.open crc Unit disk).appendAll crc more).disk).2.2.lookup
    key = lastValue (commits ++ more) key

/-- The reader only returns entries whose strings fit. -/
theorem RecoversExactly.fits {disk : Disk} {commits more : List Commit} {tail : Bytes}
    (h : RecoversExactly crc disk commits tail more) : ∀ c ∈ more, Fits c := by
  intro c hc
  have hmem : c ∈ commits ++ more := mem_append_right _ hc
  rw [← h.entries] at hmem
  exact (recover_split crc _).2.1 c hmem

theorem recoversExactly_iff_fits (crc : Checksum) (disk : Disk) {i : Nat}
    (hdir : disk.dir .log = some i) {commits : List Commit} {tail : Bytes}
    (hdata : (disk.inode i).synced = encodeEntries crc commits ++ tail)
    (hcommits : ∀ c ∈ commits, Fits c) (htail : ∀ c, Fits c → ¬ encodeEntry crc c <+: tail)
    {more : List Commit} :
    RecoversExactly crc disk.crash commits tail more ↔ ∀ c ∈ more, Fits c := by
  refine ⟨RecoversExactly.fits, fun hmore => ?_⟩
  have hnone : ∀ c rest, readEntry crc tail ≠ .value c rest := by
    intro c rest hread
    obtain ⟨rfl, hc⟩ := readEntry_eq_value hread
    exact htail c hc (prefix_append _ _)
  obtain ⟨entries, hfits, hlog, hfile, hpos, hsynced, hoffsets, hfound⟩ :=
    openLog_spec crc disk.crash (fun _ => rfl)
  have hentries : entries = commits := by
    rw [hfound i hdir]
    refine (feed_encodeEntries hcommits hnone ?_).1
    rw [flatten_readChunks (Nat.le_refl _)]
    exact hdata
  subst hentries
  have hplace : (Manager.open crc Unit disk.crash).InPlace crc entries entries :=
    ⟨hlog, hfile, hpos, hsynced, hfits⟩
  have hafter := hplace.appendAll hmore
  refine ⟨fun _ => feed_encodeEntries hcommits hnone, fun key => ?_, hfile, ?_, fun key => ?_⟩
  · rw [← lookup_insertAll, ← hoffsets]
    rfl
  · dsimp only
    rw [hafter.data, recover_encodeEntries hafter.fits]
  · rw [openLog_offsets hafter.dir, hafter.data, recover_encodeEntries hafter.fits,
      lookup_insertAll]

def tornLog (crc : Checksum) : Disk :=
  (FileSystem.create empty .log).1.modify 0 fun _ =>
    ⟨[], encodeEntries crc [commitOf someKey 1] ++ [0]⟩

theorem recoversExactly_tornLog : RecoversExactly (fun _ => 0) (tornLog fun _ => 0).crash
    [commitOf someKey 1] [0] [commitOf someKey 2] :=
  (recoversExactly_iff_fits _ (tornLog _) rfl rfl (by decide)
    fun c _ hbegins => by simp [encodeEntry, consumerOffsetsMagic] at hbegins).mpr (by decide)

/-- The length of the metadata is written as zero. -/
theorem not_recoversExactly_longMetadata : ¬ ∃ crc : Checksum, RecoversExactly crc (crash empty)
    [] [] [(someKey, { offset := 1, metadata := replicate 65536 'a' })] := by
  rintro ⟨crc, h⟩
  have hlength : ∀ n, (Text.utf8 (replicate n 'a')).length = n := by
    intro n
    have hone : n * 'a'.utf8Size = n := Nat.mul_one n
    simpa [Text.utf8, flatMap_replicate] using hone
  have hlt := (h.fits _ (mem_singleton_self _)).2.2
  rw [hlength] at hlt
  exact absurd hlt (by decide)

end Manager
end Bifrox.ConsumerGroup

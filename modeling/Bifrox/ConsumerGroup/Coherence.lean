/-
When the log of committed offsets agrees with the map.

The two agree when no call is between its steps, provided that two commits of one key do not
overlap between the map and the log, and that a compaction runs alone.
-/
import Bifrox.Lib.Run
import Bifrox.ConsumerGroup.Manager

namespace Bifrox.ConsumerGroup

open List FileSystem

/-! ## Maps from entries -/

theorem lookup_insertAll_concat (offsets : Offsets) (commits : List Commit) (c : Commit)
    (key : GroupKey) :
    (insertAll offsets (commits ++ [c])).lookup key =
      if key = c.1 then some c.2 else (insertAll offsets commits).lookup key := by
  rw [insertAll, foldl_append, foldl_cons, foldl_nil]
  by_cases hkey : key = c.1
  · rw [if_pos hkey, hkey, AList.lookup_insert]
  · rw [if_neg hkey, AList.lookup_insert_ne hkey]
    rfl

theorem lookup_insertAll_of_mem {offsets : Offsets} {commits : List Commit}
    (h : ∀ c ∈ commits, offsets.lookup c.1 = some c.2) (key : GroupKey) :
    (insertAll ∅ commits).lookup key =
      if key ∈ commits.map Prod.fst then offsets.lookup key else none := by
  induction commits using List.reverseRecOn with
  | nil => rfl
  | append_singleton commits c ih =>
    have hc := h c (by simp)
    have hrest := ih fun c' hc' => h c' (by simp [hc'])
    rw [lookup_insertAll_concat, hrest, map_append, map_singleton]
    by_cases hkey : key = c.1
    · subst hkey
      simp [hc]
    · simp only [mem_append, mem_singleton, hkey, or_false, if_false]

structure Records (offsets : Offsets) (entries : List Commit) : Prop where
  fits : ∀ c ∈ entries, Fits c
  lookup : ∀ key, (insertAll ∅ entries).lookup key = offsets.lookup key

/-! ## Opening what is there -/

section Open

variable {crc : Checksum} {disk : Disk}

theorem openLog_offsets {i : Nat} (h : disk.dir .log = some i) :
    (openLog crc disk).2.2 = insertAll ∅ (recover crc (disk.inode i).data).values := by
  simp only [openLog, openOrCreate_of_some disk h]

end Open

namespace Manager

variable {Thread : Type} [DecidableEq Thread]

@[simp] theorem setPhase_phase_self (m : Manager Thread) (t : Thread) (phase : Phase) :
    (m.setPhase t phase).phase t = phase :=
  Function.update_self ..

theorem setPhase_phase_ne {m : Manager Thread} {t t' : Thread} {phase : Phase} (h : t' ≠ t) :
    (m.setPhase t phase).phase t' = m.phase t' :=
  Function.update_of_ne h ..

/-! ## Between the steps -/

section Coherent

variable (crc : Checksum)

/-- The log has its name, the handle stands at its end, and a crash would leave the
synced entries of it. -/
structure InPlace (m : Manager Thread) (entries synced : List Commit) : Prop where
  dir : m.disk.dir .log = some m.logFile.inode
  data : (m.disk.inode m.logFile.inode).data = encodeEntries crc entries
  pos : m.logFile.pos = (encodeEntries crc entries).length
  synced : (recover crc (m.disk.inode m.logFile.inode).synced).values = synced
  fits : ∀ c ∈ entries, Fits c

/-- No call, or one that has not come to the log yet. -/
def Waiting (phase : Phase) : Prop := phase = .idle ∨ ∃ c, phase = .inserted c

structure Serving (m : Manager Thread) (entries synced : List Commit) : Prop where
  inPlace : m.InPlace crc entries synced
  lock : m.lock = none ∧ synced = entries ∧ (∀ t, Waiting (m.phase t)) ∨
    ∃ t c before, m.lock = some t ∧ (∀ t', t' ≠ t → Waiting (m.phase t')) ∧
      entries = before ++ [c] ∧
      (m.phase t = .written c ∧ synced = before ∨ m.phase t = .synced c ∧ synced = entries)
  lookup : ∀ key, (∀ t entry, m.phase t ≠ .inserted (key, entry)) →
    (insertAll ∅ entries).lookup key = m.offsets.lookup key
  pending : ∀ t c, m.phase t = .inserted c → m.offsets.lookup c.1 = some c.2 ∧ Fits c
  unique : ∀ t t' c c', m.phase t = .inserted c → m.phase t' = .inserted c' → c.1 = c'.1 → t = t'

/-- A file has these entries and they are synced. -/
def Holds (disk : Disk) (i : Nat) (entries : List Commit) : Prop :=
  (disk.inode i).data = encodeEntries crc entries ∧
    (disk.inode i).synced = encodeEntries crc entries

def Current (m : Manager Thread) : Prop :=
  ∃ entries, m.InPlace crc entries entries ∧ Records m.offsets entries

def Stage (m : Manager Thread) : Phase → Prop
  | .scanning _ started collected =>
    m.Current crc ∧ (∀ key ∈ m.offsets, key ∈ started) ∧
      ∀ c ∈ collected, m.offsets.lookup c.1 = some c.2
  | .tmpOpened _ collected tmpFile =>
    m.Current crc ∧ Records m.offsets collected ∧ m.disk.dir .tmp = some tmpFile.inode ∧
      (m.disk.inode tmpFile.inode).data = [] ∧ tmpFile.pos = 0
  | .tmpWritten _ tmpFile =>
    m.Current crc ∧ m.disk.dir .tmp = some tmpFile.inode ∧
      ∃ collected, Records m.offsets collected ∧
        (m.disk.inode tmpFile.inode).data = encodeEntries crc collected
  | .tmpSynced _ | .unlocked _ =>
    m.Current crc ∧ ∃ i collected, m.disk.dir .tmp = some i ∧ Records m.offsets collected ∧
      Holds crc m.disk i collected
  | .removed _ =>
    m.disk.dir .log = none ∧ ∃ i collected, m.disk.dir .tmp = some i ∧
      Records m.offsets collected ∧ Holds crc m.disk i collected
  | .renamed _ =>
    ∃ i collected, m.disk.dir .log = some i ∧ Records m.offsets collected ∧
      Holds crc m.disk i collected
  | _ => False

/-- What holds between any two steps of calls that keep out of each other's way. -/
inductive Coherent (m : Manager Thread) : Prop
  | serving (entries synced : List Commit) (h : m.Serving crc entries synced)
  | compacting (t : Thread) (hlock : m.lock = none) (hothers : ∀ t', t' ≠ t → m.phase t' = .idle)
      (hstage : m.Stage crc (m.phase t))

end Coherent

variable {crc : Checksum}

theorem openLog_spec (crc : Checksum) (disk : Disk)
    (h : ∀ i, (disk.inode i).synced = (disk.inode i).data) : let r := openLog crc disk
    ∃ entries : List Commit, (∀ c ∈ entries, Fits c) ∧ r.1.dir .log = some r.2.1.inode ∧
      (r.1.inode r.2.1.inode).data = encodeEntries crc entries ∧
      r.2.1.pos = (encodeEntries crc entries).length ∧
      (recover crc (r.1.inode r.2.1.inode).synced).values = entries ∧
      r.2.2 = insertAll ∅ entries ∧
      ∀ i, disk.dir .log = some i → entries = (recover crc (disk.inode i).data).values := by
  obtain ⟨opened, i, hopen, hdir, hrest, hsame⟩ : ∃ opened i, disk.openOrCreate .log = (opened, i) ∧
      opened.dir .log = some i ∧ (opened.inode i).synced = (opened.inode i).data ∧
      ∀ j, disk.dir .log = some j → opened.inode i = disk.inode j := by
    cases hlog : disk.dir .log with
    | some i =>
      refine ⟨disk, i, openOrCreate_of_some disk hlog, hlog, h i, fun j hj => ?_⟩
      rw [Option.some.inj hj]
    | none =>
      refine ⟨_, _, openOrCreate_of_none disk hlog, create_dir_self disk, ?_, nofun⟩
      show ((disk.create .log).1.inode disk.next).synced =
          ((disk.create .log).1.inode disk.next).data
      rw [create_inode_self]
  obtain ⟨htake, hfits, hpos⟩ := recover_split crc (opened.inode i).data
  have hfound : ∀ j, disk.dir .log = some j → (recover crc (opened.inode i).data).values =
      (recover crc (disk.inode j).data).values := fun j hj => by rw [hsame j hj]
  refine ⟨(recover crc (opened.inode i).data).values, hfits, ?_⟩
  simp only [openLog, hopen]
  split
  · refine ⟨hdir, ?_, hpos, ?_, trivial, hfound⟩
    · rw [setLen_inode_self]
      exact htake
    · rw [setLen_inode_self, hrest]
  · next hlong =>
    refine ⟨hdir, ?_, hpos, by rw [hrest], trivial, hfound⟩
    rw [← htake, take_of_length_le (Nat.le_of_not_lt hlong)]

omit [DecidableEq Thread] in
theorem coherent_open (disk : Disk) : (Manager.open crc Thread disk.crash).Coherent crc := by
  obtain ⟨entries, hfits, hdir, hdata, hpos, hsynced, hoffsets, -⟩ :=
    openLog_spec crc disk.crash (fun _ => rfl)
  refine .serving entries entries ⟨⟨hdir, hdata, hpos, hsynced, hfits⟩, ?_, ?_, ?_, ?_⟩
  · exact Or.inl ⟨rfl, rfl, fun _ => Or.inl rfl⟩
  · intro key _
    rw [← hoffsets]
    rfl
  · intro t c h
    exact absurd h (by simp [Manager.open])
  · intro t t' c c' h
    exact absurd h (by simp [Manager.open])

/-! ## Steps at the log -/

section Steps

variable {m : Manager Thread} {entries synced : List Commit} {t : Thread} {c : Commit}
  {m' : Manager Thread}

theorem encodeEntries_concat :
    encodeEntries crc (entries ++ [c]) = encodeEntries crc entries ++ encodeEntry crc c := by
  simp [encodeEntries]

section

variable (h : m.InPlace crc entries synced)
include h

theorem InPlace.writeEntry (hc : Fits c) :
    (m.writeEntry crc t c).InPlace crc (entries ++ [c]) synced where
  dir := h.dir
  data := by
    show ((m.disk.write m.logFile (encodeEntry crc c)).1.inode m.logFile.inode).data = _
    rw [write_data, h.pos, h.data, overwrite_length, encodeEntries_concat]
  pos := by
    show m.logFile.pos + (encodeEntry crc c).length = _
    rw [h.pos, encodeEntries_concat, length_append]
  synced := by
    show (recover crc ((m.disk.write m.logFile (encodeEntry crc c)).1.inode
      m.logFile.inode).synced).values = _
    rw [write_synced]
    exact h.synced
  fits := by
    intro c' hc'
    rcases mem_append.mp hc' with hold | hnew
    · exact h.fits c' hold
    · rw [mem_singleton.mp hnew]
      exact hc

theorem InPlace.sync (phase : Phase) :
    ({ m.setPhase t phase with disk := m.disk.sync m.logFile.inode } : Manager Thread).InPlace crc
      entries entries where
  dir := h.dir
  data := by
    show ((m.disk.sync m.logFile.inode).inode m.logFile.inode).data = _
    rw [sync_inode_self]
    exact h.data
  pos := h.pos
  synced := by
    show (recover crc ((m.disk.sync m.logFile.inode).inode m.logFile.inode).synced).values = _
    rw [sync_inode_self, h.data]
    exact recover_encodeEntries h.fits
  fits := h.fits

omit [DecidableEq Thread] in
theorem InPlace.congr
    (hlog : m'.logFile = m.logFile) (hdir : m'.disk.dir .log = m.disk.dir .log)
    (hinode : m'.disk.inode m.logFile.inode = m.disk.inode m.logFile.inode) :
    m'.InPlace crc entries synced where
  dir := by rw [hdir, hlog]; exact h.dir
  data := by rw [hlog, hinode]; exact h.data
  pos := by rw [hlog]; exact h.pos
  synced := by rw [hlog, hinode]; exact h.synced
  fits := h.fits

end

variable {phase : Phase}

theorem inserted_setPhase {t' : Thread} {c' : Commit} :
    (m.setPhase t phase).phase t' = .inserted c' ↔
      t' = t ∧ phase = .inserted c' ∨ t' ≠ t ∧ m.phase t' = .inserted c' := by
  by_cases htt : t' = t
  · subst htt
    simp
  · rw [setPhase_phase_ne htt]
    simp [htt]

theorem waiting_setPhase (hphase : Waiting phase) (h : ∀ t', t' ≠ t → Waiting (m.phase t'))
    (t' : Thread) : Waiting ((m.setPhase t phase).phase t') :=
  (Function.forall_update_iff m.phase fun _ phase => Waiting phase).mpr ⟨hphase, h⟩ t'

section

variable (h : m.Serving crc entries synced)
include h

theorem Serving.lookup_setPhase (ht : ∀ c, m.phase t ≠ .inserted c) {key : GroupKey}
    (hnone : ∀ t' entry, (m.setPhase t phase).phase t' ≠ .inserted (key, entry)) :
    (insertAll ∅ entries).lookup key = m.offsets.lookup key := by
  apply h.lookup key
  intro t' entry hp
  by_cases htt : t' = t
  · rw [htt] at hp
    exact ht _ hp
  · exact hnone t' entry (inserted_setPhase.mpr (Or.inr ⟨htt, hp⟩))

theorem Serving.insert (ht : m.phase t = .idle) (hc : Fits c)
    (hkey : ∀ t' c', m.phase t' = .inserted c' → c'.1 ≠ c.1) :
    (m.insert t c).Serving crc entries synced where
  inPlace := h.inPlace.congr rfl rfl rfl
  lock := by
    rcases h.lock with ⟨hlock, hsynced, hwait⟩ | ⟨t₀, c₀, before, hlock, hwait, hentries, hphase⟩
    · exact Or.inl ⟨hlock, hsynced, waiting_setPhase (Or.inr ⟨c, rfl⟩) (fun t' _ => hwait t')⟩
    · have hne : t₀ ≠ t := by
        rintro rfl
        rcases hphase with ⟨hp, -⟩ | ⟨hp, -⟩ <;> rw [ht] at hp <;> cases hp
      refine Or.inr ⟨t₀, c₀, before, hlock, ?_, hentries, ?_⟩
      · intro t' ht'
        by_cases htt : t' = t
        · rw [htt]
          exact Or.inr ⟨c, setPhase_phase_self m t _⟩
        · exact (setPhase_phase_ne htt).symm ▸ hwait t' ht'
      · show (m.setPhase t (.inserted c)).phase t₀ = .written c₀ ∧ _ ∨
          (m.setPhase t (.inserted c)).phase t₀ = .synced c₀ ∧ _
        rw [setPhase_phase_ne hne]
        exact hphase
  lookup := by
    intro key hnone
    have hne : key ≠ c.1 := by
      rintro rfl
      exact hnone t c.2 (inserted_setPhase.mpr (Or.inl ⟨rfl, rfl⟩))
    show _ = (m.offsets.insert c.1 c.2).lookup key
    rw [AList.lookup_insert_ne hne]
    exact h.lookup_setPhase (by simp [ht]) hnone
  pending := by
    intro t' c' hp
    show (m.offsets.insert c.1 c.2).lookup c'.1 = some c'.2 ∧ Fits c'
    rcases inserted_setPhase.mp hp with ⟨-, hself⟩ | ⟨-, hold⟩
    · obtain rfl := Phase.inserted.inj hself
      rw [AList.lookup_insert]
      exact ⟨rfl, hc⟩
    · rw [AList.lookup_insert_ne (hkey t' c' hold)]
      exact h.pending t' c' hold
  unique := by
    intro t₁ t₂ c₁ c₂ h₁ h₂ hsame
    rcases inserted_setPhase.mp h₁ with ⟨rfl, hself₁⟩ | ⟨-, hold₁⟩ <;>
      rcases inserted_setPhase.mp h₂ with ⟨rfl, hself₂⟩ | ⟨-, hold₂⟩
    · rfl
    · rw [← Phase.inserted.inj hself₁] at hsame
      exact absurd hsame.symm (hkey t₂ c₂ hold₂)
    · rw [← Phase.inserted.inj hself₂] at hsame
      exact absurd hsame (hkey t₁ c₁ hold₁)
    · exact h.unique t₁ t₂ c₁ c₂ hold₁ hold₂ hsame

theorem Serving.pending_setPhase (t : Thread) (phase : Phase) (hphase : ∀ c, phase ≠ .inserted c) :
    (∀ t' c, (m.setPhase t phase).phase t' = .inserted c →
      m.offsets.lookup c.1 = some c.2 ∧ Fits c) ∧
    ∀ t₁ t₂ c₁ c₂, (m.setPhase t phase).phase t₁ = .inserted c₁ →
      (m.setPhase t phase).phase t₂ = .inserted c₂ → c₁.1 = c₂.1 → t₁ = t₂ := by
  have hold : ∀ {t' c}, (m.setPhase t phase).phase t' = .inserted c → m.phase t' = .inserted c := by
    intro t' c hp
    rcases inserted_setPhase.mp hp with ⟨-, hself⟩ | ⟨-, hold⟩
    · exact absurd hself (hphase c)
    · exact hold
  exact ⟨fun t' c hp => h.pending t' c (hold hp),
    fun t₁ t₂ c₁ c₂ h₁ h₂ hsame => h.unique t₁ t₂ c₁ c₂ (hold h₁) (hold h₂) hsame⟩

theorem Serving.writeEntry (ht : m.phase t = .inserted c)
    (hlock : m.lock = none) : (m.writeEntry crc t c).Serving crc (entries ++ [c]) synced := by
  obtain ⟨hvalue, hfits⟩ := h.pending t c ht
  obtain ⟨hpending, hunique⟩ := h.pending_setPhase t (.written c) (by simp)
  obtain ⟨-, hsynced, hwait⟩ : m.lock = none ∧ synced = entries ∧ ∀ t, Waiting (m.phase t) := by
    rcases h.lock with hfree | ⟨t₀, -, -, htaken, -⟩
    · exact hfree
    · rw [hlock] at htaken
      cases htaken
  refine ⟨h.inPlace.writeEntry hfits, Or.inr ?_, ?_, hpending, hunique⟩
  · refine ⟨t, c, entries, rfl, ?_, rfl, Or.inl ⟨setPhase_phase_self m t _, hsynced⟩⟩
    intro t' htt
    exact (setPhase_phase_ne htt).symm ▸ hwait t'
  · intro key hnone
    rw [lookup_insertAll_concat]
    show _ = m.offsets.lookup key
    by_cases hkey : key = c.1
    · rw [if_pos hkey, hkey, hvalue]
    · rw [if_neg hkey]
      apply h.lookup key
      intro t' entry hp
      by_cases htt : t' = t
      · rw [htt, ht] at hp
        exact hkey (congrArg Prod.fst (Phase.inserted.inj hp)).symm
      · exact hnone t' entry (inserted_setPhase.mpr (Or.inr ⟨htt, hp⟩))

theorem Serving.holder (ht : ¬ Waiting (m.phase t)) :
    ∃ c before, m.lock = some t ∧ (∀ t', t' ≠ t → Waiting (m.phase t')) ∧ entries = before ++ [c] ∧
      (m.phase t = .written c ∧ synced = before ∨ m.phase t = .synced c ∧ synced = entries) := by
  rcases h.lock with ⟨-, -, hwait⟩ | ⟨t₀, c, before, hlock, hwait, hentries, hphase⟩
  · exact absurd (hwait t) ht
  · obtain rfl : t = t₀ := by
      by_contra hne
      exact ht (hwait t hne)
    exact ⟨c, before, hlock, hwait, hentries, hphase⟩

/-- What is written and not synced is the entry of the holder of the lock. -/
theorem Serving.written_eq (ht : m.phase t = .written c) :
    m.lock = some t ∧ (∀ t', t' ≠ t → Waiting (m.phase t')) ∧ entries = synced ++ [c] := by
  obtain ⟨c₀, before, hlock, hwait, hentries, hphase⟩ := h.holder (t := t) (by simp [ht, Waiting])
  rcases hphase with ⟨hp, rfl⟩ | ⟨hp, -⟩
  · cases ht.symm.trans hp
    exact ⟨hlock, hwait, hentries⟩
  · cases ht.symm.trans hp

theorem Serving.sync (ht : m.phase t = .written c) :
    ({ m.setPhase t (.synced c) with disk := m.disk.sync m.logFile.inode } :
      Manager Thread).Serving crc entries entries := by
  obtain ⟨hlock, hwait, hentries⟩ := h.written_eq ht
  obtain ⟨hpending, hunique⟩ := h.pending_setPhase t (.synced c) (by simp)
  refine ⟨h.inPlace.sync _, Or.inr ⟨t, c, synced, hlock, ?_, hentries, Or.inr ⟨?_, rfl⟩⟩,
    ?_, hpending, hunique⟩
  · intro t' htt
    exact (setPhase_phase_ne htt).symm ▸ hwait t' htt
  · exact setPhase_phase_self m t _
  · intro key hnone
    exact h.lookup_setPhase (by simp [ht]) hnone

theorem Serving.synced_eq (ht : m.phase t = .synced c) :
    synced = entries ∧ (∀ t', t' ≠ t → Waiting (m.phase t')) ∧
      ∃ before, entries = before ++ [c] := by
  obtain ⟨c₀, before, hlock, hwait, hentries, hphase⟩ := h.holder (t := t) (by simp [ht, Waiting])
  rcases hphase with ⟨hp, -⟩ | ⟨hp, hsynced⟩
  · cases ht.symm.trans hp
  · cases ht.symm.trans hp
    exact ⟨hsynced, hwait, before, hentries⟩

theorem Serving.acknowledge (ht : m.phase t = .synced c) :
    ({ m.acknowledge t (some c) with lock := none } : Manager Thread).Serving crc entries
      entries := by
  obtain ⟨rfl, hwait, -⟩ := h.synced_eq ht
  obtain ⟨hpending, hunique⟩ := h.pending_setPhase t .idle (by simp)
  refine ⟨h.inPlace.congr rfl rfl rfl, Or.inl ⟨rfl, rfl, waiting_setPhase (Or.inl rfl) hwait⟩, ?_,
    hpending, hunique⟩
  intro key hnone
  exact h.lookup_setPhase (by simp [ht]) hnone

omit [DecidableEq Thread] in
theorem Serving.current (hsynced : synced = entries)
    (hnone : ∀ t c, m.phase t ≠ .inserted c) : m.Current crc := by
  subst hsynced
  exact ⟨synced, h.inPlace, h.inPlace.fits, fun key => h.lookup key fun t entry => hnone t _⟩

end

/-! ## Steps of a compaction -/

omit [DecidableEq Thread] in
theorem Current.congr (h : m.Current crc) (hoffsets : m'.offsets = m.offsets)
    (hlog : m'.logFile = m.logFile) (hdir : m'.disk.dir .log = m.disk.dir .log)
    (hinode : ∀ i, m.disk.dir .log = some i → m'.disk.inode i = m.disk.inode i) :
    m'.Current crc := by
  obtain ⟨entries, hplace, hrecords⟩ := h
  exact ⟨entries, hplace.congr hlog hdir (hinode _ hplace.dir), hoffsets ▸ hrecords⟩

theorem mem_of_lookup_insertAll {commits : List Commit} {key : GroupKey} {entry : OffsetEntry}
    (h : (insertAll ∅ commits).lookup key = some entry) : (key, entry) ∈ commits := by
  induction commits using List.reverseRecOn with
  | nil => cases h
  | append_singleton commits c ih =>
    rw [lookup_insertAll_concat] at h
    by_cases hkey : key = c.1
    · rw [if_pos hkey] at h
      rw [hkey, ← Option.some.inj h]
      simp
    · rw [if_neg hkey] at h
      exact mem_append_left _ (ih h)

theorem records_of_scan {offsets : Offsets} {collected started : List _}
    (hrecords : Records offsets entries) (hstarted : ∀ key ∈ offsets, key ∈ started)
    (hcollected : ∀ c ∈ collected, offsets.lookup c.1 = some c.2)
    (hdone : started ⊆ collected.map Prod.fst) : Records offsets collected where
  fits := by
    intro c hc
    have hlookup := hcollected c hc
    rw [← hrecords.lookup] at hlookup
    exact hrecords.fits c (mem_of_lookup_insertAll hlookup)
  lookup := by
    intro key
    rw [lookup_insertAll_of_mem hcollected]
    split
    · rfl
    · next hkey =>
      have hnot : key ∉ offsets := fun h => hkey (hdone (hstarted key h))
      exact (AList.lookup_eq_none.mpr hnot).symm

variable {call : Option Commit} {collected : List Commit} {started : List GroupKey}

theorem Stage.scan (h : m.Stage crc (.scanning call started collected))
    (ht : m.phase t = .scanning call started collected) (key : GroupKey) :
    (m.scan t call started collected key).Stage crc
      ((m.scan t call started collected key).phase t) := by
  obtain ⟨hcurrent, hstarted, hcollected⟩ := h
  unfold Manager.scan
  split
  · rw [ht]
    exact ⟨hcurrent, hstarted, hcollected⟩
  · next entry hentry =>
    split
    · rw [ht]
      exact ⟨hcurrent, hstarted, hcollected⟩
    · rw [setPhase_phase_self]
      refine ⟨hcurrent.congr rfl rfl rfl fun _ _ => rfl, hstarted, ?_⟩
      intro c hc
      rcases mem_append.mp hc with hold | hnew
      · exact hcollected c hold
      · rw [mem_singleton.mp hnew]
        exact hentry

theorem Stage.openTmp (h : m.Stage crc (.scanning call started collected))
    (hdone : started ⊆ collected.map Prod.fst) :
    (m.openTmp t call collected).Stage crc ((m.openTmp t call collected).phase t) := by
  obtain ⟨hcurrent, hstarted, hcollected⟩ := h
  obtain ⟨hdir, hdata, hothers, hinodes⟩ := openTruncated_spec m.disk
  have hrecords : Records m.offsets collected := by
    obtain ⟨entries, -, hrecords⟩ := hcurrent
    exact records_of_scan hrecords hstarted hcollected hdone
  have hphase : (m.openTmp t call collected).phase t =
      .tmpOpened call collected { inode := (m.disk.openTruncated .tmp).2, pos := 0 } :=
    setPhase_phase_self m t _
  rw [hphase]
  refine ⟨hcurrent.congr rfl rfl (hothers .log (by decide)) ?_, hrecords, hdir, hdata, rfl⟩
  intro i hi
  exact (hinodes .log i (by decide) hi).2

theorem tmp_ne_log {disk : Disk} {i j : Nat} (htmp : disk.dir .tmp = some i)
    (hlog : disk.dir .log = some j) : j ≠ i := by
  rintro rfl
  exact absurd (disk.injective htmp hlog) (by decide)

theorem Stage.writeTmp {tmpFile : Handle} (h : m.Stage crc (.tmpOpened call collected tmpFile)) :
    (m.writeTmp crc t call collected tmpFile).Stage crc
      ((m.writeTmp crc t call collected tmpFile).phase t) := by
  obtain ⟨hcurrent, hrecords, hdir, hdata, hpos⟩ := h
  have hphase : (m.writeTmp crc t call collected tmpFile).phase t =
      .tmpWritten call (m.disk.write tmpFile (encodeEntries crc collected)).2 :=
    setPhase_phase_self m t _
  rw [hphase]
  refine ⟨hcurrent.congr rfl rfl rfl ?_, hdir, collected, hrecords, ?_⟩
  · intro i hi
    exact Function.update_of_ne (tmp_ne_log hdir hi) ..
  · show ((m.disk.write tmpFile (encodeEntries crc collected)).1.inode tmpFile.inode).data = _
    rw [write_data, hdata, hpos]
    exact overwrite_length

theorem Stage.syncTmp {tmpFile : Handle} (h : m.Stage crc (.tmpWritten call tmpFile)) :
    ({ m.setPhase t (.tmpSynced call) with disk := m.disk.sync tmpFile.inode } :
      Manager Thread).Stage crc (.tmpSynced call) := by
  obtain ⟨hcurrent, hdir, collected, hrecords, hdata⟩ := h
  refine ⟨hcurrent.congr rfl rfl rfl ?_, tmpFile.inode, collected, hdir, hrecords, ?_⟩
  · intro i hi
    exact sync_inode_ne m.disk (tmp_ne_log hdir hi)
  · show ((m.disk.sync tmpFile.inode).inode tmpFile.inode).data = _ ∧
      ((m.disk.sync tmpFile.inode).inode tmpFile.inode).synced = _
    rw [sync_inode_self]
    exact ⟨hdata, hdata⟩

theorem Stage.remove (h : m.Stage crc (.unlocked call)) :
    ({ m.setPhase t (.removed call) with disk := m.disk.unlink .log } : Manager Thread).Stage crc
      (.removed call) := by
  obtain ⟨-, i, collected, hdir, hrecords, hholds⟩ := h
  exact ⟨unlink_dir_self m.disk, i, collected, hdir, hrecords, hholds⟩

theorem Stage.renameTmp (h : m.Stage crc (.removed call)) :
    ∃ disk, m.renameTmp t call = { m.setPhase t (.renamed call) with disk := disk } ∧
      (m.renameTmp t call).Stage crc (.renamed call) := by
  obtain ⟨-, i, collected, hdir, hrecords, hholds⟩ := h
  obtain ⟨disk, hrename, hlog, hinode⟩ := rename_of_some m.disk .log hdir
  have heq : m.renameTmp t call = { m.setPhase t (.renamed call) with disk := disk } := by
    simp only [Manager.renameTmp, hrename]
  refine ⟨disk, heq, ?_⟩
  rw [heq]
  refine ⟨i, collected, hlog, hrecords, ?_⟩
  show (disk.inode i).data = _ ∧ (disk.inode i).synced = _
  rw [hinode]
  exact hholds

theorem Stage.exchangeLog (h : m.Stage crc (.renamed call)) (hlock : m.lock = none)
    (hothers : ∀ t', t' ≠ t → m.phase t' = .idle) :
    ∃ entries, (m.exchangeLog t call).Serving crc entries entries := by
  obtain ⟨i, collected, hdir, hrecords, hdata, hsynced⟩ := h
  have heq : m.exchangeLog t call = { m.acknowledge t call with
      logFile := { inode := i, pos := (m.disk.inode i).data.length } } := by
    simp only [Manager.exchangeLog, openOrCreate_of_some m.disk hdir]
    rfl
  have hidle : ∀ t', (m.acknowledge t call).phase t' = .idle :=
    (Function.forall_update_iff m.phase fun _ phase => phase = .idle).mpr ⟨rfl, hothers⟩
  refine ⟨collected, ?_⟩
  rw [heq]
  refine ⟨⟨hdir, hdata, ?_, ?_, hrecords.fits⟩,
    Or.inl ⟨hlock, rfl, fun t' => Or.inl (hidle t')⟩, ?_, ?_, ?_⟩
  · exact congrArg List.length hdata
  · show (recover crc (m.disk.inode i).synced).values = collected
    rw [hsynced]
    exact recover_encodeEntries hrecords.fits
  · intro key _
    exact hrecords.lookup key
  · intro t' c' hp
    exact absurd ((hidle t').symm.trans hp) (by simp)
  · intro t' t'' c' c'' hp
    exact absurd ((hidle t').symm.trans hp) (by simp)

/-! ## Every orderly step is coherent -/

omit [DecidableEq Thread] in
theorem isCompacting_of_stage (h : m.Stage crc phase) : phase.isCompacting = true := by
  cases phase <;> first | rfl | exact h.elim

omit [DecidableEq Thread] in
theorem Serving.isCompacting_eq_false (h : m.Serving crc entries synced) :
    (m.phase t).isCompacting = false := by
  have hwaiting : ∀ {phase : Phase}, Waiting phase → phase.isCompacting = false := by
    rintro phase (rfl | ⟨c, rfl⟩) <;> rfl
  rcases h.lock with ⟨-, -, hwait⟩ | ⟨t₀, c, before, -, hwait, -, hphase⟩
  · exact hwaiting (hwait t)
  · by_cases htt : t = t₀
    · subst htt
      rcases hphase with ⟨hp, -⟩ | ⟨hp, -⟩ <;> rw [hp] <;> rfl
    · exact hwaiting (hwait t htt)

omit [DecidableEq Thread] in
/-- A thread that is at the map or the log shows that no one is compacting. -/
theorem Coherent.exists_serving (h : m.Coherent crc) (ht : m.phase t = phase)
    (hbusy : phase ≠ .idle) (hphase : phase.isCompacting = false) :
    ∃ entries synced, m.Serving crc entries synced := by
  subst ht
  cases h with
  | serving entries synced h => exact ⟨entries, synced, h⟩
  | compacting t₀ hlock hothers hstage =>
    by_cases htt : t = t₀
    · subst htt
      have := isCompacting_of_stage hstage
      rw [hphase] at this
      cases this
    · exact absurd (hothers t htt) hbusy

omit [DecidableEq Thread] in
/-- A thread that is compacting is the only one with a call. -/
theorem Coherent.stage (h : m.Coherent crc) (ht : m.phase t = phase)
    (hphase : phase.isCompacting = true) :
    m.lock = none ∧ (∀ t', t' ≠ t → m.phase t' = .idle) ∧ m.Stage crc phase := by
  subst ht
  cases h with
  | serving entries synced h =>
    rw [h.isCompacting_eq_false] at hphase
    cases hphase
  | compacting t₀ hlock hothers hstage =>
    by_cases htt : t = t₀
    · subst htt
      exact ⟨hlock, hothers, hstage⟩
    · rw [hothers t htt] at hphase
      exact absurd hphase (by simp [Phase.isCompacting])

theorem others_setPhase (h : ∀ t', t' ≠ t → m.phase t' = .idle) :
    ∀ t', t' ≠ t → (m.setPhase t phase).phase t' = .idle :=
  fun t' htt => (setPhase_phase_ne htt).trans (h t' htt)

/-- A commit that fits starts while no one is compacting or about to write its key, and a
compaction starts while no one else has a call. -/
def Orderly (m : Manager Thread) (op : Thread × Action) : Prop :=
  match op.2 with
  | .commit c => m.phase op.1 = .idle → Fits c ∧ (∀ t, (m.phase t).isCompacting = false) ∧
      ∀ t c', m.phase t = .inserted c' → c'.1 ≠ c.1
  | .compact => m.phase op.1 = .idle → ∀ t, m.phase t = .idle
  | .scan _ => True
  | .advance => ∀ c, m.phase op.1 = .synced c → m.isOversized = true →
      ∀ t, t ≠ op.1 → m.phase t = .idle

theorem coherent_startScan (h : m.Serving crc entries synced) (hsynced : synced = entries)
    (hothers : ∀ t', t' ≠ t → m.phase t' = .idle) (ht : ∀ c, m.phase t ≠ .inserted c)
    (call : Option Commit) :
    ({ m.startScan t call with lock := none } : Manager Thread).Coherent crc := by
  have hnone : ∀ t' c, m.phase t' ≠ .inserted c := by
    intro t' c
    by_cases htt : t' = t
    · rw [htt]
      exact ht c
    · rw [hothers t' htt]
      simp
  refine .compacting t rfl (others_setPhase hothers) ?_
  have hphase : (m.startScan t call).phase t = .scanning call m.offsets.keys [] :=
    setPhase_phase_self m t _
  show Manager.Stage crc _ ((m.startScan t call).phase t)
  rw [hphase]
  exact ⟨(h.current hsynced hnone).congr rfl rfl rfl fun _ _ => rfl,
    fun key hkey => AList.mem_keys.mp hkey, fun c hc => absurd hc not_mem_nil⟩

theorem Coherent.advance (h : m.Coherent crc) (hop : m.Orderly (t, .advance)) :
    (m.advance crc t).Coherent crc := by
  unfold Manager.advance
  cases hphase : m.phase t with
  | idle => exact h
  | inserted c =>
    show (if m.lock = none then m.writeEntry crc t c else m).Coherent crc
    split
    · next hlock =>
      obtain ⟨entries, synced, hserving⟩ := h.exists_serving hphase nofun rfl
      exact .serving _ _ (hserving.writeEntry hphase hlock)
    · exact h
  | written =>
    obtain ⟨entries, synced, hserving⟩ := h.exists_serving hphase nofun rfl
    exact .serving _ _ (hserving.sync hphase)
  | synced c =>
    obtain ⟨entries, synced, hserving⟩ := h.exists_serving hphase nofun rfl
    show (m.finishAppend t c).Coherent crc
    unfold Manager.finishAppend
    split
    · next hbig =>
      exact coherent_startScan hserving (hserving.synced_eq hphase).1 (hop c hphase hbig)
        (by simp [hphase]) (some c)
    · exact .serving _ _ (hserving.acknowledge hphase)
  | scanning call started collected =>
    obtain ⟨hlock, hothers, hstage⟩ := h.stage hphase rfl
    show (if started ⊆ collected.map Prod.fst then m.openTmp t call collected else m).Coherent crc
    split
    · next hdone => exact .compacting t hlock (others_setPhase hothers) (hstage.openTmp hdone)
    · exact h
  | tmpOpened =>
    obtain ⟨hlock, hothers, hstage⟩ := h.stage hphase rfl
    exact .compacting t hlock (others_setPhase hothers) hstage.writeTmp
  | tmpWritten call =>
    obtain ⟨hlock, hothers, hstage⟩ := h.stage hphase rfl
    refine .compacting t hlock (others_setPhase hothers) ?_
    exact (setPhase_phase_self m t (.tmpSynced call)).symm ▸ hstage.syncTmp
  | tmpSynced call =>
    obtain ⟨hlock, hothers, hstage⟩ := h.stage hphase rfl
    show (if m.lock = none then m.setPhase t (.unlocked call) else m).Coherent crc
    rw [if_pos hlock]
    refine .compacting t hlock (others_setPhase hothers) ?_
    rw [setPhase_phase_self]
    obtain ⟨hcurrent, hrest⟩ := hstage
    exact ⟨hcurrent.congr rfl rfl rfl fun _ _ => rfl, hrest⟩
  | unlocked call =>
    obtain ⟨hlock, hothers, hstage⟩ := h.stage hphase rfl
    refine .compacting t hlock (others_setPhase hothers) ?_
    exact (setPhase_phase_self m t (.removed call)).symm ▸ hstage.remove
  | removed call =>
    obtain ⟨hlock, hothers, hstage⟩ := h.stage hphase rfl
    obtain ⟨disk, heq, hnext⟩ := hstage.renameTmp (t := t)
    show (m.renameTmp t call).Coherent crc
    rw [heq] at hnext ⊢
    refine .compacting t hlock (others_setPhase hothers) ?_
    exact (setPhase_phase_self m t (.renamed call)).symm ▸ hnext
  | renamed call =>
    obtain ⟨hlock, hothers, hstage⟩ := h.stage hphase rfl
    show (if m.lock = none then m.exchangeLog t call else m).Coherent crc
    rw [if_pos hlock]
    obtain ⟨entries, hserving⟩ := hstage.exchangeLog hlock hothers
    exact .serving entries entries hserving

end Steps

end Manager

end Bifrox.ConsumerGroup

/-
What a crash leaves of the committed offsets when one call follows the other: all of them,
exactly when no log is removed after an acknowledgement.
-/
import Bifrox.ConsumerGroup.Recovery

namespace Bifrox.ConsumerGroup
namespace Manager

open Option Manager FileSystem Run

variable {Thread : Type} {crc : Checksum} {m : Manager Thread} {entries synced : List Commit}

/-! ## What a crash leaves -/

def soloStep (crc : Checksum) (m : Manager Unit) (action : Action) : Manager Unit :=
  m.step crc ((), action)

/-- The value of a key in the last commit of it that was acknowledged. -/
def lastAcknowledged (m : Manager Thread) (key : GroupKey) : Option OffsetEntry :=
  (insertAll ∅ m.acknowledged).lookup key

/-- What the next start reads if the machine stops now. -/
def survivor (crc : Checksum) (m : Manager Thread) (key : GroupKey) : Option OffsetEntry :=
  (openLog crc m.disk.crash).2.2.lookup key

/-- A crash now leaves the last acknowledged commit of every key, or the one in
progress. -/
def Survives (crc : Checksum) (m : Manager Unit) : Prop :=
  ∀ key entry, m.lastAcknowledged key = some entry → m.survivor crc key = some entry ∨
    ∃ c, (m.phase ()).commit = some c ∧ c.1 = key ∧ m.survivor crc key = some c.2

/-- A log is removed only while nothing has been acknowledged. -/
def KeepsLog (m : Manager Unit) (action : Action) : Prop :=
  action = .advance → ∀ call, m.phase () = .unlocked call → m.acknowledged = []

/-- What holds between the steps as long as no log is removed after an
acknowledgement. -/
structure Kept (crc : Checksum) (m : Manager Unit) : Prop where
  survives : m.Survives crc
  call : ∀ c, (m.phase ()).commit = some c → m.offsets.lookup c.1 = some c.2
  removed : ∀ call, m.phase () = .removed call ∨ m.phase () = .renamed call → m.acknowledged = []

structure Sound (crc : Checksum) (m : Manager Unit) : Prop extends Kept crc m where
  coherent : m.Coherent crc

theorem InPlace.survivor (h : m.InPlace crc entries synced)
    (key : GroupKey) : m.survivor crc key = (insertAll ∅ synced).lookup key := by
  have hdir : m.disk.crash.dir .log = some m.logFile.inode := h.dir
  rw [Manager.survivor, openLog_offsets hdir]
  show (insertAll ∅ (recover crc (m.disk.inode m.logFile.inode).synced).values).lookup key = _
  rw [h.synced]

theorem survivor_of_none (h : m.disk.dir .log = none) (key : GroupKey) :
    m.survivor crc key = none := by
  have hdir : m.disk.crash.dir .log = none := h
  have hdata : ((m.disk.crash.create .log).1.inode (m.disk.crash.create .log).2).data = [] :=
    congrArg Inode.data (create_inode_self _)
  simp only [survivor, openLog, openOrCreate_of_none _ hdir, hdata]
  rfl

theorem survivor_congr {m' : Manager Thread} (hdir : m'.disk.dir .log = m.disk.dir .log)
    (hsynced : ∀ i, m.disk.dir .log = some i → (m'.disk.inode i).synced = (m.disk.inode i).synced)
    (key : GroupKey) : m'.survivor crc key = m.survivor crc key := by
  cases hlog : m.disk.dir .log with
  | none => rw [survivor_of_none hlog, survivor_of_none (hdir.trans hlog)]
  | some i =>
    have hcrash : m.disk.crash.dir .log = some i := hlog
    have hcrash' : m'.disk.crash.dir .log = some i := hdir.trans hlog
    rw [survivor, survivor, openLog_offsets hcrash, openLog_offsets hcrash']
    show (insertAll ∅ (recover crc (m'.disk.inode i).synced).values).lookup key =
      (insertAll ∅ (recover crc (m.disk.inode i).synced).values).lookup key
    rw [hsynced i hlog]

variable {s s' : Manager Unit} {action : Action}

theorem Survives.congr (h : s.Survives crc) (hack : s'.acknowledged = s.acknowledged)
    (hcommit : (s'.phase ()).commit = (s.phase ()).commit)
    (hsurvivor : ∀ key, s'.survivor crc key = s.survivor crc key) : s'.Survives crc := by
  intro key entry hlast
  rw [lastAcknowledged, hack] at hlast
  rw [hsurvivor, hcommit]
  exact h key entry hlast

theorem survives_of_nil (h : s.acknowledged = []) : s.Survives crc := by
  intro key entry hlast
  rw [lastAcknowledged, h] at hlast
  exact absurd hlast.symm (some_ne_none entry)

variable {entry : OffsetEntry}

theorem Survives.idle (h : s.Survives crc) (hcommit : (s.phase ()).commit = none) {key : GroupKey}
    (hlast : s.lastAcknowledged key = some entry) : s.survivor crc key = some entry := by
  rcases h key entry hlast with hleft | ⟨c, hc, -⟩
  · exact hleft
  · rw [hcommit] at hc
    exact absurd hc.symm (some_ne_none c)

variable {c : Commit}

theorem Survives.of_ne (h : s.Survives crc) (hcommit : (s.phase ()).commit = some c)
    {key : GroupKey} (hlast : s.lastAcknowledged key = some entry) (hkey : key ≠ c.1) :
    s.survivor crc key = some entry := by
  rcases h key entry hlast with hleft | ⟨c', hc', hkey', -⟩
  · exact hleft
  · rw [hcommit] at hc'
    exact absurd (by rw [Option.some.inj hc', hkey']) hkey

theorem orderly_solo (hfits : ∀ c, action = .commit c → Fits c) : s.Orderly ((), action) := by
  cases action with
  | commit c =>
    intro hidle
    refine ⟨hfits c rfl, fun t => ?_, fun t c' hp => ?_⟩
    · rw [show s.phase t = .idle from hidle]
      rfl
    · exact absurd ((show s.phase t = .idle from hidle).symm.trans hp) (by simp)
  | compact => exact fun hidle _ => hidle
  | scan => trivial
  | advance => exact fun c _ _ t ht => absurd rfl ht

theorem Kept.of_phase {phase : Phase} (hphase : s'.phase () = phase) (hsurvives : s'.Survives crc)
    (hcall : ∀ c, phase.commit = some c → s'.offsets.lookup c.1 = some c.2)
    (hne : ∀ call, phase ≠ .removed call ∧ phase ≠ .renamed call) : s'.Kept crc where
  survives := hsurvives
  call := hphase ▸ hcall
  removed := by
    rintro call (hp | hp)
    · exact absurd (hphase.symm.trans hp) (hne call).1
    · exact absurd (hphase.symm.trans hp) (hne call).2

theorem Kept.unchanged {phase : Phase} (h : s.Kept crc)
    (hack : s'.acknowledged = s.acknowledged) (hoffsets : s'.offsets = s.offsets)
    (hphase : s'.phase () = phase) (hcommit : phase.commit = (s.phase ()).commit)
    (hsurvivor : ∀ key, s'.survivor crc key = s.survivor crc key)
    (hne : ∀ call, phase ≠ .removed call ∧ phase ≠ .renamed call) : s'.Kept crc := by
  refine .of_phase hphase (h.survives.congr hack (hphase ▸ hcommit) hsurvivor) ?_ hne
  rw [hcommit, hoffsets]
  exact h.call

theorem Kept.insert (h : s.Kept crc) (hidle : s.phase () = .idle) : (s.insert () c).Kept crc := by
  refine .of_phase (setPhase_phase_self s () _) ?_ ?_ (by simp)
  · intro key entry hlast
    exact Or.inl (h.survives.idle (by rw [hidle]; rfl) hlast)
  · rintro _ ⟨⟩
    exact AList.lookup_insert s.offsets

/-- With the sync the entry of the call takes the place of the one acknowledged before. -/
theorem Sound.sync (h : s.Sound crc) (hwritten : s.phase () = .written c) :
    ({ s.setPhase () (.synced c) with disk := s.disk.sync s.logFile.inode } :
      Manager Unit).Kept crc := by
  set s' : Manager Unit := { s.setPhase () (.synced c) with disk := s.disk.sync s.logFile.inode }
  have hphase : s'.phase () = .synced c := setPhase_phase_self s () _
  have hcommit : (s.phase ()).commit = some c := by
    rw [hwritten]
    rfl
  obtain ⟨entries, synced, hserving⟩ := h.coherent.exists_serving hwritten nofun rfl
  obtain ⟨-, -, rfl⟩ := hserving.written_eq hwritten
  refine .of_phase hphase ?_ (fun c' hc' => h.call c' (hcommit.trans hc')) (by simp)
  intro key entry hlast
  rw [(hserving.sync hwritten).inPlace.survivor, lookup_insertAll_concat,
    ← hserving.inPlace.survivor]
  by_cases hkey : key = c.1
  · exact Or.inr ⟨c, by rw [hphase]; rfl, hkey.symm, if_pos hkey⟩
  · rw [if_neg hkey]
    exact Or.inl (h.survives.of_ne hcommit hlast hkey)

theorem Sound.acknowledge (h : s.Sound crc) (hsynced : s.phase () = .synced c) :
    ({ s.acknowledge () (some c) with lock := none } : Manager Unit).Kept crc := by
  have hcommit : (s.phase ()).commit = some c := by
    rw [hsynced]
    rfl
  obtain ⟨entries, synced, hserving⟩ := h.coherent.exists_serving hsynced nofun rfl
  obtain ⟨rfl, -, before, rfl⟩ := hserving.synced_eq hsynced
  refine .of_phase (setPhase_phase_self s () .idle) ?_ nofun (by simp)
  intro key entry hlast
  have hlast' : (insertAll ∅ (s.acknowledged ++ [c])).lookup key = some entry := hlast
  rw [lookup_insertAll_concat] at hlast'
  show s.survivor crc key = some entry ∨ _
  by_cases hkey : key = c.1
  · rw [if_pos hkey] at hlast'
    rw [hserving.inPlace.survivor, lookup_insertAll_concat, if_pos hkey]
    exact Or.inl hlast'
  · rw [if_neg hkey] at hlast'
    exact Or.inl (h.survives.of_ne hcommit hlast' hkey)

theorem Sound.exchangeLog {call : Option Commit} (h : s.Sound crc)
    (hrenamed : s.phase () = .renamed call) : (s.exchangeLog () call).Kept crc := by
  have hphase : (s.exchangeLog () call).phase () = .idle := setPhase_phase_self s () _
  have hack : (s.exchangeLog () call).acknowledged = call.toList := by
    show s.acknowledged ++ call.toList = call.toList
    rw [h.removed call (Or.inr hrenamed), List.nil_append]
  obtain ⟨hlock, hothers, hstage⟩ := h.coherent.stage hrenamed rfl
  obtain ⟨entries, hserving⟩ := hstage.exchangeLog hlock hothers
  refine .of_phase hphase ?_ nofun (by simp)
  intro key entry hlast
  have hmem : (key, entry) ∈ call.toList := by
    rw [lastAcknowledged, hack] at hlast
    exact mem_of_lookup_insertAll hlast
  left
  rw [hserving.inPlace.survivor, hserving.lookup key (by simp [hphase])]
  apply h.call (key, entry)
  rw [hrenamed]
  exact mem_toList.mp hmem

theorem Kept.of_nil (h : s.Kept crc) (hack : s'.acknowledged = [])
    (hoffsets : s'.offsets = s.offsets) {phase : Phase} (hphase : s'.phase () = phase)
    (hcommit : phase.commit = (s.phase ()).commit) : s'.Kept crc where
  survives := survives_of_nil hack
  call := by
    rw [hphase, hcommit, hoffsets]
    exact h.call
  removed := fun _ _ => hack

theorem Sound.advance (h : s.Sound crc) (hkeeps : s.KeepsLog .advance) :
    (s.advance crc ()).Kept crc := by
  have hkept := h.toKept
  unfold Manager.advance
  cases hphase : s.phase () with
  | idle => exact hkept
  | inserted c =>
    show (if s.lock = none then s.writeEntry crc () c else s).Kept crc
    split
    · refine hkept.unchanged rfl rfl (setPhase_phase_self s () _) (by rw [hphase]; rfl) ?_ (by simp)
      exact survivor_congr rfl fun i _ => write_synced s.disk
    · exact hkept
  | written => exact h.sync hphase
  | synced c =>
    show (s.finishAppend () c).Kept crc
    unfold finishAppend
    split
    · have hnext : (s.startScan () (some c)).phase () = .scanning (some c) s.offsets.keys [] :=
        setPhase_phase_self s () _
      exact hkept.unchanged rfl rfl hnext (by rw [hphase]; rfl) (fun _ => rfl) (by simp)
    · exact h.acknowledge hphase
  | scanning call started collected =>
    show (if started ⊆ collected.map Prod.fst then s.openTmp () call collected else s).Kept crc
    split
    · obtain ⟨-, -, hdir, hinodes⟩ := openTruncated_spec s.disk
      refine hkept.unchanged rfl rfl (setPhase_phase_self s () _) (by rw [hphase]; rfl) ?_ (by simp)
      refine survivor_congr (hdir .log (by decide)) fun i hi => ?_
      exact congrArg Inode.synced (hinodes .log i (by decide) hi).2
    · exact hkept
  | tmpOpened =>
    refine hkept.unchanged rfl rfl (setPhase_phase_self s () _) (by rw [hphase]; rfl) ?_ (by simp)
    exact survivor_congr rfl fun i _ => write_synced s.disk
  | tmpWritten =>
    obtain ⟨-, -, -, hdir, -⟩ := h.coherent.stage hphase rfl
    refine hkept.unchanged rfl rfl (setPhase_phase_self s () _) (by rw [hphase]; rfl) ?_ (by simp)
    refine survivor_congr rfl fun i hi => ?_
    exact congrArg Inode.synced (sync_inode_ne s.disk (tmp_ne_log hdir hi))
  | tmpSynced call =>
    show (if s.lock = none then s.setPhase () (.unlocked call) else s).Kept crc
    split
    · exact hkept.unchanged rfl rfl (setPhase_phase_self s () _) (by rw [hphase]; rfl)
        (fun _ => rfl) (by simp)
    · exact hkept
  | unlocked call =>
    exact hkept.of_nil (hkeeps rfl call hphase) rfl (setPhase_phase_self s () _)
      (by rw [hphase]; rfl)
  | removed call =>
    obtain ⟨-, -, hstage⟩ := h.coherent.stage hphase rfl
    obtain ⟨disk, heq, -⟩ := hstage.renameTmp (t := ())
    show (s.renameTmp () call).Kept crc
    rw [heq]
    exact hkept.of_nil (h.removed call (Or.inl hphase)) rfl (setPhase_phase_self s () _)
      (by rw [hphase]; rfl)
  | renamed call =>
    show (if s.lock = none then s.exchangeLog () call else s).Kept crc
    split
    · exact h.exchangeLog hphase
    · exact hkept

theorem Sound.step (h : s.Sound crc) (hfits : ∀ c, action = .commit c → Fits c)
    (hkeeps : s.KeepsLog action) : (s.soloStep crc action).Sound crc := by
  have hkept := h.toKept
  refine ⟨?_, h.coherent.step ((), action) (orderly_solo hfits)⟩
  cases action with
  | commit c =>
    show (if s.phase () = .idle then s.insert () c else s).Kept crc
    split
    · next hidle => exact hkept.insert hidle
    · exact hkept
  | compact =>
    show (if s.phase () = .idle then s.startScan () none else s).Kept crc
    split
    · next hidle =>
      exact hkept.unchanged rfl rfl (setPhase_phase_self s () _) (by rw [hidle]; rfl)
        (fun _ => rfl) (by simp)
    · exact hkept
  | scan key =>
    cases hphase : s.phase () with
    | scanning call started collected =>
      have heq : s.soloStep crc (.scan key) = s.scan () call started collected key := by
        simp only [soloStep, step, hphase]
      rw [heq, scan]
      split
      · exact hkept
      · split
        · exact hkept
        · exact hkept.unchanged rfl rfl (setPhase_phase_self s () _) (by rw [hphase]; rfl)
            (fun _ => rfl) (by simp)
    | _ =>
      have heq : s.soloStep crc (.scan key) = s := by simp only [soloStep, step, hphase]
      rw [heq]
      exact hkept
  | advance => exact h.advance hkeeps

/-- Once the log is removed, nothing of it is left to recover. -/
theorem keepsLog_of_survives (hnext : (s.soloStep crc action).Survives crc) :
    s.KeepsLog action := by
  rintro rfl call hphase
  set s' : Manager Unit := { s.setPhase () (.removed call) with disk := s.disk.unlink .log }
  have heq : s.soloStep crc .advance = s' := by
    show s.advance crc () = _
    simp only [advance, hphase]
    rfl
  rw [heq] at hnext
  have hgone : ∀ key, s'.survivor crc key = none :=
    survivor_of_none (unlink_dir_self s.disk)
  rcases List.eq_nil_or_concat s.acknowledged with hack | ⟨acknowledged, c, hack⟩
  · exact hack
  · have hlast : s'.lastAcknowledged c.1 = some c.2 := by
      show (insertAll ∅ s.acknowledged).lookup c.1 = some c.2
      rw [hack, List.concat_eq_append, lookup_insertAll_concat, if_pos rfl]
    rcases hnext c.1 c.2 hlast with hvalue | ⟨c', -, -, hvalue⟩
    · exact absurd (hvalue.symm.trans (hgone _)) (some_ne_none _)
    · exact absurd (hvalue.symm.trans (hgone _)) (some_ne_none _)

theorem sound_open (disk : Disk) : (Manager.open crc Unit disk.crash).Sound crc where
  coherent := coherent_open disk
  survives := survives_of_nil rfl
  call := fun c hc => absurd hc.symm (some_ne_none c)
  removed := fun _ _ => rfl

/-- Commits that fit survive a crash after any step exactly when no compaction removes
the log after one of them has been acknowledged. -/
theorem survives_iff_keepsLog (crc : Checksum) (disk : Disk) (ops : List Action)
    (hfits : ∀ c, Action.commit c ∈ ops → Fits c) :
    Run.Always (soloStep crc) (Survives crc) (Manager.open crc Unit disk.crash) ops ↔
      Run.Guarded (soloStep crc) KeepsLog (Manager.open crc Unit disk.crash) ops := by
  have hops : Run.Guarded (soloStep crc) (fun _ action => ∀ c, action = .commit c → Fits c)
      (Manager.open crc Unit disk.crash) ops := by
    apply Run.Guarded.of_forall
    rintro action hmem c rfl
    exact hfits c hmem
  exact always_iff_guarded (fun _ h => h.survives)
    (fun _ _ h hfits hkeeps => h.step hfits hkeeps)
    (fun _ _ _ _ hnext => keepsLog_of_survives hnext)
    (sound_open disk) hops

/-! ### A crash between the removal of the log and the rename -/

def committing (c : Commit) : List Action := [.commit c, .advance, .advance, .advance]

theorem run_committing (hplace : s.InPlace crc entries synced)
    (hidle : s.phase () = .idle) (hlock : s.lock = none) (hc : Fits c)
    (hsmall : (encodeEntries crc (entries ++ [c])).length ≤ compactionThreshold) :
    let s' := run (soloStep crc) s (committing c)
    s'.phase () = .idle ∧ s'.lock = none ∧ s'.offsets = s.offsets.insert c.1 c.2 ∧
      s'.acknowledged = s.acknowledged ++ [c] := by
  have hfirst : s.soloStep crc (.commit c) = s.insert () c := if_pos hidle
  have hrun : run (soloStep crc) s (committing c) =
      run (step crc) (s.insert () c) (appended ()) := by
    rw [committing, run_cons, hfirst]
    rfl
  have hinsert : (s.insert () c).InPlace crc entries synced := hplace.congr rfl rfl rfl
  have hinserted : (s.insert () c).phase () = .inserted c := setPhase_phase_self s () _
  obtain ⟨-, hlock', hoffsets, hphase, hack, -⟩ := run_appended hinsert hlock hinserted hc hsmall
  rw [hrun]
  exact ⟨by rw [hphase, Function.update_self], hlock', hoffsets, hack⟩

/-- A compaction of a map with one key, until the log is about to be removed. -/
def rewriting (key : GroupKey) : List Action :=
  [.compact, .scan key, .advance, .advance, .advance, .advance]

theorem run_rewriting (crc : Checksum) (key : GroupKey) (hidle : s.phase () = .idle)
    (hlock : s.lock = none) (hkeys : s.offsets.keys = [key])
    (hentry : s.offsets.lookup key = some entry) :
    (run (soloStep crc) s (rewriting key)).phase () = .unlocked none ∧
      (run (soloStep crc) s (rewriting key)).acknowledged = s.acknowledged := by
  simp [rewriting, soloStep, step, hidle, startScan, setPhase, scan, hentry, hkeys,
    advance, openTmp, writeTmp, hlock]

/-- The first commit is acknowledged.  A crash right after the compaction has removed the
log loses it. -/
theorem not_survives_removed : ¬ ∃ crc : Checksum, Run.Always (soloStep crc) (Survives crc)
      (Manager.open crc Unit (crash empty))
      (committing (commitOf someKey 1) ++ (rewriting someKey ++ [.advance])) := by
  rintro ⟨crc, halways⟩
  set s₀ := Manager.open crc Unit (crash empty)
  have hplace : s₀.InPlace crc [] [] := ⟨rfl, rfl, rfl, rfl, by simp⟩
  have hsmall : (encodeEntries crc ([] ++ [commitOf someKey 1])).length ≤ compactionThreshold := by
    refine Nat.le_trans ?_ (length_commitOf crc someKey someKey 1 1 ⟨rfl, rfl⟩ ⟨rfl, rfl⟩)
    simp [encodeEntries]
  obtain ⟨hidle, hlock, hoffsets, hack⟩ := run_committing hplace rfl rfl (by decide) hsmall
  obtain ⟨hunlocked, hsame⟩ := run_rewriting crc someKey hidle hlock
    (by rw [hoffsets]; rfl) (by rw [hoffsets]; rfl)
  have hlast := halways.run
  rw [run_append, run_append, run_cons, run_nil] at hlast
  have hnil := keepsLog_of_survives hlast rfl none hunlocked
  rw [hsame, hack] at hnil
  exact absurd hnil (by simp)

theorem survives_committing : let crc : Checksum := fun _ => 0;
    (∀ c, Action.commit c ∈ committing (commitOf someKey 1) → Fits c) ∧
      Run.Always (soloStep crc) (Survives crc) (Manager.open crc Unit (crash empty))
        (committing (commitOf someKey 1)) := by
  intro crc
  have hfits : ∀ c, Action.commit c ∈ committing (commitOf someKey 1) → Fits c := by
    intro c hc
    have heq : c = commitOf someKey 1 := by simpa [committing] using hc
    rw [heq]
    decide
  refine ⟨hfits, (survives_iff_keepsLog crc empty _ hfits).mpr ?_⟩
  refine ⟨?_, ?_, ?_, ?_, trivial⟩
  · exact fun h => absurd h (by simp)
  · exact fun _ call h => absurd (show Phase.inserted _ = .unlocked call from h) (by simp)
  · exact fun _ call h => absurd (show Phase.written _ = .unlocked call from h) (by simp)
  · exact fun _ call h => absurd (show Phase.synced _ = .unlocked call from h) (by simp)

end Manager
end Bifrox.ConsumerGroup

/-
Changes of a topic's configs and the settings in force (`alter_configs`,
`incremental_alter_configs` and `effective_min_insync_replicas` in
`src/server/engine.rs`).

The two part when a key is dropped, when a partition is opened later, and when there are blanks
around the number of in-sync replicas.
-/
import Bifrox.Metadata.Equivalence

namespace Bifrox.Metadata

open Option Engine Text Broker Table CleanupPolicy
open Run (Guarded Always)
open Server (TopicError validateClientTopicName)

/-! ## Requests -/

inductive AlterError where
  | name (error : TopicError)
  | unknownTopic (topic : Text)
  | invalid (error : ConfigError)

namespace Engine

variable (broker : Broker) (s : Engine)

def alterConfigs (topic : Text) (configs : List (Text × Text)) : Except AlterError Engine :=
  match validateClientTopicName broker.settings topic with
  | .error e => .error (.name e)
  | .ok () =>
    match s.topicRegistry.lookup topic with
    | none => .error (.unknownTopic topic)
    | some _ =>
      match validateTopicConfigs broker.floats configs with
      | .error e => .error (.invalid e)
      | .ok () => .ok (s.applyTopicConfigChange broker topic configs)

def mergeConfigs (stored : Configs) (upserts : List (Text × Text)) (deletes : List Text) :
    Configs :=
  (deletes.foldl (fun merged key => merged.erase key) stored).insertAll upserts

/-- `incremental_alter_configs`.  The merged map is turned into a list for the record and
collected again, in whatever order. -/
def incrementalAlterConfigs (topic : Text) (upserts : List (Text × Text)) (deletes : List Text) :
    Except AlterError Engine :=
  match validateClientTopicName broker.settings topic with
  | .error e => .error (.name e)
  | .ok () =>
    match s.topicRegistry.lookup topic with
    | none => .error (.unknownTopic topic)
    | some cfg =>
      match validateTopicConfigs broker.floats upserts with
      | .error e => .error (.invalid e)
      | .ok () => .ok (s.setTopicConfigs broker topic (mergeConfigs cfg.configs upserts deletes))

/-- `effective_min_insync_replicas`: the stored text as it is, or the broker's default. -/
def effectiveMinInsyncReplicas (topic : Text) : Nat :=
  (((s.topicRegistry.lookup topic).bind (·.configs.value .minInsyncReplicas)).bind parseU64).getD
    broker.minInsyncReplicas

end Engine

/-- A request for configs, or anything that has a partition opened. -/
inductive ConfigRequest where
  | alter (topic : Text) (configs : List (Text × Text))
  | incremental (topic : Text) (upserts : List (Text × Text)) (deletes : List Text)
  | openPartition (topic : Text) (partition : UInt32)

/-- The engine after a request.  One that is refused changes nothing. -/
def Engine.serve (broker : Broker) (s : Engine) : ConfigRequest → Engine
  | .alter topic configs => (s.alterConfigs broker topic configs).toOption.getD s
  | .incremental topic upserts deletes =>
    (s.incrementalAlterConfigs broker topic upserts deletes).toOption.getD s
  | .openPartition topic partition => s.orKeep (s.getOrCreatePartition broker topic partition)

/-! ## Settings and what the configs say of them -/

inductive Pushed where
  | cleanupPolicy
  | compressionType
  | retentionMs
  | retentionBytes
  | deleteRetentionMs

namespace Pushed

@[reducible]
def Value : Pushed → Type
  | .cleanupPolicy => CleanupPolicy
  | .compressionType => CompressionCodec
  | .retentionMs | .retentionBytes | .deleteRetentionMs => Option Nat

def key : Pushed → ConfigKey
  | .cleanupPolicy => .cleanupPolicy
  | .compressionType => .compressionType
  | .retentionMs => .retentionMs
  | .retentionBytes => .retentionBytes
  | .deleteRetentionMs => .deleteRetentionMs

def parse : (k : Pushed) → Text → Option k.Value
  | .cleanupPolicy => fromStr
  | .compressionType => CompressionCodec.fromStr
  | .retentionMs | .retentionBytes | .deleteRetentionMs => fun text => (parseU64 text).map some

def read : (k : Pushed) → Text → Option k.Value
  | .cleanupPolicy => fromStr
  | .compressionType => CompressionCodec.fromStr
  | .retentionMs | .retentionBytes | .deleteRetentionMs => parseOptionalU64Config

def get (settings : PartitionSettings) : (k : Pushed) → k.Value
  | .cleanupPolicy => settings.cleanupPolicy
  | .compressionType => settings.compressionCodec
  | .retentionMs => settings.retentionMillis
  | .retentionBytes => settings.retentionBytes
  | .deleteRetentionMs => settings.deleteRetentionMillis

/-- The broker's default, or no limit where there can be none. -/
def IsUnset (broker : Broker) : (k : Pushed) → k.Value → Prop
  | .cleanupPolicy => fun value => value = broker.cleanupPolicy
  | .compressionType => fun value => value = broker.compressionCodec
  | .retentionMs => fun value => value = broker.settings.config.retentionMillis ∨ value = none
  | .retentionBytes => fun value => value = broker.settings.config.retentionBytes ∨ value = none
  | .deleteRetentionMs =>
    fun value => value = broker.settings.config.deleteRetentionMillis ∨ value = none

end Pushed

def trimmed (stored : Option Text) : Option Text := (stored.map trim).filter (· ≠ [])

def Meets {α : Type} (stored : Option Text) (parse : Text → Option α) (unset : α → Prop)
    (value : α) : Prop :=
  match trimmed stored with
  | some text => parse text = some value
  | none => unset value

def SettingsMeet (broker : Broker) (configs : Configs) (settings : PartitionSettings) : Prop :=
  ∀ k : Pushed, Meets (configs.value k.key) k.parse (k.IsUnset broker) (k.get settings)

/-- The settings in force follow the stored configs of the topic. -/
def InForce (broker : Broker) (topic : Text) (s : Engine) : Prop :=
  ∀ cfg, s.topicRegistry.lookup topic = some cfg →
    (∀ partition pm, s.partitions.lookup (topic, partition) = some pm →
      SettingsMeet broker cfg.configs pm.settings) ∧
    Meets (cfg.configs.value .minInsyncReplicas) parseU64 (· = broker.minInsyncReplicas)
      (s.effectiveMinInsyncReplicas broker topic)

/-! ## The condition on a step -/

/-- A key that the new configs lack or leave empty leaves no setting behind. -/
def Pushed.Withdrawn (broker : Broker) (configs : Configs) (settings : PartitionSettings)
    (k : Pushed) : Prop :=
  match configs.value k.key with
  | none => k.IsUnset broker (k.get settings)
  | some text => trim text = [] → k.IsUnset broker ((k.read text).getD (k.get settings))

/-- The number of in-sync replicas is written without blanks around it, or is the
default. -/
def PlainMinInsync (broker : Broker) (configs : Configs) : Prop :=
  ∀ text, configs.value .minInsyncReplicas = some text → trim text ≠ [] →
    trim text = text ∨ parseU64 (trim text) = some broker.minInsyncReplicas

def Settles (broker : Broker) (topic : Text) (s : Engine) (configs : Configs) : Prop :=
  (∀ partition pm, s.partitions.lookup (topic, partition) = some pm →
    ∀ k : Pushed, k.Withdrawn broker configs pm.settings) ∧ PlainMinInsync broker configs

/-- Stored configs that say no more than what a partition just opened has. -/
def SaysDefaults (broker : Broker) (configs : Configs) : Prop :=
  ∀ (k : Pushed) (text : Text), trimmed (configs.value k.key) = some text →
    k.parse text = some (k.get broker.defaultSettings)

/-- The condition on a request under which the settings of the topic still follow its
configs. -/
def Settled (broker : Broker) (topic : Text) (s : Engine) : ConfigRequest → Prop
  | .alter name configs =>
    name = topic → (s.alterConfigs broker name configs).isOk = true →
      Settles broker topic s (ofList configs)
  | .incremental name upserts deletes =>
    name = topic → (s.incrementalAlterConfigs broker name upserts deletes).isOk = true →
      ∀ cfg, s.topicRegistry.lookup topic = some cfg →
        Settles broker topic s (mergeConfigs cfg.configs upserts deletes)
  | .openPartition name partition =>
    name = topic → s.partitions.lookup (name, partition) = none →
      (s.getOrCreatePartition broker name partition).isOk = true →
      ∀ cfg, s.topicRegistry.lookup topic = some cfg → SaysDefaults broker cfg.configs

/-- A topic as it is created: no configs yet, and open partitions as they are opened. -/
structure Unconfigured (broker : Broker) (topic : Text) (s : Engine) : Prop where
  registered : ∃ cfg, s.topicRegistry.lookup topic = some cfg ∧ cfg.configs = ∅ ∧
    cfg.cleanupPolicy = broker.cleanupPolicy
  settings : ∀ partition pm, s.partitions.lookup (topic, partition) = some pm →
    pm.settings = broker.defaultSettings

/-! ## What was checked can be read -/

variable {text : Text}

theorem trimmed_some (h : trim text ≠ []) : trimmed (some text) = some (trim text) := by
  simp [trimmed, h]

theorem trimmed_blank (h : trim text = []) : trimmed (some text) = none := by
  simp [trimmed, h]

theorem isWhitespace_of_parseU64 {n : Nat} (h : parseU64 text = some n) :
    ∀ c ∈ text, isWhitespace c = false := by
  rw [parseU64, Decimal.parseBelow] at h
  split at h
  · next hdigits =>
    have hblank : ∀ c : Char, c.isDigit = true → isWhitespace c = false := by
      intro c hc
      rw [Char.isDigit, Bool.and_eq_true, decide_eq_true_iff, decide_eq_true_iff, ge_iff_le,
        UInt32.le_iff_toNat_le, UInt32.le_iff_toNat_le] at hc
      have hlow : 48 ≤ c.toNat := hc.1
      have hhigh : c.toNat ≤ 57 := hc.2
      simp [isWhitespace]
      omega
    have hall := List.all_eq_true.mp hdigits.2.1
    intro c hc
    rw [Decimal.stripPlus] at hall
    split at hall
    · next hplus =>
      rw [← List.cons_head?_tail hplus] at hc
      rcases List.mem_cons.mp hc with rfl | htail
      · decide
      · exact hblank c (hall c htail)
    · exact hblank c (hall c hc)
  · cases h

theorem parseU64_eq_none_of_trim_ne (h : trim text ≠ text) : parseU64 text = none := by
  rcases hparse : parseU64 text with _ | n
  · rfl
  · exact absurd (trim_eq_self (isWhitespace_of_parseU64 hparse)) h

theorem normalize_trim : normalize (trim text) = normalize text := by
  rw [normalize, normalize, trim_trim]

theorem ConfigKey.find?_name (key : ConfigKey) :
    ConfigKey.all.find? (fun known => known.name = key.name) = some key := by
  cases key <;> decide

namespace Pushed

variable (k : Pushed) {floats : Floats}

theorem read_eq_parse (h : trim text ≠ []) : k.read text = k.parse (trim text) := by
  cases k with
  | cleanupPolicy =>
    show fromStr text = fromStr (trim text)
    simp only [fromStr, normalize_trim]
  | compressionType =>
    show CompressionCodec.fromStr text = CompressionCodec.fromStr (trim text)
    simp only [CompressionCodec.fromStr, normalize_trim]
  | retentionMs => exact if_neg h
  | retentionBytes => exact if_neg h
  | deleteRetentionMs => exact if_neg h

theorem isSome_parse_of_accepts (h : k.key.accepts floats text = true) :
    (k.parse text).isSome = true := by
  cases k with
  | cleanupPolicy => exact h
  | compressionType => exact h
  | retentionMs => exact isSome_map.trans h
  | retentionBytes => exact isSome_map.trans h
  | deleteRetentionMs => exact isSome_map.trans h

theorem get_push {configs : Configs} {settings : PartitionSettings} :
    k.get (configs.push floats settings) = configs.override k.key k.read (k.get settings) := by
  cases k <;> rfl

theorem isUnset_default {broker : Broker} : k.IsUnset broker (k.get broker.defaultSettings) := by
  cases k with
  | cleanupPolicy => rfl
  | compressionType => rfl
  | retentionMs => exact .inl rfl
  | retentionBytes => exact .inl rfl
  | deleteRetentionMs => exact .inl rfl

end Pushed

def Checked (floats : Floats) (configs : Configs) : Prop :=
  configs.All fun key value => validateConfig floats key value = .ok ()

theorem validateConfig_of_mem {floats : Floats} {configs : List (Text × Text)}
    (h : validateTopicConfigs floats configs = .ok ()) {entry : Text × Text}
    (hentry : entry ∈ configs) : validateConfig floats entry.1 entry.2 = .ok () := by
  induction configs with
  | nil => cases hentry
  | cons first rest ih =>
    rw [validateTopicConfigs] at h
    split at h
    · next hfirst =>
      rcases List.mem_cons.mp hentry with rfl | hrest
      · exact hfirst
      · exact ih h hrest
    · cases h

namespace Checked

variable {broker : Broker} {configs : Configs} {floats : Floats}

theorem insertAll (h : Checked floats configs) {entries : List (Text × Text)}
    (hentries : validateTopicConfigs floats entries = .ok ()) :
    Checked floats (configs.insertAll entries) := by
  intro key value hlookup
  rcases mem_or_of_lookup_insertAll hlookup with hmem | hold
  · exact validateConfig_of_mem hentries hmem
  · exact h key value hold

theorem mergeConfigs (h : Checked floats configs) {upserts : List (Text × Text)}
    (hupserts : validateTopicConfigs floats upserts = .ok ()) (deletes : List Text) :
    Checked floats (mergeConfigs configs upserts deletes) := by
  refine insertAll ?_ hupserts
  induction deletes generalizing configs with
  | nil => exact h
  | cons key deletes ih => exact ih (Table.All.erase h key)

theorem accepts (h : Checked floats configs) {key : ConfigKey}
    (hvalue : configs.value key = some text) (hblank : trim text ≠ []) :
    key.accepts floats (trim text) = true := by
  have hcheck : validateConfig floats key.name text = .ok () := h key.name text hvalue
  rw [validateConfig, if_neg hblank, key.find?_name] at hcheck
  by_cases haccepts : key.accepts floats (trim text) = true
  · exact haccepts
  · simp [haccepts] at hcheck

/-- The setting that a change leaves is the stored one just when the key leaves nothing
behind. -/
theorem meets_push_iff (h : Checked broker.floats configs) {settings : PartitionSettings}
    {k : Pushed} :
    Meets (configs.value k.key) k.parse (k.IsUnset broker)
      (k.get (configs.push broker.floats settings)) ↔ k.Withdrawn broker configs settings := by
  rw [k.get_push, Configs.override, Meets, Pushed.Withdrawn]
  rcases hvalue : configs.value k.key with _ | text
  · exact Iff.rfl
  · by_cases hblank : trim text = []
    · rw [trimmed_blank hblank]
      exact ⟨fun hunset _ => hunset, fun hunset => hunset hblank⟩
    · rw [trimmed_some hblank, bind_some, k.read_eq_parse hblank]
      obtain ⟨value, hparse⟩ :=
        isSome_iff_exists.mp (k.isSome_parse_of_accepts (h.accepts hvalue hblank))
      rw [hparse]
      exact ⟨fun _ hb => absurd hb hblank, fun _ => hparse⟩

/-- The number of in-sync replicas follows the stored text just when that is plain. -/
theorem meets_minInsync_iff (h : Checked broker.floats configs) :
    Meets (configs.value .minInsyncReplicas) parseU64 (· = broker.minInsyncReplicas)
      (((configs.value .minInsyncReplicas).bind parseU64).getD broker.minInsyncReplicas) ↔
      PlainMinInsync broker configs := by
  rw [Meets, PlainMinInsync]
  rcases hvalue : configs.value .minInsyncReplicas with _ | text
  · exact ⟨fun _ text htext => absurd htext.symm (some_ne_none text), fun _ => rfl⟩
  · by_cases hblank : trim text = []
    · have hnone : parseU64 text = none := by
        by_cases htrim : trim text = text
        · rw [← htrim, hblank]
          rfl
        · exact parseU64_eq_none_of_trim_ne htrim
      rw [trimmed_blank hblank, bind_some, hnone]
      refine ⟨fun _ text' htext' hne => ?_, fun _ => rfl⟩
      rw [← Option.some.inj htext'] at hne
      exact absurd hblank hne
    · rw [trimmed_some hblank, bind_some]
      by_cases htrim : trim text = text
      · have haccepts : (parseU64 (trim text)).any (· ≠ 0) = true := h.accepts hvalue hblank
        obtain ⟨n, hn⟩ : ∃ n, parseU64 text = some n := by
          rw [htrim] at haccepts
          rcases hparse : parseU64 text with _ | n
          · rw [hparse] at haccepts
            cases haccepts
          · exact ⟨n, rfl⟩
        rw [htrim]
        refine ⟨fun _ text' htext' _ => ?_, fun _ => by rw [hn]; exact hn⟩
        rw [← Option.some.inj htext']
        exact .inl htrim
      · rw [parseU64_eq_none_of_trim_ne htrim, getD_none]
        constructor
        · intro hdefault text' htext' _
          rw [← Option.some.inj htext']
          exact .inr hdefault
        · intro hplain
          exact (hplain text rfl hblank).resolve_left htrim

end Checked

theorem settingsMeet_default_iff {broker : Broker} {configs : Configs} :
    SettingsMeet broker configs broker.defaultSettings ↔ SaysDefaults broker configs := by
  refine forall_congr' fun k => ?_
  rw [Meets]
  rcases trimmed (configs.value k.key) with _ | text
  · exact ⟨fun _ text htext => absurd htext.symm (some_ne_none text), fun _ => k.isUnset_default⟩
  · constructor
    · intro hparse text' htext'
      rw [← Option.some.inj htext']
      exact hparse
    · exact fun h => h text rfl

/-! ## One request -/

namespace Engine

variable {broker : Broker} {s : Engine} {topic : Text} {partition : UInt32}

theorem alterConfigs_of_isOk {configs : List (Text × Text)}
    (h : (s.alterConfigs broker topic configs).isOk = true) :
    validateTopicConfigs broker.floats configs = .ok () ∧ s.alterConfigs broker topic configs =
        .ok (s.setTopicConfigs broker topic (ofList configs)) := by
  unfold alterConfigs at h ⊢
  split at h
  · cases h
  · split at h
    · cases h
    · split at h
      · cases h
      · next hvalid =>
        rw [hvalid]
        exact ⟨rfl, rfl⟩

theorem incrementalAlterConfigs_of_isOk {upserts : List (Text × Text)} {deletes : List Text}
    (h : (s.incrementalAlterConfigs broker topic upserts deletes).isOk = true) :
    ∃ cfg, s.topicRegistry.lookup topic = some cfg ∧
      validateTopicConfigs broker.floats upserts = .ok () ∧
      s.incrementalAlterConfigs broker topic upserts deletes =
        .ok (s.setTopicConfigs broker topic (mergeConfigs cfg.configs upserts deletes)) := by
  unfold incrementalAlterConfigs at h ⊢
  split at h
  · cases h
  · split at h
    · cases h
    · next cfg hcfg =>
      split at h
      · cases h
      · next hvalid => exact ⟨cfg, hcfg, hvalid, rfl⟩

theorem getOrCreatePartition_of_isOk (hclosed : s.partitions.lookup (topic, partition) = none)
    (h : (s.getOrCreatePartition broker topic partition).isOk = true) :
    s.getOrCreatePartition broker topic partition = .ok { s with
      partitions :=
        s.partitions.insert (topic, partition) (s.openPartition broker topic partition) } := by
  unfold getOrCreatePartition at h ⊢
  split at h
  · cases h
  · simp only [hclosed]

theorem orKeep_getOrCreatePartition (h : ¬ (s.partitions.lookup (topic, partition) = none ∧
      (s.getOrCreatePartition broker topic partition).isOk = true)) :
    s.orKeep (s.getOrCreatePartition broker topic partition) = s := by
  unfold getOrCreatePartition at h ⊢
  split
  · rfl
  · next hcheck =>
    rw [hcheck] at h
    rcases hlookup : s.partitions.lookup (topic, partition) with _ | pm
    · rw [hlookup] at h
      exact absurd ⟨rfl, rfl⟩ h
    · rfl

theorem toOption_getD_of_not_isOk {ε : Type} {result : Except ε Engine}
    (h : ¬ result.isOk = true) : result.toOption.getD s = s := by
  cases result with
  | error => rfl
  | ok => exact absurd rfl h

end Engine

section Steps

variable {broker : Broker} {topic : Text} {s s' : Engine} {cfg : TopicConfig} {name : Text}
  {configs : Configs} {partition : UInt32}

/-- What holds of a topic besides: its policy is the broker's, and its configs were
checked. -/
def Sound (broker : Broker) (topic : Text) (s : Engine) : Prop :=
  ∃ cfg, s.topicRegistry.lookup topic = some cfg ∧ cfg.cleanupPolicy = broker.cleanupPolicy ∧
    Checked broker.floats cfg.configs

theorem inForce_iff (hcfg : s.topicRegistry.lookup topic = some cfg)
    (hchecked : Checked broker.floats cfg.configs) :
    InForce broker topic s ↔ (∀ partition pm, s.partitions.lookup (topic, partition) = some pm →
        SettingsMeet broker cfg.configs pm.settings) ∧ PlainMinInsync broker cfg.configs := by
  rw [← hchecked.meets_minInsync_iff, InForce, effectiveMinInsyncReplicas, hcfg]
  constructor
  · exact fun h => h cfg rfl
  · intro h cfg' hcfg'
    rw [← Option.some.inj hcfg']
    exact h

theorem inForce_congr (hregistry : s'.topicRegistry.lookup topic = s.topicRegistry.lookup topic)
    (hpartitions : ∀ partition,
      s'.partitions.lookup (topic, partition) = s.partitions.lookup (topic, partition)) :
    InForce broker topic s' ↔ InForce broker topic s := by
  simp only [InForce, effectiveMinInsyncReplicas, hregistry, hpartitions]

theorem lookup_setTopicConfigs (hcfg : s.topicRegistry.lookup topic = some cfg) :
    (s.setTopicConfigs broker topic configs).topicRegistry.lookup topic =
      some { cfg with configs := configs } := by
  simp [setTopicConfigs, hcfg]

theorem lookup_setTopicConfigs_of_ne (h : topic ≠ name) :
    (s.setTopicConfigs broker name configs).topicRegistry.lookup topic =
      s.topicRegistry.lookup topic := by
  unfold setTopicConfigs
  dsimp only
  split
  · exact lookup_insert_of_ne _ h _
  · rfl

theorem inForce_setTopicConfigs_iff (hcfg : s.topicRegistry.lookup topic = some cfg)
    (hchecked : Checked broker.floats configs) :
    InForce broker topic (s.setTopicConfigs broker topic configs) ↔
      Settles broker topic s configs := by
  rw [inForce_iff (lookup_setTopicConfigs hcfg) hchecked, Settles]
  refine and_congr_left fun _ => forall_congr' fun partition => ?_
  have hlookup : (s.setTopicConfigs broker topic configs).partitions.lookup (topic, partition) =
      (s.partitions.lookup (topic, partition)).map fun pm =>
        { pm with settings := configs.push broker.floats pm.settings } := by
    simp [setTopicConfigs]
  rw [hlookup]
  constructor
  · intro h pm hpm k
    rw [hpm] at h
    exact hchecked.meets_push_iff.mp (h _ rfl k)
  · intro h pm' hpm' k
    obtain ⟨pm, hpm, rfl⟩ := map_eq_some_iff.mp hpm'
    exact hchecked.meets_push_iff.mpr (h pm hpm k)

theorem inForce_setTopicConfigs_of_ne (h : topic ≠ name) :
    InForce broker topic (s.setTopicConfigs broker name configs) ↔ InForce broker topic s := by
  refine inForce_congr (lookup_setTopicConfigs_of_ne h) fun partition => ?_
  simp [setTopicConfigs, if_neg h]

theorem sound_setTopicConfigs (h : Sound broker topic s)
    (hchecked : name = topic → Checked broker.floats configs) :
    Sound broker topic (s.setTopicConfigs broker name configs) := by
  obtain ⟨cfg, hcfg, hpolicy, hold⟩ := h
  by_cases hname : name = topic
  · subst hname
    exact ⟨_, lookup_setTopicConfigs hcfg, hpolicy, hchecked rfl⟩
  · exact ⟨cfg, (lookup_setTopicConfigs_of_ne (Ne.symm hname)).trans hcfg, hpolicy, hold⟩

theorem settings_openPartition (hcfg : s.topicRegistry.lookup topic = some cfg)
    (hpolicy : cfg.cleanupPolicy = broker.cleanupPolicy) :
    (s.openPartition broker topic partition).settings = broker.defaultSettings := by
  simp only [openPartition, hcfg, hpolicy]
  rfl

theorem inForce_open_iff (hforce : InForce broker topic s)
    (hcfg : s.topicRegistry.lookup topic = some cfg)
    (hpolicy : cfg.cleanupPolicy = broker.cleanupPolicy)
    (hchecked : Checked broker.floats cfg.configs)
    (hs' : s' = { s with
      partitions :=
        s.partitions.insert (topic, partition) (s.openPartition broker topic partition) }) :
    InForce broker topic s' ↔ SaysDefaults broker cfg.configs := by
  have hcfg' : s'.topicRegistry.lookup topic = some cfg := by rw [hs']; exact hcfg
  have hforce := (inForce_iff hcfg hchecked).mp hforce
  rw [inForce_iff hcfg' hchecked, ← settingsMeet_default_iff, hs']
  dsimp only
  constructor
  · intro h
    have hopened := h.1 partition _ (lookup_insert_self _ _ _)
    rwa [settings_openPartition hcfg hpolicy] at hopened
  · refine fun h => ⟨fun other pm hpm => ?_, hforce.2⟩
    rw [lookup_insert] at hpm
    split at hpm
    · rw [← Option.some.inj hpm, settings_openPartition hcfg hpolicy]
      exact h
    · exact hforce.1 other pm hpm

section

variable (hsound : Sound broker topic s) (hforce : InForce broker topic s)
include hsound hforce

theorem inForce_set_iff
    {name : Text} {configs : Configs} (hchecked : name = topic → Checked broker.floats configs) :
    InForce broker topic (s.setTopicConfigs broker name configs) ↔
      (name = topic → Settles broker topic s configs) := by
  obtain ⟨cfg, hcfg, -, -⟩ := hsound
  by_cases hname : name = topic
  · subst hname
    rw [inForce_setTopicConfigs_iff hcfg (hchecked rfl)]
    exact ⟨fun h _ => h, fun h => h rfl⟩
  · rw [inForce_setTopicConfigs_of_ne (Ne.symm hname)]
    exact ⟨fun _ heq => absurd heq hname, fun _ => hforce⟩

theorem serve_alter {configs : List (Text × Text)} :
    Sound broker topic (s.serve broker (.alter name configs)) ∧
      (InForce broker topic (s.serve broker (.alter name configs)) ↔
        Settled broker topic s (.alter name configs)) := by
  by_cases hok : (s.alterConfigs broker name configs).isOk = true
  · obtain ⟨hvalid, heq⟩ := alterConfigs_of_isOk hok
    have hchecked : Checked broker.floats (ofList configs) :=
      Checked.insertAll Table.All.empty hvalid
    have hserve : s.serve broker (.alter name configs) =
        s.setTopicConfigs broker name (ofList configs) := by
      rw [serve, heq]
      rfl
    rw [hserve, inForce_set_iff hsound hforce fun _ => hchecked]
    exact ⟨sound_setTopicConfigs hsound fun _ => hchecked,
      fun h hname _ => h hname, fun h hname => h hname hok⟩
  · have hserve : s.serve broker (.alter name configs) = s := toOption_getD_of_not_isOk hok
    rw [hserve]
    exact ⟨hsound, fun _ _ h => absurd h hok, fun _ => hforce⟩

theorem serve_incremental {upserts : List (Text × Text)} {deletes : List Text} :
    Sound broker topic (s.serve broker (.incremental name upserts deletes)) ∧
      (InForce broker topic (s.serve broker (.incremental name upserts deletes)) ↔
        Settled broker topic s (.incremental name upserts deletes)) := by
  by_cases hok : (s.incrementalAlterConfigs broker name upserts deletes).isOk = true
  · obtain ⟨cfg, hcfg, hvalid, heq⟩ := incrementalAlterConfigs_of_isOk hok
    have hchecked : name = topic →
        Checked broker.floats (mergeConfigs cfg.configs upserts deletes) := by
      rintro rfl
      obtain ⟨cfg', hcfg', -, hold⟩ := hsound
      rw [hcfg] at hcfg'
      rw [← Option.some.inj hcfg'] at hold
      exact hold.mergeConfigs hvalid deletes
    have hserve : s.serve broker (.incremental name upserts deletes) =
        s.setTopicConfigs broker name (mergeConfigs cfg.configs upserts deletes) := by
      rw [serve, heq]
      rfl
    rw [hserve, inForce_set_iff hsound hforce hchecked]
    refine ⟨sound_setTopicConfigs hsound hchecked, fun h hname _ cfg' hcfg' => ?_,
      fun h hname => ?_⟩
    · rw [← hname, hcfg] at hcfg'
      rw [← Option.some.inj hcfg']
      exact h hname
    · exact h hname hok cfg (hname ▸ hcfg)
  · have hserve : s.serve broker (.incremental name upserts deletes) = s :=
      toOption_getD_of_not_isOk hok
    rw [hserve]
    exact ⟨hsound, fun _ _ h => absurd h hok, fun _ => hforce⟩

theorem serve_openPartition {partition : UInt32} :
    Sound broker topic (s.serve broker (.openPartition name partition)) ∧
      (InForce broker topic (s.serve broker (.openPartition name partition)) ↔
        Settled broker topic s (.openPartition name partition)) := by
  obtain ⟨cfg, hcfg, hpolicy, hchecked⟩ := id hsound
  rw [serve]
  by_cases hclosed : s.partitions.lookup (name, partition) = none ∧
      (s.getOrCreatePartition broker name partition).isOk = true
  · have heq := getOrCreatePartition_of_isOk hclosed.1 hclosed.2
    rw [heq, orKeep]
    refine ⟨⟨cfg, hcfg, hpolicy, hchecked⟩, ?_⟩
    by_cases hname : name = topic
    · subst hname
      rw [inForce_open_iff hforce hcfg hpolicy hchecked rfl]
      constructor
      · intro h _ _ _ cfg' hcfg'
        rw [hcfg] at hcfg'
        rw [← Option.some.inj hcfg']
        exact h
      · exact fun h => h rfl hclosed.1 hclosed.2 cfg hcfg
    · have hsame : ∀ other, (s.partitions.insert (name, partition)
          (s.openPartition broker name partition)).lookup (topic, other) =
            s.partitions.lookup (topic, other) := fun other =>
        lookup_insert_of_ne _ (fun heq => hname (congrArg Prod.fst heq).symm) _
      refine ⟨fun _ heq => absurd heq hname, fun _ => ?_⟩
      refine (inForce_congr ?_ ?_).mpr hforce
      · rfl
      · exact hsame
  · rw [orKeep_getOrCreatePartition hclosed]
    exact ⟨hsound, fun _ _ hnone hok => absurd ⟨hnone, hok⟩ hclosed, fun _ => hforce⟩

theorem serve_spec (request : ConfigRequest) : Sound broker topic (s.serve broker request) ∧
      (InForce broker topic (s.serve broker request) ↔ Settled broker topic s request) := by
  cases request with
  | alter => exact serve_alter hsound hforce
  | incremental => exact serve_incremental hsound hforce
  | openPartition => exact serve_openPartition hsound hforce

end

structure Follows (broker : Broker) (topic : Text) (s : Engine) : Prop where
  sound : Sound broker topic s
  inForce : InForce broker topic s

theorem Unconfigured.sound (h : Unconfigured broker topic s) : Sound broker topic s := by
  obtain ⟨cfg, hcfg, hconfigs, hpolicy⟩ := h.registered
  refine ⟨cfg, hcfg, hpolicy, ?_⟩
  rw [hconfigs]
  exact Table.All.empty

theorem Unconfigured.inForce (h : Unconfigured broker topic s) : InForce broker topic s := by
  obtain ⟨cfg, hcfg, hconfigs, -⟩ := h.registered
  have hchecked : Checked broker.floats cfg.configs := by
    rw [hconfigs]
    exact Table.All.empty
  refine (inForce_iff hcfg hchecked).mpr ⟨fun partition pm hpm k => ?_, fun text htext => ?_⟩
  · rw [h.settings partition pm hpm, hconfigs]
    exact k.isUnset_default
  · rw [hconfigs] at htext
    cases htext

end Steps

/-- The settings in force follow the stored configs in every state of a run of requests
exactly when every request drops no key that has left a setting, opens no partition of a
topic whose configs say more than the defaults, and writes the number of in-sync replicas
without blanks. -/
theorem inForce_iff_settled (broker : Broker) (topic : Text) (s : Engine)
    (h : Unconfigured broker topic s) (requests : List ConfigRequest) :
    Always (serve broker) (InForce broker topic) s requests ↔
      Guarded (serve broker) (Settled broker topic) s requests := by
  refine Run.always_iff_guarded (fun _ hinv => Follows.inForce hinv) ?_ ?_ ⟨h.sound, h.inForce⟩
    (Guarded.of_forall fun _ _ => trivial)
  · intro s request hinv _ hcond
    have hspec := serve_spec hinv.sound hinv.inForce request
    exact ⟨hspec.1, hspec.2.mpr hcond⟩
  · intro s request hinv _ hforce
    exact (serve_spec hinv.sound hinv.inForce request).2.mp hforce

/-! ### A retention that is set -/

def created : Engine := (plain.fresh {(['t'], 0)}).createTopic plain ['t'] 1 1

theorem unconfigured_created : Unconfigured plain ['t'] created where
  registered := ⟨_, rfl, rfl, rfl⟩
  settings := by
    intro partition pm hpm
    change (if _ ∈ _ then some plain.defaultPartition else none) = some pm at hpm
    split at hpm
    · rw [← Option.some.inj hpm]
      rfl
    · cases hpm

def retentionStored : Text × Text := (ConfigKey.retentionMs.name, [' ', '5'])

theorem settled_retentionStored : Settled plain ['t'] created (.alter ['t'] [retentionStored]) := by
  refine fun _ _ => ⟨fun partition pm hpm k => ?_, fun text htext => ?_⟩
  · rw [unconfigured_created.settings partition pm hpm]
    cases k with
    | cleanupPolicy => exact Pushed.isUnset_default .cleanupPolicy
    | compressionType => exact Pushed.isUnset_default .compressionType
    | retentionMs => exact fun hblank => absurd hblank (by decide)
    | retentionBytes => exact Pushed.isUnset_default .retentionBytes
    | deleteRetentionMs => exact Pushed.isUnset_default .deleteRetentionMs
  · cases htext

theorem inForce_retentionStored : Always (serve plain) (InForce plain ['t']) created
      [.alter ['t'] [retentionStored]] :=
  (inForce_iff_settled plain ['t'] created unconfigured_created _).mpr
    ⟨settled_retentionStored, trivial⟩

/-- A retention that is stored and then dropped stays in force. -/
theorem not_inForce_retentionDropped : Unconfigured plain ['t'] created ∧
      ¬ Always (serve plain) (InForce plain ['t']) created
        [.alter ['t'] [retentionStored], .alter ['t'] []] := by
  refine ⟨unconfigured_created, fun h => ?_⟩
  have hmeets := (h.2.2 _ rfl).1 0 _ rfl .retentionMs
  exact absurd (show (some 5 : Option Nat) = none ∨ (some 5 : Option Nat) = none from hmeets)
    (by decide)

end Bifrox.Metadata

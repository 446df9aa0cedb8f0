/-
The settings of a partition and the configs of its topic (`src/config.rs`,
`validate_topic_configs` and `apply_topic_config_change` in `src/server/engine.rs`).
-/
import Mathlib.Algebra.Group.Nat.Defs
import Bifrox.Lib.Decimal
import Bifrox.Lib.Table
import Bifrox.Lib.Text

namespace Bifrox.Metadata

inductive CleanupPolicy where
  | delete
  | compact
  | compactAndDelete
deriving DecidableEq

inductive CompressionCodec where
  | producer
  | none
  | lz4
  | zstd
deriving DecidableEq

variable (text : Text)

/-- `str::trim` and `str::to_lowercase`.  No letter outside ASCII becomes a letter of one
of the words below, so that lowering the ASCII letters decides the same comparisons. -/
def normalize : Text := (Text.trim text).map Char.toLower

def CleanupPolicy.fromStr : Option CleanupPolicy :=
  if normalize text = "delete".toList then some .delete
  else if normalize text = "compact".toList then some .compact
  else if normalize text = "compact,delete".toList ∨ normalize text = "delete,compact".toList then
    some .compactAndDelete
  else none

def CompressionCodec.fromStr : Option CompressionCodec :=
  if normalize text = "producer".toList then some .producer
  else if normalize text = "none".toList ∨ normalize text = [] ∨
      normalize text = "uncompressed".toList then
    some .none
  else if normalize text = "lz4".toList then some .lz4
  else if normalize text = "zstd".toList then some .zstd
  else .none

/-- `str::parse::<u64>`, and `str::parse::<usize>`. -/
def parseU64 : Option Nat := Decimal.parseBelow (2 ^ 64) text

def parseOptionalU64Config (value : Text) : Option (Option Nat) :=
  if Text.trim value = [] then some none else (parseU64 (Text.trim value)).map some

/-- Floating-point numbers, as their bits. -/
structure Floats where
  /-- `str::parse::<f64>`. -/
  parse : Text → Option UInt64
  isRatio : UInt64 → Bool

/-! ## Keys -/

inductive ConfigKey where
  | cleanupPolicy
  | compressionType
  | retentionMs
  | retentionBytes
  | deleteRetentionMs
  | segmentMs
  | segmentBytes
  | maxMessageBytes
  | minInsyncReplicas
  | minCleanableDirtyRatio
deriving DecidableEq

def ConfigKey.all : List ConfigKey :=
  [.cleanupPolicy, .compressionType, .retentionMs, .retentionBytes, .deleteRetentionMs, .segmentMs,
    .segmentBytes, .maxMessageBytes, .minInsyncReplicas, .minCleanableDirtyRatio]

def ConfigKey.name : ConfigKey → Text
  | .cleanupPolicy => "cleanup.policy".toList
  | .compressionType => "compression.type".toList
  | .retentionMs => "retention.ms".toList
  | .retentionBytes => "retention.bytes".toList
  | .deleteRetentionMs => "delete.retention.ms".toList
  | .segmentMs => "segment.ms".toList
  | .segmentBytes => "segment.bytes".toList
  | .maxMessageBytes => "max.message.bytes".toList
  | .minInsyncReplicas => "min.insync.replicas".toList
  | .minCleanableDirtyRatio => "min.cleanable.dirty.ratio".toList

abbrev Configs : Type := Table Text Text

def Configs.value (configs : Configs) (key : ConfigKey) : Option Text := configs.lookup key.name

/-! ## Checking -/

structure ConfigError where
  key : Text
  value : Text
  expected : String
deriving DecidableEq

variable (floats : Floats)

def ConfigKey.accepts (trimmed : Text) : ConfigKey → Bool
  | .retentionMs | .retentionBytes | .deleteRetentionMs | .segmentMs | .segmentBytes
  | .maxMessageBytes => (parseU64 trimmed).isSome
  | .minInsyncReplicas => (parseU64 trimmed).any (· ≠ 0)
  | .minCleanableDirtyRatio => (floats.parse trimmed).any floats.isRatio
  | .cleanupPolicy => (CleanupPolicy.fromStr trimmed).isSome
  | .compressionType => (CompressionCodec.fromStr trimmed).isSome

def ConfigKey.expected : ConfigKey → String
  | .retentionMs | .retentionBytes | .deleteRetentionMs | .segmentMs | .segmentBytes
  | .maxMessageBytes => "a non-negative integer"
  | .minInsyncReplicas => "an integer >= 1"
  | .minCleanableDirtyRatio => "a number between 0.0 and 1.0"
  | .cleanupPolicy => "'delete', 'compact', or 'compact,delete'"
  | .compressionType => "'none', 'lz4', or 'zstd'"

/-- The check of one entry.  An empty value and an unknown key pass. -/
def validateConfig (key value : Text) : Except ConfigError Unit :=
  if Text.trim value = [] then .ok ()
  else
    match ConfigKey.all.find? (fun known => known.name = key) with
    | some known =>
      if known.accepts floats (Text.trim value) then .ok ()
      else .error { key, value, expected := known.expected }
    | none => .ok ()

def validateTopicConfigs (floats : Floats) : List (Text × Text) → Except ConfigError Unit
  | [] => .ok ()
  | (key, value) :: rest =>
    match validateConfig floats key value with
    | .ok () => validateTopicConfigs floats rest
    | .error e => .error e

/-! ## Settings -/

structure PartitionSettings where
  cleanupPolicy : CleanupPolicy
  compressionCodec : CompressionCodec
  retentionMillis : Option Nat
  retentionBytes : Option Nat
  deleteRetentionMillis : Option Nat
  minCleanableDirtyRatio : UInt64
deriving DecidableEq

/-- A value that is there and can be read replaces the setting. -/
def Configs.override {α : Type} (configs : Configs) (key : ConfigKey) (parse : Text → Option α)
    (current : α) : α :=
  ((configs.value key).bind parse).getD current

/-- What `apply_topic_config_change` does to an open partition. -/
def Configs.push (configs : Configs) (s : PartitionSettings) : PartitionSettings where
  cleanupPolicy := configs.override .cleanupPolicy CleanupPolicy.fromStr s.cleanupPolicy
  compressionCodec := configs.override .compressionType CompressionCodec.fromStr s.compressionCodec
  retentionMillis := configs.override .retentionMs parseOptionalU64Config s.retentionMillis
  retentionBytes := configs.override .retentionBytes parseOptionalU64Config s.retentionBytes
  deleteRetentionMillis :=
    configs.override .deleteRetentionMs parseOptionalU64Config s.deleteRetentionMillis
  minCleanableDirtyRatio :=
    configs.override .minCleanableDirtyRatio floats.parse s.minCleanableDirtyRatio

@[simp] theorem Configs.push_empty (s : PartitionSettings) : Configs.push floats ∅ s = s := rfl

end Bifrox.Metadata

/-
The log of committed consumer offsets (`src/consumer_group.rs`), read back in pieces of 64 KiB.
The checksum is a parameter: any function of the bytes.
-/
import Bifrox.Lib.Assoc
import Bifrox.Lib.BigEndian
import Bifrox.Lib.Incremental
import Bifrox.Lib.Text

namespace Bifrox.ConsumerGroup

open Incremental Parser

structure GroupKey where
  groupId : Text
  topic : Text
  partition : UInt32
deriving DecidableEq

structure OffsetEntry where
  offset : UInt64
  metadata : Text
deriving DecidableEq

abbrev Commit : Type := GroupKey × OffsetEntry

abbrev Offsets : Type := AList fun _ : GroupKey => OffsetEntry

def consumerOffsetsMagic : UInt8 := 0xCF

abbrev Checksum : Type := Bytes → UInt32

section Entries

variable (crc : Checksum)

def computeCrc (c : Commit) : UInt32 :=
  crc (c.1.groupId.utf8 ++ c.1.topic.utf8 ++ BigEndian.put 4 c.1.partition.toNat ++
    BigEndian.put 8 c.2.offset.toNat ++ c.2.metadata.utf8)

/-- The bytes of an entry.  A length is cut to its low two bytes. -/
def encodeEntry (c : Commit) : Bytes :=
  consumerOffsetsMagic :: (BigEndian.put 2 c.1.groupId.utf8.length ++ (c.1.groupId.utf8 ++
    (BigEndian.put 2 c.1.topic.utf8.length ++ (c.1.topic.utf8 ++
      (BigEndian.put 4 c.1.partition.toNat ++ (BigEndian.put 8 c.2.offset.toNat ++
        (BigEndian.put 2 c.2.metadata.utf8.length ++ (c.2.metadata.utf8 ++
          BigEndian.put 4 (computeCrc crc c).toNat))))))))

def encodeEntries (commits : List Commit) : Bytes := commits.flatMap (encodeEntry crc)

def readNat (width : Nat) : Parser Nat :=
  (take width).andThen fun bytes => check (some (BigEndian.get bytes))

def readText (length : Nat) : Parser Text :=
  (take length).andThen fun bytes => check (Text.ofUtf8 bytes)

def readMagic : Parser Unit :=
  (take 1).andThen fun bytes =>
    check (if bytes = [consumerOffsetsMagic] then some () else none)

def readChecksum (c : Commit) : Parser Commit :=
  (readNat 4).andThen fun stored =>
    check (if stored = (computeCrc crc c).toNat then some c else none)

def readEntry : Parser Commit :=
  readMagic.andThen fun _ =>
  (readNat 2).andThen fun groupLen =>
  (readText groupLen).andThen fun groupId =>
  (readNat 2).andThen fun topicLen =>
  (readText topicLen).andThen fun topic =>
  (readNat 4).andThen fun partition =>
  (readNat 8).andThen fun offset =>
  (readNat 2).andThen fun metaLen =>
  (readText metaLen).andThen fun metadata =>
  readChecksum crc ({ groupId := groupId, topic := topic, partition := UInt32.ofNat partition },
      { offset := UInt64.ofNat offset, metadata := metadata })

def chunkSize : Nat := 64 * 1024

def readChunks : Nat → Bytes → List Bytes
  | 0, _ => []
  | fuel + 1, bytes =>
    if bytes = [] then [] else bytes.take chunkSize :: readChunks fuel (bytes.drop chunkSize)

/-- The loop of `open` over the pieces of a file. -/
def recover (bytes : Bytes) : Incremental.Feed Commit :=
  feed (readEntry crc) (readChunks bytes.length bytes)

def insertAll (offsets : Offsets) (commits : List Commit) : Offsets :=
  commits.foldl (fun offsets c => offsets.insert c.1 c.2) offsets

end Entries

/-! ## Reading in pieces -/

theorem stable_readNat {width : Nat} : Stable (readNat width) :=
  stable_take.andThen fun _ => stable_check

theorem stable_readText {length : Nat} : Stable (readText length) :=
  stable_take.andThen fun _ => stable_check

theorem shrinks_readNat {width : Nat} : Shrinks (readNat width) :=
  shrinks_take.andThen fun _ => shrinks_check

theorem shrinks_readText {length : Nat} : Shrinks (readText length) :=
  shrinks_take.andThen fun _ => shrinks_check

theorem stable_readEntry (crc : Checksum) : Stable (readEntry crc) := by
  refine .andThen (.andThen stable_take fun _ => stable_check) ?_
  intro _
  refine stable_readNat.andThen fun _ => stable_readText.andThen fun _ => ?_
  refine stable_readNat.andThen fun _ => stable_readText.andThen fun _ => ?_
  refine stable_readNat.andThen fun _ => stable_readNat.andThen fun _ => ?_
  refine stable_readNat.andThen fun _ => stable_readText.andThen fun _ => ?_
  exact stable_readNat.andThen fun _ => stable_check

theorem consumes_readEntry (crc : Checksum) : Consumes (readEntry crc) := by
  have hmagic : Consumes readMagic :=
    (consumes_take Nat.one_pos).andThen fun _ => shrinks_check
  refine hmagic.andThen fun _ => ?_
  refine shrinks_readNat.andThen fun _ => shrinks_readText.andThen fun _ => ?_
  refine shrinks_readNat.andThen fun _ => shrinks_readText.andThen fun _ => ?_
  refine shrinks_readNat.andThen fun _ => shrinks_readNat.andThen fun _ => ?_
  refine shrinks_readNat.andThen fun _ => shrinks_readText.andThen fun _ => ?_
  exact shrinks_readNat.andThen fun _ => shrinks_check

theorem flatten_readChunks {fuel : Nat} {bytes : Bytes} (h : bytes.length ≤ fuel) :
    (readChunks fuel bytes).flatten = bytes := by
  induction fuel generalizing bytes with
  | zero => rw [List.length_eq_zero_iff.mp (Nat.le_zero.mp h)]; rfl
  | succ fuel ih =>
    unfold readChunks
    split
    · next hnil => rw [hnil]; rfl
    · next hne =>
      have hpos : 0 < bytes.length := List.length_pos_iff.mpr hne
      have hrest : (bytes.drop chunkSize).length ≤ fuel := by
        rw [List.length_drop]
        have : 0 < chunkSize := by decide
        omega
      rw [List.flatten_cons, ih hrest, List.take_append_drop]

theorem recover_reads (crc : Checksum) (bytes : Bytes) :
    (recover crc bytes).Reads (readEntry crc) bytes := by
  have h := feed_reads (consumes_readEntry crc) (stable_readEntry crc)
    (readChunks bytes.length bytes)
  rw [flatten_readChunks (Nat.le_refl _)] at h
  exact h

/-! ## Entries that fit -/

def Fits (c : Commit) : Prop :=
  c.1.groupId.utf8.length < 2 ^ 16 ∧ c.1.topic.utf8.length < 2 ^ 16 ∧
    c.2.metadata.utf8.length < 2 ^ 16

instance (c : Commit) : Decidable (Fits c) := inferInstanceAs (Decidable (_ ∧ _ ∧ _))

section Fits

variable {crc : Checksum} {c : Commit} {buf rest : Bytes} {commits : List Commit}

theorem readNat_put {width n : Nat} (h : n < 256 ^ width) :
    readNat width (BigEndian.put width n ++ rest) = .value n rest := by
  have htake := take_append (BigEndian.length_put width n) rest
  rw [readNat, andThen_value htake, BigEndian.get_put, Nat.mod_eq_of_lt h]
  rfl

theorem readText_utf8 {text : Text} :
    readText text.utf8.length (text.utf8 ++ rest) = .value text rest := by
  have htake := take_append (rfl : text.utf8.length = text.utf8.length) rest
  rw [readText, andThen_value htake, Text.ofUtf8_utf8]
  rfl

theorem readEntry_encodeEntry (h : Fits c) :
    readEntry crc (encodeEntry crc c ++ rest) = .value c rest := by
  obtain ⟨hgroup, htopic, hmetadata⟩ := h
  have hmagic : ∀ buf, readMagic (consumerOffsetsMagic :: buf) = .value () buf := fun _ => rfl
  have hcrc : readChecksum crc c (BigEndian.put 4 (computeCrc crc c).toNat ++ rest) =
      .value c rest := by
    rw [readChecksum, andThen_value (readNat_put (computeCrc crc c).toNat_lt), if_pos rfl]
    rfl
  simp only [encodeEntry, List.cons_append, List.append_assoc, readEntry]
  rw [andThen_value (hmagic _), andThen_value (readNat_put hgroup),
    andThen_value readText_utf8, andThen_value (readNat_put htopic),
    andThen_value readText_utf8,
    andThen_value (readNat_put c.1.partition.toNat_lt),
    andThen_value (readNat_put c.2.offset.toNat_lt),
    andThen_value (readNat_put hmetadata), andThen_value readText_utf8,
    UInt32.ofNat_toNat, UInt64.ofNat_toNat]
  exact hcrc

/-! ## What is read was written like that -/

theorem readNat_eq_value {width n : Nat} (h : readNat width buf = .value n rest) :
    buf = BigEndian.put width n ++ rest ∧ n < 256 ^ width := by
  obtain ⟨bytes, mid, htake, hcheck⟩ := andThen_eq_value h
  obtain ⟨rfl, hlen⟩ := take_eq_value htake
  obtain ⟨hn, rfl⟩ := check_eq_value hcheck
  rw [← Option.some.inj hn, ← hlen, BigEndian.put_get]
  exact ⟨rfl, BigEndian.get_lt bytes⟩

theorem readText_eq_value {length : Nat} {text : Text}
    (h : readText length buf = .value text rest) :
    buf = text.utf8 ++ rest ∧ text.utf8.length = length := by
  obtain ⟨bytes, mid, htake, hcheck⟩ := andThen_eq_value h
  obtain ⟨rfl, hlen⟩ := take_eq_value htake
  obtain ⟨htext, rfl⟩ := check_eq_value hcheck
  rw [Text.utf8_of_ofUtf8 htext]
  exact ⟨rfl, hlen⟩

theorem readMagic_eq_value (h : readMagic buf = .value () rest) :
    buf = consumerOffsetsMagic :: rest := by
  obtain ⟨bytes, mid, htake, hcheck⟩ := andThen_eq_value h
  obtain ⟨rfl, -⟩ := take_eq_value htake
  obtain ⟨hmagic, rfl⟩ := check_eq_value hcheck
  split at hmagic
  · next hbytes => rw [hbytes]; rfl
  · exact absurd hmagic.symm (Option.some_ne_none ())

theorem readEntry_eq_value (h : readEntry crc buf = .value c rest) :
    buf = encodeEntry crc c ++ rest ∧ Fits c := by
  obtain ⟨_, _, hmagic, h⟩ := andThen_eq_value h
  obtain ⟨_, _, hgroupLen, h⟩ := andThen_eq_value h
  obtain ⟨groupId, _, hgroup, h⟩ := andThen_eq_value h
  obtain ⟨_, _, htopicLen, h⟩ := andThen_eq_value h
  obtain ⟨topic, _, htopic, h⟩ := andThen_eq_value h
  obtain ⟨partition, _, hpartition, h⟩ := andThen_eq_value h
  obtain ⟨offset, _, hoffset, h⟩ := andThen_eq_value h
  obtain ⟨_, _, hmetaLen, h⟩ := andThen_eq_value h
  obtain ⟨metadata, _, hmetadata, h⟩ := andThen_eq_value h
  obtain ⟨stored, _, hstored, hcheck⟩ := andThen_eq_value h
  obtain ⟨hcrc, rfl⟩ := check_eq_value hcheck
  obtain ⟨rfl, hgroupFits⟩ := readNat_eq_value hgroupLen
  obtain ⟨rfl, rfl⟩ := readText_eq_value hgroup
  obtain ⟨rfl, htopicFits⟩ := readNat_eq_value htopicLen
  obtain ⟨rfl, rfl⟩ := readText_eq_value htopic
  obtain ⟨rfl, hpartitionFits⟩ := readNat_eq_value hpartition
  obtain ⟨rfl, hoffsetFits⟩ := readNat_eq_value hoffset
  obtain ⟨rfl, hmetaFits⟩ := readNat_eq_value hmetaLen
  obtain ⟨rfl, rfl⟩ := readText_eq_value hmetadata
  obtain ⟨rfl, -⟩ := readNat_eq_value hstored
  split at hcrc
  case isFalse => cases hcrc
  next hstored =>
  obtain rfl := Option.some.inj hcrc
  refine ⟨?_, hgroupFits, htopicFits, hmetaFits⟩
  rw [readMagic_eq_value hmagic, hstored]
  simp [encodeEntry, UInt32.toNat_ofNat_of_lt' hpartitionFits,
    UInt64.toNat_ofNat_of_lt' hoffsetFits]

theorem drain_readEntry_split (crc : Checksum) (buf : Bytes) :
    let d := drain (readEntry crc) buf
    buf = encodeEntries crc d.values ++ d.rest ∧ ∀ c ∈ d.values, Fits c := by
  refine drain_induction (motive := fun buf d => buf = encodeEntries crc d.values ++ d.rest ∧
    ∀ c ∈ d.values, Fits c) (consumes_readEntry crc) (fun _ _ _ => ⟨rfl, nofun⟩)
    (fun buf c rest hvalue ih => ?_) buf
  obtain ⟨hsplit, hfits⟩ := ih
  obtain ⟨hentry, hc⟩ := readEntry_eq_value hvalue
  refine ⟨?_, List.forall_mem_cons.mpr ⟨hc, hfits⟩⟩
  show buf = encodeEntry crc c ++ encodeEntries crc _ ++ _
  rw [List.append_assoc]
  exact hentry.trans (congrArg (encodeEntry crc c ++ ·) hsplit)

theorem recover_split (crc : Checksum) (bytes : Bytes) :
    bytes.take (recover crc bytes).lastGoodPos = encodeEntries crc (recover crc bytes).values ∧
      (∀ c ∈ (recover crc bytes).values, Fits c) ∧
      (recover crc bytes).lastGoodPos = (encodeEntries crc (recover crc bytes).values).length := by
  obtain ⟨hvalues, -, hpos, -⟩ := recover_reads crc bytes
  obtain ⟨hsplit, hfits⟩ := drain_readEntry_split crc bytes
  rw [hvalues]
  have hlength := congrArg List.length hsplit
  rw [List.length_append] at hlength
  have hlast : (recover crc bytes).lastGoodPos = (encodeEntries crc
      (drain (readEntry crc) bytes).values).length := by omega
  refine ⟨?_, hfits, hlast⟩
  rw [hlast]
  exact (congrArg (List.take _) hsplit).trans List.take_left

/-! ## A file of entries -/

/-- The entries of a file are found however the reads cut it. -/
theorem feed_encodeEntries (h : ∀ c ∈ commits, Fits c) {tail : Bytes}
    (htail : ∀ c rest, readEntry crc tail ≠ .value c rest) {chunks : List Bytes}
    (hchunks : chunks.flatten = encodeEntries crc commits ++ tail) :
    (feed (readEntry crc) chunks).values = commits ∧
      (feed (readEntry crc) chunks).lastGoodPos = (encodeEntries crc commits).length := by
  obtain ⟨hvalues, hpos, -⟩ := feed_flatMap (consumes_readEntry crc) (stable_readEntry crc)
    (fun c hc _ => readEntry_encodeEntry (h c hc)) htail hchunks
  exact ⟨hvalues, hpos⟩

theorem recover_encodeEntries (h : ∀ c ∈ commits, Fits c) :
    (recover crc (encodeEntries crc commits)).values = commits := by
  have hnone : ∀ c rest, readEntry crc [] ≠ .value c rest := by
    intro c rest hread
    cases hread
  refine (feed_encodeEntries h hnone ?_).1
  rw [flatten_readChunks (Nat.le_refl _), List.append_nil]

end Fits

end Bifrox.ConsumerGroup

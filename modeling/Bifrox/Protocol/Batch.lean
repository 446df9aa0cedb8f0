/-
The record batch, the log's only entry format (`src/protocol/batch.rs`).

Offsets are natural numbers: the model does not wrap a 64-bit offset.  Every other field keeps
its width, and timestamps are subtracted and added modulo `2 ^ 64`, which is the two's complement
arithmetic of the source.  The checksum and the two compressors are third-party code, so they are
parameters, bundled in `Crates`.
-/
import Bifrox.Lib.BigEndian

namespace Bifrox.Protocol

open BigEndian

/-- The functions the batch format takes from `crc32fast`, `lz4_flex` and
`zstd`.  `zstdReadToEnd n` is the decoder limited to its first `n` output bytes. -/
structure Crates where
  crc32 : Bytes → UInt32
  lz4CompressPrependSize : Bytes → Bytes
  lz4DecompressSizePrepended : Bytes → Except String Bytes
  zstdEncodeAll : Bytes → Bytes
  zstdReadToEnd : Nat → Bytes → Except String Bytes

def maxDecompressedBatchBytes : Nat := 64 * 1024 * 1024

def batchMagicByte : UInt8 := 0xC0

def batchHeaderSize : Nat := 53

/-- What `batch_length` counts besides the payload. -/
def batchLengthCoveredFixed : Nat := batchHeaderSize - 1 - 4

def recordEntryMinSize : Nat := 20

def attrCompressionMask : UInt16 := 0x0007
def attrTransactionalFlag : UInt16 := 0x0008
def attrControlFlag : UInt16 := 0x0010

inductive BatchError where
  | bufferTooShort (required found : Nat)
  | invalidMagic (expected found : UInt8)
  | invalidBatchLength (batchLength minimum : Nat)
  | crcMismatch (expected calculated : UInt32)
  | invalidCompressionCodec (value : UInt16)
  | truncatedRecord
  | trailingRecordData (declared : UInt32) (trailing : Nat)
  | io (message : String)
deriving DecidableEq

inductive BatchCompression where
  | none
  | lz4
  | zstd
deriving DecidableEq

namespace BatchCompression

def toBits : BatchCompression → UInt16
  | .none => 0
  | .lz4 => 1
  | .zstd => 2

def fromBits (bits : UInt16) : Except BatchError BatchCompression :=
  if bits = 0 then .ok .none
  else if bits = 1 then .ok .lz4
  else if bits = 2 then .ok .zstd
  else .error (.invalidCompressionCodec bits)

end BatchCompression

/-- One record decoded out of a batch.  A missing key or value is a genuine
null, distinct from an empty one. -/
structure BatchRecord where
  offset : Nat
  timestamp : UInt64
  key : Option Bytes
  value : Option Bytes

structure RecordBatch where
  magic : UInt8
  crc : UInt32
  baseOffset : Nat
  lastOffsetDelta : UInt32
  baseTimestamp : UInt64
  producerId : UInt64
  producerEpoch : Int16
  baseSequence : Int32
  leaderEpoch : UInt32
  attributes : UInt16
  recordCount : UInt32
  recordData : Bytes
deriving DecidableEq

/-! ## Record entries -/

/-- `[Len: 4b signed][Bytes]`, with length `-1` for null. -/
def encodeOptBytes : Option Bytes → Bytes
  | none => put 4 (2 ^ 32 - 1)
  | some b => put 4 b.length ++ b

def encodeRecord (delta : Nat) (baseTimestamp timestamp : UInt64) (key value : Option Bytes) :
    Bytes :=
  put 4 delta ++ (put 8 (timestamp - baseTimestamp).toNat ++
    (encodeOptBytes key ++ encodeOptBytes value))

def decodeOptBytes (cursor : Bytes) : Except BatchError (Option Bytes × Bytes) :=
  if cursor.length < 4 then .error .truncatedRecord
  else
    let (word, rest) := split 4 cursor
    let len := (UInt32.ofNat word).toInt32
    if len = -1 then .ok (none, rest)
    else if len < -1 then .error .truncatedRecord
    else
      let n := len.toInt.toNat
      if rest.length < n then .error .truncatedRecord
      else .ok (some (rest.take n), rest.drop n)

/-- The loop of `decode_records`: `n` entries are still to be read. -/
def decodeEntries (baseOffset : Nat) (baseTimestamp : UInt64) :
    Nat → Bytes → Except BatchError (List BatchRecord × Bytes)
  | 0, cursor => .ok ([], cursor)
  | n + 1, cursor =>
    if cursor.length < 12 then .error .truncatedRecord
    else do
      let (offsetDelta, cursor) := split 4 cursor
      let (timestampDelta, cursor) := split 8 cursor
      let (key, cursor) ← decodeOptBytes cursor
      let (value, cursor) ← decodeOptBytes cursor
      let (records, cursor) ← decodeEntries baseOffset baseTimestamp n cursor
      .ok ({ offset := baseOffset + offsetDelta,
             timestamp := baseTimestamp + UInt64.ofNat timestampDelta,
             key, value } :: records, cursor)

def decodeRecords (recordCount : UInt32) (baseOffset : Nat) (baseTimestamp : UInt64)
    (data : Bytes) : Except BatchError (List BatchRecord) := do
  let (records, cursor) ← decodeEntries baseOffset baseTimestamp recordCount.toNat data
  if cursor ≠ [] then .error (.trailingRecordData recordCount cursor.length)
  else .ok records

/-! ## Batches -/

def compress (c : Crates) (raw : Bytes) : BatchCompression → Bytes
  | .none => raw
  | .lz4 => c.lz4CompressPrependSize raw
  | .zstd => c.zstdEncodeAll raw

/-- Little-endian value of the first four bytes, the size `lz4_flex` prepends. -/
def lz4DeclaredSize (bs : Bytes) : Nat := get (bs.take 4).reverse

namespace RecordBatch

variable (b : RecordBatch)

/-- The bytes the checksum covers, from the base offset to the end of the
payload. -/
def crcInput : Bytes :=
  put 8 b.baseOffset ++ (put 4 b.lastOffsetDelta.toNat ++ (put 8 b.baseTimestamp.toNat ++
    (put 8 b.producerId.toNat ++ (put 2 b.producerEpoch.toUInt16.toNat ++
      (put 4 b.baseSequence.toUInt32.toNat ++ (put 4 b.leaderEpoch.toNat ++
        (put 2 b.attributes.toNat ++ (put 4 b.recordCount.toNat ++ b.recordData))))))))

variable (c : Crates)

def calculateCrc (b : RecordBatch) : UInt32 := c.crc32 b.crcInput

def withCrc (b : RecordBatch) : RecordBatch := { b with crc := calculateCrc c b }

def attributesFor (transactional : Bool) (codec : BatchCompression) : UInt16 :=
  let attributes := codec.toBits &&& attrCompressionMask
  if transactional then attributes ||| attrTransactionalFlag else attributes

/-- The payload of `create`: record `i` is written with offset delta `i`. -/
def encodeSequential (baseTimestamp : UInt64) :
    Nat → List (UInt64 × Option Bytes × Option Bytes) → Bytes
  | _, [] => []
  | i, (timestamp, key, value) :: rest =>
    encodeRecord i baseTimestamp timestamp key value ++ encodeSequential baseTimestamp (i + 1) rest

/-- A batch with consecutive offsets, as every produce builds it. -/
def create (baseOffset : Nat) (baseTimestamp : UInt64) (leaderEpoch : UInt32)
    (producerId : UInt64) (producerEpoch : Int16) (baseSequence : Int32) (transactional : Bool)
    (codec : BatchCompression) (records : List (UInt64 × Option Bytes × Option Bytes)) :
    RecordBatch :=
  let recordCount := UInt32.ofNat records.length
  withCrc c
    { magic := batchMagicByte, crc := 0, baseOffset,
      lastOffsetDelta := if recordCount = 0 then 0 else recordCount - 1,
      baseTimestamp, producerId, producerEpoch, baseSequence, leaderEpoch,
      attributes := attributesFor transactional codec, recordCount,
      recordData := compress c (encodeSequential baseTimestamp 0 records) codec }

variable (baseOffset : Nat)

/-- The records `create_with_offsets` encodes: one before the base is skipped
rather than written with a wrapped-around delta. -/
def encodable (records : List BatchRecord) : List BatchRecord :=
  records.filter (fun r => baseOffset ≤ r.offset)

def encodeAt (baseTimestamp : UInt64) (records : List BatchRecord) : Bytes :=
  records.flatMap (fun r =>
    encodeRecord (r.offset - baseOffset) baseTimestamp r.timestamp r.key r.value)

/-- The highest offset delta written, starting the maximum at zero. -/
def maxDelta (records : List BatchRecord) : UInt32 :=
  records.foldl (fun m r => max m (UInt32.ofNat (r.offset - baseOffset))) 0

/-- A batch whose records carry explicit offsets, as compaction rebuilds it. -/
def createWithOffsets (baseOffset : Nat) (baseTimestamp : UInt64)
    (leaderEpoch : UInt32) (producerId : UInt64) (producerEpoch : Int16) (baseSequence : Int32)
    (transactional : Bool) (codec : BatchCompression) (records : List BatchRecord) :
    RecordBatch :=
  let records := encodable baseOffset records
  withCrc c
    { magic := batchMagicByte, crc := 0, baseOffset,
      lastOffsetDelta := maxDelta baseOffset records,
      baseTimestamp, producerId, producerEpoch, baseSequence, leaderEpoch,
      attributes := attributesFor transactional codec,
      recordCount := UInt32.ofNat records.length,
      recordData := compress c (encodeAt baseOffset baseTimestamp records) codec }

def compression : Except BatchError BatchCompression :=
  BatchCompression.fromBits (b.attributes &&& attrCompressionMask)

def isTransactional : Bool := b.attributes &&& attrTransactionalFlag ≠ 0

def isControl : Bool := b.attributes &&& attrControlFlag ≠ 0

def setControl (b : RecordBatch) : RecordBatch :=
  withCrc c { b with attributes := b.attributes ||| attrControlFlag }

def assignBaseOffsetAndLeaderEpoch (b : RecordBatch) (baseOffset : Nat)
    (leaderEpoch : UInt32) : RecordBatch :=
  withCrc c { b with baseOffset, leaderEpoch }

def verifyCrc (b : RecordBatch) : Except BatchError Unit :=
  if calculateCrc c b ≠ b.crc then .error (.crcMismatch b.crc (calculateCrc c b)) else .ok ()

def rawData (b : RecordBatch) : Except BatchError Bytes :=
  if b.recordData.length > maxDecompressedBatchBytes then
    .error (.io "batch exceeds decoded record or byte limit")
  else do
    match ← b.compression with
    | .none => .ok b.recordData
    | .lz4 =>
      if b.recordData.length < 4 then .error .truncatedRecord
      else if lz4DeclaredSize b.recordData > maxDecompressedBatchBytes then
        .error (.io "decompressed batch limit exceeded")
      else
        match c.lz4DecompressSizePrepended b.recordData with
        | .error e => .error (.io e)
        | .ok raw => .ok raw
    | .zstd =>
      match c.zstdReadToEnd (maxDecompressedBatchBytes + 1) b.recordData with
      | .error e => .error (.io e)
      | .ok raw =>
        if raw.length > maxDecompressedBatchBytes then
          .error (.io "decompressed batch limit exceeded")
        else .ok raw

def records (b : RecordBatch) : Except BatchError (List BatchRecord) := do
  let raw ← b.rawData c
  if b.recordCount.toNat > raw.length / recordEntryMinSize then .error .truncatedRecord
  else if b.recordCount > 100000 then .error (.io "decoded record count exceeds limit")
  else decodeRecords b.recordCount b.baseOffset b.baseTimestamp raw

def encodedSize : Nat := batchHeaderSize + b.recordData.length

def lastOffset : Nat := b.baseOffset + b.lastOffsetDelta.toNat

def encode : Bytes :=
  [b.magic] ++ (put 4 (batchLengthCoveredFixed + b.recordData.length) ++
    (put 4 b.crc.toNat ++ b.crcInput))

/-- The fields in their order, and the payload behind them. -/
def parse (magic : UInt8) (body : Bytes) (recordDataLength : Nat) : RecordBatch :=
  let (crc, cur) := split 4 body
  let (baseOffset, cur) := split 8 cur
  let (lastOffsetDelta, cur) := split 4 cur
  let (baseTimestamp, cur) := split 8 cur
  let (producerId, cur) := split 8 cur
  let (producerEpoch, cur) := split 2 cur
  let (baseSequence, cur) := split 4 cur
  let (leaderEpoch, cur) := split 4 cur
  let (attributes, cur) := split 2 cur
  let (recordCount, cur) := split 4 cur
  { magic, crc := UInt32.ofNat crc, baseOffset,
    lastOffsetDelta := UInt32.ofNat lastOffsetDelta,
    baseTimestamp := UInt64.ofNat baseTimestamp,
    producerId := UInt64.ofNat producerId,
    producerEpoch := (UInt16.ofNat producerEpoch).toInt16,
    baseSequence := (UInt32.ofNat baseSequence).toInt32,
    leaderEpoch := UInt32.ofNat leaderEpoch,
    attributes := UInt16.ofNat attributes,
    recordCount := UInt32.ofNat recordCount,
    recordData := cur.take recordDataLength }

def decode (src : Bytes) : Except BatchError (RecordBatch × Nat) :=
  match src with
  | magic :: b0 :: b1 :: b2 :: b3 :: body =>
    if magic ≠ batchMagicByte then .error (.invalidMagic batchMagicByte magic)
    else
      let batchLength := get [b0, b1, b2, b3]
      if batchLength < batchLengthCoveredFixed then
        .error (.invalidBatchLength batchLength batchLengthCoveredFixed)
      else if body.length < batchLength then .error (.bufferTooShort batchLength body.length)
      else do
        let batch := parse magic body (batchLength - batchLengthCoveredFixed)
        batch.verifyCrc c
        .ok (batch, 5 + batchLength)
  | _ => .error (.bufferTooShort 5 src.length)

end RecordBatch

end Bifrox.Protocol

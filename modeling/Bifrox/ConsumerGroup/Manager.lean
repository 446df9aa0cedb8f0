/-
The offset manager (`ConsumerGroupManager` in `src/consumer_group.rs`), as calls that
take turns.

A call is cut where another one can come in between.  A crash may come after any step.  The
rename of a compaction is the only operation that can fail here.
-/
import Bifrox.Lib.FileSystem
import Bifrox.ConsumerGroup.Log

namespace Bifrox.ConsumerGroup

inductive FileName where
  | log
  | tmp
deriving DecidableEq

abbrev Disk : Type := FileSystem FileName

/-- How far a call has come.  A compaction keeps the commit that started it, if one
did. -/
inductive Phase where
  | idle
  | inserted (commit : Commit)
  | written (commit : Commit)
  | synced (commit : Commit)
  | scanning (call : Option Commit) (started : List GroupKey) (collected : List Commit)
  | tmpOpened (call : Option Commit) (collected : List Commit) (tmpFile : Handle)
  | tmpWritten (call : Option Commit) (tmpFile : Handle)
  | tmpSynced (call : Option Commit)
  | unlocked (call : Option Commit)
  | removed (call : Option Commit)
  | renamed (call : Option Commit)
deriving DecidableEq

def Phase.commit : Phase → Option Commit
  | .idle => none
  | .inserted c | .written c | .synced c => some c
  | .scanning call _ _ | .tmpOpened call _ _ | .tmpWritten call _ => call
  | .tmpSynced call | .unlocked call | .removed call | .renamed call => call

def Phase.isCompacting : Phase → Bool
  | .idle | .inserted _ | .written _ | .synced _ => false
  | _ => true

/-- The manager, its directory and the calls of its threads.  `acknowledged` and
`failed` record how calls returned. -/
structure Manager (Thread : Type) where
  disk : Disk
  offsets : Offsets
  logFile : Handle
  lock : Option Thread
  phase : Thread → Phase
  acknowledged : List Commit
  failed : Bool

inductive Action where
  | commit (commit : Commit)
  | compact
  | scan (key : GroupKey)
  | advance

def compactionThreshold : Nat := 1024 * 1024

section Open

variable (crc : Checksum)

/-- `ConsumerGroupManager::open` reads the log and cuts off what is no entry. -/
def openLog (disk : Disk) : Disk × Handle × Offsets :=
  let (disk, i) := disk.openOrCreate .log
  let bytes := (disk.inode i).data
  let r := recover crc bytes
  let disk := if r.lastGoodPos < bytes.length then disk.setLen i r.lastGoodPos else disk
  (disk, { inode := i, pos := r.lastGoodPos }, insertAll ∅ r.values)

def Manager.open (Thread : Type) (disk : Disk) : Manager Thread :=
  let (disk, logFile, offsets) := openLog crc disk
  { disk := disk
    offsets := offsets
    logFile := logFile
    lock := none
    phase := fun _ => .idle
    acknowledged := []
    failed := false }

end Open

/-! ## Calls -/

namespace Manager

variable {Thread : Type} [DecidableEq Thread] (m : Manager Thread) (t : Thread)

def setPhase (phase : Phase) : Manager Thread :=
  { m with phase := Function.update m.phase t phase }

def acknowledge (call : Option Commit) : Manager Thread :=
  { m.setPhase t .idle with acknowledged := m.acknowledged ++ call.toList }

def insert (c : Commit) : Manager Thread :=
  { m.setPhase t (.inserted c) with offsets := m.offsets.insert c.1 c.2 }

def startScan (call : Option Commit) : Manager Thread :=
  m.setPhase t (.scanning call m.offsets.keys [])

/-- The scan comes to a key.  It meets each key once. -/
def scan (call : Option Commit) (started : List GroupKey)
    (collected : List Commit) (key : GroupKey) : Manager Thread :=
  match m.offsets.lookup key with
  | none => m
  | some entry =>
    if key ∈ collected.map Prod.fst then m
    else m.setPhase t (.scanning call started (collected ++ [(key, entry)]))

def isOversized : Bool :=
  compactionThreshold < (m.disk.inode m.logFile.inode).data.length

variable (crc : Checksum)

def writeEntry (m : Manager Thread) (t : Thread) (c : Commit) : Manager Thread :=
  let (disk, logFile) := m.disk.write m.logFile (encodeEntry crc c)
  { m.setPhase t (.written c) with disk := disk, logFile := logFile, lock := some t }

def finishAppend (c : Commit) : Manager Thread :=
  if m.isOversized then { m.startScan t (some c) with lock := none }
  else { m.acknowledge t (some c) with lock := none }

def openTmp (call : Option Commit) (collected : List Commit) : Manager Thread :=
  let (disk, i) := m.disk.openTruncated .tmp
  { m.setPhase t (.tmpOpened call collected { inode := i, pos := 0 }) with disk := disk }

def writeTmp (m : Manager Thread) (t : Thread) (call : Option Commit)
    (collected : List Commit) (tmpFile : Handle) : Manager Thread :=
  let (disk, tmpFile) := m.disk.write tmpFile (encodeEntries crc collected)
  { m.setPhase t (.tmpWritten call tmpFile) with disk := disk }

def renameTmp (call : Option Commit) : Manager Thread :=
  match m.disk.rename .tmp .log with
  | none => { m.setPhase t .idle with failed := true }
  | some disk => { m.setPhase t (.renamed call) with disk := disk }

/-- Take the lock and go on with the new log at its end. -/
def exchangeLog (call : Option Commit) : Manager Thread :=
  let (disk, i) := m.disk.openOrCreate .log
  { m.acknowledge t call with
    disk := disk
    logFile := { inode := i, pos := (disk.inode i).data.length } }

/-- The next step of a call.  A step that needs the lock waits for it. -/
def advance (m : Manager Thread) (t : Thread) : Manager Thread :=
  match m.phase t with
  | .idle => m
  | .inserted c => if m.lock = none then m.writeEntry crc t c else m
  | .written c => { m.setPhase t (.synced c) with disk := m.disk.sync m.logFile.inode }
  | .synced c => m.finishAppend t c
  | .scanning call started collected =>
    if started ⊆ collected.map Prod.fst then m.openTmp t call collected else m
  | .tmpOpened call collected tmpFile => m.writeTmp crc t call collected tmpFile
  | .tmpWritten call tmpFile =>
    { m.setPhase t (.tmpSynced call) with disk := m.disk.sync tmpFile.inode }
  | .tmpSynced call => if m.lock = none then m.setPhase t (.unlocked call) else m
  | .unlocked call => { m.setPhase t (.removed call) with disk := m.disk.unlink .log }
  | .removed call => m.renameTmp t call
  | .renamed call => if m.lock = none then m.exchangeLog t call else m

def step (m : Manager Thread) (op : Thread × Action) : Manager Thread :=
  match op.2 with
  | .commit c => if m.phase op.1 = .idle then m.insert op.1 c else m
  | .compact => if m.phase op.1 = .idle then m.startScan op.1 none else m
  | .scan key =>
    match m.phase op.1 with
    | .scanning call started collected => m.scan op.1 call started collected key
    | _ => m
  | .advance => m.advance crc op.1

end Manager

end Bifrox.ConsumerGroup

import Siglog.Concurrent.DurableFile
import Siglog.Concurrent.Processes
import Siglog.Vindex.Recovery
import Siglog.Worker.LogSystem

/-! The integration worker with its index on disk. The process restores the index when it
starts, runs cycles one after the other, and may crash at any point. Tiles, bundles and the
database may fail; the files of the index do not. A history variable records the states of
the index that were snapshotted. -/

namespace Siglog.Vindex

open Concurrent (DurableFile Prog ProcSys Processes)
open Concurrent.Sys (opsAlone runAlone)
open Merkle (MapOrder Shuffle)
open Storage (Op)

/-- The configuration of the process. -/
structure Setup where
  mapFn : Bytes → List IndexKey
  maxKeys : ℕ
  maxIndicesPerKey : ℕ
  snapshotInterval : ℕ
  integrationBatchSize : ℕ

/-- The files of the index. The directory names the snapshot that was renamed into place
last, and a crash may leave the one that it named when it was synced. -/
structure IndexFiles where
  wal : DurableFile UInt8
  snapshot : Option Bytes
  syncedSnapshot : Option Bytes

/-- The log, the files of its index, and the index in memory while the process runs. -/
structure IndexedLog (H : Type) [Sha256Hash H] where
  log : Worker.LogSystem H
  files : IndexFiles
  running : Option VerifiableIndex
  snapshots : List VerifiableIndex

/-- What the process does. A record of the WAL is not synced when it is written, so that
a crash within a call to index an entry leaves what one before or behind it can leave. -/
inductive IndexOp (H : Type) where
  | restart
  | log (o : Op H)
  | indexEntry (idx : ℕ) (data : Bytes)
  | syncWal
  | snapshotDue
  | renameSnapshot
  | syncDirectory
  | truncateWal
  | resetCount

abbrev IndexOp.Answer (H : Type) : IndexOp H → Type
  | .restart => Except (Fault Error) Unit
  | .log o => o.Answer H
  | .indexEntry _ _ => Except (Fault Error) Unit
  | .syncWal => Unit
  | .snapshotDue => Bool
  | .renameSnapshot => Unit
  | .syncDirectory => Unit
  | .truncateWal => Unit
  | .resetCount => Unit

/-- A program of the process. -/
abbrev IndexServer (H α : Type) := Prog (IndexOp H) (IndexOp.Answer H) (Fault Error) α

variable {H : Type}

/-- Write a snapshot of the full index and truncate the WAL. -/
def snapshot : IndexServer H Unit := do
  Prog.call IndexOp.syncWal
  Prog.call IndexOp.renameSnapshot
  Prog.call IndexOp.syncDirectory
  Prog.call IndexOp.truncateWal
  Prog.call IndexOp.syncWal
  Prog.call IndexOp.resetCount

/-- Snapshot and compact the WAL if enough entries accumulated since the last snapshot. -/
def maybeSnapshot : IndexServer H Unit := do
  if ← Prog.call IndexOp.snapshotDue then snapshot else pure ()

/-- The operations of a cycle on the index. -/
def onFiles : (o : Op H) → IndexServer H (o.Answer H)
  | .indexEntry idx data => Prog.call (IndexOp.indexEntry idx data)
  | .flushIndex => do
    Prog.call IndexOp.syncWal
    pure (.ok ())
  | .maybeSnapshot => do
    maybeSnapshot
    pure (.ok ())
  | o => Prog.call (IndexOp.log o)

variable [Sha256Hash H]

/-- One cycle of the worker. -/
def cycle (c : Setup) (order : MapOrder H) : IndexServer H Unit :=
  (Worker.runIntegrationCycle order c.integrationBatchSize true).translate onFiles

/-- Restore the index from its files. -/
def boot : IndexServer H Unit := do
  Prog.ofExcept (← Prog.call IndexOp.restart)

variable [Crc32] [Sha256]

omit [Sha256] in
/-- What a call to index an entry writes to the WAL. -/
def walBytes (sections : List Section) : Bytes :=
  sections.flatMap fun o => match o with
    | .append idx keys => encodeEntry [] idx keys
    | _ => []

omit [Sha256Hash H] in
/-- A call to index an entry, alone, with the WAL it writes to. -/
def indexOn (c : Setup) (idx : ℕ) (data : Bytes) (index : VerifiableIndex)
    (wal : DurableFile UInt8) :
    Except (Fault Error) Unit × VerifiableIndex × DurableFile UInt8 :=
  let call := indexEntry c.mapFn true idx data
  let (result, index') := runAlone (VerifiableIndex.perform (.ok ())) call index
  (result, index', wal.write (walBytes (opsAlone (VerifiableIndex.perform (.ok ())) call index)))

namespace IndexedLog

omit [Crc32] [Sha256]

def init : IndexedLog H := ⟨.init, ⟨.ofSynced [], none, none⟩, none, []⟩

def withLog (s : IndexedLog H) (log : Worker.LogSystem H) : IndexedLog H := { s with log }

def withWalFile (s : IndexedLog H) (wal : DurableFile UInt8) : IndexedLog H :=
  { s with files := { s.files with wal } }

end IndexedLog

/-- What the process finds after a restart, and what it is with an index. -/
inductive IndexExec (c : Setup) :
    IndexedLog H → (o : IndexOp H) → o.Answer H → IndexedLog H → Prop where
  | restart {s : IndexedLog H} (hdown : s.running = none) (walk : Shuffle KeyRecord)
      {file left : Option Bytes}
      (hfile : file.getD [] = s.files.wal.contents) {result : Except (Fault Error) VerifiableIndex}
      (h : withWal (fun index => walk.order index.entries) c.maxKeys c.maxIndicesPerKey
        s.files.snapshot file s.log.size =
        (result, left)) :
      IndexExec c s .restart (result.map fun _ => ())
        { s.withWalFile (.ofSynced (left.getD [])) with running := result.toOption }
  | log {s : IndexedLog H} {index : VerifiableIndex} (hrunning : s.running = some index) {o : Op H}
      {r : o.Answer H} {log : Worker.LogSystem H} (h : Worker.Exec s.log o r log) :
      IndexExec c s (.log o) r (s.withLog log)
  | indexEntry {s : IndexedLog H} {index index' : VerifiableIndex}
      (hrunning : s.running = some index) {idx : ℕ} {data : Bytes}
      {result : Except (Fault Error) Unit} {wal : DurableFile UInt8}
      (h : indexOn c idx data index s.files.wal = (result, index', wal)) :
      IndexExec c s (.indexEntry idx data) result { s.withWalFile wal with running := some index' }
  | syncWal {s : IndexedLog H} {index : VerifiableIndex} (hrunning : s.running = some index) :
      IndexExec c s .syncWal () (s.withWalFile s.files.wal.sync)
  | snapshotDue {s : IndexedLog H} {index : VerifiableIndex} (hrunning : s.running = some index) :
      IndexExec c s .snapshotDue
        (decide (c.snapshotInterval ≠ 0 ∧ c.snapshotInterval ≤ index.entriesSinceSnapshot)) s
  | renameSnapshot {s : IndexedLog H} {index : VerifiableIndex} (hrunning : s.running = some index)
      {records : List KeyRecord} (hwalk : records.Perm index.index.entries)
      (hlen : (writeSnapshot index.treeSize records).length ≤ i64Max) :
      IndexExec c s .renameSnapshot ()
        { s with
          files := { s.files with snapshot := some (writeSnapshot index.treeSize records) }
          snapshots := s.snapshots ++ [index] }
  | syncDirectory {s : IndexedLog H} {index : VerifiableIndex} (hrunning : s.running = some index) :
      IndexExec c s .syncDirectory ()
        { s with files := { s.files with syncedSnapshot := s.files.snapshot } }
  | truncateWal {s : IndexedLog H} {index : VerifiableIndex} (hrunning : s.running = some index) :
      IndexExec c s .truncateWal () (s.withWalFile (s.files.wal.setLen 0))
  | resetCount {s : IndexedLog H} {index : VerifiableIndex} (hrunning : s.running = some index) :
      IndexExec c s .resetCount ()
        { s with running := some { index with entriesSinceSnapshot := 0 } }

omit [Crc32] [Sha256] in
/-- A crash leaves all that has been synced, with a part of what has been written to the WAL
since, and one of the two snapshots. -/
inductive Crash : IndexedLog H → IndexedLog H → Prop where
  | mk {s : IndexedLog H} {wal : Bytes} {snapshot : Option Bytes} (hwal : s.files.wal.Survives wal)
      (hsnapshot : snapshot = s.files.snapshot ∨ snapshot = s.files.syncedSnapshot) :
      Crash s { s with files := ⟨.ofSynced wal, snapshot, snapshot⟩, running := none }

variable [DecidableEq H]

/-- One process, which is started, runs one cycle after the other, and crashes. Submissions go
on beside it. -/
def crashSystem (c : Setup) :
    ProcSys Unit (IndexedLog H) Unit (IndexOp H) (IndexOp.Answer H) (Fault Error) Unit where
  env s s' := ∃ log, Worker.Env s.log log ∧ s' = s.withLog log
  start _ _ p := p = boot ∨ ∃ order, p = cycle c order
  exec _ := IndexExec c
  finish _ _ _ s s' := s' = s
  drop _ := Crash

end Siglog.Vindex

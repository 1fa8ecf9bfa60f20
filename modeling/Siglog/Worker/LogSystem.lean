import Siglog.Worker.Integration
import Siglog.Storage.DatabaseFacts
import Siglog.Concurrent.Pool

/-! The log as a system: a database and an object store, shared by any number of
integration cycles. Submissions are sequenced and checkpoints published at any
time. Two history variables record the entries that were sequenced and the sizes
that were integrated. -/

namespace Siglog.Worker

open Concurrent (Prog)
open Api (Path checkpointPath)
open Merkle (MapOrder)
open Storage (Op Server Database Mode accepted asU64)

structure LogSystem (H : Type) [Sha256Hash H] where
  db : Database H
  objects : Path → Option Bytes
  log : List (Entry H)
  sizes : List ℕ

variable {H : Type} [Sha256Hash H]

namespace LogSystem

/-- An empty log. -/
def init : LogSystem H := ⟨.empty, fun _ => none, [], [0]⟩

def size (s : LogSystem H) : ℕ := asU64 s.db.logState.integratedSize

def leaves (s : LogSystem H) : List H := s.log.map Entry.leafHash

/-- Store an object. -/
def put (s : LogSystem H) (path : Path) (data : Bytes) : LogSystem H :=
  { s with objects := fun p => if p = path then some data else s.objects p }

theorem put_objects_self (s : LogSystem H) (path : Path) (data : Bytes) :
    (s.put path data).objects path = some data := by
  simp [put]

def mark (s : LogSystem H) (marked : Bool) (newSize : ℕ) (db : Database H) : LogSystem H :=
  { s with db, sizes := if marked then s.sizes ++ [newSize] else s.sizes }

end LogSystem

/-- An error of the store, the database or the index, which is none of those that
the writing of bundles makes itself. -/
def External (f : Fault Error) : Prop := f ≠ missingPrevious ∧ f ≠ incorrectPrevious

/-- One operation of a cycle. It may fail, and when it fails its effect may or may
not have taken place. -/
inductive Exec : LogSystem H → (o : Op H) → o.Answer H → LogSystem H → Prop where
  | fault (s : LogSystem H) (o : Op H) (f : Fault Error) (h : External f) : Exec s o (.error f) s
  | read (s : LogSystem H) (path : Path) : Exec s (.readObject path) (.ok (s.objects path)) s
  | write (s : LogSystem H) (path : Path) (data : Bytes) :
      Exec s (.writeObject path data) (.ok ()) (s.put path data)
  | writeLost (s : LogSystem H) (path : Path) (data : Bytes) (f : Fault Error) (h : External f) :
      Exec s (.writeObject path data) (.error f) (s.put path data)
  | getLogState (s : LogSystem H) : Exec s .getLogState (.ok s.db.getLogState) s
  | getPendingEntries (s : LogSystem H) (fromIndex limit : ℕ) :
      Exec s (.getPendingEntries fromIndex limit) (.ok (s.db.getPendingEntries fromIndex limit)) s
  | mark (s : LogSystem H) (expected newSize : ℕ) (root : H) (marked : Bool) (db : Database H)
      (h : s.db.markIntegratedIfCurrent expected newSize root = .ok (marked, db)) :
      Exec s (.markIntegratedIfCurrent expected newSize root) (.ok marked)
        (s.mark marked newSize db)
  | markLost (s : LogSystem H) (expected newSize : ℕ) (root : H) (marked : Bool) (db : Database H)
      (f : Fault Error) (h : s.db.markIntegratedIfCurrent expected newSize root = .ok (marked, db))
      (hf : External f) :
      Exec s (.markIntegratedIfCurrent expected newSize root) (.error f) (s.mark marked newSize db)
  | markError (s : LogSystem H) (expected newSize : ℕ) (root : H) (f : Fault Error)
      (h : s.db.markIntegratedIfCurrent expected newSize root = .error f) :
      Exec s (.markIntegratedIfCurrent expected newSize root) (.error f) s
  | indexEntry (s : LogSystem H) (index : ℕ) (data : Bytes) :
      Exec s (.indexEntry index data) (.ok ()) s
  | flushIndex (s : LogSystem H) : Exec s .flushIndex (.ok ()) s
  | maybeSnapshot (s : LogSystem H) : Exec s .maybeSnapshot (.ok ()) s

/-- What an operation does when nothing fails, and the index takes every entry. -/
def LogSystem.answer (s : LogSystem H) : (o : Op H) → o.Answer H × LogSystem H
  | .readObject path => (.ok (s.objects path), s)
  | .writeObject path data => (.ok (), s.put path data)
  | .getLogState => (.ok s.db.getLogState, s)
  | .getPendingEntries fromIndex limit => (.ok (s.db.getPendingEntries fromIndex limit), s)
  | .markIntegratedIfCurrent expected newSize root =>
    match s.db.markIntegratedIfCurrent expected newSize root with
    | .ok (marked, db) => (.ok marked, s.mark marked newSize db)
    | .error e => (.error e, s)
  | .indexEntry _ _ => (.ok (), s)
  | .flushIndex => (.ok (), s)
  | .maybeSnapshot => (.ok (), s)

theorem exec_answer (s : LogSystem H) (o : Op H) : Exec s o (s.answer o).1 (s.answer o).2 := by
  cases o with
  | readObject path => exact .read s path
  | writeObject path data => exact .write s path data
  | getLogState => exact .getLogState s
  | getPendingEntries fromIndex limit => exact .getPendingEntries s fromIndex limit
  | markIntegratedIfCurrent expected newSize root =>
    rw [LogSystem.answer]
    split
    · exact .mark s expected newSize root _ _ ‹_›
    · exact .markError s expected newSize root _ ‹_›
  | indexEntry index data => exact .indexEntry s index data
  | flushIndex => exact .flushIndex s
  | maybeSnapshot => exact .maybeSnapshot s

/-- What happens between the operations of cycles. -/
inductive Env [DecidableEq H] : LogSystem H → LogSystem H → Prop where
  | append (s : LogSystem H) (entries : List (Entry H))
      (answers : List (Except Error (Storage.SequencedEntry H))) (db : Database H)
      (h : s.db.sequenceEntries entries = .ok (answers, db)) :
      Env s { s with db, log := s.log ++ accepted answers }
  | insertMode (s : LogSystem H) (mode : Mode) : Env s { s with db := s.db.insertMode mode }
  | publish (s : LogSystem H) (data : Bytes) : Env s (s.put checkpointPath data)

/-- A cycle may be started at any time, with any batch limit and any order of its maps. -/
inductive Start : LogSystem H → Unit → Server H Unit → Prop where
  | cycle (s : LogSystem H) (order : MapOrder H) (batchSize : ℕ) (vindex : Bool) :
      Start s () (runIntegrationCycle order batchSize vindex)

def logSys [DecidableEq H] :
    Concurrent.Sys (LogSystem H) Unit (Op H) (Op.Answer H) (Fault Error) Unit where
  env := Env
  start := Start
  exec := Exec

/-- The pools that any run from the empty log can reach. -/
abbrev Reachable [DecidableEq H]
    (p : Concurrent.Pool (LogSystem H) Unit (Op H) (Op.Answer H) (Fault Error) Unit) : Prop :=
  logSys.Reachable LogSystem.init p

end Siglog.Worker

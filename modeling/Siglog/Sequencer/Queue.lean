import Siglog.Worker.Integration
import Siglog.Storage.DatabaseFacts
import Siglog.Concurrent.Pool

/-! The sequencer. Each worker takes requests from its channel, flushes its batch to
the database when the batch is full, too old, or the last of a closed channel, and
answers the requests of the batch in order. Any number of workers share the
database with the integration cycles and with an import. -/

namespace Siglog.Sequencer

open Storage (Op Server Database Mode SequencedEntry)
open Merkle (MapOrder)

/-- A submission. It is told apart by its worker and its place in the worker's channel. -/
structure SequenceRequest (H : Type) [Sha256Hash H] where
  id : ℕ × ℕ
  entry : Entry H

abbrev Response := Except Error ℕ

/-- The result of `sequence_entries`. -/
abbrev SequenceResult (H : Type) [Sha256Hash H] :=
  Except Error (List (Except Error (SequencedEntry H)))

variable {H : Type} [Sha256Hash H]

/-- Where the worker is in its loop. A flush that closes is the last one. -/
inductive Control (H : Type) [Sha256Hash H] where
  | select
  | flushing (closing : Bool)
  | responding (result : SequenceResult H) (closing : Bool)
  | exited

/-- A worker. What it has taken from its channel and what it has answered is
recorded. -/
structure SequencerWorker (H : Type) [Sha256Hash H] where
  batchMaxSize : ℕ
  channel : List (SequenceRequest H)
  closed : Bool
  batch : List (SequenceRequest H)
  control : Control H
  taken : List (SequenceRequest H)
  responses : List (SequenceRequest H × Response)

namespace SequencerWorker

def new (batchMaxSize : ℕ) : SequencerWorker H := ⟨batchMaxSize, [], false, [], .select, [], []⟩

/-- All that was ever sent to the worker. -/
def received (worker : SequencerWorker H) : List (SequenceRequest H) :=
  worker.taken ++ worker.channel

/-- `Sequencer::add`, up to its wait for the answer. -/
def send (worker : SequencerWorker H) (w : ℕ) (entry : Entry H) : SequencerWorker H :=
  { worker with channel := worker.channel ++ [⟨(w, worker.received.length), entry⟩] }

def close (worker : SequencerWorker H) : SequencerWorker H := { worker with closed := true }

/-- A request has come. -/
def recv (worker : SequencerWorker H) (req : SequenceRequest H) (rest : List (SequenceRequest H)) :
    SequencerWorker H :=
  let batch := worker.batch ++ [req]
  -- Flush if batch is full
  { worker with
    channel := rest
    batch
    taken := worker.taken ++ [req]
    control := if worker.batchMaxSize ≤ batch.length then .flushing false else .select }

/-- The channel is closed and empty: flush the rest and exit. -/
def recvClosed (worker : SequencerWorker H) : SequencerWorker H :=
  { worker with control := if worker.batch = [] then .exited else .flushing true }

/-- Flush on timeout. -/
def timeout (worker : SequencerWorker H) : SequencerWorker H :=
  { worker with control := .flushing false }

def sequenced (worker : SequencerWorker H) (result : SequenceResult H) (closing : Bool) :
    SequencerWorker H :=
  { worker with control := .responding result closing }

/-- The answers to a batch. -/
def answers (batch : List (SequenceRequest H)) :
    SequenceResult H → List (SequenceRequest H × Response)
  | .ok sequenced =>
    (batch.zip sequenced).map fun (req, seqEntry) => (req, seqEntry.map fun entry => entry.index)
  | .error e => batch.map fun req => (req, .error (.internal e.display))

/-- Drain the batch and send responses. -/
def respond (worker : SequencerWorker H) (result : SequenceResult H) (closing : Bool) :
    SequencerWorker H :=
  { worker with
    batch := []
    control := if closing then .exited else .select
    responses := worker.responses ++ answers worker.batch result }

/-- What a worker does without the database. -/
inductive Step (w : ℕ) : SequencerWorker H → SequencerWorker H → Prop where
  | send (worker : SequencerWorker H) (entry : Entry H) (h : worker.closed = false) :
      Step w worker (worker.send w entry)
  | close (worker : SequencerWorker H) : Step w worker worker.close
  | recv (worker : SequencerWorker H) (req : SequenceRequest H) (rest : List (SequenceRequest H))
      (h : worker.control = .select) (hc : worker.channel = req :: rest) :
      Step w worker (worker.recv req rest)
  | recvClosed (worker : SequencerWorker H) (h : worker.control = .select)
      (hc : worker.channel = []) (hclosed : worker.closed = true) : Step w worker worker.recvClosed
  | timeout (worker : SequencerWorker H) (h : worker.control = .select) (hb : worker.batch ≠ []) :
      Step w worker worker.timeout
  | respond (worker : SequencerWorker H) (result : SequenceResult H) (closing : Bool)
      (h : worker.control = .responding result closing) :
      Step w worker (worker.respond result closing)

end SequencerWorker

/-- The requests of a batch that got an index, with it. -/
def assignments (batch : List (SequenceRequest H))
    (sequenced : List (Except Error (SequencedEntry H))) :
    List (SequenceRequest H × ℕ) :=
  (batch.zip sequenced).filterMap fun (req, answer) => match answer with
    | .ok entry => some (req, entry.index)
    | .error _ => none

/-- The database, the workers, the size of the import, and which request was ever
given which index by a committed transaction. -/
structure SequencerSystem (H : Type) [Sha256Hash H] where
  db : Database H
  workers : List (SequencerWorker H)
  imported : ℕ
  assigned : List (SequenceRequest H × ℕ)

namespace SequencerSystem

def init : SequencerSystem H := ⟨.empty, [], 0, []⟩

def setWorker (s : SequencerSystem H) (w : ℕ) (worker : SequencerWorker H) : SequencerSystem H :=
  { s with workers := s.workers.set w worker }

/-- A transaction of a worker commits. -/
def commit (s : SequencerSystem H) (w : ℕ) (worker : SequencerWorker H) (closing : Bool)
    (answers : List (Except Error (SequencedEntry H))) (db : Database H) : SequencerSystem H :=
  { s with
    db
    workers := s.workers.set w (worker.sequenced (.ok answers) closing)
    assigned := s.assigned ++ assignments worker.batch answers }

/-- A transaction of a worker is rolled back. -/
def rollback (s : SequencerSystem H) (w : ℕ) (worker : SequencerWorker H) (closing : Bool)
    (e : Error) :
    SequencerSystem H :=
  s.setWorker w (worker.sequenced (.error e) closing)

end SequencerSystem

/-- The steps of workers, of an import, and of a server that pins its mode. -/
inductive Env [DecidableEq H] : SequencerSystem H → SequencerSystem H → Prop where
  | spawn (s : SequencerSystem H) (batchMaxSize : ℕ) :
      Env s { s with workers := s.workers ++ [.new batchMaxSize] }
  | worker (s : SequencerSystem H) (w : ℕ) (worker worker' : SequencerWorker H)
      (hw : s.workers[w]? = some worker) (h : worker.Step w worker') : Env s (s.setWorker w worker')
  | commit (s : SequencerSystem H) (w : ℕ) (worker : SequencerWorker H) (closing : Bool)
      (answers : List (Except Error (SequencedEntry H))) (db : Database H)
      (hw : s.workers[w]? = some worker) (hc : worker.control = .flushing closing)
      (h : s.db.sequenceEntries (worker.batch.map fun req => req.entry) = .ok (answers, db)) :
      Env s (s.commit w worker closing answers db)
  | rollback (s : SequencerSystem H) (w : ℕ) (worker : SequencerWorker H) (closing : Bool)
      (e : Error) (hw : s.workers[w]? = some worker) (hc : worker.control = .flushing closing)
      (h : s.db.sequenceEntries (worker.batch.map fun req => req.entry) = .error (.err e)) :
      Env s (s.rollback w worker closing e)
  | fault (s : SequencerSystem H) (w : ℕ) (worker : SequencerWorker H) (closing : Bool) (e : Error)
      (hw : s.workers[w]? = some worker) (hc : worker.control = .flushing closing) :
      Env s (s.rollback w worker closing e)
  | insertMode (s : SequencerSystem H) (mode : Mode) : Env s { s with db := s.db.insertMode mode }
  | importLog (s : SequencerSystem H) (size : ℕ) (root : H) (db : Database H)
      (h : s.db.importLog size root = .ok db) :
      Env s { s with db, imported := size }
  | importAbort (s : SequencerSystem H) : Env s s

/-- An operation that leaves the database alone. -/
def Quiet : Op H → Prop
  | .getLogState => False
  | .getPendingEntries _ _ => False
  | .markIntegratedIfCurrent _ _ _ => False
  | _ => True

/-- The operations of an integration cycle. The object store and the index may
answer anything. -/
inductive Exec : SequencerSystem H → (o : Op H) → o.Answer H → SequencerSystem H → Prop where
  | quiet (s : SequencerSystem H) (o : Op H) (r : o.Answer H) (h : Quiet o) : Exec s o r s
  | fault (s : SequencerSystem H) (o : Op H) (f : Fault Error) : Exec s o (.error f) s
  | getLogState (s : SequencerSystem H) : Exec s .getLogState (.ok s.db.getLogState) s
  | getPendingEntries (s : SequencerSystem H) (fromIndex limit : ℕ) :
      Exec s (.getPendingEntries fromIndex limit) (.ok (s.db.getPendingEntries fromIndex limit)) s
  | mark (s : SequencerSystem H) (expected newSize : ℕ) (root : H) (marked : Bool) (db : Database H)
      (r : (Op.markIntegratedIfCurrent expected newSize root).Answer H)
      (h : s.db.markIntegratedIfCurrent expected newSize root = .ok (marked, db))
      (hr : ∀ m, r = .ok m → m = marked) :
      Exec s (.markIntegratedIfCurrent expected newSize root) r { s with db }
  | markError (s : SequencerSystem H) (expected newSize : ℕ) (root : H) (f : Fault Error)
      (h : s.db.markIntegratedIfCurrent expected newSize root = .error f) :
      Exec s (.markIntegratedIfCurrent expected newSize root) (.error f) s

/-- Integration cycles are started at any time. -/
inductive Start : SequencerSystem H → Unit → Server H Unit → Prop where
  | cycle (s : SequencerSystem H) (order : MapOrder H) (batchSize : ℕ) (vindex : Bool) :
      Start s () (Worker.runIntegrationCycle order batchSize vindex)

def sequencerSys [DecidableEq H] :
    Concurrent.Sys (SequencerSystem H) Unit (Op H) (Op.Answer H) (Fault Error) Unit where
  env := Env
  start := Start
  exec := Exec

abbrev SequencerPool (H : Type) [Sha256Hash H] :=
  Concurrent.Pool (SequencerSystem H) Unit (Op H) (Op.Answer H) (Fault Error) Unit

abbrev Reachable [DecidableEq H] (p : SequencerPool H) : Prop :=
  sequencerSys.Reachable SequencerSystem.init p

end Siglog.Sequencer

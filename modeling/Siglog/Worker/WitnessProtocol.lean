import Siglog.Worker.Publisher
import Siglog.Witness.Handled

/-! The publisher and one of its witnesses as a system. The log moves at any time,
between and within the cycles of the publisher. A request may get lost, and so may the
response after the witness has committed; the publisher may restart at any time with an
empty memory. Other witnesses answer anything. -/

namespace Siglog.Worker

open Concurrent (Prog)
open Note (NoteCrypto LawfulNoteCrypto Origin CheckpointSigner CosignedCheckpoint)
open Text (Str Solid fromUtf8)
open Text.Base64 (DecodeErrors)
open Witness (LogConfig WitnessDb WitnessError AddCheckpointRequest Response HttpTexts Knows)

/-- The configuration of the publisher and of the witness at `url`. -/
structure Deployment (SK VK : Type) [NoteCrypto SK VK] where
  signer : CheckpointSigner SK
  origin : Origin
  witnesses : List (CheckpointSigner SK)
  externalWitnesses : List (ExternalWitness VK)
  witnessQuorum : Option ℕ
  witness : Witness.Witness SK VK
  url : Str
  knows : Knows witness signer origin
  url_eq : ∀ w ∈ externalWitnesses, endpoint w.url = endpoint url → w.url = url
  origin_solid : Solid origin.str
  signer_solid : Solid signer.name
  witnesses_solid : ∀ w ∈ witnesses, Solid w.name
  external_solid : ∀ w ∈ externalWitnesses, Solid w.name

/-- What has happened between the publisher and the witness: restarts of the publisher,
requests that were lost, and requests that the witness has handled. -/
inductive Event where
  | restart
  | lost (body : Bytes)
  | handled (body : Bytes) (size : ℕ) (result : Except (Fault WitnessError) Response)
      (delivered : Bool)

/-- The log, the table of the witness, the memory of the publisher, and what has happened. -/
structure Net (H : Type) [Sha256Hash H] where
  log : LogPool H
  witness : WitnessDb H
  sizes : Str → Option ℕ
  lastPublished : LastPublished H
  trace : List Event

variable {SK VK H : Type} [NoteCrypto SK VK] [Sha256Hash H]

namespace Net

def init : Net H := ⟨⟨.init, []⟩, .empty, fun _ => none, ⟨0, none⟩, []⟩

/-- The size the publisher has recorded for a witness. -/
def recorded (s : Net H) (url : Str) : ℕ := (s.sizes url).getD 0

/-- The memory of the publisher is lost. -/
def restart (s : Net H) : Net H :=
  { s with sizes := fun _ => none, lastPublished := ⟨0, none⟩, trace := s.trace ++ [.restart] }

def onLog (s : Net H) (t : LogSystem H) : Net H := { s with log := { s.log with shared := t } }

def setSize (s : Net H) (url : Str) (size : ℕ) : Net H :=
  { s with sizes := fun u => if u = url then some size else s.sizes u }

def record (s : Net H) (event : Event) (db : WitnessDb H) : Net H :=
  { s with witness := db, trace := s.trace ++ [event] }

/-- The tree head that a witness has of a log. -/
def witnessed (s : Net H) (origin : Str) : ℕ × H :=
  ((s.witness.get origin).map fun state => (state.size, state.rootHash)).getD (0, emptyRootHash)

end Net

variable [DecidableEq H] [DecodeErrors] [HttpTexts]

/-- What the witness makes of a request at the time `clock`. -/
def handle (d : Deployment SK VK) (clock : UInt64) (body : Bytes) (db : WitnessDb H) :
    Except (Fault WitnessError) Response × WitnessDb H :=
  Concurrent.Sys.runAlone (WitnessDb.answer clock) (Witness.Handlers.addCheckpoint d.witness body)
    db

/-- One operation of the publisher. -/
inductive PublishExec (d : Deployment SK VK) :
    Net H → (o : PublishOp H) → o.Answer H → Net H → Prop where
  | store {s : Net H} {o : Storage.Op H} {r : o.Answer H} {t : LogSystem H}
      (h : Exec s.log.shared o r t) :
      PublishExec d s (.store o) r (s.onLog t)
  | now {s : Net H} (r : Except String UInt64) : PublishExec d s .now r s
  | getSize {s : Net H} (url : Str) : PublishExec d s (.getSize url) (s.recorded url) s
  | setSize {s : Net H} (url : Str) (size : ℕ) :
      PublishExec d s (.setSize url size) () (s.setSize url size)
  | getLastPublished {s : Net H} : PublishExec d s .getLastPublished s.lastPublished s
  | setLastPublished {s : Net H} (last : LastPublished H) :
      PublishExec d s (.setLastPublished last) () { s with lastPublished := last }
  | other {s : Net H} {url : Str} (h : url ≠ endpoint d.url) (body : Bytes)
      (r : Except String Response) :
      PublishExec d s (.post url body) r s
  | lost {s : Net H} {url : Str} (h : url = endpoint d.url) (body : Bytes) (e : String) :
      PublishExec d s (.post url body) (.error e) (s.record (.lost body) s.witness)
  | unanswered {s : Net H} {url : Str} (h : url = endpoint d.url) (body : Bytes) (clock : UInt64)
      (e : String) :
      PublishExec d s (.post url body) (.error e)
        (s.record
          (.handled body (s.witness.size d.origin.str) (handle d clock body s.witness).1 false)
          (handle d clock body s.witness).2)
  | answered {s : Net H} {url : Str} (h : url = endpoint d.url) (body : Bytes) (clock : UInt64)
      (response : Response) (hr : (handle d clock body s.witness).1 = .ok response) :
      PublishExec d s (.post url body) (.ok response)
        (s.record
          (.handled body (s.witness.size d.origin.str) (handle d clock body s.witness).1 true)
          (handle d clock body s.witness).2)

/-- What an operation does at the time `clock` when nothing fails. There are no other witnesses. -/
def Net.answer (d : Deployment SK VK) (clock : UInt64) (s : Net H) :
    (o : PublishOp H) → o.Answer H × Net H
  | .store o => ((s.log.shared.answer o).1, s.onLog (s.log.shared.answer o).2)
  | .now => (.ok clock, s)
  | .getSize url => (s.recorded url, s)
  | .setSize url size => ((), s.setSize url size)
  | .getLastPublished => (s.lastPublished, s)
  | .setLastPublished last => ((), { s with lastPublished := last })
  | .post url body =>
    if url = endpoint d.url then
      match (handle d clock body s.witness).1 with
      | .ok response => (.ok response,
          s.record
            (.handled body (s.witness.size d.origin.str) (handle d clock body s.witness).1 true)
            (handle d clock body s.witness).2)
      | .error _ => (.error "connection closed",
          s.record
            (.handled body (s.witness.size d.origin.str) (handle d clock body s.witness).1 false)
            (handle d clock body s.witness).2)
    else (.error "unknown host", s)

theorem publishExec_answer (d : Deployment SK VK) (clock : UInt64) (s : Net H) (o : PublishOp H) :
    PublishExec d s o (s.answer d clock o).1 (s.answer d clock o).2 := by
  cases o with
  | store o => exact .store (exec_answer s.log.shared o)
  | now => exact .now _
  | getSize url => exact .getSize url
  | setSize url size => exact .setSize url size
  | getLastPublished => exact .getLastPublished
  | setLastPublished last => exact .setLastPublished last
  | post url body =>
    rw [Net.answer]
    split_ifs with h
    · split
      · exact .answered h body clock _ ‹_›
      · exact .unanswered h body clock _
    · exact .other h body _

/-- The system, and the cycle that the publisher is in. -/
structure Protocol (H : Type) [Sha256Hash H] where
  net : Net H
  cycle : Option (Publisher H Unit)

def Deployment.publish (d : Deployment SK VK) : Publisher H Unit :=
  publishCheckpoint d.signer d.witnesses d.externalWitnesses d.witnessQuorum d.origin

namespace Protocol

inductive Step (d : Deployment SK VK) : Protocol H → Protocol H → Prop where
  | log {s : Net H} {c : Option (Publisher H Unit)} {l : LogPool H} (h : logSys.Step s.log l) :
      Step d ⟨s, c⟩ ⟨{ s with log := l }, c⟩
  | start {s : Net H} : Step d ⟨s, none⟩ ⟨s, some d.publish⟩
  | run {s t : Net H} {o : PublishOp H} {k : o.Answer H → Publisher H Unit} {r : o.Answer H}
      (h : PublishExec d s o r t) :
      Step d ⟨s, some (.op o k)⟩ ⟨t, some (k r)⟩
  | done {s : Net H} : Step d ⟨s, some (.pure ())⟩ ⟨s, none⟩
  | failed {s : Net H} (e : Fault Error) : Step d ⟨s, some (.fail e)⟩ ⟨s, none⟩
  | restart {s : Net H} {c : Option (Publisher H Unit)} : Step d ⟨s, c⟩ ⟨s.restart, none⟩

/-- The states that any run from the empty log can reach. -/
def Reachable (d : Deployment SK VK) (p : Protocol H) : Prop :=
  Relation.ReflTransGen (Step d) ⟨.init, none⟩ p

variable {d : Deployment SK VK}

theorem reachable_log {l : LogPool H} (h : Worker.Reachable l) :
    Reachable d ⟨{ Net.init with log := l }, none⟩ := by
  induction h with
  | refl => exact .refl
  | tail _ hstep ih => exact ih.tail (.log hstep)

/-- The net after a cycle of the publisher in which nothing fails. -/
def published (d : Deployment SK VK) (clock : UInt64) (s : Net H) : Net H :=
  (Concurrent.Sys.runAlone (Net.answer d clock) d.publish s).2

theorem reachable_published {s : Net H} (h : Reachable d ⟨s, none⟩) (clock : UInt64) :
    Reachable d ⟨published d clock s, none⟩ := by
  have hrun : ∀ (c : Publisher H Unit) (s : Net H), Reachable d ⟨s, some c⟩ →
      Reachable d ⟨(Concurrent.Sys.runAlone (Net.answer d clock) c s).2, none⟩ := by
    intro c
    induction c with
    | pure _ => exact fun s h => h.tail .done
    | fail e => exact fun s h => h.tail (.failed e)
    | op o k ih => exact fun s h => ih _ _ (h.tail (.run (publishExec_answer d clock s o)))
  exact hrun d.publish s (h.tail .start)

end Protocol

end Siglog.Worker

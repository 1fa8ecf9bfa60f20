import Siglog.Client
import Siglog.Concurrent.Processes
import Siglog.Monitor.Conda

/-! The database of the monitors and its transactions. What a transaction writes is seen by
no one else until it is committed; a row of `witness_state` that it has updated is locked
until then. The memory of a process outlives its requests. -/

namespace Siglog.Monitor

open Storage (asI64 asU64)
open Text (Str)
open Witness (StateRow StoreExec StoreOp WitnessDb WitnessedState)

variable {H : Type}

/-- The two tables. -/
structure MonitorDb (H : Type) where
  witness : WitnessDb H
  content : List ContentRow

/-- The unique index of `content_index`. -/
def ContentRow.SameKey (a b : ContentRow) : Prop :=
  a.indexName = b.indexName ∧ a.origin = b.origin ∧ a.key = b.key

theorem ContentRow.SameKey.symm {a b : ContentRow} (h : a.SameKey b) : b.SameKey a :=
  ⟨h.1.symm, h.2.1.symm, h.2.2.symm⟩

instance (a b : ContentRow) : Decidable (a.SameKey b) := inferInstanceAs (Decidable (_ ∧ _))

/-- What a statement changes. -/
inductive Write (H : Type) where
  | state (origin : Str) (row : StateRow H)
  | content (row : ContentRow)

def Write.origin : Write H → Str
  | .state origin _ => origin
  | .content row => row.origin

namespace MonitorDb

def empty : MonitorDb H := ⟨.empty, []⟩

/-- An insert does nothing on a conflict. -/
def write (db : MonitorDb H) : Write H → MonitorDb H
  | .state origin row => { db with witness := db.witness.put origin row }
  | .content row =>
    if ∃ old ∈ db.content, row.SameKey old then db else { db with content := db.content ++ [row] }

end MonitorDb

/-- A transaction: the logs whose rows it has locked, and what it has written. -/
structure Txn (H : Type) where
  locked : List Str
  writes : List (Write H)

/-- The database as a transaction sees it, and as it is after its commit. -/
def Txn.view (txn : Txn H) (db : MonitorDb H) : MonitorDb H := txn.writes.foldl MonitorDb.write db

/-- Whose transaction it is: that of a process, or one that was left when its commit had
been sent. -/
inductive Owner where
  | process (i : ℕ)
  | orphan (k : ℕ)
  deriving DecidableEq

/-- What a request does, to the database and elsewhere. -/
inductive MonitorOp (H : Type) where
  | store (o : StoreOp H)
  | begin
  | lockMatching (expected : WitnessedState H)
  | updateMatching (expected : WitnessedState H) (size : ℕ) (rootHash : H) (checkpoint : Str)
  | loadRows (indexName origin : Str)
  | insertRow (row : ContentRow)
  | commit
  | rollback
  | drop
  | index (which : CondaIndex) (o : IndexOp)
  | client (o : ClientOp)

abbrev MonitorOp.Answer (H : Type) : MonitorOp H → Type
  | .store o => o.Answer H
  | .begin => Except String Unit
  | .lockMatching _ => Except Error Bool
  | .updateMatching _ _ _ _ => Except Error Bool
  | .loadRows _ _ => Except Error (List ContentRow)
  | .insertRow _ => Except Error Unit
  | .commit => Except String Unit
  | .rollback => Except String Unit
  | .drop => Unit
  | .index _ o => o.Answer
  | .client o => o.Answer

/-- The answer that a request has got. -/
structure Answered (H : Type) where
  process : ℕ
  request : Witness.AddCheckpointRequest H
  answer : Except (Fault MonitorError) Note.CheckpointSignature

/-- The database with its open transactions, the memory of each process, and the answers
that were given. -/
structure MonitorSystem (H : Type) where
  db : MonitorDb H
  txns : Owner → Option (Txn H)
  memory : ℕ → CondaMonitor
  answers : List (Answered H)

namespace MonitorSystem

def init : MonitorSystem H := ⟨.empty, fun _ => none, fun _ => .new, []⟩

def setTxn (s : MonitorSystem H) (owner : Owner) (txn : Option (Txn H)) : MonitorSystem H :=
  { s with txns := Function.update s.txns owner txn }

def setMemory (s : MonitorSystem H) (i : ℕ) (memory : CondaMonitor) : MonitorSystem H :=
  { s with memory := Function.update s.memory i memory }

@[simp] theorem txns_setTxn_self (s : MonitorSystem H) (owner : Owner) (txn : Option (Txn H)) :
    (s.setTxn owner txn).txns owner = txn := Function.update_self _ _ _

theorem txns_setTxn_ne (s : MonitorSystem H) {owner other : Owner} (h : other ≠ owner)
    (txn : Option (Txn H)) :
    (s.setTxn owner txn).txns other = s.txns other := Function.update_of_ne h _ _

@[simp] theorem memory_setMemory_self (s : MonitorSystem H) (i : ℕ) (memory : CondaMonitor) :
    (s.setMemory i memory).memory i = memory := Function.update_self _ _ _

theorem memory_setMemory_ne (s : MonitorSystem H) {i j : ℕ} (h : j ≠ i) (memory : CondaMonitor) :
    (s.setMemory i memory).memory j = s.memory j := Function.update_of_ne h _ _

/-- After a transaction has ended, the others are as before. -/
theorem txns_setTxn_none {s : MonitorSystem H} {owner other : Owner} {txn : Txn H}
    (h : (s.setTxn owner none).txns other = some txn) : other ≠ owner ∧
    s.txns other = some txn := by
  by_cases he : other = owner
  · subst he
    rw [txns_setTxn_self] at h
    cases h
  · rw [txns_setTxn_ne s he] at h
    exact ⟨he, h⟩

/-- No transaction of another owner has locked the row of the log. -/
def Free (s : MonitorSystem H) (owner : Owner) (origin : Str) : Prop :=
  ∀ other txn, other ≠ owner → s.txns other = some txn → origin ∉ txn.locked

end MonitorSystem

/-- One operation of a process. A statement outside of the transaction does not touch rows
that are locked. A commit that fails may have been discarded, or it may still take place. -/
inductive Exec [Sha256Hash H] (i : ℕ) :
    MonitorSystem H → (o : MonitorOp H) → o.Answer H → MonitorSystem H → Prop where
  | store {s : MonitorSystem H} {o : StoreOp H} {r : o.Answer H} {witness : WitnessDb H}
      (h : StoreExec s.db.witness o r witness)
      (hlocked : ∀ owner txn origin, s.txns owner = some txn → origin ∈ txn.locked →
        witness.rows origin = s.db.witness.rows origin) :
      Exec i s (.store o) r { s with db := { s.db with witness := witness } }
  | begin {s : MonitorSystem H} (h : s.txns (.process i) = none) :
      Exec i s .begin (.ok ()) (s.setTxn (.process i) (some ⟨[], []⟩))
  | beginFault {s : MonitorSystem H} (e : String) : Exec i s .begin (.error e) s
  | lock {s : MonitorSystem H} {txn : Txn H} {expected : WitnessedState H}
      (h : s.txns (.process i) = some txn) (hfree : s.Free (.process i) expected.origin)
      (hm : (txn.view s.db).witness.Matching expected) :
      Exec i s (.lockMatching expected) (.ok true)
        (s.setTxn (.process i) (some { txn with locked := expected.origin :: txn.locked }))
  | lockStale {s : MonitorSystem H} {txn : Txn H} {expected : WitnessedState H}
      (h : s.txns (.process i) = some txn) (hm : ¬ (txn.view s.db).witness.Matching expected) :
      Exec i s (.lockMatching expected) (.ok false) s
  | lockFault {s : MonitorSystem H} {expected : WitnessedState H} (e : Error) :
      Exec i s (.lockMatching expected) (.error e) s
  | update {s : MonitorSystem H} {txn : Txn H} {expected : WitnessedState H} {size : ℕ}
      {rootHash : H} {checkpoint : Str}
      (h : s.txns (.process i) = some txn) (hfree : s.Free (.process i) expected.origin)
      (hm : (txn.view s.db).witness.Matching expected) :
      Exec i s (.updateMatching expected size rootHash checkpoint) (.ok true) (s.setTxn (.process i)
        (some ⟨expected.origin :: txn.locked,
          txn.writes ++ [.state expected.origin ⟨size, rootHash, checkpoint⟩]⟩))
  | updateStale {s : MonitorSystem H} {txn : Txn H} {expected : WitnessedState H} {size : ℕ}
      {rootHash : H} {checkpoint : Str}
      (h : s.txns (.process i) = some txn) (hm : ¬ (txn.view s.db).witness.Matching expected) :
      Exec i s (.updateMatching expected size rootHash checkpoint) (.ok false) s
  | updateFault {s : MonitorSystem H} {expected : WitnessedState H} {size : ℕ} {rootHash : H}
      {checkpoint : Str} (e : Error) :
      Exec i s (.updateMatching expected size rootHash checkpoint) (.error e) s
  | loadRows {s : MonitorSystem H} {txn : Txn H} {indexName origin : Str}
      (h : s.txns (.process i) = some txn) :
      Exec i s (.loadRows indexName origin)
        (.ok ((txn.view s.db).content.filter fun row => row.indexName = indexName ∧
          row.origin = origin)) s
  | loadFault {s : MonitorSystem H} {indexName origin : Str} (e : Error) :
      Exec i s (.loadRows indexName origin) (.error e) s
  | insert {s : MonitorSystem H} {txn : Txn H} {row : ContentRow}
      (h : s.txns (.process i) = some txn) (r : Except Error Unit) :
      Exec i s (.insertRow row) r
        (s.setTxn (.process i) (some { txn with writes := txn.writes ++ [.content row] }))
  | insertFault {s : MonitorSystem H} {row : ContentRow} (e : Error) :
      Exec i s (.insertRow row) (.error e) s
  | commit {s : MonitorSystem H} {txn : Txn H} (h : s.txns (.process i) = some txn) :
      Exec i s .commit (.ok ()) { s.setTxn (.process i) none with db := txn.view s.db }
  | commitFault {s : MonitorSystem H} (e : String) :
      Exec i s .commit (.error e) (s.setTxn (.process i) none)
  | commitSent {s : MonitorSystem H} {txn : Txn H} (e : String) (k : ℕ)
      (h : s.txns (.process i) = some txn) (hk : s.txns (.orphan k) = none) :
      Exec i s .commit (.error e) ((s.setTxn (.process i) none).setTxn (.orphan k) (some txn))
  | rollback {s : MonitorSystem H} (r : Except String Unit) :
      Exec i s .rollback r (s.setTxn (.process i) none)
  | drop {s : MonitorSystem H} : Exec i s .drop () (s.setTxn (.process i) none)
  | index {s : MonitorSystem H} (which : CondaIndex) (o : IndexOp) :
      Exec i s (.index which o) (((s.memory i).get which).answer o).1
        (s.setMemory i ((s.memory i).set which (((s.memory i).get which).answer o).2))
  | client {s : MonitorSystem H} (o : ClientOp) (r : o.Answer) : Exec i s (.client o) r s

/-- What happens by itself: a transaction that was left takes place or is discarded, and a
process that is handling a request answers others that it is busy. -/
inductive Env : MonitorSystem H → MonitorSystem H → Prop where
  | applied {s : MonitorSystem H} {k : ℕ} {txn : Txn H} (h : s.txns (.orphan k) = some txn) :
      Env s { s.setTxn (.orphan k) none with db := txn.view s.db }
  | discarded {s : MonitorSystem H} (k : ℕ) : Env s (s.setTxn (.orphan k) none)
  | busy {s : MonitorSystem H} (i : ℕ) (request : Witness.AddCheckpointRequest H) :
      Env s { s with answers := s.answers ++ [⟨i, request, .error (.err .busy)⟩] }

/-- A request is cancelled, or the process starts again. Its transaction is rolled back. -/
inductive Dropped (i : ℕ) : MonitorSystem H → MonitorSystem H → Prop where
  | cancelled {s : MonitorSystem H} : Dropped i s (s.setTxn (.process i) none)
  | restarted {s : MonitorSystem H} : Dropped i s ((s.setTxn (.process i) none).setMemory i .new)

end Siglog.Monitor

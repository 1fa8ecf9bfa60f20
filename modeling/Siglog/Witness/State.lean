import Siglog.Storage.Database
import Siglog.Concurrent.Pool
import Siglog.Text.Lines

/-! The persisted state of a witness: one row for each log, with the size and the root
it has witnessed last. An update goes through only if the row is still the one that
the proof was checked against. -/

namespace Siglog.Witness

open Concurrent (Prog)
open Storage (asU64 asI64)
open Text (Str)

/-- State of a witnessed checkpoint. -/
structure WitnessedState (H : Type) where
  origin : Str
  size : ℕ
  rootHash : H

/-- The operations on the store, and the clock. -/
inductive StoreOp (H : Type) where
  | get (origin : Str)
  | insertInitial (origin : Str)
  | updateMatching (expected : WitnessedState H) (size : ℕ) (rootHash : H) (checkpoint : Str)
  | now

abbrev StoreOp.Answer (H : Type) : StoreOp H → Type
  | .get _ => Except Error (Option (WitnessedState H))
  | .insertInitial _ => Except Error Unit
  | .updateMatching _ _ _ _ => Except Error Bool
  | .now => Except String UInt64

/-- A program of the witness. -/
abbrev Store (H ε α : Type) := Prog (StoreOp H) (StoreOp.Answer H) ε α

variable {H : Type}

namespace WitnessStateStore

def get (origin : Str) : Store H Error (Option (WitnessedState H)) :=
  (Prog.call (StoreOp.get (H := H) origin)).bind Prog.ofExcept

def insertInitial (origin : Str) : Store H Error Unit :=
  (Prog.call (StoreOp.insertInitial (H := H) origin)).bind Prog.ofExcept

/-- Get the witnessed state for a log, initializing if not present. -/
def getOrInit (origin : Str) : Store H Error (WitnessedState H) := do
  match ← get origin with
  | some state => .pure state
  | none => do
    insertInitial origin
    match ← get origin with
    | some state => .pure state
    | none => .fail (.internal "witness state missing after initialization")

variable [DecidableEq H]

/-- Commit only if the state used to verify the proof is still current. -/
def update (expected : WitnessedState H) (size : ℕ) (rootHash : H) (checkpoint : Str) :
    Store H Error Bool :=
  if size < expected.size ∨ (size = expected.size ∧ rootHash ≠ expected.rootHash) then
    .fail (.invalidEntry "checkpoint rollback or conflicting root")
  else if i64Max < size then .fail (.invalidEntry "tree too large")
  else (Prog.call (StoreOp.updateMatching expected size rootHash checkpoint)).bind Prog.ofExcept

end WitnessStateStore

/-! ### The table -/

/-- A row of `witness_state`. -/
structure StateRow (H : Type) where
  size : ℤ
  rootHash : H
  checkpoint : Str

/-- The table, and the sizes and roots that each of its rows has had. -/
structure WitnessDb (H : Type) where
  rows : Str → Option (StateRow H)
  persisted : Str → List (ℕ × H)

namespace WitnessDb

def empty : WitnessDb H := ⟨fun _ => none, fun _ => []⟩

/-- The persisted size of a log, zero if it has no row. -/
def size (s : WitnessDb H) (origin : Str) : ℕ :=
  ((s.rows origin).map fun row => asU64 row.size).getD 0

def get (s : WitnessDb H) (origin : Str) : Option (WitnessedState H) :=
  (s.rows origin).map fun row => ⟨origin, asU64 row.size, row.rootHash⟩

def put (s : WitnessDb H) (origin : Str) (row : StateRow H) : WitnessDb H where
  rows o := if o = origin then some row else s.rows o
  persisted o :=
    if o = origin then s.persisted o ++ [(asU64 row.size, row.rootHash)] else s.persisted o

/-- Insert, and do nothing on a conflict. -/
def insertInitial [Sha256Hash H] (s : WitnessDb H) (origin : Str) : WitnessDb H :=
  match s.rows origin with
  | some _ => s
  | none => s.put origin ⟨0, emptyRootHash, []⟩

/-- The filter of an update. -/
def Matching (s : WitnessDb H) (expected : WitnessedState H) : Prop :=
  ∃ row, s.rows expected.origin = some row ∧ row.size = asI64 expected.size ∧
    row.rootHash = expected.rootHash

instance [DecidableEq H] (s : WitnessDb H) (expected : WitnessedState H) :
    Decidable (s.Matching expected) :=
  match h : s.rows expected.origin with
  | none => isFalse (by rintro ⟨row, hrow, -⟩; simp [h] at hrow)
  | some row =>
    decidable_of_iff (row.size = asI64 expected.size ∧ row.rootHash = expected.rootHash)
      (by simp [Matching, h])

end WitnessDb

/-- One operation. It may fail, and an operation that fails may have taken place. -/
inductive StoreExec [Sha256Hash H] :
    WitnessDb H → (o : StoreOp H) → o.Answer H → WitnessDb H → Prop where
  | get (s : WitnessDb H) (origin : Str) : StoreExec s (.get origin) (.ok (s.get origin)) s
  | getFault (s : WitnessDb H) (origin : Str) (e : Error) : StoreExec s (.get origin) (.error e) s
  | insertInitial (s : WitnessDb H) (origin : Str) (r : Except Error Unit) :
      StoreExec s (.insertInitial origin) r (s.insertInitial origin)
  | insertFault (s : WitnessDb H) (origin : Str) (e : Error) :
      StoreExec s (.insertInitial origin) (.error e) s
  | update (s : WitnessDb H) (expected : WitnessedState H) (size : ℕ) (rootHash : H)
      (checkpoint : Str) (h : s.Matching expected) (r : Except Error Bool)
      (hr : ∀ updated, r = .ok updated → updated = true) :
      StoreExec s (.updateMatching expected size rootHash checkpoint) r
        (s.put expected.origin ⟨size, rootHash, checkpoint⟩)
  | stale (s : WitnessDb H) (expected : WitnessedState H) (size : ℕ) (rootHash : H)
      (checkpoint : Str) (h : ¬ s.Matching expected) :
      StoreExec s (.updateMatching expected size rootHash checkpoint) (.ok false) s
  | updateFault (s : WitnessDb H) (expected : WitnessedState H) (size : ℕ) (rootHash : H)
      (checkpoint : Str) (e : Error) :
      StoreExec s (.updateMatching expected size rootHash checkpoint) (.error e) s
  | now (s : WitnessDb H) (r : Except String UInt64) : StoreExec s .now r s

/-- What an operation does when nothing fails, at the time `clock`. -/
def WitnessDb.answer [Sha256Hash H] [DecidableEq H] (clock : UInt64) (s : WitnessDb H) :
    (o : StoreOp H) → o.Answer H × WitnessDb H
  | .get origin => (.ok (s.get origin), s)
  | .insertInitial origin => (.ok (), s.insertInitial origin)
  | .updateMatching expected size rootHash checkpoint =>
    if s.Matching expected then (.ok true, s.put expected.origin ⟨size, rootHash, checkpoint⟩)
    else (.ok false, s)
  | .now => (.ok clock, s)

theorem exec_answer [Sha256Hash H] [DecidableEq H] (clock : UInt64) (s : WitnessDb H)
    (o : StoreOp H) :
    StoreExec s o (s.answer clock o).1 (s.answer clock o).2 := by
  cases o with
  | get origin => exact .get s origin
  | insertInitial origin => exact .insertInitial s origin (.ok ())
  | updateMatching expected size rootHash checkpoint =>
    rw [WitnessDb.answer]
    split_ifs with h
    · exact .update s expected size rootHash checkpoint h (.ok true) (by rintro _ ⟨⟩; rfl)
    · exact .stale s expected size rootHash checkpoint h
  | now => exact .now s (.ok clock)

end Siglog.Witness

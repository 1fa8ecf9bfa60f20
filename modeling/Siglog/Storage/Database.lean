import Siglog.Types
import Mathlib.Data.List.Sort
import Mathlib.Data.Int.ModEq

/-! The log database. Its integer columns are signed, so a size goes through a cast
on its way in and out. Each function here is one transaction: it computes the
answer and the next database, or fails and changes nothing. -/

namespace Siglog.Storage

/-- `as u64` on a column. -/
def asU64 (i : ℤ) : ℕ := (i % 2 ^ 64).toNat

/-- `as i64` on a size. -/
def asI64 (n : ℕ) : ℤ := (n : ℤ).bmod (2 ^ 64)

theorem asU64_lt (i : ℤ) : asU64 i < 2 ^ 64 := by
  unfold asU64
  omega

theorem asU64_natCast {n : ℕ} (h : n ≤ i64Max) : asU64 n = n := by
  unfold asU64
  rw [Int.emod_eq_of_lt (by omega) (by unfold i64Max at h; omega), Int.toNat_natCast]

/-- A number of 64 bits is read back from its column. -/
theorem asU64_asI64 {n : ℕ} (h : n < 2 ^ 64) : asU64 (asI64 n) = n := by
  unfold asU64 asI64
  have hpow : (2 ^ 64 : ℤ) = ((2 ^ 64 : ℕ) : ℤ) := by norm_num
  rw [hpow, Int.bmod_emod, Int.emod_eq_of_lt (by omega) (by omega), Int.toNat_natCast]

theorem asI64_natCast {n : ℕ} (h : n ≤ i64Max) : asI64 n = n := by
  unfold asI64
  unfold i64Max at h
  rw [Int.bmod_eq_of_le (by omega) (by omega)]

inductive Mode where
  | tessera
  | rekor
  deriving DecidableEq, Repr

def Mode.asStr : Mode → String
  | .tessera => "tessera"
  | .rekor => "rekor"

/-- The row of `log_state`. -/
structure LogStateRow (H : Type) where
  nextIndex : ℤ
  integratedSize : ℤ
  rootHash : Option H
  deriving DecidableEq

/-- A row of `pending_entries`. -/
structure PendingRow (H : Type) where
  idx : ℤ
  data : Bytes
  leafHash : H
  deriving DecidableEq

structure Database (H : Type) where
  logState : LogStateRow H
  pendingEntries : List (PendingRow H)
  rekorEntries : List (H × ℤ)
  logConfig : Option Mode
  deriving DecidableEq

structure LogState (H : Type) where
  nextIndex : ℕ
  integratedSize : ℕ
  rootHash : Option H

structure PendingEntry (H : Type) where
  index : ℕ
  data : Bytes
  leafHash : H

structure SequencedEntry (H : Type) [Sha256Hash H] where
  index : ℕ
  entry : Entry H
  deriving DecidableEq

variable {H : Type}

def LogState.pendingCount (state : LogState H) : Except (Fault Error) ℕ :=
  checkedSub state.nextIndex state.integratedSize

namespace Database

/-- The database after the migrations. -/
def empty : Database H := ⟨⟨0, 0, none⟩, [], [], none⟩

def getLogState (db : Database H) : LogState H :=
  ⟨asU64 db.logState.nextIndex, asU64 db.logState.integratedSize, db.logState.rootHash⟩

/-- The insert of `ensure_mode`. Existing unmarked logs are Tessera, and a pinned mode stays. -/
def insertMode (db : Database H) (mode : Mode) : Database H :=
  { db with
    logConfig := some (db.logConfig.getD (if 0 < db.logState.nextIndex then .tessera else mode)) }

/-- The check of `ensure_mode`, made after the insert. -/
def checkMode (db : Database H) (mode : Mode) : Except (Fault Error) Unit :=
  match db.logConfig with
  | none => .error (.err (.internal "missing log configuration"))
  | some stored =>
    if stored ≠ mode then
      .error (.err (.config ("log uses " ++ stored.asStr ++ " mode, not " ++ mode.asStr ++
        "; use a separate database and storage for a new log")))
    else .ok ()

/-- The checks of `begin_import`, made under the writer lock. -/
def beginImport (db : Database H) : Except (Fault Error) Unit :=
  if db.logState.nextIndex ≠ 0 ∨ db.logState.integratedSize ≠ 0 ∨ db.logState.rootHash.isSome ∨
      db.pendingEntries ≠ [] then
    .error (.err
      (.config "bulk import requires an empty log; a completed import cannot be repeated"))
  else .ok ()

/-- The commit of an import. -/
def finishImport (db : Database H) (size : ℕ) (root : H) : Except (Fault Error) (Database H) :=
  if i64Max < size then .error (.err (.invalidEntry "import exceeds maximum log size"))
  else .ok { db with logState := ⟨size, size, some root⟩ }

/-- The transaction of an import: the lock is held from the checks to the commit.
The mode has been pinned before, in a transaction of its own. -/
def importLog (db : Database H) (size : ℕ) (root : H) : Except (Fault Error) (Database H) := do
  db.beginImport
  db.finishImport size root

def getPendingEntries (db : Database H) (fromIndex limit : ℕ) : List (PendingEntry H) :=
  let rows := (db.pendingEntries.filter fun row => asI64 fromIndex ≤ row.idx).insertionSort
    fun a b => a.idx ≤ b.idx
  (rows.take limit).map fun row => ⟨asU64 row.idx, row.data, row.leafHash⟩

/-- Mark entries as integrated if the state has not changed since the caller read it. -/
def markIntegratedIfCurrent (db : Database H) (expectedCurrentSize newSize : ℕ) (rootHash : H) :
    Except (Fault Error) (Bool × Database H) :=
  if newSize < expectedCurrentSize then
    .error (.err (.internal
      s!"refusing to move integrated size backward: current={expectedCurrentSize}, new={newSize}"))
  else if asU64 db.logState.integratedSize ≠ expectedCurrentSize then .ok (false, db)
  else .ok (true, { db with
    logState := { db.logState with integratedSize := asI64 newSize, rootHash := some rootHash }
    pendingEntries := db.pendingEntries.filter fun row => ¬ row.idx < asI64 newSize })

/-- `i64::checked_add(1)`. -/
def checkedSucc (i : ℤ) : Option ℤ := if i < 2 ^ 63 - 1 then some (i + 1) else none

variable [Sha256Hash H]

/-- Insert into `pending_entries`, whose primary key is the index. -/
def insertPending (db : Database H) (row : PendingRow H) : Except (Fault Error) (Database H) :=
  if db.pendingEntries.any fun r => r.idx = row.idx then
    .error (.err (.database "UNIQUE constraint failed: pending_entries.idx"))
  else .ok { db with pendingEntries := db.pendingEntries ++ [row] }

/-- Assign the next index to an entry. -/
def sequenceEntry (db : Database H) (entry : Entry H) :
    Except (Fault Error) (SequencedEntry H × Database H) :=
  let idx := asU64 db.logState.nextIndex
  match checkedSucc db.logState.nextIndex with
  | none => .error (.err (.indexFull "log index exhausted"))
  | some nextIndex => do
    let db ← db.insertPending ⟨asI64 idx, entry.data, entry.leafHash⟩
    .ok (⟨idx, entry⟩, { db with logState := { db.logState with nextIndex } })

variable [DecidableEq H]

/-- The loop of `sequence_entries`. A duplicate is an answer and not a failure. -/
def sequenceLoop (deduplicate : Bool) : Database H → List (Entry H) →
    Except (Fault Error) (List (Except Error (SequencedEntry H)) × Database H)
  | db, [] => .ok ([], db)
  | db, entry :: entries =>
    match if deduplicate then db.rekorEntries.find? (fun row => row.1 = entry.leafHash)
      else none with
    | some row => do
      let (sequenced, db) ← sequenceLoop deduplicate db entries
      .ok (.error (.duplicate (asU64 row.2)) :: sequenced, db)
    | none => do
      let reserved :=
        if deduplicate then db.rekorEntries ++ [(entry.leafHash, db.logState.nextIndex)]
        else db.rekorEntries
      let (answer, db) ← { db with rekorEntries := reserved }.sequenceEntry entry
      let (sequenced, db) ← sequenceLoop deduplicate db entries
      .ok (.ok answer :: sequenced, db)

/-- Atomically assign indices to a batch of entries. -/
def sequenceEntries (db : Database H) (entries : List (Entry H)) :
    Except (Fault Error) (List (Except Error (SequencedEntry H)) × Database H) :=
  if entries = [] then .ok ([], db) else sequenceLoop (db.logConfig = some .rekor) db entries

end Database

end Siglog.Storage

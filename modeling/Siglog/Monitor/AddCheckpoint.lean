import Siglog.Monitor.Transaction

/-! A request to the content-validating witness. The entries that are new in the checkpoint
are fetched, each is verified against the root and validated against the indices, and the
indices are persisted in one transaction with the new state of the log. -/

namespace Siglog.Monitor

open Concurrent (Prog)
open Merkle (InclusionVerifier)
open Note (Checkpoint CheckpointSignature CosignedCheckpoint NoteCrypto)
open Storage (asI64 asU64)
open Text (Str)
open Text.Base64 (DecodeErrors)
open Witness (AddCheckpointRequest LogConfig Store StoreOp WitnessedState
  WitnessStateStore.getOrInit WitnessStateStore.update)

variable {SK VK H : Type}

/-- A program of a request. -/
abbrev MonitorProg (H α : Type) := Prog (MonitorOp H) (MonitorOp.Answer H) (Fault MonitorError) α

def internal (e : Error) : Fault MonitorError := .err (.witness (.internal e.display))

/-- The same for an error of the database itself. -/
def databaseError (e : String) : Fault MonitorError := .err (.witness (.internal e))

def invalidContent : Fault Error → Fault MonitorError
  | .err e => .err (.witness (.invalidProof e.display))
  | .panic => .panic

/-- Perform an operation that may fail. -/
def perform {ε α : Type} (f : ε → Fault MonitorError) (o : MonitorOp H)
    (h : o.Answer H = Except ε α) : MonitorProg H α :=
  (Prog.call o).bind fun r => Prog.ofExcept ((h ▸ r : Except ε α).mapError f)

/-- Statements outside of the transaction. -/
def onDatabase {ε α : Type} (p : Store H ε α) : Prog (MonitorOp H) (MonitorOp.Answer H) ε α :=
  p.translate fun o => .call (.store o)

/-- An update is a statement of the transaction. -/
def statement {ε : Type} : (o : StoreOp H) → Prog (MonitorOp H) (MonitorOp.Answer H) ε (o.Answer H)
  | .updateMatching expected size rootHash checkpoint =>
    Prog.call (MonitorOp.updateMatching expected size rootHash checkpoint)
  | .get origin => Prog.call (MonitorOp.store (.get origin))
  | .insertInitial origin => Prog.call (MonitorOp.store (.insertInitial origin))
  | .now => Prog.call (MonitorOp.store .now)

def inTransaction {ε α : Type} (p : Store H ε α) : Prog (MonitorOp H) (MonitorOp.Answer H) ε α :=
  p.translate statement

def onClient {α : Type} (p : Client α) : Prog (MonitorOp H) (MonitorOp.Answer H) (Fault Error) α :=
  p.translate fun o => .call (.client o)

/-! ### The Conda monitor -/

inductive ValidationResult where
  | valid
  | invalid (e : ValidationError)
  deriving DecidableEq

def index (which : CondaIndex) (o : IndexOp) : MonitorProg H o.Answer :=
  Prog.call (MonitorOp.index which o)

/-- The map of the rows that were loaded. -/
def contentMap (rows : List ContentRow) : Str → Option (ℕ × Option Str) :=
  rows.foldl (fun data row => Function.update data row.key (some (asU64 row.firstIndex, row.value)))
    fun _ => none

def loadIndex (which : CondaIndex) (origin : Str) : MonitorProg H Unit := do
  let rows ← perform internal (.loadRows which.name origin) rfl
  index which (.loadFrom (contentMap rows))

def loadState (origin : Str) : MonitorProg H Unit := do
  loadIndex .sha256 origin
  loadIndex .filename origin

def rollbackEntries : MonitorProg H Unit := do
  index .sha256 .rollback
  index .filename .rollback

def saveRows (which : CondaIndex) (origin : Str) : List PendingEntry → MonitorProg H Unit
  | [] => .pure ()
  | entry :: entries => do
    perform internal (.insertRow ⟨which.name, origin, entry.key, asI64 entry.index, entry.value⟩)
      rfl
    saveRows which origin entries

def saveIndex (which : CondaIndex) (origin : Str) : MonitorProg H Unit := do
  let entries ← index which .pendingEntriesSnapshot
  saveRows which origin entries

def commitEntries (origin : Str) : MonitorProg H Unit := do
  saveIndex .sha256 origin
  saveIndex .filename origin
  index .sha256 .commit
  index .filename .commit

section

variable [EntryJson] [Hasher]

def stageEntry (i : ℕ) (entry : CondaEntry) : MonitorProg H ValidationResult := do
  index .sha256 (.stage (hashKey entry.sha256) i none)
  index .filename (.stage (hashKey entry.filename) i (some entry.sha256))
  .pure .valid

def checkFilename (i : ℕ) (entry : CondaEntry) : MonitorProg H ValidationResult := do
  match ← index .filename (.check (hashKey entry.filename) i (some entry.sha256)) with
  | none => stageEntry i entry
  | some violation =>
    match violation.kind with
    | .duplicateKey => stageEntry i entry
    | .conflictingValue =>
      .pure (.invalid (.duplicateFilename entry.filename (violation.context.getD []) entry.sha256
        violation.firstIndex i))

def validateEntry (i : ℕ) (data : Bytes) : MonitorProg H ValidationResult :=
  match parseEntry data with
  | .error e => .pure (.invalid e)
  | .ok entry => do
    match ← index .sha256 (.check (hashKey entry.sha256) i none) with
    | some violation => .pure (.invalid (.duplicateSha256 entry.sha256 violation.firstIndex i))
    | none => checkFilename i entry

end

/-! ### The request -/

variable [NoteCrypto SK VK] [Sha256Hash H] [DecodeErrors] [DecidableEq H] [InclusionVerifier H]
  [EntryJson] [Hasher]

section

variable (cp : Checkpoint H) (stateSize : ℕ)

/-- Verify an entry against the checkpoint and validate it. -/
def admitEntry (client : LogClient H) (i : ℕ) (data : Bytes) : MonitorProg H (LogClient H) := do
  let client ← (onClient (client.verifyEntry data i cp)).mapErr invalidContent
  match ← validateEntry i data with
  | .valid => .pure client
  | .invalid e => .fail (.err (.validation e))

/-- The entries of a bundle, of which those below the persisted size are skipped. -/
def admitEntries (client : LogClient H) (i : ℕ) : List Bytes → MonitorProg H (LogClient H)
  | [] => .pure client
  | data :: entries =>
    if i < stateSize then admitEntries client (i + 1) entries
    else do
      let client ← admitEntry cp client i data
      admitEntries client (i + 1) entries

def admitBundles (client : LogClient H) : List ℕ → MonitorProg H Unit
  | [] => .pure ()
  | bundleIndex :: rest => do
    let bundle ← (onClient (client.bundle bundleIndex cp.size)).mapErr invalidContent
    let client ← admitEntries cp stateSize client (bundleIndex * 256) bundle.entries
    admitBundles client rest

end

/-- The bundles with the entries from one size up to another. -/
def bundleRange (oldSize size : ℕ) : List ℕ :=
  List.range' (oldSize / 256) ((size + 255) / 256 - oldSize / 256)

/-- Fetch, verify, validate and persist the entries after the persisted size. -/
def admitGrowth (monitor : MonitoringWitness SK VK) (cp : Checkpoint H) (state : WitnessedState H) :
    MonitorProg H Unit :=
  match (monitor.logs.find? fun l => l.origin = cp.origin.str).bind LogConfig.url with
  | none => .fail (.err (.witness (.internal "log URL not configured")))
  | some url => do
    let client ← (onClient (LogClient.new url)).mapErr fun f =>
      match f with
      | .err e => internal e
      | .panic => .panic
    admitBundles cp state.size client (bundleRange state.size cp.size)
    commitEntries cp.origin.str

/-- The part of the transaction after its lock. -/
def updateLocked (monitor : MonitoringWitness SK VK) (request : AddCheckpointRequest H)
    (cp : Checkpoint H) (state : WitnessedState H) : MonitorProg H CheckpointSignature := do
  rollbackEntries
  loadState cp.origin.str
  if state.size < cp.size then admitGrowth monitor cp state else .pure ()
  let updated ← (inTransaction
      (WitnessStateStore.update state cp.size cp.rootHash request.checkpoint)).mapErr internal
  if updated then do
    perform databaseError .commit rfl
    let now ← Prog.call (MonitorOp.store StoreOp.now)
    (Prog.ofExcept (monitor.signer.cosignNow now cp)).mapErr internal
  else .fail (.err (.witness (.conflict state.size)))

def addLocked (monitor : MonitoringWitness SK VK) (request : AddCheckpointRequest H) :
    MonitorProg H CheckpointSignature := do
  let (checkpoint, state) ← onDatabase (admission monitor request)
  let cp := checkpoint.checkpoint
  perform databaseError .begin rfl
  let locked ← perform internal (.lockMatching state) rfl
  if locked then updateLocked monitor request cp state
  else do
    perform databaseError .rollback rfl
    let current ← (onDatabase (WitnessStateStore.getOrInit cp.origin.str)).mapErr internal
    .fail (.err (.witness (.conflict current.size)))

def addCheckpoint (monitor : MonitoringWitness SK VK) (request : AddCheckpointRequest H) :
    MonitorProg H CheckpointSignature := do
  let result ← (addLocked monitor request).attempt
  -- an open transaction is rolled back when it goes out of scope
  Prog.call MonitorOp.drop
  match result with
  | .ok signature => .pure signature
  | .error (.err e) => do
    rollbackEntries
    .fail (.err e)
  | .error .panic => .fail .panic

end Siglog.Monitor

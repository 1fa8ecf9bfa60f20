import Siglog.Storage.Server

/-! One cycle of the integration worker. It reads the state and a batch of pending
entries, integrates them, writes tiles and bundles, and only then marks the
entries as integrated, provided that no other worker has advanced the tree. -/

namespace Siglog.Worker

open Concurrent (Prog)
open Api (tileWidth partialTileSize)
open Merkle (HashTile EntryBundle MapOrder TileKey integrate)
open Storage (Op Server PendingEntry perform TileStorage.reader TileStorage.writeTile
  TileStorage.readEntryBundle TileStorage.writeEntryBundle)

variable {H : Type}

/-- Pending entries must continue the tree without a gap. -/
def checkContiguous (expectedIndex : ℕ) : List (PendingEntry H) → Except (Fault Error) Unit
  | [] => .ok ()
  | entry :: pending =>
    if entry.index ≠ expectedIndex then
      .error (.err (.internal
        s!"pending entries are not contiguous: expected index {expectedIndex}, got {entry.index}"))
    else checkContiguous (expectedIndex + 1) pending

section

variable [Sha256Hash H]

def writeTiles (newSize : ℕ) : List (Σ _ : TileKey, HashTile H) → Server H Unit
  | [] => .pure ()
  | ⟨key, tile⟩ :: tiles => do
    TileStorage.writeTile key.level key.index (partialTileSize key.level key.index newSize) tile
    writeTiles newSize tiles

end

/-- Group entries by bundle index. -/
def groupBundles (pending : List (PendingEntry H)) : AList fun _ : ℕ => List Bytes :=
  pending.foldl (fun bundles entry =>
    let bundleIdx := entry.index / tileWidth
    bundles.insert bundleIdx ((bundles.lookup bundleIdx).getD [] ++ [entry.data])) ∅

def missingPrevious : Fault Error := .err (.internal "missing previous entry bundle")

def incorrectPrevious : Fault Error := .err (.internal "incorrect previous entry bundle length")

/-- The entries of a bundle before this batch. -/
def previousBundle (bundleIdx existingPartial : ℕ) : Server H EntryBundle :=
  if 0 < existingPartial then do
    let some bundle ← TileStorage.readEntryBundle bundleIdx existingPartial
      | .fail missingPrevious
    if bundle.entries.length ≠ existingPartial then .fail incorrectPrevious else .pure bundle
  else .pure ⟨[]⟩

def writeBundles (fromSize toSize : ℕ) : List (Σ _ : ℕ, List Bytes) → Server H Unit
  | [] => .pure ()
  | ⟨bundleIdx, entries⟩ :: bundles => do
    let part := partialTileSize 0 bundleIdx toSize
    -- Preserve the old prefix even when this batch completes the bundle.
    let existingPartial := if bundleIdx = fromSize / tileWidth then fromSize % tileWidth else 0
    let bundle ← previousBundle bundleIdx existingPartial
    TileStorage.writeEntryBundle bundleIdx part ⟨bundle.entries ++ entries⟩
    writeBundles fromSize toSize bundles

variable [Sha256Hash H]

def writeEntryBundles (order : MapOrder H) (pending : List (PendingEntry H)) (fromSize toSize : ℕ) :
    Server H Unit :=
  writeBundles fromSize toSize (order.bundles.order (groupBundles pending).entries)

omit [Sha256Hash H] in
def indexEntries : List (PendingEntry H) → Server H Unit
  | [] => .pure ()
  | entry :: pending => do
    perform (.indexEntry entry.index entry.data)
    indexEntries pending

omit [Sha256Hash H] in
/-- Index a batch and flush, if there is an index. -/
def updateIndex (vindex : Bool) (pending : List (PendingEntry H)) : Server H Unit :=
  if vindex then do
    indexEntries pending
    perform .flushIndex
  else .pure ()

/-- The cycle after it has found pending entries. -/
def integrateBatch (order : MapOrder H) (vindex : Bool) (fromSize : ℕ)
    (pending : List (PendingEntry H)) :
    Server H Unit := do
  let result ←
      (integrate order fromSize (pending.map fun e => e.leafHash)).translate TileStorage.reader
  writeTiles result.newSize (order.tiles.order result.tiles.entries)
  writeEntryBundles order pending fromSize result.newSize
  updateIndex vindex pending
  let marked ← perform (.markIntegratedIfCurrent fromSize result.newSize result.rootHash)
  if marked ∧ vindex then perform .maybeSnapshot else .pure ()

def runIntegrationCycle (order : MapOrder H) (batchSize : ℕ) (vindex : Bool) : Server H Unit := do
  let state ← perform .getLogState
  let pendingCount ← Prog.ofExcept state.pendingCount
  if pendingCount = 0 then .pure ()
  else do
    let pending ← perform (.getPendingEntries state.integratedSize batchSize)
    if pending = [] then .pure ()
    else do
      Prog.ofExcept (checkContiguous state.integratedSize pending)
      integrateBatch order vindex state.integratedSize pending

end Siglog.Worker

import Siglog.Storage.Server
import Siglog.Concurrent.Buffered
import Siglog.Text.Hex

/-! The offline import of a whole log. Entries are read in chunks; the tiles and bundles
of a chunk are uploaded, many at a time, and only after the last chunk is the log state
set. An object that is already there is never replaced: a resumed import compares it. -/

namespace Siglog.Import

open Concurrent (Prog Schedule)
open Api (Path checkpointPath tilePath entriesPath partialTileSize)
open Merkle (HashTile EntryBundle MapOrder ReadTile TileKey integrate)
open Storage (Database Mode)
open Text (Str)

def manifestPath : Path := "import-manifest.json".toList

def maxEntrySize : ℕ := 65535

/-! ### The fingerprint of the input -/

structure InputSummary where
  entries : ℕ
  sha256 : Str
  deriving DecidableEq

/-- What has been hashed, with one more entry behind its length. -/
def fingerprintEntry (digest data : Bytes) : Except (Fault Error) Bytes :=
  if data = [] ∨ maxEntrySize < data.length then
    .error (.err (.invalidEntry s!"entry size must be 1..={maxEntrySize}, got {data.length}"))
  else .ok (digest ++ u64BeBytes data.length ++ data)

def fingerprintEntries : Bytes → List Bytes → Except (Fault Error) Bytes
  | digest, [] => .ok digest
  | digest, data :: rest => do
    let digest ← fingerprintEntry digest data
    fingerprintEntries digest rest

/-- The loop of `scan`. -/
def scanEntries : Bytes → ℕ → List (Except Error Bytes) → Except (Fault Error) (Bytes × ℕ)
  | digest, count, [] => .ok (digest, count)
  | _, _, .error e :: _ => .error (.err e)
  | digest, count, .ok data :: entries => do
    let digest ← fingerprintEntry digest data
    if 2 ^ 64 ≤ count + 1 then .error (.err (.invalidEntry "too many entries"))
    else scanEntries digest (count + 1) entries

def InputSummary.scan [Sha256] (entries : List (Except Error Bytes)) :
    Except (Fault Error) InputSummary := do
  let (hashed, count) ← scanEntries [] 0 entries
  if count = 0 ∨ i64Max < count then
    .error (.err (.invalidEntry "input must contain 1..=i64::MAX entries"))
  else .ok ⟨count, Text.Hex.encode (digest hashed).1⟩

structure ImportConfig where
  chunkSize : ℕ
  uploadConcurrency : ℕ
  resume : Bool

structure ImportSummary (H : Type) where
  treeSize : ℕ
  rootHash : H
  objectsWritten : ℕ
  objectsVerified : ℕ

/-- How the manifest, which names the input and the chunk size, is written. -/
class ManifestJson where
  toVec : InputSummary → ℕ → Except String Bytes

/-- A manifest can be written. -/
class LawfulManifestJson [ManifestJson] : Prop where
  toVec_ok : ∀ input chunkSize, ∃ data, ManifestJson.toVec input chunkSize = .ok data

/-! ### Operations -/

inductive ImportOp (H : Type) where
  | readObject (path : Path)
  | writeObject (path : Path) (data : Bytes)
  | ensureMode (mode : Mode)
  | beginImport
  | syncImport
  | finishImport (size : ℕ) (root : H)

abbrev ImportOp.Result (H : Type) : ImportOp H → Type
  | .readObject _ => Option Bytes
  | .writeObject _ _ => Unit
  | .ensureMode _ => Unit
  | .beginImport => Unit
  | .syncImport => Unit
  | .finishImport _ _ => Unit

abbrev ImportOp.Answer (H : Type) (o : ImportOp H) : Type :=
  Except (Fault Error) (ImportOp.Result H o)

abbrev Importer (H α : Type) := Prog (ImportOp H) (ImportOp.Answer H) (Fault Error) α

variable {H : Type}

def perform (o : ImportOp H) : Importer H (ImportOp.Result H o) := (Prog.call o).bind Prog.ofExcept

/-- Reading a tile reads an object and does nothing else. -/
def readOnly : (o : Storage.Op H) → Importer H (o.Answer H)
  | .readObject path => Prog.call (ImportOp.readObject path)
  | _ => .fail .panic

/-- Tiles that are in the storage. -/
def reader [Sha256Hash H] (o : ReadTile) : Importer H (o.Answer H) :=
  (Storage.TileStorage.reader o).translate readOnly

def refused (path : Path) : Fault Error :=
  .err (.config
    ("import object already exists or differs: " ++ String.ofList path ++
      "; refusing to overwrite"))

/-- Write a new object, or verify an identical one when resuming. -/
def writeImportObject (path : Path) (data : Bytes) (resume : Bool) : Importer H Bool := do
  match ← perform (.readObject path) with
  | some existing => if resume ∧ existing = data then .pure false else .fail (refused path)
  | none => do
    perform (.writeObject path data)
    .pure true

/-! ### Chunks -/

/-- `take(n).collect()`: up to so many entries and what is left, or the first error. -/
def collectChunk :
    ℕ → List (Except Error Bytes) → Except Error (List Bytes × List (Except Error Bytes))
  | 0, entries => .ok ([], entries)
  | _ + 1, [] => .ok ([], [])
  | _ + 1, .error e :: _ => .error e
  | n + 1, .ok data :: entries => do
    let (chunk, rest) ← collectChunk n entries
    .ok (data :: chunk, rest)

theorem length_collectChunk {n : ℕ} {entries rest : List (Except Error Bytes)} {chunk : List Bytes}
    (h : collectChunk n entries = .ok (chunk, rest)) :
    rest.length + chunk.length = entries.length := by
  induction n, entries using collectChunk.induct generalizing chunk with
  | case1 entries =>
    obtain ⟨rfl, rfl⟩ := Prod.mk.inj (Except.ok.inj h)
    rfl
  | case2 n =>
    obtain ⟨rfl, rfl⟩ := Prod.mk.inj (Except.ok.inj h)
    rfl
  | case3 n e entries => cases h
  | case4 n data entries ih =>
    rw [collectChunk] at h
    cases hrest : collectChunk n entries with
    | error e => simp [hrest, bind, Except.bind] at h
    | ok r =>
      simp only [hrest, bind, Except.bind, Except.ok.injEq, Prod.mk.injEq] at h
      obtain ⟨rfl, rfl⟩ := h
      have := ih hrest
      simp only [List.length_cons]
      omega

/-- `chunks(256).enumerate()`. -/
def chunks256 (chunk : List Bytes) : List (ℕ × List Bytes) :=
  (List.range ((chunk.length + 255) / 256)).map fun offset =>
    (offset, (chunk.drop (256 * offset)).take 256)

def bundleObjects (size newSize : ℕ) :
    List (ℕ × List Bytes) → Except (Fault Error) (List (Path × Bytes))
  | [] => .ok []
  | (offset, data) :: bundles => do
    let index := size / 256 + offset
    let part := partialTileSize 0 index newSize
    let bytes ← EntryBundle.toBytes ⟨data⟩
    .ok ((entriesPath index part, bytes) :: (← bundleObjects size newSize bundles))

/-- The variables of the loop over the chunks. -/
structure Progress (H : Type) where
  hashed : Bytes
  size : ℕ
  root : Option H
  written : ℕ
  verified : ℕ

section

variable [Sha256Hash H]

def tileObjects (newSize : ℕ) (tiles : List (Σ _ : TileKey, HashTile H)) : List (Path × Bytes) :=
  tiles.map fun e =>
    (tilePath e.1.level e.1.index (partialTileSize e.1.level e.1.index newSize), e.2.toBytes)

/-- One round of the loop. -/
def importChunk (order : MapOrder H) (schedule : Schedule) (input : InputSummary)
    (config : ImportConfig) (chunk : List Bytes) (p : Progress H) : Importer H (Progress H) := do
  let left ← Prog.ofExcept (checkedSub input.entries p.size)
  if left < chunk.length then
    .fail (.err (.invalidEntry "input changed after preflight (extra entries)"))
  else do
    let hashed ← Prog.ofExcept (fingerprintEntries p.hashed chunk)
    let result ← (integrate order p.size (chunk.map hashLeaf)).translate reader
    let bundles ← Prog.ofExcept (bundleObjects p.size result.newSize (chunks256 chunk))
    let objects := tileObjects result.newSize (order.tiles.order result.tiles.entries) ++ bundles
    let wrote ← Prog.bufferUnordered schedule
        (fun object => writeImportObject object.1 object.2 config.resume)
      config.uploadConcurrency objects
    .pure ⟨hashed, result.newSize, some result.rootHash, p.written + wrote.count true,
      p.verified + wrote.count false⟩

/-- The loop. The iteration orders and the schedule of the uploads may differ from chunk to
chunk. -/
def importChunks (orders : ℕ → MapOrder H × Schedule) (input : InputSummary) (config : ImportConfig)
    (entries : List (Except Error Bytes)) (p : Progress H) : Importer H (Progress H) :=
  match _h : collectChunk config.chunkSize entries with
  | .error e => .fail (.err e)
  | .ok ([], _) => .pure p
  | .ok (data :: chunk, rest) => do
    let p ← importChunk (orders p.size).1 (orders p.size).2 input config (data :: chunk) p
    importChunks orders input config rest p
termination_by entries.length
decreasing_by
  have := length_collectChunk _h
  rw [List.length_cons] at this
  omega

section

variable {orders : ℕ → MapOrder H × Schedule} {input : InputSummary} {config : ImportConfig}
  {entries rest : List (Except Error Bytes)} {p : Progress H}

theorem importChunks_error {e : Error} (h : collectChunk config.chunkSize entries = .error e) :
    importChunks orders input config entries p = .fail (.err e) := by
  rw [importChunks]
  split <;> simp_all

theorem importChunks_nil (h : collectChunk config.chunkSize entries = .ok ([], rest)) :
    importChunks orders input config entries p = .pure p := by
  rw [importChunks]
  split <;> simp_all

theorem importChunks_cons {chunk : List Bytes} (hchunk : chunk ≠ [])
    (h : collectChunk config.chunkSize entries = .ok (chunk, rest)) :
    importChunks orders input config entries p =
      (importChunk (orders p.size).1 (orders p.size).2 input config chunk p).bind
        (importChunks orders input config rest) := by
  rw [importChunks]
  split <;> simp_all

end

/-- After the loop: check the input once more and commit. -/
def commitImport [Sha256] (input : InputSummary) (p : Progress H) : Importer H (ImportSummary H) :=
  if p.size ≠ input.entries ∨ Text.Hex.encode (digest p.hashed).1 ≠ input.sha256 then
    .fail (.err (.invalidEntry "input changed after preflight; database not committed"))
  else
    match p.root with
    | none => .fail (.err (.invalidEntry "empty input"))
    | some rootHash => do
      perform .syncImport
      perform (.finishImport p.size rootHash)
      .pure ⟨p.size, rootHash, p.written, p.verified⟩

/-- The manifest is there already if the import is to be resumed. -/
def canStart (resume : Bool) : Importer H Bool :=
  if resume then do
    let manifest ← perform (.readObject manifestPath)
    .pure manifest.isSome
  else .pure true

def ImportConfig.valid (config : ImportConfig) : Prop :=
  ¬ (config.chunkSize = 0 ∨ 65536 < config.chunkSize ∨ config.chunkSize % 256 ≠ 0 ∨
    config.uploadConcurrency = 0 ∨
    256 < config.uploadConcurrency)

instance (config : ImportConfig) : Decidable config.valid := inferInstanceAs (Decidable (¬ _))

/-- Import into an empty database and a storage namespace of its own. -/
def bulkImport [Sha256] [ManifestJson] (orders : ℕ → MapOrder H × Schedule) (input : InputSummary)
    (config : ImportConfig) (entries : List (Except Error Bytes)) : Importer H (ImportSummary H) :=
  if ¬ config.valid then
    .fail (.err (.config
      "chunk size must be a multiple of 256 in 256..=65536; concurrency must be 1..=256"))
  else if input.entries = 0 ∨ i64Max < input.entries then
    .fail (.err (.invalidEntry "invalid input entry count"))
  else do
    perform (.ensureMode .tessera)
    perform .beginImport
    let published ← perform (.readObject checkpointPath)
    if published.isSome then
      .fail (.err (.config "storage has a published checkpoint; use a fresh log namespace"))
    else do
      let manifest ← Prog.ofExcept
          ((ManifestJson.toVec input config.chunkSize).mapError fun e => .err (.config e))
      let start ← canStart config.resume
      if ¬ start then .fail (.err (.config "no import manifest to resume"))
      else do
        let _ ← writeImportObject manifestPath manifest config.resume
        let p ← importChunks orders input config entries ⟨[], 0, none, 0, 0⟩
        commitImport input p

end

end Siglog.Import

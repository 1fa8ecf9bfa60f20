import Siglog.Storage.Database
import Siglog.Merkle.Integrate

/-! The operations of the server on what it shares with other processes: the
object store, the database and the verifiable index. Programs over them are the
workers. -/

namespace Siglog.Storage

open Concurrent (Prog)
open Api (Path)
open Merkle (HashTile EntryBundle ReadTile TileReader)

inductive Op (H : Type) where
  | readObject (path : Path)
  | writeObject (path : Path) (data : Bytes)
  | getLogState
  | getPendingEntries (fromIndex limit : ℕ)
  | markIntegratedIfCurrent (expectedCurrentSize newSize : ℕ) (rootHash : H)
  | indexEntry (index : ℕ) (data : Bytes)
  | flushIndex
  | maybeSnapshot

abbrev Op.Result (H : Type) : Op H → Type
  | .readObject _ => Option Bytes
  | .writeObject _ _ => Unit
  | .getLogState => LogState H
  | .getPendingEntries _ _ => List (PendingEntry H)
  | .markIntegratedIfCurrent _ _ _ => Bool
  | .indexEntry _ _ => Unit
  | .flushIndex => Unit
  | .maybeSnapshot => Unit

abbrev Op.Answer (H : Type) (o : Op H) : Type := Except (Fault Error) (Op.Result H o)

/-- A program of the server. -/
abbrev Server (H α : Type) := Prog (Op H) (Op.Answer H) (Fault Error) α

variable {H : Type}

/-- Perform an operation and pass its error on. -/
def perform (o : Op H) : Server H (Op.Result H o) := (Prog.call o).bind Prog.ofExcept

namespace TileStorage

open Api (tilePath entriesPath)

section

variable [Sha256Hash H]

def readTile (level index part : ℕ) : Server H (Option (HashTile H)) := do
  match ← perform (.readObject (tilePath level index part)) with
  | none => .pure none
  | some data => do
    let tile ← Prog.ofExcept (HashTile.fromBytes data)
    .pure (some tile)

def writeTile (level index part : ℕ) (tile : HashTile H) : Server H Unit :=
  perform (.writeObject (tilePath level index part) tile.toBytes)

/-- The log's own storage as a source of tiles. -/
def reader : (o : ReadTile) → Server H (o.Answer H)
  | ⟨level, index, part⟩ => readTile level index part

end

def readEntryBundle (index part : ℕ) : Server H (Option EntryBundle) := do
  match ← perform (.readObject (entriesPath index part)) with
  | none => .pure none
  | some data => do
    let bundle ← Prog.ofExcept (EntryBundle.fromBytes data)
    .pure (some bundle)

def writeEntryBundle (index part : ℕ) (bundle : EntryBundle) : Server H Unit := do
  let data ← Prog.ofExcept bundle.toBytes
  perform (.writeObject (entriesPath index part) data)

end TileStorage

end Siglog.Storage

import Siglog.Monitor.Index
import Siglog.Monitor.Request
import Siglog.Storage.Database
import Siglog.Text.Hex

/-! The Conda monitor. It keeps two indices: the SHA-256 strings of all packages, and their
filenames with the SHA-256 string that belongs to each. The rows of both are a function of
the entries of the log. -/

namespace Siglog.Monitor

open Storage (asI64 asU64)
open Text (Str utf8)

/-- Minimal Conda package entry for validation. -/
structure CondaEntry where
  sha256 : Str
  filename : Str
  deriving DecidableEq

/-- The JSON parser on an entry, with its error text. -/
class EntryJson where
  fromSlice : Bytes → Except String CondaEntry

/-- SHA-256 as a stream: what it returns for the bytes it has been given. -/
class Hasher where
  finalize : Bytes → Bytes

section

variable [EntryJson] [Hasher]

/-- Hash a key using SHA256 and return as hex string. -/
def hashKey (key : Str) : Str := Text.Hex.encode (Hasher.finalize (utf8 key))

def parseEntry (data : Bytes) : Except ValidationError CondaEntry :=
  (EntryJson.fromSlice data).mapError fun e => .parseError ("invalid JSON: " ++ e)

end

/-- The two indices. -/
inductive CondaIndex where
  | sha256
  | filename
  deriving DecidableEq

namespace CondaIndex

def name : CondaIndex → Str
  | .sha256 => "conda_sha256".toList
  | .filename => "conda_filename".toList

theorem name_injective : Function.Injective name := by
  intro a b h
  cases a <;> cases b <;> first | rfl | exact absurd h (by decide)

/-- The key under which an entry is found. -/
def key [Hasher] : CondaIndex → CondaEntry → Str
  | .sha256, entry => hashKey entry.sha256
  | .filename, entry => hashKey entry.filename

/-- The value that is stored with the key. -/
def value : CondaIndex → CondaEntry → Option Str
  | .sha256, _ => none
  | .filename, entry => some entry.sha256

end CondaIndex

structure CondaMonitor where
  sha256Index : ContentIndex
  filenameIndex : ContentIndex

namespace CondaMonitor

def new : CondaMonitor := ⟨.new CondaIndex.sha256.name, .new CondaIndex.filename.name⟩

def get (monitor : CondaMonitor) : CondaIndex → ContentIndex
  | .sha256 => monitor.sha256Index
  | .filename => monitor.filenameIndex

def set (monitor : CondaMonitor) (which : CondaIndex) (idx : ContentIndex) : CondaMonitor :=
  match which with
  | .sha256 => { monitor with sha256Index := idx }
  | .filename => { monitor with filenameIndex := idx }

@[simp] theorem get_set_self (monitor : CondaMonitor) (which : CondaIndex) (idx : ContentIndex) :
    (monitor.set which idx).get which = idx := by cases which <;> rfl

@[simp] theorem set_get (monitor : CondaMonitor) (which : CondaIndex) :
    monitor.set which (monitor.get which) = monitor := by
  cases which <;> rfl

theorem get_set_ne (monitor : CondaMonitor) {which other : CondaIndex} (h : other ≠ which)
    (idx : ContentIndex) :
    (monitor.set which idx).get other = monitor.get other := by
  cases which <;> cases other <;> first | rfl | exact absurd rfl h

end CondaMonitor

/-! ### The log -/

/-- A row of `content_index`. -/
structure ContentRow where
  indexName : Str
  origin : Str
  key : Str
  firstIndex : ℤ
  value : Option Str
  deriving DecidableEq

variable [EntryJson] [Hasher]

/-- Entries that all parse, without a repeated SHA-256 and with one SHA-256 for each filename. -/
structure CondaLog (log : List Bytes) (entries : List CondaEntry) : Prop where
  parses : log.map parseEntry = entries.map .ok
  sha256 : (entries.map CondaEntry.sha256).Nodup
  filename : ∀ a ∈ entries, ∀ b ∈ entries, a.filename = b.filename → a.sha256 = b.sha256

omit [EntryJson] in
/-- What is pending in an index for entries whose log indices start from `start`. -/
def CondaIndex.pending (which : CondaIndex) (start : ℕ) (entries : List CondaEntry) :
    List PendingEntry :=
  (entries.zipIdx start).map fun e => ⟨which.key e.1, e.2, which.value e.1⟩

/-- The row that is saved for a pending entry. -/
def PendingEntry.row (entry : PendingEntry) (which : CondaIndex) (origin : Str) : ContentRow :=
  ⟨which.name, origin, entry.key, asI64 entry.index, entry.value⟩

omit [EntryJson] in
/-- The rows of one index. -/
def CondaIndex.rows (which : CondaIndex) (origin : Str) (start : ℕ) (entries : List CondaEntry) :
    List ContentRow :=
  (which.pending start entries).map fun entry => entry.row which origin

/-- All rows of a log. -/
def contentRows (origin : Str) (entries : List CondaEntry) : List ContentRow :=
  CondaIndex.sha256.rows origin 0 entries ++ CondaIndex.filename.rows origin 0 entries

/-! ### Rows -/

namespace CondaIndex

omit [EntryJson]

variable {which : CondaIndex} {origin : Str} {start : ℕ} {entries : List CondaEntry}

theorem pending_append (more : List CondaEntry) : which.pending start (entries ++ more) =
    which.pending start entries ++ which.pending (start + entries.length) more := by
  simp [pending, List.zipIdx_append]

theorem rows_append (more : List CondaEntry) : which.rows origin start (entries ++ more) =
    which.rows origin start entries ++ which.rows origin (start + entries.length) more := by
  simp [rows, pending_append]

theorem mem_pending {e : PendingEntry} : e ∈ which.pending start entries ↔
    ∃ i entry, entries[i]? = some entry ∧ e = ⟨which.key entry, start + i, which.value entry⟩ := by
  simp only [pending, List.mem_map, Prod.exists, List.mem_zipIdx_iff_le_and_getElem?_sub]
  constructor
  · rintro ⟨entry, i, ⟨hle, hi⟩, rfl⟩
    exact ⟨i - start, entry, hi, by simp [hle]⟩
  · rintro ⟨i, entry, hi, rfl⟩
    exact ⟨entry, start + i, ⟨by omega, by simpa using hi⟩, rfl⟩

theorem map_key_pending :
    (which.pending start entries).map PendingEntry.key = entries.map which.key := by
  have hfst := congrArg (List.map which.key) (List.zipIdx_map_fst start entries)
  rw [pending, List.map_map, ← hfst, List.map_map]
  rfl

theorem map_key_rows :
    (which.rows origin start entries).map ContentRow.key = entries.map which.key := by
  rw [rows, List.map_map, ← @map_key_pending _ _ start]
  rfl

theorem indexName_of_mem {row : ContentRow} (h : row ∈ which.rows origin start entries) :
    row.indexName = which.name := by
  obtain ⟨entry, -, rfl⟩ := List.mem_map.mp h
  rfl

/-- The rows with the name of an index are the rows of the index. -/
theorem filter_rows (other : CondaIndex) :
    (which.rows origin start entries).filter (fun row => row.indexName = other.name) =
      if which = other then which.rows origin start entries else [] := by
  split_ifs with h
  · rw [List.filter_eq_self]
    intro row hrow
    simp [indexName_of_mem hrow, h]
  · rw [List.filter_eq_nil_iff]
    intro row hrow
    simpa [indexName_of_mem hrow] using fun heq => h (name_injective heq)

end CondaIndex

omit [EntryJson] in
theorem filter_contentRows (which : CondaIndex) (origin : Str) (entries : List CondaEntry) :
    (contentRows origin entries).filter (fun row => row.indexName = which.name) =
      which.rows origin 0 entries := by
  rw [contentRows, List.filter_append, CondaIndex.filter_rows, CondaIndex.filter_rows]
  cases which
  · simp
  · simp

end Siglog.Monitor

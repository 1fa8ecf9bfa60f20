import Siglog.Reader
import Siglog.Slice
import Siglog.Text.Hex
import Siglog.Vindex.VerifiableIndex

/-! The write-ahead log of the index: the two writers, the reader of both record formats,
and the recovery that cuts off a torn tail and what is ahead of the database. Writes to
the file succeed here. -/

namespace Siglog

/-- CRC-32 of bytes that are given piece by piece. -/
class Crc32 where
  Hasher : Type
  new : Hasher
  update : Hasher → Bytes → Hasher
  finalize : Hasher → UInt32
  update_update : ∀ h a b, update (update h a) b = update h (a ++ b)

namespace Crc32

variable [Crc32]

/-- CRC-32 of bytes that are given at once. -/
def hash (b : Bytes) : UInt32 := finalize (update new b)

theorem update_pieces {α : Type} (f : α → Bytes) (h : Hasher) (b : Bytes) (pieces : List α) :
    pieces.foldl (fun h x => update h (f x)) (update h b) = update h (b ++ pieces.flatMap f) := by
  induction pieces generalizing b with
  | nil => simp
  | cons x pieces ih =>
    rw [List.foldl_cons, update_update, ih, List.flatMap_cons, List.append_assoc]

end Crc32

end Siglog

namespace Siglog.Vindex

/-- Legacy binary WAL format version (no checksum, read-only support). -/
def walVersionBinary : UInt8 := 2

/-- Checksummed binary WAL format version (current write format). -/
def walVersionCrc : UInt8 := 3

variable [Crc32]

/-- Serialize a single WAL entry in v3 (checksummed) format. -/
def encodeEntry (buf : Bytes) (idx : ℕ) (keys : List IndexKey) : Bytes :=
  let start := buf.length
  let buf := buf ++ [walVersionCrc]
  let buf := buf ++ u64BeBytes idx
  let buf := buf ++ [UInt8.ofNat keys.length]
  let buf := keys.foldl (fun buf key => buf ++ key.val) buf
  let crc := Crc32.hash (buf.drop start)
  buf ++ u32LeBytes crc.toNat

/-- An entry with more keys than its count can say. -/
def tooManyKeys (idx : ℕ) (keys : List IndexKey) : Error :=
  .invalidEntry s!"too many WAL keys for entry {idx}: {keys.length} (max 255)"

/-! ### Writers -/

structure BinaryWalWriter where
  file : Bytes
  deriving DecidableEq

/-- Append an entry to the WAL in binary format. -/
def BinaryWalWriter.append (w : BinaryWalWriter) (idx : ℕ) (keys : List IndexKey) :
    Except Error BinaryWalWriter :=
  if 255 < keys.length then .error (tooManyKeys idx keys)
  else
    let buf := encodeEntry [] idx keys
    .ok { w with file := w.file ++ buf }

structure BatchedBinaryWalWriter where
  buffer : List (ℕ × List IndexKey)
  batchSize : ℕ
  file : Bytes
  deriving DecidableEq

namespace BatchedBinaryWalWriter

/-- Write the current batch and clear it. -/
def flushBatch (w : BatchedBinaryWalWriter) : BatchedBinaryWalWriter :=
  if w.buffer = [] then w
  else
    let buf := w.buffer.foldl (fun buf (idx, keys) => encodeEntry buf idx keys) []
    { w with file := w.file ++ buf, buffer := [] }

/-- Append an entry to the buffer. -/
def append (w : BatchedBinaryWalWriter) (idx : ℕ) (keys : List IndexKey) :
    Except Error BatchedBinaryWalWriter :=
  if 255 < keys.length then .error (tooManyKeys idx keys)
  else
    let w := { w with buffer := w.buffer ++ [(idx, keys)] }
    .ok (if w.batchSize ≤ w.buffer.length then w.flushBatch else w)

/-- Flush all buffered entries. -/
def flush (w : BatchedBinaryWalWriter) : BatchedBinaryWalWriter :=
  if w.buffer ≠ [] then w.flushBatch else w

end BatchedBinaryWalWriter

/-! ### The reader -/

/-- The part of the file that has not been read, and the offset just past the last entry
that was returned. -/
structure WalReader where
  reader : Bytes
  validPos : ℕ
  deriving DecidableEq

/-- A field that the file ends in. -/
def shortRead (field : String) : Error :=
  .internal s!"failed to read {field} from WAL: failed to fill whole buffer"

/-- Read keys (32 bytes each). -/
def readKeys : ℕ → Reader UInt8 Error (List IndexKey)
  | 0 => pure []
  | keyCount + 1 => do
    let key ← Reader.readExact 32 (shortRead "key")
    let keys ← readKeys keyCount
    pure (key :: keys)

/-- An entry behind its version byte, and the size of its record. -/
def readEntry (version : UInt8) : Reader UInt8 Error ((ℕ × List IndexKey) × ℕ) :=
  if version ≠ walVersionBinary ∧ version ≠ walVersionCrc then
    throw (.internal
      ("invalid WAL version: expected 0x02 or 0x03, got 0x" ++
        String.ofList (Text.Hex.encode [version])))
  else do
    let idxBytes ← Reader.readExact 8 (shortRead "index")
    let idx := beNat idxBytes.val
    let countByte ← Reader.readExact 1 (shortRead "key count")
    let keyCount := beNat countByte.val
    let keys ← readKeys keyCount
    let entrySize := 1 + 8 + 1 + keyCount * 32
    if version = walVersionCrc then do
      let crcBytes ← Reader.readExact 4 (shortRead "checksum")
      let hasher :=
        Crc32.update (Crc32.update (Crc32.update Crc32.new [version]) idxBytes.val) countByte.val
      let hasher := keys.foldl (fun hasher key => Crc32.update hasher key.val) hasher
      if (Crc32.finalize hasher).toNat ≠ leNat crcBytes.val then
        throw (.internal s!"WAL checksum mismatch for entry {idx}")
      else pure ((idx, keys), entrySize + 4)
    else pure ((idx, keys), entrySize)

/-- Read the next entry from the WAL. -/
def WalReader.nextEntry (r : WalReader) : Except Error (Option (ℕ × List IndexKey)) × WalReader :=
  match r.reader with
  | [] => (.ok none, r)
  | version :: rest =>
    match (readEntry version).on rest with
    | (.ok (entry, entrySize), rest) => (.ok (some entry), ⟨rest, r.validPos + entrySize⟩)
    | (.error e, rest) => (.error e, ⟨rest, r.validPos⟩)

/-! ### Records -/

/-- An index and keys that a record has room for. -/
structure WalEntry where
  idx : ℕ
  keys : List IndexKey
  idx_lt : idx < 2 ^ 64
  keys_le : keys.length ≤ 255

/-- What follows the version byte, up to the checksum. -/
def WalEntry.body (e : WalEntry) : Bytes :=
  u64BeBytes e.idx ++ ([UInt8.ofNat e.keys.length] ++ e.keys.flatMap fun key => key.val)

/-- A record in one of the two formats. -/
inductive WalRecord where
  | legacy (e : WalEntry)
  | checked (e : WalEntry)

namespace WalRecord

def entry : WalRecord → WalEntry
  | .legacy e => e
  | .checked e => e

def idx (r : WalRecord) : ℕ := r.entry.idx

/-- What the reader returns for a record. -/
def value (r : WalRecord) : ℕ × List IndexKey := (r.entry.idx, r.entry.keys)

def bytes : WalRecord → Bytes
  | .legacy e => walVersionBinary :: e.body
  | .checked e =>
    walVersionCrc :: (e.body ++ u32LeBytes (Crc32.hash (walVersionCrc :: e.body)).toNat)

/-- The contents of a file. -/
def file (records : List WalRecord) : Bytes := records.flatMap bytes

theorem file_cons (r : WalRecord) (records : List WalRecord) :
    file (r :: records) = r.bytes ++ file records := rfl

end WalRecord

/-! ### What the writers write -/

theorem encodeEntry_eq (buf : Bytes) (e : WalEntry) :
    encodeEntry buf e.idx e.keys = buf ++ (WalRecord.checked e).bytes := by
  have hkeys : ∀ (keys : List IndexKey) (buf : Bytes),
      keys.foldl (fun buf key => buf ++ key.val) buf = buf ++ keys.flatMap fun key => key.val := by
    intro keys
    induction keys with
    | nil => simp
    | cons key keys ih => simp [ih]
  simp [encodeEntry, hkeys, WalRecord.bytes, WalEntry.body]

/-- Append entries to the WAL one after the other. -/
def BinaryWalWriter.appendAll (w : BinaryWalWriter) (entries : List WalEntry) :
    Except Error BinaryWalWriter :=
  entries.foldlM (fun w e => w.append e.idx e.keys) w

/-- Append entries to the buffer one after the other. -/
def BatchedBinaryWalWriter.appendAll (w : BatchedBinaryWalWriter) (entries : List WalEntry) :
    Except Error BatchedBinaryWalWriter :=
  entries.foldlM (fun w e => w.append e.idx e.keys) w

theorem BinaryWalWriter.appendAll_eq (w : BinaryWalWriter) (entries : List WalEntry) :
    w.appendAll entries = .ok ⟨w.file ++ WalRecord.file (entries.map .checked)⟩ := by
  unfold appendAll
  induction entries generalizing w with
  | nil => simp [WalRecord.file, pure, Except.pure]
  | cons e entries ih =>
    have happend : w.append e.idx e.keys = .ok ⟨w.file ++ (WalRecord.checked e).bytes⟩ := by
      rw [append, if_neg (by have := e.keys_le; omega), encodeEntry_eq, List.nil_append]
    rw [List.foldlM_cons, happend]
    refine (ih _).trans ?_
    simp [WalRecord.file]

namespace BatchedBinaryWalWriter

/-- The file with what is in the buffer. -/
def Wrote (w : BatchedBinaryWalWriter) (contents : Bytes) : Prop :=
  ∃ pending : List WalEntry, w.buffer = pending.map (fun e => (e.idx, e.keys)) ∧
    w.file ++ WalRecord.file (pending.map .checked) = contents

variable {w : BatchedBinaryWalWriter} {contents : Bytes}

theorem Wrote.flushBatch (h : w.Wrote contents) :
    w.flushBatch = { w with file := contents, buffer := [] } := by
  obtain ⟨pending, hbuffer, rfl⟩ := h
  have hbuf : ∀ (pending : List WalEntry) (buf : Bytes),
      (pending.map fun e => (e.idx, e.keys)).foldl (fun buf (idx, keys) => encodeEntry buf idx keys)
        buf =
        buf ++ WalRecord.file (pending.map .checked) := by
    intro pending
    induction pending with
    | nil => simp [WalRecord.file]
    | cons e pending ih => simp [ih, encodeEntry_eq, WalRecord.file]
  rw [BatchedBinaryWalWriter.flushBatch]
  split_ifs with hempty
  · obtain rfl : pending = [] := by simpa [hempty] using hbuffer.symm
    cases w
    simp_all [WalRecord.file]
  · rw [hbuffer, hbuf, List.nil_append]

theorem Wrote.append (h : w.Wrote contents) (e : WalEntry) :
    ∃ w', w.append e.idx e.keys = .ok w' ∧ w'.Wrote (contents ++ (WalRecord.checked e).bytes) ∧
      w'.batchSize = w.batchSize := by
  obtain ⟨pending, hbuffer, hcontents⟩ := h
  have hpushed : Wrote { w with buffer := w.buffer ++ [(e.idx, e.keys)] }
    (contents ++ (WalRecord.checked e).bytes) := by
    refine ⟨pending ++ [e], by simp [hbuffer], ?_⟩
    rw [← hcontents]
    simp [WalRecord.file]
  rw [BatchedBinaryWalWriter.append, if_neg (by have := e.keys_le; omega)]
  refine ⟨_, rfl, ?_⟩
  dsimp only
  split_ifs
  · rw [hpushed.flushBatch]
    exact ⟨⟨[], rfl, by simp [WalRecord.file]⟩, rfl⟩
  · exact ⟨hpushed, rfl⟩

theorem Wrote.appendAll (entries : List WalEntry) (h : w.Wrote contents) :
    ∃ w', w.appendAll entries = .ok w' ∧
      w'.Wrote (contents ++ WalRecord.file (entries.map .checked)) ∧
      w'.batchSize = w.batchSize := by
  unfold BatchedBinaryWalWriter.appendAll
  induction entries generalizing w contents with
  | nil => exact ⟨w, rfl, by simpa [WalRecord.file] using h, rfl⟩
  | cons e entries ih =>
    obtain ⟨w', happend, hwrote, hsize⟩ := h.append e
    obtain ⟨w'', hrest, hwrote', hsize'⟩ := ih hwrote
    refine ⟨w'', ?_, ?_, hsize'.trans hsize⟩
    · rw [List.foldlM_cons, happend]
      exact hrest
    · simpa [WalRecord.file] using hwrote'

theorem Wrote.flush (h : w.Wrote contents) :
    w.flush = { w with file := contents, buffer := [] } := by
  rw [BatchedBinaryWalWriter.flush]
  split_ifs with hempty
  · exact h.flushBatch
  · rw [← h.flushBatch, BatchedBinaryWalWriter.flushBatch, if_pos (not_not.mp hempty)]

end BatchedBinaryWalWriter

/-! ### What the reader reads -/

omit [Crc32] in
theorem local_readKeys (keyCount : ℕ) : (readKeys keyCount).Local := by
  induction keyCount with
  | zero => exact Reader.local_pure []
  | succ keyCount ih =>
    exact (Reader.local_readExact 32 _).bind fun key => ih.bind fun keys =>
      Reader.local_pure (key :: keys)

theorem local_readEntry (version : UInt8) : (readEntry version).Local := by
  unfold readEntry
  split_ifs
  · exact Reader.local_throw _
  · refine (Reader.local_readExact 8 _).bind fun idxBytes =>
      (Reader.local_readExact 1 _).bind fun countByte =>
      (local_readKeys _).bind fun keys => (Reader.local_readExact 4 _).bind fun crcBytes => ?_
    dsimp only
    split_ifs
    · exact Reader.local_throw _
    · exact Reader.local_pure _
  · exact (Reader.local_readExact 8 _).bind fun idxBytes =>
      (Reader.local_readExact 1 _).bind fun countByte =>
      (local_readKeys _).bind fun keys => Reader.local_pure _

omit [Crc32] in
theorem on_readKeys (keys : List IndexKey) (rest : Bytes) :
    (readKeys keys.length).on ((keys.flatMap fun key => key.val) ++ rest) = (.ok keys, rest) := by
  induction keys with
  | nil => rfl
  | cons key keys ih =>
    rw [List.length_cons, List.flatMap_cons, List.append_assoc, readKeys,
      Reader.on_bind_ok (Reader.on_readExact key _), Reader.on_bind_ok ih]
    rfl

omit [Crc32] in
theorem length_body (e : WalEntry) : e.body.length = 8 + 1 + e.keys.length * 32 := by
  have hkeys :
      ∀ keys : List IndexKey, (keys.flatMap fun key => key.val).length = keys.length * 32 := by
    intro keys
    induction keys with
    | nil => rfl
    | cons key keys ih =>
      rw [List.flatMap_cons, List.length_append, ih, key.property, List.length_cons]
      omega
  simp only [WalEntry.body, List.length_append, hkeys, length_u64BeBytes, List.length_singleton]
  omega

omit [Crc32] in
theorem beNat_count (e : WalEntry) : beNat [UInt8.ofNat e.keys.length] = e.keys.length := by
  have := e.keys_le
  simp only [beNat, List.foldl_cons, List.foldl_nil, UInt8.toNat_ofNat']
  omega

omit [Crc32] in
/-- Up to the keys, the two formats are read alike. -/
theorem on_body (e : WalEntry) (rest : Bytes) {α : Type}
    (f : { b : Bytes // b.length = 8 } → { b : Bytes // b.length = 1 } → List IndexKey →
      Reader UInt8 Error α) :
    Reader.on (Reader.readExact 8 (shortRead "index") >>= fun idxBytes =>
      Reader.readExact 1 (shortRead "key count") >>= fun countByte =>
        readKeys (beNat countByte.val) >>= f idxBytes countByte) (e.body ++ rest) =
      (f ⟨u64BeBytes e.idx, rfl⟩ ⟨[UInt8.ofNat e.keys.length], rfl⟩ e.keys).on rest := by
  rw [WalEntry.body, List.append_assoc, List.append_assoc,
    Reader.on_bind_ok
      (Reader.on_readExact (⟨u64BeBytes e.idx, rfl⟩ : { b : Bytes // b.length = 8 }) _),
    Reader.on_bind_ok
      (Reader.on_readExact (⟨[UInt8.ofNat e.keys.length], rfl⟩ : { b : Bytes // b.length = 1 }) _),
    beNat_count, Reader.on_bind_ok (on_readKeys e.keys rest)]

theorem on_readEntry_legacy (e : WalEntry) (rest : Bytes) :
    (readEntry walVersionBinary).on (e.body ++ rest) =
      (.ok ((e.idx, e.keys), 1 + e.body.length), rest) := by
  have hpass : ¬ (walVersionBinary ≠ walVersionBinary ∧ walVersionBinary ≠ walVersionCrc) := by
    decide
  rw [readEntry, if_neg hpass, on_body, if_neg (by decide), Reader.on_pure, length_body,
    beNat_u64BeBytes e.idx_lt, beNat_count]
  congr 3
  omega

theorem on_readEntry_checked (e : WalEntry) (rest : Bytes) :
    (readEntry walVersionCrc).on
      (e.body ++ u32LeBytes (Crc32.hash (walVersionCrc :: e.body)).toNat ++ rest) =
      (.ok ((e.idx, e.keys), 1 + e.body.length + 4), rest) := by
  have hpass : ¬ (walVersionCrc ≠ walVersionBinary ∧ walVersionCrc ≠ walVersionCrc) := by decide
  let crc := Crc32.hash (walVersionCrc :: e.body)
  have hread := Reader.on_readExact (e := shortRead "checksum")
    (⟨u32LeBytes crc.toNat, rfl⟩ : { b : Bytes // b.length = 4 }) rest
  have hcrc : leNat (u32LeBytes crc.toNat) = crc.toNat := leNat_u32LeBytes crc.toNat_lt
  rw [readEntry, if_neg hpass, List.append_assoc, on_body, if_pos rfl, Reader.on_bind_ok hread]
  -- the checksum is taken over the pieces that have been read
  have hpieces : e.keys.foldl (fun hasher key => Crc32.update hasher key.val)
      (Crc32.update (Crc32.update (Crc32.update
      Crc32.new [walVersionCrc]) (u64BeBytes e.idx)) [UInt8.ofNat e.keys.length]) =
      Crc32.update Crc32.new (walVersionCrc :: e.body) := by
    rw [Crc32.update_update, Crc32.update_update, Crc32.update_pieces]
    simp [WalEntry.body]
  have hsame : ¬ (Crc32.finalize (Crc32.update Crc32.new (walVersionCrc :: e.body))).toNat ≠
      crc.toNat := not_not.mpr rfl
  dsimp only
  rw [hpieces, hcrc, if_neg hsame, Reader.on_pure, length_body, beNat_u64BeBytes e.idx_lt,
    beNat_count]
  congr 3
  omega

/-- What is read of a record behind its version byte. -/
theorem on_readEntry (r : WalRecord) : ∃ version body, r.bytes = version :: body ∧
    ∀ rest, (readEntry version).on (body ++ rest) = (.ok (r.value, r.bytes.length), rest) := by
  cases r with
  | legacy e =>
    refine ⟨_, _, rfl, fun rest => ?_⟩
    rw [on_readEntry_legacy, WalRecord.bytes, List.length_cons, Nat.add_comm]
    rfl
  | checked e =>
    refine ⟨_, _, rfl, fun rest => ?_⟩
    rw [on_readEntry_checked, WalRecord.bytes, List.length_cons, List.length_append,
      length_u32LeBytes]
    congr 3
    omega

/-- The reader returns a record that is there and stands behind it. -/
theorem nextEntry_record (r : WalRecord) (rest : Bytes) (pos : ℕ) :
    WalReader.nextEntry ⟨r.bytes ++ rest, pos⟩ =
      (.ok (some r.value), ⟨rest, pos + r.bytes.length⟩) := by
  obtain ⟨version, body, hbytes, hread⟩ := on_readEntry r
  rw [hbytes] at hread ⊢
  simp only [List.cons_append, WalReader.nextEntry, hread]

/-- There is no entry here: the file ends, or what follows is not a record. -/
def WalReader.Stops (r : WalReader) : Prop :=
  r.nextEntry = (.ok none, r) ∨ ∃ e next, r.nextEntry = (.error e, next) ∧
  next.validPos = r.validPos

theorem stops_nil (pos : ℕ) : WalReader.Stops ⟨[], pos⟩ := .inl rfl

/-- The reader stops at a record that is cut off anywhere. -/
theorem stops_torn (r : WalRecord) {n : ℕ} (hn : n < r.bytes.length) (pos : ℕ) :
    WalReader.Stops ⟨r.bytes.take n, pos⟩ := by
  obtain ⟨version, body, hbytes, hread⟩ := on_readEntry r
  have hwhole := hread []
  rw [List.append_nil] at hwhole
  rw [hbytes] at hn ⊢
  cases n with
  | zero => exact stops_nil pos
  | succ n =>
    have hn' : n < body.length := by simpa using hn
    rw [List.take_succ_cons]
    cases hcut : (readEntry version).on (body.take n) with
    | mk result rest =>
      cases result with
      | ok entry => exact absurd hcut ((local_readEntry version).not_ok hwhole hn' entry rest)
      | error e => exact .inr ⟨e, ⟨rest, pos⟩, by simp only [WalReader.nextEntry, hcut], rfl⟩

/-- The entries that the reader returns one after the other, and where it stands after them. -/
inductive WalReader.Returns : WalReader → List (ℕ × List IndexKey) → WalReader → Prop
  | nil (r : WalReader) : Returns r [] r
  | cons {r next last : WalReader} {entry : ℕ × List IndexKey}
      {entries : List (ℕ × List IndexKey)} :
    r.nextEntry = (.ok (some entry), next) → Returns next entries last →
    Returns r (entry :: entries) last

theorem returns_file (records : List WalRecord) (rest : Bytes) (pos : ℕ) :
    WalReader.Returns ⟨WalRecord.file records ++ rest, pos⟩ (records.map WalRecord.value)
      ⟨rest, pos + (WalRecord.file records).length⟩ := by
  induction records generalizing pos with
  | nil => exact .nil _
  | cons r records ih =>
    rw [WalRecord.file_cons, List.append_assoc, List.length_append, ← Nat.add_assoc]
    exact .cons (nextEntry_record r _ pos) (ih _)

/-! ### Recovery -/

theorem nextEntry_shorter {r next : WalReader} {entry : ℕ × List IndexKey}
    (h : r.nextEntry = (.ok (some entry), next)) :
    next.reader.length < r.reader.length := by
  rw [WalReader.nextEntry] at h
  split at h
  · simp at h
  · rename_i version rest hreader
    cases hrun : (readEntry version).on rest with
    | mk result left =>
      rw [hrun] at h
      cases result with
      | error e => simp at h
      | ok read =>
        obtain ⟨used, hused, -⟩ := local_readEntry version hrun
        simp only [Prod.mk.injEq] at h
        rw [← h.2, hreader, hused, List.length_cons, List.length_append]
        dsimp only
        omega

/-- The loop of `validateAndTruncateWal`: the offset past the last entry within bounds and
the largest index. -/
def scanWal (expectedTreeSize : ℕ) (reader : WalReader) (lastValidPos : ℕ)
    (maxValidIdx : Option ℕ) : ℕ × Option ℕ :=
  match _h : reader.nextEntry with
  | (.ok (some (idxVal, _)), next) =>
    if idxVal < expectedTreeSize then
      scanWal expectedTreeSize next next.validPos
        (some (maxValidIdx.elim idxVal fun prev => max prev idxVal))
    else (lastValidPos, maxValidIdx)
  | (.ok none, _) => (lastValidPos, maxValidIdx)
  | (.error _, _) => (lastValidPos, maxValidIdx)
termination_by reader.reader.length
decreasing_by exact nextEntry_shorter _h

/-- Validate and truncate the binary WAL file to match the expected tree size. -/
def validateAndTruncateWal (file : Option Bytes) (expectedTreeSize : ℕ) : ℕ × Option Bytes :=
  match file with
  | none => (0, none)
  | some data =>
    let (lastValidPos, maxValidIdx) := scanWal expectedTreeSize ⟨data, 0⟩ 0 none
    let file := if lastValidPos < data.length then data.take lastValidPos else data
    ((maxValidIdx.map (· + 1)).getD 0, some file)

/-- The first records, as long as their index is below a size. -/
def recordsBelow (expectedTreeSize : ℕ) (records : List WalRecord) : List WalRecord :=
  records.takeWhile fun r => r.idx < expectedTreeSize

theorem scanWal_entry {r next : WalReader} {entry : ℕ × List IndexKey}
    (h : r.nextEntry = (.ok (some entry), next))
    (expectedTreeSize lastValidPos : ℕ) (maxValidIdx : Option ℕ) :
    scanWal expectedTreeSize r lastValidPos maxValidIdx =
      if entry.1 < expectedTreeSize then
        scanWal expectedTreeSize next next.validPos
          (some (maxValidIdx.elim entry.1 fun prev => max prev entry.1))
      else (lastValidPos, maxValidIdx) := by
  obtain ⟨idxVal, keys⟩ := entry
  rw [scanWal]
  split <;> simp_all

theorem scanWal_stops {r : WalReader} (h : r.Stops) (expectedTreeSize lastValidPos : ℕ)
    (maxValidIdx : Option ℕ) :
    scanWal expectedTreeSize r lastValidPos maxValidIdx = (lastValidPos, maxValidIdx) := by
  rw [scanWal]
  rcases h with h | ⟨e, next, h, -⟩ <;> split <;> simp_all

theorem scanWal_file (expectedTreeSize : ℕ) {rest : Bytes}
    (hstop : ∀ pos, WalReader.Stops ⟨rest, pos⟩)
    (records : List WalRecord) (pos : ℕ) (maxValidIdx : Option ℕ) :
    scanWal expectedTreeSize ⟨WalRecord.file records ++ rest, pos⟩ pos maxValidIdx =
      (pos + (WalRecord.file (recordsBelow expectedTreeSize records)).length,
        (recordsBelow expectedTreeSize records).foldl
          (fun m r => some (m.elim r.idx fun prev => max prev r.idx)) maxValidIdx) := by
  induction records generalizing pos maxValidIdx with
  | nil => exact scanWal_stops (hstop pos) _ _ _
  | cons r records ih =>
    have hnext := nextEntry_record r (WalRecord.file records ++ rest) pos
    rw [← List.append_assoc] at hnext
    refine (scanWal_entry hnext _ _ _).trans ?_
    by_cases hidx : r.value.1 < expectedTreeSize
    · have hkept :
          recordsBelow expectedTreeSize (r :: records) = r ::
            recordsBelow expectedTreeSize records :=
        List.takeWhile_cons_of_pos (decide_eq_true hidx)
      rw [if_pos hidx, ih, hkept, WalRecord.file_cons, List.length_append, ← Nat.add_assoc]
      rfl
    · have hkept : recordsBelow expectedTreeSize (r :: records) = [] :=
        List.takeWhile_cons_of_neg fun h => hidx (of_decide_eq_true h)
      rw [if_neg hidx, hkept]
      rfl

omit [Crc32] in
/-- The largest index of records in increasing order is the last one. -/
theorem foldl_max_eq {records : List WalRecord}
    (hsorted : records.Pairwise fun a b => a.idx < b.idx)
    {maxValidIdx : Option ℕ} (hmax : ∀ prev ∈ maxValidIdx, ∀ r ∈ records, prev < r.idx) :
    records.foldl (fun m r => some (m.elim r.idx fun prev => max prev r.idx)) maxValidIdx =
      (records.getLast?.map WalRecord.idx).or maxValidIdx := by
  induction records generalizing maxValidIdx with
  | nil => rfl
  | cons r records ih =>
    rw [List.pairwise_cons] at hsorted
    have hstep : (maxValidIdx.elim r.idx fun prev => max prev r.idx) = r.idx := by
      cases maxValidIdx with
      | none => rfl
      | some prev => exact max_eq_right (hmax prev rfl r List.mem_cons_self).le
    rw [List.foldl_cons, hstep, ih hsorted.2]
    · rcases List.eq_nil_or_concat records with rfl | ⟨front, last, rfl⟩
      · rfl
      · rw [List.concat_eq_append, ← List.cons_append, List.getLast?_concat, List.getLast?_concat]
        rfl
    · rintro prev hprev later hlater
      cases hprev
      exact hsorted.1 later hlater

/-- Records in increasing order, with something behind them that is not a record: those
below the expected size are kept. -/
theorem validateAndTruncateWal_file (expectedTreeSize : ℕ) {rest : Bytes}
    (hstop : ∀ pos, WalReader.Stops ⟨rest, pos⟩)
    {records : List WalRecord} (hsorted : records.Pairwise fun a b => a.idx < b.idx) :
    validateAndTruncateWal (some (WalRecord.file records ++ rest)) expectedTreeSize =
      (((recordsBelow expectedTreeSize records).getLast?.map (·.idx + 1)).getD 0,
        some (WalRecord.file (recordsBelow expectedTreeSize records))) := by
  have hkept : recordsBelow expectedTreeSize records <+: records := List.takeWhile_prefix _
  have hlast := @foldl_max_eq _ (hsorted.sublist hkept.sublist) none (by simp)
  have hscan := scanWal_file expectedTreeSize hstop records 0 none
  obtain ⟨dropped, hdropped⟩ := hkept
  have hfile : WalRecord.file records ++ rest =
      WalRecord.file (recordsBelow expectedTreeSize records) ++
        (WalRecord.file dropped ++ rest) := by
    rw [← List.append_assoc]
    congr 1
    conv_lhs => rw [← hdropped]
    simp [WalRecord.file]
  rw [validateAndTruncateWal, hscan, hlast, Nat.zero_add]
  dsimp only
  congr 1
  · cases (recordsBelow expectedTreeSize records).getLast? <;> rfl
  · congr 1
    split_ifs with hshort
    · rw [hfile, List.take_left' rfl]
    · rw [hfile] at hshort ⊢
      have hnil : WalRecord.file dropped ++ rest = [] := by
        apply List.eq_nil_of_length_eq_zero
        rw [@List.length_append _
          (WalRecord.file (recordsBelow expectedTreeSize records))] at hshort
        omega
      rw [hnil, List.append_nil]

/-- A file of records that is cut off anywhere. -/
theorem file_take (records : List WalRecord) (n : ℕ) : ∃ k ≤ records.length, ∃ rest,
    (WalRecord.file records).take n = WalRecord.file (records.take k) ++ rest ∧
    (∀ pos, WalReader.Stops ⟨rest, pos⟩) ∧
      (WalRecord.file (records.take k)).length ≤ n ∧
      (k < records.length → n < (WalRecord.file (records.take (k + 1))).length) := by
  obtain ⟨k, hk, hlen, hcut⟩ := take_flatMap WalRecord.bytes records n
  refine ⟨k, hk, ?_⟩
  rcases hcut with ⟨hall, rfl⟩ | ⟨r, m, hr, hm, hn, hpart⟩
  · exact ⟨[], by
        rw [List.append_nil]; exact hall, stops_nil, hlen, fun h => absurd h (lt_irrefl _)⟩
  · refine ⟨r.bytes.take m, hpart, stops_torn r hm, hlen, fun hk' => ?_⟩
    have hnext :
        WalRecord.file (records.take (k + 1)) = WalRecord.file (records.take k) ++ r.bytes := by
      rw [List.take_add_one, hr]
      simp [WalRecord.file]
    rw [hnext, List.length_append]
    have : n = (WalRecord.file (records.take k)).length + m := hn
    omega

/-- Both writers write the checked records one behind the other. Of a file of records that
is cut off anywhere, the reader returns the whole ones, and recovery keeps those below the
expected size, once and for all. -/
theorem wal_torn_write :
    (∀ (entries : List WalEntry) (file : Bytes),
      BinaryWalWriter.appendAll ⟨file⟩ entries =
        .ok ⟨file ++ WalRecord.file (entries.map .checked)⟩ ∧
      ∀ batchSize, ∃ w, BatchedBinaryWalWriter.appendAll ⟨[], batchSize, file⟩ entries = .ok w ∧
        w.flush = ⟨[], batchSize, file ++ WalRecord.file (entries.map .checked)⟩) ∧
    ∀ (records : List WalRecord) (n : ℕ), ∃ k ≤ records.length,
      (WalRecord.file (records.take k)).length ≤ n ∧
      (k < records.length → n < (WalRecord.file (records.take (k + 1))).length) ∧
      (∃ r, WalReader.Returns ⟨(WalRecord.file records).take n, 0⟩
        ((records.take k).map WalRecord.value) r ∧
        r.validPos = (WalRecord.file (records.take k)).length ∧ r.Stops) ∧
      (records.Pairwise (fun a b => a.idx < b.idx) → ∀ expectedTreeSize,
        let kept := recordsBelow expectedTreeSize (records.take k)
        let treeSize := (kept.getLast?.map (·.idx + 1)).getD 0
        validateAndTruncateWal (some ((WalRecord.file records).take n)) expectedTreeSize =
          (treeSize, some (WalRecord.file kept)) ∧
        validateAndTruncateWal (some (WalRecord.file kept)) expectedTreeSize =
          (treeSize, some (WalRecord.file kept))) := by
  refine ⟨fun entries file => ⟨BinaryWalWriter.appendAll_eq ⟨file⟩ entries, fun batchSize => ?_⟩,
    fun records n => ?_⟩
  · have hstart : BatchedBinaryWalWriter.Wrote ⟨[], batchSize, file⟩ file :=
      ⟨[], rfl, List.append_nil file⟩
    obtain ⟨w, hrun, hwrote, hsize⟩ := hstart.appendAll entries
    exact ⟨w, hrun, by rw [hwrote.flush, hsize]⟩
  · obtain ⟨k, hk, rest, htake, hstop, hlen, hnext⟩ := file_take records n
    refine ⟨k, hk, hlen, hnext,
      ⟨⟨rest, (WalRecord.file (records.take k)).length⟩, ?_, rfl, hstop _⟩,
      fun hsorted expectedTreeSize => ⟨?_, ?_⟩⟩
    · rw [htake]
      simpa using returns_file (records.take k) rest 0
    · rw [htake]
      exact validateAndTruncateWal_file expectedTreeSize hstop
        (hsorted.sublist (List.take_sublist k records))
    · have hkept :
          (recordsBelow expectedTreeSize (records.take k)).Pairwise fun a b => a.idx < b.idx :=
        (hsorted.sublist (List.take_sublist k records)).sublist (List.takeWhile_sublist _)
      have hagain := @validateAndTruncateWal_file _ expectedTreeSize [] stops_nil _ hkept
      have hsame : recordsBelow expectedTreeSize (recordsBelow expectedTreeSize (records.take k)) =
          recordsBelow expectedTreeSize (records.take k) := List.takeWhile_idem
      rwa [List.append_nil, hsame] at hagain

end Siglog.Vindex

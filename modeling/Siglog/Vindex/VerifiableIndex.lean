import Siglog.Vindex.Lookup
import Siglog.Concurrent.Program
import Siglog.Text.Hex
import Mathlib.Data.List.AList
import Mathlib.Data.List.Sort

/-! The verifiable index: the map from keys to log indices, the prefix tree over it, and
the tree size. Each section that holds a lock is one operation; indexing an entry and
answering a lookup are programs over these operations. -/

namespace Siglog.Vindex

open Concurrent (Prog)
open Text (Str utf8)

abbrev IndexKey := Bytes32

/-- The key → indices mapping. -/
abbrev IndexMap := AList fun _ : IndexKey => List ℕ

/-- The indices under a key, none by default. -/
def indicesOf (index : IndexMap) (key : IndexKey) : List ℕ := (index.lookup key).getD []

theorem indicesOf_insert_self (index : IndexMap) (key : IndexKey) (indices : List ℕ) :
    indicesOf (index.insert key indices) key = indices := by
  rw [indicesOf, AList.lookup_insert]
  rfl

theorem indicesOf_insert_ne (index : IndexMap) {key k : IndexKey} (indices : List ℕ) (h : key ≠ k) :
    indicesOf (index.insert k indices) key = indicesOf index key := by
  rw [indicesOf, AList.lookup_insert_ne h, indicesOf]

variable [Sha256]

/-- The SHA-256 of all indices. -/
def computeValueHash (indices : List ℕ) : Bytes32 := digest (indices.flatMap u64BeBytes)

/-- Hash a string to produce an index key. -/
def hashKey (s : Str) : IndexKey := digest (utf8 s)

/-- Lookup result containing the log indices for a key. -/
structure LookupResult where
  indices : List ℕ
  treeSize : ℕ
  found : Bool
  proof : List ProofNode
  rootHash : Bytes32
  deriving DecidableEq

/-- What is in memory, and the limits. A panic under the lock of the tree size poisons it. -/
structure VerifiableIndex where
  index : IndexMap
  treeSize : ℕ
  poisoned : Bool
  prefixTree : PrefixTree
  entriesSinceSnapshot : ℕ
  maxKeys : ℕ
  maxIndicesPerKey : ℕ

def maxKeysPerEntry : ℕ := 255

namespace VerifiableIndex

def new (maxKeys maxIndicesPerKey : ℕ) : VerifiableIndex :=
  ⟨∅, 0, false, .new, 0, maxKeys, maxIndicesPerKey⟩

/-- The limits on memory, before an entry with these keys is indexed. -/
def checkLimits (s : VerifiableIndex) (keys : List IndexKey) : Except Error Unit :=
  let currentKeyCount := s.index.keys.length
  let newKeysCount := (keys.filter fun k => k ∉ s.index).length
  if s.maxKeys < currentKeyCount + newKeysCount then
    .error (.indexFull
      s!"maximum keys exceeded: current={currentKeyCount}, new={newKeysCount}, max={s.maxKeys}")
  else
    match keys.findSome? fun k => (s.index.lookup k).filter fun indices => s.maxIndicesPerKey ≤
      indices.length with
    | some indices =>
      .error (.indexFull
        (s!"maximum indices per key exceeded: key has {indices.length} indices, " ++
          s!"max={s.maxIndicesPerKey}"))
    | none => .ok ()

/-- Record `idx` under each key that does not have it, in the index and in the tree. -/
def record (idx : ℕ) :
    List IndexKey → IndexMap → PrefixTree → Except (Fault Error) (IndexMap × PrefixTree)
  | [], index, tree => .ok (index, tree)
  | key :: keys, index, tree =>
    let indices := indicesOf index key
    if idx ∈ indices then record idx keys index tree
    else do
      let indices := indices ++ [idx]
      let tree ← tree.insert key (computeValueHash indices)
      record idx keys (index.insert key indices) tree

/-- Get the current tree size (number of entries indexed). -/
def readTreeSize (s : VerifiableIndex) : Except (Fault Error) ℕ :=
  if s.poisoned then .error .panic else .ok s.treeSize

/-- Look up a key and return all log indices containing entries with that key. -/
def lookup (s : VerifiableIndex) (key : IndexKey) : Except (Fault Error) LookupResult := do
  let treeSize ← s.readTreeSize
  let indices := indicesOf s.index key
  let lookupProof ← s.prefixTree.lookup key
  .ok ⟨indices, treeSize, lookupProof.found, lookupProof.proof, s.prefixTree.rootHash⟩

/-- Get the root hash of the prefix tree. -/
def rootHash (s : VerifiableIndex) : Bytes32 := s.prefixTree.rootHash

end VerifiableIndex

/-! ### Sections -/

/-- The sections under locks. -/
inductive Section where
  | treeSize
  | checkLimits (keys : List IndexKey)
  | append (idx : ℕ) (keys : List IndexKey)
  | record (idx : ℕ) (keys : List IndexKey)
  | growTreeSize (idx : ℕ)
  | countIndexed
  | lookup (key : IndexKey)
  | rootHash
  deriving DecidableEq

abbrev Section.Answer : Section → Type
  | .treeSize => Except (Fault Error) ℕ
  | .checkLimits _ => Except Error Unit
  | .append _ _ => Except Error Unit
  | .record _ _ => Except (Fault Error) Unit
  | .growTreeSize _ => Except (Fault Error) Unit
  | .countIndexed => Unit
  | .lookup _ => Except (Fault Error) LookupResult
  | .rootHash => Bytes32

abbrev IndexProg := Prog Section Section.Answer (Fault Error)

/-- What a section does. The WAL is outside memory; `wal` is how a write to it ends. -/
def VerifiableIndex.perform (wal : Except Error Unit) (s : VerifiableIndex) :
    (o : Section) → o.Answer × VerifiableIndex
  | .treeSize => (s.readTreeSize, s)
  | .checkLimits keys => (s.checkLimits keys, s)
  | .append _ _ => (wal, s)
  | .record idx keys =>
    match VerifiableIndex.record idx keys s.index s.prefixTree with
    | .ok (index, tree) => (.ok (), { s with index := index, prefixTree := tree })
    | .error f => (.error f, s)
  | .growTreeSize idx =>
    if s.poisoned then (.error .panic, s)
    else
      match checkedAdd idx 1 with
      | .ok n => (.ok (), { s with treeSize := max s.treeSize n })
      | .error f => (.error f, { s with poisoned := true })
  | .countIndexed => ((), { s with entriesSinceSnapshot := s.entriesSinceSnapshot + 1 })
  | .lookup key => (s.lookup key, s)
  | .rootHash => (s.rootHash, s)

/-- `keys.sort_unstable(); keys.dedup()`. -/
def sortedKeys (keys : List IndexKey) : List IndexKey :=
  (keys.insertionSort fun a b => a.val ≤ b.val).eraseReps

/-- An error of the server, not a panic. -/
def ofResult {α : Type} (x : Except Error α) : IndexProg α := Prog.ofExcept (x.mapError .err)

/-- Index a new entry at the given log index. `hasWal` tells whether there is a WAL. -/
def indexEntry (mapFn : Bytes → List IndexKey) (hasWal : Bool) (idx : ℕ) (data : Bytes) :
    IndexProg Unit := do
  let next ← Prog.ofExcept (← Prog.call Section.treeSize)
  if idx < next then pure ()
  else if idx ≠ next then .fail (.err (.invalidEntry "non-contiguous index entry"))
  else
    let keys := sortedKeys (mapFn data)
    if maxKeysPerEntry < keys.length then
      .fail (.err (.invalidEntry
        s!"too many vindex keys for entry {idx}: {keys.length} (max {maxKeysPerEntry})"))
    else if keys = [] then do
      if hasWal then ofResult (← Prog.call (Section.append idx keys))
      Prog.ofExcept (← Prog.call (Section.growTreeSize idx))
      Prog.call Section.countIndexed
    else do
      ofResult (← Prog.call (Section.checkLimits keys))
      if hasWal then ofResult (← Prog.call (Section.append idx keys))
      Prog.ofExcept (← Prog.call (Section.record idx keys))
      Prog.ofExcept (← Prog.call (Section.growTreeSize idx))
      Prog.call Section.countIndexed

/-! ### Requests -/

/-- A proof node from the prefix tree, in hexadecimal. -/
structure VindexProofNode where
  labelBitLen : ℕ
  labelPath : Str
  hash : Str
  deriving DecidableEq

def VindexProofNode.ofNode (n : ProofNode) : VindexProofNode :=
  ⟨n.labelBitLen, Text.Hex.encode n.labelPath, Text.Hex.encode n.hash.val⟩

/-- Response from a vindex lookup. -/
structure VindexLookupResponse where
  indices : List ℕ
  treeSize : ℕ
  found : Bool
  proof : List VindexProofNode
  rootHash : Str
  deriving DecidableEq

/-- A lookup and a root hash as a response. -/
def VindexLookupResponse.of (result : LookupResult) (rootHash : Bytes32) : VindexLookupResponse :=
  ⟨result.indices, result.treeSize, result.found, result.proof.map .ofNode,
    Text.Hex.encode rootHash.val⟩

/-- The body of both handlers: the lookup, and then the root hash. -/
def respond (key : IndexKey) : IndexProg VindexLookupResponse := do
  let result ← Prog.ofExcept (← Prog.call (Section.lookup key))
  let rootHash ← Prog.call Section.rootHash
  pure (.of result rootHash)

variable [Text.Hex.HexErrors]

/-- GET /vindex/lookup/hash - Look up entries by key hash. -/
def vindexLookup (enabled : Bool) (hashStr : Str) : IndexProg VindexLookupResponse :=
  if enabled = false then .fail (.err (.internal "vindex not enabled"))
  else
    match Text.Hex.decode hashStr with
    | .error e => .fail (.err (.invalidEntry ("invalid hex hash: " ++ e)))
    | .ok hashBytes =>
      if h : hashBytes.length = 32 then respond ⟨hashBytes, h⟩
      else .fail (.err (.invalidEntry s!"hash must be 32 bytes, got {hashBytes.length}"))

/-- GET /vindex/lookup/key/key - Look up entries by string key. -/
def vindexLookupKey (enabled : Bool) (key : Str) : IndexProg VindexLookupResponse :=
  if enabled = false then .fail (.err (.internal "vindex not enabled")) else respond (hashKey key)

end Siglog.Vindex

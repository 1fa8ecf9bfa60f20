import Siglog.Merkle.Proof
import Mathlib.Data.List.AList

/-! Integration of new leaves. The builder keeps the compact range, which is the
list of complete subtrees that are not yet part of a larger one, and a cache of
the nodes it has completed, grouped by tile. The iteration order of the hash
maps is left open: it is a parameter of every function that iterates. -/

namespace Siglog.Merkle

open Concurrent (Prog)
open Api (tileHeight tileWidth)

/-- An iteration order. -/
structure Shuffle (α : Type) where
  order : List α → List α
  perm : ∀ l, (order l).Perm l

namespace Shuffle

variable {α : Type}

def id : Shuffle α := ⟨fun l => l, List.Perm.refl⟩

theorem mem_order {s : Shuffle α} {l : List α} {a : α} : a ∈ s.order l ↔ a ∈ l := (s.perm l).mem_iff

end Shuffle

structure TileKey where
  level : ℕ
  index : ℕ
  deriving DecidableEq

/-- Changes of one tile, keyed by level and index within the tile. -/
abbrev TileMutator (H : Type) := AList fun _ : ℕ × ℕ => H

abbrev TileCache (H : Type) := AList fun _ : TileKey => TileMutator H

/-- The iteration orders of one integration. -/
structure MapOrder (H : Type) where
  cache : Shuffle (Σ _ : TileKey, TileMutator H)
  nodes : TileKey → Shuffle (Σ _ : ℕ × ℕ, H)
  tiles : Shuffle (Σ _ : TileKey, HashTile H)
  bundles : Shuffle (Σ _ : ℕ, List Bytes)

/-- The order in which the maps list their entries. -/
def MapOrder.listed {H : Type} : MapOrder H :=
  ⟨Shuffle.id, fun _ => Shuffle.id, Shuffle.id, Shuffle.id⟩

structure IntegrationResult (H : Type) where
  newSize : ℕ
  rootHash : H
  tiles : AList fun _ : TileKey => HashTile H

/-- The coordinates of a node: its tile, and its level and index there. -/
def nodeToTileCoords (level index : ℕ) : TileKey × (ℕ × ℕ) :=
  let tileRowWidth := 2 ^ (tileHeight - level % tileHeight)
  (⟨level / tileHeight, index / tileRowWidth⟩, (level % tileHeight, index % tileRowWidth))

/-- The copy of the path function that is local to integration. -/
def integratePartialSize (level index logSize : ℕ) : ℕ :=
  let sizeAtLevel := logSize / 2 ^ (level * tileHeight)
  if index < sizeAtLevel / tileWidth then 0 else sizeAtLevel % tileWidth

def shouldStoreNode (level index treeSize : ℕ) : Prop := (index + 1) * 2 ^ level ≤ treeSize

instance (level index treeSize : ℕ) : Decidable (shouldStoreNode level index treeSize) :=
  inferInstanceAs (Decidable (_ ≤ _))

variable {H : Type}

/-! ### Tile mutators -/

def flatOffset (level index : ℕ) : ℕ :=
  let row := (List.range level).foldl (fun (r : ℕ × ℕ) _ => (r.1 + r.2, r.2 / 2)) (0, tileWidth)
  row.1 + index

variable [Sha256Hash H]

def zeroHash : H := Sha256Hash.fromBytes ⟨List.replicate 32 0, length_zeros⟩

/-- Set every changed node; the tile grows with zero hashes where it is too short. -/
def applyTo (order : Shuffle (Σ _ : ℕ × ℕ, H)) (mutator : TileMutator H) (tile : HashTile H) :
    HashTile H :=
  let maxOffset := (mutator.entries.map fun e => flatOffset e.1.1 e.1.2).foldr max 0
  let nodes := tile.nodes ++ List.replicate (maxOffset + 1 - tile.nodes.length) zeroHash
  ⟨(order.order mutator.entries).foldl (fun nodes e => nodes.set (flatOffset e.1.1 e.1.2) e.2)
    nodes⟩

/-! ### The compact range -/

/-- The nodes of the compact range below some level, from the highest down. -/
def rangeNodesBelow (size : ℕ) : ℕ → ℕ → List (ℕ × ℕ)
  | 0, _ => []
  | level + 1, cumulativeLeaves =>
    if size &&& 2 ^ level ≠ 0 then
      (level, cumulativeLeaves / 2 ^ level) ::
        rangeNodesBelow size level (cumulativeLeaves + 2 ^ level)
    else rangeNodesBelow size level cumulativeLeaves

def computeRangeNodes (size : ℕ) : List (ℕ × ℕ) :=
  if size = 0 then []
  else
    let maxLevel := 63 - leadingZeros size
    (rangeNodesBelow size (maxLevel + 1) 0).reverse

omit [Sha256Hash H] in
/-- Make the range long enough and put a hash at a level. -/
def setRange (range : List (Option H)) (level : ℕ) (hash : H) : List (Option H) :=
  (range ++ List.replicate (level + 1 - range.length) none).set level (some hash)

def computeNodeHash (treeSize : ℕ) : ℕ → ℕ → TileReader H H
  | 0, index => do
    let (key, node) := nodeToTileCoords 0 index
    let part := integratePartialSize key.level key.index treeSize
    let some tile ← readTile key.level key.index part
      | .fail (.err (.internal s!"missing tile at level={key.level}, index={key.index}"))
    match tile.nodes[node.2]? with
    | none => .fail (.err (.internal s!"missing leaf at index {node.2}"))
    | some hash => .pure hash
  | level + 1, index => do
    let left ← computeNodeHash treeSize level (index * 2)
    let right ← computeNodeHash treeSize level (index * 2 + 1)
    .pure (hashChildren left right)

def loadRangeNodes (size : ℕ) : List (ℕ × ℕ) → List (Option H) → TileReader H (List (Option H))
  | [], range => .pure range
  | (level, index) :: nodes, range => do
    let hash ← computeNodeHash size level index
    loadRangeNodes size nodes (setRange range level hash)

def loadCompactRange (size : ℕ) : TileReader H (List (Option H)) :=
  loadRangeNodes size (computeRangeNodes size) []

/-! ### The tree builder -/

structure TreeBuilder (H : Type) where
  fromSize : ℕ
  size : ℕ
  range : List (Option H)
  tileCache : TileCache H

namespace TreeBuilder

def startRange (fromSize : ℕ) : TileReader H (List (Option H)) :=
  if fromSize = 0 then .pure [] else loadCompactRange fromSize

def new (fromSize : ℕ) : TileReader H (TreeBuilder H) := do
  let range ← startRange fromSize
  .pure ⟨fromSize, fromSize, range, ∅⟩

omit [Sha256Hash H] in
def setNode (cache : TileCache H) (level index : ℕ) (hash : H) : TileCache H :=
  let (key, node) := nodeToTileCoords level index
  cache.insert key (((cache.lookup key).getD ∅).insert node hash)

/-- The merging loop of `append`: as long as the node is a right child, combine it
with its left sibling from the range. -/
def mergeUp (size : ℕ) (level index : ℕ) (hash : H) (range : List (Option H))
    (cache : TileCache H) :
    ℕ × H × List (Option H) × TileCache H :=
  if _h : index % 2 = 1 then
    match range[level]?.join with
    | none => (level, hash, range, cache)
    | some left =>
      let hash := hashChildren left hash
      let cache :=
        if shouldStoreNode (level + 1) (index / 2) size then
          setNode cache (level + 1) (index / 2) hash
        else cache
      mergeUp size (level + 1) (index / 2) hash (range.set level none) cache
  else (level, hash, range, cache)
termination_by index
decreasing_by omega

def append (b : TreeBuilder H) (leafHash : H) : TreeBuilder H :=
  let leafIndex := b.size
  let size := b.size + 1
  let (level, hash, range, cache) :=
    mergeUp size 0 leafIndex leafHash b.range (setNode b.tileCache 0 leafIndex leafHash)
  { b with size, range := setRange range level hash, tileCache := cache }

/-- One step of the chaining in `computeRoot`. -/
def bag : Option H → H → Option H
  | none, h => some h
  | some right, h => some (hashChildren h right)

def computeRoot (b : TreeBuilder H) : Except (Fault Error) H :=
  if b.size = 0 then .ok emptyRootHash
  else
    match (b.range.filterMap fun h => h).foldl bag none with
    | none => .error (.err (.internal "empty compact range"))
    | some root => .ok root

/-- The tile before this integration. -/
def previousTile (fromSize : ℕ) (key : TileKey) : TileReader H (HashTile H) :=
  let prevPartial := integratePartialSize key.level key.index fromSize
  let existed := key.index < (fromSize / 2 ^ (key.level * tileHeight) + tileWidth - 1) / tileWidth
  if existed then do
    let tile ← readTile key.level key.index prevPartial
    .pure (tile.getD ⟨[]⟩)
  else .pure ⟨[]⟩

def finalizeTiles (order : MapOrder H) (fromSize : ℕ) : List (Σ _ : TileKey, TileMutator H) →
    AList (fun _ : TileKey => HashTile H) → TileReader H (AList fun _ : TileKey => HashTile H)
  | [], tiles => .pure tiles
  | ⟨key, mutator⟩ :: rest, tiles =>
    if key.level > 63 then .fail .panic -- `TileLevel::new`
    else do
      let tile ← previousTile fromSize key
      finalizeTiles order fromSize rest (tiles.insert key (applyTo (order.nodes key) mutator tile))

def finalize (order : MapOrder H) (b : TreeBuilder H) : TileReader H (IntegrationResult H) := do
  let rootHash ← Prog.ofExcept b.computeRoot
  let tiles ← finalizeTiles order b.fromSize (order.cache.order b.tileCache.entries) ∅
  .pure ⟨b.size, rootHash, tiles⟩

end TreeBuilder

def integrate (order : MapOrder H) (fromSize : ℕ) (leafHashes : List H) :
    TileReader H (IntegrationResult H) :=
  if leafHashes = [] then
    if fromSize = 0 then .pure ⟨fromSize, emptyRootHash, ∅⟩
    else .fail (.err (.internal "cannot get root of non-empty tree without new entries"))
  else do
    let builder ← TreeBuilder.new fromSize
    (leafHashes.foldl TreeBuilder.append builder).finalize order

end Siglog.Merkle

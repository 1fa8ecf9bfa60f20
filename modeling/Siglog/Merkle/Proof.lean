import Siglog.Merkle.Tiles
import Siglog.Concurrent.Program

/-! Generation of proofs from tiles. The source of tiles is the log's own
storage or a remote log, so every function here is a program over one
operation, the reading of a tile. -/

namespace Siglog.Merkle

open Concurrent (Prog)
open Api (tileWidth partialTileSize)

/-- `verify_inclusion_proof` of the Merkle library. -/
class InclusionVerifier (H : Type) where
  verifyInclusionProof : H → ℕ → ℕ → List H → H → Except String Unit

inductive ReadTile where
  | mk (level index part : ℕ)

variable {H : Type}

abbrev ReadTile.Answer (H : Type) (_ : ReadTile) : Type := Option (HashTile H)

/-- A program that reads tiles. A read that fails ends it. -/
abbrev TileReader (H α : Type) := Prog ReadTile (ReadTile.Answer H) (Fault Error) α

def readTile (level index part : ℕ) : TileReader H (Option (HashTile H)) :=
  if level > 63 then .fail .panic -- `TileLevel::new`
  else Prog.call (ReadTile.mk level index part)

/-- The `partial` of `readLeafHash`. -/
def leafPartial (tileStart treeSize : ℕ) : Except (Fault Error) ℕ := do
  if (← checkedAdd tileStart tileWidth) >
    treeSize then .ok (min (← checkedSub treeSize tileStart) 255)
  else .ok 0

/-- Read a leaf hash from level 0 tiles. -/
def readLeafHash (index treeSize : ℕ) : TileReader H H := do
  let tileIndex := index / tileWidth
  let offset := index % tileWidth
  let part ← Prog.ofExcept (leafPartial (tileIndex * tileWidth) treeSize)
  let some tile ← readTile 0 tileIndex part
    | .fail (.err (.notFound s!"leaf tile 0/{tileIndex} (partial={part})"))
  match tile.nodes[offset]? with
  | none =>
    .fail (.err (.notFound
      s!"leaf {index} not in tile 0/{tileIndex} (tile has {tile.nodes.length} nodes)"))
  | some hash => .pure hash

section

variable [Sha256Hash H]

/-- One row up. -/
def pairUp : List H → List H
  | a :: b :: nodes => hashChildren a b :: pairUp nodes
  | _ => []

theorem length_pairUp (nodes : List H) : (pairUp nodes).length = nodes.length / 2 := by
  induction nodes using pairUp.induct with
  | case1 a b nodes ih =>
    simp only [pairUp, List.length_cons, ih]
    omega
  | case2 nodes h =>
    match nodes, h with
    | [], _ => simp [pairUp]
    | [_], _ => simp [pairUp]
    | a :: b :: l, h => exact absurd rfl (h a b l)

/-- The rows of a tile above the stored one, up to a single node. -/
def collapse (nodes : List H) : List H :=
  if nodes.length > 1 then collapse (pairUp nodes) else nodes
termination_by nodes.length
decreasing_by rw [length_pairUp]; omega

def tryReadTileHash (level index treeSize : ℕ) : TileReader H H := do
  let tileLevel := level / 8
  let width := 2 ^ (level % 8)
  let bottomIndex ← Prog.ofExcept (checkedShl index (level % 8))
  let tileIndex := bottomIndex / tileWidth
  let offset := bottomIndex % tileWidth
  let part := partialTileSize tileLevel tileIndex treeSize
  let some tile ← readTile tileLevel tileIndex part
    | .fail (.err (.notFound s!"tile {level}/{tileIndex} (partial={part})"))
  if tile.nodes.length < offset + width then .fail (.err (.notFound "subtree missing from tile"))
  else
    match collapse ((tile.nodes.drop offset).take width) with
    | [] => .fail .panic
    | hash :: _ => .pure hash

/-- The hash of the leaves from `start` up to `stop`. -/
def computeSubtreeHash (start stop treeSize : ℕ) : TileReader H H :=
  if stop < start then .fail .panic
  else if stop - start = 0 then .fail (.err (.invalidEntry "empty subtree"))
  else if stop - start = 1 then readLeafHash start treeSize
  else if IsPowerOfTwo (stop - start) ∧ start % (stop - start) = 0 then
    let level := trailingZeros (stop - start)
    tryReadTileHash level (start / 2 ^ level) treeSize
  else
    match _h : (largestPowerOf2LessThan (stop - start) : Except (Fault Error) ℕ) with
    | .error e => .fail e
    | .ok k => do
      let left ← computeSubtreeHash start (start + k) treeSize
      let right ← computeSubtreeHash (start + k) stop treeSize
      .pure (hashChildren left right)
termination_by stop - start
decreasing_by
  · have := largestPowerOf2LessThan_lt _h (by omega)
    omega
  · have := largestPowerOf2LessThan_pos _h (by omega)
    omega

/-- The sibling that starts at `siblingStart`, if the tree reaches that far. -/
def siblingHash (siblingStart subtreeSize newSize : ℕ) : TileReader H (List H) :=
  if siblingStart < newSize then do
    let siblingEnd ← Prog.ofExcept (checkedAdd siblingStart subtreeSize)
    let hash ← computeSubtreeHash siblingStart (min siblingEnd newSize) newSize
    .pure [hash]
  else .pure []

/-- Sibling hashes on the way from a node on the left spine to the root. -/
def pathSiblings (newSize level pathIdx : ℕ) : TileReader H (List H) :=
  if level ≥ 64 then .fail .panic -- `1 << level`
  else if 2 ^ level < newSize then do
    let subtreeSize := 2 ^ level
    let siblingIdx := pathIdx ^^^ 1
    let siblingStart ← Prog.ofExcept (checkedMul siblingIdx subtreeSize)
    let siblings ← siblingHash siblingStart subtreeSize newSize
    let rest ← pathSiblings newSize (level + 1) (pathIdx / 2)
    .pure (siblings ++ rest)
  else .pure []
termination_by 64 - level

/-- The recursive algorithm. It returns the hash of the new subtree and the
proof with what it has pushed. -/
def subproof (m n base treeSize : ℕ) (complete : Bool) (proof : List H) :
    TileReader H (H × List H) :=
  if m = n then do
    let hash ← computeSubtreeHash base (base + m) treeSize
    .pure (hash, if complete then proof else proof ++ [hash])
  else if n = 0 then .fail .panic -- the call repeats itself without end
  else
    match _h : (largestPowerOf2LessThan n : Except (Fault Error) ℕ) with
    | .error e => .fail e
    | .ok k =>
      if m ≤ k then do
        let (leftHash, proof) ← subproof m k base treeSize complete proof
        let rightHash ← computeSubtreeHash (base + k) (base + n) treeSize
        .pure (hashChildren leftHash rightHash, proof ++ [rightHash])
      else if k = 0 then .fail .panic -- likewise
      else do
        let leftHash ← computeSubtreeHash base (base + k) treeSize
        let (rightHash, proof) ← subproof (m - k) (n - k) (base + k) treeSize false proof
        .pure (hashChildren leftHash rightHash, proof ++ [leftHash])
termination_by n
decreasing_by
  · exact largestPowerOf2LessThan_lt _h (by omega)
  · omega

def proofNodes (oldSize newSize : ℕ) (startFromOldRoot : Bool) : TileReader H (List H) :=
  if IsPowerOfTwo oldSize then pathSiblings newSize (trailingZeros oldSize) 0
  else do
    let (_, proof) ← subproof oldSize newSize 0 newSize startFromOldRoot []
    .pure proof

def generateConsistencyProofSimple (oldSize newSize : ℕ) : TileReader H (List H) :=
  if oldSize = 0 ∨ oldSize = newSize then .pure []
  else if oldSize > newSize then
    .fail (.err (.invalidEntry s!"old_size ({oldSize}) > new_size ({newSize})"))
  else proofNodes oldSize newSize true

/-- The ranges of the siblings from the root down to a leaf. -/
def siblingRanges (index start stop : ℕ) : Except (Fault Error) (List (ℕ × ℕ)) :=
  if stop - start > 1 then
    match _h : (largestPowerOf2LessThan (stop - start) : Except (Fault Error) ℕ) with
    | .error e => .error e
    | .ok k =>
      let split := start + k
      if index < split then do .ok ((split, stop) :: (← siblingRanges index start split))
      else do .ok ((start, split) :: (← siblingRanges index split stop))
  else .ok []
termination_by stop - start
decreasing_by
  · have := largestPowerOf2LessThan_lt _h (by omega)
    omega
  · have := largestPowerOf2LessThan_pos _h (by omega)
    omega

/-- The hashes of ranges, one after the other. -/
def subtreeHashes (treeSize : ℕ) : List (ℕ × ℕ) → TileReader H (List H)
  | [] => .pure []
  | (start, stop) :: ranges => do
    let hash ← computeSubtreeHash start stop treeSize
    let proof ← subtreeHashes treeSize ranges
    .pure (hash :: proof)

def generateInclusionProof (index treeSize : ℕ) : TileReader H (List H) :=
  if index ≥ treeSize then .fail (.err (.invalidEntry "index outside tree"))
  else do
    let siblings ← Prog.ofExcept (siblingRanges index 0 treeSize)
    subtreeHashes treeSize siblings.reverse

end

end Siglog.Merkle

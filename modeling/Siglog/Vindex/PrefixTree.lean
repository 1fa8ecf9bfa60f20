import Siglog.Vindex.Label

/-! The Merkle prefix tree: a binary radix tree over 256-bit keys. An inner node keeps
the prefix of its keys and splits them by the next bit. SHA-256 is a parameter. -/

namespace Siglog.Vindex

/-- A proof node containing the label (path) and hash of a sibling. -/
structure ProofNode where
  labelBitLen : ℕ
  labelPath : Bytes
  hash : Bytes32
  deriving DecidableEq

/-- Result of a lookup operation. -/
structure LookupProof where
  found : Bool
  proof : List ProofNode
  deriving DecidableEq

/-- A node in the prefix tree. An inner node caches its hash. -/
inductive Node where
  | empty
  | leaf (key : Label) (valueHash : Bytes32)
  | internal (pre : Label) (left right : Node) (hash : Bytes32)
  deriving DecidableEq

def zeroHash : Bytes32 := ⟨List.replicate 32 0, length_zeros⟩

def leafMessage (key : Bytes) (valueHash : Bytes32) : Bytes := 0x00 :: (key ++ valueHash.val)

def internalMessage (bitLen : ℕ) (pre : Bytes) (left right : Bytes32) : Bytes :=
  0x01 :: (u32BeBytes bitLen ++ (pre ++ (left.val ++ right.val)))

variable [Sha256]

namespace Node

/-- Compute the hash of this node. -/
def hash : Node → Bytes32
  | .empty => zeroHash
  | .leaf key valueHash => digest (leafMessage key.bytes valueHash)
  | .internal _ _ _ hash => hash

def isEmpty : Node → Bool
  | .empty => true
  | _ => false

def computeInternalHash (pre : Label) (left right : Node) : Bytes32 :=
  digest (internalMessage pre.bitLen pre.bytes left.hash right.hash)

def insertRec (key : Label) (valueHash : Bytes32) : Node → Except (Fault Error) Node
  | .empty => .ok (.leaf key valueHash)
  | .leaf existingKey existingValue =>
    if key = existingKey then .ok (.leaf key valueHash)
    else do
      let commonLen := key.commonPrefixLen existingKey
      let pre := key.prefixTo commonLen
      let keyBit ← key.bit commonLen
      let _ ← existingKey.bit commonLen
      let newLeaf := .leaf key valueHash
      let existingLeaf := .leaf existingKey existingValue
      let sides := if keyBit = 0 then (newLeaf, existingLeaf) else (existingLeaf, newLeaf)
      .ok (.internal pre sides.1 sides.2 (computeInternalHash pre sides.1 sides.2))
  | .internal pre left right _ =>
    let commonLen := key.commonPrefixLen pre
    if commonLen < pre.bitLen then do
      -- Key diverges before end of prefix.
      let newPre := pre.prefixTo commonLen
      let keyBit ← key.bit commonLen
      let newLeaf := .leaf key valueHash
      let oldInternal := .internal pre left right (computeInternalHash pre left right)
      let sides := if keyBit = 0 then (newLeaf, oldInternal) else (oldInternal, newLeaf)
      .ok (.internal newPre sides.1 sides.2 (computeInternalHash newPre sides.1 sides.2))
    else do
      -- Key matches prefix.
      let nextBit ← key.bit pre.bitLen
      if nextBit = 0 then do
        let newLeft ← insertRec key valueHash left
        .ok (.internal pre newLeft right (computeInternalHash pre newLeft right))
      else do
        let newRight ← insertRec key valueHash right
        .ok (.internal pre left newRight (computeInternalHash pre left newRight))

/-- The sibling next to the path, with its label. -/
def proofNode (label : Label) (sibling : Node) : ProofNode :=
  ⟨label.bitLen, label.bytes, sibling.hash⟩

def lookupRec (key : Label) : Node → List ProofNode → Except (Fault Error) (Bool × List ProofNode)
  | .empty, proof => .ok (false, proof)
  | .leaf leafKey _, proof => .ok (decide (key = leafKey), proof)
  | .internal pre left right _, proof =>
    if pre.isPrefixOf key = false then .ok (false, proof)
    else do
      let nextBit ← key.bit pre.bitLen
      if nextBit = 0 then
        lookupRec key
          left (if right.isEmpty then proof else proof ++ [proofNode (pre.appendBit 1) right])
      else
        lookupRec key right
          (if left.isEmpty then proof else proof ++ [proofNode (pre.appendBit 0) left])

def countKeys : Node → ℕ
  | .empty => 0
  | .leaf _ _ => 1
  | .internal _ left right _ => left.countKeys + right.countKeys

end Node

/-- A Merkle prefix tree. -/
structure PrefixTree where
  root : Node
  deriving DecidableEq

namespace PrefixTree

def new : PrefixTree := ⟨.empty⟩

/-- Get the root hash of the tree. -/
def rootHash (t : PrefixTree) : Bytes32 := t.root.hash

/-- Insert a key-value pair into the tree. -/
def insert (t : PrefixTree) (key valueHash : Bytes32) : Except (Fault Error) PrefixTree := do
  .ok ⟨← t.root.insertRec (Label.fromKey key) valueHash⟩

/-- Lookup a key and return an inclusion/exclusion proof. -/
def lookup (t : PrefixTree) (key : Bytes32) : Except (Fault Error) LookupProof := do
  let (found, proof) ← t.root.lookupRec (Label.fromKey key) []
  .ok ⟨found, proof⟩

/-- Get the number of keys in the tree. -/
def len (t : PrefixTree) : ℕ := t.root.countKeys

/-- A sequence of insertions. -/
def insertAll (t : PrefixTree) : List (Bytes32 × Bytes32) → Except (Fault Error) PrefixTree
  | [] => .ok t
  | (key, valueHash) :: ops => do
    let t ← t.insert key valueHash
    insertAll t ops

end PrefixTree

end Siglog.Vindex

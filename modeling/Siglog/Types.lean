import Siglog.Word
import Mathlib.Logic.Function.Basic

/-! Errors, hashes and entries. SHA-256 itself is not part of the program: the
hash type is a parameter with the functions the program calls on it. -/

namespace Siglog

abbrev Bytes := List UInt8

/-- The errors of the server that its core logic makes. -/
inductive Error where
  | database (e : String)
  | storage (e : String)
  | invalidPath (e : String)
  | notFound (e : String)
  | invalidEntry (e : String)
  | signing (e : String)
  | merkle (e : String)
  | config (e : String)
  | io (e : String)
  | base64 (e : String)
  | internal (e : String)
  | indexFull (e : String)
  | unauthorized
  | duplicate (index : ℕ)
  deriving DecidableEq, Repr

/-- The text of an error. -/
def Error.display : Error → String
  | .database e => "Database error: " ++ e
  | .storage e => "Storage error: " ++ e
  | .invalidPath e => "Invalid path: " ++ e
  | .notFound e => "Not found: " ++ e
  | .invalidEntry e => "Invalid entry: " ++ e
  | .signing e => "Signing error: " ++ e
  | .merkle e => "Merkle error: " ++ e
  | .config e => "Configuration error: " ++ e
  | .io e => "IO error: " ++ e
  | .base64 e => "Base64 decode error: " ++ e
  | .internal e => "Internal error: " ++ e
  | .indexFull e => "Index full: " ++ e
  | .unauthorized => "Unauthorized"
  | .duplicate index => s!"Entry already exists at index {index}"

/-- Thirty-two bytes. -/
abbrev Bytes32 := { b : Bytes // b.length = 32 }

instance Bytes32.lawfulBEq : LawfulBEq Bytes32 := inferInstance

theorem length_zeros : (List.replicate 32 (0 : UInt8)).length = 32 := List.length_replicate

/-- `u32::to_be_bytes`. -/
def u32BeBytes (n : ℕ) : Bytes := [24, 16, 8, 0].map fun s => UInt8.ofNat (n / 2 ^ s)

/-- `u64::to_be_bytes`. -/
def u64BeBytes (n : ℕ) : Bytes :=
  [56, 48, 40, 32, 24, 16, 8, 0].map fun s => UInt8.ofNat (n / 2 ^ s)

/-- SHA-256 on bytes. -/
class Sha256 where
  digest : Bytes → Bytes32

export Sha256 (digest)

/-- `Sha256Hash` and the two hash functions of a Merkle tree. -/
class Sha256Hash (H : Type) where
  fromBytes : Bytes32 → H
  asBytes : H → Bytes32
  hashLeaf : Bytes → H
  hashChildren : H → H → H

export Sha256Hash (hashLeaf hashChildren)

/-- A hash is its thirty-two bytes. -/
class LawfulSha256Hash (H : Type) [Sha256Hash H] : Prop where
  fromBytes_asBytes : ∀ h : H, Sha256Hash.fromBytes (Sha256Hash.asBytes h) = h
  asBytes_fromBytes : ∀ b : Bytes32, Sha256Hash.asBytes (Sha256Hash.fromBytes b : H) = b

section

variable {H : Type} [Sha256Hash H]

/-- The hash of the empty string. -/
def emptyRootHash : H :=
  Sha256Hash.fromBytes
    ⟨[0xe3, 0xb0, 0xc4, 0x42, 0x98, 0xfc, 0x1c, 0x14, 0x9a, 0xfb, 0xf4, 0xc8, 0x99, 0x6f, 0xb9,
      0x24, 0x27, 0xae, 0x41, 0xe4, 0x64, 0x9b, 0x93, 0x4c, 0xa4, 0x95, 0x99, 0x1b, 0x78, 0x52,
      0xb8, 0x55], rfl⟩

instance : Rfc.NodeHash H where
  combine := hashChildren
  empty := emptyRootHash

theorem combine_eq (a b : H) : Rfc.combine a b = hashChildren a b := rfl

theorem mth_empty : Rfc.mth ([] : List H) = emptyRootHash := Rfc.mth_nil

end

/-- Hashes as terms: two nodes are equal only if their children are. -/
inductive FreeHash where
  | bytes (b : Bytes32)
  | leaf (data : Bytes)
  | node (left right : FreeHash)
  deriving DecidableEq

instance : Sha256Hash FreeHash where
  fromBytes := .bytes
  asBytes
    | .bytes b => b
    | _ => ⟨List.replicate 32 0, length_zeros⟩
  hashLeaf := .leaf
  hashChildren := .node

theorem freeHash_injective : Function.Injective2 (hashChildren (H := FreeHash)) := by
  intro a b c d h
  cases h
  exact ⟨rfl, rfl⟩

/-- A hash of thirty-two bytes that keeps the start of what it hashes. It is there to
run the model. -/
def StartHash : Type := Bytes32
  deriving DecidableEq

namespace StartHash

/-- The first bytes, padded to the length of a hash. -/
def start (b : Bytes) : StartHash :=
  ⟨b.take 32 ++ List.replicate (32 - b.length) 0, by simp; omega⟩

@[reducible] def sha256 : Sha256 := ⟨fun b => start b⟩

instance : Sha256Hash StartHash where
  fromBytes b := b
  asBytes b := b
  hashLeaf data := start (0 :: data)
  hashChildren a b := start (1 :: a.val.take 16 ++ b.val)

instance : LawfulSha256Hash StartHash := ⟨fun _ => rfl, fun _ => rfl⟩

end StartHash

section

variable {H : Type} [Sha256Hash H]

/-- A log entry. Its leaf hash is computed when it is made. -/
structure Entry (H : Type) [Sha256Hash H] where
  data : Bytes
  leafHash : H
  leafHash_eq : leafHash = hashLeaf data
  deriving DecidableEq

namespace Entry

def new (data : Bytes) : Entry H := ⟨data, hashLeaf data, rfl⟩

@[simp] theorem data_new (data : Bytes) : (new data : Entry H).data = data := rfl

end Entry

end

end Siglog

import Siglog.Types
import Siglog.Text.Base64
import Siglog.Text.Utf8

/-! Checkpoints as signed notes. The body has the origin, the size and the root hash,
each on a line; a blank line and the signature lines follow. Ed25519 and SHA-256 are
parameters. -/

namespace Siglog.Note

open Text

abbrev Bytes64 := { b : Bytes // b.length = 64 }

abbrev KeyId := { b : Bytes // b.length = 4 }

/-- Ed25519 keys and the hash of key identities. -/
class NoteCrypto (SK : Type) (VK : outParam Type) where
  verifyingKey : SK → VK
  keyBytes : VK → Bytes32
  sign : SK → Bytes → Bytes64
  verifyStrict : VK → Bytes → Bytes64 → Except String Unit
  sha256 : Bytes → Bytes32

/-- A key accepts its own signatures. -/
class LawfulNoteCrypto (SK : Type) (VK : outParam Type) [NoteCrypto SK VK] : Prop where
  verify_sign : ∀ (sk : SK) (m : Bytes),
    NoteCrypto.verifyStrict SK (NoteCrypto.verifyingKey sk) m (NoteCrypto.sign sk m) = .ok ()

/-- A key whose signature is the start of the message. It is there to run the model. -/
inductive StartKey where
  | mk
  deriving DecidableEq

namespace StartKey

def start (k : ℕ) (b : Bytes) : { b : Bytes // b.length = k } :=
  ⟨b.take k ++ List.replicate (k - b.length) 0, by simp; omega⟩

instance : NoteCrypto StartKey StartKey where
  verifyingKey k := k
  keyBytes _ := start 32 []
  sign _ m := start 64 m
  verifyStrict _ m signature := if signature = start 64 m then .ok () else .error "signature error"
  sha256 b := start 32 b

instance : LawfulNoteCrypto StartKey StartKey := ⟨fun _ _ => if_pos rfl⟩

end StartKey

def algEd25519 : UInt8 := 0x01

def algCosignatureV1 : UInt8 := 0x04

/-- The start of a signature line. -/
def sigPrefix : Str := ['—', ' ']

def cosignatureV1Message (timestamp : UInt64) (body : Str) : Str :=
  "cosignature/v1\ntime ".toList ++ decimal timestamp.toNat ++ newline :: body

/-- Log origin string. -/
structure Origin where
  str : Str
  ne_nil : str ≠ []
  newline : '\n' ∉ str
  carriageReturn : '\r' ∉ str

namespace Origin

def new (origin : Str) : Except Error Origin :=
  if h : origin = [] then .error (.config "origin cannot be empty")
  else if h' : '\n' ∈ origin ∨ '\r' ∈ origin then
    .error (.config "origin cannot contain newline or carriage return characters")
  else .ok ⟨origin, h, fun hn => h' (.inl hn), fun hr => h' (.inr hr)⟩

theorem new_str (o : Origin) : new o.str = .ok o := by
  rw [new, dif_neg o.ne_nil, dif_neg]
  rintro (h | h)
  · exact o.newline h
  · exact o.carriageReturn h

end Origin

/-- The origin of the examples. -/
def logOrigin : Origin := ⟨"log".toList, by decide, by decide, by decide⟩

/-- An unsigned checkpoint. -/
structure Checkpoint (H : Type) where
  origin : Origin
  size : ℕ
  rootHash : H

/-- A single signature on a checkpoint. A cosignature has a timestamp. -/
structure CheckpointSignature where
  name : Str
  keyId : KeyId
  signature : Bytes64
  timestamp : Option UInt64
  deriving DecidableEq

/-- A checkpoint with its signatures. -/
structure CosignedCheckpoint (H : Type) where
  checkpoint : Checkpoint H
  signatures : List CheckpointSignature

structure CheckpointSigner (SK : Type) where
  name : Str
  signingKey : SK
  keyId : KeyId

/-- The signer of the examples. -/
def startSigner : CheckpointSigner StartKey := ⟨"log".toList, .mk, StartKey.start 4 []⟩

def Checkpoint.toBody {H : Type} [Sha256Hash H] (cp : Checkpoint H) : Str :=
  cp.origin.str ++ newline :: (decimal cp.size ++ newline ::
    (Base64.encode (Sha256Hash.asBytes cp.rootHash).val ++ [newline]))

/-! ### Signature lines -/

/-- `to_be_bytes` -/
def toBeBytes (ts : UInt64) : Bytes :=
  [56, 48, 40, 32, 24, 16, 8, 0].map fun s => UInt8.ofNat (ts.toNat / 2 ^ s)

/-- `from_be_bytes` -/
def fromBeBytes (b : Bytes) : UInt64 := UInt64.ofNat (b.foldl (fun acc x => acc * 256 + x.toNat) 0)

namespace CheckpointSignature

/-- The bytes of a signature line. -/
def sigData (sig : CheckpointSignature) : Bytes :=
  sig.keyId.val ++ ((sig.timestamp.map toBeBytes).getD [] ++ sig.signature.val)

def toLine (sig : CheckpointSignature) : Str :=
  sigPrefix ++ (sig.name ++ ' ' :: Base64.encode sig.sigData)

def ofData (name : Str) (data : Bytes) : Except Error CheckpointSignature :=
  if h : data.length = 68 then
    .ok ⟨name, ⟨data.take 4, by rw [List.length_take]; omega⟩,
      ⟨data.drop 4, by rw [List.length_drop]; omega⟩, none⟩
  else if h : data.length = 76 then
    .ok ⟨name, ⟨data.take 4, by rw [List.length_take]; omega⟩,
      ⟨data.drop 12, by rw [List.length_drop]; omega⟩, some (fromBeBytes ((data.drop 4).take 8))⟩
  else .error (.config
    s!"invalid signature length: expected 68 (plain) or 76 (cosignature/v1), got {data.length}")

variable [Base64.DecodeErrors]

def fromLine (line : Str) : Except Error CheckpointSignature :=
  match stripPrefix sigPrefix (trim line) with
  | none => .error (.config "signature line must start with '— '")
  | some rest =>
    match splitOnce [' '] rest with
    | none => .error (.config "invalid signature line format")
    | some (name, text) =>
      match Base64.decode text with
      | none => .error (.config ("invalid signature base64: " ++ Base64.DecodeErrors.display text))
      | some data => ofData name data

end CheckpointSignature

/-! ### Signing -/

section

variable {SK VK H : Type} [NoteCrypto SK VK] [Sha256Hash H]

/-- Hash = SHA256(name + "\n" + alg_byte + public_key)[:4] -/
def computeKeyIdWithAlg (SK : Type) [NoteCrypto SK VK] (name : Str) (key : VK) (alg : UInt8) :
    KeyId :=
  ⟨(NoteCrypto.sha256 SK (utf8 name ++ (10 :: alg :: (NoteCrypto.keyBytes SK key).val))).val.take 4,
    by
    rw [List.length_take, (NoteCrypto.sha256 SK _).property]; rfl⟩

namespace CheckpointSigner

def cosignatureV1KeyId (signer : CheckpointSigner SK) : KeyId :=
  computeKeyIdWithAlg SK signer.name (NoteCrypto.verifyingKey signer.signingKey) algCosignatureV1

def cosignV1 (signer : CheckpointSigner SK) (cp : Checkpoint H) (timestamp : UInt64) :
    CheckpointSignature :=
  ⟨signer.name, signer.cosignatureV1KeyId,
    NoteCrypto.sign signer.signingKey (utf8 (cosignatureV1Message timestamp cp.toBody)),
    some timestamp⟩

/-- `now` is the result of the system clock. -/
def cosignNow (signer : CheckpointSigner SK) (now : Except String UInt64) (cp : Checkpoint H) :
    Except Error CheckpointSignature :=
  match now with
  | .error e => .error (.signing e)
  | .ok timestamp => .ok (signer.cosignV1 cp timestamp)

end CheckpointSigner

namespace CosignedCheckpoint

/-- A checkpoint with the signature of its log. -/
def new (cp : Checkpoint H) (signer : CheckpointSigner SK) : CosignedCheckpoint H :=
  ⟨cp, [⟨signer.name, signer.keyId, NoteCrypto.sign signer.signingKey (utf8 cp.toBody), none⟩]⟩

end CosignedCheckpoint

end

/-! ### The text of a note -/

namespace CosignedCheckpoint

variable {H : Type} [Sha256Hash H]

def toText (cosigned : CosignedCheckpoint H) : Str :=
  trimEnd cosigned.checkpoint.toBody ++ newline :: newline ::
    cosigned.signatures.flatMap fun sig => sig.toLine ++ [newline]

variable [Base64.DecodeErrors]

/-- The three lines of a body. -/
def parseBody (origin size root : Str) : Except Error (Checkpoint H) := do
  let origin ← Origin.new origin
  let size ← match parseU64 size with
    | .ok size => .ok size
    | .error e => .error (.config ("invalid tree size: " ++ e.display))
  let rootHashBytes ← match Base64.decode root with
    | some bytes => .ok bytes
    | none => .error (.config ("invalid root hash base64: " ++ Base64.DecodeErrors.display root))
  if h : rootHashBytes.length = 32 then .ok ⟨origin, size, Sha256Hash.fromBytes ⟨rootHashBytes, h⟩⟩
  else .error (.config s!"invalid root hash length: expected 32, got {rootHashBytes.length}")

/-- The signatures of a section. Other lines are skipped. -/
def parseSignatures (section_ : Str) : Except Error (List CheckpointSignature) :=
  ((lines section_).filter fun line => sigPrefix.isPrefixOf line).mapM CheckpointSignature.fromLine

def fromText (text : Str) : Except Error (CosignedCheckpoint H) :=
  match splitOnce [newline, newline] (trim text) with
  | none => .error (.config "checkpoint must have body and signatures separated by blank line")
  | some (body, sigSection) =>
    match lines body with
    | origin :: size :: root :: _ => do
      let checkpoint ← parseBody origin size root
      let signatures ← parseSignatures sigSection
      if signatures = [] then .error (.config "checkpoint must have at least one signature")
      else .ok ⟨checkpoint, signatures⟩
    | _ => .error (.config "checkpoint body must have at least 3 lines")

end CosignedCheckpoint

end Siglog.Note

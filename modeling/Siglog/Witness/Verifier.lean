import Siglog.Checkpoint.Signer

/-! Verification of the signatures on a checkpoint: the log's own, and the
cosignatures of witnesses. -/

namespace Siglog.Witness

open Note (CheckpointSignature CosignedCheckpoint KeyId NoteCrypto)
open Text (Str utf8)

/-- Configuration for a known log. -/
structure LogConfig (VK : Type) where
  origin : Str
  url : Option Str
  verifyingKey : VK
  keyId : KeyId
  keyName : Str

variable {SK VK H : Type} [NoteCrypto SK VK] [Sha256Hash H]

def verifyStrict (SK : Type) [NoteCrypto SK VK] (key : VK) (message : Bytes)
    (signature : Note.Bytes64) :
    Except Error Unit :=
  match NoteCrypto.verifyStrict SK key message signature with
  | .ok () => .ok ()
  | .error e => .error (.signing e)

namespace LogConfig

def verifySignature (SK : Type) [NoteCrypto SK VK] (config : LogConfig VK)
    (signature : CheckpointSignature) (body : Bytes) : Except Error Unit :=
  if signature.timestamp.isSome ∨ signature.keyId ≠ config.keyId ∨
    signature.name ≠ config.keyName then
    .error (.signing "signature key identity mismatch")
  else verifyStrict SK config.verifyingKey body signature.signature

/-- Verify a witness signature, plain or with a timestamp. -/
def verifyCosignature (SK : Type) [NoteCrypto SK VK] (config : LogConfig VK)
    (signature : CheckpointSignature) (body : Str) : Except Error Unit :=
  let alg := if signature.timestamp.isSome then Note.algCosignatureV1 else Note.algEd25519
  if signature.keyId ≠ Note.computeKeyIdWithAlg SK config.keyName config.verifyingKey alg ∨
      signature.name ≠ config.keyName then
    .error (.signing "signature key identity mismatch")
  else
    let message := match signature.timestamp with
      | some ts => Note.cosignatureV1Message ts body
      | none => body
    verifyStrict SK config.verifyingKey (utf8 message) signature.signature

end LogConfig

/-- The check of a `CheckpointVerifier`. -/
def verifyCheckpoint (SK : Type) [NoteCrypto SK VK] (config : LogConfig VK)
    (cosigned : CosignedCheckpoint H) :
    Except Error Unit :=
  if cosigned.checkpoint.origin.str ≠ config.origin then
    .error (.config ("origin mismatch: expected '" ++ String.ofList config.origin ++ "', got '" ++
      String.ofList cosigned.checkpoint.origin.str ++ "'"))
  else
    let body := utf8 cosigned.checkpoint.toBody
    match cosigned.signatures.find? fun s => (config.verifySignature SK s body).isOk with
    | none =>
      .error (.config ("no signature from log '" ++ String.ofList config.keyName ++ "' found"))
    | some logSig => config.verifySignature SK logSig body

end Siglog.Witness

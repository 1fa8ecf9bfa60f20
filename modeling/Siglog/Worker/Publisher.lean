import Siglog.Witness.Request
import Siglog.Worker.LogRuns

/-! The checkpoint publisher. A cycle signs the tree head of the log, collects the
cosignatures of the witnesses, and publishes the checkpoint if there are enough.
For each external witness it remembers the size that the witness was last known to
have, from which the next consistency proof starts. -/

namespace Siglog.Worker

open Concurrent (Prog)
open Note (NoteCrypto Origin Checkpoint CheckpointSignature CheckpointSigner CosignedCheckpoint)
open Storage (Op LogState Server perform TileStorage.reader)
open Text (Str trim parseU64 utf8 fromUtf8)
open Text.Base64 (DecodeErrors)
open Witness (LogConfig Response HttpTexts requestBody)

/-- Configuration for an external witness service. Its name is that of its key. -/
structure ExternalWitness (VK : Type) where
  name : Str
  url : Str
  key : LogConfig VK
  name_eq : name = key.keyName

/-- The external witness of the examples. -/
def startWitness : ExternalWitness Note.StartKey :=
  ⟨"witness".toList, "http://witness".toList,
    ⟨[], none, .mk, Note.StartKey.start 4 [], "witness".toList⟩, rfl⟩

/-- The last published checkpoint. -/
structure LastPublished (H : Type) where
  size : ℕ
  rootHash : Option H
  deriving DecidableEq

/-- What a cycle does to the outside and to the memory of the publisher. -/
inductive PublishOp (H : Type) where
  | store (o : Op H)
  | now
  | getSize (url : Str)
  | setSize (url : Str) (size : ℕ)
  | getLastPublished
  | setLastPublished (last : LastPublished H)
  | post (url : Str) (body : Bytes)

abbrev PublishOp.Answer (H : Type) : PublishOp H → Type
  | .store o => o.Answer H
  | .now => Except String UInt64
  | .getSize _ => ℕ
  | .setSize _ _ => Unit
  | .getLastPublished => LastPublished H
  | .setLastPublished _ => Unit
  | .post _ _ => Except String Response

/-- A program of the publisher. -/
abbrev Publisher (H α : Type) := Prog (PublishOp H) (PublishOp.Answer H) (Fault Error) α

variable {SK VK H : Type}

/-- A program of the server as a part of the publisher. -/
def onStore {α : Type} (p : Server H α) : Publisher H α := p.translate fun o => .call (.store o)

theorem onStore_bind {α β : Type} (p : Server H α) (f : α → Server H β) :
    onStore (p.bind f) = (onStore p).bind fun a => onStore (f a) := Prog.translate_bind _ p f

/-! Last known size for each witness. -/

def ExternalWitnessState.getSize (url : Str) : Publisher H ℕ :=
  Prog.call (PublishOp.getSize (H := H) url)

def ExternalWitnessState.setSize (url : Str) (size : ℕ) : Publisher H Unit :=
  Prog.call (PublishOp.setSize (H := H) url size)

def LastPublished.get : Publisher H (LastPublished H) :=
  Prog.call (PublishOp.getLastPublished (H := H))

def LastPublished.set (last : LastPublished H) : Publisher H Unit :=
  Prog.call (PublishOp.setLastPublished last)

def post (url : Str) (body : Bytes) : Publisher H Response :=
  (Prog.call (PublishOp.post (H := H) url body)).bind fun sent =>
    Prog.ofExcept (sent.mapError fun e => .err (.config ("witness request failed: " ++ e)))

/-- A `match` on a result. A panic is not a result. -/
def caught {α : Type} (p : Publisher H α) : Publisher H (Except Error α) := do
  match ← p.attempt with
  | .ok a => .pure (.ok a)
  | .error (.err e) => .pure (.error e)
  | .error .panic => .fail .panic

/-! ### Calling a witness -/

/-- The URL of requests: slashes at the end of the configured one are dropped. -/
def endpoint (url : Str) : Str :=
  (url.reverse.dropWhile (· = '/')).reverse ++ "/add-checkpoint".toList

def maxResponse : ℕ := 4096

/-- The text of a response, of which only so much is read. -/
def responseText [HttpTexts] (response : Response) : Except Error Str :=
  if maxResponse <
    response.body.length then .error (.invalidEntry "HTTP response exceeds size limit")
  else
    match fromUtf8 response.body with
    | none => .error (.invalidEntry (HttpTexts.utf8Error response.body))
    | some body => .ok body

section

variable [NoteCrypto SK VK] [Sha256Hash H] [DecodeErrors] [HttpTexts]

/-- What a response means, apart from what it tells of the size of the witness. -/
def checkResponse (SK : Type) [NoteCrypto SK VK] (witness : ExternalWitness VK)
    (checkpoint : CosignedCheckpoint H) (status : ℕ) (body : Str) : Except Error Str :=
  if ¬ (200 ≤ status ∧ status < 300) then
    .error (.config
      ("witness returned " ++ HttpTexts.status status ++ ": " ++ String.ofList (body.take 200)))
  else do
    let signature ← CheckpointSignature.fromLine (trim body)
    witness.key.verifyCosignature SK signature checkpoint.checkpoint.toBody
    .ok body

/-- A conflict is only a retry hint, never evidence of witnessing. -/
def noteConflict (url : Str) (body : Str) : Publisher H Str := do
  match parseU64 (trim body) with
  | .ok size => ExternalWitnessState.setSize url size
  | .error _ => .pure ()
  .fail (.err (.config ("witness conflict: current size is " ++ String.ofList (trim body))))

/-- What follows a response. -/
def readResponse (SK : Type) [NoteCrypto SK VK] (witness : ExternalWitness VK)
    (checkpoint : CosignedCheckpoint H) (response : Response) : Publisher H Str := do
  let body ← Prog.ofExcept ((responseText response).mapError Fault.err)
  if response.status = 409 then noteConflict witness.url body
  else Prog.ofExcept ((checkResponse SK witness checkpoint response.status body).mapError Fault.err)

/-- Call an external witness service to get its signature line. -/
def callExternalWitness (SK : Type) [NoteCrypto SK VK] (witness : ExternalWitness VK)
    (checkpoint : CosignedCheckpoint H) (oldSize : ℕ) (proof : List H) : Publisher H Str := do
  let response ← post (endpoint witness.url) (utf8 (requestBody oldSize proof checkpoint.toText))
  readResponse SK witness checkpoint response

def addExternalSignatureLine (cosigned : CosignedCheckpoint H) (expectedName line : Str) :
    Except Error (CosignedCheckpoint H) := do
  let sig ← CheckpointSignature.fromLine line
  if sig.name ≠ expectedName then
    .error (.config ("witness name mismatch: expected '" ++ String.ofList expectedName ++
      "', got '" ++ String.ofList sig.name ++ "'"))
  else if cosigned.signatures.any fun existing => existing.name = sig.name ∧
      existing.keyId = sig.keyId ∧ existing.signature = sig.signature then
    .ok cosigned
  else .ok { cosigned with signatures := cosigned.signatures ++ [sig] }

/-! ### A cycle -/

/-- The signatures collected so far, and the external witnesses counted among them. -/
structure Collected (H : Type) where
  cosigned : CosignedCheckpoint H
  signedKeys : List Bytes32
  signedNames : List Str
  externalSignatureCount : ℕ

/-- Witnesses count once for each key and each name. -/
def Collected.count (c : Collected H) (publicKey : Bytes32) (name : Str) : Collected H :=
  if publicKey ∈ c.signedKeys then c
  else if name ∈ c.signedNames then { c with signedKeys := publicKey :: c.signedKeys }
  else ⟨c.cosigned, publicKey :: c.signedKeys, name :: c.signedNames, c.externalSignatureCount + 1⟩

omit [Sha256Hash H] [DecodeErrors] [HttpTexts] in
theorem Collected.cosigned_count (c : Collected H) (publicKey : Bytes32) (name : Str) :
    (c.count publicKey name).cosigned = c.cosigned := by
  unfold Collected.count
  split_ifs <;> rfl

def consistencyProof (oldSize newSize : ℕ) : Publisher H (List H) :=
  if oldSize ≠ 0 ∧ oldSize ≠ newSize then
    (Merkle.generateConsistencyProofSimple oldSize newSize).translate fun o =>
      onStore (TileStorage.reader o)
  else .pure []

def witnessExternally (SK : Type) [NoteCrypto SK VK] (newSize : ℕ) (extWitness : ExternalWitness VK)
    (c : Collected H) :
    Publisher H (Collected H) := do
  let oldSize ← ExternalWitnessState.getSize extWitness.url
  match ← caught (consistencyProof oldSize newSize) with
  | .error _ => .pure c
  | .ok proof => do
    match ← caught (callExternalWitness SK extWitness c.cosigned oldSize proof) with
    | .error _ => .pure c
    | .ok signatureLine => do
      match addExternalSignatureLine c.cosigned extWitness.name signatureLine with
      | .error _ => .pure c
      | .ok cosigned => do
        ExternalWitnessState.setSize extWitness.url newSize
        .pure ({ c with cosigned }.count (NoteCrypto.keyBytes SK extWitness.key.verifyingKey)
          extWitness.name)

/-- Call external witnesses and merge their signatures. -/
def witnessAll (SK : Type) [NoteCrypto SK VK] (newSize : ℕ) :
    List (ExternalWitness VK) → Collected H →
    Publisher H (Collected H)
  | [], c => .pure c
  | extWitness :: externalWitnesses, c => do
    let c ← witnessExternally SK newSize extWitness c
    witnessAll SK newSize externalWitnesses c

/-- Add in-process witness signatures. -/
def cosignAll :
    List (CheckpointSigner SK) → CosignedCheckpoint H → Publisher H (CosignedCheckpoint H)
  | [], cosigned => .pure cosigned
  | witness :: witnesses, cosigned => do
    let now ← Prog.call (PublishOp.now (H := H))
    let sig ← Prog.ofExcept ((witness.cosignNow now cosigned.checkpoint).mapError Fault.err)
    cosignAll witnesses { cosigned with signatures := cosigned.signatures ++ [sig] }

/-- The root of the tree. An empty tree has one before it is written down. -/
def headRoot (state : LogState H) : Option H :=
  state.rootHash.or (if state.integratedSize = 0 then some emptyRootHash else none)

omit [DecodeErrors] [HttpTexts] in
/-- The log always has a root to publish. -/
theorem headRoot_getLogState {s : LogSystem H} (h : Inv s) :
    headRoot s.db.getLogState = some (Rfc.mth s.tree) := by
  change (s.db.logState.rootHash.or (if s.size = 0 then some emptyRootHash else none)) = _
  rw [h.root]
  split_ifs with h0
  · rw [LogSystem.tree, h0, List.take_zero, mth_empty]
    rfl
  · rfl

variable [DecidableEq H]

/-- Publish a tree head, unless nothing has changed. -/
def publishHead (signer : CheckpointSigner SK) (witnesses : List (CheckpointSigner SK))
    (externalWitnesses : List (ExternalWitness VK)) (witnessQuorum : Option ℕ) (origin : Origin)
    (newSize : ℕ) (rootHash : H) : Publisher H Unit := do
  let last ← LastPublished.get
  if last = ⟨newSize, some rootHash⟩ then .pure ()
  else do
    let cosigned ← cosignAll witnesses (CosignedCheckpoint.new ⟨origin, newSize, rootHash⟩ signer)
    let c ← witnessAll SK newSize externalWitnesses ⟨cosigned, [], [], 0⟩
    if c.externalSignatureCount < witnessQuorum.getD externalWitnesses.length then .pure ()
    else do
      onStore (perform (.writeObject Api.checkpointPath (utf8 c.cosigned.toText)))
      LastPublished.set ⟨newSize, some rootHash⟩

def publishCheckpoint (signer : CheckpointSigner SK) (witnesses : List (CheckpointSigner SK))
    (externalWitnesses : List (ExternalWitness VK)) (witnessQuorum : Option ℕ) (origin : Origin) :
    Publisher H Unit := do
  let state ← onStore (perform .getLogState)
  match headRoot state with
  | none => .pure ()
  | some rootHash =>
    publishHead signer witnesses externalWitnesses witnessQuorum origin state.integratedSize
      rootHash

theorem publishCheckpoint_eq (signer : CheckpointSigner SK) (witnesses : List (CheckpointSigner SK))
    (externalWitnesses : List (ExternalWitness VK)) (witnessQuorum : Option ℕ) (origin : Origin) :
    (publishCheckpoint signer witnesses externalWitnesses witnessQuorum origin : Publisher H Unit) =
      (onStore (perform .getLogState)).bind fun state => (headRoot state).elim (.pure ())
        (publishHead signer witnesses externalWitnesses witnessQuorum origin
          state.integratedSize) := by
  rw [publishCheckpoint, Prog.bind_eq]
  congr 1
  funext state
  cases headRoot state <;> rfl

end

end Siglog.Worker

import Siglog.Witness.Verifier
import Siglog.Witness.State
import Siglog.Witness.Proof

/-! The witness. A request is checked against the persisted state of its log; the new
state is persisted before the cosignature is made. -/

namespace Siglog.Witness

open Concurrent (Prog)
open Note (CheckpointSignature CheckpointSigner CosignedCheckpoint NoteCrypto)
open Text (Str)
open Text.Base64 (DecodeErrors)

set_option linter.dupNamespace false in
structure Witness (SK VK : Type) where
  signer : CheckpointSigner SK
  logs : List (LogConfig VK)

/-- Request to add a checkpoint for witnessing. -/
structure AddCheckpointRequest (H : Type) where
  oldSize : ℕ
  proof : List H
  checkpoint : Str

inductive WitnessError where
  | conflict (size : ℕ)
  | unknownLog (origin : Str)
  | invalidSignature (e : String)
  | invalidProof (e : String)
  | badRequest (e : String)
  | internal (e : String)
  deriving DecidableEq

variable {SK VK H : Type} [NoteCrypto SK VK] [Sha256Hash H] [DecodeErrors]

/-- Parse and verify the checkpoint, and validate the sizes. -/
def checkRequest (witness : Witness SK VK) (request : AddCheckpointRequest H) :
    Except WitnessError (CosignedCheckpoint H) :=
  match CosignedCheckpoint.fromText (H := H) request.checkpoint with
  | .error e => .error (.badRequest ("invalid checkpoint: " ++ e.display))
  | .ok checkpoint =>
    let origin := checkpoint.checkpoint.origin.str
    match witness.logs.find? fun l => l.origin = origin with
    | none => .error (.unknownLog origin)
    | some logConfig =>
      match verifyCheckpoint SK logConfig checkpoint with
      | .error e => .error (.invalidSignature e.display)
      | .ok () =>
        let newSize := checkpoint.checkpoint.size
        if i64Max < newSize then .error (.badRequest "tree too large")
        else if newSize < request.oldSize then
          .error (.badRequest s!"old_size ({request.oldSize}) > checkpoint size ({newSize})")
        else .ok checkpoint

variable [DecidableEq H]

omit [DecodeErrors] in
/-- Check for conflicts and verify the proof, unless the log starts from empty. -/
def checkState (request : AddCheckpointRequest H) (newSize : ℕ) (newRoot : H)
    (state : WitnessedState H) :
    Except (Fault WitnessError) Unit :=
  if request.oldSize ≠ state.size then .error (.err (.conflict state.size))
  else if newSize = 0 ∧ newRoot ≠ state.rootHash then
    .error (.err (.invalidProof "invalid empty root"))
  else if 0 < state.size then
    if newSize < state.size then
      .error (.err (.badRequest s!"checkpoint size ({newSize}) < witnessed size ({state.size})"))
    else if newSize = state.size then
      if newRoot ≠ state.rootHash then
        .error (.err (.invalidProof "same size but different roots - split view detected"))
      else .ok ()
    else
      match verifyConsistency state.size newSize state.rootHash newRoot request.proof with
      | .ok () => .ok ()
      | .error (.err e) => .error (.err (.invalidProof e.display))
      | .error .panic => .error .panic
  else if request.proof ≠ [] then .error (.err (.invalidProof "non-empty proof for empty tree"))
  else .ok ()

/-- Persist the verified state before issuing a cosignature. -/
def persistAndSign (witness : Witness SK VK) (request : AddCheckpointRequest H)
    (checkpoint : CosignedCheckpoint H)
    (state : WitnessedState H) : Store H (Fault WitnessError) CheckpointSignature := do
  let cp := checkpoint.checkpoint
  let updated ←
      (WitnessStateStore.update state cp.size cp.rootHash request.checkpoint).mapErr fun e =>
    .err (.internal ("failed to update state: " ++ e.display))
  if updated then do
    let now ← Prog.call StoreOp.now
    (Prog.ofExcept (witness.signer.cosignNow now cp)).mapErr fun e => .err (.internal e.display)
  else do
    let current ← (WitnessStateStore.getOrInit cp.origin.str).mapErr fun e =>
        .err (.internal e.display)
    .fail (.err (.conflict current.size))

def addCheckpoint (witness : Witness SK VK) (request : AddCheckpointRequest H) :
    Store H (Fault WitnessError) CheckpointSignature := do
  let checkpoint ← (Prog.ofExcept (checkRequest witness request)).mapErr Fault.err
  let cp := checkpoint.checkpoint
  let state ← (WitnessStateStore.getOrInit cp.origin.str).mapErr fun e =>
    .err (.internal ("failed to get state: " ++ e.display))
  Prog.ofExcept (checkState request cp.size cp.rootHash state)
  persistAndSign witness request checkpoint state

/-- The part of `addCheckpoint` before the state is updated. -/
def admission (witness : Witness SK VK) (request : AddCheckpointRequest H) :
    Store H (Fault WitnessError) (CosignedCheckpoint H × WitnessedState H) := do
  let checkpoint ← (Prog.ofExcept (checkRequest witness request)).mapErr Fault.err
  let cp := checkpoint.checkpoint
  let state ← (WitnessStateStore.getOrInit cp.origin.str).mapErr fun e =>
    .err (.internal ("failed to get state: " ++ e.display))
  Prog.ofExcept (checkState request cp.size cp.rootHash state)
  .pure (checkpoint, state)

/-- What has been admitted goes on to the update. -/
theorem addCheckpoint_eq (witness : Witness SK VK) (request : AddCheckpointRequest H) :
    addCheckpoint witness request =
      (admission witness request).bind fun (checkpoint, state) =>
        persistAndSign witness request checkpoint state := by
  simp [addCheckpoint, admission, Prog.bind_assoc]

end Siglog.Witness

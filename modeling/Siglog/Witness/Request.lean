import Siglog.Witness.AddCheckpoint
import Siglog.Checkpoint.Text

/-! The text of a request to the witness and its handler. -/

namespace Siglog.Witness

open Concurrent (Prog)
open Note (NoteCrypto CosignedCheckpoint CheckpointSignature)
open Text (Str Line newline lines joinLines decimal trim parseU64 stripPrefix utf8 fromUtf8
  fromUtf8_utf8)
open Text.Base64 (DecodeErrors)

/-- The texts of the HTTP and the UTF-8 library. -/
class HttpTexts where
  utf8Error : Bytes → String
  status : ℕ → String

/-- Texts to run the model with. -/
@[reducible] def plainTexts : HttpTexts := ⟨fun _ => "invalid utf-8", fun _ => "error"⟩

/-- A response, without its headers. -/
structure Response where
  status : ℕ
  body : Bytes
  deriving DecidableEq

variable {SK VK H : Type}

namespace AddCheckpointRequest

/-! ### The parser -/

/-- The number on the first line. -/
def parseOldSize (oldLine : Str) : Except Error ℕ :=
  match stripPrefix "old ".toList oldLine with
  | none => .error (.invalidEntry ("expected 'old <size>', got '" ++ String.ofList oldLine ++ "'"))
  | some rest =>
    match parseU64 (trim rest) with
    | .error e => .error (.invalidEntry ("invalid old size: " ++ e.display))
    | .ok size => .ok size

def maxProofHashes : ℕ := 64

variable [Sha256Hash H] [DecodeErrors]

def parseHash (line : Str) : Except Error H :=
  match Text.Base64.decode line with
  | none => .error (.invalidEntry ("invalid proof hash base64: " ++ DecodeErrors.display line))
  | some bytes =>
    if h : bytes.length = 32 then .ok (Sha256Hash.fromBytes ⟨bytes, h⟩)
    else .error (.invalidEntry s!"proof hash must be 32 bytes, got {bytes.length}")

/-- Proof hashes until an empty line, and the lines after it. `count` hashes have been read
before. -/
def parseProof (count : ℕ) : List Str → Except Error (List H × List Str)
  | [] => .ok ([], [])
  | line :: rest =>
    if line = [] then .ok ([], rest)
    else if count ≥ maxProofHashes then
      .error (.invalidEntry s!"too many proof hashes: limit is {maxProofHashes}")
    else do
      let hash ← parseHash line
      let (hashes, rest) ← parseProof (count + 1) rest
      .ok (hash :: hashes, rest)

/-- Parse from the wire format. -/
def fromAscii (body : Str) : Except Error (AddCheckpointRequest H) :=
  match lines body with
  | [] => .error (.invalidEntry "missing old size line")
  | oldLine :: rest => do
    let oldSize ← parseOldSize oldLine
    let (proof, rest) ← parseProof 0 rest
    if joinLines rest = [] then .error (.invalidEntry "missing checkpoint")
    else .ok ⟨oldSize, proof, joinLines rest⟩

end AddCheckpointRequest

/-! ### The handler -/

/-- `witness_error_to_response` -/
def WitnessError.toResponse : WitnessError → Response
  | .conflict size => ⟨409, utf8 (decimal size ++ [newline])⟩
  | .unknownLog origin => ⟨404, utf8 ("unknown log: ".toList ++ origin)⟩
  | .invalidSignature msg => ⟨403, utf8 ("invalid signature: " ++ msg).toList⟩
  | .invalidProof msg => ⟨422, utf8 ("invalid proof: " ++ msg).toList⟩
  | .badRequest msg => ⟨400, utf8 ("bad request: " ++ msg).toList⟩
  | .internal _ => ⟨500, utf8 "internal error".toList⟩

variable [NoteCrypto SK VK] [Sha256Hash H] [DecidableEq H] [DecodeErrors] [HttpTexts]

/-- The handler of `POST /add-checkpoint`. -/
def Handlers.addCheckpoint (witness : Witness SK VK) (body : Bytes) :
    Store H (Fault WitnessError) Response :=
  match fromUtf8 body with
  | none => .pure ⟨400, utf8 ("invalid UTF-8: " ++ HttpTexts.utf8Error body).toList⟩
  | some bodyStr =>
    match AddCheckpointRequest.fromAscii (H := H) bodyStr with
    | .error e => .pure ⟨400, utf8 ("parse error: " ++ e.display).toList⟩
    | .ok request => do
      match ← (Siglog.Witness.addCheckpoint witness request).attempt with
      | .ok cosig => .pure ⟨200, utf8 cosig.toLine⟩
      | .error (.err e) => .pure e.toResponse
      | .error .panic => .fail .panic

/-! ### The text of a request -/

section

omit [DecidableEq H] [HttpTexts]

/-- What a publisher sends. -/
def requestBody (oldSize : ℕ) (proof : List H) (checkpoint : Str) : Str :=
  let proofLines := joinLines (proof.map fun h => Text.Base64.encode (Sha256Hash.asBytes h).val)
  if proofLines = [] then "old ".toList ++ (decimal oldSize ++ newline :: newline :: checkpoint)
  else "old ".toList ++
    (decimal oldSize ++ newline :: (proofLines ++ newline :: newline :: checkpoint))

omit [DecodeErrors] in
theorem requestBody_eq (oldSize : ℕ) (proof : List H) {notes : List Str} (h : notes ≠ []) :
    requestBody oldSize proof (joinLines notes ++ [newline]) =
      joinLines (("old ".toList ++ decimal oldSize) ::
        (proof.map (fun h => Text.Base64.encode (Sha256Hash.asBytes h).val) ++ [] :: notes)) ++
        [newline] := by
  have hnotes : joinLines ([] :: notes) = newline :: joinLines notes := Text.joinLines_cons h
  by_cases hproof : proof = []
  · subst hproof
    rw [requestBody, List.map_nil, if_pos (by rfl), List.nil_append, Text.joinLines_cons (by simp),
      hnotes]
    simp
  · have hne : (proof.map fun h => Text.Base64.encode (Sha256Hash.asBytes h).val) ≠ [] := by
      simpa using hproof
    have hjoin :
        joinLines (proof.map fun h => Text.Base64.encode (Sha256Hash.asBytes h).val) ≠ [] := by
      obtain ⟨hash, proof, rfl⟩ := List.exists_cons_of_ne_nil hproof
      have hfirst := Note.encode_hash_ne_nil hash
      by_cases hp : proof = []
      · subst hp
        rwa [List.map_singleton, Text.joinLines_singleton]
      · rw [List.map_cons, Text.joinLines_cons (by simpa using hp)]
        simp
    rw [requestBody, if_neg hjoin, Text.joinLines_cons (by simp),
      Text.joinLines_append hne (by simp), hnotes]
    simp

variable [LawfulSha256Hash H]

theorem parseHash_encode (hash : H) :
    AddCheckpointRequest.parseHash (Text.Base64.encode (Sha256Hash.asBytes hash).val) =
      .ok hash := by
  have hlen := (Sha256Hash.asBytes hash).property
  rw [AddCheckpointRequest.parseHash, Text.Base64.decode_encode]
  dsimp only
  rw [dif_pos hlen, LawfulSha256Hash.fromBytes_asBytes]

theorem parseProof_encode (count : ℕ) (proof : List H)
    (h : count + proof.length ≤ AddCheckpointRequest.maxProofHashes)
    (rest : List Str) :
    AddCheckpointRequest.parseProof count
      (proof.map (fun h => Text.Base64.encode (Sha256Hash.asBytes h).val) ++ [] :: rest) =
        .ok (proof, rest) := by
  induction proof generalizing count with
  | nil => rw [List.map_nil, List.nil_append, AddCheckpointRequest.parseProof, if_pos rfl]
  | cons hash proof ih =>
    rw [List.length_cons] at h
    rw [List.map_cons, List.cons_append, AddCheckpointRequest.parseProof,
      if_neg (Note.encode_hash_ne_nil hash),
      if_neg (by omega), parseHash_encode, ih (count + 1) (by omega)]
    rfl

theorem fromAscii_printable {cosigned : CosignedCheckpoint H} (h : cosigned.Printable) {oldSize : ℕ}
    (hold : oldSize < 2 ^ 64)
    {proof : List H} (hproof : proof.length ≤ AddCheckpointRequest.maxProofHashes) :
    AddCheckpointRequest.fromAscii (requestBody oldSize proof cosigned.toText) =
      .ok ⟨oldSize, proof, joinLines cosigned.noteLines⟩ := by
  have hnotes : cosigned.noteLines ≠ [] := by simp [CosignedCheckpoint.noteLines]
  have hold' : Line ("old ".toList ++ decimal oldSize) :=
    Text.line_append ⟨by decide, by decide⟩ (Text.line_of_solid (Text.solid_decimal oldSize))
  have hlines :
      lines (requestBody oldSize proof cosigned.toText) = ("old ".toList ++ decimal oldSize) ::
      (proof.map (fun h => Text.Base64.encode (Sha256Hash.asBytes h).val) ++ [] ::
        cosigned.noteLines) := by
    rw [CosignedCheckpoint.toText_eq h.signatures, requestBody_eq oldSize proof hnotes]
    apply Text.lines_terminated _ (by simp)
    intro l hl
    rcases List.mem_cons.mp hl with rfl | hl
    · exact hold'
    · rcases List.mem_append.mp hl with hl | hl
      · obtain ⟨hash, -, rfl⟩ := List.mem_map.mp hl
        exact Text.line_of_solid (Text.Base64.solid_encode _)
      · rcases List.mem_cons.mp hl with rfl | hl
        · exact ⟨by simp, by simp⟩
        · exact h.lines l hl
  have hsize :
      AddCheckpointRequest.parseOldSize ("old ".toList ++ decimal oldSize) = .ok oldSize := by
    rw [AddCheckpointRequest.parseOldSize, Text.stripPrefix_append]
    dsimp only
    rw [Text.trim_solid (Text.solid_decimal oldSize), Text.parseU64_decimal hold]
  obtain ⟨rest, hrest⟩ := CosignedCheckpoint.noteLines_start cosigned
  have htext : joinLines cosigned.noteLines ≠ [] := by
    rw [hrest]
    intro hnil
    exact cosigned.checkpoint.origin.ne_nil (List.append_eq_nil_iff.mp hnil).1
  rw [AddCheckpointRequest.fromAscii, hlines]
  dsimp only
  rw [hsize, parseProof_encode 0 proof (by omega)]
  simp only [bind, Except.bind]
  rw [if_neg htext]

/-- A request is read back from its text. -/
theorem fromAscii_requestBody {cosigned : CosignedCheckpoint H} (h : cosigned.Plain) {oldSize : ℕ}
    (hold : oldSize < 2 ^ 64)
    {proof : List H} (hproof : proof.length ≤ AddCheckpointRequest.maxProofHashes) :
    AddCheckpointRequest.fromAscii (requestBody oldSize proof cosigned.toText) =
      .ok ⟨oldSize, proof, joinLines cosigned.noteLines⟩ :=
  fromAscii_printable h.printable hold hproof

/-- The witness reads the request that the publisher wrote, and the checkpoint in it. -/
theorem request_wire_format (cosigned : CosignedCheckpoint H)
    (horigin : Text.trimStart cosigned.checkpoint.origin.str = cosigned.checkpoint.origin.str)
    (hsize : cosigned.checkpoint.size < 2 ^ 64)
    (hnames : ∀ sig ∈ cosigned.signatures, Text.Solid sig.name)
    (hne : cosigned.signatures ≠ []) (oldSize : ℕ) (hold : oldSize < 2 ^ 64) (proof : List H)
    (hproof : proof.length ≤ 64) :
    ∃ request : AddCheckpointRequest H,
      AddCheckpointRequest.fromAscii (requestBody oldSize proof cosigned.toText) = .ok request ∧
      request.oldSize = oldSize ∧ request.proof = proof ∧
      CosignedCheckpoint.fromText request.checkpoint = .ok cosigned := by
  have h : cosigned.Printable := ⟨horigin, hnames, hsize, hne⟩
  exact ⟨_, fromAscii_printable h hold hproof, rfl, rfl, h.fromText h.trim_note⟩

end

end Siglog.Witness

namespace Siglog.Witness

open Note (CheckpointSignature CosignedCheckpoint StartKey)
open Text.Base64 (DecodeErrors)

attribute [local instance] Text.Base64.plainErrors

/-- The empty tree, with some signatures. -/
def emptyWith (signatures : List CheckpointSignature) : CosignedCheckpoint StartHash :=
  ⟨⟨Note.logOrigin, 0, emptyRootHash⟩, signatures⟩

/-- A checkpoint without signatures is refused. -/
theorem unsigned_refused : ∃ cosigned : CosignedCheckpoint StartHash,
    Text.trimStart cosigned.checkpoint.origin.str = cosigned.checkpoint.origin.str ∧
    cosigned.checkpoint.size < 2 ^ 64 ∧
    (∀ sig ∈ cosigned.signatures, sig.name ≠ [] ∧ Text.Solid sig.name) ∧
    ((AddCheckpointRequest.fromAscii (H := StartHash)
      (requestBody 0 ([] : List StartHash) cosigned.toText)).toOption.bind
      fun request => (CosignedCheckpoint.fromText (H := StartHash)
        request.checkpoint).toOption).isNone = true := by
  refine ⟨emptyWith [], ?_, ?_, ?_, ?_⟩
  all_goals decide +kernel

theorem request_wire_format_one :
    ∃ (cosigned : CosignedCheckpoint StartHash) (request : AddCheckpointRequest StartHash),
    AddCheckpointRequest.fromAscii (requestBody 3 [(emptyRootHash : StartHash)] cosigned.toText) =
      .ok request ∧
    request.oldSize = 3 ∧ request.proof = [emptyRootHash] ∧
    CosignedCheckpoint.fromText request.checkpoint = .ok cosigned := by
  let sig : CheckpointSignature := ⟨"log".toList, StartKey.start 4 [], StartKey.start 64 [], none⟩
  refine ⟨emptyWith [sig], ?_⟩
  apply request_wire_format (emptyWith [sig])
  all_goals decide +kernel

end Siglog.Witness

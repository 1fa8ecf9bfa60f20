import Siglog.Checkpoint.Signer
import Siglog.Slice
import Siglog.Text.Hex

/-! Keys as notes. A key is exported with its name, its key id in hexadecimal, and its
algorithm and bytes in base64, with a plus sign between each two. Reading it back checks
the key id, and so the name. -/

namespace Siglog.Note

open Text
open Text.Hex (format08x parseU32)

/-- Ed25519 keys from bytes and back. -/
class NoteKeys (SK : Type) (VK : outParam Type) [NoteCrypto SK VK] where
  fromBytes : Bytes32 → SK
  asBytes : SK → Bytes32
  verifyingKeyFromBytes : Bytes32 → Except String VK
  isWeak : VK → Bool

/-- Keys are their bytes, and no key that signs is weak. -/
class LawfulNoteKeys (SK : Type) (VK : outParam Type) [NoteCrypto SK VK] [NoteKeys SK VK] :
    Prop where
  fromBytes_asBytes : ∀ sk : SK, NoteKeys.fromBytes (NoteKeys.asBytes sk) = sk
  asBytes_fromBytes : ∀ seed : Bytes32, NoteKeys.asBytes (NoteKeys.fromBytes seed : SK) = seed
  fromBytes_keyBytes :
    ∀ key : VK, NoteKeys.verifyingKeyFromBytes SK (NoteCrypto.keyBytes SK key) = .ok key
  keyBytes_fromBytes : ∀ {b : Bytes32} {key : VK}, NoteKeys.verifyingKeyFromBytes SK b = .ok key →
    NoteCrypto.keyBytes SK key = b
  not_weak : ∀ sk : SK, NoteKeys.isWeak SK (NoteCrypto.verifyingKey sk) = false

/-- A key that is its seed, and whose signature is the start of the message. It is there to run
the model. -/
inductive SeedKey where
  | mk (seed : Bytes32)

namespace SeedKey

def seed : SeedKey → Bytes32
  | mk seed => seed

instance : NoteCrypto SeedKey SeedKey where
  verifyingKey k := k
  keyBytes := seed
  sign _ m := StartKey.start 64 m
  verifyStrict _ m signature :=
    if signature = StartKey.start 64 m then .ok () else .error "signature error"
  sha256 b := StartKey.start 32 b

instance : LawfulNoteCrypto SeedKey SeedKey := ⟨fun _ _ => if_pos rfl⟩

instance : NoteKeys SeedKey SeedKey where
  fromBytes := mk
  asBytes := seed
  verifyingKeyFromBytes b := .ok (mk b)
  isWeak _ := false

instance : LawfulNoteKeys SeedKey SeedKey where
  fromBytes_asBytes := by rintro ⟨seed⟩; rfl
  asBytes_fromBytes _ := rfl
  fromBytes_keyBytes := by rintro ⟨seed⟩; rfl
  keyBytes_fromBytes := by
    intro b key h
    obtain rfl := Except.ok.inj h
    rfl
  not_weak _ := rfl

end SeedKey

/-- Get as big-endian u32. -/
def KeyId.asU32 (id : KeyId) : ℕ := beNat id.val

theorem KeyId.asU32_lt (id : KeyId) : id.asU32 < 2 ^ 32 := by
  have := beNat_lt id.val
  rwa [id.property] at this

/-- The number of the text of a key id. -/
def parseHash (hashHex : Str) : Except Error ℕ :=
  if (utf8 hashHex).length ≠ 8 then
    .error (.config s!"invalid hash length: expected 8 hex chars, got {(utf8 hashHex).length}")
  else
    match parseU32 hashHex with
    | none => .error (.config "invalid hash hex")
    | some hash => .ok hash

theorem parseHash_iff {hashHex : Str} (h : '+' ∉ hashHex) {hash : ℕ} :
    parseHash hashHex = .ok hash ↔ hash < 2 ^ 32 ∧ hashHex.map Char.toLower = format08x hash := by
  rw [← Hex.parseU32_iff h, parseHash]
  split_ifs with hlen
  · exact ⟨fun h => (by cases h), fun h => absurd h.1 hlen⟩
  · rw [not_not] at hlen
    cases hparse : parseU32 hashHex with
    | none => simp
    | some n => simp [hlen]

/-- The algorithm and the 32 bytes of a key. -/
def parseKeyData [Base64.DecodeErrors] (text : Str) : Except Error (UInt8 × Bytes32) :=
  match Base64.decode text with
  | none => .error (.config ("invalid key base64: " ++ Base64.DecodeErrors.display text))
  | some data =>
    if h : data.length = 33 then .ok (data.headD 0, ⟨data.tail, by rw [List.length_tail, h]⟩)
    else .error (.config s!"invalid key length: expected 33, got {data.length}")

theorem parseKeyData_iff [Base64.DecodeErrors] {text : Str} {alg : UInt8} {key : Bytes32} :
    parseKeyData text = .ok (alg, key) ↔ text = Base64.encode (alg :: key.val) := by
  constructor
  · intro h
    unfold parseKeyData at h
    cases hdecode : Base64.decode text with
    | none => simp [hdecode] at h
    | some data =>
      simp only [hdecode] at h
      split_ifs at h with hlen
      obtain ⟨rfl, rfl⟩ := Prod.mk.inj (Except.ok.inj h)
      rw [← Base64.encode_decode hdecode]
      cases data with
      | nil => cases hlen
      | cons a data => rfl
  · rintro rfl
    rw [parseKeyData, Base64.decode_encode]
    exact dif_pos (congrArg (· + 1) key.property)

/-- The text of a key: its name, its id and its data. -/
def keyText (name hashHex : Str) (alg : UInt8) (key : Bytes) : Str :=
  name ++ '+' :: (hashHex ++ '+' :: Base64.encode (alg :: key))

theorem not_mem_keyText {c : Char} {name : Str} (hname : c ∉ name)
    (hhex : ∀ d : Fin 16, c ≠ Hex.digit d.val)
    (hplus : c ≠ '+') {alg : UInt8} {key : Bytes} (hdata : c ∉ Base64.encode (alg :: key)) (n : ℕ) :
    c ∉ keyText name (format08x n) alg key := by
  have hfixed : c ∉ format08x n := by
    intro hmem
    obtain ⟨d, hd, hdigit⟩ := Hex.mem_fixed hmem
    exact hhex ⟨d, hd⟩ hdigit
  simp [keyText, hname, hfixed, hplus, hdata]

theorem trim_keyText {start name : Str} {hashHex : Str} {alg : UInt8} {key : Bytes}
    (h : trimStart (start ++ keyText name hashHex alg key) = start ++
      keyText name hashHex alg key) :
    trim (start ++ keyText name hashHex alg key) = start ++ keyText name hashHex alg key := by
  have hsplit : start ++ keyText name hashHex alg key =
      (start ++ (name ++ '+' :: (hashHex ++ ['+']))) ++ Base64.encode (alg :: key) := by
        simp [keyText]
  rw [trim, h, hsplit]
  exact trimEnd_append_solid (Base64.solid_encode _) (Base64.encode_ne_nil (by simp))

namespace CheckpointSigner

variable {SK VK : Type} [NoteCrypto SK VK] [NoteKeys SK VK]

/-- Create a new checkpoint signer from raw Ed25519 seed. -/
def fromSeed (name : Str) (seed : Bytes32) : CheckpointSigner SK :=
  let signingKey := NoteKeys.fromBytes seed
  ⟨name, signingKey, computeKeyIdWithAlg SK name (NoteCrypto.verifyingKey signingKey) algEd25519⟩

/-- Export the public note verification key. -/
def verificationKey (signer : CheckpointSigner SK) : Str :=
  keyText signer.name (format08x signer.keyId.asU32) algEd25519
    (NoteCrypto.keyBytes SK (NoteCrypto.verifyingKey signer.signingKey)).val

/-- Export as note-format private key string. -/
def toNoteKey (signer : CheckpointSigner SK) : Str :=
  "PRIVATE+KEY+".toList ++
    keyText signer.name (format08x signer.keyId.asU32) algEd25519
      (NoteKeys.asBytes signer.signingKey).val

theorem toNoteKey_eq (signer : CheckpointSigner SK) : signer.toNoteKey = "PRIVATE+KEY+".toList ++
    keyText signer.name (format08x signer.keyId.asU32) algEd25519
      (NoteKeys.asBytes signer.signingKey).val := rfl

variable [Base64.DecodeErrors]

/-- What is checked of the parts of a private key. -/
def ofParts (name hashHex keyBase64 : Str) : Except Error (CheckpointSigner SK) := do
  let expectedHash ← parseHash hashHex
  let (alg, seed) ← parseKeyData keyBase64
  if alg ≠ algEd25519 then
    .error (.config s!"unsupported algorithm: expected {algEd25519}, got {alg}")
  else
    let signer := fromSeed name seed
    if signer.keyId.asU32 ≠ expectedHash then
      .error (.config
        ("key hash mismatch: expected " ++ String.ofList (format08x expectedHash) ++ ", got " ++
        String.ofList (format08x signer.keyId.asU32)))
    else .ok signer

/-- Create a new checkpoint signer from a note-format private key. -/
def fromNoteKey (keyStr : Str) : Except Error (CheckpointSigner SK) :=
  match splitN '+' 5 (trim keyStr) with
  | [start, word, name, hashHex, keyBase64] =>
    if start ≠ "PRIVATE".toList ∨
      word ≠ "KEY".toList then .error (.config "invalid note private key format")
    else ofParts name hashHex keyBase64
  | _ => .error (.config "invalid note private key format")

theorem ofParts_iff {name hashHex keyBase64 : Str} (h : '+' ∉ hashHex)
    {signer : CheckpointSigner SK} :
    ofParts name hashHex keyBase64 = .ok signer ↔ ∃ seed : Bytes32, signer = fromSeed name seed ∧
      hashHex.map Char.toLower = format08x signer.keyId.asU32 ∧
      keyBase64 = Base64.encode (algEd25519 :: seed.val) := by
  constructor
  · intro hok
    obtain ⟨hash, hhash, hok⟩ := bind_eq_ok hok
    obtain ⟨⟨alg, seed⟩, hdata, hok⟩ := bind_eq_ok hok
    dsimp only at hok
    split_ifs at hok with halg hid
    rw [not_not] at halg hid
    obtain rfl := Except.ok.inj hok
    exact ⟨seed, rfl, hid ▸ ((parseHash_iff h).mp hhash).2, halg ▸ parseKeyData_iff.mp hdata⟩
  · rintro ⟨seed, rfl, hhash, rfl⟩
    rw [ofParts, (parseHash_iff h).mpr ⟨KeyId.asU32_lt _, hhash⟩, parseKeyData_iff.mpr rfl]
    simp [bind, Except.bind]

/-- What is accepted as a private key. White space around it and the case of the key id do
not matter; the name has no plus sign, and the key id is that of the name and the key. -/
theorem fromNoteKey_iff {text : Str} {signer : CheckpointSigner SK} :
    fromNoteKey text = .ok signer ↔
    ∃ (seed : Bytes32) (hashHex : Str), signer = fromSeed signer.name seed ∧
      '+' ∉ signer.name ∧ hashHex.map Char.toLower = format08x signer.keyId.asU32 ∧
      trim text = "PRIVATE+KEY+".toList ++ keyText signer.name hashHex algEd25519 seed.val := by
  have hparts : ∀ name hashHex keyBase64 : Str, splitN '+' 5 (trim text) =
      ["PRIVATE".toList, "KEY".toList, name, hashHex, keyBase64] ↔
        ('+' ∉ name ∧ '+' ∉ hashHex) ∧
          trim text = "PRIVATE+KEY+".toList ++ (name ++ '+' :: (hashHex ++ '+' :: keyBase64)) := by
    intro name hashHex keyBase64
    have := @splitN_iff '+' ["PRIVATE".toList, "KEY".toList, name, hashHex] (trim text) keyBase64
    simpa [show '+' ∉ "PRIVATE".toList by decide, show '+' ∉ "KEY".toList by decide] using this
  constructor
  · intro h
    unfold fromNoteKey at h
    split at h
    · rename_i start word name hashHex keyBase64 hsplit
      split_ifs at h with hstart
      rw [not_or, not_not, not_not] at hstart
      obtain ⟨rfl, rfl⟩ := hstart
      obtain ⟨⟨hname, hhex⟩, htext⟩ := (hparts _ _ _).mp hsplit
      obtain ⟨seed, rfl, hlower, rfl⟩ := (ofParts_iff hhex).mp h
      exact ⟨seed, hashHex, rfl, hname, hlower, htext⟩
    · cases h
  · rintro ⟨seed, hashHex, hsigner, hname, hlower, htext⟩
    have hhex := Hex.plus_not_mem hlower
    rw [fromNoteKey, (hparts signer.name hashHex (Base64.encode (algEd25519 :: seed.val))).mpr
      ⟨⟨hname, hhex⟩, htext⟩]
    dsimp only
    rw [if_neg (by simp)]
    exact (ofParts_iff hhex).mpr ⟨seed, hsigner, hlower, rfl⟩

/-- A key is read back from its export if and only if its name has no plus sign. -/
theorem fromNoteKey_toNoteKey_iff [LawfulNoteKeys SK VK] {signer : CheckpointSigner SK}
    {seed : Bytes32} (hsigner : signer = fromSeed signer.name seed) :
    fromNoteKey signer.toNoteKey = .ok signer ↔ '+' ∉ signer.name := by
  have hseed : NoteKeys.asBytes signer.signingKey = seed := by
    rw [hsigner]
    exact LawfulNoteKeys.asBytes_fromBytes seed
  have htrim : trim signer.toNoteKey = signer.toNoteKey := trim_keyText (trimStart_cons (by decide))
  constructor
  · intro h
    obtain ⟨-, -, -, hname, -⟩ := fromNoteKey_iff.mp h
    exact hname
  · intro hname
    refine fromNoteKey_iff.mpr
      ⟨seed, format08x signer.keyId.asU32, hsigner, hname, Hex.map_toLower_format08x _, ?_⟩
    rw [htrim, toNoteKey_eq, hseed]

end CheckpointSigner

/-- The log of the examples that start a server. -/
def logSigner : CheckpointSigner SeedKey := .fromSeed "log".toList (StartKey.start 32 [])

end Siglog.Note

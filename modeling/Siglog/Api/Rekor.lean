import Siglog.Import.Bulk
import Siglog.Storage.Dedup
import Siglog.Text.Base64Any
import Siglog.Text.Utf8

/-! Submissions of the Rekor API. A request is brought into one canonical form, which is
the data of the entry. Two requests have one form exactly if they submit the same thing,
however they are written, and so the entry of a repeated submission is a duplicate. -/

namespace Siglog.Api.Rekor

open Import (maxEntrySize)
open Storage (Answered accepted firstIndex answered_answersOf History)
open Text (Str utf8 utf8_injective)

/-- A JSON value. Of a number the request uses the value of 64 bits, if it has one. -/
inductive Value where
  | string (s : Str)
  | number (asU64 : Option ℕ)
  | other
  deriving DecidableEq

structure EncodedKey where
  rawBytes : Str

structure Verifier where
  publicKey : Option EncodedKey
  x509Certificate : Option EncodedKey
  keyDetails : Value

structure Signature where
  content : Str
  verifier : Verifier

structure HashedRekord where
  digest : Str
  signature : Signature

structure CreateEntryRequest where
  hashedRekordRequestV002 : HashedRekord

/-- The parameters of an algorithm: whether they are NULL, and as an object identifier. -/
structure Parameters where
  isNull : Bool
  objectIdentifier : Option String

/-- The key is there if it is a whole number of bytes. -/
structure SubjectPublicKeyInfo where
  oid : String
  parameters : Option Parameters
  subjectPublicKey : Option Bytes

inductive VerificationAlgorithm where
  | ed25519
  | ecdsaP256Sha256Asn1
  | ecdsaP384Sha384Asn1
  | ecdsaP521Sha512Asn1
  | rsaPkcs1_2048_8192Sha256
  deriving DecidableEq

inductive DigestAlgorithm where
  | sha256
  | sha384
  | sha512
  deriving DecidableEq

def DigestAlgorithm.outputLen : DigestAlgorithm → ℕ
  | .sha256 => 32
  | .sha384 => 48
  | .sha512 => 64

/-- The parsing of JSON and DER and the verification of signatures. -/
class Library where
  fromSlice : Bytes → Except String CreateEntryRequest
  spkiFromDer : Bytes → Except String SubjectPublicKeyInfo
  /-- The key of a certificate. -/
  certificateFromDer : Bytes → Except String SubjectPublicKeyInfo
  publicModulusLen : Bytes → Option ℕ
  VerifyingKey : Type
  verifyingKeyFromBytes : Bytes → Except String VerifyingKey
  Ed25519Signature : Type
  signatureFromSlice : Bytes → Except String Ed25519Signature
  verifyPrehashedStrict : VerifyingKey → Bytes → Ed25519Signature → Bool
  verifyDigest : VerificationAlgorithm → Bytes → Bytes → Bytes → Bool

def invalid {α : Type} (message : String) : Except Error α := .error (.invalidEntry message)

def decode (value : Str) : Except Error Bytes :=
  match Text.Base64.decodeAny value with
  | some b => .ok b
  | none => invalid "invalid base64"

/-- A public key or a certificate. -/
inductive Material where
  | publicKey (der : Bytes)
  | x509Certificate (der : Bytes)
  deriving DecidableEq

/-- What is submitted, after all decoding. -/
structure Submission where
  sig : Bytes
  hash : Bytes
  material : Material
  details : Str
  deriving DecidableEq

section

variable [Library]

def readVerifier (verifier : Verifier) : Except Error (SubjectPublicKeyInfo × Material) :=
  match verifier.publicKey, verifier.x509Certificate with
  | some key, none => do
    let der ← decode key.rawBytes
    let spki ← (Library.spkiFromDer der).mapError .invalidEntry
    .ok (spki, .publicKey der)
  | none, some cert => do
    let der ← decode cert.rawBytes
    let spki ← (Library.certificateFromDer der).mapError .invalidEntry
    .ok (spki, .x509Certificate der)
  | _, _ => invalid "exactly one publicKey or x509Certificate is required"

/-- The name of an algorithm, which may be given by its number. -/
def readDetails : Value → Except Error Str
  | .string s => .ok s
  | .number (some 5) => .ok "PKIX_ECDSA_P256_SHA_256".toList
  | .number (some 8) => .ok "PKIX_ED25519_PH".toList
  | .number (some 12) => .ok "PKIX_ECDSA_P384_SHA_384".toList
  | .number (some 13) => .ok "PKIX_ECDSA_P521_SHA_512".toList
  | .number (some 9) => .ok "PKIX_RSA_PKCS1V15_2048_SHA256".toList
  | .number (some 10) => .ok "PKIX_RSA_PKCS1V15_3072_SHA256".toList
  | .number (some 11) => .ok "PKIX_RSA_PKCS1V15_4096_SHA256".toList
  | .number _ => invalid "unsupported keyDetails"
  | .other => invalid "invalid keyDetails"

/-- Read what a request submits, with the key in it. -/
def readRequest (body : Bytes) : Except Error (Submission × SubjectPublicKeyInfo) := do
  let request ← (Library.fromSlice body).mapError Error.invalidEntry
  let hr := request.hashedRekordRequestV002
  let sig ← decode hr.signature.content
  let hash ← decode hr.digest
  let (spki, material) ← readVerifier hr.signature.verifier
  let details ← readDetails hr.signature.verifier.keyDetails
  .ok (⟨sig, hash, material, details⟩, spki)

end

/-- What goes with the name of an algorithm. -/
structure KeyAlgorithm where
  algorithm : VerificationAlgorithm
  hashAlgorithm : DigestAlgorithm
  hashName : Str
  curve : Option String
  rsaBits : ℕ

def keyAlgorithm (details : Str) : Except Error KeyAlgorithm :=
  if details = "PKIX_ED25519_PH".toList then .ok ⟨.ed25519, .sha512, "SHA2_512".toList, none, 0⟩
  else if details = "PKIX_ECDSA_P256_SHA_256".toList then
    .ok ⟨.ecdsaP256Sha256Asn1, .sha256, "SHA2_256".toList, some "1.2.840.10045.3.1.7", 0⟩
  else if details = "PKIX_ECDSA_P384_SHA_384".toList then
    .ok ⟨.ecdsaP384Sha384Asn1, .sha384, "SHA2_384".toList, some "1.3.132.0.34", 0⟩
  else if details = "PKIX_ECDSA_P521_SHA_512".toList then
    .ok ⟨.ecdsaP521Sha512Asn1, .sha512, "SHA2_512".toList, some "1.3.132.0.35", 0⟩
  else if details = "PKIX_RSA_PKCS1V15_2048_SHA256".toList then
    .ok ⟨.rsaPkcs1_2048_8192Sha256, .sha256, "SHA2_256".toList, none, 2048⟩
  else if details = "PKIX_RSA_PKCS1V15_3072_SHA256".toList then
    .ok ⟨.rsaPkcs1_2048_8192Sha256, .sha256, "SHA2_256".toList, none, 3072⟩
  else if details = "PKIX_RSA_PKCS1V15_4096_SHA256".toList then
    .ok ⟨.rsaPkcs1_2048_8192Sha256, .sha256, "SHA2_256".toList, none, 4096⟩
  else
    invalid "unsupported keyDetails; use Ed25519ph, ECDSA P-256/P-384/P-521 or RSA PKCS#1 SHA-256"

section

variable [Library]

/-- The key is one for the algorithm. -/
def checkKey (details : Str) (alg : KeyAlgorithm) (spki : SubjectPublicKeyInfo) (rawKey : Bytes) :
    Except Error Unit :=
  if details = "PKIX_ED25519_PH".toList then
    if spki.oid ≠ "1.3.101.112" ∨
      spki.parameters.isSome then invalid "public key algorithm does not match keyDetails"
    else .ok ()
  else
    match alg.curve with
    | some curve =>
      if spki.oid ≠ "1.2.840.10045.2.1" ∨
        (spki.parameters.bind Parameters.objectIdentifier) ≠ some curve then
        invalid "public key algorithm does not match keyDetails"
      else .ok ()
    | none =>
      if spki.oid ≠ "1.2.840.113549.1.1.1" ∨ spki.parameters.any (fun p => ¬ p.isNull) then
        invalid "RSA key size or algorithm does not match keyDetails"
      else
        match Library.publicModulusLen rawKey with
        | none => invalid "invalid RSA key"
        | some bits =>
          if bits ≠ alg.rsaBits then invalid "RSA key size or algorithm does not match keyDetails"
          else .ok ()

/-- The signature is one of the digest. -/
def checkSignature (submission : Submission) (alg : KeyAlgorithm) (rawKey : Bytes) :
    Except Error Unit :=
  if submission.hash.length ≠
    alg.hashAlgorithm.outputLen then invalid "digest length does not match keyDetails"
  else if submission.details = "PKIX_ED25519_PH".toList then
    if rawKey.length ≠ 32 then invalid "Ed25519 key must be 32 bytes"
    else do
      let key ← (Library.verifyingKeyFromBytes rawKey).mapError .invalidEntry
      let signature ← (Library.signatureFromSlice submission.sig).mapError .invalidEntry
      if Library.verifyPrehashedStrict key submission.hash signature then .ok ()
      else invalid "invalid artifact signature"
  else if Library.verifyDigest alg.algorithm rawKey submission.hash submission.sig then .ok ()
  else invalid "invalid artifact signature"

end

/-- A JSON text of strings and objects. No string in it needs an escape, and the fields of
an object are in the order of their names. -/
inductive Json where
  | string (s : Str)
  | object (fields : List (Str × Json))

namespace Json

mutual

/-- `serde_json::to_vec`, before its characters are bytes. -/
def render : Json → Str
  | .string s => '"' :: s ++ ['"']
  | .object fields => '{' :: renderFields fields ++ ['}']

def renderFields : List (Str × Json) → Str
  | [] => []
  | [(name, value)] => '"' :: name ++ ['"', ':'] ++ value.render
  | (name, value) :: field :: fields =>
    '"' :: name ++ ['"', ':'] ++ value.render ++ ',' :: renderFields (field :: fields)

end

end Json

/-- The name of the field, and its bytes. -/
def Material.field : Material → Str × Bytes
  | .publicKey der => ("publicKey".toList, der)
  | .x509Certificate der => ("x509Certificate".toList, der)

def entryJson (submission : Submission) (hashName : Str) : Json :=
  .object [
    ("apiVersion".toList, .string "0.0.2".toList),
    ("kind".toList, .string "hashedrekord".toList),
    ("spec".toList, .object [("hashedRekordV002".toList, .object [
      ("data".toList, .object [
        ("algorithm".toList, .string hashName),
        ("digest".toList, .string (Text.Base64.encode submission.hash))]),
      ("signature".toList, .object [
        ("content".toList, .string (Text.Base64.encode submission.sig)),
        ("verifier".toList, .object [
          ("keyDetails".toList, .string submission.details),
          (submission.material.field.1, .object [
            ("rawBytes".toList, .string (Text.Base64.encode submission.material.field.2))])])])])])]

/-- The canonical form of a request, when its signature is right. -/
def canonicalEntry [Library] (body : Bytes) : Except Error Bytes := do
  let (submission, spki) ← readRequest body
  let alg ← keyAlgorithm submission.details
  match spki.subjectPublicKey with
  | none => invalid "unaligned public key"
  | some rawKey => do
    checkKey submission.details alg spki rawKey
    checkSignature submission alg rawKey
    let bytes := utf8 (entryJson submission alg.hashName).render
    if bytes.length > maxEntrySize then invalid "canonical entry exceeds 65535 bytes" else .ok bytes

/-! ### The rendered text -/

/-- The texts between the quotes. -/
def segments (submission : Submission) (hashName : Str) : List Str :=
  [['{'], "apiVersion".toList, [':'], "0.0.2".toList, [','], "kind".toList, [':'],
    "hashedrekord".toList, [','],
    "spec".toList, [':', '{'], "hashedRekordV002".toList, [':', '{'],
    "data".toList, [':', '{'], "algorithm".toList, [':'], hashName, [','],
    "digest".toList, [':'], Text.Base64.encode submission.hash, ['}', ','],
    "signature".toList, [':', '{'], "content".toList, [':'], Text.Base64.encode submission.sig,
    [','], "verifier".toList, [':', '{'], "keyDetails".toList, [':'], submission.details, [','],
    submission.material.field.1, [':', '{'], "rawBytes".toList, [':'],
    Text.Base64.encode submission.material.field.2, ['}', '}', '}', '}', '}', '}']]

theorem render_entryJson (submission : Submission) (hashName : Str) :
    (entryJson submission hashName).render = ['"'].intercalate (segments submission hashName) := by
  simp only [entryJson, Json.render, Json.renderFields, segments, List.intercalate_cons_cons,
    List.intercalate_singleton, List.cons_append, List.nil_append, List.append_assoc]

theorem quote_not_mem_encode (b : Bytes) : '"' ∉ Text.Base64.encode b := by
  have hsymbol : ∀ v < 64, Text.Base64.symbol v ≠ '"' := by decide +kernel
  intro h
  exact Text.Base64.encode_forall (P := fun c => c ≠ '"') hsymbol (by decide) b _ h rfl

/-- The names that are accepted, and those that go with them, have no quotes. -/
theorem keyAlgorithm_plain {details : Str} {alg : KeyAlgorithm}
    (h : keyAlgorithm details = .ok alg) :
    '"' ∉ details ∧ '"' ∉ alg.hashName := by
  rw [keyAlgorithm] at h
  split_ifs at h with h₁ h₂ h₃ h₄ h₅ h₆ h₇
  · obtain rfl := Except.ok.inj h
    exact ⟨h₁ ▸ by decide, by decide⟩
  · obtain rfl := Except.ok.inj h
    exact ⟨h₂ ▸ by decide, by decide⟩
  · obtain rfl := Except.ok.inj h
    exact ⟨h₃ ▸ by decide, by decide⟩
  · obtain rfl := Except.ok.inj h
    exact ⟨h₄ ▸ by decide, by decide⟩
  · obtain rfl := Except.ok.inj h
    exact ⟨h₅ ▸ by decide, by decide⟩
  · obtain rfl := Except.ok.inj h
    exact ⟨h₆ ▸ by decide, by decide⟩
  · obtain rfl := Except.ok.inj h
    exact ⟨h₇ ▸ by decide, by decide⟩
  · cases h

theorem segments_plain (submission : Submission) {hashName : Str} (hname : '"' ∉ hashName)
    (hdetails : '"' ∉ submission.details) : ∀ part ∈ segments submission hashName, '"' ∉ part := by
  have hfield : '"' ∉ submission.material.field.1 := by
    cases submission.material with
    | publicKey der => exact (by decide : '"' ∉ "publicKey".toList)
    | x509Certificate der => exact (by decide : '"' ∉ "x509Certificate".toList)
  have hliteral : ∀ part ∈
      [['{'], "apiVersion".toList, [':'], "0.0.2".toList, [','], "kind".toList,
        "hashedrekord".toList,
      "spec".toList, [':', '{'], "hashedRekordV002".toList, "data".toList, "algorithm".toList,
      "digest".toList, ['}', ','],
      "signature".toList, "content".toList, "verifier".toList, "keyDetails".toList,
      "rawBytes".toList,
      ['}', '}', '}', '}', '}', '}']], '"' ∉ part := by decide +kernel
  simp only [List.forall_mem_cons] at hliteral
  simp only [segments, List.forall_mem_cons, hname, hdetails, hfield, quote_not_mem_encode,
    hliteral, not_false_eq_true, true_and]
  exact fun _ h => absurd h List.not_mem_nil

theorem Material.ext_field {m m' : Material} (hname : m.field.1 = m'.field.1)
    (hder : m.field.2 = m'.field.2) : m = m' := by
  have hne : "publicKey".toList ≠ "x509Certificate".toList := by decide
  cases m with
  | publicKey der =>
    cases m' with
    | publicKey der' => exact congrArg Material.publicKey hder
    | x509Certificate der' => exact absurd hname hne
  | x509Certificate der =>
    cases m' with
    | publicKey der' => exact absurd hname.symm hne
    | x509Certificate der' => exact congrArg Material.x509Certificate hder

/-- The text tells everything that is submitted. -/
theorem render_injective {s s' : Submission} {name name' : Str} (hname : '"' ∉ name)
    (hname' : '"' ∉ name')
    (hdetails : '"' ∉ s.details) (hdetails' : '"' ∉ s'.details)
    (h : (entryJson s name).render = (entryJson s' name').render) : s = s' := by
  rw [render_entryJson, render_entryJson] at h
  have hsegments := congrArg (List.splitOn '"') h
  rw [List.splitOn_intercalate '"' (segments_plain s hname hdetails) (by simp [segments]),
    List.splitOn_intercalate '"' (segments_plain s' hname' hdetails')
      (by simp [segments])] at hsegments
  have hencode : Function.Injective Text.Base64.encode := by
    intro a b hab
    have hdecode := congrArg Text.Base64.decode hab
    rw [Text.Base64.decode_encode, Text.Base64.decode_encode] at hdecode
    exact Option.some.inj hdecode
  simp only [segments, List.cons.injEq, true_and, and_true] at hsegments
  obtain ⟨-, hhash, hsig, hkey, hfield, hder⟩ := hsegments
  have hmaterial := Material.ext_field hfield (hencode hder)
  obtain ⟨sig, hash, material, details⟩ := s
  obtain ⟨sig', hash', material', details'⟩ := s'
  obtain rfl : material = material' := hmaterial
  obtain rfl : details = details' := hkey
  obtain rfl : sig = sig' := hencode hsig
  obtain rfl : hash = hash' := hencode hhash
  rfl

/-! ### Requests -/

section

variable [Library]

/-- What a request submits, when it can be read. -/
def submissionOf (body : Bytes) : Option Submission := (readRequest body).toOption.map Prod.fst

/-- An accepted request is one whose form is that of what it submits. -/
theorem canonicalEntry_ok {body c : Bytes} (h : canonicalEntry body = .ok c) :
    ∃ s alg, submissionOf body = some s ∧ keyAlgorithm s.details = .ok alg ∧
      c = utf8 (entryJson s alg.hashName).render := by
  rw [canonicalEntry] at h
  obtain ⟨⟨s, spki⟩, hread, h⟩ := bind_eq_ok h
  obtain ⟨alg, halg, h⟩ := bind_eq_ok h
  refine ⟨s, alg, by rw [submissionOf, hread]; rfl, halg, ?_⟩
  split at h
  · cases h
  · obtain ⟨-, -, h⟩ := bind_eq_ok h
    obtain ⟨-, -, h⟩ := bind_eq_ok h
    dsimp only at h
    split_ifs at h
    · cases h
    · exact (Except.ok.inj h).symm

/-- A canonical form fits into a bundle. -/
theorem canonicalEntry_length {body c : Bytes} (h : canonicalEntry body = .ok c) :
    c.length ≤ maxEntrySize := by
  rw [canonicalEntry] at h
  obtain ⟨⟨s, spki⟩, -, h⟩ := bind_eq_ok h
  obtain ⟨alg, -, h⟩ := bind_eq_ok h
  split at h
  · cases h
  · obtain ⟨-, -, h⟩ := bind_eq_ok h
    obtain ⟨-, -, h⟩ := bind_eq_ok h
    dsimp only at h
    split_ifs at h with hlong
    · cases h
    · obtain rfl := Except.ok.inj h
      exact Nat.le_of_not_lt hlong

/-- Accepted requests have one form exactly if they submit the same. -/
theorem canonicalEntry_eq_iff {b b' c c' : Bytes} (h : canonicalEntry b = .ok c)
    (h' : canonicalEntry b' = .ok c') :
    c = c' ↔ submissionOf b = submissionOf b' := by
  obtain ⟨s, alg, hs, halg, rfl⟩ := canonicalEntry_ok h
  obtain ⟨s', alg', hs', halg', rfl⟩ := canonicalEntry_ok h'
  rw [hs, hs', Option.some.injEq]
  constructor
  · intro heq
    obtain ⟨hdetails, hname⟩ := keyAlgorithm_plain halg
    obtain ⟨hdetails', hname'⟩ := keyAlgorithm_plain halg'
    exact render_injective hname hname' hdetails hdetails' (utf8_injective heq)
  · rintro rfl
    obtain rfl := Except.ok.inj (halg.symm.trans halg')
    rfl

omit [Library] in
theorem decode_iff {t : Str} {b : Bytes} :
    decode t = .ok b ↔ Text.Base64.standard.Spells b t ∨ Text.Base64.urlSafe.Spells b t := by
  rw [← Text.Base64.decodeAny_iff, decode]
  cases Text.Base64.decodeAny t with
  | none => exact iff_of_false (fun h => by cases h) (fun h => by cases h)
  | some b' => simp

end

/-! ### The ways to write a request -/

/-- The algorithms that have a number. -/
def keyDetailsNumbers : List (ℕ × Str) :=
  [(5, "PKIX_ECDSA_P256_SHA_256".toList), (8, "PKIX_ED25519_PH".toList),
    (12, "PKIX_ECDSA_P384_SHA_384".toList),
    (13, "PKIX_ECDSA_P521_SHA_512".toList), (9, "PKIX_RSA_PKCS1V15_2048_SHA256".toList),
    (10, "PKIX_RSA_PKCS1V15_3072_SHA256".toList), (11, "PKIX_RSA_PKCS1V15_4096_SHA256".toList)]

/-- An algorithm is given by its name or by its number. -/
theorem readDetails_iff {v : Value} {details : Str} : readDetails v = .ok details ↔
    v = .string details ∨ ∃ n, (n, details) ∈ keyDetailsNumbers ∧ v = .number (some n) := by
  fun_cases readDetails v with
  | case1 s => simp [eq_comm]
  | case2 => simp [keyDetailsNumbers, eq_comm]
  | case3 => simp [keyDetailsNumbers, eq_comm]
  | case4 => simp [keyDetailsNumbers, eq_comm]
  | case5 => simp [keyDetailsNumbers, eq_comm]
  | case6 => simp [keyDetailsNumbers, eq_comm]
  | case7 => simp [keyDetailsNumbers, eq_comm]
  | case8 => simp [keyDetailsNumbers, eq_comm]
  | case9 n h₁ h₂ h₃ h₄ h₅ h₆ h₇ =>
    refine iff_of_false (fun h => by cases h) ?_
    rintro (h | ⟨m, hm, h⟩)
    · cases h
    · obtain rfl : n = some m := Value.number.inj h
      simp only [keyDetailsNumbers, List.mem_cons, Prod.mk.injEq, List.not_mem_nil, or_false] at hm
      rcases hm with ⟨rfl, -⟩ | ⟨rfl, -⟩ | ⟨rfl, -⟩ | ⟨rfl, -⟩ | ⟨rfl, -⟩ | ⟨rfl, -⟩ | ⟨rfl, -⟩
      · exact h₁ rfl
      · exact h₂ rfl
      · exact h₃ rfl
      · exact h₄ rfl
      · exact h₅ rfl
      · exact h₆ rfl
      · exact h₇ rfl
  | case10 => simp [invalid]

/-! ### Duplicates -/

section

variable {H : Type} [Sha256Hash H] [DecidableEq H]

theorem answerOf_duplicate {log : List (Entry H)} {entry : Entry H} {i : ℕ} :
    Storage.answerOf log entry = .error (.duplicate i) ↔ firstIndex log entry = some i := by
  rw [Storage.answerOf]
  cases firstIndex log entry with
  | none => simp
  | some j => simp

/-- Only entries of a batch are accepted. -/
theorem accepted_answersOf (log : List (Entry H)) {entries : List (Entry H)} {e : Entry H}
    (h : e ∈ accepted (Storage.answersOf log entries)) : e ∈ entries := by
  induction entries generalizing log with
  | nil => exact absurd h List.not_mem_nil
  | cons entry entries ih =>
    rw [Storage.answersOf, Storage.accepted_cons, List.mem_append] at h
    rcases h with h | h
    · rw [Storage.answerOf] at h
      cases hfirst : firstIndex log entry with
      | none =>
        rw [hfirst] at h
        obtain rfl := List.mem_singleton.mp h
        exact List.mem_cons_self
      | some i =>
        rw [hfirst] at h
        exact absurd h List.not_mem_nil
    · exact List.mem_cons_of_mem _ (ih _ h)

variable [Library]

/-- What a request submits is in the log. -/
def Resubmitted (log : List (Entry H)) (body : Bytes) : Prop :=
  ∃ e ∈ log, ∃ b, canonicalEntry b = .ok e.data ∧ submissionOf b = submissionOf body

/-- A log of canonical forms that the leaf hash tells apart has a leaf hash exactly if what
is submitted is in it. -/
theorem firstIndex_iff {log : List (Entry H)} {entry : Entry H} {body : Bytes}
    (hlog : ∀ e ∈ log, ∃ b, canonicalEntry b = .ok e.data)
    (hbody : canonicalEntry body = .ok entry.data)
    (hhash : ∀ e ∈ log, e.leafHash = entry.leafHash → e.data = entry.data) :
    (∃ i, firstIndex log entry = some i) ↔ Resubmitted log body := by
  have hfirst : (∃ i, firstIndex log entry = some i) ↔ ∃ e ∈ log, e.leafHash = entry.leafHash := by
    rw [← Option.isSome_iff_exists, firstIndex, List.findIdx?_isSome, List.any_eq_true]
    simp only [decide_eq_true_eq]
  rw [hfirst]
  constructor
  · rintro ⟨e, he, heq⟩
    obtain ⟨b, hb⟩ := hlog e he
    exact ⟨e, he, b, hb, (canonicalEntry_eq_iff hb hbody).mp (hhash e he heq)⟩
  · rintro ⟨e, he, b, hb, hsame⟩
    refine ⟨e, he, ?_⟩
    rw [e.leafHash_eq, entry.leafHash_eq, (canonicalEntry_eq_iff hb hbody).mpr hsame]

/-- Accepted requests have one canonical form exactly if they submit the same digest, signature,
key or certificate and algorithm, in whatever way the bytes in them are written. So a batch
for a Rekor log gets an answer that an entry is a duplicate exactly for what has been
submitted before. -/
theorem canonicalEntry_identifies :
    (∀ b b' c c', canonicalEntry b = .ok c → canonicalEntry b' = .ok c' →
      (∃ s s', submissionOf b = some s ∧ submissionOf b' = some s' ∧ (c = c' ↔ s = s'))) ∧
    (∀ t b, decode t = .ok b ↔ Text.Base64.standard.Spells b t ∨ Text.Base64.urlSafe.Spells b t) ∧
    (∀ v details, readDetails v = .ok details ↔
      v = .string details ∨ ∃ n, (n, details) ∈ keyDetailsNumbers ∧ v = .number (some n)) ∧
    ∀ s : History H, s.Reachable → s.db.logConfig = some .rekor → ∀ entries,
      (∀ e ∈ s.log ++ entries, ∃ b, canonicalEntry b = .ok e.data) →
      (∀ e ∈ s.log ++ entries, ∀ e' ∈ s.log ++ entries, e.leafHash = e'.leafHash →
        e.data = e'.data) →
      ∀ answers db, s.db.sequenceEntries entries = .ok (answers, db) →
      ∀ k entry body, entries[k]? = some entry → canonicalEntry body = .ok entry.data →
        ((∃ i, answers[k]? = some (.error (.duplicate i))) ↔
          Resubmitted (s.log ++ accepted (answers.take k)) body) := by
  refine ⟨fun b b' c c' h h' => ?_, fun t b => decode_iff, fun v details => readDetails_iff, ?_⟩
  · have hiff := canonicalEntry_eq_iff h h'
    obtain ⟨s, -, hs, -⟩ := canonicalEntry_ok h
    obtain ⟨s', -, hs', -⟩ := canonicalEntry_ok h'
    rw [hs, hs', Option.some.injEq] at hiff
    exact ⟨s, s', hs, hs', hiff⟩
  · intro s hs hmode entries hcanonical hhash answers db hseq k entry body hk hbody
    rcases (History.reachable_inv hs).sequenceRekor hmode entries with hfull | ⟨db', hok, -⟩
    · rw [hfull] at hseq
      cases hseq
    · obtain ⟨rfl, -⟩ := Prod.mk.inj (Except.ok.inj (hok.symm.trans hseq))
      have hmem : ∀ e ∈ s.log ++ accepted ((Storage.answersOf s.log entries).take k), e ∈ s.log ++
          entries := by
        intro e he
        rcases List.mem_append.mp he with he | he
        · exact List.mem_append_left _ he
        · refine List.mem_append_right _ (accepted_answersOf s.log ?_)
          exact ((List.take_sublist k _).filterMap _).subset he
      have hentry : entry ∈ s.log ++ entries := List.mem_append_right _ (List.mem_of_getElem? hk)
      rw [← firstIndex_iff (fun e he => hcanonical e (hmem e he)) hbody fun e he =>
        hhash e (hmem e he) entry hentry,
        Storage.answersOf_getElem hk]
      simp only [Option.some.injEq, answerOf_duplicate]

end

section

/-- Two requests for one submission, and a verifier that accepts it. -/
local instance twoRequests : Library where
  fromSlice body := .ok <| if body = [1]
    then ⟨⟨List.replicate 42 '/' ++ ['8', '='],
      ⟨"+/8=".toList, ⟨some ⟨"AAAA".toList⟩, none, .string "PKIX_ECDSA_P256_SHA_256".toList⟩⟩⟩⟩
    else ⟨⟨List.replicate 42 '_' ++ ['8'],
      ⟨"-_8".toList, ⟨some ⟨"AAAA".toList⟩, none, .number (some 5)⟩⟩⟩⟩
  spkiFromDer _ := .ok ⟨"1.2.840.10045.2.1", some ⟨false, some "1.2.840.10045.3.1.7"⟩, some [4]⟩
  certificateFromDer _ := .error "certificate"
  publicModulusLen _ := none
  VerifyingKey := Unit
  verifyingKeyFromBytes _ := .ok ()
  Ed25519Signature := Unit
  signatureFromSlice _ := .ok ()
  verifyPrehashedStrict _ _ _ := false
  verifyDigest _ _ hash sig := hash = List.replicate 32 255 ∧ sig = [251, 255]

/-- They spell the bytes and the algorithm differently, and submit the same. -/
theorem canonicalEntry_identifies_respelled : ∃ c s, canonicalEntry [1] = .ok c ∧
    canonicalEntry [2] = .ok c ∧ submissionOf [1] = some s ∧ submissionOf [2] = some s := by
  have hok : (canonicalEntry [1]).isOk = true ∧
      (canonicalEntry [1]).toOption = (canonicalEntry [2]).toOption := by decide +kernel
  obtain ⟨hone, hsame⟩ := hok
  cases hc : canonicalEntry [1] with
  | error e => rw [hc] at hone; cases hone
  | ok c =>
    cases hc' : canonicalEntry [2] with
    | error e => rw [hc, hc'] at hsame; cases hsame
    | ok c' =>
      rw [hc, hc'] at hsame
      obtain rfl : c = c' := Option.some.inj hsame
      obtain ⟨s, s', hs, hs', hiff⟩ :=
        (canonicalEntry_identifies (H := StartHash)).1 [1] [2] c c hc hc'
      obtain rfl := hiff.mp rfl
      exact ⟨c, s, rfl, rfl, hs, hs'⟩

end

end Siglog.Api.Rekor

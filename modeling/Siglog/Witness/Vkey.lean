import Siglog.Checkpoint.Keys
import Siglog.Witness.Verifier
import Siglog.Witness.Handled

/-! Verification keys as texts, and the start of a witness. What was exported by a signer
is accepted, and the configuration made from it accepts what the signer signs. -/

namespace Siglog.Witness

open Note (CheckpointSigner CheckpointSignature Checkpoint CosignedCheckpoint KeyId LawfulNoteCrypto
  LawfulNoteKeys
  NoteCrypto NoteKeys Origin algCosignatureV1 algEd25519 computeKeyIdWithAlg keyText parseHash
    parseHash_iff parseKeyData
  parseKeyData_iff)
open Text
open Text.Base64 (DecodeErrors)
open Text.Hex (format08x)

variable {SK VK H : Type} [NoteCrypto SK VK] [NoteKeys SK VK]

section

variable [DecodeErrors]

/-- What is checked of the parts of a verification key. -/
def vkeyOfParts (SK : Type) [NoteCrypto SK VK] [NoteKeys SK VK] (name hashHex keyBase64 : Str) :
    Except Error (Str × UInt8 × KeyId × VK) := do
  let expectedHash ← parseHash hashHex
  let (alg, pubkeyBytes) ← parseKeyData keyBase64
  if alg ≠ algEd25519 ∧ alg ≠ 0x04 then
    .error (.config s!"unsupported algorithm: expected {algEd25519}, got {alg}")
  else
    match NoteKeys.verifyingKeyFromBytes SK pubkeyBytes with
    | .error e => .error (.config ("invalid public key: " ++ e))
    | .ok verifyingKey =>
      if NoteKeys.isWeak SK verifyingKey then .error (.config "weak verification key")
      else
        let keyId := computeKeyIdWithAlg SK name verifyingKey alg
        if keyId.asU32 ≠ expectedHash then
          .error (.config ("key hash mismatch: expected " ++
            String.ofList (format08x expectedHash) ++ ", computed " ++
            String.ofList (format08x keyId.asU32)))
        else .ok (name, alg, keyId, verifyingKey)

/-- Parse a verification key string. -/
def parseVkey (SK : Type) [NoteCrypto SK VK] [NoteKeys SK VK] (vkey : Str) :
    Except Error (Str × UInt8 × KeyId × VK) :=
  match splitN '+' 3 (trim vkey) with
  | [name, hashHex, keyBase64] => vkeyOfParts SK name hashHex keyBase64
  | _ =>
    .error (.config
      ("invalid vkey format: expected 'name+hash+base64', got '" ++ String.ofList vkey ++ "'"))

namespace LogConfig

/-- Pinned witness key; accepts plain note and cosignature/v1 keys. -/
def newWitness (SK : Type) [NoteCrypto SK VK] [NoteKeys SK VK] (vkey : Str) :
    Except Error (LogConfig VK) := do
  let (keyName, _, keyId, verifyingKey) ← parseVkey SK vkey
  .ok ⟨[], none, verifyingKey, keyId, keyName⟩

/-- Create a new log configuration from a verification key string. -/
def new (SK : Type) [NoteCrypto SK VK] [NoteKeys SK VK] (origin vkey : Str) :
    Except Error (LogConfig VK) := do
  let config ← newWitness SK vkey
  let (_, alg, _, _) ← parseVkey SK vkey
  if alg ≠ algEd25519 then .error (.config "log keys must use plain Ed25519")
  else .ok { config with origin := origin }

/-- Create a new log configuration with a URL for fetching entries. -/
def withUrl (SK : Type) [NoteCrypto SK VK] [NoteKeys SK VK] (origin vkey url : Str) :
    Except Error (LogConfig VK) := do
  let config ← new SK origin vkey
  .ok { config with url := some url }

end LogConfig

variable [LawfulNoteKeys SK VK]

theorem vkeyOfParts_iff {name hashHex keyBase64 : Str} (h : '+' ∉ hashHex) {name' : Str}
    {alg : UInt8} {keyId : KeyId} {key : VK} :
    vkeyOfParts SK name hashHex keyBase64 = .ok (name', alg, keyId, key) ↔ name' = name ∧
    (alg = 1 ∨ alg = 4) ∧
      NoteKeys.isWeak SK key = false ∧ keyId = computeKeyIdWithAlg SK name key alg ∧
      hashHex.map Char.toLower = format08x keyId.asU32 ∧
      keyBase64 = Base64.encode (alg :: (NoteCrypto.keyBytes SK key).val) := by
  constructor
  · intro hok
    obtain ⟨hash, hhash, hok⟩ := bind_eq_ok hok
    obtain ⟨⟨a, pubkeyBytes⟩, hdata, hok⟩ := bind_eq_ok hok
    dsimp only at hok
    split_ifs at hok with halg
    split at hok
    · cases hok
    · rename_i verifyingKey hkey
      split_ifs at hok with hweak hid
      rw [not_not] at hid
      simp only [Except.ok.injEq, Prod.mk.injEq] at hok
      obtain ⟨rfl, rfl, rfl, rfl⟩ := hok
      refine ⟨rfl, ?_, by simpa using hweak, rfl, hid ▸ ((parseHash_iff h).mp hhash).2, ?_⟩
      · rw [not_and_or, not_not, not_not] at halg
        exact halg
      · rw [LawfulNoteKeys.keyBytes_fromBytes hkey]
        exact parseKeyData_iff.mp hdata
  · rintro ⟨rfl, halg, hweak, rfl, hhash, rfl⟩
    rw [vkeyOfParts, (parseHash_iff h).mpr ⟨KeyId.asU32_lt _, hhash⟩, parseKeyData_iff.mpr rfl]
    have hsupported : ¬ (alg ≠ algEd25519 ∧ alg ≠ 0x04) := by
      rintro ⟨h₁, h₂⟩
      rcases halg with halg | halg
      · exact h₁ halg
      · exact h₂ halg
    simp only [bind, Except.bind, LawfulNoteKeys.fromBytes_keyBytes]
    rw [if_neg hsupported, if_neg (by simp [hweak]), if_neg (by simp)]

/-- What is accepted as a verification key: apart from white space around it and the case
of the key id, it is the one text of its name, algorithm and key. -/
theorem parseVkey_iff {vkey name : Str} {alg : UInt8} {keyId : KeyId} {key : VK} :
    parseVkey SK vkey = .ok (name, alg, keyId, key) ↔ ∃ hashHex : Str, '+' ∉ name ∧
    (alg = 1 ∨ alg = 4) ∧
      NoteKeys.isWeak SK key = false ∧ keyId = computeKeyIdWithAlg SK name key alg ∧
      hashHex.map Char.toLower = format08x keyId.asU32 ∧
      trim vkey = keyText name hashHex alg (NoteCrypto.keyBytes SK key).val := by
  have hparts :
      ∀ name hashHex keyBase64 : Str, splitN '+' 3 (trim vkey) = [name, hashHex, keyBase64] ↔
      ('+' ∉ name ∧ '+' ∉ hashHex) ∧ trim vkey = name ++ '+' :: (hashHex ++ '+' :: keyBase64) := by
    intro name hashHex keyBase64
    simpa using @splitN_iff '+' [name, hashHex] (trim vkey) keyBase64
  constructor
  · intro h
    unfold parseVkey at h
    split at h
    · rename_i name' hashHex keyBase64 hsplit
      obtain ⟨⟨hname, hhex⟩, htext⟩ := (hparts _ _ _).mp hsplit
      obtain ⟨rfl, halg, hweak, hid, hlower, rfl⟩ := (vkeyOfParts_iff hhex).mp h
      exact ⟨hashHex, hname, halg, hweak, hid, hlower, htext⟩
    · cases h
  · rintro ⟨hashHex, hname, halg, hweak, hid, hlower, htext⟩
    have hhex := Hex.plus_not_mem hlower
    rw [parseVkey, (hparts _ _ _).mpr ⟨⟨hname, hhex⟩, htext⟩]
    exact (vkeyOfParts_iff hhex).mpr ⟨rfl, halg, hweak, hid, hlower, rfl⟩

omit [NoteKeys SK VK] [DecodeErrors] [LawfulNoteKeys SK VK] in
/-- Nothing is trimmed from a key whose name does not start with white space. -/
theorem trim_verificationKey {signer : CheckpointSigner SK}
    (h : trimStart signer.name = signer.name) :
    trim signer.verificationKey = signer.verificationKey := by
  refine @Note.trim_keyText [] _ _ _ _ ?_
  rw [List.nil_append, keyText]
  cases hcases : signer.name with
  | nil => exact trimStart_cons (by decide)
  | cons c name =>
    rw [hcases] at h
    exact trimStart_cons (first_of_trimStart h)

/-- An exported key is accepted if and only if its name has no plus sign and does not start with
white space. -/
theorem parseVkey_verificationKey_iff {signer : CheckpointSigner SK} {seed : Bytes32}
    (hsigner : signer = CheckpointSigner.fromSeed signer.name seed) :
    parseVkey SK signer.verificationKey =
        .ok (signer.name, algEd25519, signer.keyId, NoteCrypto.verifyingKey signer.signingKey) ↔
      '+' ∉ signer.name ∧ trimStart signer.name = signer.name := by
  have hid : signer.keyId =
      computeKeyIdWithAlg SK signer.name (NoteCrypto.verifyingKey signer.signingKey)
        algEd25519 := by
    rw [hsigner]
    rfl
  rw [parseVkey_iff]
  constructor
  · rintro ⟨hashHex, hname, -, -, -, hlower, htext⟩
    refine ⟨hname, ?_⟩
    -- nothing was trimmed, since the text is as long as before
    have hhex : hashHex.length = (format08x signer.keyId.asU32).length := by
      rw [← hlower, List.length_map]
    have hlen : (trim signer.verificationKey).length = signer.verificationKey.length := by
      rw [htext, CheckpointSigner.verificationKey, keyText, keyText]
      simp only [List.length_append, List.length_cons, hhex]
    have hstart := trimStart_of_length hlen
    cases hcases : signer.name with
    | nil => rfl
    | cons c name =>
      rw [CheckpointSigner.verificationKey, keyText, hcases, List.cons_append] at hstart
      exact trimStart_cons (first_of_trimStart hstart)
  · rintro ⟨hname, htrim⟩
    exact ⟨format08x signer.keyId.asU32, hname, .inl rfl, LawfulNoteKeys.not_weak _, hid,
      Hex.map_toLower_format08x _, trim_verificationKey htrim⟩

omit [LawfulNoteKeys SK VK] in
theorem LogConfig.newWitness_ok {vkey : Str} {config : LogConfig VK}
    (h : LogConfig.newWitness SK vkey = .ok config) :
    ∃ alg, parseVkey SK vkey = .ok (config.keyName, alg, config.keyId, config.verifyingKey) ∧
      config.origin = [] ∧
      config.url = none := by
  obtain ⟨⟨keyName, alg, keyId, verifyingKey⟩, hparse, h⟩ := bind_eq_ok h
  obtain rfl := Except.ok.inj h
  exact ⟨alg, hparse, rfl, rfl⟩

/-- The configuration of a log is made of a text if and only if it is, apart from white
space around it and the case of the key id, the plain Ed25519 key of the name. -/
theorem LogConfig.new_iff {origin vkey : Str} {config : LogConfig VK} :
    LogConfig.new SK origin vkey = .ok config ↔
    config.origin = origin ∧ config.url = none ∧ '+' ∉ config.keyName ∧
    NoteKeys.isWeak SK config.verifyingKey = false ∧
      config.keyId = computeKeyIdWithAlg SK config.keyName config.verifyingKey algEd25519 ∧
      ∃ hashHex : Str, hashHex.map Char.toLower = format08x config.keyId.asU32 ∧
        trim vkey = keyText config.keyName hashHex algEd25519
          (NoteCrypto.keyBytes SK config.verifyingKey).val := by
  constructor
  · intro h
    obtain ⟨witness, hwitness, h⟩ := bind_eq_ok h
    obtain ⟨alg, hparse, -, hurl⟩ := LogConfig.newWitness_ok hwitness
    rw [hparse] at h
    simp only [bind, Except.bind] at h
    split_ifs at h with halg
    rw [not_not] at halg
    obtain rfl := Except.ok.inj h
    obtain ⟨hashHex, hname, -, hweak, hid, hlower, htext⟩ := parseVkey_iff.mp hparse
    subst halg
    exact ⟨rfl, hurl, hname, hweak, hid, hashHex, hlower, htext⟩
  · rintro ⟨horigin, hurl, hname, hweak, hid, hashHex, hlower, htext⟩
    have hparse :
        parseVkey SK vkey = .ok (config.keyName, algEd25519, config.keyId, config.verifyingKey) :=
      parseVkey_iff.mpr ⟨hashHex, hname, .inl rfl, hweak, hid, hlower, htext⟩
    obtain ⟨o, u, key, keyId, keyName⟩ := config
    obtain rfl : o = origin := horigin
    obtain rfl : u = none := hurl
    rw [LogConfig.new, LogConfig.newWitness, hparse]
    rfl

end

section

attribute [local instance] Text.Base64.plainErrors

theorem LogConfig.new_iff_log :
    LogConfig.new Note.SeedKey "a log".toList Note.logSigner.verificationKey =
    .ok ⟨"a log".toList, none, Note.logSigner.signingKey, Note.logSigner.keyId, "log".toList⟩ :=
  LogConfig.new_iff.mpr
    ⟨rfl, rfl, by
      decide, rfl, rfl, format08x Note.logSigner.keyId.asU32, Hex.map_toLower_format08x _,
    trim_verificationKey (by decide)⟩

end

section

variable [DecodeErrors] [LawfulNoteKeys SK VK]

/-- What a key file holds is exported and read back. The public key is accepted unless the
name starts with white space. -/
theorem exports_of_fromNoteKey {text : Str} {signer : CheckpointSigner SK}
    (h : CheckpointSigner.fromNoteKey text = .ok signer) :
    CheckpointSigner.fromNoteKey signer.toNoteKey = .ok signer ∧
      (∀ origin : Str, LogConfig.new SK origin signer.verificationKey =
          .ok ⟨origin, none, NoteCrypto.verifyingKey signer.signingKey, signer.keyId, signer.name⟩ ↔
        trimStart signer.name = signer.name) ∧
      ∃ hashHex : Str, hashHex.map Char.toLower = format08x signer.keyId.asU32 ∧
        trim text = "PRIVATE+KEY+".toList ++
        keyText signer.name hashHex algEd25519 (NoteKeys.asBytes signer.signingKey).val := by
  obtain ⟨seed, hashHex, hmade, hplus, hlower, htext⟩ := CheckpointSigner.fromNoteKey_iff.mp h
  have hseed : NoteKeys.asBytes signer.signingKey = seed := by
    rw [hmade]
    exact LawfulNoteKeys.asBytes_fromBytes seed
  refine ⟨(CheckpointSigner.fromNoteKey_toNoteKey_iff hmade).mpr hplus, fun origin => ?_, hashHex,
    hlower, hseed ▸ htext⟩
  constructor
  · intro hnew
    obtain ⟨witness, hwitness, hnew⟩ := bind_eq_ok hnew
    obtain ⟨alg, hparse, -, -⟩ := LogConfig.newWitness_ok hwitness
    rw [hparse] at hnew
    simp only [bind, Except.bind] at hnew
    split_ifs at hnew with halg
    rw [not_not] at halg
    simp only [Except.ok.injEq, LogConfig.mk.injEq, true_and] at hnew
    obtain ⟨-, hkey, hid, hname⟩ := hnew
    rw [halg, hkey, hid, hname] at hparse
    exact ((parseVkey_verificationKey_iff hmade).mp hparse).2
  · intro hstart
    have hparse := (parseVkey_verificationKey_iff hmade).mpr ⟨hplus, hstart⟩
    rw [LogConfig.new, LogConfig.newWitness, hparse]
    rfl

end

section

attribute [local instance] Text.Base64.plainErrors

theorem exports_of_fromNoteKey_log :
    LogConfig.new Note.SeedKey "a log".toList Note.logSigner.verificationKey =
    .ok ⟨"a log".toList, none, Note.logSigner.signingKey, Note.logSigner.keyId, "log".toList⟩ :=
by
  have hkey : CheckpointSigner.fromNoteKey Note.logSigner.toNoteKey = .ok Note.logSigner :=
    (CheckpointSigner.fromNoteKey_toNoteKey_iff rfl).mpr (by decide)
  exact ((exports_of_fromNoteKey hkey).2.1 _).mpr (by decide)

end

section

variable [DecodeErrors] [LawfulNoteKeys SK VK]

/-- A signer as its public key describes it. -/
structure Exported (signer : CheckpointSigner SK) : Prop where
  made : ∃ seed, signer = CheckpointSigner.fromSeed signer.name seed
  plus : '+' ∉ signer.name
  start : trimStart signer.name = signer.name

theorem Exported.parseVkey {signer : CheckpointSigner SK} (h : Exported signer) :
    parseVkey SK signer.verificationKey =
    .ok (signer.name, algEd25519, signer.keyId, NoteCrypto.verifyingKey signer.signingKey) := by
  obtain ⟨seed, hseed⟩ := h.made
  exact (parseVkey_verificationKey_iff hseed).mpr ⟨h.plus, h.start⟩

theorem Exported.newWitness {signer : CheckpointSigner SK} (h : Exported signer) :
    LogConfig.newWitness SK signer.verificationKey =
      .ok ⟨[], none, NoteCrypto.verifyingKey signer.signingKey, signer.keyId, signer.name⟩ := by
  rw [LogConfig.newWitness, h.parseVkey]
  rfl

theorem Exported.new {signer : CheckpointSigner SK} (h : Exported signer) (origin : Str) :
    LogConfig.new SK origin signer.verificationKey =
      .ok ⟨origin, none, NoteCrypto.verifyingKey signer.signingKey, signer.keyId, signer.name⟩ := by
  rw [LogConfig.new, h.newWitness, h.parseVkey]
  rfl

end

/-! ### The start of a witness -/

section

variable [DecodeErrors]

/-- Parse a log configuration from "origin=vkey" format. -/
def parseLogConfig (SK : Type) [NoteCrypto SK VK] [NoteKeys SK VK] (s : Str) :
    Except String (LogConfig VK) :=
  match splitN '=' 2 s with
  | [origin, vkey] =>
    (LogConfig.new SK origin vkey).mapError fun e => "invalid log config: " ++ e.display
  | _ =>
    .error ("invalid log config format: expected 'origin=vkey', got '" ++ String.ofList s ++ "'")

/-- The witness that is served with a private key and log configurations. -/
def start (privateKey : Str) (logs : List Str) : Except String (Witness SK VK) := do
  let logs ← logs.mapM (parseLogConfig SK)
  if logs.isEmpty then .error "At least one log must be configured with --log"
  else
    let signer ← (CheckpointSigner.fromNoteKey privateKey).mapError fun e =>
        "invalid private key: " ++ e.display
    .ok ⟨signer, logs⟩

/-- The configuration of a log with an exported key. -/
def configText (log : Origin × CheckpointSigner SK) : Str :=
  log.1.str ++ '=' :: log.2.verificationKey

def configOf (log : Origin × CheckpointSigner SK) : LogConfig VK :=
  ⟨log.1.str, none, NoteCrypto.verifyingKey log.2.signingKey, log.2.keyId, log.2.name⟩

variable [LawfulNoteKeys SK VK]

theorem parseLogConfig_text {log : Origin × CheckpointSigner SK} (h : Exported log.2)
    (horigin : '=' ∉ log.1.str) :
    parseLogConfig SK (configText log) = .ok (configOf log) := by
  have hsplit := (@splitN_iff '=' [log.1.str] (configText log) log.2.verificationKey).mpr
    ⟨by simpa using horigin, by simp [configText]⟩
  rw [parseLogConfig,
    show splitN '=' 2 (configText log) = [log.1.str, log.2.verificationKey] from hsplit]
  dsimp only
  rw [h.new]
  rfl

/-- A witness that is started with the exported keys of logs knows each of them. -/
theorem start_knows {privateKey : Str} {signer : CheckpointSigner SK}
    (hkey : CheckpointSigner.fromNoteKey privateKey = .ok signer)
    {logs : List (Origin × CheckpointSigner SK)} (hne : logs ≠ [])
    (hlogs : ∀ log ∈ logs, Exported log.2 ∧ '=' ∉ log.1.str)
    (horigins : (logs.map fun log => log.1.str).Nodup) :
    start privateKey (logs.map configText) = .ok ⟨signer, logs.map configOf⟩ ∧
      ∀ log ∈ logs, Knows ⟨signer, logs.map configOf⟩ log.2 log.1 := by
  constructor
  · rw [start, mapM_map fun log hlog => parseLogConfig_text (hlogs log hlog).1 (hlogs log hlog).2,
      hkey]
    cases logs with
    | nil => exact absurd rfl hne
    | cons log logs => rfl
  · intro log hlog
    -- the first log of this origin is the only one
    have hnodup : ((logs.map configOf).map LogConfig.origin).Nodup := by
      rw [List.map_map]
      exact horigins
    exact ⟨configOf log, find_of_nodup hnodup (List.mem_map_of_mem hlog), rfl, rfl, rfl⟩

end

end Siglog.Witness

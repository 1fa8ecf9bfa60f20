import Siglog.Witness.Vkey
import Siglog.Worker.Quorum
import Siglog.Worker.WitnessProtocol

/-! The start of the log server: its keys and its witnesses from the texts of the command
line. A quorum can be met by the witnesses that are accepted, and a log and a witness that
are started with the exported keys of each other understand each other. -/

namespace Siglog.Worker

open Concurrent (Prog)
open Note (CheckpointSignature CheckpointSigner CosignedCheckpoint LawfulNoteCrypto LawfulNoteKeys
  NoteCrypto NoteKeys Origin algEd25519 algCosignatureV1 computeKeyIdWithAlg keyText)
open Text (Solid Str newline splitN splitN_iff trim trim_solid)
open Text.Base64 (DecodeErrors)
open Witness (Exported LogConfig)

variable {SK VK H : Type} [NoteCrypto SK VK] [NoteKeys SK VK]

/-- What the command line says of keys, witnesses and writers. -/
structure Args where
  origin : Str
  privateKey : Str
  witnessKeys : Option Str
  externalWitnesses : Option Str
  externalWitnessKeys : Option Str
  witnessQuorum : Option ℕ
  apiKey : Option Str
  allowPublicWrites : Bool

/-- What the workers and the handlers are started with. -/
structure Config (SK VK : Type) where
  origin : Origin
  signer : CheckpointSigner SK
  witnesses : List (CheckpointSigner SK)
  externalWitnesses : List (ExternalWitness VK)
  witnessQuorum : Option ℕ
  apiKey : Option Str

section

variable [DecodeErrors]

/-- Create a new external witness configuration. -/
def ExternalWitness.new (SK : Type) [NoteCrypto SK VK] [NoteKeys SK VK]
    (verificationKey url : Str) :
    Except Error (ExternalWitness VK) := do
  let key ← LogConfig.newWitness SK verificationKey
  .ok ⟨key.keyName, url, key, rfl⟩

/-- A witness `name=url` with its pinned key among `keys`. -/
def parseExternalWitness (SK : Type) [NoteCrypto SK VK] [NoteKeys SK VK] (keys : Option Str)
    (s : Str) :
    Except String (ExternalWitness VK) :=
  match splitN '=' 2 (trim s) with
  | [name, url] =>
    match (((keys.getD []).splitOn ',').map trim).find? fun key => (key.splitOn '+').head? =
      some name with
    | none => .error ("missing pinned public key for witness " ++ String.ofList name)
    | some key => (ExternalWitness.new SK key url).mapError Error.display
  | _ => .error "invalid external witness format: expected name=url"

/-- The entries of a list that are not blank. -/
def entriesOf (list : Str) : List Str := (list.splitOn ',').filter fun s => trim s ≠ []

def parseExternalWitnesses (SK : Type) [NoteCrypto SK VK] [NoteKeys SK VK]
    (externalWitnesses keys : Option Str) :
    Except String (List (ExternalWitness VK)) :=
  match externalWitnesses with
  | none => .ok []
  | some list => (entriesOf list).mapM (parseExternalWitness SK keys)

/-- The signers that run inside the log. An invalid key is a panic. -/
def parseWitnesses (witnessKeys : Option Str) :
    Except (Fault String) (List (CheckpointSigner SK)) :=
  match witnessKeys with
  | none => .ok []
  | some list =>
    (entriesOf list).mapM fun key => (CheckpointSigner.fromNoteKey (trim key)).mapError fun _ =>
      .panic

/-- Names and keys are inserted into sets, and none of them twice. -/
def checkDistinct (SK : Type) [NoteCrypto SK VK] (names : List Str) (keys : List Bytes32) :
    List (ExternalWitness VK) → Except String Unit
  | [] => .ok ()
  | w :: ws =>
    if names.contains w.name ∨ keys.contains (NoteCrypto.keyBytes SK w.key.verifyingKey) then
      .error "external witnesses must have distinct names and public keys"
    else checkDistinct SK (w.name :: names) (NoteCrypto.keyBytes SK w.key.verifyingKey :: keys) ws

/-- What is checked before the server starts. -/
def configure (args : Args) : Except (Fault String) (Config SK VK) := do
  let origin ← (Origin.new args.origin).mapError fun e => .err e.display
  if args.apiKey.isNone ∧ ¬ args.allowPublicWrites then
    .error (.err "API_KEY is required for writes. Set --allow-public-writes for local development.")
  else
    let signer ← (CheckpointSigner.fromNoteKey args.privateKey).mapError fun e => .err e.display
    let witnesses ← parseWitnesses args.witnessKeys
    let externalWitnesses ←
      (parseExternalWitnesses SK args.externalWitnesses args.externalWitnessKeys).mapError Fault.err
    if externalWitnesses.length < args.witnessQuorum.getD externalWitnesses.length then
      .error (.err "WITNESS_QUORUM exceeds configured external witnesses")
    else
      (checkDistinct SK [] [] externalWitnesses).mapError Fault.err
      .ok ⟨origin, signer, witnesses, externalWitnesses, args.witnessQuorum, args.apiKey⟩

end

/-! ### What was accepted -/

omit [NoteKeys SK VK] in
theorem checkDistinct_iff {ws : List (ExternalWitness VK)} :
    ∀ {names : List Str} {keys : List Bytes32},
    checkDistinct SK names keys ws = .ok () ↔
      ((ws.map fun w => w.name).Nodup ∧ ∀ w ∈ ws, w.name ∉ names) ∧
      (ws.map fun w => NoteCrypto.keyBytes SK w.key.verifyingKey).Nodup ∧
        ∀ w ∈ ws, NoteCrypto.keyBytes SK w.key.verifyingKey ∉ keys := by
  induction ws with
  | nil => intro names keys; simp [checkDistinct]
  | cons w ws ih =>
    intro names keys
    rw [checkDistinct]
    simp only [List.contains_iff_mem]
    split_ifs with h
    · refine iff_of_false (fun h => by cases h) ?_
      rintro ⟨⟨-, hname⟩, -, hkey⟩
      rcases h with h | h
      · exact hname w List.mem_cons_self h
      · exact hkey w List.mem_cons_self h
    · rw [not_or] at h
      rw [ih, List.map_cons, List.nodup_cons, List.map_cons, List.nodup_cons, List.forall_mem_cons,
        List.forall_mem_cons]
      simp only [List.mem_cons, not_or, List.mem_map, not_exists, not_and]
      constructor
      · rintro ⟨⟨hn, hns⟩, hk, hks⟩
        exact ⟨⟨⟨fun x hx => (hns x hx).1, hn⟩, h.1, fun x hx => (hns x hx).2⟩,
          ⟨fun x hx => (hks x hx).1, hk⟩, h.2, fun x hx => (hks x hx).2⟩
      · rintro ⟨⟨⟨hnw, hn⟩, -, hns⟩, ⟨hkw, hk⟩, -, hks⟩
        exact ⟨⟨hn, fun x hx => ⟨hnw x hx, hns x hx⟩⟩, hk, fun x hx => ⟨hkw x hx, hks x hx⟩⟩

section

variable [DecodeErrors]

/-- What a server that has started relies on. -/
structure Config.Checked (args : Args) (c : Config SK VK) : Prop where
  origin : c.origin.str = args.origin
  apiKey : c.apiKey = args.apiKey
  writers : c.apiKey.isSome ∨ args.allowPublicWrites = true
  signers : ∀ s ∈ c.signer :: c.witnesses,
    '+' ∉ s.name ∧ ∃ seed, s = CheckpointSigner.fromSeed s.name seed
  pinned : ∀ w ∈ c.externalWitnesses, '+' ∉ w.name ∧ '=' ∉ w.name ∧
    NoteKeys.isWeak SK w.key.verifyingKey = false ∧
    ∃ alg ∈ [algEd25519, algCosignatureV1], w.key.keyId =
      computeKeyIdWithAlg SK w.name w.key.verifyingKey alg
  names : (c.externalWitnesses.map fun w => w.name).Nodup
  keys : (c.externalWitnesses.map fun w => NoteCrypto.keyBytes SK w.key.verifyingKey).Nodup
  quorum : c.witnessQuorum.getD c.externalWitnesses.length ≤ c.externalWitnesses.length

theorem made_of_fromNoteKey {text : Str} {signer : CheckpointSigner SK}
    (h : CheckpointSigner.fromNoteKey text = .ok signer) :
    '+' ∉ signer.name ∧ ∃ seed, signer = CheckpointSigner.fromSeed signer.name seed := by
  obtain ⟨seed, -, hmade, hplus, -⟩ := CheckpointSigner.fromNoteKey_iff.mp h
  exact ⟨hplus, seed, hmade⟩

theorem parseWitnesses_ok {witnessKeys : Option Str} {witnesses : List (CheckpointSigner SK)}
    (h : parseWitnesses witnessKeys = .ok witnesses) :
    ∀ s ∈ witnesses, '+' ∉ s.name ∧ ∃ seed, s = CheckpointSigner.fromSeed s.name seed := by
  unfold parseWitnesses at h
  split at h
  · obtain rfl := Except.ok.inj h
    simp
  · exact forall_of_mapM (fun _ _ hs => made_of_fromNoteKey (mapError_ok hs)) h

variable [LawfulNoteKeys SK VK]

/-- The name before the equals sign is that of the key. -/
theorem parseExternalWitness_ok {keys : Option Str} {s : Str} {w : ExternalWitness VK}
    (h : parseExternalWitness SK keys s = .ok w) :
    '+' ∉ w.name ∧ '=' ∉ w.name ∧ NoteKeys.isWeak SK w.key.verifyingKey = false ∧
      ∃ alg ∈ [algEd25519, algCosignatureV1], w.key.keyId =
        computeKeyIdWithAlg SK w.name w.key.verifyingKey alg := by
  unfold parseExternalWitness at h
  split at h
  · rename_i name url hsplit
    split at h
    · cases h
    · rename_i key hfind
      obtain ⟨config, hconfig, h⟩ := bind_eq_ok (mapError_ok h)
      obtain ⟨⟨keyName, alg, keyId, verifyingKey⟩, hparse, hconfig⟩ := bind_eq_ok hconfig
      obtain rfl := Except.ok.inj h
      obtain rfl := Except.ok.inj hconfig
      obtain ⟨hashHex, hplus, halg, hweak, hid, -, htext⟩ := Witness.parseVkey_iff.mp hparse
      have hname : keyName = name := by
        -- the pieces were found in a trimmed text
        obtain ⟨text, -, rfl⟩ := List.mem_map.mp (List.mem_of_find?_eq_some hfind)
        have hhead := List.find?_some hfind
        rw [Text.trim_trim] at htext
        rw [decide_eq_true_eq, htext, keyText, List.splitOn_append_cons_self,
          List.splitOn_eq_singleton hplus] at hhead
        exact Option.some.inj hhead
      have hequals : '=' ∉ name :=
        ((@splitN_iff _ [name] _ _).mp hsplit).1 name List.mem_cons_self
      refine ⟨hplus, hname ▸ hequals, hweak, alg, ?_, hid⟩
      rcases halg with rfl | rfl
      · exact List.mem_cons_self
      · exact List.mem_cons_of_mem _ List.mem_cons_self
  · cases h

/-- What is checked at the start holds of what the server is started with. -/
theorem configure_ok {args : Args} {c : Config SK VK} (h : configure args = .ok c) :
    c.Checked args := by
  obtain ⟨origin, horigin, h⟩ := bind_eq_ok h
  split_ifs at h with hwriters
  obtain ⟨signer, hsigner, h⟩ := bind_eq_ok h
  obtain ⟨witnesses, hwitnesses, h⟩ := bind_eq_ok h
  obtain ⟨external, hexternal, h⟩ := bind_eq_ok h
  split_ifs at h with hquorum
  obtain ⟨_, hdistinct, h⟩ := bind_eq_ok h
  obtain rfl := Except.ok.inj h
  obtain ⟨⟨hnames, -⟩, hkeys, -⟩ := checkDistinct_iff.mp (mapError_ok hdistinct)
  refine ⟨?_, rfl, ?_, ?_, ?_, hnames, hkeys, Nat.le_of_not_lt hquorum⟩
  · have hnew := mapError_ok horigin
    unfold Origin.new at hnew
    split_ifs at hnew
    obtain rfl := Except.ok.inj hnew
    rfl
  · rw [not_and_or, not_not] at hwriters
    rcases hwriters with hkey | hpublic
    · exact .inl (by simpa [Option.isSome_iff_ne_none] using hkey)
    · exact .inr hpublic
  · exact List.forall_mem_cons.mpr
      ⟨made_of_fromNoteKey (mapError_ok hsigner), parseWitnesses_ok hwitnesses⟩
  · have hparse := mapError_ok hexternal
    unfold parseExternalWitnesses at hparse
    split at hparse
    · obtain rfl := Except.ok.inj hparse
      simp
    · exact forall_of_mapM (fun _ _ hw => parseExternalWitness_ok hw) hparse

/-! ### What is accepted -/

/-- Entries with a comma between each two. -/
def commas (entries : List Str) : Str := List.intercalate [','] entries

omit [NoteCrypto SK VK] [NoteKeys SK VK] [DecodeErrors] [LawfulNoteKeys SK VK] in
theorem splitOn_commas {entries : List Str} (h : ∀ e ∈ entries, ',' ∉ e) (hne : entries ≠ []) :
    (commas entries).splitOn ',' = entries := List.splitOn_intercalate ',' h hne

omit [NoteCrypto SK VK] [NoteKeys SK VK] [DecodeErrors] [LawfulNoteKeys SK VK] in
theorem entriesOf_commas {entries : List Str} (h : ∀ e ∈ entries, ',' ∉ e ∧ trim e ≠ []) :
    entriesOf (commas entries) = entries := by
  by_cases hne : entries = []
  · subst hne
    rfl
  · rw [entriesOf, splitOn_commas (fun e he => (h e he).1) hne, List.filter_eq_self]
    exact fun e he => decide_eq_true (h e he).2

omit [DecodeErrors] in
theorem comma_not_mem_keyText {name : Str} (h : ',' ∉ name) (n : ℕ) (alg : UInt8) (key : Bytes) :
    ',' ∉ keyText name (Text.Hex.format08x n) alg key := by
  have hdata : ',' ∉ Text.Base64.encode (alg :: key) := by
    have hsymbol : ∀ v < 64, Text.Base64.symbol v ≠ ',' := by decide +kernel
    exact fun hmem =>
      Text.Base64.encode_forall (P := fun c => c ≠ ',') hsymbol (by decide) _ ',' hmem rfl
  exact Note.not_mem_keyText h (by decide) (by decide) hdata n

/-- An external witness and its URL, as they can be written on the command line. -/
structure Listed (e : CheckpointSigner SK × Str) : Prop where
  exported : Exported e.1
  name : Solid e.1.name
  url : Solid e.2
  equals : '=' ∉ e.1.name
  commas : ',' ∉ e.1.name ∧ ',' ∉ e.2

def listedText (e : CheckpointSigner SK × Str) : Str := e.1.name ++ '=' :: e.2

/-- What is made of the name, the URL and the key of a witness. -/
def listedWitness (e : CheckpointSigner SK × Str) : ExternalWitness VK :=
  ⟨e.1.name, e.2, ⟨[], none, NoteCrypto.verifyingKey e.1.signingKey, e.1.keyId, e.1.name⟩, rfl⟩

omit [DecodeErrors] [LawfulNoteKeys SK VK] in
theorem trim_listedText {e : CheckpointSigner SK × Str} (h : Listed e) :
    trim (listedText e) = listedText e := by
  apply trim_solid
  exact Text.solid_append h.name (Text.solid_append (s := ['=']) (by decide) h.url)

theorem new_listed {e : CheckpointSigner SK × Str} (h : Listed e) :
    ExternalWitness.new SK e.1.verificationKey e.2 = .ok (listedWitness e) := by
  rw [ExternalWitness.new, h.exported.newWitness]
  rfl

omit [DecodeErrors] [LawfulNoteKeys SK VK] in
/-- The key of a witness is the first one of its name. -/
theorem find_key {es : List (CheckpointSigner SK × Str)} (hes : ∀ e ∈ es, Exported e.1)
    (hnames : (es.map fun e => e.1.name).Nodup) {e : CheckpointSigner SK × Str} (he : e ∈ es) :
    (es.map fun e => e.1.verificationKey).find?
      (fun key => (key.splitOn '+').head? = some e.1.name) =
      some e.1.verificationKey := by
  have hhead : ∀ f ∈ es, (f.1.verificationKey.splitOn '+').head? = some f.1.name := by
    intro f hf
    rw [CheckpointSigner.verificationKey, keyText, List.splitOn_append_cons_self,
      List.splitOn_eq_singleton (hes f hf).plus]
    rfl
  have hnodup :
      ((es.map fun e => e.1.verificationKey).map fun key => (key.splitOn '+').head?).Nodup := by
    have hmap := hnames.map (Option.some_injective Str)
    rw [List.map_map] at hmap ⊢
    exact (List.map_congr_left hhead).symm ▸ hmap
  rw [← hhead e he]
  exact find_of_nodup hnodup (List.mem_map_of_mem he)

theorem parseExternalWitness_listed {es : List (CheckpointSigner SK × Str)}
    (hes : ∀ e ∈ es, Listed e)
    (hnames : (es.map fun e => e.1.name).Nodup) {e : CheckpointSigner SK × Str} (he : e ∈ es) :
    parseExternalWitness SK (some (commas (es.map fun e => e.1.verificationKey))) (listedText e) =
      .ok (listedWitness e) := by
  have hkeys : ((commas (es.map fun e => e.1.verificationKey)).splitOn ',').map trim =
      es.map fun e => e.1.verificationKey := by
    rw [splitOn_commas]
    · refine (List.map_congr_left fun key hkey => ?_).trans (List.map_id _)
      obtain ⟨f, hf, rfl⟩ := List.mem_map.mp hkey
      exact Witness.trim_verificationKey (hes f hf).exported.start
    · intro key hkey
      obtain ⟨f, hf, rfl⟩ := List.mem_map.mp hkey
      exact comma_not_mem_keyText (hes f hf).commas.1 _ _ _
    · exact List.ne_nil_of_mem (List.mem_map_of_mem he)
  have hsplit := (@splitN_iff '=' [e.1.name] (listedText e) e.2).mpr
    ⟨by simpa using (hes e he).equals, by simp [listedText]⟩
  rw [parseExternalWitness, trim_listedText (hes e he),
    show splitN '=' 2 (listedText e) = [e.1.name, e.2] from hsplit]
  dsimp only
  rw [Option.getD_some, hkeys, find_key (fun f hf => (hes f hf).exported) hnames he]
  dsimp only
  rw [new_listed (hes e he)]
  rfl

/-- Exported keys are accepted, if they are listed with the names of their witnesses. -/
theorem parseExternalWitnesses_listed {es : List (CheckpointSigner SK × Str)}
    (hes : ∀ e ∈ es, Listed e) (hnames : (es.map fun e => e.1.name).Nodup) :
    parseExternalWitnesses SK (some (commas (es.map listedText)))
      (some (commas (es.map fun e => e.1.verificationKey))) =
      .ok (es.map listedWitness) := by
  have hentries : entriesOf (commas (es.map listedText)) = es.map listedText := by
    apply entriesOf_commas
    intro text htext
    obtain ⟨e, he, rfl⟩ := List.mem_map.mp htext
    rw [trim_listedText (hes e he)]
    have := (hes e he).commas
    refine ⟨?_, by simp [listedText]⟩
    simp [listedText, this.1, this.2]
  rw [parseExternalWitnesses, hentries]
  exact mapM_map fun f hf => parseExternalWitness_listed hes hnames hf

/-- A server starts with its own private key and the exported keys of its witnesses. -/
theorem configure_listed {args : Args} {origin : Origin} {signer : CheckpointSigner SK}
    {es : List (CheckpointSigner SK × Str)} (horigin : args.origin = origin.str)
    (hwriters : args.apiKey.isSome ∨ args.allowPublicWrites = true)
    (hsigner : CheckpointSigner.fromNoteKey args.privateKey = .ok signer)
    (hwitnesses : args.witnessKeys = none)
    (hexternal : args.externalWitnesses = some (commas (es.map listedText)))
    (hkeys : args.externalWitnessKeys = some (commas (es.map fun e => e.1.verificationKey)))
    (hes : ∀ e ∈ es, Listed e) (hnames : (es.map fun e => e.1.name).Nodup)
    (hdistinct :
      (es.map fun e => NoteCrypto.keyBytes SK (NoteCrypto.verifyingKey e.1.signingKey)).Nodup)
    (hquorum : args.witnessQuorum.getD es.length ≤ es.length) :
    configure args =
      .ok ⟨origin, signer, [], es.map listedWitness, args.witnessQuorum, args.apiKey⟩ := by
  have hsets : checkDistinct SK [] [] (es.map listedWitness) = .ok () := by
    rw [checkDistinct_iff, List.map_map, List.map_map]
    exact ⟨⟨hnames, by simp⟩, hdistinct, by simp⟩
  have hwrite : ¬ (args.apiKey.isNone ∧ ¬ args.allowPublicWrites) := by
    rintro ⟨hnone, hpublic⟩
    rcases hwriters with h | h
    · rw [Option.isNone_iff_eq_none.mp hnone] at h
      cases h
    · exact hpublic h
  have hlist : (es.map listedWitness : List (ExternalWitness VK)).length = es.length :=
    List.length_map _
  rw [configure, horigin, Origin.new_str, hsigner, hwitnesses, hexternal, hkeys,
    parseExternalWitnesses_listed hes hnames]
  simp only [Except.mapError, bind, Except.bind, parseWitnesses]
  rw [if_neg hwrite, if_neg (by rw [hlist]; exact Nat.not_lt_of_le hquorum), hsets]

/-! ### A log and its witness -/

section

variable [LawfulNoteCrypto SK VK] [Sha256Hash H] [LawfulSha256Hash H] [Witness.HttpTexts]

omit [NoteKeys SK VK] [LawfulNoteKeys SK VK] [LawfulSha256Hash H] [LawfulNoteCrypto SK VK]
  [Witness.HttpTexts] [DecodeErrors] in
/-- The line of a cosignature is as long as the name and 109 bytes. -/
theorem length_toLine (signer : CheckpointSigner SK) (cp : Note.Checkpoint H) (timestamp : UInt64) :
    (Text.utf8 (signer.cosignV1 cp timestamp).toLine).length = (Text.utf8 signer.name).length +
      109 := by
  have hdata : (signer.cosignV1 cp timestamp).sigData.length = 76 := by
    have hid := (signer.cosignV1 cp timestamp).keyId.property
    have hsig := (signer.cosignV1 cp timestamp).signature.property
    have htime : ((signer.cosignV1 cp timestamp).timestamp.map Note.toBeBytes).getD [] =
        Note.toBeBytes timestamp := rfl
    rw [CheckpointSignature.sigData, htime, List.length_append, List.length_append, hid, hsig,
      Note.length_toBeBytes]
  have hascii : ∀ c ∈ Text.Base64.encode (signer.cosignV1 cp timestamp).sigData, c.toNat < 128 := by
    have hsymbol : ∀ v < 64, (Text.Base64.symbol v).toNat < 128 := by decide +kernel
    exact Text.Base64.encode_forall hsymbol (by decide) _
  have hbase64 :
      (Text.utf8 (Text.Base64.encode (signer.cosignV1 cp timestamp).sigData)).length = 104 := by
    rw [Text.length_utf8_ascii hascii, Text.Base64.length_encode, hdata]
  have hsplit : Text.utf8 (signer.cosignV1 cp timestamp).toLine = Text.utf8 Note.sigPrefix ++
      (Text.utf8 signer.name ++
      (Text.utf8 [' '] ++
        Text.utf8 (Text.Base64.encode (signer.cosignV1 cp timestamp).sigData))) := by
    rw [CheckpointSignature.toLine, ← List.singleton_append, Text.utf8, Text.utf8, Text.utf8,
      Text.utf8, Text.utf8, List.flatMap_append, List.flatMap_append, List.flatMap_append]
    rfl
  have hprefix : (Text.utf8 Note.sigPrefix).length = 4 := by decide
  have hspace : (Text.utf8 [' ']).length = 1 := by decide
  rw [hsplit, List.length_append, List.length_append, List.length_append, hbase64, hprefix, hspace]
  omega

omit [LawfulNoteKeys SK VK] [LawfulSha256Hash H] in
/-- The cosignature of a listed witness is what the log waits for. -/
theorem readResponse_listed {e : CheckpointSigner SK × Str} (he : Listed e)
    (cosigned : CosignedCheckpoint H) (timestamp : UInt64)
    (hlen : (Text.utf8 (e.1.cosignV1 cosigned.checkpoint timestamp).toLine).length ≤ maxResponse) :
    (readResponse SK (listedWitness e) cosigned
        ⟨200, Text.utf8 (e.1.cosignV1 cosigned.checkpoint timestamp).toLine⟩ : Publisher H Str) =
      .pure (e.1.cosignV1 cosigned.checkpoint timestamp).toLine := by
  have hverify :
      (listedWitness e).key.verifyCosignature SK (e.1.cosignV1 cosigned.checkpoint timestamp)
      cosigned.checkpoint.toBody = .ok () := by
    have hkey : NoteCrypto.verifyingKey e.1.signingKey = (listedWitness e).key.verifyingKey := rfl
    exact verifyCosignature_signed rfl hkey rfl _ rfl rfl
  have htext : responseText ⟨200, Text.utf8 (e.1.cosignV1 cosigned.checkpoint timestamp).toLine⟩ =
      .ok (e.1.cosignV1 cosigned.checkpoint timestamp).toLine := by
    rw [responseText, if_neg (Nat.not_lt_of_le hlen), Text.fromUtf8_utf8]
  have hline :
      CheckpointSignature.fromLine (trim (e.1.cosignV1 cosigned.checkpoint timestamp).toLine) =
      .ok (e.1.cosignV1 cosigned.checkpoint timestamp) := by
    rw [fromLine_trim]
    exact CheckpointSignature.fromLine_toLine (show Solid e.1.name from he.name)
  have hcheck : checkResponse SK (listedWitness e) cosigned 200
      (e.1.cosignV1 cosigned.checkpoint timestamp).toLine =
      .ok (e.1.cosignV1 cosigned.checkpoint timestamp).toLine := by
    rw [checkResponse, if_neg (by simp), hline]
    simp only [bind, Except.bind]
    rw [hverify]
  rw [readResponse, htext, Prog.bind_eq]
  dsimp only [Except.mapError, Prog.ofExcept, Prog.bind]
  rw [if_neg (by decide), hcheck]

/-- A log and a witness of its list, of which each was given the exported key of the other. -/
structure Paired (args : Args) (origin : Origin) (signer : CheckpointSigner SK)
    (es : List (CheckpointSigner SK × Str)) (e : CheckpointSigner SK × Str) (witnessKey : Str)
    (logs : List (Origin × CheckpointSigner SK)) : Prop where
  origin_eq : args.origin = origin.str
  writers : args.apiKey.isSome ∨ args.allowPublicWrites = true
  signer_key : CheckpointSigner.fromNoteKey args.privateKey = .ok signer
  witnesses : args.witnessKeys = none
  external : args.externalWitnesses = some (commas (es.map listedText))
  keys : args.externalWitnessKeys = some (commas (es.map fun e => e.1.verificationKey))
  listed : ∀ e ∈ es, Listed e
  names : (es.map fun e => e.1.name).Nodup
  distinct : (es.map fun e => NoteCrypto.keyBytes SK (NoteCrypto.verifyingKey e.1.signingKey)).Nodup
  quorum : args.witnessQuorum.getD es.length ≤ es.length
  mem : e ∈ es
  urls : ∀ f ∈ es, endpoint f.2 = endpoint e.2 → f.2 = e.2
  witness_key : CheckpointSigner.fromNoteKey witnessKey = .ok e.1
  short : (Text.utf8 e.1.name).length + 109 ≤ maxResponse
  log_mem : (origin, signer) ∈ logs
  exported : ∀ log ∈ logs, Exported log.2 ∧ '=' ∉ log.1.str
  origins : (logs.map fun log => log.1.str).Nodup
  solid : Solid origin.str ∧ Solid signer.name

variable {args : Args} {origin : Origin} {signer : CheckpointSigner SK}
  {es : List (CheckpointSigner SK × Str)}
  {e : CheckpointSigner SK × Str} {witnessKey : Str} {logs : List (Origin × CheckpointSigner SK)}

/-- Both start, the witness cosigns what the log sends it from where it is, and the log
accepts the cosignature. -/
theorem paired_exchange [DecidableEq H] (h : Paired args origin signer es e witnessKey logs) :
    ∃ d : Deployment SK VK, configure args =
        .ok ⟨d.origin, d.signer, d.witnesses, d.externalWitnesses, d.witnessQuorum, args.apiKey⟩ ∧
      Witness.start witnessKey (logs.map Witness.configText) = .ok d.witness ∧ d.url = e.2 ∧
      ∀ (E D : List H) (db : Witness.WitnessDb H) (clock : UInt64)
        (cosigned : CosignedCheckpoint H),
        Witness.RowOf origin.str E db → E <+: D → D.length ≤ i64Max →
        Witness.SignedHead signer origin D cosigned →
        ∃ (response : Witness.Response) (w : ExternalWitness VK), w ∈ d.externalWitnesses ∧
          (handle d clock (Text.utf8
            (Witness.requestBody E.length (Witness.proofFrom E.length D) cosigned.toText)) db).1 =
            .ok response ∧
          (readResponse SK w cosigned response : Publisher H Str) =
            .pure (e.1.cosignV1 cosigned.checkpoint clock).toLine ∧
          Witness.RowOf origin.str D (handle d clock
            (Text.utf8 (Witness.requestBody E.length (Witness.proofFrom E.length D)
              cosigned.toText)) db).2 := by
  have hconfigure := configure_listed h.origin_eq h.writers h.signer_key h.witnesses h.external
    h.keys h.listed h.names
    h.distinct h.quorum
  obtain ⟨hstart, hknows⟩ :=
    Witness.start_knows h.witness_key (List.ne_nil_of_mem h.log_mem) h.exported h.origins
  have hmem : listedWitness e ∈ es.map (listedWitness : _ → ExternalWitness VK) :=
    List.mem_map_of_mem h.mem
  refine ⟨⟨signer, origin, [], es.map listedWitness, args.witnessQuorum,
    ⟨e.1, logs.map Witness.configOf⟩, e.2,
    hknows _ h.log_mem, ?_, h.solid.1, h.solid.2, by simp, ?_⟩, hconfigure, hstart, rfl, ?_⟩
  · intro w hw hurl
    obtain ⟨f, hf, rfl⟩ := List.mem_map.mp hw
    exact h.urls f hf hurl
  · intro w hw
    obtain ⟨f, hf, rfl⟩ := List.mem_map.mp hw
    exact (h.listed f hf).name
  · intro E D db clock cosigned hrow hpre hD hsigned
    obtain ⟨db', hrun, hrow'⟩ :=
      Witness.runAlone_handler (hknows _ h.log_mem) hrow hpre hD hsigned hpre.length_le clock
    rw [if_pos rfl] at hrun hrow'
    refine ⟨_, listedWitness e, hmem, congrArg Prod.fst hrun, ?_, ?_⟩
    · exact readResponse_listed (h.listed e h.mem) cosigned clock
        (by rw [length_toLine]; exact h.short)
    · rw [handle, hrun]
      exact hrow'

end

end

/-! ### One log and one witness -/

section

open Note (SeedKey StartKey logSigner)
open Rfc (mth)

attribute [local instance] Text.Base64.plainErrors Witness.plainTexts

/-- The witness of the example, and where it is served. -/
def listedOne : CheckpointSigner SeedKey × Str :=
  (.fromSeed "witness".toList (StartKey.start 32 [1]), "http://witness".toList)

def argsOne : Args where
  origin := "a-log".toList
  privateKey := logSigner.toNoteKey
  witnessKeys := none
  externalWitnesses := some (commas [listedText listedOne])
  externalWitnessKeys := some (commas [listedOne.1.verificationKey])
  witnessQuorum := none
  apiKey := some "key".toList
  allowPublicWrites := false

def originOne : Origin := ⟨"a-log".toList, by decide, by decide, by decide⟩

theorem pairedOne : Paired argsOne originOne logSigner [listedOne] listedOne listedOne.1.toNoteKey
    [(originOne, logSigner)] where
  origin_eq := rfl
  writers := .inl rfl
  signer_key := (CheckpointSigner.fromNoteKey_toNoteKey_iff rfl).mpr (by decide)
  witnesses := rfl
  external := rfl
  keys := rfl
  listed := by
    intro e he
    obtain rfl := List.mem_singleton.mp he
    exact ⟨⟨⟨_, rfl⟩, by decide, by decide⟩, by decide, by decide, by decide, by decide, by decide⟩
  names := List.nodup_singleton _
  distinct := List.nodup_singleton _
  quorum := le_rfl
  mem := List.mem_singleton_self _
  urls := by
    intro f hf _
    rw [List.mem_singleton.mp hf]
  witness_key := (CheckpointSigner.fromNoteKey_toNoteKey_iff rfl).mpr (by decide)
  short := by decide
  log_mem := List.mem_singleton_self _
  exported := by
    intro log hlog
    obtain rfl := List.mem_singleton.mp hlog
    exact ⟨⟨⟨_, rfl⟩, by decide, by decide⟩, by decide⟩
  origins := List.nodup_singleton _
  solid := ⟨by decide, by decide⟩

/-- The tree before and after the exchange of the example. -/
def seenOne : List StartHash := [hashLeaf [1]]

def grownOne : List StartHash := [hashLeaf [1], hashLeaf [2]]

def sentOne : CosignedCheckpoint StartHash :=
  .new ⟨originOne, grownOne.length, mth grownOne⟩ logSigner

/-- The witness has seen the first tree. -/
def rowOne : Witness.WitnessDb StartHash :=
  Witness.WitnessDb.empty.put originOne.str ⟨1, mth seenOne, []⟩

theorem paired_exchange_one : ∃ d : Deployment SeedKey SeedKey, configure argsOne =
      .ok ⟨d.origin, d.signer, d.witnesses, d.externalWitnesses, d.witnessQuorum, argsOne.apiKey⟩ ∧
    Witness.start listedOne.1.toNoteKey ([(originOne, logSigner)].map Witness.configText) =
      .ok d.witness ∧
    ∃ (response : Witness.Response) (w : ExternalWitness SeedKey), w ∈ d.externalWitnesses ∧
      (handle d 7 (Text.utf8
        (Witness.requestBody 1 (Witness.proofFrom 1 grownOne) sentOne.toText)) rowOne).1 =
        .ok response ∧
      (readResponse SeedKey w sentOne response : Publisher StartHash Str) =
        .pure (listedOne.1.cosignV1 sentOne.checkpoint 7).toLine ∧
      Witness.RowOf originOne.str grownOne (handle d 7 (Text.utf8
        (Witness.requestBody 1 (Witness.proofFrom 1 grownOne) sentOne.toText)) rowOne).2 := by
  obtain ⟨d, hconfigure, hstart, -, hexchange⟩ := paired_exchange (H := StartHash) pairedOne
  have hsigned : Witness.SignedHead logSigner originOne grownOne sentOne :=
    Witness.SignedHead.new logSigner originOne (by decide) (by decide) (by decide)
  obtain ⟨response, w, hmem, hhandle, hread, hrow⟩ :=
    hexchange seenOne grownOne rowOne 7 sentOne ⟨rfl, rfl⟩ ⟨[hashLeaf [2]], rfl⟩ (by decide) hsigned
  exact ⟨d, hconfigure, hstart, response, w, hmem, hhandle, hread, hrow⟩

theorem configure_ok_one : ∃ c : Config SeedKey SeedKey, configure argsOne = .ok c ∧
    c.Checked argsOne := by
  have h := pairedOne
  have hc := configure_listed h.origin_eq h.writers h.signer_key h.witnesses h.external h.keys
    h.listed h.names h.distinct
    h.quorum
  exact ⟨_, hc, configure_ok hc⟩

end

end Siglog.Worker

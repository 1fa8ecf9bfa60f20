import Siglog.Client
import Siglog.Conda.Export
import Siglog.Rfc.Inclusion
import Siglog.Witness.Vkey

/-! The verification of a package against a log. The server is trusted with nothing: what
it says of the package is only a hint where to look, and what passes was proved for a
checkpoint that the log has signed. -/

namespace Siglog.Conda

open Api (checkpointPath)
open Concurrent (Prog)
open Concurrent.Prog (returns_any returns_bind_any returns_contract returns_mapErr returns_mono
  returns_ofExcept)
open Merkle (InclusionVerifier LawfulInclusionVerifier)
open Monitor (CondaEntry CondaLog EntryJson parseEntry)
open Note (Checkpoint CosignedCheckpoint NoteCrypto NoteKeys)
open Rfc (VerifyInclusion mth)
open Text (Str fromUtf8 utf8)
open Text.Base64 (DecodeErrors)
open Text.Json (Value)
open Witness (HttpTexts LogConfig verifyCheckpoint)

/-- What the index answers. -/
structure LookupResponse where
  indices : List UInt64
  found : Bool

/-- The JSON parser on what is read, with its error texts. -/
class VerifyJson where
  value : Bytes → Except String Value
  lookupResponse : Bytes → Except String LookupResponse

/-- Where the metadata to compare with comes from. -/
inductive Repodata where
  | none
  | file (contents : Except String Bytes)
  | url (url : Str)

structure Args where
  logUrl : Str
  /-- Trusted checkpoint origin (not obtained from the server). -/
  logOrigin : Str
  /-- Trusted note verification key. -/
  logKey : Str
  subdir : Str
  filename : Str
  repodata : Repodata
  maxRepodataBytes : ℕ

/-- A program of the verifier. Its errors are texts. -/
abbrev Verifier (α : Type) := Prog ClientOp ClientOp.Answer (Fault String) α

def ensure (cond : Bool) (e : String) : Verifier Unit := if cond then .pure () else .fail (.err e)

def shown : Fault Error → Fault String
  | .err e => .err e.display
  | .panic => .panic

def ofLog {α : Type} (p : Client α) : Verifier α := p.mapErr shown

def orFail {ε α : Type} (text : ε → String) (x : Except ε α) : Verifier α :=
  Prog.ofExcept (x.mapError (Fault.err ∘ text))

section

variable (args : Args)

/-- The package in the metadata of its channel, of either format. -/
def packageOf (repodata : Value) : Option Value :=
  ((repodata.get "packages".toList).bind (Value.get · args.filename)).or
    ((repodata.get "packages.conda".toList).bind (Value.get · args.filename))

/-- The entry that the log should have for the package. -/
def expectedEntry (repodata : Value) : Except String Bytes :=
  match packageOf args repodata with
  | none => .error "VERIFICATION FAILED: entry missing from repodata"
  | some entry =>
    match RepodataEntry.fromRepodata args.filename args.subdir entry none with
    | none => .error "invalid repodata entry"
    | some entry => .ok entry.toNormalizedJson

/-- The entry of the log is that of the package, as far as it was asked for. -/
def isMatch (expected : Option Bytes) (entry : Bytes) (value : Value) : Bool :=
  (value.get "filename".toList).bind Value.asStr = some args.filename ∧
    (value.get "subdir".toList).bind Value.asStr = some args.subdir ∧
    expected.all (· = entry)

variable [VerifyJson]

def readRepodata : Verifier (Option Value) :=
  match args.repodata with
  | .none => .pure none
  | .file contents => do
    let contents ← orFail id contents
    let value ← orFail id (VerifyJson.value contents)
    .pure (some value)
  | .url url => do
    match ← Prog.call ClientOp.build with
    | .error e => .fail (.err e)
    | .ok () =>
      match ← Prog.call (ClientOp.get url) with
      | .error e => .fail (.err e)
      | .ok body => do
        let body ← orFail Error.display (boundedBody body args.maxRepodataBytes)
        let value ← orFail id (VerifyJson.value body)
        .pure (some value)

def readExpected : Verifier (Option Bytes) := do
  match ← readRepodata args with
  | none => .pure none
  | some repodata => do
    let expected ← orFail id (expectedEntry args repodata)
    .pure (some expected)

/-- The path of a lookup. -/
def lookupPath [Sha256] : Str :=
  "vindex/lookup/".toList ++ Text.Hex.encode (digest (utf8 args.filename)).val

variable {SK VK H : Type} [NoteCrypto SK VK] [NoteKeys SK VK] [Sha256] [Sha256Hash H] [DecodeErrors]
  [HttpTexts] [InclusionVerifier H]

/-- The checkpoint of the log, with the signature of the trusted key. -/
def trustedCheckpoint (SK : Type) [NoteCrypto SK VK] [NoteKeys SK VK] (log : LogClient H) :
    Verifier (Checkpoint H) := do
  let config ← orFail Error.display (LogConfig.new SK args.logOrigin args.logKey)
  let text ← ofLog (log.read checkpointPath (1024 * 1024))
  match fromUtf8 text with
  | none => .fail (.err (HttpTexts.utf8Error text))
  | some text => do
    let signed ← orFail Error.display (CosignedCheckpoint.fromText text)
    orFail Error.display (verifyCheckpoint SK config signed)
    ensure (signed.checkpoint.size ≤ i64Max) "tree too large"
    .pure signed.checkpoint

/-- An unsigned lookup is only a discovery hint, not evidence of presence, absence, or
completeness. -/
def discover (log : LogClient H) : Verifier (List UInt64) := do
  let body ← ofLog (log.read (lookupPath args) (1024 * 1024))
  let lookup ← orFail id (VerifyJson.lookupResponse body)
  ensure (lookup.found ∧ lookup.indices ≠ [])
    "VERIFICATION FAILED: no candidates returned (not proof of absence)"
  ensure (lookup.indices.length ≤ 1000) "too many lookup candidates"
  .pure lookup.indices

/-- Prove the entry of every candidate, and look for the package among them. -/
def checkCandidates (cp : Checkpoint H) (expected : Option Bytes) :
    LogClient H → Bool → List UInt64 → Verifier Bool
  | _, found, [] => .pure found
  | log, found, index :: indices => do
    ensure (index.toNat < cp.size)
      "lookup index outside signed checkpoint; retry if the index is ahead of publication"
    let bundle ← ofLog (log.bundle (index.toNat / 256) cp.size)
    match bundle.entries[index.toNat % 256]? with
    | none => .fail .panic
    | some entry => do
      let log ← ofLog (log.verifyEntry entry index.toNat cp)
      let value ← orFail id (VerifyJson.value entry)
      checkCandidates cp expected log (found || isMatch args expected entry value) indices

def passed : String := "VERIFICATION PASSED: metadata matches an authenticated log entry"

def included : String := "Authenticated entry inclusion; metadata comparison not requested"

/-- What is printed if the verification succeeds. -/
def verify (SK H : Type) [NoteCrypto SK VK] [NoteKeys SK VK] [Sha256Hash H] [InclusionVerifier H] :
    Verifier String := do
  let log : LogClient H ← ofLog (LogClient.new args.logUrl)
  let cp ← trustedCheckpoint args SK log
  let indices ← discover args log
  let expected ← readExpected args
  let found ← checkCandidates args cp expected log false indices
  ensure found "VERIFICATION FAILED: no authenticated matching entry"
  .pure (if expected.isSome then passed else included)

end

/-! ### What is known when it succeeds -/

section

variable {A : ∀ o : ClientOp, o.Answer → Prop}

theorem returns_ensure {cond : Bool} {e : String} :
    (ensure cond e).Returns A fun x => ∀ a, x = .ok a → cond = true := by
  rw [ensure]
  split_ifs with h
  · exact fun _ _ => h
  · rintro _ ⟨⟩

theorem returns_orFail {ε α : Type} {text : ε → String} {x : Except ε α} :
    (orFail text x).Returns A fun y => ∀ a, y = .ok a → x = .ok a := by
  rw [orFail, returns_ofExcept]
  cases x with
  | ok a => rintro _ ⟨⟩; rfl
  | error e => rintro _ ⟨⟩

theorem returns_ofLog {α : Type} {p : Client α} {V : α → Prop}
    (h : p.Returns A fun x => ∀ a, x = .ok a → V a) :
    (ofLog p).Returns A fun x => ∀ a, x = .ok a → V a := by
  rw [ofLog, returns_mapErr]
  refine returns_mono ?_ h
  intro x hx a ha
  cases x with
  | ok b => exact hx a (by cases ha; rfl)
  | error e => cases ha

theorem ofLog_ok {α : Type} {p : Client α} {P : α → Prop}
    (h : p.Returns A fun x => ∃ a, x = .ok a ∧ P a) :
    (ofLog p).Returns A fun x => ∃ a, x = .ok a ∧ P a := by
  rw [ofLog, returns_mapErr]
  refine returns_mono ?_ h
  rintro _ ⟨a, rfl, ha⟩
  exact ⟨a, rfl, ha⟩

theorem boundedBody_ok {body text : Bytes} {limit : ℕ} (h : boundedBody body limit = .ok text) :
    body.length ≤ limit ∧ text = body := by
  unfold boundedBody at h
  split_ifs at h with hlimit
  exact ⟨Nat.le_of_not_lt hlimit, (Except.ok.inj h).symm⟩

theorem orFail_ok {ε α : Type} {text : ε → String} {a : α} :
    (orFail text (.ok a) : Verifier α) = .pure a := rfl

theorem ensure_ok {cond : Bool} {e : String} (h : cond = true) : ensure cond e = .pure () :=
  if_pos h

theorem returns_any_ok {O : Type} {R : O → Type} {ε α : Type} {B : ∀ o, R o → Prop}
    (p : Prog O R ε α) :
    p.Returns B fun x => ∀ a, x = .ok a → True := returns_any p fun _ _ _ => trivial

end

section

variable (args : Args) [VerifyJson]

/-- The entry was proved for the checkpoint, and it is the one that was looked for. -/
structure Proved [Sha256Hash H] (cp : Checkpoint H) (expected : Option Bytes) (entry : Bytes) :
    Prop where
  verified : ∃ index proof, VerifyInclusion (hashLeaf entry) index cp.size proof cp.rootHash
  isMatch : ∃ value, VerifyJson.value entry = .ok value ∧ isMatch args expected entry value = true

/-- The metadata is that of the file, or of a body that the URL answers. All answers are in `A`. -/
def Args.Gives (A : ∀ o : ClientOp, o.Answer → Prop) (value : Value) : Prop :=
  match args.repodata with
  | .none => False
  | .file contents => ∃ text, contents = .ok text ∧ VerifyJson.value text = .ok value
  | .url url => ∃ body, A (.get url) (.ok body) ∧ body.length ≤ args.maxRepodataBytes ∧
      VerifyJson.value body = .ok value

/-- What the entry is compared with. -/
def ExpectedOf (A : ∀ o : ClientOp, o.Answer → Prop) (expected : Option Bytes) : Prop :=
  match expected with
  | none => args.repodata = .none
  | some entry => ∃ value, args.Gives A value ∧ expectedEntry args value = .ok entry

/-- A checkpoint that the trusted key has signed. -/
def Trusted (SK : Type) [NoteCrypto SK VK] [NoteKeys SK VK] [Sha256Hash H] [DecodeErrors]
    (cp : Checkpoint H) : Prop :=
  ∃ config signed, LogConfig.new SK args.logOrigin args.logKey = .ok config ∧
    verifyCheckpoint SK config signed = .ok () ∧
    signed.checkpoint = cp

/-- The metadata that was read. -/
def RepodataRead (A : ∀ o : ClientOp, o.Answer → Prop) : Option Value → Prop
  | none => args.repodata = .none
  | some value => args.Gives A value

variable {A : ∀ o : ClientOp, o.Answer → Prop}

theorem readRepodata_returns :
    (readRepodata args).Returns A fun x => ∀ o, x = .ok o → RepodataRead args A o := by
  unfold readRepodata RepodataRead Args.Gives
  cases hsource : args.repodata with
  | none =>
    rintro _ ⟨⟩
    rfl
  | file contents =>
    refine returns_bind_any returns_orFail (by simp) fun text htext => ?_
    refine returns_bind_any returns_orFail (by simp) fun value hvalue => ?_
    rintro _ ⟨⟩
    exact ⟨text, htext, hvalue⟩
  | url url =>
    intro built _
    cases built with
    | error e => rintro _ ⟨⟩
    | ok u =>
      intro answer hanswer
      cases answer with
      | error e => rintro _ ⟨⟩
      | ok body =>
        dsimp only
        rw [Prog.pure_bind]
        refine returns_bind_any returns_orFail (by simp) fun text hbounded => ?_
        refine returns_bind_any returns_orFail (by simp) fun value hvalue => ?_
        rintro _ ⟨⟩
        obtain ⟨hlimit, rfl⟩ := boundedBody_ok hbounded
        exact ⟨_, hanswer, hlimit, hvalue⟩

theorem readExpected_returns :
    (readExpected args).Returns A fun x => ∀ expected, x = .ok expected →
      ExpectedOf args A expected := by
  refine returns_bind_any (readRepodata_returns args) (by simp) fun repodata hrepodata => ?_
  cases repodata with
  | none =>
    rintro _ ⟨⟩
    exact hrepodata
  | some value =>
    refine returns_bind_any returns_orFail (by simp) fun entry hentry => ?_
    rintro _ ⟨⟩
    exact ⟨value, hrepodata, hentry⟩

variable {SK VK H : Type} [NoteCrypto SK VK] [NoteKeys SK VK] [Sha256Hash H]

omit [VerifyJson] in
theorem trustedCheckpoint_returns [DecodeErrors] [HttpTexts] (log : LogClient H) :
    (trustedCheckpoint args SK log).Returns A fun x => ∀ cp, x = .ok cp → Trusted args SK cp := by
  refine returns_bind_any returns_orFail (by simp) fun config hconfig => ?_
  refine returns_bind_any (returns_any_ok _) (by simp) fun text _ => ?_
  cases fromUtf8 text with
  | none => rintro _ ⟨⟩
  | some text =>
    refine returns_bind_any (returns_any_ok _) (by simp) fun signed _ => ?_
    refine returns_bind_any returns_orFail (by simp) fun u hverify => ?_
    refine returns_bind_any returns_ensure (by simp) fun _ _ => ?_
    rintro _ ⟨⟩
    exact ⟨config, signed, hconfig, hverify, rfl⟩

/-- A match was there before, or a candidate was proved. -/
theorem checkCandidates_returns [InclusionVerifier H] [LawfulInclusionVerifier H]
    (cp : Checkpoint H) (expected : Option Bytes) (indices : List UInt64) (log : LogClient H)
    (found : Bool) :
    (checkCandidates args cp expected log found indices).Returns A fun x => x = .ok true →
      found = true ∨ ∃ entry, Proved args cp expected entry := by
  induction indices generalizing log found with
  | nil =>
    intro h
    exact .inl (Except.ok.inj h)
  | cons index indices ih =>
    refine returns_bind_any returns_ensure (by simp) fun _ _ => ?_
    refine returns_bind_any (returns_any_ok _) (by simp) fun bundle _ => ?_
    cases bundle.entries[index.toNat % 256]? with
    | none => rintro ⟨⟩
    | some entry =>
      have hentry : (log.verifyEntry entry index.toNat cp).Returns A _ :=
        returns_contract (fun _ _ _ => trivial) (log.verifyEntry_returns entry index.toNat cp)
      refine returns_bind_any (returns_ofLog hentry) (by simp) fun log hproved => ?_
      refine returns_bind_any returns_orFail (by simp) fun value hvalue => ?_
      refine returns_mono ?_ (ih log _)
      intro x hx hok
      rcases hx hok with hfound | h
      · rcases (Bool.or_eq_true _ _).mp hfound with hfound | hmatch
        · exact .inl hfound
        · exact .inr ⟨entry, ⟨_, hproved⟩, value, hvalue, hmatch⟩
      · exact .inr h

/-- Whatever the server answers. -/
theorem verify_returns [Sha256] [DecodeErrors] [HttpTexts] [InclusionVerifier H]
    [LawfulInclusionVerifier H] : (verify args SK H).Returns A fun x => ∀ message, x = .ok message →
    ∃ (cp : Checkpoint H) (expected : Option Bytes) (entry : Bytes), Trusted args SK cp ∧
      ExpectedOf args A expected ∧ Proved args cp expected entry ∧
      message = if expected.isSome then passed else included := by
  refine returns_bind_any (returns_any_ok _) (by simp) fun log _ => ?_
  refine returns_bind_any (trustedCheckpoint_returns args log) (by simp) fun cp hcp => ?_
  refine returns_bind_any (returns_any_ok _) (by simp) fun indices _ => ?_
  refine returns_bind_any (readExpected_returns args) (by simp) fun expected hexpected => ?_
  refine returns_bind_any (P := fun found => found = true → ∃ entry, Proved args cp expected entry)
    (returns_mono ?_ (checkCandidates_returns args cp expected indices log false)) (by simp)
      fun found hfound => ?_
  · rintro x hx found rfl rfl
    rcases hx rfl with h | h
    · cases h
    · exact h
  · refine returns_bind_any returns_ensure (by simp) fun _ hensure => ?_
    rintro _ ⟨⟩
    obtain ⟨entry, hentry⟩ := hfound hensure
    exact ⟨cp, expected, entry, hcp, hexpected, hentry, rfl⟩

omit [Sha256Hash H] [VerifyJson] in
theorem passed_ne_included : passed ≠ included := by decide

omit [VerifyJson] in
theorem expectedEntry_ok {repodata : Value} {entry : Bytes}
    (h : expectedEntry args repodata = .ok entry) :
    ∃ package e, packageOf args repodata = some package ∧
      RepodataEntry.fromRepodata args.filename args.subdir package none = some e ∧
      e.toNormalizedJson = entry := by
  unfold expectedEntry at h
  split at h
  · cases h
  · rename_i package hpackage
    split at h
    · cases h
    · rename_i e he
      exact ⟨package, e, hpackage, he, Except.ok.inj h⟩

/-- Whatever the server answers, a verification that passes is for a checkpoint that the
trusted key has signed, and the entry of the package in the metadata, as the file or the URL
gives it, is one of every log with that head. If a monitor accepts the log, its SHA-256 is
the only one that the log has for the filename. -/
theorem verify_passed [Sha256] [DecodeErrors] [HttpTexts] [InclusionVerifier H]
    [LawfulInclusionVerifier H] [EntryJson] [LawfulEntryJson]
    (hinj : Function.Injective2 (hashChildren (H := H)))
    (hleaf : Function.Injective (hashLeaf (H := H))) :
    (verify args SK H).Returns A fun x => x = .ok passed →
      ∃ (cp : Checkpoint H) (repodata package : Value) (e : RepodataEntry),
        Trusted args SK cp ∧ args.Gives A repodata ∧ packageOf args repodata = some package ∧
        RepodataEntry.fromRepodata args.filename args.subdir package none = some e ∧
        ∀ log : List Bytes, log.length = cp.size → mth (log.map hashLeaf) = cp.rootHash →
          e.toNormalizedJson ∈ log ∧ ∀ entries, CondaLog log entries → e.condaEntry ∈ entries ∧
            ∀ entry ∈ entries, entry.filename = args.filename → entry.sha256 = e.sha256 := by
  refine returns_mono ?_ (verify_returns args)
  intro x hx hpassed
  obtain ⟨cp, expected, entry, hcp, hexpected, hproved, hmessage⟩ := hx _ hpassed
  cases expected with
  | none => exact absurd hmessage passed_ne_included
  | some bytes =>
    obtain ⟨repodata, hgives, hentry⟩ := hexpected
    obtain ⟨package, e, hpackage, he, rfl⟩ := expectedEntry_ok args hentry
    -- what was proved is the entry of the package
    obtain ⟨⟨index, proof, hverify⟩, value, -, hmatch⟩ := hproved
    obtain ⟨-, -, hsame⟩ := of_decide_eq_true hmatch
    obtain rfl : e.toNormalizedJson = entry := by simpa using hsame
    refine ⟨cp, repodata, package, e, hcp, hgives, hpackage, he, fun log hlen hroot => ?_⟩
    have hlog : e.toNormalizedJson ∈ log := by
      rw [← hlen, ← hroot, ← List.length_map (hashLeaf (H := H))] at hverify
      have hget := Rfc.leaf_of_verifyInclusion hinj hverify
      rw [List.getElem?_map, Option.map_eq_some_iff] at hget
      obtain ⟨data, hdata, heq⟩ := hget
      exact hleaf heq ▸ List.mem_of_getElem? hdata
    refine ⟨hlog, fun entries hentries => ?_⟩
    have hmem : e.condaEntry ∈ entries := by
      have hparsed : parseEntry e.toNormalizedJson ∈ log.map parseEntry := List.mem_map_of_mem hlog
      rw [e.parseEntry_normalized, hentries.parses, List.mem_map] at hparsed
      obtain ⟨entry, hmem, heq⟩ := hparsed
      exact Except.ok.inj heq ▸ hmem
    obtain ⟨-, hfilename, -⟩ := RepodataEntry.fromRepodata_normal he
    exact ⟨hmem,
      fun entry hentry hname => hentries.filename entry hentry _ hmem (hname.trans hfilename.symm)⟩

end

/-! ### Two packages -/

section

open Note (SeedKey logSigner)

/-- A parser of the texts of the channel, of its entries and of one lookup. -/
local instance twoVerifyJson : VerifyJson where
  value text :=
    if text = utf8 twoChannel.write then .ok twoChannel
    else if text = utf8 onePackage.toValue.write then .ok onePackage.toValue
    else if text = utf8 otherPackage.toValue.write then .ok otherPackage.toValue
    else .error "expected value at line 1 column 1"
  lookupResponse text :=
    if text = utf8 "\x7b\"indices\":[0],\"found\":true\x7d".toList then .ok ⟨[0], true⟩
    else .error "expected value at line 1 column 1"

attribute [local instance] Merkle.rootVerifier Merkle.rootVerifier_lawful Witness.plainTexts
  Text.Base64.plainErrors Text.Hex.plainErrors oneEntryJson oneEntryJson_lawful StartHash.sha256

def metadataUrl : Str := "https://channel/repodata.json".toList

def twoArgs : Args :=
  ⟨"https://log/".toList, "log".toList, logSigner.verificationKey, "noarch".toList,
    onePackage.filename, .url metadataUrl, 10000⟩

/-- The channel gives its metadata. The log can answer anything. -/
def FromChannel : ∀ o : ClientOp, o.Answer → Prop
  | .build, _ => True
  | .get url, r => url = metadataUrl → r = .ok (utf8 twoChannel.write)

theorem value_twoChannel : VerifyJson.value (utf8 twoChannel.write) = .ok twoChannel := if_pos rfl

theorem packageOf_two : packageOf twoArgs twoChannel = some onePackage.toValue := rfl

/-- The first package of the channel is in the log. -/
theorem verify_passed_two :
    (verify twoArgs SeedKey FreeHash).Returns FromChannel fun x => x = .ok passed →
    ∃ cp : Checkpoint FreeHash, Trusted twoArgs SeedKey cp ∧
      ∀ log : List Bytes, log.length = cp.size →
      mth (log.map hashLeaf) = cp.rootHash → onePackage.toNormalizedJson ∈ log := by
  refine returns_mono ?_ (verify_passed twoArgs freeHash_injective fun a b h => by cases h; rfl)
  intro x hx hpassed
  obtain ⟨cp, repodata, package, e, hcp, ⟨body, hbody, -, hvalue⟩, hpackage, he, hlog⟩ := hx hpassed
  -- the body is that of the channel
  obtain rfl := Except.ok.inj (hbody rfl)
  obtain rfl := Except.ok.inj (value_twoChannel.symm.trans hvalue)
  obtain rfl := Option.some.inj (packageOf_two.symm.trans hpackage)
  obtain rfl := Option.some.inj (fromRepodata_one.symm.trans he)
  exact ⟨cp, hcp, fun log hlen hroot => (hlog log hlen hroot).1⟩

end

end Siglog.Conda

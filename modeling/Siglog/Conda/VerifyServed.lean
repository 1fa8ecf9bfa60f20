import Siglog.Api.Remote
import Siglog.Conda.Verify
import Siglog.Vindex.Reads

/-! The verification of a package against a log that is running, with an index that finds an
entry by its filename. It succeeds exactly if the entry of the package is indexed, and all
candidates that the index has can be checked: there are not too many of them, and none is
ahead of the published checkpoint. -/

namespace Siglog.Conda

open Api (Cached Handlers.route SeenFrom bundle_entry checkpointPath received respond size_le
  verifyEntry_served)
open Concurrent (Prog)
open Concurrent.Prog (returns_bind_ok returns_contract returns_mapErr returns_mono)
open Merkle (InclusionVerifier LawfulInclusionVerifier)
open Note (Checkpoint CheckpointSigner CosignedCheckpoint LawfulNoteCrypto LawfulNoteKeys NoteCrypto
  NoteKeys Origin)
open Rfc (mth)
open Text (Str fromUtf8 fromUtf8_utf8 utf8)
open Text.Base64 (DecodeErrors)
open Text.Hex (HexErrors)
open Text.Json (Value)
open Vindex (IndexKey LookupResult Mirrors VerifiableIndex VindexLookupResponse indicesOf spec
  vindexLookup)
open Witness (HttpTexts LogConfig SignedHead verifyCheckpoint)
open Worker (LogPool logSys)

section

variable [VerifyJson] [Sha256]

/-- The keys of an entry are the hashes of the texts in its field. -/
def jsonKeysMapFn (field : Str) (data : Bytes) : List IndexKey :=
  match VerifyJson.value data with
  | .error _ => []
  | .ok value =>
    match value.get field with
    | some (.array arr) => (arr.filterMap Value.asStr).map fun s => digest (utf8 s)
    | some (.string s) => [digest (utf8 s)]
    | _ => []

/-- The key of an entry is the hash of its filename. -/
def filenameMapFn (data : Bytes) : List IndexKey :=
  match VerifyJson.value data with
  | .error _ => []
  | .ok value =>
    match (value.get "filename".toList).bind Value.asStr with
    | none => []
    | some filename => [digest (utf8 filename)]

/-- An entry with a filename has its key, and what has keys can be read. -/
structure KeysFilenames (mapFn : Bytes → List IndexKey) : Prop where
  mem : ∀ data value filename, VerifyJson.value data = .ok value →
    (value.get "filename".toList).bind Value.asStr = some filename →
    digest (utf8 filename) ∈ mapFn data
  parses : ∀ data key, key ∈ mapFn data → ∃ value, VerifyJson.value data = .ok value

/-- The map of the server, over the field of the filename. -/
theorem jsonKeysMapFn_keysFilenames : KeysFilenames (jsonKeysMapFn "filename".toList) where
  mem data value filename hvalue hname := by
    unfold jsonKeysMapFn
    generalize "filename".toList = field at hname ⊢
    obtain ⟨item, hitem, hstr⟩ := Option.bind_eq_some_iff.mp hname
    cases item with
    | string s =>
      obtain rfl := Option.some.inj hstr
      simp [hvalue, hitem]
    | null | bool _ | number _ | array _ | object _ => cases hstr
  parses data key h := by
    unfold jsonKeysMapFn at h
    cases hvalue : VerifyJson.value data with
    | error e => simp [hvalue] at h
    | ok value => exact ⟨value, rfl⟩

/-- The map of the monitor's library. -/
theorem filenameMapFn_keysFilenames : KeysFilenames filenameMapFn where
  mem data value filename hvalue hname := by
    unfold filenameMapFn
    generalize "filename".toList = field at hname ⊢
    simp [hvalue, hname]
  parses data key h := by
    unfold filenameMapFn at h
    cases hvalue : VerifyJson.value data with
    | error e => simp [hvalue] at h
    | ok value => exact ⟨value, rfl⟩

variable {SK VK H : Type} [Sha256Hash H]

/-- The data of an entry by its index. -/
def entryData (log : List (Entry H)) (i : ℕ) : Bytes := (log[i]?.map Entry.data).getD []

omit [VerifyJson] [Sha256] in
theorem entryData_of_lt {log : List (Entry H)} {i : ℕ} (h : i < log.length) :
    ∃ entry, log[i]? = some entry ∧ entryData log i = entry.data := by
  refine ⟨log[i], List.getElem?_eq_getElem h, ?_⟩
  rw [entryData, List.getElem?_eq_getElem h]
  rfl

/-- The entry is that of the package. -/
def Matches (args : Args) (expected : Option Bytes) (data : Bytes) : Prop :=
  ∃ value, VerifyJson.value data = .ok value ∧ isMatch args expected data value = true

/-- The metadata is what is read for the comparison. -/
def MetadataOf (args : Args) (metadata : Bytes) (expected : Option Bytes) : Prop :=
  match args.repodata with
  | .none => expected = none
  | .file contents =>
    contents = .ok metadata ∧ ∃ value entry, VerifyJson.value metadata = .ok value ∧
      expectedEntry args value = .ok entry ∧ expected = some entry
  | .url _ =>
    metadata.length ≤ args.maxRepodataBytes ∧ ∃ value entry, VerifyJson.value metadata = .ok value ∧
      expectedEntry args value = .ok entry ∧ expected = some entry

/-- Where the log is read. -/
def Args.base (args : Args) : Str := (args.logUrl.reverse.dropWhile (· = '/')).reverse

/-- What the verification is answered: the checkpoint that is published now, other objects
from this or a later state of the log, and what the index and the channel say. -/
def Served [HttpTexts] [DecidableEq H] (p : LogPool H) (args : Args) (lookup metadata : Bytes) :
    (o : ClientOp) → o.Answer → Prop
  | .build, r => r = .ok ()
  | .get url, r => SeenFrom p args.base (.get url) r ∧
      (url = args.base ++ '/' :: checkpointPath → r = received (respond p.shared checkpointPath)) ∧
      (url = args.base ++ '/' :: lookupPath args → r = .ok lookup) ∧
      (args.repodata = .url url → r = .ok metadata)

/-- The checkpoint of an integrated size is published, and its key is the trusted one. -/
structure Published (SK : Type) [NoteCrypto SK VK] [NoteKeys SK VK] (p : LogPool H) (n : ℕ)
    (args : Args) : Prop where
  size : n ∈ p.shared.sizes
  head : ∃ (signer : CheckpointSigner SK) (origin : Origin) (signed : CosignedCheckpoint H),
    Witness.Exported signer ∧
    SignedHead signer origin (p.shared.leaves.take n) signed ∧
    p.shared.objects checkpointPath = some (utf8 signed.toText) ∧
    (utf8 signed.toText).length ≤ 1024 * 1024 ∧
    args.logOrigin = origin.str ∧ args.logKey = signer.verificationKey

/-- The key that a package is looked up by. -/
def Args.key (args : Args) : IndexKey := digest (utf8 args.filename)

/-- The lookup is answered from the index of the first `m` entries of the log. -/
structure Looked [HexErrors] (mapFn : Bytes → List IndexKey) (p : LogPool H) (m : ℕ) (args : Args)
    (lookup : Bytes) : Prop where
  le : m ≤ p.shared.log.length
  answer : ∃ (index : VerifiableIndex) (response : VindexLookupResponse),
    Mirrors mapFn (entryData p.shared.log) m index ∧
    (vindexLookup true (Text.Hex.encode args.key.val)).eval
      (fun o => (index.perform (.ok ()) o).1) = .ok response ∧
    VerifyJson.lookupResponse lookup = .ok ⟨response.indices.map UInt64.ofNat, response.found⟩

/-- The package is found: its entry is indexed, the lookup is not too long, and the indexed
entries with its key are not too many and all below the published size `n`. -/
structure Found (mapFn : Bytes → List IndexKey) (p : LogPool H) (n m : ℕ) (args : Args)
    (lookup : Bytes) (expected : Option Bytes) : Prop where
  length : lookup.length ≤ 1024 * 1024
  few : (spec mapFn (entryData p.shared.log) m args.key).length ≤ 1000
  below : ∀ i ∈ spec mapFn (entryData p.shared.log) m args.key, i < n
  indexed : ∃ i < m, Matches args expected (entryData p.shared.log i)

/-! ### The steps -/

omit [VerifyJson] in
/-- The response of the handler is made of a lookup of its key. -/
theorem lookup_of_response [HexErrors] {index : VerifiableIndex} {key : IndexKey}
    {response : VindexLookupResponse} (h : (vindexLookup true (Text.Hex.encode key.val)).eval
      (fun o => (index.perform (.ok ()) o).1) = .ok response) :
    ∃ result, index.lookup key = .ok result ∧ response.indices = result.indices ∧
      response.found = result.found := by
  rw [vindexLookup, if_neg (by simp), Text.Hex.decode_encode] at h
  dsimp only at h
  rw [dif_pos key.2] at h
  change ((Prog.ofExcept (index.lookup key)).bind _).eval _ = _ at h
  cases hlookup : index.lookup key with
  | error e =>
    rw [hlookup] at h
    cases h
  | ok result =>
    rw [hlookup] at h
    obtain rfl := Except.ok.inj h
    exact ⟨result, rfl, rfl, rfl⟩

section

variable {mapFn : Bytes → List IndexKey} {p : LogPool H} {m : ℕ} {args : Args} {lookup : Bytes}

/-- The candidates are the indexed entries that have the key. -/
theorem Looked.indices [HexErrors] (h : Looked mapFn p m args lookup)
    (hmax : p.shared.log.length ≤ i64Max) :
    ∃ (indices : List UInt64) (found : Bool),
      VerifyJson.lookupResponse lookup = .ok ⟨indices, found⟩ ∧ (found = true ↔ indices ≠ []) ∧
      indices.map UInt64.toNat = spec mapFn (entryData p.shared.log) m args.key := by
  obtain ⟨index, response, hmirrors, hresponse, hparse⟩ := h.answer
  obtain ⟨result, hresult, hindices, hfound⟩ := lookup_of_response hresponse
  have htells := hmirrors.sound.tells hresult
  have hspec : response.indices = spec mapFn (entryData p.shared.log) m args.key := by
    rw [hindices, htells.indices, hmirrors.indices]
  refine ⟨response.indices.map UInt64.ofNat, response.found, hparse, ?_, ?_⟩
  · rw [hfound, htells.found, hindices]
    simp
  · -- an indexed entry has an index of 64 bits
    rw [← hspec, List.map_map]
    refine (List.map_congr_left fun i hi => ?_).trans (List.map_id _)
    rw [hspec, spec, List.mem_filter, List.mem_range] at hi
    have := h.le
    unfold i64Max at hmax
    exact Nat.mod_eq_of_lt (by omega)

end

omit [Sha256] in
theorem expected_of_value {A : ∀ o : ClientOp, o.Answer → Prop} {value : Value} {entry : Bytes}
    (h : expectedEntry args value = .ok entry)
    (hread : (readRepodata args).Returns A fun x => ∃ o, x = .ok o ∧ o = some value) :
    (readExpected args).Returns A fun x => ∃ o, x = .ok o ∧ o = some entry := by
  refine returns_bind_ok hread ?_
  rintro _ rfl
  dsimp only
  rw [h, orFail_ok]
  exact ⟨_, rfl, rfl⟩

section

variable [HttpTexts] [DecidableEq H] {p : LogPool H} {args : Args} {lookup metadata : Bytes}
  {expected : Option Bytes}

omit [VerifyJson] in
theorem Served.seen {o : ClientOp} {r : o.Answer} (h : Served p args lookup metadata o r) :
    SeenFrom p args.base o r := by
  cases o with
  | build => exact h
  | get url => exact h.1

omit [VerifyJson] in
theorem read_known {log : LogClient H} {path : Str} {limit : ℕ} {body : Bytes}
    (hlimit : body.length ≤ limit)
    (h : ∀ r, Served p args lookup metadata (.get (log.url ++ '/' :: path)) r → r = .ok body) :
    (ofLog (log.read path limit)).Returns (Served p args lookup metadata)
      fun x => ∃ a, x = .ok a ∧ a = body := by
  refine ofLog_ok fun r hr => ?_
  rw [h r hr]
  change (Prog.mapErr Fault.err (Prog.ofExcept (boundedBody body limit))).Returns _ _
  rw [boundedBody, if_neg (Nat.not_lt_of_le hlimit)]
  exact ⟨body, rfl, rfl⟩

omit [VerifyJson] in
theorem read_too_long {log : LogClient H} {path : Str} {limit : ℕ} {body : Bytes}
    (hlimit : limit < body.length)
    (h : ∀ r, Served p args lookup metadata (.get (log.url ++ '/' :: path)) r → r = .ok body) :
    (ofLog (log.read path limit)).Returns (Served p args lookup metadata)
      fun x => ∃ e, x = .error (.err e) := by
  rw [ofLog, returns_mapErr]
  intro r hr
  rw [h r hr]
  change (Prog.mapErr Fault.err (Prog.ofExcept (boundedBody body limit))).Returns _ _
  rw [boundedBody, if_pos hlimit]
  exact ⟨_, rfl⟩

theorem readExpected_served (h : MetadataOf args metadata expected) :
    (readExpected args).Returns (Served p args lookup metadata)
    fun x => ∃ o, x = .ok o ∧ o = expected := by
  unfold MetadataOf at h
  cases hsource : args.repodata with
  | none =>
    rw [hsource] at h
    obtain rfl : expected = none := h
    rw [readExpected, readRepodata, hsource]
    exact ⟨_, rfl, rfl⟩
  | file contents =>
    rw [hsource] at h
    obtain ⟨rfl, value, entry, hvalue, hentry, rfl⟩ := h
    apply expected_of_value hentry
    rw [readRepodata, hsource]
    dsimp only
    rw [orFail_ok, Prog.bind_eq, Prog.pure_bind, hvalue]
    exact ⟨_, rfl, rfl⟩
  | url url =>
    rw [hsource] at h
    obtain ⟨hmax, value, entry, hvalue, hentry, rfl⟩ := h
    apply expected_of_value hentry
    rw [readRepodata, hsource]
    rintro _ rfl r hr
    rw [hr.2.2.2 hsource]
    dsimp only
    rw [Prog.pure_bind]
    dsimp only
    rw [boundedBody, if_neg (Nat.not_lt_of_le hmax), orFail_ok, Prog.bind_eq, Prog.pure_bind,
      hvalue]
    exact ⟨_, rfl, rfl⟩

/-- The candidates are found, if there are some and neither they nor the lookup are too long. -/
theorem discover_served {indices : List UInt64} {found : Bool}
    (hparse : VerifyJson.lookupResponse lookup = .ok ⟨indices, found⟩)
    (hfound : found = true ↔ indices ≠ []) {log : LogClient H} (hurl : log.url = args.base) :
    (discover args log).Returns (Served p args lookup metadata) fun x =>
      (x = .ok indices ∧ lookup.length ≤ 1024 * 1024 ∧ indices.length ≤ 1000) ∨
        ((∃ e, x = .error (.err e)) ∧
          (lookup.length ≤ 1024 * 1024 → indices.length ≤ 1000 → indices = [])) := by
  have hknown : ∀ r, Served p args lookup metadata (.get (log.url ++ '/' :: lookupPath args)) r →
      r = .ok lookup := fun r hr => hr.2.2.1 (by rw [hurl])
  by_cases hlength : lookup.length ≤ 1024 * 1024
  · refine returns_bind_ok (P := (· = lookup)) (read_known hlength hknown) ?_
    rintro _ rfl
    rw [hparse, orFail_ok]
    simp only [Prog.bind_eq, Prog.pure_bind]
    by_cases hnil : indices = []
    · rw [ensure, if_neg (by simp [hnil])]
      exact .inr ⟨⟨_, rfl⟩, fun _ _ => hnil⟩
    rw [ensure_ok (by simp [hfound.mpr hnil, hnil])]
    by_cases hmany : indices.length ≤ 1000
    · rw [ensure_ok (by simpa using hmany)]
      exact .inl ⟨rfl, hlength, hmany⟩
    · rw [ensure, if_neg (by simpa using hmany)]
      exact .inr ⟨⟨_, rfl⟩, fun _ h => absurd h hmany⟩
  · rw [discover, Prog.bind_eq, Concurrent.Prog.returns_bind]
    refine returns_mono ?_ (read_too_long (Nat.lt_of_not_le hlength) hknown)
    rintro _ ⟨e, rfl⟩
    exact .inr ⟨⟨e, rfl⟩, fun h => absurd h hlength⟩

variable {SK VK : Type} [NoteCrypto SK VK] [NoteKeys SK VK] [DecodeErrors] [LawfulSha256Hash H]
  {n : ℕ}

omit [VerifyJson] in
theorem trustedCheckpoint_served [LawfulNoteCrypto SK VK] [LawfulNoteKeys SK VK]
    (h : Worker.Reachable p)
    (hpublished : Published SK p n args) {log : LogClient H} (hurl : log.url = args.base) :
    (trustedCheckpoint args SK log).Returns (Served p args lookup metadata) fun x =>
      ∃ cp, x = .ok cp ∧ cp.size = n ∧ cp.rootHash = mth (p.shared.leaves.take n) := by
  obtain ⟨signer, origin, signed, hexported, hsigned, hobj, hlength, horigin, hkey⟩ :=
    hpublished.head
  obtain ⟨hlog, hmax⟩ := size_le h hpublished.size
  have hlen : (p.shared.leaves.take n).length = n := by
    rw [Worker.LogSystem.leaves, List.length_take, List.length_map]
    exact Nat.min_eq_left hlog
  have hhead := hsigned.head
  rw [hlen] at hhead
  rw [trustedCheckpoint, horigin, hkey, hexported.new, orFail_ok]
  refine returns_bind_ok (P := (· = utf8 signed.toText)) (read_known hlength fun r hr => ?_) ?_
  · -- the checkpoint is the one that is published now
    have hcheckpoint := hr.2.1 (by rw [hurl])
    rw [hcheckpoint, Api.respond_checkpoint hobj]
    rfl
  · rintro _ rfl
    rw [fromUtf8_utf8]
    dsimp only
    rw [hsigned.plain.printable.fromText_toText, orFail_ok]
    have hverify : verifyCheckpoint SK
        ⟨origin.str, none, NoteCrypto.verifyingKey signer.signingKey, signer.keyId, signer.name⟩
          signed = .ok () :=
      hsigned.verify rfl rfl rfl rfl
    have hensure :
        (ensure (signed.checkpoint.size ≤ i64Max) "tree too large" : Verifier Unit) = .pure () := by
      rw [ensure, hhead]
      exact if_pos (by simpa using hmax)
    simp only [Prog.bind_eq, Prog.pure_bind, hverify, orFail_ok, hensure]
    rw [hhead]
    exact ⟨_, rfl, rfl, rfl⟩

variable [InclusionVerifier H] [LawfulInclusionVerifier H]

omit [DecodeErrors] in
/-- The candidates are proved one after the other, up to one that is not published yet. If
there is none, a match is found if one of their entries is that of the package. -/
theorem checkCandidates_served (h : Worker.Reachable p) (hn : n ∈ p.shared.sizes)
    {cp : Checkpoint H} (hsize : cp.size = n) (hroot : cp.rootHash = mth (p.shared.leaves.take n))
    {indices : List UInt64} (hparse : ∀ index ∈ indices, ∃ value,
      VerifyJson.value (entryData p.shared.log index.toNat) = .ok value)
    {log : LogClient H} (hc : Cached p.shared.leaves args.base log) (found : Bool) :
    (checkCandidates args cp expected log found indices).Returns (Served p args lookup metadata)
      fun x => (∃ b, x = .ok b ∧ (∀ index ∈ indices, index.toNat < n) ∧ (b = true ↔ found = true ∨
          ∃ index ∈ indices, Matches args expected (entryData p.shared.log index.toNat))) ∨
        ((∃ e, x = .error (.err e)) ∧ ∃ index ∈ indices, n ≤ index.toNat) := by
  induction indices generalizing log found with
  | nil => exact .inl ⟨found, rfl, List.forall_mem_nil _, by simp⟩
  | cons index indices ih =>
    rw [List.forall_mem_cons] at hparse
    obtain ⟨⟨value, hvalue⟩, hparse⟩ := hparse
    by_cases hi : index.toNat < n
    · obtain ⟨entry, hentry, hdata⟩ := entryData_of_lt (hi.trans_le (size_le h hn).1)
      rw [hdata] at hvalue
      have hmatch : Matches args expected (entryData p.shared.log index.toNat) ↔
          isMatch args expected entry.data value = true := by
        rw [hdata, Matches]
        constructor
        · rintro ⟨v, hv, hmatch⟩
          rw [hvalue] at hv
          exact Except.ok.inj hv ▸ hmatch
        · exact fun hmatch => ⟨value, hvalue, hmatch⟩
      rw [checkCandidates, ensure_ok (by rw [hsize]; simpa using hi), Prog.bind_eq, Prog.pure_bind]
      have hbundle : (log.bundle (index.toNat / 256) n).Returns (SeenFrom p log.url) _ :=
        bundle_entry h hn hentry hi
      rw [hc.1] at hbundle
      refine returns_bind_ok
        (P := fun bundle => bundle.entries[index.toNat % 256]? = some entry.data) (ofLog_ok ?_) ?_
      · rw [hsize]
        refine returns_mono ?_ (returns_contract (fun _ _ => Served.seen) hbundle)
        rintro _ ⟨bundle, rfl, -, hget⟩
        exact ⟨bundle, rfl, hget⟩
      rintro bundle hget
      rw [hget]
      refine returns_bind_ok (P := Cached p.shared.leaves args.base) (ofLog_ok ?_) fun log hc => ?_
      · exact returns_contract (fun _ _ => Served.seen)
          (verifyEntry_served h hn hc hentry hi hsize hroot)
      rw [hvalue, orFail_ok, Prog.bind_eq, Prog.pure_bind]
      refine returns_mono ?_ (ih hparse hc _)
      rintro _ (⟨b, rfl, hbelow, hb⟩ | ⟨⟨e, rfl⟩, index', hmem, hahead⟩)
      · refine .inl ⟨b, rfl, List.forall_mem_cons.mpr ⟨hi, hbelow⟩, hb.trans ?_⟩
        simp only [Bool.or_eq_true, List.exists_mem_cons_iff, hmatch, or_assoc]
      · exact .inr ⟨⟨e, rfl⟩, index', List.mem_cons_of_mem _ hmem, hahead⟩
    · rw [checkCandidates, ensure, if_neg (by rw [hsize]; simpa using hi)]
      exact .inr ⟨⟨_, rfl⟩, index, List.mem_cons_self, Nat.le_of_not_lt hi⟩

/-- With the index of the first entries of a running log, whose published checkpoint has the
trusted signature, the verification succeeds if and only if the package is found. Otherwise
it ends with an error. -/
theorem verify_served [LawfulNoteCrypto SK VK] [LawfulNoteKeys SK VK] [HexErrors]
    (h : Worker.Reachable p) (hpublished : Published SK p n args) {mapFn : Bytes → List IndexKey}
    (hmap : KeysFilenames mapFn) {m : ℕ} (hlooked : Looked mapFn p m args lookup)
    (hmetadata : MetadataOf args metadata expected) :
    (verify args SK H).Returns (Served p args lookup metadata) fun x =>
      (x = .ok (if expected.isSome then passed else included) ∧
          Found mapFn p n m args lookup expected) ∨
        ((∃ e, x = .error (.err e)) ∧ ¬ Found mapFn p n m args lookup expected) := by
  obtain ⟨indices, found, hresponse, hfound, hspec⟩ :=
    hlooked.indices (Worker.reachable_inv h).length_log_le
  have hcandidates : ∀ i, (∃ index ∈ indices, index.toNat = i) ↔
      i ∈ spec mapFn (entryData p.shared.log) m args.key := by
    intro i
    rw [← hspec, List.mem_map]
  have hmem : ∀ i, i ∈ spec mapFn (entryData p.shared.log) m args.key ↔
      i < m ∧ args.key ∈ mapFn (entryData p.shared.log i) := by
    intro i
    rw [spec, List.mem_filter, List.mem_range, decide_eq_true_eq]
  -- an entry of the package has its filename, so that the index has it
  have hmatches : (∃ index ∈ indices, Matches args expected (entryData p.shared.log index.toNat)) ↔
      ∃ i < m, Matches args expected (entryData p.shared.log i) := by
    constructor
    · rintro ⟨index, hindex, hmatch⟩
      exact ⟨_, ((hmem _).mp ((hcandidates _).mp ⟨index, hindex, rfl⟩)).1, hmatch⟩
    · rintro ⟨i, hi, value, hvalue, hmatch⟩
      have hname := (of_decide_eq_true hmatch).1
      have hkey := hmap.mem _ value args.filename hvalue hname
      obtain ⟨index, hindex, rfl⟩ := (hcandidates i).mpr ((hmem i).mpr ⟨hi, hkey⟩)
      exact ⟨index, hindex, value, hvalue, hmatch⟩
  have hparse : ∀ index ∈ indices, ∃ value,
      VerifyJson.value (entryData p.shared.log index.toNat) = .ok value := by
    intro index hindex
    exact hmap.parses _ _ ((hmem _).mp ((hcandidates _).mp ⟨index, hindex, rfl⟩)).2
  have hlength : (spec mapFn (entryData p.shared.log) m args.key).length = indices.length := by
    rw [← hspec, List.length_map]
  refine returns_bind_ok (P := (· = ⟨args.base, ∅⟩)) (ofLog_ok ?_) ?_
  · rintro _ rfl
    exact ⟨_, rfl, rfl⟩
  rintro _ rfl
  have hcached : Cached p.shared.leaves args.base (⟨args.base, ∅⟩ : LogClient H) :=
    ⟨rfl, fun _ _ _ _ h => by cases h⟩
  refine returns_bind_ok (trustedCheckpoint_served h hpublished rfl) fun cp hcp => ?_
  obtain ⟨hsize, hroot⟩ := hcp
  rw [Prog.bind_eq, Concurrent.Prog.returns_bind]
  refine returns_mono ?_ (discover_served hresponse hfound rfl)
  rintro _ (⟨rfl, hshort, hfew⟩ | ⟨⟨e, rfl⟩, hnone⟩)
  · refine returns_bind_ok (readExpected_served hmetadata) ?_
    rintro _ rfl
    rw [Prog.bind_eq, Concurrent.Prog.returns_bind]
    refine returns_mono ?_
      (checkCandidates_served h hpublished.size hsize hroot hparse hcached false)
    rintro _ (⟨b, rfl, hbelow, hb⟩ | ⟨⟨e, rfl⟩, index, hindex, hahead⟩)
    · rw [hmatches] at hb
      cases b with
      | true =>
        rw [Concurrent.Prog.After, ensure_ok rfl]
        refine .inl ⟨rfl, hshort, hlength.trans_le hfew, fun i hi => ?_, by simpa using hb⟩
        obtain ⟨index, hindex, rfl⟩ := (hcandidates i).mpr hi
        exact hbelow index hindex
      | false => exact .inr ⟨⟨_, rfl⟩, fun hpasses => by simp [hpasses.indexed] at hb⟩
    · refine .inr ⟨⟨e, rfl⟩, fun hpasses => ?_⟩
      have := hpasses.below _ ((hcandidates _).mp ⟨index, hindex, rfl⟩)
      omega
  · refine .inr ⟨⟨e, rfl⟩, fun hpasses => ?_⟩
    obtain ⟨index, hindex, -⟩ := hmatches.mpr hpasses.indexed
    rw [hnone hpasses.length (hlength.symm.trans_le hpasses.few)] at hindex
    cases hindex

end

end

/-! ### Two packages -/

section

open Note (SeedKey logOrigin logSigner)
open Worker (cycled pending reachable_cycled reachable_pending)

attribute [local instance] twoVerifyJson Merkle.rootVerifier Merkle.rootVerifier_lawful
  Witness.plainTexts Text.Base64.plainErrors Text.Hex.plainErrors StartHash.sha256

/-- The data of the two packages. -/
def twoEntries : List Bytes :=
  [utf8 onePackage.toValue.write, utf8 otherPackage.toValue.write]

/-- The log after both are integrated. -/
def twoIntegrated : Worker.LogSystem StartHash := cycled 10 (pending twoEntries)

theorem reachable_twoIntegrated :
    ∃ ts, Worker.Reachable (⟨twoIntegrated, ts⟩ : LogPool StartHash) :=
  reachable_cycled (reachable_pending (by decide +kernel)) 10

/-- What the server says of the first package. -/
def lookupOne : Bytes := utf8 "\x7b\"indices\":[0],\"found\":true\x7d".toList

def mapTwo : Bytes → List IndexKey := jsonKeysMapFn "filename".toList

theorem metadata_two :
    MetadataOf twoArgs (utf8 twoChannel.write) (some onePackage.toNormalizedJson) := by
  refine ⟨by decide +kernel, twoChannel, _, value_twoChannel, ?_, rfl⟩
  have hmade : RepodataEntry.fromRepodata twoArgs.filename twoArgs.subdir onePackage.toValue none =
      some onePackage := fromRepodata_one
  rw [expectedEntry, packageOf_two]
  dsimp only
  rw [hmade]

theorem matches_one :
    Matches twoArgs (some onePackage.toNormalizedJson) (utf8 onePackage.toValue.write) := by
  have hvalue : VerifyJson.value (utf8 onePackage.toValue.write) = .ok onePackage.toValue :=
    (if_neg (by decide +kernel)).trans (if_pos rfl)
  refine ⟨_, hvalue, decide_eq_true ⟨by decide +kernel, by decide +kernel, ?_⟩⟩
  rw [RepodataEntry.toNormalizedJson_eq, Option.all_some]
  exact decide_eq_true rfl

/-- An index of the first entries. -/
theorem exists_mirrors (mapFn : Bytes → List IndexKey) (entries : ℕ → Bytes) (n : ℕ) :
    ∃ s : VerifiableIndex, Mirrors mapFn entries n s ∧ s.poisoned = false := by
  induction n with
  | zero => exact ⟨.new 10 10, ⟨Vindex.sound_new 10 10, fun key => rfl⟩, rfl⟩
  | succ n ih =>
    obtain ⟨s, hs, hsane⟩ := ih
    obtain ⟨index, tree, -, hsound, hindices⟩ :=
      Vindex.record_sound hs.sound n (mapFn (entries n))
    refine ⟨{ s with index := index, prefixTree := tree }, ⟨hsound, fun key => ?_⟩, hsane⟩
    rw [hindices, hs.indices, Vindex.spec_succ]
    simp only [Vindex.not_mem_spec, not_false_eq_true, and_true]

/-- It finds the entry of the first package. -/
theorem looked_one {p : LogPool StartHash} (hle : 2 ≤ p.shared.log.length)
    (hspec : spec mapTwo (entryData p.shared.log) 2 twoArgs.key = [0]) :
    Looked mapTwo p 2 twoArgs lookupOne := by
  obtain ⟨index, hmirrors, hsane⟩ := exists_mirrors mapTwo (entryData p.shared.log) 2
  obtain ⟨proof, hproof, -⟩ := hmirrors.sound.holds.lookup twoArgs.key
  obtain ⟨result, hresult⟩ : ∃ result, index.lookup twoArgs.key = .ok result := by
    rw [VerifiableIndex.lookup, VerifiableIndex.readTreeSize, hsane, hproof]
    exact ⟨_, rfl⟩
  have htells := hmirrors.sound.tells hresult
  have hindices : result.indices = [0] := by rw [htells.indices, hmirrors.indices, hspec]
  have hfound : result.found = true := htells.found.mpr (by simp [hindices])
  refine ⟨hle, index, .of result index.rootHash, hmirrors, ?_, ?_⟩
  · rw [vindexLookup, if_neg (by simp), Text.Hex.decode_encode]
    dsimp only
    rw [dif_pos twoArgs.key.2]
    change ((Prog.ofExcept (index.lookup twoArgs.key)).bind _).eval _ = _
    rw [hresult]
    rfl
  · rw [VindexLookupResponse.of, hindices, hfound]
    exact if_pos rfl

/-- The first package is found and is that of the channel. -/
theorem verify_served_two : ∃ p : LogPool StartHash, Worker.Reachable p ∧ p.shared.size = 2 ∧
    (verify twoArgs SeedKey StartHash).Returns
      (Served p twoArgs lookupOne (utf8 twoChannel.write)) (· = .ok passed) := by
  obtain ⟨ts, h⟩ := reachable_twoIntegrated
  have hsize : twoIntegrated.size = 2 := by decide +kernel
  have hlog : twoIntegrated.log.map Entry.data = twoEntries := by decide +kernel
  have hleaves : (utf8 (CosignedCheckpoint.new ⟨logOrigin, (twoIntegrated.leaves.take 2).length,
      mth (twoIntegrated.leaves.take 2)⟩ logSigner).toText).length ≤ 1024 * 1024 ∧
        (twoIntegrated.leaves.take 2).length ≤ i64Max := by decide +kernel
  have hspec : spec mapTwo (entryData twoIntegrated.log) 2 twoArgs.key = [0] := by decide +kernel
  generalize twoIntegrated = s at h hsize hlog hleaves hspec
  have hmem : 2 ∈ s.sizes := hsize ▸ (Worker.reachable_inv h).size_mem
  have hlength : s.log.length = 2 := by rw [← List.length_map Entry.data, hlog]; rfl
  have hdata : entryData s.log 0 = utf8 onePackage.toValue.write := by
    rw [entryData, ← List.getElem?_map, hlog]
    rfl
  have hsigned := SignedHead.new logSigner logOrigin (by decide) (by decide) hleaves.2
  generalize CosignedCheckpoint.new ⟨logOrigin, (s.leaves.take 2).length,
    mth (s.leaves.take 2)⟩ logSigner = signed at hsigned hleaves
  have hp : Worker.Reachable ⟨s.put checkpointPath (utf8 signed.toText), ts⟩ :=
    h.tail (.env (.publish s (utf8 signed.toText)))
  have hpublished : Published SeedKey ⟨s.put checkpointPath (utf8 signed.toText), ts⟩ 2 twoArgs :=
    ⟨hmem, logSigner, logOrigin, signed, ⟨⟨_, rfl⟩, by decide, by decide⟩, hsigned,
      s.put_objects_self _ _, hleaves.1, rfl, rfl⟩
  refine ⟨_, hp, hsize, returns_mono ?_ (verify_served hp hpublished jsonKeysMapFn_keysFilenames
    (looked_one hlength.ge hspec) metadata_two)⟩
  rintro x (⟨rfl, -⟩ | ⟨-, hnone⟩)
  · rfl
  · -- the one candidate is below the published size
    refine absurd ⟨by decide +kernel, ?_, ?_, 0, by decide, hdata ▸ matches_one⟩ hnone
    · exact (congrArg List.length hspec).trans_le (by decide)
    · intro i hi
      obtain rfl := List.mem_singleton.mp (hspec ▸ hi)
      decide

end

end Siglog.Conda

import Siglog.Witness.Request
import Siglog.Merkle.ProofCorrect

/-! What the witness answers to a request of an honest log when nothing fails: it
cosigns, unless the request starts from another size than its own. -/

namespace Siglog.Witness

open Concurrent (Prog)
open Concurrent.Sys (runAlone runAlone_bind runAlone_bind_error runAlone_mapErr runAlone_attempt)
open Note (NoteCrypto LawfulNoteCrypto Origin Checkpoint CheckpointSignature CheckpointSigner
  CosignedCheckpoint)
open Rfc (mth)
open Storage (asU64 asI64)
open Text (Str joinLines utf8 fromUtf8_utf8)
open Text.Base64 (DecodeErrors)

variable {SK VK H : Type} [NoteCrypto SK VK] [Sha256Hash H]

/-- The row of a log holds the tree head over `E`. Without a row it is that of the empty tree. -/
def RowOf (origin : Str) (E : List H) (db : WitnessDb H) : Prop :=
  match db.rows origin with
  | none => E = []
  | some row => row.size = E.length ∧ row.rootHash = mth E

theorem RowOf.size_eq {origin : Str} {E : List H} {db : WitnessDb H} (h : RowOf origin E db)
    (hE : E.length ≤ i64Max) :
    db.size origin = E.length := by
  unfold RowOf at h
  unfold WitnessDb.size
  cases hrow : db.rows origin with
  | none =>
    rw [hrow] at h
    rw [show E = [] from h]
    rfl
  | some row =>
    rw [hrow] at h
    change asU64 row.size = E.length
    rw [h.1, Storage.asU64_natCast hE]

/-- The hashes that a publisher sends for a witness of some size. -/
def proofFrom (oldSize : ℕ) (D : List H) : List H :=
  if oldSize ≠ 0 ∧ oldSize ≠ D.length then Rfc.proof oldSize D else []

theorem length_proofFrom_le {D : List H} {oldSize : ℕ} (hold : oldSize ≤ D.length)
    (hD : D.length ≤ i64Max) :
    (proofFrom oldSize D).length ≤ AddCheckpointRequest.maxProofHashes := by
  unfold proofFrom
  split_ifs with h
  · exact Merkle.length_proof_le (by omega) hold hD
  · exact Nat.zero_le _

/-- A checkpoint of the tree over `D` with the signature of the log. -/
structure SignedHead (signer : CheckpointSigner SK) (origin : Origin) (D : List H)
    (cosigned : CosignedCheckpoint H) :
    Prop where
  head : cosigned.checkpoint = ⟨origin, D.length, mth D⟩
  plain : cosigned.Plain
  signed : ∃ signature ∈ cosigned.signatures, signature ∈
    (CosignedCheckpoint.new cosigned.checkpoint signer).signatures

/-- The witness knows the key of the log under its origin. -/
structure Knows (witness : Witness SK VK) (signer : CheckpointSigner SK) (origin : Origin) :
    Prop where
  config : ∃ config, witness.logs.find? (fun l => l.origin = origin.str) = some config ∧
    config.verifyingKey = NoteCrypto.verifyingKey signer.signingKey ∧ config.keyId = signer.keyId ∧
    config.keyName = signer.name

section

variable {signer : CheckpointSigner SK} {origin : Origin} {D : List H}
  {cosigned : CosignedCheckpoint H}

/-- The checkpoint that the log signs. -/
theorem SignedHead.new (signer : CheckpointSigner SK) (origin : Origin)
    (horigin : Text.Solid origin.str)
    (hname : Text.Solid signer.name) {D : List H} (hD : D.length ≤ i64Max) :
    SignedHead signer origin D (CosignedCheckpoint.new ⟨origin, D.length, mth D⟩ signer) := by
  refine ⟨rfl, ⟨horigin, ?_, ?_, by simp [CosignedCheckpoint.new]⟩, _, List.mem_singleton_self _,
    List.mem_singleton_self _⟩
  · intro sig hsig
    rw [List.mem_singleton.mp hsig]
    exact hname
  · unfold i64Max at hD
    change D.length < 2 ^ 64
    omega

/-- One more signature. -/
theorem SignedHead.push (h : SignedHead signer origin D cosigned) {sig : CheckpointSignature}
    (hname : Text.Solid sig.name) :
    SignedHead signer origin D { cosigned with signatures := cosigned.signatures ++ [sig] } := by
  obtain ⟨signature, hmem, hnew⟩ := h.signed
  refine ⟨h.head, ⟨h.plain.origin, ?_, h.plain.size, by simp⟩, signature,
    List.mem_append_left _ hmem, hnew⟩
  intro s hs
  rcases List.mem_append.mp hs with hs | hs
  · exact h.plain.names s hs
  · rw [List.mem_singleton.mp hs]
    exact hname

theorem SignedHead.verify [LawfulNoteCrypto SK VK] (h : SignedHead signer origin D cosigned)
    {config : LogConfig VK} (horigin : config.origin = origin.str)
    (hkey : config.verifyingKey = NoteCrypto.verifyingKey signer.signingKey)
    (hid : config.keyId = signer.keyId) (hname : config.keyName = signer.name) :
    verifyCheckpoint SK config cosigned = .ok () := by
  obtain ⟨signature, hmem, hnew⟩ := h.signed
  obtain rfl := List.mem_singleton.mp hnew
  have hok : config.verifySignature SK ⟨signer.name, signer.keyId,
      NoteCrypto.sign signer.signingKey (utf8 cosigned.checkpoint.toBody), none⟩
      (utf8 cosigned.checkpoint.toBody) = .ok () := by
    rw [LogConfig.verifySignature, if_neg (by simp [hid, hname]), verifyStrict, hkey,
      LawfulNoteCrypto.verify_sign]
  rw [verifyCheckpoint, if_neg (by rw [h.head, horigin]; simp)]
  dsimp only
  split
  · -- some signature is accepted
    rename_i hnone
    have := List.find?_eq_none.mp hnone _ hmem
    rw [hok] at this
    exact absurd rfl this
  · rename_i logSig hsome
    have hfound := List.find?_some hsome
    cases hv : config.verifySignature SK logSig (utf8 cosigned.checkpoint.toBody) with
    | ok _ => rfl
    | error e =>
      rw [hv] at hfound
      cases hfound

variable [DecodeErrors] [LawfulSha256Hash H]

theorem SignedHead.fromText (h : SignedHead signer origin D cosigned) :
    CosignedCheckpoint.fromText (joinLines cosigned.noteLines) = .ok cosigned :=
  h.plain.printable.fromText h.plain.printable.trim_note

/-- A request of the log passes the checks that come before the state. -/
theorem SignedHead.checkRequest [LawfulNoteCrypto SK VK] (h : SignedHead signer origin D cosigned)
    {witness : Witness SK VK} (hknows : Knows witness signer origin) (hD : D.length ≤ i64Max)
    {oldSize : ℕ} (hold : oldSize ≤ D.length) (proof : List H) :
    checkRequest witness ⟨oldSize, proof, joinLines cosigned.noteLines⟩ = .ok cosigned := by
  obtain ⟨config, hfind, hkey, hid, hname⟩ := hknows.config
  have hconfig : config.origin = origin.str := by
    have := List.find?_some hfind
    simpa using this
  have hcp : cosigned.checkpoint.origin = origin ∧ cosigned.checkpoint.size = D.length := by
    rw [h.head]
    exact ⟨rfl, rfl⟩
  rw [Witness.checkRequest, h.fromText]
  dsimp only
  rw [hcp.1, hfind]
  dsimp only
  rw [h.verify hconfig hkey hid hname]
  dsimp only
  rw [hcp.2, if_neg (by omega), if_neg (by omega)]

end

section

variable [DecidableEq H] {origin : Str} {E D : List H} {clock : UInt64} {db : WitnessDb H}

/-- The row is there once the state was read, and it holds the same head. -/
theorem runAlone_getOrInit (clock : UInt64) (h : RowOf origin E db) (hE : E.length ≤ i64Max) :
    ∃ db', runAlone (WitnessDb.answer clock) (WitnessStateStore.getOrInit origin) db =
        (.ok ⟨origin, E.length, mth E⟩, db') ∧
      db'.rows origin =
        some ⟨E.length, mth E, ((db.rows origin).map StateRow.checkpoint).getD []⟩ := by
  have hget : ∀ db : WitnessDb H,
      runAlone (WitnessDb.answer clock) (WitnessStateStore.get origin) db =
      (.ok (db.get origin), db) := fun _ => rfl
  cases hrow : db.rows origin with
  | some row =>
    rw [RowOf, hrow] at h
    obtain ⟨hsize, hroot⟩ := h
    have hstate : db.get origin = some ⟨origin, E.length, mth E⟩ := by
      rw [WitnessDb.get, hrow, Option.map_some, hsize, hroot, Storage.asU64_natCast hE]
    refine ⟨db, ?_, ?_⟩
    · rw [WitnessStateStore.getOrInit, Prog.bind_eq, runAlone_bind (hget db), hstate]
      rfl
    · rw [hrow, ← hsize, ← hroot]
      rfl
  | none =>
    rw [RowOf, hrow] at h
    subst h
    have hinsert : runAlone (WitnessDb.answer clock) (WitnessStateStore.insertInitial origin) db =
        (.ok (), db.put origin ⟨0, emptyRootHash, []⟩) := by
      change (Except.ok (), db.insertInitial origin) = _
      rw [WitnessDb.insertInitial, hrow]
    have hput : (db.put origin ⟨0, emptyRootHash, []⟩).rows origin = some ⟨0, emptyRootHash, []⟩ :=
      if_pos rfl
    refine ⟨_, ?_, hput.trans (by rw [mth_empty]; rfl)⟩
    rw [WitnessStateStore.getOrInit, Prog.bind_eq, runAlone_bind (hget db), WitnessDb.get, hrow,
      Option.map_none]
    dsimp only
    rw [Prog.bind_eq, runAlone_bind hinsert, Prog.bind_eq, runAlone_bind (hget _), WitnessDb.get,
      hput, Option.map_some, mth_empty]
    rfl

/-- The state lets through what starts from it. -/
theorem checkState_eq (hpre : E <+: D) (hD : D.length ≤ i64Max) {text : Str} {oldSize : ℕ} :
    checkState ⟨oldSize, proofFrom oldSize D, text⟩ D.length (mth D) ⟨origin, E.length, mth E⟩ =
      if oldSize = E.length then .ok () else .error (.err (.conflict E.length)) := by
  have hle := hpre.length_le
  unfold checkState
  by_cases hold : oldSize = E.length
  · subst hold
    rw [if_neg (by simp), if_pos rfl]
    by_cases hsame : E.length = D.length
    · obtain rfl := hpre.eq_of_length hsame
      rw [if_neg (by simp)]
      by_cases hpos : 0 < E.length
      · rw [if_pos hpos, if_neg (by simp), if_pos rfl, if_neg (by simp)]
      · rw [if_neg hpos, if_neg]
        simp [proofFrom]
    · rw [if_neg (by omega)]
      by_cases hpos : 0 < E.length
      · have htake : D.take E.length = E := (List.prefix_iff_eq_take.mp hpre).symm
        have hverify := verifyConsistency_complete hle hD hpos
        rw [htake] at hverify
        rw [if_pos hpos, if_neg (by dsimp only; omega), if_neg (by dsimp only; omega), proofFrom,
          if_pos (by omega), hverify]
      · rw [if_neg hpos, if_neg]
        simp [proofFrom, show E.length = 0 by omega]
  · rw [if_pos hold, if_neg hold]

theorem runAlone_persistAndSign {witness : Witness SK VK} {request : AddCheckpointRequest H}
    {cosigned : CosignedCheckpoint H}
    {head : Origin} (hhead : cosigned.checkpoint = ⟨head, D.length, mth D⟩) (hpre : E <+: D)
    (hD : D.length ≤ i64Max)
    {checkpoint : Str} (hrow : db.rows head.str = some ⟨E.length, mth E, checkpoint⟩) :
    runAlone (WitnessDb.answer clock)
      (persistAndSign witness request cosigned ⟨head.str, E.length, mth E⟩) db =
      (.ok (witness.signer.cosignV1 cosigned.checkpoint clock),
        db.put head.str ⟨D.length, mth D, request.checkpoint⟩) := by
  have hle := hpre.length_le
  have hmatch : db.Matching ⟨head.str, E.length, mth E⟩ :=
    ⟨_, hrow, (Storage.asI64_natCast (by omega)).symm, rfl⟩
  have hroot : ¬ (D.length < E.length ∨ (D.length = E.length ∧ mth D ≠ mth E)) := by
    rintro (h | ⟨h, hne⟩)
    · omega
    · exact hne (congrArg mth (hpre.eq_of_length h.symm).symm)
  have hupdate : runAlone (WitnessDb.answer clock)
      (WitnessStateStore.update ⟨head.str, E.length, mth E⟩ D.length (mth D) request.checkpoint)
        db =
        (.ok true, db.put head.str ⟨D.length, mth D, request.checkpoint⟩) := by
    rw [WitnessStateStore.update, if_neg hroot, if_neg (by omega), runAlone_bind (by rfl)]
    rw [WitnessDb.answer, if_pos hmatch, Concurrent.Sys.runAlone_ofExcept]
  have hmapped := runAlone_mapErr (WitnessDb.answer clock)
    (fun e => Fault.err (WitnessError.internal ("failed to update state: " ++ e.display)))
    (WitnessStateStore.update ⟨head.str, E.length, mth E⟩ D.length (mth D) request.checkpoint) db
  rw [hupdate] at hmapped
  rw [persistAndSign, hhead, Prog.bind_eq, runAlone_bind hmapped, if_pos rfl, Prog.bind_eq,
    runAlone_bind (by rfl), runAlone_mapErr]
  rfl

variable [LawfulNoteCrypto SK VK] [LawfulSha256Hash H] [DecodeErrors]

/-- A request is admitted if it starts from the size of the witness. -/
theorem runAlone_admission {witness : Witness SK VK} {signer : CheckpointSigner SK}
    {head : Origin}
    (hknows : Knows witness signer head) (hrow : RowOf head.str E db) (hpre : E <+: D)
    (hD : D.length ≤ i64Max)
    {cosigned : CosignedCheckpoint H} (hsigned : SignedHead signer head D cosigned) {oldSize : ℕ}
    (hold : oldSize ≤ D.length) (clock : UInt64) :
    ∃ db' checkpoint, runAlone (WitnessDb.answer clock)
        (admission witness ⟨oldSize, proofFrom oldSize D, joinLines cosigned.noteLines⟩) db =
        (if oldSize = E.length then .ok (cosigned, ⟨head.str, E.length, mth E⟩)
          else .error (.err (.conflict E.length)), db') ∧
      db'.rows head.str = some ⟨E.length, mth E, checkpoint⟩ := by
  have hle := hpre.length_le
  obtain ⟨db₁, hget, hrow₁⟩ := runAlone_getOrInit clock hrow (by omega)
  have hcheck := hsigned.checkRequest hknows hD hold (proofFrom oldSize D)
  have hparse : runAlone (WitnessDb.answer clock) ((Prog.ofExcept (checkRequest witness
      ⟨oldSize, proofFrom oldSize D, joinLines cosigned.noteLines⟩)).mapErr Fault.err) db =
      (.ok cosigned, db) := by
    rw [runAlone_mapErr, Concurrent.Sys.runAlone_ofExcept, hcheck]
    rfl
  have hstate := runAlone_mapErr (WitnessDb.answer clock)
    (fun e => Fault.err (WitnessError.internal ("failed to get state: " ++ e.display)))
    (WitnessStateStore.getOrInit head.str) db
  rw [hget] at hstate
  have hstr : cosigned.checkpoint.origin.str = head.str := by rw [hsigned.head]
  have hsize : cosigned.checkpoint.size = D.length := by rw [hsigned.head]
  have hroot : cosigned.checkpoint.rootHash = mth D := by rw [hsigned.head]
  refine ⟨db₁, _, ?_, hrow₁⟩
  rw [admission, Prog.bind_eq, runAlone_bind hparse]
  dsimp only
  rw [Prog.bind_eq, hstr, runAlone_bind hstate, hsize, hroot, Prog.bind_eq]
  have hchecked : runAlone (WitnessDb.answer clock) (Prog.ofExcept (checkState
      ⟨oldSize, proofFrom oldSize D, joinLines cosigned.noteLines⟩ D.length (mth D)
        ⟨head.str, E.length, mth E⟩)) db₁ =
      (if oldSize = E.length then .ok () else .error (.err (.conflict E.length)), db₁) := by
    rw [Concurrent.Sys.runAlone_ofExcept, checkState_eq hpre hD]
  by_cases heq : oldSize = E.length
  · rw [if_pos heq] at hchecked
    rw [runAlone_bind hchecked, if_pos heq]
    rfl
  · rw [if_neg heq] at hchecked
    rw [runAlone_bind_error hchecked, if_neg heq]

/-- A request that starts from the size of the witness is cosigned, and its head becomes
that of the witness. Any other is refused with that size, which stays. -/
theorem runAlone_addCheckpoint {witness : Witness SK VK} {signer : CheckpointSigner SK}
    {head : Origin}
    (hknows : Knows witness signer head) (hrow : RowOf head.str E db) (hpre : E <+: D)
    (hD : D.length ≤ i64Max)
    {cosigned : CosignedCheckpoint H} (hsigned : SignedHead signer head D cosigned) {oldSize : ℕ}
    (hold : oldSize ≤ D.length) (clock : UInt64) :
    ∃ db', runAlone (WitnessDb.answer clock)
        (addCheckpoint witness ⟨oldSize, proofFrom oldSize D, joinLines cosigned.noteLines⟩) db =
        (if oldSize = E.length then .ok (witness.signer.cosignV1 cosigned.checkpoint clock)
          else .error (.err (.conflict E.length)), db') ∧
      RowOf head.str (if oldSize = E.length then D else E) db' := by
  obtain ⟨db₁, checkpoint, hadmit, hrow₁⟩ :=
    runAlone_admission hknows hrow hpre hD hsigned hold clock
  rw [addCheckpoint_eq]
  by_cases heq : oldSize = E.length
  · rw [if_pos heq] at hadmit
    rw [runAlone_bind hadmit, runAlone_persistAndSign hsigned.head hpre hD hrow₁, if_pos heq,
      if_pos heq]
    refine ⟨_, rfl, ?_⟩
    rw [RowOf, show (db₁.put head.str _).rows head.str = some _ from if_pos rfl]
    exact ⟨rfl, rfl⟩
  · rw [if_neg heq] at hadmit
    rw [runAlone_bind_error hadmit, if_neg heq, if_neg heq]
    refine ⟨_, rfl, ?_⟩
    rw [RowOf, hrow₁]
    exact ⟨rfl, rfl⟩

/-- The response to a request of the log. -/
theorem runAlone_handler [HttpTexts] {witness : Witness SK VK} {signer : CheckpointSigner SK}
    {head : Origin}
    (hknows : Knows witness signer head) (hrow : RowOf head.str E db) (hpre : E <+: D)
    (hD : D.length ≤ i64Max)
    {cosigned : CosignedCheckpoint H} (hsigned : SignedHead signer head D cosigned) {oldSize : ℕ}
    (hold : oldSize ≤ D.length) (clock : UInt64) :
    ∃ db', runAlone (WitnessDb.answer clock)
        (Handlers.addCheckpoint witness
          (utf8 (requestBody oldSize (proofFrom oldSize D) cosigned.toText))) db =
        (.ok (if oldSize =
          E.length then ⟨200, utf8 (witness.signer.cosignV1 cosigned.checkpoint clock).toLine⟩
          else (WitnessError.conflict E.length).toResponse), db') ∧
      RowOf head.str (if oldSize = E.length then D else E) db' := by
  have hold' : oldSize < 2 ^ 64 := by
    unfold i64Max at hD
    omega
  obtain ⟨db', hrun, hrow'⟩ := runAlone_addCheckpoint hknows hrow hpre hD hsigned hold clock
  have hattempt := runAlone_attempt (WitnessDb.answer clock)
    (addCheckpoint witness ⟨oldSize, proofFrom oldSize D, joinLines cosigned.noteLines⟩) db
  rw [hrun] at hattempt
  refine ⟨db', ?_, hrow'⟩
  rw [Handlers.addCheckpoint, fromUtf8_utf8]
  dsimp only
  rw [fromAscii_requestBody hsigned.plain hold' (length_proofFrom_le hold hD)]
  dsimp only
  rw [Prog.bind_eq, runAlone_bind hattempt]
  by_cases heq : oldSize = E.length
  · rw [if_pos heq, if_pos heq]
    rfl
  · rw [if_neg heq, if_neg heq]
    rfl

end

end Siglog.Witness

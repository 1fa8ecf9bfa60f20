import Siglog.Checkpoint.Text
import Siglog.Witness.Verifier

/-! The two texts of a signed checkpoint. The one for a single signer has no blank line
before its signature, so it is not a note and cannot be read back. -/

namespace Siglog.Note

open Text
open Witness (LogConfig verifyCheckpoint verifyStrict)

/-- A signed checkpoint (single signer). -/
structure SignedCheckpoint (H : Type) where
  checkpoint : Checkpoint H
  signerName : Str
  keyId : KeyId
  signature : Bytes64

variable {SK VK H : Type} [NoteCrypto SK VK] [Sha256Hash H]

/-- Sign a checkpoint. -/
def CheckpointSigner.sign (signer : CheckpointSigner SK) (checkpoint : Checkpoint H) :
    SignedCheckpoint H :=
  ⟨checkpoint, signer.name, signer.keyId,
    NoteCrypto.sign signer.signingKey (utf8 checkpoint.toBody)⟩

/-- The verification key of a signer, as a log is configured with it. -/
def CheckpointSigner.logConfig (signer : CheckpointSigner SK) (origin : Str) : LogConfig VK :=
  ⟨origin, none, NoteCrypto.verifyingKey signer.signingKey, signer.keyId, signer.name⟩

namespace SignedCheckpoint

/-- Format as the full checkpoint text. -/
def toText (signed : SignedCheckpoint H) : Str :=
  trimEnd signed.checkpoint.toBody ++ newline ::
    (sigPrefix ++ signed.signerName ++ ' ' ::
      Base64.encode (signed.keyId.val ++ signed.signature.val) ++ [newline])

/-- Convert to a cosigned checkpoint (with just this signature). -/
def intoCosigned (signed : SignedCheckpoint H) : CosignedCheckpoint H :=
  ⟨signed.checkpoint, [⟨signed.signerName, signed.keyId, signed.signature, none⟩]⟩

end SignedCheckpoint

variable [Base64.DecodeErrors]

/-- Both texts of a checkpoint that has been signed are read back, as the same checkpoint with
the same signature, which the key of the signer accepts. -/
def RendersAlike (signer : CheckpointSigner SK) (cp : Checkpoint H) : Prop :=
  ∃ cosigned : CosignedCheckpoint H, CosignedCheckpoint.fromText (signer.sign cp).toText =
    .ok cosigned ∧
    CosignedCheckpoint.fromText (signer.sign cp).intoCosigned.toText = .ok cosigned ∧
    cosigned.checkpoint = cp ∧ (∃ sig, cosigned.signatures = [sig]) ∧
    verifyCheckpoint SK (signer.logConfig cp.origin.str) cosigned = .ok ()

namespace SignedCheckpoint

omit [Base64.DecodeErrors]

/-- The lines of the text for a single signer. -/
def textLines (signed : SignedCheckpoint H) : List Str :=
  CosignedCheckpoint.bodyLines signed.checkpoint ++
    signed.intoCosigned.signatures.map CheckpointSignature.toLine

theorem toText_eq (signed : SignedCheckpoint H) :
    signed.toText = joinLines signed.textLines ++ [newline] := by
  rw [toText, CosignedCheckpoint.trimEnd_toBody, textLines, intoCosigned,
    joinLines_append (by simp [CosignedCheckpoint.bodyLines]) (by simp), List.map_singleton,
    joinLines_singleton]
  simp [CheckpointSignature.toLine, CheckpointSignature.sigData]

omit [Sha256Hash H] in
theorem printable {signed : SignedCheckpoint H} (hname : Solid signed.signerName)
    (horigin : trimStart signed.checkpoint.origin.str = signed.checkpoint.origin.str)
    (hsize : signed.checkpoint.size < 2 ^ 64) :
    signed.intoCosigned.Printable :=
  ⟨horigin, by simpa [intoCosigned] using hname, hsize, by simp [intoCosigned]⟩

/-- Only the last newline is trimmed. -/
theorem trim_toText {signed : SignedCheckpoint H} (h : signed.intoCosigned.Printable) :
    trim signed.toText = joinLines signed.textLines := by
  obtain ⟨c, rest, horigin, hsolid⟩ := h.origin_cons
  obtain ⟨more, hstart⟩ :
      ∃ more, joinLines signed.textLines = signed.checkpoint.origin.str ++ more := by
    have hlines : signed.textLines = signed.checkpoint.origin.str :: signed.textLines.tail := rfl
    rw [hlines, joinLines_cons (by simp [textLines, CosignedCheckpoint.bodyLines])]
    exact ⟨_, rfl⟩
  obtain ⟨start, sig, hend⟩ : ∃ start sig, joinLines signed.textLines = start ++
      Base64.encode (CheckpointSignature.sigData sig) := by
    rw [textLines, intoCosigned,
      joinLines_append (by simp [CosignedCheckpoint.bodyLines]) (by simp), List.map_singleton,
      joinLines_singleton, CheckpointSignature.toLine]
    refine ⟨joinLines (CosignedCheckpoint.bodyLines signed.checkpoint) ++ newline ::
      (sigPrefix ++ (signed.signerName ++ [' '])),
      ⟨signed.signerName, signed.keyId, signed.signature, none⟩, ?_⟩
    simp
  change signed.checkpoint.origin.str = c :: rest at horigin
  have htrim : trimStart signed.toText = signed.toText := by
    rw [toText_eq, hstart, horigin, List.cons_append, List.cons_append]
    exact trimStart_cons hsolid
  rw [trim, htrim, toText_eq, trimEnd_append (by decide), hend]
  exact trimEnd_append_solid (Base64.solid_encode _) (Base64.encode_ne_nil sig.sigData_ne_nil)

variable [Base64.DecodeErrors]

/-- The text for a single signer has no blank line. -/
theorem fromText_toText {signed : SignedCheckpoint H} (h : signed.intoCosigned.Printable) :
    CosignedCheckpoint.fromText (H := H) signed.toText =
      .error (.config "checkpoint must have body and signatures separated by blank line") := by
  have hlines : ∀ l ∈ signed.textLines, newline ∉ l ∧ l ≠ [] := by
    intro l hl
    rcases List.mem_append.mp hl with hl | hl
    · refine ⟨(h.lines l (List.mem_append_left _ hl)).newline, ?_⟩
      simp only [CosignedCheckpoint.bodyLines, List.mem_cons, List.not_mem_nil, or_false] at hl
      rcases hl with rfl | rfl | rfl
      · exact signed.checkpoint.origin.ne_nil
      · exact decimal_ne_nil _
      · exact encode_hash_ne_nil _
    · refine ⟨(h.lines l (List.mem_append_right _ (List.mem_cons_of_mem _ hl))).newline, ?_⟩
      obtain ⟨sig, -, rfl⟩ := List.mem_map.mp hl
      simp [CheckpointSignature.toLine, sigPrefix]
  rw [CosignedCheckpoint.fromText, trim_toText h,
    splitOnce_joinLines hlines (by simp [textLines, CosignedCheckpoint.bodyLines])]

end SignedCheckpoint

omit [Base64.DecodeErrors] in
/-- The signature of a signer is accepted under its key. -/
theorem verifyCheckpoint_sign [LawfulNoteCrypto SK VK] (signer : CheckpointSigner SK)
    (cp : Checkpoint H) :
    verifyCheckpoint SK (signer.logConfig cp.origin.str) (signer.sign cp).intoCosigned =
      .ok () := by
  have hstrict : verifyStrict SK (NoteCrypto.verifyingKey signer.signingKey) (utf8 cp.toBody)
      (NoteCrypto.sign signer.signingKey (utf8 cp.toBody)) = .ok () := by
    rw [verifyStrict, LawfulNoteCrypto.verify_sign]
  have hverify : (signer.logConfig cp.origin.str).verifySignature SK
      ⟨signer.name, signer.keyId, NoteCrypto.sign signer.signingKey (utf8 cp.toBody), none⟩
        (utf8 cp.toBody) = .ok () := by
    rw [LogConfig.verifySignature, if_neg (by simp [CheckpointSigner.logConfig])]
    exact hstrict
  have horigin : (signer.sign cp).intoCosigned.checkpoint.origin.str =
      (signer.logConfig cp.origin.str).origin := rfl
  rw [verifyCheckpoint, if_neg (not_not.mpr horigin)]
  simp only [CheckpointSigner.sign, SignedCheckpoint.intoCosigned, List.find?_cons, hverify,
    Except.isOk, Except.toBool]

/-- The text for a single signer is never read back, while the other text of the same
checkpoint always is, and its signature is accepted. -/
theorem renderers_differ [LawfulSha256Hash H] [LawfulNoteCrypto SK VK]
    (signer : CheckpointSigner SK) (cp : Checkpoint H)
    (hname : Solid signer.name) (horigin : trimStart cp.origin.str = cp.origin.str)
    (hsize : cp.size < 2 ^ 64) :
    ¬ RendersAlike signer cp ∧
      CosignedCheckpoint.fromText (H := H) (signer.sign cp).toText =
        .error (.config "checkpoint must have body and signatures separated by blank line") ∧
      CosignedCheckpoint.fromText (signer.sign cp).intoCosigned.toText =
        .ok (signer.sign cp).intoCosigned ∧
      verifyCheckpoint SK (signer.logConfig cp.origin.str) (signer.sign cp).intoCosigned =
        .ok () := by
  have hprintable : (signer.sign cp).intoCosigned.Printable :=
    SignedCheckpoint.printable hname horigin hsize
  have herror := SignedCheckpoint.fromText_toText hprintable
  refine ⟨?_, herror, hprintable.fromText_toText, verifyCheckpoint_sign signer cp⟩
  rintro ⟨cosigned, hok, -⟩
  rw [herror] at hok
  cases hok

end Siglog.Note

namespace Siglog.Note

open Text

attribute [local instance] Text.Base64.plainErrors

def renderersCheckpoint : Checkpoint StartHash := ⟨logOrigin, 0, emptyRootHash⟩

theorem renderers_differ_empty : ¬ RendersAlike startSigner renderersCheckpoint ∧
    CosignedCheckpoint.fromText (startSigner.sign renderersCheckpoint).intoCosigned.toText =
      .ok (startSigner.sign renderersCheckpoint).intoCosigned := by
  have h := renderers_differ startSigner renderersCheckpoint (by decide) (by decide) (by decide)
  exact ⟨h.1, h.2.2.1⟩

/-- The note of the log `log` for the empty tree. -/
theorem single_signer_not_read : startSigner.name ≠ [] ∧ Solid startSigner.name ∧
    trimStart renderersCheckpoint.origin.str = renderersCheckpoint.origin.str ∧
    ¬ RendersAlike startSigner renderersCheckpoint := by
  refine ⟨by decide, by decide, by decide, ?_⟩
  rintro ⟨cosigned, hok, -⟩
  have hread : (CosignedCheckpoint.fromText (H := StartHash)
    (startSigner.sign renderersCheckpoint).toText).isOk = false := by
    decide +kernel
  rw [hok] at hread
  cases hread

end Siglog.Note

import Siglog.Checkpoint.Text
import Siglog.Witness.Verifier

/-! What is signed. The body of a checkpoint determines the checkpoint, the message of a
cosignature determines its time and its body, and no message of either kind is one of the
other, since the second line of a body is a number. -/

namespace Siglog.Note

open Text

theorem Origin.ext {o o' : Origin} (h : o.str = o'.str) : o = o' := by
  cases o
  cases o'
  congr

namespace Checkpoint

variable {H : Type} [Sha256Hash H]

theorem lines_toBody (cp : Checkpoint H) : lines cp.toBody =
    [cp.origin.str, decimal cp.size, Base64.encode (Sha256Hash.asBytes cp.rootHash).val] := by
  rw [CosignedCheckpoint.toBody_eq, lines_terminated]
  · rfl
  · simp only [CosignedCheckpoint.bodyLines, List.forall_mem_cons]
    exact ⟨⟨cp.origin.newline, cp.origin.carriageReturn⟩, line_of_solid (solid_decimal _),
      line_of_solid (Base64.solid_encode _), by simp⟩
  · simp [CosignedCheckpoint.bodyLines]

/-- A body has one checkpoint. -/
theorem toBody_injective [LawfulSha256Hash H] {cp cp' : Checkpoint H} (h : cp.toBody = cp'.toBody) :
    cp = cp' := by
  have hlines := congrArg lines h
  rw [lines_toBody, lines_toBody] at hlines
  simp only [List.cons.injEq, and_true] at hlines
  obtain ⟨horigin, hsize, hroot⟩ := hlines
  have hbytes : Sha256Hash.asBytes cp.rootHash = Sha256Hash.asBytes cp'.rootHash := by
    apply Subtype.ext
    have := congrArg Base64.decode hroot
    simpa [Base64.decode_encode] using this
  have hhash : cp.rootHash = cp'.rootHash := by
    rw [← LawfulSha256Hash.fromBytes_asBytes cp.rootHash, hbytes,
      LawfulSha256Hash.fromBytes_asBytes]
  cases cp
  cases cp'
  simp only at horigin hsize hhash
  rw [Origin.ext horigin, decimal_injective hsize, hhash]

end Checkpoint

/-- A message has one time and one body. -/
theorem cosignatureV1Message_injective {t t' : UInt64} {body body' : Str}
    (h : cosignatureV1Message t body = cosignatureV1Message t' body') : t = t' ∧ body = body' := by
  unfold cosignatureV1Message at h
  rw [List.append_assoc, List.append_assoc] at h
  have hsplit := congrArg (splitOnce [newline]) ((List.append_right_inj _).mp h)
  rw [splitOnce_char (not_mem_of_solid (solid_decimal _) (by decide)),
    splitOnce_char (not_mem_of_solid (solid_decimal _) (by decide))] at hsplit
  obtain ⟨htime, hbody⟩ := Prod.mk.inj (Option.some.inj hsplit)
  exact ⟨UInt64.toNat_inj.mp (decimal_injective htime), hbody⟩

/-- The second line of a message is not a number. -/
theorem cosignatureV1Message_ne_toBody {H : Type} [Sha256Hash H] (t : UInt64) (body : Str)
    (cp : Checkpoint H) :
    cosignatureV1Message t body ≠ cp.toBody := by
  intro h
  have hstart : "cosignature/v1\ntime ".toList = "cosignature/v1".toList ++ newline ::
      "time ".toList := by decide
  have hmessage : cosignatureV1Message t body = "cosignature/v1".toList ++ newline ::
      (("time ".toList ++ decimal t.toNat) ++ newline :: body) := by
    unfold cosignatureV1Message
    rw [hstart]
    simp
  have htime : Line ("time ".toList ++ decimal t.toNat) :=
    line_append ⟨by decide, by decide⟩ (line_of_solid (solid_decimal _))
  have hlines := congrArg lines h
  rw [hmessage, lines_cons ⟨by decide, by decide⟩, lines_cons htime,
    Checkpoint.lines_toBody] at hlines
  have hsecond := (List.cons.inj (List.cons.inj hlines).2).1
  have hdigit : 't'.isDigit = true := by
    apply isDigit_of_mem_decimal (n := cp.size)
    rw [← hsecond]
    exact List.mem_cons_self
  exact absurd hdigit (by decide)

end Siglog.Note

namespace Siglog.Witness

open Note (Bytes64 Checkpoint CheckpointSignature CheckpointSigner LawfulNoteCrypto NoteCrypto
  StartKey cosignatureV1Message)
open Text

section

variable {SK VK H : Type} [NoteCrypto SK VK] [Sha256Hash H]

/-- No two messages have this signature, one under each key. -/
def OneMessage (SK : Type) [NoteCrypto SK VK] (key key' : VK) (signature : Bytes64) : Prop :=
  ∀ m m', NoteCrypto.verifyStrict SK key m signature = .ok () →
    NoteCrypto.verifyStrict SK key' m' signature = .ok () → m = m'

theorem verifyStrict_ok {key : VK} {message : Bytes} {signature : Bytes64}
    (h : verifyStrict SK key message signature = .ok ()) :
    NoteCrypto.verifyStrict SK key message signature = .ok () := by
  unfold verifyStrict at h
  split at h
  · assumption
  · cases h

theorem verifySignature_ok {config : LogConfig VK} {sig : CheckpointSignature} {body : Bytes}
    (h : config.verifySignature SK sig body = .ok ()) :
    NoteCrypto.verifyStrict SK config.verifyingKey body sig.signature = .ok () := by
  unfold LogConfig.verifySignature at h
  split_ifs at h
  exact verifyStrict_ok h

/-- What a signature is checked for when it may be a cosignature. -/
def checkedMessage (timestamp : Option UInt64) (body : Str) : Str :=
  timestamp.elim body fun ts => cosignatureV1Message ts body

theorem verifyCosignature_checked {config : LogConfig VK} {sig : CheckpointSignature} {body : Str}
    (h : config.verifyCosignature SK sig body = .ok ()) :
    NoteCrypto.verifyStrict SK config.verifyingKey (utf8 (checkedMessage sig.timestamp body))
      sig.signature = .ok () := by
  obtain ⟨name, keyId, signature, timestamp⟩ := sig
  unfold LogConfig.verifyCosignature at h
  cases timestamp with
  | none =>
    dsimp only at h
    split_ifs at h <;> exact verifyStrict_ok h
  | some ts =>
    dsimp only at h
    split_ifs at h <;> exact verifyStrict_ok h

theorem checkedMessage_injective [LawfulSha256Hash H] {timestamp timestamp' : Option UInt64}
    {cp cp' : Checkpoint H}
    (h : checkedMessage timestamp cp.toBody = checkedMessage timestamp' cp'.toBody) :
    timestamp = timestamp' ∧ cp = cp' := by
  cases timestamp with
  | none =>
    cases timestamp' with
    | none => exact ⟨rfl, Checkpoint.toBody_injective h⟩
    | some t' => exact absurd h.symm (Note.cosignatureV1Message_ne_toBody t' _ cp)
  | some t =>
    cases timestamp' with
    | none => exact absurd h (Note.cosignatureV1Message_ne_toBody t _ cp')
    | some t' =>
      obtain ⟨rfl, hbody⟩ := Note.cosignatureV1Message_injective h
      exact ⟨rfl, Checkpoint.toBody_injective hbody⟩

/-- Bodies and messages are told apart. A signature that belongs to one message is not both
a cosignature and the signature of a log, also without its time, and it belongs to one checkpoint.
Where a time is allowed it belongs to one time as well, or to none. -/
theorem messages_separated [LawfulNoteCrypto SK VK] [LawfulSha256Hash H] :
    (∀ cp cp' : Checkpoint H, cp.toBody = cp'.toBody → cp = cp') ∧
    (∀ t t' body body', cosignatureV1Message t body = cosignatureV1Message t' body' → t = t' ∧
      body = body') ∧
    (∀ t (cp cp' : Checkpoint H), cosignatureV1Message t cp'.toBody ≠ cp.toBody) ∧
    (∀ (signer : CheckpointSigner SK) (cp : Checkpoint H) t (config : LogConfig VK)
      (cp' : Checkpoint H) (sig : CheckpointSignature),
      sig.signature = (signer.cosignV1 cp t).signature →
      OneMessage SK (NoteCrypto.verifyingKey signer.signingKey) config.verifyingKey sig.signature →
      config.verifySignature SK sig (utf8 cp'.toBody) ≠ .ok ()) ∧
    (∀ (config config' : LogConfig VK) (sig : CheckpointSignature) (cp cp' : Checkpoint H),
      OneMessage SK config.verifyingKey config'.verifyingKey sig.signature →
      config.verifySignature SK sig (utf8 cp.toBody) = .ok () →
      config'.verifySignature SK sig (utf8 cp'.toBody) = .ok () →
      cp = cp') ∧
    ∀ (config config' : LogConfig VK) (sig sig' : CheckpointSignature) (cp cp' : Checkpoint H),
      sig.signature = sig'.signature →
      OneMessage SK config.verifyingKey config'.verifyingKey sig.signature →
      config'.verifyCosignature SK sig' cp'.toBody = .ok () →
      (config.verifyCosignature SK sig cp.toBody = .ok () →
        sig.timestamp = sig'.timestamp ∧ cp = cp') ∧
      (config.verifySignature SK sig (utf8 cp.toBody) = .ok () →
        none = sig'.timestamp ∧ cp = cp') := by
  refine ⟨fun _ _ => Checkpoint.toBody_injective,
    fun _ _ _ _ => Note.cosignatureV1Message_injective,
    fun t cp cp' => Note.cosignatureV1Message_ne_toBody t _ cp, ?_, ?_, ?_⟩
  · intro signer cp t config cp' sig hsig hone hverify
    have hsigned : NoteCrypto.verifyStrict SK (NoteCrypto.verifyingKey signer.signingKey)
        (utf8 (cosignatureV1Message t cp.toBody)) sig.signature = .ok () := by
      rw [hsig]
      exact LawfulNoteCrypto.verify_sign _ _
    have hmessage := hone _ _ hsigned (verifySignature_ok hverify)
    exact Note.cosignatureV1Message_ne_toBody t _ cp' (Text.utf8_injective hmessage)
  · intro config config' sig cp cp' hone hverify hverify'
    have hbody := hone _ _ (verifySignature_ok hverify) (verifySignature_ok hverify')
    exact Checkpoint.toBody_injective (Text.utf8_injective hbody)
  · intro config config' sig sig' cp cp' hsame hone hverify'
    have hchecked := verifyCosignature_checked hverify'
    rw [← hsame] at hchecked
    refine ⟨fun hverify => ?_, fun hverify => ?_⟩
    · have hmessage := hone _ _ (verifyCosignature_checked hverify) hchecked
      exact checkedMessage_injective (Text.utf8_injective hmessage)
    · have hmessage := Text.utf8_injective (hone _ _ (verifySignature_ok hverify) hchecked)
      change checkedMessage none cp.toBody = _ at hmessage
      exact checkedMessage_injective hmessage

end

/-- A key whose signature tells one message from all others. It is there to run the model. -/
structure MarkKey where
  mark : Bytes

namespace MarkKey

def markOf (k : MarkKey) (m : Bytes) : Bytes64 := StartKey.start 64 (if m = k.mark then [1] else [])

instance : NoteCrypto MarkKey MarkKey where
  verifyingKey k := k
  keyBytes _ := StartKey.start 32 []
  sign := markOf
  verifyStrict k m signature := if signature = k.markOf m then .ok () else .error "signature error"
  sha256 b := StartKey.start 32 b

instance : LawfulNoteCrypto MarkKey MarkKey := ⟨fun _ _ => if_pos rfl⟩

theorem oneMessage (k : MarkKey) : OneMessage MarkKey k k (k.markOf k.mark) := by
  have hmark :
      ∀ m, NoteCrypto.verifyStrict MarkKey k m (k.markOf k.mark) = .ok () → m = k.mark := by
    intro m h
    by_contra hne
    change (if k.markOf k.mark = k.markOf m then _ else _) = _ at h
    rw [if_neg (by rw [markOf, markOf, if_pos rfl, if_neg hne]; decide)] at h
    cases h
  intro m m' h h'
  rw [hmark m h, hmark m' h']

end MarkKey

/-- The empty tree. -/
def emptyTree : Checkpoint StartHash :=
  ⟨⟨"cosignature/v1".toList, by decide, by decide, by decide⟩, 0, emptyRootHash⟩

def markSigner : CheckpointSigner MarkKey :=
  ⟨"witness".toList, ⟨utf8 (cosignatureV1Message 5 emptyTree.toBody)⟩, StartKey.start 4 []⟩

/-- A cosignature of the empty tree, without its time, under the name of the log. -/
theorem messages_separated_empty :
    (⟨"log".toList, none, markSigner.signingKey, StartKey.start 4 [], "log".toList⟩ : LogConfig
      MarkKey).verifySignature MarkKey
      ⟨"log".toList, StartKey.start 4 [], (markSigner.cosignV1 emptyTree 5).signature, none⟩
        (utf8 emptyTree.toBody) ≠ .ok () :=
  (@messages_separated MarkKey MarkKey StartHash _ _ _ _).2.2.2.1 markSigner emptyTree 5 _ emptyTree
    _ rfl markSigner.signingKey.oneMessage

end Siglog.Witness

import Siglog.Checkpoint.Text
import Siglog.Witness.Verifier

/-! The text of a checkpoint and what the log has signed. The signature is checked on the
body that is written again from the three fields that were read. It is the body of the
text if the text has only these three lines, each in its one form. -/

namespace Siglog.Witness

open Note (Checkpoint CheckpointSignature CosignedCheckpoint LawfulNoteCrypto NoteCrypto StartKey)
open Note.CosignedCheckpoint
  (bodyLines fromText_ok parseBody parseBody_ok parseSignatures toBody_eq)
open Text

/-- The body of the note: what is before its first blank line. -/
def noteBody (text : Str) : Option Str :=
  (splitOnce [newline, newline] (trim text)).map fun (body, _) => body ++ [newline]

/-- The body of the note has three lines. None of them ends with a carriage return,
and the second one is a number without a sign or zeros in front. -/
def ThreeLines (text : Str) : Prop :=
  ∃ origin size root, noteBody text = some (joinLines [origin, size, root] ++ [newline]) ∧
    (∀ l ∈ [origin, size, root], Line l) ∧ Unpadded size

section

variable {H : Type} [Sha256Hash H] [Base64.DecodeErrors]

omit [Base64.DecodeErrors] in
/-- The lines of a body are in their one form. -/
theorem threeLines_toBody {text : Str} {cp : Checkpoint H} (h : noteBody text = some cp.toBody) :
    ThreeLines text := by
  refine ⟨cp.origin.str, decimal cp.size, Base64.encode (Sha256Hash.asBytes cp.rootHash).val, ?_,
    ?_, unpadded_decimal _⟩
  · rw [h, toBody_eq]
    rfl
  · simp only [List.forall_mem_cons]
    exact ⟨⟨cp.origin.newline, cp.origin.carriageReturn⟩, line_of_solid (solid_decimal _),
      line_of_solid (Base64.solid_encode _), by simp⟩

/-- Three lines in their one form are written again as they were read. -/
theorem noteBody_of_threeLines [LawfulSha256Hash H] {text : Str} {cosigned : CosignedCheckpoint H}
    (hparse : CosignedCheckpoint.fromText text = .ok cosigned) (h : ThreeLines text) :
    noteBody text = some cosigned.checkpoint.toBody := by
  obtain ⟨origin, size, root, hnote, hline, hsize⟩ := h
  obtain ⟨body, sigSection, origin', size', root', rest, hsplit, hlines, hbody, -⟩ :=
    fromText_ok hparse
  simp only [noteBody, hsplit, Option.map_some, Option.some.injEq] at hnote
  obtain rfl := List.append_cancel_right hnote
  have hthree : lines (joinLines [origin, size, root]) = [origin, size, root] := by
    apply lines_joinLines hline
    rintro l hl rfl
    obtain rfl : root = [] := Option.some.inj hl
    -- the text would have two lines
    have htwo : joinLines [origin, size, []] = joinLines [origin, size] ++ [newline] := by
      simp [joinLines, List.intercalate]
    have hline' : ∀ l ∈ [origin, size], Line l := by
      intro l hl
      exact hline l (List.mem_append_left [[]] hl)
    rw [htwo, lines_terminated hline' (by simp)] at hlines
    cases hlines
  rw [hthree] at hlines
  cases hlines
  obtain ⟨horigin, hnumber, hroot⟩ := parseBody_ok hbody
  have hlinesOf : bodyLines cosigned.checkpoint = [origin, size, root] := by
    rw [bodyLines, horigin, decimal_parseU64 hnumber hsize, Base64.encode_decode hroot]
  rw [noteBody, hsplit, toBody_eq, hlinesOf]
  rfl

variable {SK VK : Type} [NoteCrypto SK VK]

/-- A signature in the text is one of the log on the body of the note. -/
def SignedNote (SK : Type) [NoteCrypto SK VK] (config : LogConfig VK) (text : Str) : Prop :=
  ∃ body sigSection signatures, splitOnce [newline, newline] (trim text) = some (body, sigSection) ∧
    parseSignatures sigSection = .ok signatures ∧
    ∃ sig ∈ signatures, config.verifySignature SK sig (utf8 (body ++ [newline])) = .ok ()

omit [Base64.DecodeErrors] in
/-- One of the signatures was accepted. -/
theorem verifyCheckpoint_ok {config : LogConfig VK} {cosigned : CosignedCheckpoint H}
    (h : verifyCheckpoint SK config cosigned = .ok ()) :
    ∃ sig ∈ cosigned.signatures, config.verifySignature SK sig (utf8 cosigned.checkpoint.toBody) =
      .ok () := by
  unfold verifyCheckpoint at h
  split_ifs at h
  dsimp only at h
  split at h
  · cases h
  · rename_i sig hfind
    exact ⟨sig, List.mem_of_find?_eq_some hfind, h⟩

/-- For a text that is accepted, the body of its note is what the log has signed if and only if it
has three lines in their one form. -/
theorem verified_text [LawfulSha256Hash H] (config : LogConfig VK) (text : Str)
    (cosigned : CosignedCheckpoint H) (hparse : CosignedCheckpoint.fromText text = .ok cosigned)
    (hverify : verifyCheckpoint SK config cosigned = .ok ()) :
    (noteBody text = some cosigned.checkpoint.toBody ∧ SignedNote SK config text) ↔
    ThreeLines text := by
  constructor
  · rintro ⟨hbody, -⟩
    exact threeLines_toBody hbody
  · intro h
    have hbody := noteBody_of_threeLines hparse h
    refine ⟨hbody, ?_⟩
    obtain ⟨sig, hsig, hok⟩ := verifyCheckpoint_ok hverify
    obtain ⟨body, sigSection, -, -, -, -, hsplit, -, -, hsigs⟩ := fromText_ok hparse
    refine ⟨body, sigSection, cosigned.signatures, hsplit, hsigs, sig, hsig, ?_⟩
    simp only [noteBody, hsplit, Option.map_some, Option.some.injEq] at hbody
    rwa [hbody]

end

section

attribute [local instance] Text.Base64.plainErrors

/-- The empty log. -/
def emptyHead : CosignedCheckpoint StartHash :=
  CosignedCheckpoint.new ⟨Note.logOrigin, 0, emptyRootHash⟩
    (⟨"log".toList, StartKey.mk, StartKey.start 4 []⟩ : Note.CheckpointSigner StartKey)

def emptyConfig : LogConfig StartKey := ⟨"log".toList, none, .mk, StartKey.start 4 [], "log".toList⟩

/-- The text of the empty log with more lines in its body. -/
def textWith (extension : List Str) : Str :=
  joinLines (bodyLines emptyHead.checkpoint ++ extension) ++
    newline :: newline :: emptyHead.signatures.flatMap fun sig => sig.toLine ++ [newline]

/-- The text is accepted, and its body is the one that was signed. -/
def acceptedAs (text : Str) (same : Bool) : Bool :=
  match (CosignedCheckpoint.fromText text : Except Error (CosignedCheckpoint StartHash)) with
  | .error _ => false
  | .ok cosigned => (verifyCheckpoint StartKey emptyConfig cosigned).isOk &&
      decide (noteBody text = some cosigned.checkpoint.toBody) == same

theorem acceptedAs_eq {text : Str} {same : Bool} (h : acceptedAs text same = true) :
    ∃ cosigned : CosignedCheckpoint StartHash, CosignedCheckpoint.fromText text = .ok cosigned ∧
      verifyCheckpoint StartKey emptyConfig cosigned = .ok () ∧
      decide (noteBody text = some cosigned.checkpoint.toBody) = same := by
  unfold acceptedAs at h
  cases hparse :
    (CosignedCheckpoint.fromText text : Except Error (CosignedCheckpoint StartHash)) with
  | error e => simp [hparse] at h
  | ok cosigned =>
    cases hverify : verifyCheckpoint StartKey emptyConfig cosigned with
    | error e => simp [hparse, hverify, Except.isOk, Except.toBool] at h
    | ok _ =>
      refine ⟨cosigned, rfl, hverify, ?_⟩
      simpa [hparse, hverify, Except.isOk, Except.toBool] using h

/-- A fourth line is accepted, and it is not signed. -/
theorem fourth_line_unsigned : ∃ (text : Str) (cosigned : CosignedCheckpoint StartHash),
    CosignedCheckpoint.fromText text = .ok cosigned ∧
    verifyCheckpoint StartKey emptyConfig cosigned = .ok () ∧
    noteBody text ≠ some cosigned.checkpoint.toBody := by
  have h : acceptedAs (textWith ["extra".toList]) false = true := by decide +kernel
  obtain ⟨cosigned, hparse, hverify, hbody⟩ := acceptedAs_eq h
  exact ⟨_, cosigned, hparse, hverify, of_decide_eq_false hbody⟩

theorem verified_text_empty : ∃ (text : Str) (cosigned : CosignedCheckpoint StartHash),
    CosignedCheckpoint.fromText text = .ok cosigned ∧
    verifyCheckpoint StartKey emptyConfig cosigned = .ok () ∧
    ((noteBody text = some cosigned.checkpoint.toBody ∧ SignedNote StartKey emptyConfig text) ↔
      ThreeLines text) := by
  have h : acceptedAs (textWith []) true = true := by decide +kernel
  obtain ⟨cosigned, hparse, hverify, -⟩ := acceptedAs_eq h
  exact ⟨_, cosigned, hparse, hverify, verified_text emptyConfig _ cosigned hparse hverify⟩

end

end Siglog.Witness

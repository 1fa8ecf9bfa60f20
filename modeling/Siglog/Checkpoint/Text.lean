import Siglog.Checkpoint.Signer

/-! A checkpoint is read back from its text, if its origin does not start with white space
and the names of its signers have none. -/

namespace Siglog.Note

open Text

/-! ### Signature lines -/

theorem fromBeBytes_toBeBytes (ts : UInt64) : fromBeBytes (toBeBytes ts) = ts := by
  have h := ts.toNat_lt
  apply UInt64.toNat_inj.mp
  simp only [fromBeBytes, toBeBytes, List.map_cons, List.map_nil, List.foldl_cons, List.foldl_nil,
    UInt8.toNat_ofNat', UInt64.toNat_ofNat']
  generalize ts.toNat = n at *
  omega

theorem length_toBeBytes (ts : UInt64) : (toBeBytes ts).length = 8 := rfl

namespace CheckpointSignature

theorem ofData_sigData (sig : CheckpointSignature) : ofData sig.name sig.sigData = .ok sig := by
  obtain ⟨name, ⟨keyId, hk⟩, ⟨signature, hs⟩, timestamp⟩ := sig
  cases timestamp with
  | none =>
    have hlen : (keyId ++ signature).length = 68 := by rw [List.length_append]; omega
    have htake : (keyId ++ signature).take 4 = keyId := by rw [← hk, List.take_left]
    have hdrop : (keyId ++ signature).drop 4 = signature := by rw [← hk, List.drop_left]
    change ofData name (keyId ++ signature) = _
    rw [ofData, dif_pos hlen]
    simp only [htake, hdrop]
  | some ts =>
    have hlen : (keyId ++ (toBeBytes ts ++ signature)).length = 76 := by
      rw [List.length_append, List.length_append, length_toBeBytes]
      omega
    have htake : (keyId ++ (toBeBytes ts ++ signature)).take 4 = keyId := by
      rw [← hk, List.take_left]
    have hrest : (keyId ++ (toBeBytes ts ++ signature)).drop 4 = toBeBytes ts ++ signature := by
      rw [← hk, List.drop_left]
    have hts : ((keyId ++ (toBeBytes ts ++ signature)).drop 4).take 8 = toBeBytes ts := by
      rw [hrest, ← length_toBeBytes ts, List.take_left]
    have hdrop : (keyId ++ (toBeBytes ts ++ signature)).drop 12 = signature := by
      rw [show 12 = 4 + 8 from rfl, ← List.drop_drop, hrest, ← length_toBeBytes ts, List.drop_left]
    change ofData name (keyId ++ (toBeBytes ts ++ signature)) = _
    rw [ofData, dif_neg (by omega), dif_pos hlen]
    simp only [htake, hts, hdrop, fromBeBytes_toBeBytes]

theorem sigData_ne_nil (sig : CheckpointSignature) : sig.sigData ≠ [] := by
  intro h
  have := congrArg List.length h
  rw [sigData, List.length_append, sig.keyId.property] at this
  simp at this

theorem trim_toLine (sig : CheckpointSignature) : trim sig.toLine = sig.toLine := by
  have hend : ∃ start, sig.toLine = start ++ Base64.encode sig.sigData := by
    refine ⟨sigPrefix ++ (sig.name ++ [' ']), ?_⟩
    simp [toLine]
  obtain ⟨start, hstart⟩ := hend
  have hfirst : trimStart sig.toLine = sig.toLine := trimStart_cons (by decide)
  rw [trim, hfirst, hstart]
  exact trimEnd_append_solid (Base64.solid_encode _) (Base64.encode_ne_nil sig.sigData_ne_nil)

theorem line_toLine {sig : CheckpointSignature} (h : Solid sig.name) : Line sig.toLine := by
  have hprefix : Line sigPrefix := ⟨by decide, by decide⟩
  have hspace : Line [' '] := ⟨by decide, by decide⟩
  have := line_append hprefix (line_append (line_of_solid h)
    (line_append hspace (line_of_solid (Base64.solid_encode sig.sigData))))
  exact this

variable [Base64.DecodeErrors]

/-- A signature is read back from its line. -/
theorem fromLine_toLine {sig : CheckpointSignature} (h : Solid sig.name) :
    fromLine sig.toLine = .ok sig := by
  rw [fromLine, trim_toLine, toLine, stripPrefix_append]
  dsimp only
  rw [splitOnce_char (not_mem_of_solid h (by decide))]
  dsimp only
  rw [Base64.decode_encode]
  exact ofData_sigData sig

end CheckpointSignature

/-! ### Notes -/

theorem encode_hash_ne_nil {H : Type} [Sha256Hash H] (hash : H) :
    Base64.encode (Sha256Hash.asBytes hash).val ≠ [] := by
  apply Base64.encode_ne_nil
  intro h
  have := congrArg List.length h
  rw [(Sha256Hash.asBytes hash).property] at this
  cases this

namespace CosignedCheckpoint

variable {H : Type} [Sha256Hash H]

/-- What the text of a checkpoint can carry. -/
structure Printable (cosigned : CosignedCheckpoint H) : Prop where
  origin : trimStart cosigned.checkpoint.origin.str = cosigned.checkpoint.origin.str
  names : ∀ sig ∈ cosigned.signatures, Solid sig.name
  size : cosigned.checkpoint.size < 2 ^ 64
  signatures : cosigned.signatures ≠ []

/-- There is no white space in the origin at all. -/
structure Plain (cosigned : CosignedCheckpoint H) : Prop where
  origin : Solid cosigned.checkpoint.origin.str
  names : ∀ sig ∈ cosigned.signatures, Solid sig.name
  size : cosigned.checkpoint.size < 2 ^ 64
  signatures : cosigned.signatures ≠ []

omit [Sha256Hash H] in
theorem Plain.printable {cosigned : CosignedCheckpoint H} (h : Plain cosigned) :
    Printable cosigned := by
  refine ⟨?_, h.names, h.size, h.signatures⟩
  have := trimStart_solid_append (t := []) h.origin cosigned.checkpoint.origin.ne_nil
  rwa [List.append_nil] at this

def bodyLines (cp : Checkpoint H) : List Str :=
  [cp.origin.str, decimal cp.size, Base64.encode (Sha256Hash.asBytes cp.rootHash).val]

/-- The lines of the text. -/
def noteLines (cosigned : CosignedCheckpoint H) : List Str :=
  bodyLines cosigned.checkpoint ++ [] :: cosigned.signatures.map CheckpointSignature.toLine

theorem toBody_eq (cp : Checkpoint H) : cp.toBody = joinLines (bodyLines cp) ++ [newline] := by
  simp [Checkpoint.toBody, bodyLines, joinLines, List.intercalate]

theorem trimEnd_toBody (cp : Checkpoint H) : trimEnd cp.toBody = joinLines (bodyLines cp) := by
  have hend : joinLines (bodyLines cp) =
      (cp.origin.str ++ newline :: (decimal cp.size ++ [newline])) ++
        Base64.encode (Sha256Hash.asBytes cp.rootHash).val := by
    simp [bodyLines, joinLines, List.intercalate]
  rw [toBody_eq, trimEnd_append (by decide), hend]
  exact trimEnd_append_solid (Base64.solid_encode _) (encode_hash_ne_nil _)

variable {cosigned : CosignedCheckpoint H}

theorem joinLines_noteLines (h : cosigned.signatures ≠ []) :
    joinLines cosigned.noteLines = joinLines (bodyLines cosigned.checkpoint) ++
      newline :: newline :: joinLines (cosigned.signatures.map CheckpointSignature.toLine) := by
  rw [noteLines, joinLines_append (by simp [bodyLines]) (by simp),
    joinLines_cons (by simpa using h)]
  rfl

/-- The text begins with the origin. -/
theorem noteLines_start (cosigned : CosignedCheckpoint H) :
    ∃ rest, joinLines cosigned.noteLines = cosigned.checkpoint.origin.str ++ rest := by
  have hlines : cosigned.noteLines = cosigned.checkpoint.origin.str :: cosigned.noteLines.tail :=
    rfl
  rw [hlines, joinLines_cons (by simp [noteLines, bodyLines])]
  exact ⟨_, rfl⟩

theorem toText_eq (h : cosigned.signatures ≠ []) :
    cosigned.toText = joinLines cosigned.noteLines ++ [newline] := by
  rw [toText, trimEnd_toBody, flatMap_terminated _ h, joinLines_noteLines h]
  simp

omit [Sha256Hash H] in
/-- The first character is not white space. -/
theorem Printable.origin_cons (h : Printable cosigned) :
    ∃ c rest, cosigned.checkpoint.origin.str = c :: rest ∧ isWhitespace c = false := by
  obtain ⟨c, rest, hc⟩ := List.exists_cons_of_ne_nil cosigned.checkpoint.origin.ne_nil
  have horigin := h.origin
  rw [hc] at horigin
  exact ⟨c, rest, hc, first_of_trimStart horigin⟩

theorem Printable.lines (h : Printable cosigned) : ∀ l ∈ cosigned.noteLines, Line l := by
  intro l hl
  rcases List.mem_append.mp hl with hl | hl
  · simp only [bodyLines, List.mem_cons, List.not_mem_nil, or_false] at hl
    rcases hl with rfl | rfl | rfl
    · exact ⟨cosigned.checkpoint.origin.newline, cosigned.checkpoint.origin.carriageReturn⟩
    · exact line_of_solid (solid_decimal _)
    · exact line_of_solid (Base64.solid_encode _)
  · rcases List.mem_cons.mp hl with rfl | hl
    · exact ⟨by simp, by simp⟩
    · obtain ⟨sig, hsig, rfl⟩ := List.mem_map.mp hl
      exact CheckpointSignature.line_toLine (h.names sig hsig)

/-- The text begins with the origin and ends with a signature, and so nothing is trimmed. -/
theorem Printable.trim_note (h : Printable cosigned) :
    trim (joinLines cosigned.noteLines) = joinLines cosigned.noteLines := by
  obtain ⟨rest, hrest⟩ := noteLines_start cosigned
  have htrim : trimStart (joinLines cosigned.noteLines) = joinLines cosigned.noteLines := by
    obtain ⟨c, origin, horigin, hsolid⟩ := h.origin_cons
    rw [hrest, horigin, List.cons_append]
    exact trimStart_cons hsolid
  have hend : ∃ start sig, joinLines cosigned.noteLines = start ++
      Base64.encode (CheckpointSignature.sigData sig) := by
    obtain ⟨init, sig, hsigs⟩ :=
      List.eq_nil_or_concat' cosigned.signatures |>.resolve_left h.signatures
    rw [noteLines, hsigs, List.map_append]
    have hsplit : bodyLines cosigned.checkpoint ++ [] :: (init.map CheckpointSignature.toLine ++
        [sig].map CheckpointSignature.toLine) =
        (bodyLines cosigned.checkpoint ++ [] :: init.map CheckpointSignature.toLine) ++
          [sig.toLine] := by simp
    rw [hsplit, joinLines_append (by simp [bodyLines]) (by simp), joinLines_singleton,
      CheckpointSignature.toLine]
    refine ⟨joinLines
      (bodyLines cosigned.checkpoint ++ [] :: init.map CheckpointSignature.toLine) ++
      newline :: (sigPrefix ++ (sig.name ++ [' '])), sig, ?_⟩
    simp
  obtain ⟨start, sig, hsig⟩ := hend
  rw [trim, htrim, hsig]
  exact trimEnd_append_solid (Base64.solid_encode _) (Base64.encode_ne_nil sig.sigData_ne_nil)

variable [Base64.DecodeErrors]

theorem parseSignatures_toLine {sigs : List CheckpointSignature}
    (h : ∀ sig ∈ sigs, Solid sig.name) :
    parseSignatures (joinLines (sigs.map CheckpointSignature.toLine)) = .ok sigs := by
  have hlines : lines (joinLines (sigs.map CheckpointSignature.toLine)) =
      sigs.map CheckpointSignature.toLine := by
    apply lines_joinLines
    · intro l hl
      obtain ⟨sig, hsig, rfl⟩ := List.mem_map.mp hl
      exact CheckpointSignature.line_toLine (h sig hsig)
    · rintro l hl rfl
      obtain ⟨sig, -, hsig⟩ := List.mem_map.mp (List.mem_of_getLast? hl)
      simp [CheckpointSignature.toLine, sigPrefix] at hsig
  have hfilter :
      (sigs.map CheckpointSignature.toLine).filter (fun line => sigPrefix.isPrefixOf line) =
      sigs.map CheckpointSignature.toLine := by
    rw [List.filter_eq_self]
    intro l hl
    obtain ⟨sig, -, rfl⟩ := List.mem_map.mp hl
    exact List.isPrefixOf_iff_prefix.mpr (List.prefix_append _ _)
  rw [parseSignatures, hlines, hfilter]
  clear hlines hfilter
  induction sigs with
  | nil => rfl
  | cons sig sigs ih =>
    rw [List.map_cons, List.mapM_cons,
      CheckpointSignature.fromLine_toLine (h sig List.mem_cons_self),
      ih fun s hs => h s (List.mem_cons_of_mem sig hs)]
    rfl

theorem parseBody_lines [LawfulSha256Hash H] (cp : Checkpoint H) (hsize : cp.size < 2 ^ 64) :
    parseBody cp.origin.str (decimal cp.size) (Base64.encode (Sha256Hash.asBytes cp.rootHash).val) =
      .ok cp := by
  have hlen := (Sha256Hash.asBytes cp.rootHash).property
  rw [parseBody, Origin.new_str, parseU64_decimal hsize, Base64.decode_encode]
  simp only [bind, Except.bind]
  rw [dif_pos hlen, LawfulSha256Hash.fromBytes_asBytes]

/-- A checkpoint is read back from its text, with or without the last newline. -/
theorem Printable.fromText [LawfulSha256Hash H] (h : Printable cosigned) {text : Str}
    (ht : trim text = joinLines cosigned.noteLines) :
    CosignedCheckpoint.fromText text = .ok cosigned := by
  have hbody :
      Text.lines (joinLines (bodyLines cosigned.checkpoint)) = bodyLines cosigned.checkpoint := by
    apply lines_joinLines
    · exact fun l hl => h.lines l (List.mem_append_left _ hl)
    · intro l hl
      obtain rfl : Base64.encode (Sha256Hash.asBytes cosigned.checkpoint.rootHash).val = l :=
        Option.some.inj hl
      exact encode_hash_ne_nil _
  have hsplit :=
    splitOnce_blank (bodyLines cosigned.checkpoint) (fun l hl => ?_) (by simp [bodyLines])
    (joinLines (cosigned.signatures.map CheckpointSignature.toLine))
  · rw [CosignedCheckpoint.fromText, ht, joinLines_noteLines h.signatures, hsplit]
    dsimp only
    rw [hbody, bodyLines]
    dsimp only
    rw [parseBody_lines _ h.size, parseSignatures_toLine h.names]
    simp only [bind, Except.bind]
    rw [if_neg h.signatures]
  · refine ⟨(h.lines l (List.mem_append_left _ hl)).newline, ?_⟩
    simp only [bodyLines, List.mem_cons, List.not_mem_nil, or_false] at hl
    rcases hl with rfl | rfl | rfl
    · exact cosigned.checkpoint.origin.ne_nil
    · exact decimal_ne_nil _
    · exact encode_hash_ne_nil _

theorem Printable.fromText_toText [LawfulSha256Hash H] (h : Printable cosigned) :
    CosignedCheckpoint.fromText cosigned.toText = .ok cosigned := by
  apply h.fromText
  have hstart := h.trim_note
  rw [toText_eq h.signatures]
  obtain ⟨c, rest, hc, hsolid⟩ := h.origin_cons
  obtain ⟨rest', hrest'⟩ := noteLines_start cosigned
  rw [hc, List.cons_append] at hrest'
  rw [hrest'] at hstart ⊢
  rw [trim, List.cons_append, trimStart_cons hsolid, ← List.cons_append, trimEnd_append (by decide)]
  rwa [trim, trimStart_cons hsolid] at hstart

/-! ### What was read -/

/-- What was read from the three lines. -/
theorem parseBody_ok [LawfulSha256Hash H] {origin size root : Str} {cp : Checkpoint H}
    (h : parseBody origin size root = .ok cp) : cp.origin.str = origin ∧
    parseU64 size = .ok cp.size ∧
      Base64.decode root = some (Sha256Hash.asBytes cp.rootHash).val := by
  unfold parseBody at h
  cases horigin : Origin.new origin with
  | error e => simp [horigin, bind, Except.bind] at h
  | ok o =>
    cases hsize : parseU64 size with
    | error e => simp [horigin, hsize, bind, Except.bind] at h
    | ok n =>
      cases hroot : Base64.decode root with
      | none => simp [horigin, hsize, hroot, bind, Except.bind] at h
      | some bytes =>
        simp only [horigin, hsize, hroot, bind, Except.bind] at h
        split_ifs at h with hlen
        obtain rfl := Except.ok.inj h
        refine ⟨?_, rfl, ?_⟩
        · unfold Origin.new at horigin
          split_ifs at horigin
          obtain rfl := Except.ok.inj horigin
          rfl
        · rw [LawfulSha256Hash.asBytes_fromBytes]

/-- What a text has passed. Lines after the third one are skipped. -/
theorem fromText_ok {text : Str} {cosigned : CosignedCheckpoint H}
    (h : CosignedCheckpoint.fromText text = .ok cosigned) :
    ∃ body sigSection origin size root rest, splitOnce [newline, newline] (trim text) =
      some (body, sigSection) ∧
      lines body = origin :: size :: root :: rest ∧
      parseBody origin size root = .ok cosigned.checkpoint ∧
      parseSignatures sigSection = .ok cosigned.signatures := by
  unfold CosignedCheckpoint.fromText at h
  split at h
  · cases h
  · rename_i body sigSection hsplit
    split at h
    · rename_i origin size root rest hlines
      refine ⟨body, sigSection, origin, size, root, rest, hsplit, hlines, ?_⟩
      cases hbody : (parseBody origin size root : Except Error (Checkpoint H)) with
      | error e => simp [hbody, bind, Except.bind] at h
      | ok cp =>
        cases hsigs : parseSignatures sigSection with
        | error e => simp [hbody, hsigs, bind, Except.bind] at h
        | ok signatures =>
          simp only [hbody, hsigs, bind, Except.bind] at h
          split_ifs at h
          obtain rfl := Except.ok.inj h
          exact ⟨rfl, rfl⟩
    · cases h

/-- The origin that is read does not start with white space. -/
theorem trimStart_of_fromText [LawfulSha256Hash H] {text : Str} {cosigned : CosignedCheckpoint H}
    (h : CosignedCheckpoint.fromText text = .ok cosigned) :
    trimStart cosigned.checkpoint.origin.str = cosigned.checkpoint.origin.str := by
  obtain ⟨body, sigSection, origin, size, root, rest, hsplit, hlines, hbody, -⟩ := fromText_ok h
  have hne := cosigned.checkpoint.origin.ne_nil
  have hhead := head_lines hlines ((parseBody_ok hbody).1 ▸ hne)
  rw [← (parseBody_ok hbody).1] at hhead
  have htext : (trim text).head? = body.head? := by
    rw [splitOnce_eq hsplit]
    cases body with
    | nil => simp [hne] at hhead
    | cons c body => rfl
  obtain ⟨c, tail, hc⟩ := List.exists_cons_of_ne_nil hne
  rw [hc] at hhead ⊢
  obtain ⟨tail', htrim⟩ : ∃ tail', trim text = c :: tail' := by
    cases ht : trim text with
    | nil => simp [ht, ← hhead] at htext
    | cons d tail' =>
      rw [ht, ← hhead] at htext
      exact ⟨tail', by rw [Option.some.inj htext]⟩
  have hstart := trimStart_trim text
  rw [htrim] at hstart
  exact trimStart_cons (first_of_trimStart hstart)

/-- A checkpoint is read back from its text if and only if its origin does not start with white
space. -/
theorem fromText_toText_iff [LawfulSha256Hash H] (cosigned : CosignedCheckpoint H)
    (hsize : cosigned.checkpoint.size < 2 ^ 64)
    (hnames : ∀ sig ∈ cosigned.signatures, Solid sig.name) (hne : cosigned.signatures ≠ []) :
    CosignedCheckpoint.fromText cosigned.toText = .ok cosigned ↔
      trimStart cosigned.checkpoint.origin.str = cosigned.checkpoint.origin.str :=
  ⟨trimStart_of_fromText, fun h => Printable.fromText_toText ⟨h, hnames, hsize, hne⟩⟩

end CosignedCheckpoint

namespace CosignedCheckpoint

attribute [local instance] Text.Base64.plainErrors

/-- An empty tree with one signature. -/
def emptyOf (origin : Origin) : CosignedCheckpoint StartHash :=
  ⟨⟨origin, 0, emptyRootHash⟩, [⟨"log".toList, StartKey.start 4 [], StartKey.start 64 [], none⟩]⟩

/-- The origin loses its first space. -/
theorem leading_space_lost :
    ∃ cosigned : CosignedCheckpoint StartHash, cosigned.checkpoint.size < 2 ^ 64 ∧
    (∀ sig ∈ cosigned.signatures, sig.name ≠ [] ∧ Solid sig.name) ∧ cosigned.signatures ≠ [] ∧
    (CosignedCheckpoint.fromText (H := StartHash) cosigned.toText).toOption.map
      (fun c => c.checkpoint.origin.str) ≠
      some cosigned.checkpoint.origin.str := by
  refine ⟨emptyOf ⟨" log".toList, by decide, by decide, by decide⟩, ?_, ?_, ?_, ?_⟩
  all_goals decide +kernel

theorem fromText_toText_iff_empty :
    ∃ cosigned : CosignedCheckpoint StartHash, cosigned.checkpoint.origin.str = "a log".toList ∧
    CosignedCheckpoint.fromText cosigned.toText = .ok cosigned := by
  refine ⟨emptyOf ⟨"a log".toList, by decide, by decide, by decide⟩, rfl, ?_⟩
  refine (fromText_toText_iff _ (by decide +kernel) (by decide +kernel) (by decide +kernel)).mpr ?_
  decide +kernel

end CosignedCheckpoint

end Siglog.Note

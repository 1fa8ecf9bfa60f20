import Siglog.Worker.Publisher

/-! What a published checkpoint carries, whatever the witnesses answer. The counter of a
cycle and the list of signatures are kept apart, and a signature that looks like one that
is there is not appended; what counts is the text. -/

namespace Siglog.Worker

open Concurrent (Prog)
open Note (NoteCrypto LawfulNoteCrypto Origin Checkpoint CheckpointSignature CheckpointSigner
  CosignedCheckpoint
  computeKeyIdWithAlg algEd25519 algCosignatureV1)
open Storage (Op LogState Server Database perform TileStorage.reader)
open Text (Str Solid trim trimStart utf8)
open Text.Base64 (DecodeErrors)
open Witness (LogConfig HttpTexts)

variable {SK VK H : Type} [NoteCrypto SK VK] [Sha256Hash H]

/-- The checkpoint has a signature that the key of the witness accepts. -/
def Accepts (SK : Type) [NoteCrypto SK VK] (cosigned : CosignedCheckpoint H)
    (w : ExternalWitness VK) : Prop :=
  ∃ sig ∈ cosigned.signatures, w.key.verifyCosignature SK sig cosigned.checkpoint.toBody = .ok ()

/-- So many of the witnesses, of different keys and names, have signed the checkpoint. -/
def Quorate (SK : Type) [NoteCrypto SK VK] (externalWitnesses : List (ExternalWitness VK))
    (quorum : ℕ) (cosigned : CosignedCheckpoint H) : Prop :=
  ∃ counted : List (ExternalWitness VK),
    (∀ w ∈ counted, w ∈ externalWitnesses ∧ Accepts SK cosigned w) ∧
    (counted.map fun w => NoteCrypto.keyBytes SK w.key.verifyingKey).Nodup ∧
    (counted.map fun w => w.name).Nodup ∧
    quorum ≤ counted.length

/-- The names and keys of all that may sign: the log, its witnesses and the external ones. -/
def signers (signer : CheckpointSigner SK) (witnesses : List (CheckpointSigner SK))
    (externalWitnesses : List (ExternalWitness VK)) : List (Str × VK) :=
  ((signer :: witnesses).map fun s => (s.name, NoteCrypto.verifyingKey s.signingKey)) ++
    externalWitnesses.map fun w => (w.key.keyName, w.key.verifyingKey)

/-- Different keys of one name have different key ids. -/
def DistinctIds (SK : Type) [NoteCrypto SK VK] (keys : List (Str × VK)) : Prop :=
  ∀ a ∈ keys, ∀ b ∈ keys, ∀ alg ∈ [algEd25519, algCosignatureV1],
    ∀ alg' ∈ [algEd25519, algCosignatureV1], a.1 = b.1 →
    computeKeyIdWithAlg SK a.1 a.2 alg = computeKeyIdWithAlg SK b.1 b.2 alg' → a.2 = b.2

/-- The algorithm that the form of a signature stands for. -/
def algOf (sig : CheckpointSignature) : UInt8 :=
  if sig.timestamp.isSome then algCosignatureV1 else algEd25519

theorem algOf_mem (sig : CheckpointSignature) : algOf sig ∈ [algEd25519, algCosignatureV1] := by
  unfold algOf
  split_ifs <;> simp

theorem verifyCosignature_eq (config : LogConfig VK) (sig : CheckpointSignature) (body : Str) :
    config.verifyCosignature SK sig body =
      if sig.keyId ≠ computeKeyIdWithAlg SK config.keyName config.verifyingKey (algOf sig) ∨
        sig.name ≠ config.keyName then
        .error (.signing "signature key identity mismatch")
      else Witness.verifyStrict SK config.verifyingKey (utf8 (match sig.timestamp with
        | some ts => Note.cosignatureV1Message ts body
        | none => body)) sig.signature := rfl

/-- An accepted signature names its key. -/
theorem verifyCosignature_ok {config : LogConfig VK} {sig : CheckpointSignature} {body : Str}
    (h : config.verifyCosignature SK sig body = .ok ()) :
    sig.name = config.keyName ∧
    sig.keyId = computeKeyIdWithAlg SK config.keyName config.verifyingKey (algOf sig) := by
  rw [verifyCosignature_eq] at h
  split_ifs at h with hne
  rw [not_or, not_not, not_not] at hne
  exact ⟨hne.2, hne.1⟩

theorem verifyCosignature_congr {config config' : LogConfig VK}
    (hname : config.keyName = config'.keyName)
    (hkey : config.verifyingKey = config'.verifyingKey) (sig : CheckpointSignature) (body : Str) :
    config.verifyCosignature SK sig body = config'.verifyCosignature SK sig body := by
  rw [verifyCosignature_eq, verifyCosignature_eq, hname, hkey]

/-- A key accepts what was signed with it under its name. -/
theorem verifyCosignature_signed [LawfulNoteCrypto SK VK] {config : LogConfig VK}
    {sig : CheckpointSignature} {body : Str}
    {sk : SK} (hname : sig.name = config.keyName)
    (hkey : NoteCrypto.verifyingKey sk = config.verifyingKey)
    (hid : sig.keyId = computeKeyIdWithAlg SK sig.name (NoteCrypto.verifyingKey sk) (algOf sig))
    (message : Str) (hsign : sig.signature = NoteCrypto.sign sk (utf8 message))
    (hmessage : message = match sig.timestamp with
      | some ts => Note.cosignatureV1Message ts body
      | none => body) : config.verifyCosignature SK sig body = .ok () := by
  have hmatch :
      ¬ (sig.keyId ≠ computeKeyIdWithAlg SK config.keyName config.verifyingKey (algOf sig) ∨
      sig.name ≠ config.keyName) := by
    rw [not_or, not_not, not_not]
    refine ⟨?_, hname⟩
    rw [← hname, ← hkey]
    exact hid
  rw [verifyCosignature_eq, if_neg hmatch, ← hmessage, hsign, ← hkey, Witness.verifyStrict,
    LawfulNoteCrypto.verify_sign]

/-- The log's own signature. -/
def logSignature (signer : CheckpointSigner SK) (cp : Checkpoint H) : CheckpointSignature :=
  ⟨signer.name, signer.keyId, NoteCrypto.sign signer.signingKey (utf8 cp.toBody), none⟩

/-- Where a signature on a checkpoint may come from. -/
inductive Source (signer : CheckpointSigner SK) (witnesses : List (CheckpointSigner SK))
    (externalWitnesses : List (ExternalWitness VK)) (cp : Checkpoint H) :
    CheckpointSignature → Prop where
  | log : Source signer witnesses externalWitnesses cp (logSignature signer cp)
  | cosigned (w : CheckpointSigner SK) (h : w ∈ witnesses) (timestamp : UInt64) :
      Source signer witnesses externalWitnesses cp (w.cosignV1 cp timestamp)
  | external (w : ExternalWitness VK) (h : w ∈ externalWitnesses) (sig : CheckpointSignature)
      (hok : w.key.verifyCosignature SK sig cp.toBody = .ok ()) :
      Source signer witnesses externalWitnesses cp sig

/-- The signatures of a cycle so far. -/
structure Tally (signer : CheckpointSigner SK) (witnesses : List (CheckpointSigner SK))
    (externalWitnesses : List (ExternalWitness VK)) (cp : Checkpoint H)
    (cosigned : CosignedCheckpoint H) : Prop where
  checkpoint : cosigned.checkpoint = cp
  log : logSignature signer cp ∈ cosigned.signatures
  source : ∀ sig ∈ cosigned.signatures, Source signer witnesses externalWitnesses cp sig

/-- The witnesses that were counted. -/
structure Counted (SK : Type) [NoteCrypto SK VK] (externalWitnesses : List (ExternalWitness VK))
    (c : Collected H) (counted : List (ExternalWitness VK)) : Prop where
  mem : ∀ w ∈ counted, w ∈ externalWitnesses
  keys : (counted.map fun w => NoteCrypto.keyBytes SK w.key.verifyingKey).Nodup
  names : (counted.map fun w => w.name).Nodup
  count : c.externalSignatureCount = counted.length
  signedKeys : ∀ w ∈ counted, NoteCrypto.keyBytes SK w.key.verifyingKey ∈ c.signedKeys
  signedNames : ∀ w ∈ counted, w.name ∈ c.signedNames
  accepts : ∀ w ∈ counted, Accepts SK c.cosigned w

section

variable {signer : CheckpointSigner SK} {witnesses : List (CheckpointSigner SK)}
  {externalWitnesses : List (ExternalWitness VK)}
  {cp : Checkpoint H} {cosigned : CosignedCheckpoint H} {sig : CheckpointSignature}

theorem Tally.new (signer : CheckpointSigner SK) (witnesses : List (CheckpointSigner SK))
    (externalWitnesses : List (ExternalWitness VK)) (cp : Checkpoint H) :
    Tally signer witnesses externalWitnesses cp (CosignedCheckpoint.new cp signer) := by
  refine ⟨rfl, List.mem_singleton_self _, fun sig hsig => ?_⟩
  rw [List.mem_singleton.mp hsig]
  exact .log

theorem Tally.push (h : Tally signer witnesses externalWitnesses cp cosigned)
    (hsig : Source signer witnesses externalWitnesses cp sig) :
    Tally signer witnesses externalWitnesses cp
      { cosigned with signatures := cosigned.signatures ++ [sig] } := by
  refine ⟨h.checkpoint, List.mem_append_left _ h.log, fun s hs => ?_⟩
  rcases List.mem_append.mp hs with hs | hs
  · exact h.source s hs
  · rwa [List.mem_singleton.mp hs]

/-- A signature that looks like an accepted one is accepted as well. -/
theorem Source.accepted [LawfulNoteCrypto SK VK] (hid : signer.keyId =
      computeKeyIdWithAlg SK signer.name (NoteCrypto.verifyingKey signer.signingKey) algEd25519)
    (hids : DistinctIds SK (signers signer witnesses externalWitnesses)) {w : ExternalWitness VK}
    (hw : w ∈ externalWitnesses)
    (hok : w.key.verifyCosignature SK sig cp.toBody = .ok ()) {e : CheckpointSignature}
    (he : Source signer witnesses externalWitnesses cp e) (hname : e.name = sig.name)
    (hkey : e.keyId = sig.keyId)
    (hsig : e.signature = sig.signature) : w.key.verifyCosignature SK e cp.toBody = .ok () := by
  obtain ⟨hwname, hwkey⟩ := verifyCosignature_ok hok
  have hwmem : (w.key.keyName, w.key.verifyingKey) ∈ signers signer witnesses externalWitnesses :=
    List.mem_append_right _ (List.mem_map_of_mem hw)
  have hsame : ∀ key ∈ signers signer witnesses externalWitnesses, key.1 = e.name →
      e.keyId = computeKeyIdWithAlg SK key.1 key.2 (algOf e) → key.2 = w.key.verifyingKey := by
    intro key hkeymem hkeyname hkeyid
    apply hids key hkeymem _ hwmem _ (algOf_mem e) _ (algOf_mem sig)
    · rw [hkeyname, hname, hwname]
    · rw [← hkeyid, hkey, hwkey]
  cases he with
  | log =>
    have hvk := hsame (signer.name, NoteCrypto.verifyingKey signer.signingKey)
      (List.mem_append_left _ List.mem_cons_self) rfl hid
    exact verifyCosignature_signed (hname.trans hwname) hvk hid _ rfl rfl
  | cosigned s hs timestamp =>
    have hmem : (s.name, NoteCrypto.verifyingKey s.signingKey) ∈
        signers signer witnesses externalWitnesses :=
      List.mem_append_left _
        (List.mem_map_of_mem (f := fun s => (s.name, NoteCrypto.verifyingKey s.signingKey))
        (List.mem_cons_of_mem _ hs))
    exact verifyCosignature_signed (hname.trans hwname) (hsame _ hmem rfl rfl) rfl _ rfl rfl
  | external v hv _ hvok =>
    have hmem : (v.key.keyName, v.key.verifyingKey) ∈ signers signer witnesses externalWitnesses :=
      List.mem_append_right _ (List.mem_map_of_mem hv)
    obtain ⟨hvname, hvkey⟩ := verifyCosignature_ok hvok
    have hvk := hsame _ hmem hvname.symm hvkey
    rw [← hvok]
    exact verifyCosignature_congr (hwname.symm.trans (hname.symm.trans hvname)) hvk.symm _ _

end

/-! ### Merging -/

section

variable [DecodeErrors] {signer : CheckpointSigner SK} {witnesses : List (CheckpointSigner SK)}
  {externalWitnesses : List (ExternalWitness VK)} {cp : Checkpoint H}
  {cosigned cosigned' : CosignedCheckpoint H}

omit [Sha256Hash H] in
theorem fromLine_trim (line : Str) :
    CheckpointSignature.fromLine (trim line) = CheckpointSignature.fromLine line := by
  unfold CheckpointSignature.fromLine
  rw [Text.trim_trim]

/-- The line is a signature that the key of the witness accepts. -/
def Verified (SK : Type) [NoteCrypto SK VK] (cp : Checkpoint H) (w : ExternalWitness VK)
    (line : Str) : Prop :=
  ∃ sig, CheckpointSignature.fromLine line = .ok sig ∧
    w.key.verifyCosignature SK sig cp.toBody = .ok ()

/-- A merged line is in the list, itself or by one that looks like it. -/
theorem merge_accepts [LawfulNoteCrypto SK VK] (hid : signer.keyId =
      computeKeyIdWithAlg SK signer.name (NoteCrypto.verifyingKey signer.signingKey) algEd25519)
    (hids : DistinctIds SK (signers signer witnesses externalWitnesses))
    (h : Tally signer witnesses externalWitnesses cp cosigned) {w : ExternalWitness VK}
    (hw : w ∈ externalWitnesses) {line : Str} (hline : Verified SK cp w line)
    (hadd : addExternalSignatureLine cosigned w.name line = .ok cosigned') :
    Tally signer witnesses externalWitnesses cp cosigned' ∧ Accepts SK cosigned' w ∧
      ∀ v, Accepts SK cosigned v → Accepts SK cosigned' v := by
  obtain ⟨sig, hsig, hok⟩ := hline
  rw [addExternalSignatureLine, hsig] at hadd
  simp only [bind, Except.bind] at hadd
  split_ifs at hadd with hname hexists
  · obtain rfl := Except.ok.inj hadd
    rw [List.any_eq_true] at hexists
    obtain ⟨e, he, hlooks⟩ := hexists
    simp only [decide_eq_true_eq] at hlooks
    have haccepted := (h.source e he).accepted hid hids hw hok hlooks.1 hlooks.2.1 hlooks.2.2
    exact ⟨h, ⟨e, he, h.checkpoint ▸ haccepted⟩, fun _ hv => hv⟩
  · obtain rfl := Except.ok.inj hadd
    refine ⟨h.push (.external w hw sig hok), ⟨sig, by simp, ?_⟩, ?_⟩
    · rw [h.checkpoint]
      exact hok
    · rintro v ⟨s, hs, hv⟩
      exact ⟨s, List.mem_append_left _ hs, hv⟩

omit [DecodeErrors] in
theorem Counted.grow {c : Collected H} {counted : List (ExternalWitness VK)}
    (h : Counted SK externalWitnesses c counted)
    (hgrow : ∀ v, Accepts SK c.cosigned v → Accepts SK cosigned' v) :
    Counted SK externalWitnesses { c with cosigned := cosigned' } counted :=
  ⟨h.mem, h.keys, h.names, h.count, h.signedKeys, h.signedNames,
    fun w hw => hgrow w (h.accepts w hw)⟩

omit [DecodeErrors] in
/-- A witness is counted once for its key and its name. -/
theorem Counted.count_witness {c : Collected H} {counted : List (ExternalWitness VK)}
    (h : Counted SK externalWitnesses c counted) {w : ExternalWitness VK}
    (hw : w ∈ externalWitnesses) (haccepts : Accepts SK c.cosigned w) :
    ∃ counted', Counted SK externalWitnesses
      (c.count (NoteCrypto.keyBytes SK w.key.verifyingKey) w.name) counted' := by
  unfold Collected.count
  split_ifs with hkey hname
  · exact ⟨counted, h⟩
  · exact ⟨counted, h.mem, h.keys, h.names, h.count,
      fun v hv => List.mem_cons_of_mem _ (h.signedKeys v hv), h.signedNames, h.accepts⟩
  · refine ⟨w :: counted, ?_, ?_, ?_, ?_, ?_, ?_, ?_⟩
    · simpa [hw] using h.mem
    · rw [List.map_cons, List.nodup_cons]
      refine ⟨fun hmem => hkey ?_, h.keys⟩
      obtain ⟨v, hv, heq⟩ := List.mem_map.mp hmem
      rw [← heq]
      exact h.signedKeys v hv
    · rw [List.map_cons, List.nodup_cons]
      refine ⟨fun hmem => hname ?_, h.names⟩
      obtain ⟨v, hv, heq⟩ := List.mem_map.mp hmem
      rw [← heq]
      exact h.signedNames v hv
    · simp [h.count]
    · simpa using fun v hv => Or.inr (h.signedKeys v hv)
    · simpa using fun v hv => Or.inr (h.signedNames v hv)
    · simpa [haccepts] using h.accepts

end

/-! ### A cycle -/

/-- Whatever the answers are, the program ends in `P` if it succeeds. -/
def Yields {α : Type} (p : Publisher H α) (P : α → Prop) : Prop :=
  p.Returns (fun _ _ => True) fun x => ∀ a, x = .ok a → P a

section Rules

variable {α β : Type} {P : α → Prop} {Q : β → Prop}

omit [Sha256Hash H] in
theorem yields_pure {a : α} (h : P a) : Yields (.pure a : Publisher H α) P := by
  rintro _ ⟨⟩
  exact h

omit [Sha256Hash H] in
theorem yields_fail (e : Fault Error) : Yields (.fail e : Publisher H α) P := by rintro _ ⟨⟩

omit [Sha256Hash H] in
theorem yields_any (p : Publisher H α) : Yields p fun _ => True :=
  Prog.returns_any p fun _ _ _ => trivial

omit [Sha256Hash H] in
theorem yields_ofExcept {x : Except (Fault Error) α} (h : ∀ a, x = .ok a → P a) :
    Yields (Prog.ofExcept x : Publisher H α) P := by
  cases x with
  | ok a => exact yields_pure (h a rfl)
  | error e => exact yields_fail e

omit [Sha256Hash H] in
theorem yields_bind {p : Publisher H α} {f : α → Publisher H β} (hp : Yields p P)
    (hf : ∀ a, P a → Yields (f a) Q) :
    Yields (p.bind f) Q :=
  Prog.returns_bind_any hp (by rintro e _ ⟨⟩) hf

omit [Sha256Hash H] in
theorem yields_caught {p : Publisher H α} (hp : Yields p P) :
    Yields (caught p) fun x => ∀ a, x = .ok a → P a := by
  refine Prog.returns_bind.mpr (Prog.returns_attempt.mpr (Prog.returns_mono (fun x hx => ?_) hp))
  rcases x with (e | _) | a
  · exact yields_pure (by rintro _ ⟨⟩)
  · exact yields_fail .panic
  · exact yields_pure (by rintro _ ⟨⟩; exact hx a rfl)

end Rules

section

variable [DecodeErrors] [HttpTexts] {signer : CheckpointSigner SK}
  {witnesses : List (CheckpointSigner SK)}
  {externalWitnesses : List (ExternalWitness VK)} {cp : Checkpoint H}

/-- A call that succeeds has verified what it returns. -/
theorem callExternalWitness_yields (w : ExternalWitness VK) (cosigned : CosignedCheckpoint H)
    (oldSize : ℕ) (proof : List H) :
    Yields (callExternalWitness SK w cosigned oldSize proof)
      (Verified SK cosigned.checkpoint w) := by
  refine yields_bind (yields_any _) fun response _ => ?_
  rw [readResponse]
  refine yields_bind (yields_any _) fun body _ => ?_
  split_ifs with hstatus
  · rw [noteConflict]
    cases Text.parseU64 (trim body) with
    | ok size => exact yields_bind (yields_any _) fun _ _ => yields_fail _
    | error e => exact yields_fail _
  · refine yields_ofExcept fun line hline => ?_
    rw [checkResponse] at hline
    split_ifs at hline with hsuccess
    · rcases hsig : CheckpointSignature.fromLine (trim body) with e | sig
      · simp [hsig, bind, Except.bind, Except.mapError] at hline
      · rcases hok : w.key.verifyCosignature SK sig cosigned.checkpoint.toBody with e | _
        · simp [hsig, hok, bind, Except.bind, Except.mapError] at hline
        · simp only [hsig, hok, bind, Except.bind, Except.mapError, Except.ok.injEq] at hline
          subst hline
          exact ⟨sig, (fromLine_trim body).symm.trans hsig, hok⟩
    · cases hline

/-- The signatures so far and the witnesses counted among them. -/
structure Collecting (signer : CheckpointSigner SK) (witnesses : List (CheckpointSigner SK))
    (externalWitnesses : List (ExternalWitness VK)) (cp : Checkpoint H) (c : Collected H) :
    Prop where
  tally : Tally signer witnesses externalWitnesses cp c.cosigned
  counted : ∃ counted, Counted SK externalWitnesses c counted

variable [LawfulNoteCrypto SK VK] (hid : signer.keyId =
      computeKeyIdWithAlg SK signer.name (NoteCrypto.verifyingKey signer.signingKey) algEd25519)
    (hids : DistinctIds SK (signers signer witnesses externalWitnesses))

include hid hids

theorem witnessExternally_yields {w : ExternalWitness VK} (hw : w ∈ externalWitnesses) (newSize : ℕ)
    {c : Collected H} (hc : Collecting signer witnesses externalWitnesses cp c) :
    Yields (witnessExternally SK newSize w c)
      (Collecting signer witnesses externalWitnesses cp) := by
  refine yields_bind (yields_any _) fun oldSize _ => yields_bind (yields_any _) fun x _ => ?_
  cases x with
  | error e => exact yields_pure hc
  | ok proof =>
    refine yields_bind (yields_caught (callExternalWitness_yields w c.cosigned oldSize proof))
      fun y hy => ?_
    cases y with
    | error e => exact yields_pure hc
    | ok line =>
      dsimp only
      cases hadd : addExternalSignatureLine c.cosigned w.name line with
      | error e => exact yields_pure hc
      | ok cosigned =>
        have hline := hy line rfl
        rw [hc.tally.checkpoint] at hline
        obtain ⟨htally, haccepts, hgrow⟩ := merge_accepts hid hids hc.tally hw hline hadd
        obtain ⟨counted, hcounted⟩ := hc.counted
        refine yields_bind (yields_any _) fun _ _ => yields_pure ⟨?_, ?_⟩
        · rw [Collected.cosigned_count]
          exact htally
        · exact (hcounted.grow hgrow).count_witness hw haccepts

theorem witnessAll_yields (newSize : ℕ) (ws : List (ExternalWitness VK))
    (hws : ∀ w ∈ ws, w ∈ externalWitnesses) :
    ∀ {c : Collected H}, Collecting signer witnesses externalWitnesses cp c →
      Yields (witnessAll SK newSize ws c) (Collecting signer witnesses externalWitnesses cp) := by
  induction ws with
  | nil => exact fun hc => yields_pure hc
  | cons w ws ih =>
    intro c hc
    refine yields_bind (witnessExternally_yields hid hids (hws w List.mem_cons_self) newSize hc)
      fun c' hc' => ?_
    exact ih (fun v hv => hws v (List.mem_cons_of_mem w hv)) hc'

end

/-! ### What is written -/

/-- The operation writes only what satisfies `P`. -/
def WritesOnly (P : Api.Path → Bytes → Prop) : PublishOp H → Prop
  | .store (.writeObject path data) => P path data
  | _ => True

section

variable {P : Api.Path → Bytes → Prop}

omit [Sha256Hash H] in
theorem onStore_calls {α : Type} {p : Server H α} (h : p.Calls fun o => WritesOnly P (.store o)) :
    (onStore p).Calls (WritesOnly P) := by
  induction p with
  | pure a => trivial
  | fail e => trivial
  | op o k ih => exact ⟨h.1, fun r => ih r (h.2 r)⟩

omit [Sha256Hash H] in
theorem perform_writes {o : Op H} (h : WritesOnly P (.store o)) :
    (perform o).Calls fun o => WritesOnly P (.store o) :=
  ⟨h, fun _ => Prog.calls_ofExcept⟩

omit [Sha256Hash H] in
theorem caught_calls {α : Type} {p : Publisher H α} (h : p.Calls (WritesOnly P)) :
    (caught p).Calls (WritesOnly P) := by
  refine Prog.calls_seq (Prog.calls_attempt h) fun x => ?_
  rcases x with (e | _) | a
  · trivial
  · trivial
  · trivial

theorem consistencyProof_calls (oldSize newSize : ℕ) :
    (consistencyProof oldSize newSize : Publisher H (List H)).Calls (WritesOnly P) := by
  unfold consistencyProof
  split_ifs
  · refine Prog.calls_translate (fun o => onStore_calls ?_) _
    refine Prog.calls_seq (perform_writes trivial) fun data => ?_
    cases data with
    | none => trivial
    | some data => exact Prog.calls_seq Prog.calls_ofExcept fun _ => trivial
  · trivial

variable [DecodeErrors] [HttpTexts]

theorem callExternalWitness_calls (w : ExternalWitness VK) (cosigned : CosignedCheckpoint H)
    (oldSize : ℕ)
    (proof : List H) : (callExternalWitness SK w cosigned oldSize proof).Calls (WritesOnly P) := by
  refine Prog.calls_seq ⟨trivial, fun _ => Prog.calls_ofExcept⟩ fun response => ?_
  rw [readResponse]
  refine Prog.calls_seq Prog.calls_ofExcept fun body => ?_
  split_ifs
  · rw [noteConflict]
    cases Text.parseU64 (trim body) with
    | ok size => exact Prog.calls_seq ⟨trivial, fun _ => trivial⟩ fun _ => trivial
    | error e => trivial
  · exact Prog.calls_ofExcept

theorem witnessExternally_calls (newSize : ℕ) (w : ExternalWitness VK) (c : Collected H) :
    (witnessExternally SK newSize w c).Calls (WritesOnly P) := by
  refine Prog.calls_seq ⟨trivial, fun _ => trivial⟩ fun oldSize => ?_
  refine Prog.calls_seq (caught_calls (consistencyProof_calls _ _)) fun x => ?_
  cases x with
  | error e => trivial
  | ok proof =>
    refine Prog.calls_seq (caught_calls (callExternalWitness_calls w _ _ _)) fun y => ?_
    cases y with
    | error e => trivial
    | ok line =>
      dsimp only
      cases addExternalSignatureLine c.cosigned w.name line with
      | error e => trivial
      | ok cosigned => exact Prog.calls_seq ⟨trivial, fun _ => trivial⟩ fun _ => trivial

theorem witnessAll_calls (newSize : ℕ) (ws : List (ExternalWitness VK)) :
    ∀ c : Collected H, (witnessAll SK newSize ws c).Calls (WritesOnly P) := by
  induction ws with
  | nil => exact fun _ => trivial
  | cons w ws ih => exact fun c => Prog.calls_seq (witnessExternally_calls newSize w c) ih

omit [DecodeErrors] [HttpTexts] in
theorem cosignAll_calls (ws : List (CheckpointSigner SK)) :
    ∀ cosigned : CosignedCheckpoint H, (cosignAll ws cosigned).Calls (WritesOnly P) := by
  induction ws with
  | nil => exact fun _ => trivial
  | cons w ws ih =>
    intro cosigned
    refine Prog.calls_seq ⟨trivial, fun _ => trivial⟩ fun now => ?_
    exact Prog.calls_seq Prog.calls_ofExcept fun sig => ih _

end

section

variable {signer : CheckpointSigner SK}
  {witnesses : List (CheckpointSigner SK)} {externalWitnesses : List (ExternalWitness VK)}
  {cp : Checkpoint H}

theorem cosignAll_yields (ws : List (CheckpointSigner SK)) (hws : ∀ w ∈ ws, w ∈ witnesses) :
    ∀ {cosigned : CosignedCheckpoint H}, Tally signer witnesses externalWitnesses cp cosigned →
      Yields (cosignAll ws cosigned) (Tally signer witnesses externalWitnesses cp) := by
  induction ws with
  | nil => exact fun h => yields_pure h
  | cons w ws ih =>
    intro cosigned h
    refine yields_bind (yields_any _) fun now _ => ?_
    refine yields_bind (yields_ofExcept
      (P := fun sig => Source signer witnesses externalWitnesses cp sig) ?_) fun sig hsig =>
      ih (fun v hv => hws v (List.mem_cons_of_mem w hv)) (h.push hsig)
    intro sig hsig
    cases now with
    | error e => cases hsig
    | ok timestamp =>
      obtain rfl := Except.ok.inj hsig
      rw [h.checkpoint]
      exact .cosigned w (hws w List.mem_cons_self) timestamp

variable [DecodeErrors] [HttpTexts] [DecidableEq H] [LawfulNoteCrypto SK VK]

theorem publishHead_calls (hid : signer.keyId =
      computeKeyIdWithAlg SK signer.name (NoteCrypto.verifyingKey signer.signingKey) algEd25519)
    (hids : DistinctIds SK (signers signer witnesses externalWitnesses)) (witnessQuorum : Option ℕ)
    (origin : Origin) (newSize : ℕ) (rootHash : H) :
    (publishHead signer witnesses externalWitnesses witnessQuorum origin newSize rootHash).Calls
      (WritesOnly fun path data => path = Api.checkpointPath ∧
        ∃ cosigned, data = utf8 cosigned.toText ∧
        Tally signer witnesses externalWitnesses ⟨origin, newSize, rootHash⟩ cosigned ∧
        Quorate SK externalWitnesses (witnessQuorum.getD externalWitnesses.length) cosigned) := by
  refine Prog.calls_seq ⟨trivial, fun _ => trivial⟩ fun last => ?_
  split_ifs
  · trivial
  · refine Prog.calls_bind (cosignAll_calls _ _) (cosignAll_yields _ (fun _ hw => hw)
      (Tally.new signer witnesses externalWitnesses _)) fun cosigned htally => ?_
    refine Prog.calls_bind (witnessAll_calls _ _ _)
      (witnessAll_yields hid hids newSize _ (fun _ hw => hw)
      ⟨htally, [], by simp, by simp, by simp, rfl, by simp, by simp, by simp⟩) fun c hc => ?_
    split_ifs with hquorum
    · trivial
    · obtain ⟨counted, h⟩ := hc.counted
      rw [h.count, not_lt] at hquorum
      have hquorate :
          Quorate SK externalWitnesses (witnessQuorum.getD externalWitnesses.length) c.cosigned :=
        ⟨counted, fun w hw => ⟨h.mem w hw, h.accepts w hw⟩, h.keys, h.names, hquorum⟩
      exact Prog.calls_seq
        (onStore_calls (perform_writes ⟨rfl, c.cosigned, rfl, hc.tally, hquorate⟩)) fun _ =>
        ⟨trivial, fun _ => trivial⟩

/-- The objects that a run has written. -/
def writes (t : List (Σ o : PublishOp H, o.Answer H)) : List (Api.Path × Bytes) :=
  t.filterMap fun e => match e.1 with
    | .store (.writeObject path data) => some (path, data)
    | _ => none

omit [Sha256Hash H] [DecidableEq H] [DecodeErrors] [HttpTexts] in
theorem writes_of_calls {P : Api.Path → Bytes → Prop} {α : Type} {p : Publisher H α}
    {t : List (Σ o : PublishOp H, o.Answer H)} (ht : p.Trace t) (hp : p.Calls (WritesOnly P))
    {path : Api.Path} {data : Bytes} (h : (path, data) ∈ writes t) : P path data := by
  obtain ⟨⟨o, r⟩, he, hwrite⟩ := List.mem_filterMap.mp h
  have hcalls := Prog.calls_trace ht hp _ he
  dsimp only at hwrite hcalls
  split at hwrite
  · obtain ⟨rfl, rfl⟩ := Prod.mk.inj (Option.some.inj hwrite)
    exact hcalls
  · cases hwrite

omit [DecodeErrors] [HttpTexts] [DecidableEq H] [LawfulNoteCrypto SK VK] in
/-- Every signature has one of the names. -/
theorem Source.name_mem {sig : CheckpointSignature}
    (h : Source signer witnesses externalWitnesses cp sig) :
    ∃ key ∈ signers signer witnesses externalWitnesses, sig.name = key.1 := by
  cases h with
  | log => exact ⟨_, List.mem_append_left _ List.mem_cons_self, rfl⟩
  | cosigned w hw timestamp =>
    exact ⟨_, List.mem_append_left _ (List.mem_map_of_mem (List.mem_cons_of_mem _ hw)), rfl⟩
  | external w hw _ hok =>
    exact ⟨_, List.mem_append_right _ (List.mem_map_of_mem hw), (verifyCosignature_ok hok).1⟩

/-- A checkpoint that is written says what was read, has the log's signature, and a quorum of
witnesses has signed it. -/
theorem publishCheckpoint_quorum [LawfulSha256Hash H] (signer : CheckpointSigner SK)
    (witnesses : List (CheckpointSigner SK)) (externalWitnesses : List (ExternalWitness VK))
    (witnessQuorum : Option ℕ) (origin : Origin) (horigin : trimStart origin.str = origin.str)
    (hnames : ∀ key ∈ signers signer witnesses externalWitnesses, Solid key.1)
    (hid : signer.keyId =
      computeKeyIdWithAlg SK signer.name (NoteCrypto.verifyingKey signer.signingKey) algEd25519)
    (hids : DistinctIds SK (signers signer witnesses externalWitnesses))
    {t : List (Σ o : PublishOp H, o.Answer H)}
    (ht : (publishCheckpoint signer witnesses externalWitnesses witnessQuorum origin).Trace t)
    (hdb : ∀ state, ⟨.store .getLogState, .ok state⟩ ∈ t →
      ∃ db : Database H, state = db.getLogState)
    {path : Api.Path} {data : Bytes} (hwrite : (path, data) ∈ writes t) :
    ∃ (state : LogState H) (root : H) (text : Str) (cosigned : CosignedCheckpoint H),
      t.head? = some ⟨.store .getLogState, .ok state⟩ ∧ headRoot state = some root ∧
      path = Api.checkpointPath ∧ data = utf8 text ∧
      CosignedCheckpoint.fromText text = .ok cosigned ∧
      cosigned.checkpoint = ⟨origin, state.integratedSize, root⟩ ∧
      logSignature signer cosigned.checkpoint ∈ cosigned.signatures ∧
      Quorate SK externalWitnesses (witnessQuorum.getD externalWitnesses.length) cosigned := by
  rw [publishCheckpoint_eq] at ht
  cases ht with
  | nil => cases hwrite
  | cons _ _ r t ht =>
    rcases r with e | state
    · cases ht
      cases hwrite
    · obtain ⟨db, rfl⟩ := hdb state List.mem_cons_self
      change Prog.Trace ((headRoot db.getLogState).elim (.pure ())
        (publishHead signer witnesses externalWitnesses witnessQuorum origin
          db.getLogState.integratedSize)) t at ht
      cases hroot : headRoot db.getLogState with
      | none =>
        rw [hroot] at ht
        cases ht
        cases hwrite
      | some root =>
        rw [hroot] at ht
        have hcalls :=
          publishHead_calls hid hids witnessQuorum origin db.getLogState.integratedSize root
        obtain ⟨hpath, cosigned, rfl, htally, hquorate⟩ := writes_of_calls ht hcalls hwrite
        have hprintable : cosigned.Printable := by
          refine ⟨?_, ?_, ?_, ?_⟩
          · rw [htally.checkpoint]
            exact horigin
          · intro sig hsig
            obtain ⟨key, hkey, hname⟩ := (htally.source sig hsig).name_mem
            rw [hname]
            exact hnames key hkey
          · rw [htally.checkpoint]
            exact Storage.asU64_lt _
          · exact List.ne_nil_of_mem htally.log
        refine ⟨db.getLogState, root, cosigned.toText, cosigned, rfl, hroot, hpath, rfl,
          hprintable.fromText_toText, htally.checkpoint, ?_, hquorate⟩
        rw [htally.checkpoint]
        exact htally.log

end

/-! ### One witness -/

/-- Two keys whose key ids for the name `w` are equal. -/
inductive TwinKey where
  | first
  | second
  deriving DecidableEq

namespace TwinKey

open Note (StartKey)

def bytes : TwinKey → Bytes32
  | .first =>
    ⟨[80, 192, 24, 60, 169, 91, 3, 120, 154, 147, 135, 224, 125, 168, 96, 91, 45, 7, 183, 162, 91,
      174, 158, 86, 222, 31, 29, 14, 214, 227, 16, 129], rfl⟩
  | .second =>
    ⟨[226, 61, 13, 121, 187, 255, 40, 163, 32, 87, 32, 41, 46, 82, 154, 122, 112, 93, 234, 94, 17,
      106, 251, 142, 104, 182, 156, 24, 134, 179, 236, 59], rfl⟩

/-- The SHA-256 digest of what the key id of a cosignature is made of. -/
def digest : TwinKey → Bytes32
  | .first =>
    ⟨[77, 175, 76, 247, 134, 25, 177, 9, 229, 76, 163, 167, 20, 112, 169, 3, 167, 151, 57, 156, 98,
      106, 210, 255, 77, 2, 35, 133, 130, 70, 122, 29], rfl⟩
  | .second =>
    ⟨[77, 175, 76, 247, 61, 82, 142, 98, 109, 28, 31, 153, 99, 41, 241, 148, 85, 10, 172, 218, 162,
      181, 75, 58, 128, 112, 212, 186, 250, 196, 31, 1], rfl⟩

/-- The second key signs as the first one does, but for the digits two and three. -/
def turn : TwinKey → UInt8 → UInt8
  | .first, b => b
  | .second, b => if b = 50 then 51 else if b = 51 then 50 else b

instance : NoteCrypto TwinKey TwinKey where
  verifyingKey k := k
  keyBytes := bytes
  sign k m := StartKey.start 64 (m.map k.turn)
  verifyStrict k m signature :=
    if signature = StartKey.start 64 (m.map k.turn) then .ok () else .error "signature error"
  sha256 b :=
    if b = 119 :: 10 :: 4 :: bytes .first then digest .first
    else if b = 119 :: 10 :: 4 :: bytes .second then digest .second
    else StartKey.start 32 b

instance : LawfulNoteCrypto TwinKey TwinKey := ⟨fun _ _ => if_pos rfl⟩

end TwinKey

section

attribute [local instance] Text.Base64.plainErrors Witness.plainTexts

namespace Twin

/-- A log and its empty tree. -/
def log : CheckpointSigner TwinKey :=
  ⟨"log".toList, .first, computeKeyIdWithAlg TwinKey "log".toList TwinKey.first algEd25519⟩

def origin : Origin := Note.logOrigin

def checkpoint : Checkpoint StartHash := ⟨origin, 0, emptyRootHash⟩

/-- A witness of the log. -/
def witness (key : TwinKey) : CheckpointSigner TwinKey := ⟨"w".toList, key, ⟨[0, 0, 0, 0], rfl⟩⟩

/-- The same witness as an external one. -/
def external (key : TwinKey) : ExternalWitness TwinKey :=
  ⟨"w".toList, "http://w".toList, ⟨[], none, key, ⟨[0, 0, 0, 0], rfl⟩, "w".toList⟩, rfl⟩

/-- An empty database, and a response with the cosignature of the external witness at the time
three. -/
def answer (key : TwinKey) : (o : PublishOp StartHash) → o.Answer StartHash
  | .store o => match o with
    | .getLogState => .ok (Database.empty : Database StartHash).getLogState
    | .readObject _ => .ok none
    | .writeObject _ _ => .ok ()
    | .getPendingEntries _ _ => .ok []
    | .markIntegratedIfCurrent _ _ _ => .ok false
    | .indexEntry _ _ => .ok ()
    | .flushIndex => .ok ()
    | .maybeSnapshot => .ok ()
  | .now => .ok 2
  | .getSize _ => (0 : ℕ)
  | .setSize _ _ => ()
  | .getLastPublished => (⟨0, none⟩ : LastPublished StartHash)
  | .setLastPublished _ => ()
  | .post _ _ => .ok ⟨200, utf8 ((witness key).cosignV1 checkpoint 3).toLine⟩

end Twin

/-- An in-process witness and an external one have the name `w` and keys of one key id. The
external one is counted, and its key accepts no signature in the text that is published. -/
theorem twin_not_quorate :
    trimStart Twin.origin.str = Twin.origin.str ∧
    (∀ key ∈ signers Twin.log [Twin.witness .first] [Twin.external .second], Solid key.1) ∧
    ∃ (t : List (Σ o : PublishOp StartHash, o.Answer StartHash)) (text : Str)
      (cosigned : CosignedCheckpoint StartHash),
      (publishCheckpoint Twin.log [Twin.witness .first] [Twin.external .second] none
        Twin.origin).Trace t ∧
      (Api.checkpointPath, utf8 text) ∈ writes t ∧ CosignedCheckpoint.fromText text = .ok cosigned ∧
      ¬ Quorate TwinKey [Twin.external .second] 1 cosigned := by
  let cosigned : CosignedCheckpoint StartHash :=
    ⟨Twin.checkpoint,
      [logSignature Twin.log Twin.checkpoint, (Twin.witness .first).cosignV1 Twin.checkpoint 2]⟩
  refine ⟨by decide, by
      decide, _, cosigned.toText, cosigned, Prog.trace_trace (Twin.answer .second) _, ?_, ?_, ?_⟩
  · decide +kernel
  · apply CosignedCheckpoint.Printable.fromText_toText
    exact ⟨by decide, by decide, by decide, by decide⟩
  · rintro ⟨counted, hcounted, -, -, hcount⟩
    obtain ⟨w, hw⟩ := List.exists_mem_of_length_pos hcount
    obtain ⟨hext, sig, hsig, hok⟩ := hcounted w hw
    obtain rfl := List.mem_singleton.mp hext
    have hnone : ∀ sig ∈ cosigned.signatures,
        ((Twin.external .second).key.verifyCosignature TwinKey sig Twin.checkpoint.toBody).isOk =
          false := by decide +kernel
    have := hnone sig hsig
    rw [show cosigned.checkpoint = Twin.checkpoint from rfl] at hok
    rw [hok] at this
    cases this

/-- With no in-process witness of its name, what is counted is there. -/
theorem publishCheckpoint_quorum_single :
    ∃ (t : List (Σ o : PublishOp StartHash, o.Answer StartHash))
    (path : Api.Path) (data : Bytes), (path, data) ∈ writes t ∧
    ∃ (state : LogState StartHash) (root : StartHash) (text : Str)
      (cosigned : CosignedCheckpoint StartHash),
      t.head? = some ⟨.store .getLogState, .ok state⟩ ∧ headRoot state = some root ∧
      path = Api.checkpointPath ∧ data = utf8 text ∧
      CosignedCheckpoint.fromText text = .ok cosigned ∧
      cosigned.checkpoint = ⟨Twin.origin, state.integratedSize, root⟩ ∧
      logSignature Twin.log cosigned.checkpoint ∈ cosigned.signatures ∧
      Quorate TwinKey [Twin.external .second] 1 cosigned := by
  let cosigned : CosignedCheckpoint StartHash :=
    ⟨Twin.checkpoint,
      [logSignature Twin.log Twin.checkpoint, (Twin.witness .second).cosignV1 Twin.checkpoint 3]⟩
  have hwrite : (Api.checkpointPath, utf8 cosigned.toText) ∈
      writes ((publishCheckpoint Twin.log [] [Twin.external .second] none Twin.origin).trace
        (Twin.answer .second)) := by
    decide +kernel
  have hids : DistinctIds TwinKey (signers Twin.log [] [Twin.external .second]) := by
    unfold DistinctIds
    decide +kernel
  refine ⟨_, _, _, hwrite, publishCheckpoint_quorum Twin.log [] [Twin.external .second] none
    Twin.origin (by decide) (by decide) rfl hids
    (Prog.trace_trace (Twin.answer .second) _) ?_ hwrite⟩
  intro state hstate
  have heq := Prog.mem_trace _ hstate
  exact ⟨Database.empty, Except.ok.inj (eq_of_heq (Sigma.mk.inj heq).2)⟩

end

end Siglog.Worker

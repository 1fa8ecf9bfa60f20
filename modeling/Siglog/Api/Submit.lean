import Siglog.Witness.Handled
import Siglog.Worker.LogRuns

/-! The wait of a submission for its inclusion. It looks at the published checkpoint
until that covers the index of the entry, and then proves and checks the inclusion. -/

namespace Siglog.Api

open Concurrent (Prog)
open Concurrent.Prog (returns_bind_ok returns_translate returns_mono)
open Merkle (HashTile InclusionVerifier LawfulInclusionVerifier ReadTile TileAnswers
  generateInclusionProof)
open Note (NoteCrypto LawfulNoteCrypto CheckpointSigner CosignedCheckpoint Origin)
open Rfc (mth VerifyInclusion)
open Storage (Op Server perform TileStorage.reader)
open Text (Str utf8 fromUtf8 fromUtf8_utf8)
open Text.Base64 (DecodeErrors)
open Witness (HttpTexts SignedHead)
open Worker (LogPool logSys)

/-- The proof in the answer to a submission, before its numbers and hashes are written as texts. -/
structure InclusionProof (H : Type) where
  logIndex : ℕ
  treeSize : ℕ
  rootHash : H
  hashes : List H
  envelope : Str

/-- The answer to a submission. -/
structure Submitted (H : Type) where
  logIndex : ℕ
  keyId : Bytes32
  canonicalizedBody : Bytes
  inclusionProof : InclusionProof H

section

variable {SK VK H : Type} [NoteCrypto SK VK]

/-- Full (untruncated) note key ID. -/
def logId (signer : CheckpointSigner SK) : Bytes32 :=
  NoteCrypto.sha256 SK (utf8 signer.name ++ 10 :: 1 ::
    (NoteCrypto.keyBytes SK (NoteCrypto.verifyingKey signer.signingKey)).val)

section

variable [Sha256Hash H]

/-- Some signature on the checkpoint is that of the log. -/
def signedBy (signer : CheckpointSigner SK) (signed : CosignedCheckpoint H) : Bool :=
  signed.signatures.any fun sig => sig.name = signer.name ∧ sig.keyId = signer.keyId ∧
    (NoteCrypto.verifyStrict SK (NoteCrypto.verifyingKey signer.signingKey)
      (utf8 signed.checkpoint.toBody)
      sig.signature).isOk

variable [DecodeErrors] [HttpTexts] [InclusionVerifier H]

/-- The proof for an entry that a checkpoint covers. -/
def proveInclusion (signer : CheckpointSigner SK) (canonical : Bytes) (leaf : H) (index : ℕ)
    (envelope : Str) (signed : CosignedCheckpoint H) : Server H (Submitted H) :=
  let cp := signed.checkpoint
  -- Never combine the latest root of the database with an older published checkpoint.
  if ¬ signedBy signer signed then .fail (.err (.internal "invalid published checkpoint signature"))
  else do
    let hashes ← (generateInclusionProof index cp.size).translate TileStorage.reader
    match InclusionVerifier.verifyInclusionProof leaf index cp.size hashes cp.rootHash with
    | .error e => .fail (.err (.merkle e))
    | .ok () =>
      .pure ⟨index, logId signer, canonical, ⟨index, cp.size, cp.rootHash, hashes, envelope⟩⟩

/-- One look at the published checkpoint. -/
def pollCheckpoint (signer : CheckpointSigner SK) (canonical : Bytes) (leaf : H) (index : ℕ) :
    Server H (Option (Submitted H)) := do
  match ← perform (.readObject checkpointPath) with
  | none => .pure none
  | some data =>
    match fromUtf8 data with
    | none => .fail (.err (.invalidEntry (HttpTexts.utf8Error data)))
    | some envelope => do
      let signed ← Prog.ofExcept ((CosignedCheckpoint.fromText envelope).mapError Fault.err)
      if index < signed.checkpoint.size then do
        let submitted ← proveInclusion signer canonical leaf index envelope signed
        .pure (some submitted)
      else .pure none

end

/-! ### Reads while the log moves -/

section

variable [Sha256Hash H] [DecidableEq H] [LawfulSha256Hash H] {p : LogPool H} {D : List H}

/-- The checkpoint is read now, and everything else from a state that comes later. -/
def ReadsAfter (p : LogPool H) : (o : Op H) → o.Answer H → Prop
  | .readObject path, r => (path = checkpointPath ∧ r = .ok (p.shared.objects path)) ∨
      (path ≠ checkpointPath ∧ ∃ q, Relation.ReflTransGen logSys.Step p q ∧
        r = .ok (q.shared.objects path))
  | _, _ => True

/-- The tiles of an integrated size are read right however far the log has moved. -/
theorem reader_returns (h : Worker.Reachable p) (hmem : D.length ∈ p.shared.sizes)
    (hD : D <+: p.shared.leaves) (hn : D.length ≤ i64Max) (o : ReadTile) :
    (TileStorage.reader o : Server H _).Returns (ReadsAfter p)
      (fun x => ∃ r, x = .ok r ∧ TileAnswers D o r) := by
  obtain ⟨level, index, part⟩ := o
  intro r hr
  obtain ⟨hpath, -⟩ | ⟨-, q, hpq, rfl⟩ := hr
  · exact absurd hpath.symm (checkpointPath_ne_tilePath level index part)
  have hle := Worker.run_le h hpq
  have hinv := Worker.reachable_inv (Relation.ReflTransGen.trans h hpq)
  have hanswer := hinv.tileAnswers (hle.sizes _ hmem) (hD.trans (hle.log.map _)) hn level index part
  cases hobj : q.shared.objects (tilePath level index part) with
  | none => exact ⟨none, rfl, hanswer.1 hobj⟩
  | some data =>
    obtain ⟨tile, htile, -⟩ := hinv.tile level index part data hobj
    change (Prog.bind (Prog.ofExcept (HashTile.fromBytes data)) _).Returns _ _
    rw [htile]
    exact ⟨some tile, rfl, hanswer.2 data tile hobj htile⟩

variable [DecodeErrors] [HttpTexts] [LawfulNoteCrypto SK VK]

omit [LawfulSha256Hash H] [DecidableEq H] [DecodeErrors] [HttpTexts] in
theorem signedBy_of_signedHead {signer : CheckpointSigner SK} {origin : Origin}
    {signed : CosignedCheckpoint H}
    (h : SignedHead signer origin D signed) : signedBy signer signed = true := by
  obtain ⟨signature, hmem, hnew⟩ := h.signed
  obtain rfl := List.mem_singleton.mp hnew
  refine List.any_eq_true.mpr ⟨_, hmem, ?_⟩
  rw [LawfulNoteCrypto.verify_sign]
  simp [Except.isOk, Except.toBool]

variable [InclusionVerifier H] [LawfulInclusionVerifier H]

/-- Once the published checkpoint covers the entry, the submission is answered with its audit
path. -/
theorem pollCheckpoint_returns (h : Worker.Reachable p) {n : ℕ} (hn : n ∈ p.shared.sizes)
    {signer : CheckpointSigner SK} {origin : Origin} {signed : CosignedCheckpoint H}
    (hsigned : SignedHead signer origin (p.shared.leaves.take n) signed)
    (hobj : p.shared.objects checkpointPath = some (utf8 signed.toText)) {index : ℕ}
    {entry : Entry H}
    (hentry : p.shared.log[index]? = some entry) (hi : index < n) (canonical : Bytes) :
    (pollCheckpoint signer canonical entry.leafHash index).Returns (ReadsAfter p)
      (· = .ok (some ⟨index, logId signer, canonical, ⟨index, n, mth (p.shared.leaves.take n),
        Rfc.path index (p.shared.leaves.take n), signed.toText⟩⟩)) := by
  have hinv := Worker.reachable_inv h
  have hlen : (p.shared.leaves.take n).length = n := by
    rw [Worker.LogSystem.leaves, List.length_take, List.length_map]
    exact Nat.min_eq_left (hinv.sizes_le n hn)
  have hbound : (p.shared.leaves.take n).length ≤ i64Max := by
    have := hinv.length_log_le
    have := hinv.sizes_le n hn
    omega
  have hleaf : (p.shared.leaves.take n)[index]? = some entry.leafHash := by
    rw [List.getElem?_take_of_lt hi, Worker.LogSystem.leaves, List.getElem?_map, hentry]
    rfl
  have hhead := hsigned.head
  rw [hlen] at hhead
  -- the proof is generated from tiles that are right for the size of the checkpoint
  have hproof :=
    returns_translate (E := fun _ => False) (B := ReadsAfter p) (f := TileStorage.reader)
    (fun o => returns_mono (fun _ hx => .inl hx)
      (reader_returns h (by rwa [hlen]) (List.take_prefix n _) hbound o))
    (fun _ he => he.elim)
      (Merkle.generateInclusionProof_returns (D := p.shared.leaves.take n) (by rwa [hlen]) hbound)
  rw [hlen] at hproof
  have hverify :=
    (LawfulInclusionVerifier.verify_iff _ _ _ _ _).mpr (Rfc.verifyInclusion_path hleaf)
  rw [hlen] at hverify
  refine returns_bind_ok (P := (· = some (utf8 signed.toText))) ?_ ?_
  · rintro r (⟨-, rfl⟩ | ⟨hne, -⟩)
    · exact ⟨_, congrArg Except.ok hobj, rfl⟩
    · exact absurd rfl hne
  rintro _ rfl
  dsimp only
  rw [fromUtf8_utf8]
  dsimp only
  rw [hsigned.plain.printable.fromText_toText]
  change (if index < signed.checkpoint.size then _ else _ : Server H _).Returns _ _
  rw [hhead, if_pos hi]
  refine returns_bind_ok (P := (· = _)) (returns_mono (fun x hx => ⟨_, hx, rfl⟩) ?_)
    (by rintro _ rfl; exact rfl)
  rw [proveInclusion, signedBy_of_signedHead hsigned, hhead]
  refine returns_bind_ok (P := (· = _)) (returns_mono (fun x hx => ⟨_, hx, rfl⟩) hproof) ?_
  rintro _ rfl
  dsimp only
  rw [hverify]
  exact rfl

/-- Over a store that is right for the size, generation gives the audit path of every leaf
and fails outside the tree. A submission is answered with the path of its entry once the
published checkpoint of an integrated size covers it. -/
theorem generateInclusionProof_exact :
    (∀ D : List H, D.length ≤ i64Max →
      ∀ store : (o : ReadTile) → o.Answer H, (∀ o, TileAnswers D o (store o)) →
      ∀ index,
        (∀ x, D[index]? = some x →
          (generateInclusionProof index D.length).eval store = .ok (Rfc.path index D) ∧
          VerifyInclusion x index D.length (Rfc.path index D) (mth D)) ∧
        (D.length ≤ index →
          ∃ e, (generateInclusionProof index D.length).eval store = .error (.err e))) ∧
    ∀ p : LogPool H, Worker.Reachable p →
      ∀ n ∈ p.shared.sizes, ∀ (signer : CheckpointSigner SK) (origin : Origin)
      (signed : CosignedCheckpoint H), SignedHead signer origin (p.shared.leaves.take n) signed →
      p.shared.objects checkpointPath = some (utf8 signed.toText) →
      ∀ (index : ℕ) (entry : Entry H), p.shared.log[index]? = some entry → index < n → ∀ canonical,
        (pollCheckpoint signer canonical entry.leafHash index).Returns (ReadsAfter p)
          (· = .ok (some ⟨index, logId signer, canonical, ⟨index, n, mth (p.shared.leaves.take n),
            Rfc.path index (p.shared.leaves.take n), signed.toText⟩⟩)) := by
  refine ⟨fun D hn store hstore index => ⟨fun x hx => ?_, fun hle => ?_⟩, ?_⟩
  · have hi := (List.getElem?_eq_some_iff.mp hx).1
    exact ⟨Prog.returns_eval hstore (Merkle.generateInclusionProof_returns hi hn),
      Rfc.verifyInclusion_path hx⟩
  · rw [generateInclusionProof, if_pos hle]
    exact ⟨_, rfl⟩
  · intro p h n hn signer origin signed hsigned hobj index entry hentry hi canonical
    exact pollCheckpoint_returns h hn hsigned hobj hentry hi canonical

end

end

/-! ### The third of three entries -/

section

open Note (startSigner)
open Worker (LogSystem cycled threePending twoCycles twoCycles_size)

attribute [local instance] Text.Base64.plainErrors Witness.plainTexts Merkle.rootVerifier
  Merkle.rootVerifier_lawful

theorem generateInclusionProof_exact_three :
    ∃ (p : LogPool StartHash) (signed : CosignedCheckpoint StartHash),
    Worker.Reachable p ∧ p.shared.size = 3 ∧
      (pollCheckpoint startSigner [3] (hashLeaf [3]) 2).Returns (ReadsAfter p)
        (· = .ok (some ⟨2, logId startSigner, [3], ⟨2, 3, mth (p.shared.leaves.take 3),
          Rfc.path 2 (p.shared.leaves.take 3), signed.toText⟩⟩)) := by
  obtain ⟨ts, h⟩ := twoCycles
  have hsize := twoCycles_size
  have hentry : (cycled 10 (cycled 2 threePending)).log[2]? = some (Entry.new [3]) := by
    decide +kernel
  generalize cycled 10 (cycled 2 threePending) = s at h hsize hentry
  have hinv := Worker.reachable_inv h
  have hlen : (s.leaves.take 3).length = 3 := by rw [← hsize]; exact hinv.length_tree
  have hsigned :=
    SignedHead.new startSigner Note.logOrigin (by decide) (by decide) (D := s.leaves.take 3)
    (hlen.trans_le (by decide))
  have hp := h.tail
    (.env (.publish s (utf8 (CosignedCheckpoint.new ⟨Note.logOrigin, (s.leaves.take 3).length,
    mth (s.leaves.take 3)⟩ startSigner).toText)))
  have hmem : 3 ∈ s.sizes := hsize ▸ hinv.size_mem
  have hreturns :=
    (generateInclusionProof_exact (H := StartHash)).2 _ hp 3 hmem startSigner Note.logOrigin _
    hsigned (s.put_objects_self _ _) 2 (Entry.new [3]) hentry (by decide) [3]
  exact ⟨_, _, hp, hsize, hreturns⟩

end

end Siglog.Api

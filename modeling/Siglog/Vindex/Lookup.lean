import Siglog.Vindex.Canonical

/-! A lookup in a canonical tree finds the keys of its entries. The siblings it returns
fold, from the leaf up, to the root hash. -/

namespace Siglog.Vindex

variable [Sha256]

/-- One step up a proof, as a client takes it: the sibling's label without its last bit is
the parent's prefix, and that bit says on which side the sibling is. -/
def foldNode (n : ProofNode) (below : Bytes32) : Bytes32 :=
  let bitLen := n.labelBitLen - 1
  let pre := prefixBytes n.labelPath bitLen
  if bitAt n.labelPath bitLen then digest (internalMessage bitLen pre below n.hash)
  else digest (internalMessage bitLen pre n.hash below)

/-- Fold a leaf hash with a proof, which lists the siblings from the root down. -/
def foldProof (leafHash : Bytes32) (proof : List ProofNode) : Bytes32 :=
  proof.foldr foldNode leafHash

/-- The hash of a leaf. -/
def leafHash (key valueHash : Bytes32) : Bytes32 := digest (leafMessage key.val valueHash)

theorem foldNode_proofNode (pre : Label) (bit : UInt8) (sibling : Node) (below : Bytes32) :
    foldNode (Node.proofNode (pre.appendBit bit) sibling) below =
      if bit = 1 then digest (internalMessage pre.bitLen pre.bytes below sibling.hash)
      else digest (internalMessage pre.bitLen pre.bytes sibling.hash below) := by
  have hle := pre.bitLen_le
  have hlen := pre.length_bytes
  have hgrown : (pre.appendBit bit).bytes.length = (pre.bitLen + 8) / 8 :=
    pre.length_appendBytes bit
  have hbit : ∀ i, bitAt (pre.appendBit bit).bytes i =
      (decide (i = pre.bitLen ∧ bit = 1) || bitAt pre.bytes i) :=
    pre.bitAt_appendBytes bit
  have hpre : prefixBytes (pre.appendBit bit).bytes pre.bitLen = pre.bytes := by
    apply bytes_ext
    · rw [length_prefixBytes (by omega), hlen]
    · intro i
      rw [bitAt_prefixBytes (by omega), hbit]
      by_cases hi : i < pre.bitLen
      · rw [decide_eq_true hi, decide_eq_false (by omega), Bool.true_and, Bool.false_or]
      · rw [decide_eq_false hi, Bool.false_and, pre.spare i (by omega)]
  simp only [foldNode, Node.proofNode, Label.appendBit_bitLen, Nat.add_sub_cancel, hpre, hbit,
    pre.spare _ le_rfl]
  simp

namespace Node

/-- What a lookup returns when `proof` are the siblings above the node. -/
structure Found (key : Label) (t : Node) (proof : List ProofNode) (result : Bool × List ProofNode) :
    Prop where
  found : result.1 = true ↔ ∃ v, (key, v) ∈ t.entries
  folds : ∃ siblings, result.2 = proof ++ siblings ∧
    ∀ v, (key, v) ∈ t.entries → foldProof (digest (leafMessage key.bytes v)) siblings = t.hash

/-- Looking up a key does not panic. -/
theorem lookupRec_found {t : Node} (ht : t.Canonical) {key : Label} (hkey : key.bitLen = 256)
    (proof : List ProofNode) :
    ∃ result, lookupRec key t proof = .ok result ∧ Found key t proof result := by
  induction ht generalizing proof with
  | empty => exact ⟨_, rfl, by simp [entries], [], by simp [entries]⟩
  | leaf full =>
    rename_i leafKey valueHash
    refine ⟨_, rfl, ?_, [], by simp, ?_⟩
    · simp [entries]
    · intro v hv
      obtain ⟨rfl, rfl⟩ := Prod.mk.inj (List.mem_singleton.mp hv)
      rfl
  | internal hl hr leftNe rightNe below above cached ihl ihr =>
    rename_i pre left right hash
    have hself := Canonical.internal hl hr leftNe rightNe below above cached
    have hpre := hself.bitLen_lt
    cases hpath : pre.isPrefixOf key with
    | false =>
      have habsent : ∀ v, (key, v) ∉ (Node.internal pre left right hash).entries := by
        intro v hv
        have hprefix : pre.isPrefixOf key = true :=
          Label.isPrefixOf_iff.mpr ⟨by omega, hself.agree hv⟩
        rw [hpath] at hprefix
        cases hprefix
      refine ⟨(false, proof), ?_, ?_, [], by simp, fun v hv => absurd hv (habsent v)⟩
      · rw [lookupRec, if_pos hpath]
      · simp [habsent]
    | true =>
      have hbit := @Label.bit_ok key pre.bitLen (by omega)
      cases hb : bitAt key.bytes pre.bitLen with
      | false =>
        rw [hb, if_neg (by simp)] at hbit
        obtain ⟨result, hrec, hfound, siblings, hsib, hfold⟩ :=
          ihl (proof ++ [proofNode (pre.appendBit 1) right])
        have hin : ∀ v, (key, v) ∈ left.entries ↔
            (key, v) ∈ (Node.internal pre left right hash).entries :=
          fun v => hself.mem_left.trans (and_iff_left hb)
        refine ⟨result, ?_, ?_, proofNode (pre.appendBit 1) right :: siblings, by simp [hsib], ?_⟩
        · rw [lookupRec, if_neg (by simp [hpath]), hbit, isEmpty_eq_false rightNe]
          exact hrec
        · exact hfound.trans (exists_congr hin)
        · intro v hv
          rw [foldProof, List.foldr_cons, ← foldProof, hfold v ((hin v).mpr hv), foldNode_proofNode,
            if_pos rfl]
          exact cached.symm
      | true =>
        rw [hb, if_pos rfl] at hbit
        obtain ⟨result, hrec, hfound, siblings, hsib, hfold⟩ :=
          ihr (proof ++ [proofNode (pre.appendBit 0) left])
        have hin : ∀ v, (key, v) ∈ right.entries ↔
            (key, v) ∈ (Node.internal pre left right hash).entries :=
          fun v => hself.mem_right.trans (and_iff_left hb)
        refine ⟨result, ?_, ?_, proofNode (pre.appendBit 0) left :: siblings, by simp [hsib], ?_⟩
        · rw [lookupRec, if_neg (by simp [hpath]), hbit, isEmpty_eq_false leftNe]
          exact hrec
        · exact hfound.trans (exists_congr hin)
        · intro v hv
          rw [foldProof, List.foldr_cons, ← foldProof, hfold v ((hin v).mpr hv), foldNode_proofNode,
            if_neg (by decide)]
          exact cached.symm

end Node

end Siglog.Vindex

import Siglog.Vindex.Commitment

/-! The path of a key. A lookup walks down to the node where the search for the key ends
and collects the siblings of the path. With the bits of the key they fold the hash of that
node to the root hash. A proof for a key in the tree binds its value, since the search ends
at its leaf. A proof for any other key does not say at which node the search ends. -/

namespace Siglog.Vindex

section

variable [Sha256]

/-- The message hashed one step up a path: the first bits of the key are the parent's
prefix, and the next bit says on which side the path is. -/
def joinMessage (key : Label) (n : ProofNode) (below : Bytes32) : Bytes :=
  let bitLen := n.labelBitLen - 1
  let pre := key.prefixTo bitLen
  if bitAt key.bytes bitLen then internalMessage bitLen pre.bytes n.hash below
  else internalMessage bitLen pre.bytes below n.hash

/-- Fold a hash with a proof, from its last element to its first. -/
def foldPath (key : Label) (below : Bytes32) (proof : List ProofNode) : Bytes32 :=
  proof.foldr (fun n below => digest (joinMessage key n below)) below

/-- The messages hashed by a fold that starts with the hash of `start`. -/
def pathMessages (key : Label) (start : Bytes) : List ProofNode → List Bytes
  | [] => [start]
  | n :: proof =>
    joinMessage key n (foldPath key (digest start) proof) :: pathMessages key start proof

/-- The label of a proof element is the first bits of the key, then the next bit flipped. -/
def Beside (key : Label) (n : ProofNode) : Prop :=
  ∃ l < key.bitLen, n.labelBitLen = l + 1 ∧
    n.labelPath = ((key.prefixTo l).appendBit (if bitAt key.bytes l then 0 else 1)).bytes

omit [Sha256] in
theorem joinMessage_injective {key : Label} {n : ProofNode} {a b : Bytes32}
    (h : joinMessage key n a = joinMessage key n b) :
    a = b := by
  simp only [joinMessage, internalMessage] at h
  split_ifs at h
  · simpa [Subtype.ext_iff] using h
  · have hlen : a.val.length = b.val.length := a.property.trans b.property.symm
    simp only [List.cons.injEq, true_and, List.append_cancel_left_eq] at h
    exact Subtype.ext (List.append_inj_left h hlen)

/-- Under one proof, different messages at the start end in different hashes. -/
theorem foldPath_injective {key : Label} {proof : List ProofNode} {m m' : Bytes}
    (hinj : ∀ a ∈ pathMessages key m proof, ∀ b ∈ pathMessages key m' proof, digest a = digest b →
      a = b)
    (h : foldPath key (digest m) proof = foldPath key (digest m') proof) : m = m' := by
  induction proof with
  | nil => exact hinj m (by simp [pathMessages]) m' (by simp [pathMessages]) h
  | cons n proof ih =>
    have hjoin := hinj _ List.mem_cons_self _ List.mem_cons_self h
    apply ih
    · exact fun a ha b hb => hinj a (List.mem_cons_of_mem _ ha) b (List.mem_cons_of_mem _ hb)
    · exact joinMessage_injective hjoin

namespace Node

/-- The node where the search for a key ends. -/
def stop (key : Label) : Node → Node
  | .empty => .empty
  | .leaf leafKey valueHash => .leaf leafKey valueHash
  | .internal pre left right hash =>
    if pre.isPrefixOf key = false then .internal pre left right hash
    else if bitAt key.bytes pre.bitLen then right.stop key
    else left.stop key

/-- The search has found the key. -/
def holdsKey (key : Label) : Node → Bool
  | .leaf leafKey _ => decide (key = leafKey)
  | _ => false

omit [Sha256] in
theorem prefixTo_eq {pre key : Label} (hle : pre.bitLen ≤ key.bitLen)
    (hagree : pre.Agree pre.bitLen key) :
    key.prefixTo pre.bitLen = pre := by
  apply Label.ext_bits (Label.prefixTo_bitLen hle)
  rw [Label.prefixTo_bitLen hle]
  exact fun i hi => (Label.bitAt_prefixTo hi).trans (hagree i hi).symm

/-- The hash of a parent is one step up the path. -/
theorem join_hash {pre key : Label} (left right : Node) (hle : pre.bitLen ≤ key.bitLen)
    (hagree : pre.Agree pre.bitLen key) : computeInternalHash pre left right =
      if bitAt key.bytes pre.bitLen then
        digest (joinMessage key (proofNode (pre.appendBit 0) left) right.hash)
      else digest (joinMessage key (proofNode (pre.appendBit 1) right) left.hash) := by
  simp only [joinMessage, proofNode, Label.appendBit_bitLen, Nat.add_sub_cancel,
    prefixTo_eq hle hagree, computeInternalHash]
  split_ifs <;> rfl

theorem beside_proofNode {pre key : Label} (hlt : pre.bitLen < key.bitLen)
    (hagree : pre.Agree pre.bitLen key) (sibling : Node) : Beside key
    (proofNode (pre.appendBit (if bitAt key.bytes pre.bitLen then 0 else 1)) sibling) := by
  refine ⟨pre.bitLen, hlt, rfl, ?_⟩
  rw [prefixTo_eq hlt.le hagree, proofNode]

/-- What a lookup does. -/
structure Walk (key : Label) (t : Node) (siblings : List ProofNode) : Prop where
  lookup : ∀ proof, lookupRec key t proof = .ok ((t.stop key).holdsKey key, proof ++ siblings)
  beside : ∀ n ∈ siblings, Beside key n
  folds : foldPath key (t.stop key).hash siblings = t.hash

/-- One step down. -/
theorem Walk.up {key : Label} {t child : Node} {n : ProofNode} {siblings : List ProofNode}
    (h : Walk key child siblings) (hstop : t.stop key = child.stop key)
    (hstep : ∀ proof, lookupRec key t proof = lookupRec key child (proof ++ [n]))
    (hbeside : Beside key n) (hhash : t.hash = digest (joinMessage key n child.hash)) :
    Walk key t (n :: siblings) := by
  constructor
  · intro proof
    rw [hstep, h.lookup, hstop]
    simp
  · rw [List.forall_mem_cons]
    exact ⟨hbeside, h.beside⟩
  · rw [hstop, hhash, foldPath, List.foldr_cons, ← foldPath, h.folds]

theorem exists_walk {t : Node} (ht : t.Canonical) {key : Label} (hkey : key.bitLen = 256) :
    ∃ siblings, Walk key t siblings := by
  induction ht with
  | empty => exact ⟨[], fun proof => by simp [lookupRec, stop, holdsKey], by simp, rfl⟩
  | leaf full => exact ⟨[], fun proof => by simp [lookupRec, stop, holdsKey], by simp, rfl⟩
  | internal hl hr leftNe rightNe below above cached ihl ihr =>
    rename_i pre left right hash
    have hpre := (Canonical.internal hl hr leftNe rightNe below above cached).bitLen_lt
    cases hpath : pre.isPrefixOf key with
    | false =>
      have hstop :
          (Node.internal pre left right hash).stop key = .internal pre left right hash := by
        rw [stop, if_pos hpath]
      refine ⟨[], fun proof => ?_, by simp, congrArg Node.hash hstop⟩
      rw [hstop, lookupRec, if_pos hpath]
      simp [holdsKey]
    | true =>
      have hagree : pre.Agree pre.bitLen key := (Label.isPrefixOf_iff.mp hpath).2
      have hbit := @Label.bit_ok key pre.bitLen (by omega)
      have hjoin := join_hash left right (by omega) hagree
      have hbeside := @beside_proofNode _ pre key (by omega) hagree
      cases hb : bitAt key.bytes pre.bitLen with
      | false =>
        obtain ⟨siblings, hwalk⟩ := ihl
        rw [hb, if_neg (by simp)] at hbit hjoin
        refine ⟨_, hwalk.up (n := proofNode (pre.appendBit 1) right) ?_ (fun proof => ?_) ?_
          (cached.trans hjoin)⟩
        · rw [stop, if_neg (by simp [hpath]), hb, if_neg (by simp)]
        · rw [lookupRec, if_neg (by simp [hpath]), hbit, isEmpty_eq_false rightNe]
          rfl
        · simpa [hb] using hbeside right
      | true =>
        obtain ⟨siblings, hwalk⟩ := ihr
        rw [hb, if_pos rfl] at hbit hjoin
        refine ⟨_, hwalk.up (n := proofNode (pre.appendBit 0) left) ?_ (fun proof => ?_) ?_
          (cached.trans hjoin)⟩
        · rw [stop, if_neg (by simp [hpath]), hb, if_pos rfl]
        · rw [lookupRec, if_neg (by simp [hpath]), hbit, isEmpty_eq_false leftNe]
          rfl
        · simpa [hb] using hbeside left

/-- The search for a key of the tree ends at its leaf. -/
theorem Canonical.stop_eq_leaf {t : Node} (ht : t.Canonical) {key : Label} (hkey : key.bitLen = 256)
    {v : Bytes32} (hv : (key, v) ∈ t.entries) : t.stop key = .leaf key v := by
  induction ht with
  | empty => cases hv
  | leaf full =>
    obtain ⟨rfl, rfl⟩ := Prod.mk.inj (List.mem_singleton.mp hv)
    rfl
  | internal hl hr leftNe rightNe below above cached ihl ihr =>
    rename_i pre left right hash
    have ht := Canonical.internal hl hr leftNe rightNe below above cached
    have hlt := ht.bitLen_lt
    have hagree := ht.agree (e := (key, v)) hv
    have hpath : pre.isPrefixOf key = true := by
      rw [Label.isPrefixOf_iff]
      exact ⟨by omega, hagree⟩
    rw [stop, if_neg (by simp [hpath])]
    split_ifs with hb
    · exact ihr (ht.mem_right.mpr ⟨hv, hb⟩)
    · exact ihl (ht.mem_left.mpr ⟨hv, by simpa using hb⟩)

end Node

/-! ### Proofs for keys in the tree -/

namespace PrefixTree

/-- The proof for a key of the tree folds to the root hash from the leaf with its value,
and from a leaf with another value only if the hash collides on the path. -/
theorem inclusion_binds (ops : List (Bytes32 × Bytes32)) (key v : Bytes32)
    (hv : lastWrites ops key = some v) :
    ∃ t p, new.insertAll ops = .ok t ∧ t.lookup key = .ok p ∧
      p.found = true ∧ (∀ n ∈ p.proof, Beside (Label.fromKey key) n) ∧
      foldPath (Label.fromKey key) (leafHash key v) p.proof = t.rootHash ∧
      ∀ v', (∀ a ∈ pathMessages (Label.fromKey key) (leafMessage key.val v) p.proof,
          ∀ b ∈ pathMessages (Label.fromKey key) (leafMessage key.val v') p.proof, digest a =
            digest b → a = b) →
        foldPath (Label.fromKey key) (leafHash key v') p.proof = t.rootHash → v' = v := by
  obtain ⟨t, hrun, h⟩ : ∃ t, new.insertAll ops = .ok t ∧ t.Holds (lastWrites ops) :=
    holds_new.insertAll ops
  obtain ⟨siblings, hwalk⟩ := Node.exists_walk h.canonical (Label.bitLen_fromKey key)
  have hstop := h.canonical.stop_eq_leaf (Label.bitLen_fromKey key) ((h.mem key v).mpr hv)
  have hfold : foldPath (Label.fromKey key) (leafHash key v) siblings = t.rootHash := by
    have := hwalk.folds
    rwa [hstop] at this
  refine ⟨t, ⟨_, siblings⟩, hrun, by
      rw [lookup, hwalk.lookup]; rfl, ?_, hwalk.beside, hfold, fun v' hinj hroot => ?_⟩
  · simp [hstop, Node.holdsKey]
  · exact (leafMessage_injective rfl (foldPath_injective hinj (hfold.trans hroot.symm))).2.symm

/-! ### Proofs for other keys -/

theorem Holds.lookup_absent {t : PrefixTree} {m : Bytes32 → Option Bytes32} (h : t.Holds m)
    {key : Bytes32} (habsent : m key = none) {siblings : List ProofNode}
    (hwalk : Node.Walk (Label.fromKey key) t.root siblings) :
    t.lookup key = .ok ⟨false, siblings⟩ := by
  obtain ⟨p, hp, hfound, -⟩ := h.lookup key
  have hwalked : t.lookup key =
      .ok ⟨(t.root.stop (Label.fromKey key)).holdsKey (Label.fromKey key), siblings⟩ := by
    rw [PrefixTree.lookup, hwalk.lookup]
    rfl
  obtain rfl := Except.ok.inj (hp.symm.trans hwalked)
  rw [habsent, Option.isSome_none, Bool.false_eq_true, iff_false, Bool.not_eq_true] at hfound
  dsimp only at hfound
  rw [hp, hfound]

/-- Two trees in which the lookups of an absent key return one proof have one root hash if
and only if the searches end at the same node. -/
theorem exclusion_root_iff (ops ops' : List (Bytes32 × Bytes32)) (key : Bytes32)
    (habsent : lastWrites ops key = none) (habsent' : lastWrites ops' key = none) :
    ∃ t t' proof proof', new.insertAll ops = .ok t ∧ new.insertAll ops' = .ok t' ∧
      t.lookup key = .ok ⟨false, proof⟩ ∧ t'.lookup key = .ok ⟨false, proof'⟩ ∧
      (CollisionFree (t.root.messages ++ t'.root.messages) → proof = proof' →
        (t.rootHash = t'.rootHash ↔
          t.root.stop (Label.fromKey key) = t'.root.stop (Label.fromKey key))) := by
  obtain ⟨t, hrun, h⟩ : ∃ t, new.insertAll ops = .ok t ∧ t.Holds (lastWrites ops) :=
    holds_new.insertAll ops
  obtain ⟨t', hrun', h'⟩ : ∃ t, new.insertAll ops' = .ok t ∧ t.Holds (lastWrites ops') :=
    holds_new.insertAll ops'
  obtain ⟨siblings, hwalk⟩ := Node.exists_walk h.canonical (Label.bitLen_fromKey key)
  obtain ⟨siblings', hwalk'⟩ := Node.exists_walk h'.canonical (Label.bitLen_fromKey key)
  refine ⟨t, t', siblings, siblings', hrun, hrun', h.lookup_absent habsent hwalk,
    h'.lookup_absent habsent' hwalk', fun hfree hproof => ⟨fun hroot => ?_, fun hstop => ?_⟩⟩
  · rw [Node.hash_injective h.canonical h'.canonical hfree hroot]
  · rw [rootHash, rootHash, ← hwalk.folds, ← hwalk'.folds, hproof, hstop]

end PrefixTree

end

namespace PrefixTree

attribute [local instance] endsSha256

/-- The path to one of two leaves, with a value that is not there. -/
theorem inclusion_binds_two : ∃ t p, new.insertAll [(zeroHash, ones), (ones, zeroHash)] = .ok t ∧
    t.lookup ones = .ok p ∧
    foldPath (Label.fromKey ones) (leafHash ones zeroHash) p.proof = t.rootHash ∧
      foldPath (Label.fromKey ones) (leafHash ones (endsDigest [2])) p.proof ≠ t.rootHash := by
  obtain ⟨t, p, hrun, hlookup, -, -, hfold, hback⟩ :=
    inclusion_binds [(zeroHash, ones), (ones, zeroHash)] ones zeroHash (by decide +kernel)
  obtain ⟨t', p', hrun', hlookup', hmessages⟩ :
      ∃ t p, new.insertAll [(zeroHash, ones), (ones, zeroHash)] = .ok t ∧
      t.lookup ones = .ok p ∧
      ∀ a ∈ pathMessages (Label.fromKey ones) (leafMessage ones.val zeroHash) p.proof,
        ∀ b ∈ pathMessages (Label.fromKey ones) (leafMessage ones.val (endsDigest [2])) p.proof,
        endsDigest a = endsDigest b → a = b := by
    let leaves : Node × Node :=
      (.leaf (Label.fromKey zeroHash) ones, .leaf (Label.fromKey ones) zeroHash)
    let pre := (Label.fromKey ones).prefixTo 7
    refine ⟨⟨.internal pre leaves.1 leaves.2 (Node.computeInternalHash pre leaves.1 leaves.2)⟩,
      ⟨true, [Node.proofNode (pre.appendBit 0) leaves.1]⟩, ?_, ?_, ?_⟩
    all_goals decide +kernel
  obtain rfl := Except.ok.inj (hrun.symm.trans hrun')
  obtain rfl := Except.ok.inj (hlookup.symm.trans hlookup')
  refine ⟨t, p, hrun, hlookup, hfold, fun hroot => ?_⟩
  exact absurd (hback _ hmessages hroot) (by decide +kernel)

/-- Two trees of one leaf each: the proof for a third key is empty in both. -/
theorem exclusion_ambiguous : ∃ t t' proof, new.insertAll [(zeroHash, ones)] = .ok t ∧
    new.insertAll [(ones, endsDigest [2])] = .ok t' ∧
    CollisionFree (t.root.messages ++ t'.root.messages) ∧
    t.lookup (endsDigest [2]) = .ok ⟨false, proof⟩ ∧
    t'.lookup (endsDigest [2]) = .ok ⟨false, proof⟩ ∧
    t.rootHash ≠ t'.rootHash := by
  refine ⟨⟨.leaf (Label.fromKey zeroHash) ones⟩, ⟨.leaf (Label.fromKey ones) (endsDigest [2])⟩, [],
    ?_, ?_, ⟨?_, ?_⟩, ?_, ?_, ?_⟩
  all_goals decide +kernel

/-- A value that is written twice. -/
theorem exclusion_root_iff_rewritten : ∃ t t' proof, new.insertAll [(zeroHash, ones)] = .ok t ∧
    new.insertAll [(zeroHash, zeroHash), (zeroHash, ones)] = .ok t' ∧
    t.lookup ones = .ok ⟨false, proof⟩ ∧
    t'.lookup ones = .ok ⟨false, proof⟩ ∧ t.rootHash = t'.rootHash := by
  obtain ⟨t, t', proof, proof', hrun, hrun', hlookup, hlookup', hiff⟩ :=
    exclusion_root_iff [(zeroHash, ones)] [(zeroHash, zeroHash), (zeroHash, ones)] ones
      (by decide +kernel) (by decide +kernel)
  obtain rfl : (⟨.leaf (Label.fromKey zeroHash) ones⟩ : PrefixTree) = t := Except.ok.inj hrun
  have hrewritten : new.insertAll [(zeroHash, zeroHash), (zeroHash, ones)] =
      .ok ⟨.leaf (Label.fromKey zeroHash) ones⟩ := by
    decide +kernel
  obtain rfl := Except.ok.inj (hrewritten.symm.trans hrun')
  have hproof : proof = proof' :=
    congrArg LookupProof.proof (Except.ok.inj (hlookup.symm.trans hlookup'))
  refine ⟨_, _, proof, hrun, hrun', hlookup, hproof ▸ hlookup', (hiff ⟨?_, ?_⟩ hproof).mpr rfl⟩
  all_goals decide +kernel

end PrefixTree

end Siglog.Vindex

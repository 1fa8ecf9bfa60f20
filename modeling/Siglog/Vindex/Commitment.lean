import Siglog.Vindex.Lookup
import Mathlib.Data.Finset.Card
import Mathlib.Data.Finset.Image
import Mathlib.Logic.Function.Basic

/-! The root hash commits to the map from keys to values: two runs of insertions end in
one root hash exactly if they end in one map, unless SHA-256 collides on their trees. -/

namespace Siglog.Vindex

/-! ### Messages -/

theorem u32BeBytes_injective {m n : ℕ} (hm : m < 256) (hn : n < 256)
    (h : u32BeBytes m = u32BeBytes n) : m = n := by
  have hlast := congrArg (fun b : Bytes => (b.getD 3 0).toNat) h
  simpa [u32BeBytes, Nat.mod_eq_of_lt hm, Nat.mod_eq_of_lt hn] using hlast

theorem leafMessage_injective {k k' : Bytes} {v v' : Bytes32} (hl : k.length = k'.length)
    (h : leafMessage k v = leafMessage k' v') : k = k' ∧ v = v' := by
  obtain ⟨hk, hv⟩ := List.append_inj (List.cons.inj h).2 hl
  exact ⟨hk, Subtype.ext hv⟩

theorem leafMessage_ne (k : Bytes) (v : Bytes32) (n : ℕ) (pre : Bytes) (l r : Bytes32) :
    leafMessage k v ≠ internalMessage n pre l r :=
  fun h => absurd (List.cons.inj h).1 (by decide)

theorem internalMessage_injective {pre pre' : Label} {l r l' r' : Bytes32} (hpre : pre.bitLen < 256)
    (hpre' : pre'.bitLen < 256)
    (h : internalMessage pre.bitLen pre.bytes l r = internalMessage pre'.bitLen pre'.bytes l' r') :
    pre = pre' ∧ l = l' ∧ r = r' := by
  obtain ⟨hlen, hrest⟩ := List.append_inj (List.cons.inj h).2 (by simp [u32BeBytes])
  have hlen := u32BeBytes_injective hpre hpre' hlen
  obtain ⟨hbytes, hrest⟩ :=
    List.append_inj hrest (by rw [pre.length_bytes, pre'.length_bytes, hlen])
  obtain ⟨hl, hr⟩ := List.append_inj hrest (by rw [l.property, l'.property])
  exact ⟨Label.ext_bits hlen fun i _ => by rw [hbytes], Subtype.ext hl, Subtype.ext hr⟩

section

variable [Sha256]

/-- The hash tells these messages apart and maps none of them to zero. -/
structure CollisionFree (messages : List Bytes) : Prop where
  inj : ∀ a ∈ messages, ∀ b ∈ messages, digest a = digest b → a = b
  ne_zero : ∀ a ∈ messages, digest a ≠ zeroHash

theorem CollisionFree.sublist {messages messages' : List Bytes} (h : CollisionFree messages)
    (hs : messages' ⊆ messages) :
    CollisionFree messages' :=
  ⟨fun a ha b hb => h.inj a (hs ha) b (hs hb), fun a ha => h.ne_zero a (hs ha)⟩

namespace Node

/-- The messages hashed in a tree. -/
def messages : Node → List Bytes
  | .empty => []
  | .leaf key valueHash => [leafMessage key.bytes valueHash]
  | .internal pre left right _ =>
    internalMessage pre.bitLen pre.bytes left.hash right.hash :: (left.messages ++ right.messages)

/-- The hash of a tree with keys is the digest of the first of its messages. -/
theorem Canonical.hash_eq {t : Node} (ht : t.Canonical) (hne : t ≠ .empty) :
    ∃ m ms, t.messages = m :: ms ∧ t.hash = digest m := by
  cases ht with
  | empty => exact absurd rfl hne
  | leaf full => exact ⟨_, _, rfl, rfl⟩
  | internal hl hr leftNe rightNe below above cached => exact ⟨_, _, rfl, cached⟩

theorem hash_ne_zero {t : Node} (ht : t.Canonical) (hne : t ≠ .empty)
    (hfree : CollisionFree t.messages) :
    t.hash ≠ zeroHash := by
  obtain ⟨m, ms, hms, hash⟩ := ht.hash_eq hne
  rw [hash]
  exact hfree.ne_zero m (hms ▸ List.mem_cons_self)

theorem hash_injective {t t' : Node} (ht : t.Canonical) (ht' : t'.Canonical)
    (hfree : CollisionFree (t.messages ++ t'.messages)) (h : t.hash = t'.hash) : t = t' := by
  induction ht generalizing t' with
  | empty =>
    by_contra hne
    exact hash_ne_zero ht' (Ne.symm hne) hfree h.symm
  | leaf full =>
    rename_i key valueHash
    cases ht' with
    | empty => exact absurd h (hfree.ne_zero _ (by simp [messages]))
    | leaf full' =>
      have hmsg := hfree.inj _ (by simp [messages]) _ (by simp [messages]) h
      obtain ⟨hkey, hvalue⟩ :=
        leafMessage_injective (by simp [Label.length_bytes, full, full']) hmsg
      rw [Label.ext_bits (full.trans full'.symm) fun i _ => by rw [hkey], hvalue]
    | internal hl hr leftNe rightNe below above cached =>
      subst cached
      exact absurd (hfree.inj _ (by simp [messages]) _ (by simp [messages]) h)
        (leafMessage_ne _ _ _ _ _ _)
  | internal hl hr leftNe rightNe below above cached ihl ihr =>
    have hlt := (Canonical.internal hl hr leftNe rightNe below above cached).bitLen_lt
    subst cached
    cases ht' with
    | empty => exact absurd h (hfree.ne_zero _ (by simp [messages]))
    | leaf full' =>
      exact absurd (hfree.inj _ (by simp [messages]) _ (by simp [messages]) h).symm
        (leafMessage_ne _ _ _ _ _ _)
    | internal hl' hr' leftNe' rightNe' below' above' cached' =>
      have hlt' := (Canonical.internal hl' hr' leftNe' rightNe' below' above' cached').bitLen_lt
      subst cached'
      have hmsg := hfree.inj _ (by simp [messages]) _ (by simp [messages]) h
      obtain ⟨rfl, hleft, hright⟩ := internalMessage_injective hlt hlt' hmsg
      obtain rfl := ihl hl' (hfree.sublist fun m hm => by
          simp only [messages, List.mem_append, List.mem_cons] at hm ⊢; tauto) hleft
      obtain rfl := ihr hr' (hfree.sublist fun m hm => by
          simp only [messages, List.mem_append, List.mem_cons] at hm ⊢; tauto) hright
      rfl

end Node

/-! ### Trees as maps -/

namespace PrefixTree

/-- The tree is canonical and its entries are the map. -/
structure Holds (t : PrefixTree) (m : Bytes32 → Option Bytes32) : Prop where
  canonical : t.root.Canonical
  mem : ∀ key v, (Label.fromKey key, v) ∈ t.root.entries ↔ m key = some v

theorem holds_new : new.Holds fun _ => none := ⟨.empty, by simp [new, Node.entries]⟩

variable {t t' : PrefixTree} {m m' : Bytes32 → Option Bytes32}

/-- Insertion sets one key and does not panic. -/
theorem Holds.insert (h : t.Holds m) (key valueHash : Bytes32) :
    ∃ t', t.insert key valueHash = .ok t' ∧ t'.Holds (Function.update m key (some valueHash)) := by
  obtain ⟨root, hins, hroot⟩ :=
    Node.insertRec_inserted h.canonical (Label.bitLen_fromKey key) valueHash
  refine ⟨⟨root⟩, by rw [PrefixTree.insert, hins]; rfl, hroot.canonical, ?_⟩
  intro k v
  rw [hroot.mem, h.mem, Function.update_apply]
  simp only [Prod.mk.injEq, Label.fromKey_injective.eq_iff, ne_eq]
  split_ifs with hk
  · simp [hk, eq_comm]
  · simp [hk]

/-- A lookup finds the keys of the map, and its proof folds to the root hash. -/
theorem Holds.lookup (h : t.Holds m) (key : Bytes32) : ∃ p, t.lookup key = .ok p ∧
    (p.found = true ↔ (m key).isSome) ∧
    ∀ v, m key = some v → foldProof (leafHash key v) p.proof = t.rootHash := by
  obtain ⟨⟨found, proof⟩, hrec, hfound, siblings, hsib, hfold⟩ :=
    Node.lookupRec_found h.canonical (Label.bitLen_fromKey key) []
  refine ⟨⟨found, proof⟩, by rw [PrefixTree.lookup, hrec]; rfl, ?_, ?_⟩
  · rw [hfound, Option.isSome_iff_exists]
    exact exists_congr fun v => h.mem key v
  · intro v hv
    have hproof : proof = siblings := by simpa using hsib
    rw [hproof]
    exact hfold v ((h.mem key v).mpr hv)

theorem Holds.mem_iff (h : t.Holds m) (h' : t'.Holds m) (e : Label × Bytes32) :
    e ∈ t.root.entries ↔ e ∈ t'.root.entries := by
  constructor
  · intro he
    obtain ⟨key, hkey⟩ := Label.eq_fromKey (h.canonical.full he)
    obtain ⟨l, v⟩ := e
    obtain rfl : l = Label.fromKey key := hkey
    exact (h'.mem key v).mpr ((h.mem key v).mp he)
  · intro he
    obtain ⟨key, hkey⟩ := Label.eq_fromKey (h'.canonical.full he)
    obtain ⟨l, v⟩ := e
    obtain rfl : l = Label.fromKey key := hkey
    exact (h.mem key v).mpr ((h'.mem key v).mp he)

/-- One map has one tree. -/
theorem Holds.unique (h : t.Holds m) (h' : t'.Holds m) : t = t' :=
  congrArg PrefixTree.mk (Node.canonical_unique h.canonical h'.canonical (h.mem_iff h'))

/-- One root hash has one map. -/
theorem Holds.injective (h : t.Holds m) (h' : t'.Holds m')
    (hfree : CollisionFree (t.root.messages ++ t'.root.messages))
    (hroot : t.rootHash = t'.rootHash) : m = m' := by
  have htree := Node.hash_injective h.canonical h'.canonical hfree hroot
  funext key
  apply Option.ext
  intro v
  rw [← h.mem, ← h'.mem, htree]

/-- The tree counts the keys of the map. -/
theorem Holds.len_eq (h : t.Holds m) {keys : Finset Bytes32}
    (hkeys : ∀ key, key ∈ keys ↔ (m key).isSome) :
    t.len = keys.card := by
  have himage : (t.root.entries.map Prod.fst).toFinset = keys.image Label.fromKey := by
    ext l
    simp only [List.mem_toFinset, List.mem_map, Finset.mem_image, Prod.exists, exists_and_right,
      exists_eq_right]
    constructor
    · rintro ⟨v, hv⟩
      obtain ⟨key, rfl⟩ := Label.eq_fromKey (h.canonical.full hv)
      exact ⟨key, (hkeys key).mpr (Option.isSome_iff_exists.mpr ⟨v, (h.mem key v).mp hv⟩), rfl⟩
    · rintro ⟨key, hkey, rfl⟩
      obtain ⟨v, hv⟩ := Option.isSome_iff_exists.mp ((hkeys key).mp hkey)
      exact ⟨v, (h.mem key v).mpr hv⟩
  rw [len, Node.countKeys_eq, ← List.length_map Prod.fst,
    ← List.toFinset_card_of_nodup h.canonical.nodup_keys, himage,
    Finset.card_image_of_injective _ Label.fromKey_injective]

/-! ### Sequences of insertions -/

/-- The map after some writes. -/
def writes (m : Bytes32 → Option Bytes32) (ops : List (Bytes32 × Bytes32)) :
    Bytes32 → Option Bytes32 :=
  ops.foldl (fun m op => Function.update m op.1 (some op.2)) m

/-- The last value written to each key. -/
def lastWrites (ops : List (Bytes32 × Bytes32)) : Bytes32 → Option Bytes32 :=
  writes (fun _ => none) ops

omit [Sha256] in
theorem writes_isSome (ops : List (Bytes32 × Bytes32)) (m : Bytes32 → Option Bytes32)
    (key : Bytes32) :
    (writes m ops key).isSome ↔ (m key).isSome ∨ key ∈ ops.map Prod.fst := by
  induction ops generalizing m with
  | nil => simp [writes]
  | cons op ops ih =>
    rw [writes, List.foldl_cons, ← writes, ih, Function.update_apply, List.map_cons, List.mem_cons]
    by_cases hk : key = op.1
    · simp [hk]
    · simp [hk]

theorem Holds.insertAll (h : t.Holds m) (ops : List (Bytes32 × Bytes32)) :
    ∃ t', t.insertAll ops = .ok t' ∧ t'.Holds (writes m ops) := by
  induction ops generalizing t m with
  | nil => exact ⟨t, rfl, h⟩
  | cons op ops ih =>
    obtain ⟨t₁, hins, h₁⟩ := h.insert op.1 op.2
    obtain ⟨t', hall, h'⟩ := ih h₁
    exact ⟨t', by rw [PrefixTree.insertAll, hins]; exact hall, h'⟩

/-- Insertions and lookups do not panic. Two runs of insertions end in one root hash
exactly if they end in one map, and the tree finds and counts the keys written. -/
theorem insertAll_commits (ops ops' : List (Bytes32 × Bytes32)) : ∃ t t',
    new.insertAll ops = .ok t ∧ new.insertAll ops' = .ok t' ∧
    (lastWrites ops = lastWrites ops' → t.rootHash = t'.rootHash) ∧
    (CollisionFree (t.root.messages ++ t'.root.messages) → t.rootHash = t'.rootHash →
      lastWrites ops = lastWrites ops') ∧
    (∀ key, ∃ p, t.lookup key = .ok p ∧ (p.found = true ↔ (lastWrites ops key).isSome)) ∧
    t.len = (ops.map Prod.fst).toFinset.card := by
  obtain ⟨t, hrun, h⟩ : ∃ t, new.insertAll ops = .ok t ∧ t.Holds (lastWrites ops) :=
    holds_new.insertAll ops
  obtain ⟨t', hrun', h'⟩ : ∃ t, new.insertAll ops' = .ok t ∧ t.Holds (lastWrites ops') :=
    holds_new.insertAll ops'
  refine ⟨t, t', hrun, hrun', ?_, h.injective h', ?_, ?_⟩
  · intro hmaps
    rw [h.unique (hmaps ▸ h')]
  · intro key
    obtain ⟨p, hp, hfound, -⟩ := h.lookup key
    exact ⟨p, hp, hfound⟩
  · apply h.len_eq
    intro key
    rw [List.mem_toFinset, lastWrites, writes_isSome]
    simp

end PrefixTree

end

/-- The first byte and the last thirty-one. It is there to run the model. -/
def endsDigest (b : Bytes) : Bytes32 :=
  ⟨b.headD 0 :: ((List.replicate 31 0 ++ b).reverse.take 31).reverse, by simp⟩

@[reducible] def endsSha256 : Sha256 := ⟨endsDigest⟩

namespace PrefixTree

attribute [local instance] endsSha256

def ones : Bytes32 := ⟨List.replicate 32 1, rfl⟩

/-- The messages of the tree after insertions. -/
def insertedMessages (ops : List (Bytes32 × Bytes32)) : List Bytes :=
  ((new.insertAll ops).toOption.map fun t => t.root.messages).getD []

theorem messages_of_insertAll {ops : List (Bytes32 × Bytes32)} {t : PrefixTree}
    (h : new.insertAll ops = .ok t) : t.root.messages = insertedMessages ops := by
  rw [insertedMessages, h]
  rfl

/-- Two keys that are inserted in two orders give one root, and another value another root. -/
theorem insertAll_commits_two : ∃ t t' t'',
    new.insertAll [(zeroHash, ones), (ones, endsDigest [2])] = .ok t ∧
    new.insertAll [(ones, ones), (ones, endsDigest [2]), (zeroHash, ones)] = .ok t' ∧
    new.insertAll [(zeroHash, ones), (ones, endsDigest [3])] = .ok t'' ∧
    t.rootHash = t'.rootHash ∧ t.rootHash ≠ t''.rootHash ∧ t.len = 2 := by
  obtain ⟨t, t', hrun, hrun', hone, -, -, hlen⟩ :=
    insertAll_commits [(zeroHash, ones), (ones, endsDigest [2])]
      [(ones, ones), (ones, endsDigest [2]), (zeroHash, ones)]
  obtain ⟨s, t'', hagain, hrun'', -, hback, -, -⟩ :=
    insertAll_commits [(zeroHash, ones), (ones, endsDigest [2])]
      [(zeroHash, ones), (ones, endsDigest [3])]
  obtain rfl := Except.ok.inj (hrun.symm.trans hagain)
  have hne : zeroHash ≠ ones := by decide +kernel
  refine ⟨t, t', t'', hrun, hrun', hrun'', hone ?_, fun hroot => ?_, ?_⟩
  · simp only [lastWrites, writes, List.foldl_cons, List.foldl_nil, Function.update_idem]
    exact Function.update_comm hne _ _ _
  · have hfree : CollisionFree (t.root.messages ++ t''.root.messages) := by
      rw [messages_of_insertAll hrun, messages_of_insertAll hrun'']
      exact ⟨by decide +kernel, by decide +kernel⟩
    have hmaps := congrFun (hback hfree hroot) ones
    exact absurd hmaps (by decide +kernel)
  · rw [hlen]
    decide +kernel

end PrefixTree

end Siglog.Vindex

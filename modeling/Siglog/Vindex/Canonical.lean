import Siglog.Vindex.PrefixTree
import Mathlib.Data.List.Nodup

/-! The shape of a prefix tree is determined by its entries: an inner node's prefix ends
where its keys first differ. Insertion keeps the shape whatever the order, so the tree,
and with it the root hash, depends on the last written values only. -/

namespace Siglog.Vindex

/-- `k` continues `pre` with the bit `b`. -/
structure Below (pre : Label) (b : Bool) (k : Label) : Prop where
  lt : pre.bitLen < k.bitLen
  agree : pre.Agree pre.bitLen k
  next : bitAt k.bytes pre.bitLen = b

namespace Node

/-- The keys and values of a tree, from left to right. -/
def entries : Node → List (Label × Bytes32)
  | .empty => []
  | .leaf key valueHash => [(key, valueHash)]
  | .internal _ left right _ => left.entries ++ right.entries

theorem countKeys_eq (t : Node) : t.countKeys = t.entries.length := by
  induction t with
  | empty => rfl
  | leaf key valueHash => rfl
  | internal pre left right hash ihl ihr => rw [countKeys, entries, List.length_append, ihl, ihr]

theorem isEmpty_eq_false {t : Node} (h : t ≠ .empty) : t.isEmpty = false := by
  cases t with
  | empty => exact absurd rfl h
  | leaf key valueHash => rfl
  | internal pre left right hash => rfl

variable [Sha256]

/-- Inner nodes split their keys by the bit after their prefix, have keys on both sides
and cache the current hash. -/
inductive Canonical : Node → Prop
  | empty : Canonical .empty
  | leaf {key : Label} {valueHash : Bytes32} (full : key.bitLen = 256) :
      Canonical (.leaf key valueHash)
  | internal {pre : Label} {left right : Node} {hash : Bytes32} (hl : Canonical left)
      (hr : Canonical right) (leftNe : left ≠ .empty) (rightNe : right ≠ .empty)
      (below : ∀ e ∈ left.entries, Below pre false e.1)
      (above : ∀ e ∈ right.entries, Below pre true e.1)
      (cached : hash = computeInternalHash pre left right) :
      Canonical (.internal pre left right hash)

namespace Canonical

variable {t : Node}

theorem exists_entry (ht : t.Canonical) (hne : t ≠ .empty) : ∃ e, e ∈ t.entries := by
  induction ht with
  | empty => exact absurd rfl hne
  | leaf full => exact ⟨_, List.mem_singleton_self _⟩
  | internal hl hr leftNe rightNe below above cached ihl ihr =>
    obtain ⟨e, he⟩ := ihl leftNe
    exact ⟨e, List.mem_append_left _ he⟩

theorem full (ht : t.Canonical) {e : Label × Bytes32} (he : e ∈ t.entries) : e.1.bitLen = 256 := by
  induction ht with
  | empty => cases he
  | leaf full => rwa [List.mem_singleton.mp he]
  | internal hl hr leftNe rightNe below above cached ihl ihr =>
    rcases List.mem_append.mp he with he | he
    · exact ihl he
    · exact ihr he

/-- The prefix of an inner node is shorter than a key. -/
theorem bitLen_lt {pre : Label} {left right : Node} {hash : Bytes32}
    (ht : (Node.internal pre left right hash).Canonical) :
    pre.bitLen < 256 := by
  cases ht with
  | internal hl hr leftNe rightNe below above cached =>
    obtain ⟨e, he⟩ := hl.exists_entry leftNe
    have hlt := (below e he).lt
    rwa [hl.full he] at hlt

/-- All keys below an inner node start with its prefix. -/
theorem agree {pre : Label} {left right : Node} {hash : Bytes32}
    (ht : (Node.internal pre left right hash).Canonical)
    {e : Label × Bytes32} (he : e ∈ (Node.internal pre left right hash).entries) :
    pre.Agree pre.bitLen e.1 := by
  cases ht with
  | internal hl hr leftNe rightNe below above cached =>
    rcases List.mem_append.mp he with he | he
    · exact (below e he).agree
    · exact (above e he).agree

/-- The side of an entry is its next bit. -/
theorem mem_left {pre : Label} {left right : Node} {hash : Bytes32}
    (ht : (Node.internal pre left right hash).Canonical)
    {e : Label × Bytes32} : e ∈ left.entries ↔
      e ∈ (Node.internal pre left right hash).entries ∧ bitAt e.1.bytes pre.bitLen = false := by
  cases ht with
  | internal hl hr leftNe rightNe below above cached =>
    constructor
    · exact fun he => ⟨List.mem_append_left _ he, (below e he).next⟩
    · rintro ⟨he, hbit⟩
      rcases List.mem_append.mp he with he | he
      · exact he
      · rw [(above e he).next] at hbit
        cases hbit

theorem mem_right {pre : Label} {left right : Node} {hash : Bytes32}
    (ht : (Node.internal pre left right hash).Canonical)
    {e : Label × Bytes32} : e ∈ right.entries ↔
      e ∈ (Node.internal pre left right hash).entries ∧ bitAt e.1.bytes pre.bitLen = true := by
  cases ht with
  | internal hl hr leftNe rightNe below above cached =>
    constructor
    · exact fun he => ⟨List.mem_append_right _ he, (above e he).next⟩
    · rintro ⟨he, hbit⟩
      rcases List.mem_append.mp he with he | he
      · rw [(below e he).next] at hbit
        cases hbit
      · exact he

theorem nodup_keys (ht : t.Canonical) : (t.entries.map Prod.fst).Nodup := by
  induction ht with
  | empty => exact List.nodup_nil
  | leaf full => exact List.nodup_singleton _
  | internal hl hr leftNe rightNe below above cached ihl ihr =>
    rw [entries, List.map_append, List.nodup_append]
    refine ⟨ihl, ihr, ?_⟩
    intro k hk k' hk' heq
    obtain ⟨e, he, rfl⟩ := List.mem_map.mp hk
    obtain ⟨e', he', rfl⟩ := List.mem_map.mp hk'
    have hbit := (below e he).next
    rw [heq, (above e' he').next] at hbit
    cases hbit

end Canonical

/-! ### The tree is determined by its entries -/

/-- Two inner nodes with the same entries do not have prefixes of different length: the
longer one would hold keys that differ below its end. -/
theorem bitLen_not_lt {pre pre' : Label} {left right left' right' : Node} {hash hash' : Bytes32}
    (ht : (Node.internal pre left right hash).Canonical)
    (ht' : (Node.internal pre' left' right' hash').Canonical)
    (h : ∀ e, e ∈ (Node.internal pre left right hash).entries ↔
      e ∈ (Node.internal pre' left' right' hash').entries) :
    ¬ pre.bitLen < pre'.bitLen := by
  intro hlt
  have hside := ht
  cases hside with
  | internal hl hr leftNe rightNe below above cached =>
    obtain ⟨e, he⟩ := hl.exists_entry leftNe
    obtain ⟨e', he'⟩ := hr.exists_entry rightNe
    have hagree := ht'.agree ((h e).mp (List.mem_append_left _ he)) pre.bitLen hlt
    have hagree' := ht'.agree ((h e').mp (List.mem_append_right _ he')) pre.bitLen hlt
    rw [(below e he).next] at hagree
    rw [(above e' he').next, hagree] at hagree'
    cases hagree'

theorem pre_eq {pre pre' : Label} {left right left' right' : Node} {hash hash' : Bytes32}
    (ht : (Node.internal pre left right hash).Canonical)
    (ht' : (Node.internal pre' left' right' hash').Canonical)
    (h : ∀ e, e ∈ (Node.internal pre left right hash).entries ↔
      e ∈ (Node.internal pre' left' right' hash').entries) :
    pre = pre' := by
  have hlt := bitLen_not_lt ht ht' h
  have hgt := bitLen_not_lt ht' ht fun e => (h e).symm
  have hlen : pre.bitLen = pre'.bitLen := by omega
  obtain ⟨e, he⟩ := ht.exists_entry (by simp)
  exact Label.ext_bits hlen ((ht.agree he).trans (hlen ▸ (ht'.agree ((h e).mp he)).symm))

theorem canonical_unique {t t' : Node} (ht : t.Canonical) (ht' : t'.Canonical)
    (h : ∀ e, e ∈ t.entries ↔ e ∈ t'.entries) : t = t' := by
  induction ht generalizing t' with
  | empty =>
    by_contra hne
    obtain ⟨e, he⟩ := ht'.exists_entry (Ne.symm hne)
    cases (h e).mpr he
  | leaf full =>
    rename_i key valueHash
    have hself := (h (key, valueHash)).mp (List.mem_singleton_self _)
    cases ht' with
    | empty => cases hself
    | leaf full' =>
      obtain ⟨rfl, rfl⟩ := Prod.mk.inj (List.mem_singleton.mp hself)
      rfl
    | internal hl hr leftNe rightNe below above cached =>
      obtain ⟨e, he⟩ := hl.exists_entry leftNe
      obtain ⟨e', he'⟩ := hr.exists_entry rightNe
      have hbit := (below e he).next
      rw [List.mem_singleton.mp ((h e).mpr (List.mem_append_left _ he)),
        ← List.mem_singleton.mp ((h e').mpr (List.mem_append_right _ he')),
        (above e' he').next] at hbit
      cases hbit
  | internal hl hr leftNe rightNe below above cached ihl ihr =>
    rename_i pre left right hash
    have hself : (Node.internal pre left right hash).Canonical :=
      .internal hl hr leftNe rightNe below above cached
    obtain ⟨e, he⟩ := hl.exists_entry leftNe
    obtain ⟨e', he'⟩ := hr.exists_entry rightNe
    have hmem := (h e).mp (List.mem_append_left _ he)
    have hmem' := (h e').mp (List.mem_append_right _ he')
    have hother := ht'
    cases ht' with
    | empty => cases hmem
    | leaf full' =>
      have hbit := (below e he).next
      rw [List.mem_singleton.mp hmem, ← List.mem_singleton.mp hmem', (above e' he').next] at hbit
      cases hbit
    | internal hl' hr' leftNe' rightNe' below' above' cached' =>
      obtain rfl := pre_eq hself hother h
      obtain rfl := ihl hl' fun e => by rw [hself.mem_left, hother.mem_left, h e]
      obtain rfl := ihr hr' fun e => by rw [hself.mem_right, hother.mem_right, h e]
      rw [cached, cached']

/-! ### Insertion -/

/-- `t'` is `t` with `key` set to `valueHash`. -/
structure Inserted (key : Label) (valueHash : Bytes32) (t t' : Node) : Prop where
  canonical : t'.Canonical
  mem : ∀ e, e ∈ t'.entries ↔ e = (key, valueHash) ∨ (e ∈ t.entries ∧ e.1 ≠ key)

theorem Inserted.ne_empty {key : Label} {valueHash : Bytes32} {t t' : Node}
    (h : Inserted key valueHash t t') :
    t' ≠ .empty := by
  rintro rfl
  cases (h.mem _).mpr (.inl rfl)

/-- A new leaf beside a subtree whose keys all leave the key's path at bit `c`. -/
theorem join_inserted {key pre : Label} (valueHash : Bytes32) {old : Node} {c : ℕ} {keyBit : UInt8}
    (hkey : key.bitLen = 256) (hold : old.Canonical) (hne : old ≠ .empty) (hc : c < 256)
    (hpre : pre.bitLen = c) (hagree : pre.Agree c key)
    (haway : ∀ e ∈ old.entries, key.Agree c e.1 ∧ bitAt key.bytes c ≠ bitAt e.1.bytes c)
    (hbit : key.bit c = .ok keyBit) (sides : Node × Node)
    (hsides : sides = if keyBit = 0 then (.leaf key valueHash, old)
      else (old, .leaf key valueHash)) :
    Inserted key valueHash old
      (.internal pre sides.1 sides.2 (computeInternalHash pre sides.1 sides.2)) := by
  have hother : ∀ e ∈ old.entries, e.1 ≠ key := by
    rintro e he rfl
    exact (haway e he).2 rfl
  have hnew : ∀ {b}, bitAt key.bytes c = b →
      ∀ e ∈ (Node.leaf key valueHash).entries, Below pre b e.1 := by
    intro b hb e he
    rw [List.mem_singleton.mp he]
    exact ⟨by rw [hkey]; omega, hpre ▸ hagree, hpre ▸ hb⟩
  have hrest : ∀ {b}, bitAt key.bytes c = !b → ∀ e ∈ old.entries, Below pre b e.1 := by
    intro b hb e he
    have hdiff := (haway e he).2
    rw [hb] at hdiff
    refine ⟨by rw [hold.full he]; omega, hpre ▸ hagree.trans (haway e he).1, ?_⟩
    rw [hpre]
    cases hb' : bitAt e.1.bytes c <;> cases b <;> simp_all
  rw [Label.bit_ok (by omega), Except.ok.injEq] at hbit
  cases hb : bitAt key.bytes c with
  | false =>
    rw [hb, if_neg (by simp)] at hbit
    rw [if_pos hbit.symm] at hsides
    subst hsides
    refine ⟨.internal (.leaf hkey) hold (by simp) hne (hnew hb) (hrest hb) rfl, ?_⟩
    intro e
    simp only [entries, List.mem_append, List.mem_singleton]
    exact or_congr_right ⟨fun he => ⟨he, hother e he⟩, And.left⟩
  | true =>
    rw [hb, if_pos rfl] at hbit
    rw [if_neg (by rw [← hbit]; decide)] at hsides
    subst hsides
    refine ⟨.internal hold (.leaf hkey) hne (by simp) (hrest hb) (hnew hb) rfl, ?_⟩
    intro e
    simp only [entries, List.mem_append, List.mem_singleton]
    exact or_comm.trans (or_congr_right ⟨fun he => ⟨he, hother e he⟩, And.left⟩)

/-- Insertion does not panic, and sets the key. -/
theorem insertRec_inserted {t : Node} (ht : t.Canonical) {key : Label} (hkey : key.bitLen = 256)
    (valueHash : Bytes32) : ∃ t', insertRec key valueHash t = .ok t' ∧
    Inserted key valueHash t t' := by
  induction ht with
  | empty => exact ⟨_, rfl, .leaf hkey, by simp [entries]⟩
  | leaf full =>
    rename_i existingKey existingValue
    obtain ⟨hle, hagree, hdiffer⟩ := Label.commonPrefixLen_spec key existingKey
    by_cases heq : key = existingKey
    · subst heq
      refine ⟨.leaf key valueHash, if_pos rfl, .leaf hkey, ?_⟩
      intro e
      simp only [entries, List.mem_singleton]
      exact ⟨.inl, fun h => h.resolve_right fun ⟨h₁, h₂⟩ => h₂ (h₁ ▸ rfl)⟩
    · have hlt : key.commonPrefixLen existingKey < 256 := by
        by_contra hge
        exact heq (Label.ext_bits (by omega) fun i hi => hagree i (by omega))
      obtain ⟨keyBit, hbit⟩ : ∃ b, key.bit (key.commonPrefixLen existingKey) = .ok b :=
        ⟨_, Label.bit_ok (by omega)⟩
      have hbit' := @Label.bit_ok existingKey (key.commonPrefixLen existingKey) (by omega)
      have hold : (Node.leaf existingKey existingValue).Canonical := .leaf full
      have hjoin := join_inserted valueHash hkey hold (by simp) hlt
        (Label.prefixTo_bitLen (by omega)) Label.agree_prefixTo (by
          intro e he
          rw [List.mem_singleton.mp he]
          exact ⟨hagree, hdiffer (by omega)⟩) hbit _ rfl
      refine ⟨_, ?_, hjoin⟩
      rw [insertRec, if_neg heq]
      simp only [hbit, hbit', bind, Except.bind]
  | internal hl hr leftNe rightNe below above cached ihl ihr =>
    rename_i pre left right hash
    subst cached
    have hself := Canonical.internal hl hr leftNe rightNe below above rfl
    have hpre := hself.bitLen_lt
    obtain ⟨hle, hagree, hdiffer⟩ := Label.commonPrefixLen_spec key pre
    by_cases hlt : key.commonPrefixLen pre < pre.bitLen
    · obtain ⟨keyBit, hbit⟩ : ∃ b, key.bit (key.commonPrefixLen pre) = .ok b :=
        ⟨_, Label.bit_ok (by omega)⟩
      have hjoin := join_inserted valueHash hkey
        hself (by simp) (by omega)
        (Label.prefixTo_bitLen hlt.le) (Label.agree_prefixTo.trans hagree.symm) (by
          intro e he
          have hin := hself.agree he
          exact ⟨hagree.trans (hin.mono hlt.le), hin _ hlt ▸ hdiffer (by omega)⟩) hbit _ rfl
      refine ⟨_, ?_, hjoin⟩
      rw [insertRec, if_pos hlt]
      simp only [hbit, bind, Except.bind]
    · have hpath : pre.Agree pre.bitLen key := (hagree.mono (by omega)).symm
      have hbit := @Label.bit_ok key pre.bitLen (by omega)
      cases hb : bitAt key.bytes pre.bitLen with
      | false =>
        rw [hb, if_neg (by simp)] at hbit
        obtain ⟨newLeft, hrec, hins⟩ := ihl
        refine ⟨.internal pre newLeft right (computeInternalHash pre newLeft right), ?_, ?_, ?_⟩
        · rw [insertRec, if_neg hlt, hbit]
          simp only [bind, Except.bind, if_pos, hrec]
        · refine .internal hins.canonical hr hins.ne_empty rightNe ?_ above rfl
          intro e he
          rcases (hins.mem e).mp he with rfl | ⟨he, -⟩
          · exact ⟨by rw [hkey]; exact hpre, hpath, hb⟩
          · exact below e he
        · intro e
          have haway : e ∈ right.entries → e.1 ≠ key := by
            rintro he rfl
            rw [(above e he).next] at hb
            cases hb
          simp only [entries, List.mem_append, hins.mem e]
          rw [or_assoc, or_and_right, and_iff_left_of_imp haway]
      | true =>
        rw [hb, if_pos rfl] at hbit
        obtain ⟨newRight, hrec, hins⟩ := ihr
        refine ⟨.internal pre left newRight (computeInternalHash pre left newRight), ?_, ?_, ?_⟩
        · rw [insertRec, if_neg hlt, hbit]
          simp only [bind, Except.bind, hrec]
          rfl
        · refine .internal hl hins.canonical leftNe hins.ne_empty below ?_ rfl
          intro e he
          rcases (hins.mem e).mp he with rfl | ⟨he, -⟩
          · exact ⟨by rw [hkey]; exact hpre, hpath, hb⟩
          · exact above e he
        · intro e
          have haway : e ∈ left.entries → e.1 ≠ key := by
            rintro he rfl
            rw [(below e he).next] at hb
            cases hb
          simp only [entries, List.mem_append, hins.mem e]
          rw [or_left_comm, or_and_right, and_iff_left_of_imp haway]

end Node

end Siglog.Vindex

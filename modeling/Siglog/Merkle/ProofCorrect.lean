import Siglog.Merkle.Proof
import Siglog.Witness.Consistency

/-! Over tiles whose bottom rows are right, the generated proofs are those of
the standard. Each function has one specification, for tiles that may be read
from anywhere; the claims about a fixed store follow from it. -/

namespace Siglog.Merkle

open Concurrent (Prog)
open Concurrent.Prog (returns_bind_ok Returns)
open Api (tileWidth tileWidth_eq partialTileSize)
open Rfc (mth rangeHash seg split subtree row)

/-- The width of the bottom row of a tile at some tree size. -/
def rowWidth (level index size : ℕ) : ℕ :=
  min tileWidth (size / 2 ^ (8 * level) - tileWidth * index)

/-- The library makes the check of the standard. -/
class LawfulInclusionVerifier (H : Type) [Sha256Hash H] [InclusionVerifier H] : Prop where
  verify_iff : ∀ (leaf : H) (index size : ℕ) (proof : List H) (root : H),
    InclusionVerifier.verifyInclusionProof leaf index size proof root = .ok () ↔
      Rfc.VerifyInclusion leaf index size proof root

section

variable {H : Type} [Sha256Hash H] [DecidableEq H]

/-- A library that makes the check and nothing else. It is there to run the model. -/
@[reducible] def rootVerifier : InclusionVerifier H :=
  ⟨fun leaf index size proof root =>
    if Rfc.VerifyInclusion leaf index size proof root then .ok () else .error "invalid proof"⟩

theorem rootVerifier_lawful : @LawfulInclusionVerifier H _ rootVerifier := by
  let _ : InclusionVerifier H := rootVerifier
  constructor
  intro leaf index size proof root
  change (if Rfc.VerifyInclusion leaf index size proof root then _ else _ : Except String Unit) = _
    ↔ _
  split_ifs with h
  · simp [h]
  · simp [h]

end

variable {H : Type} [Sha256Hash H] {D : List H}

/-- The bottom row of a tile of the tree over `D` is right. -/
def TileCorrect (D : List H) (level index : ℕ) (tile : HashTile H) : Prop :=
  ∀ j, j < rowWidth level index D.length →
    tile.nodes[j]? = some (subtree D (8 * level) (tileWidth * index + j))

/-- Every tile that the tree over `D` has is there and right. -/
def TileAnswers (D : List H) : (o : ReadTile) → o.Answer H → Prop
  | ⟨level, index, part⟩, answer =>
    tileWidth * index < D.length / 2 ^ (8 * level) → part = partialTileSize level index D.length →
      ∃ tile, answer = some tile ∧ TileCorrect D level index tile

omit [Sha256Hash H] in
theorem partialTileSize_eq {level : ℕ} (h : level ≤ 7) (index size : ℕ) :
    partialTileSize level index size =
      if index < size / 2 ^ (8 * level) / tileWidth then 0
      else size / 2 ^ (8 * level) % tileWidth := by
  have hshift : min (level * Api.tileHeight) (2 ^ 64 - 1) = 8 * level := by
    unfold Api.tileHeight; omega
  unfold partialTileSize
  simp only [hshift]
  rw [if_neg (by omega)]

omit [Sha256Hash H] in
theorem level_le {l i : ℕ} (hn : D.length ≤ i64Max) (h : (i + 1) * 2 ^ l ≤ D.length) : l ≤ 62 := by
  by_contra hl
  have h₁ : 2 ^ 63 ≤ 2 ^ l := Nat.pow_le_pow_right (by omega) (by omega)
  have h₂ : 2 ^ l ≤ (i + 1) * 2 ^ l := Nat.le_mul_of_pos_left _ (by omega)
  unfold i64Max at hn
  omega

theorem readTile_returns {level index part : ℕ} (hl : level ≤ 63)
    (hi : tileWidth * index < D.length / 2 ^ (8 * level))
    (hp : part = partialTileSize level index D.length) :
    (readTile level index part).Returns (TileAnswers D)
      (fun x => ∃ t, x = .ok t ∧ ∃ tile, t = some tile ∧ TileCorrect D level index tile) := by
  rw [readTile, if_neg (by omega)]
  intro answer h
  obtain ⟨tile, rfl, ht⟩ := h hi hp
  exact ⟨_, rfl, tile, rfl, ht⟩

omit [Sha256Hash H] in
theorem leafPartial_eq {i : ℕ} (hi : i < D.length) (hn : D.length ≤ i64Max) :
    leafPartial (i / tileWidth * tileWidth) D.length =
      .ok (partialTileSize 0 (i / tileWidth) D.length) := by
  unfold i64Max at hn
  rw [partialTileSize_eq (by omega), mul_zero, pow_zero, Nat.div_one, leafPartial, tileWidth_eq,
    checkedAdd_ok (by omega)]
  change (if i / 256 * 256 + 256 > D.length then _ else _) = _
  by_cases h : i / 256 < D.length / 256
  · rw [if_neg (by omega), if_pos h]
  · rw [if_pos (by omega), if_neg h, checkedSub_ok (by omega)]
    exact congrArg Except.ok (by omega)

theorem readLeafHash_returns {i : ℕ} (hi : i < D.length) (hn : D.length ≤ i64Max) :
    (readLeafHash i D.length).Returns (TileAnswers D) (· = .ok (rangeHash D i 1)) := by
  have hrow : tileWidth * (i / tileWidth) < D.length / 2 ^ (8 * 0) := by
    rw [mul_zero, pow_zero, Nat.div_one, tileWidth_eq]
    omega
  rw [readLeafHash, leafPartial_eq hi hn]
  simp only [Prog.ofExcept_ok, Prog.bind_eq, Prog.pure_bind]
  refine returns_bind_ok (readTile_returns (by omega) hrow rfl) ?_
  rintro _ ⟨tile, rfl, ht⟩
  have hj := ht (i % tileWidth) (by
    rw [rowWidth, mul_zero, pow_zero, Nat.div_one, tileWidth_eq]
    omega)
  rw [Nat.div_add_mod] at hj
  simp only [hj]
  exact congrArg Except.ok (by rw [subtree, mul_zero, pow_zero, mul_one])

theorem pairUp_row {l a c : ℕ} (h : (a + c) * 2 ^ (l + 1) ≤ D.length) :
    pairUp (row D l (2 * a) (2 * c)) = row D (l + 1) a c := by
  induction c generalizing a with
  | zero => simp [row, pairUp]
  | succ c ih =>
    have hle : (a + 1) * 2 ^ (l + 1) ≤ (a + (c + 1)) * 2 ^ (l + 1) :=
      Nat.mul_le_mul_right _ (by omega)
    rw [show 2 * (c + 1) = 2 * c + 1 + 1 by ring, Rfc.row_cons, Rfc.row_cons, Rfc.row_cons, pairUp,
      Rfc.subtree_succ (by omega), show 2 * a + 1 + 1 = 2 * (a + 1) by ring,
      ih (by rw [show a + 1 + c = a + (c + 1) by omega]; exact h)]
    rfl

/-- The rows above a complete row of subtrees end in the subtree over all of them. -/
theorem collapse_row {l h i : ℕ} (hn : (i + 1) * 2 ^ (l + h) ≤ D.length) :
    collapse (row D l (i * 2 ^ h) (2 ^ h)) = [subtree D (l + h) i] := by
  induction h generalizing l with
  | zero => rw [collapse, if_neg (by simp), pow_zero, mul_one, Rfc.row_one, Nat.add_zero]
  | succ h ih =>
    have hpos := Nat.two_pow_pos h
    have hle : (i * 2 ^ h + 2 ^ h) * 2 ^ (l + 1) ≤ D.length := by
      have e : (i * 2 ^ h + 2 ^ h) * 2 ^ (l + 1) = (i + 1) * 2 ^ (l + (h + 1)) := by ring
      omega
    rw [collapse, if_pos (by rw [Rfc.length_row, pow_succ]; omega), pow_succ', mul_left_comm,
      pairUp_row hle, ih (by rw [show l + 1 + h = l + (h + 1) by omega]; exact hn),
      show l + 1 + h = l + (h + 1) by omega]

theorem tryReadTileHash_returns {l i : ℕ} (h : (i + 1) * 2 ^ l ≤ D.length)
    (hn : D.length ≤ i64Max) :
    (tryReadTileHash l i D.length).Returns (TileAnswers D) (· = .ok (subtree D l i)) := by
  have hl := level_le hn h
  have hw : tileWidth = 2 ^ (8 - l % 8) * 2 ^ (l % 8) := by
    rw [← pow_add, show 8 - l % 8 + l % 8 = 8 by omega]; rfl
  have hpos := Nat.two_pow_pos (l % 8)
  have hl8 : 2 ^ l = 2 ^ (l % 8) * 2 ^ (8 * (l / 8)) := by rw [← pow_add, Nat.mod_add_div]
  -- the row of the node's children in the tile
  have hrow : i * 2 ^ (l % 8) + 2 ^ (l % 8) ≤ D.length / 2 ^ (8 * (l / 8)) := by
    rw [Nat.le_div_iff_mul_le (Nat.two_pow_pos _), ← Nat.succ_mul, mul_assoc, ← hl8]
    exact h
  have hoff : i * 2 ^ (l % 8) % tileWidth + 2 ^ (l % 8) ≤ tileWidth := by
    have hlt := Nat.mod_lt i (Nat.two_pow_pos (8 - l % 8))
    rw [hw, Nat.mul_mod_mul_right, ← Nat.succ_mul]
    exact Nat.mul_le_mul_right _ hlt
  have hdiv := Nat.div_add_mod (i * 2 ^ (l % 8)) tileWidth
  have hsize : i * 2 ^ (l % 8) < 2 ^ 64 := by
    have := Nat.div_le_self D.length (2 ^ (8 * (l / 8)))
    unfold i64Max at hn
    omega
  rw [tryReadTileHash, checkedShl_ok (by omega) hsize]
  simp only [Prog.ofExcept_ok, Prog.bind_eq, Prog.pure_bind]
  refine returns_bind_ok (readTile_returns (by omega) (by omega) rfl) ?_
  rintro _ ⟨tile, rfl, ht⟩
  have hnodes : ∀ j, j < i * 2 ^ (l % 8) % tileWidth + 2 ^ (l % 8) → tile.nodes[j]? =
      some (subtree D (8 * (l / 8)) (tileWidth * (i * 2 ^ (l % 8) / tileWidth) + j)) :=
    fun j hj => ht j (by unfold rowWidth; omega)
  have hlen := (List.getElem?_eq_some_iff.mp
    (hnodes (i * 2 ^ (l % 8) % tileWidth + 2 ^ (l % 8) - 1) (by omega))).1
  dsimp only
  rw [if_neg (by omega), Rfc.row_of_getElem hnodes, hdiv,
    collapse_row (by rw [show 8 * (l / 8) + l % 8 = l by omega]; exact h),
    show 8 * (l / 8) + l % 8 = l by omega]
  exact rfl

/-- The hash of a range of leaves is the tree hash of the range. -/
theorem computeSubtreeHash_returns {a b : ℕ} (hab : a < b) (hb : b ≤ D.length)
    (hn : D.length ≤ i64Max) :
    (computeSubtreeHash a b D.length).Returns (TileAnswers D)
      (· = .ok (rangeHash D a (b - a))) := by
  induction hc : b - a using Nat.strong_induction_on generalizing a b with
  | h c ih =>
    subst hc
    rw [computeSubtreeHash, if_neg (by omega), if_neg (by omega)]
    split_ifs with h1 hp
    · rw [h1]
      exact readLeafHash_returns (by omega) hn
    · obtain ⟨l, hl⟩ := isPowerOfTwo_iff.mp hp.1
      have hdvd := Nat.div_add_mod a (b - a)
      rw [hl] at hp hdvd ⊢
      simp only [trailingZeros_pow]
      rw [Rfc.rangeHash_aligned D hp.2]
      exact tryReadTileHash_returns (by rw [Nat.succ_mul, mul_comm]; omega) hn
    · have hk := Rfc.split_lt (n := b - a) (by omega)
      have hpos := Rfc.split_pos (b - a)
      have hpow : largestPowerOf2LessThan (b - a) =
          (.ok (split (b - a)) : Except (Fault Error) ℕ) :=
        largestPowerOf2LessThan_eq (by omega) (by unfold i64Max at hn; omega)
      split
      · simp_all
      · rename_i k hk'
        obtain rfl : split (b - a) = k := by simpa [hpow] using hk'
        refine returns_bind_ok (P := (· = rangeHash D a (split (b - a)))) ?_ ?_
        · have := ih _ (by omega) (show a < a + split (b - a) by omega) (by omega) rfl
          rw [Nat.add_sub_cancel_left] at this
          exact Concurrent.Prog.returns_mono (fun x hx => ⟨_, hx, rfl⟩) this
        rintro _ rfl
        refine returns_bind_ok (P := (· = rangeHash D (a + split (b - a)) (b - a - split (b - a))))
          ?_ ?_
        · have := ih _ (by omega) (show a + split (b - a) < b by omega) (by omega) rfl
          rw [show b - (a + split (b - a)) = b - a - split (b - a) by omega] at this
          exact Concurrent.Prog.returns_mono (fun x hx => ⟨_, hx, rfl⟩) this
        rintro _ rfl
        rw [Rfc.rangeHash_split (by omega) (by omega)]
        exact rfl

/-- Sequencing after a subtree hash. -/
theorem computeSubtreeHash_bind {α : Type} {a b : ℕ} (hab : a < b) (hb : b ≤ D.length)
    (hn : D.length ≤ i64Max) {f : H → TileReader H α} {Q : Except (Fault Error) α → Prop}
    (h : (f (rangeHash D a (b - a))).Returns (TileAnswers D) Q) :
    (Prog.bind (computeSubtreeHash a b D.length) f).Returns (TileAnswers D) Q := by
  rw [Prog.returns_bind]
  refine Prog.returns_mono ?_ (computeSubtreeHash_returns hab hb hn)
  rintro _ rfl
  exact h

/-! ### Consistency proofs -/

theorem siblingHash_returns {a c : ℕ} (ha : a < D.length) (hc : 0 < c) (hc' : c ≤ i64Max)
    (hn : D.length ≤ i64Max) :
    (siblingHash a c D.length).Returns (TileAnswers D)
      (· = .ok [rangeHash D a (min (a + c) D.length - a)]) := by
  unfold i64Max at *
  rw [siblingHash, if_pos ha, checkedAdd_ok (by omega)]
  exact computeSubtreeHash_bind (by omega) (by omega) hn rfl

/-- The siblings from a level up are the proof for the power of two at that level. -/
theorem pathSiblings_returns {l : ℕ} (hl : l ≤ 63) (hn : D.length ≤ i64Max) :
    (pathSiblings D.length l 0).Returns (TileAnswers D)
      (· = .ok (if 2 ^ l ≤ D.length then Rfc.proof (2 ^ l) D else [])) := by
  induction hk : 63 - l generalizing l with
  | zero =>
    obtain rfl : l = 63 := by omega
    unfold i64Max at hn
    rw [pathSiblings, if_neg (by omega), if_neg (by omega), if_neg (by omega)]
    exact rfl
  | succ k ih =>
    have hpos := Nat.two_pow_pos l
    have hp62 : 2 ^ l ≤ 2 ^ 62 := Nat.pow_le_pow_right (by omega) (by omega)
    rw [pathSiblings, if_neg (show ¬ l ≥ 64 by omega)]
    by_cases h : 2 ^ l < D.length
    · have hcons := Rfc.subproof_pow_cons (D := D) le_rfl h
      rw [Rfc.seg_zero_length] at hcons
      rw [if_pos h, if_pos h.le]
      simp only [show 0 ^^^ 1 = 1 from rfl, checkedMul_ok (show 1 * 2 ^ l < 2 ^ 64 by omega),
        one_mul, Prog.ofExcept_ok, Prog.bind_eq, Prog.pure_bind]
      refine returns_bind_ok (P := (· = _)) (Prog.returns_mono (fun x hx => ⟨_, hx, rfl⟩)
        (siblingHash_returns h hpos (by unfold i64Max; omega) hn)) ?_
      rintro _ rfl
      refine returns_bind_ok (P := (· = _)) (Prog.returns_mono (fun x hx => ⟨_, hx, rfl⟩)
        (ih (by omega) (by omega))) ?_
      rintro _ rfl
      rw [Rfc.proof, hcons, show 2 ^ l + 2 ^ l = 2 ^ (l + 1) by ring]
      exact rfl
    · rw [if_neg h]
      split_ifs with hle
      · obtain he : 2 ^ l = D.length := by omega
        rw [he, Rfc.proof_self]
        exact rfl
      · exact rfl

theorem subproof_eq_left {m n base treeSize : ℕ} (hn : 2 ≤ n) (hn' : n ≤ 2 ^ 64) (hne : m ≠ n)
    (hm : m ≤ split n) (complete : Bool) (proof : List H) :
    subproof m n base treeSize complete proof =
      (subproof m (split n) base treeSize complete proof).bind fun (leftHash, proof) =>
        (computeSubtreeHash (base + split n) (base + n) treeSize).bind fun rightHash =>
          .pure (hashChildren leftHash rightHash, proof ++ [rightHash]) := by
  rw [subproof, if_neg hne, if_neg (by omega)]
  split
  · simp_all [largestPowerOf2LessThan_eq hn hn']
  · rename_i k hk
    obtain rfl : split n = k := by simpa [largestPowerOf2LessThan_eq hn hn'] using hk
    rw [if_pos hm]
    rfl

theorem subproof_eq_right {m n base treeSize : ℕ} (hn : 2 ≤ n) (hn' : n ≤ 2 ^ 64) (hne : m ≠ n)
    (hm : split n < m) (complete : Bool) (proof : List H) :
    subproof m n base treeSize complete proof =
      (computeSubtreeHash base (base + split n) treeSize).bind fun leftHash =>
        (subproof (m - split n) (n - split n) (base + split n) treeSize false proof).bind fun
          (rightHash, proof) =>
          .pure (hashChildren leftHash rightHash, proof ++ [leftHash]) := by
  have hpos := Rfc.split_pos n
  rw [subproof, if_neg hne, if_neg (by omega)]
  split
  · simp_all [largestPowerOf2LessThan_eq hn hn']
  · rename_i k hk
    obtain rfl : split n = k := by simpa [largestPowerOf2LessThan_eq hn hn'] using hk
    rw [if_neg (by omega), if_neg (by omega)]
    rfl

theorem subproof_returns {m n : ℕ} (base : ℕ) (h : base + n ≤ D.length) (hm : 0 < m) (hmn : m ≤ n)
    (hn : D.length ≤ i64Max) (complete : Bool) (proof : List H) :
    (subproof m n base D.length complete proof).Returns (TileAnswers D)
      (· = .ok (rangeHash D base n, proof ++ Rfc.subproof m (seg D base n) complete)) := by
  have hn' : n ≤ 2 ^ 64 := by unfold i64Max at hn; omega
  induction n using Nat.strong_induction_on generalizing base m complete with
  | h n ih =>
    by_cases he : m = n
    · subst he
      rw [subproof, if_pos rfl, Rfc.subproof_seg_self h]
      refine computeSubtreeHash_bind (by omega) (by omega) hn ?_
      rw [Nat.add_sub_cancel_left]
      cases complete
      · exact rfl
      · exact congrArg Except.ok (by simp)
    · have hk := Rfc.split_lt (n := n) (by omega)
      have hpos := Rfc.split_pos n
      rw [Rfc.rangeHash_split (c := n) (by omega) h]
      by_cases hmk : m ≤ split n
      · rw [subproof_eq_left (by omega) hn' he hmk, Rfc.subproof_seg_left h (by omega) hmk,
          ← List.append_assoc]
        refine returns_bind_ok (P := (· = _)) (Prog.returns_mono (fun x hx => ⟨_, hx, rfl⟩)
          (ih _ hk base (by omega) hm hmk complete (by omega))) ?_
        rintro _ rfl
        refine computeSubtreeHash_bind (by omega) (by omega) hn ?_
        rw [show base + n - (base + split n) = n - split n by omega]
        exact rfl
      · rw [subproof_eq_right (by omega) hn' he (by omega),
          Rfc.subproof_seg_right h (by omega) (by omega), ← List.append_assoc]
        refine computeSubtreeHash_bind (by omega) (by omega) hn ?_
        refine returns_bind_ok (P := (· = _)) (Prog.returns_mono (fun x hx => ⟨_, hx, rfl⟩)
          (ih _ (show n - split n < n by omega) (base + split n) (by omega) (by omega) (by omega)
            false (by omega))) ?_
        rintro _ rfl
        rw [Nat.add_sub_cancel_left]
        exact rfl

/-- The generator returns the proof of the standard. -/
theorem generateConsistencyProofSimple_returns {m : ℕ} (hm : 0 < m) (hmn : m ≤ D.length)
    (hn : D.length ≤ i64Max) :
    (generateConsistencyProofSimple m D.length).Returns (TileAnswers D)
      (· = .ok (Rfc.proof m D)) := by
  rw [generateConsistencyProofSimple]
  split_ifs with h h'
  · obtain rfl : m = D.length := by omega
    rw [Rfc.proof_self]
    exact rfl
  · omega
  rw [proofNodes]
  split_ifs with hp
  · obtain ⟨l, rfl⟩ := isPowerOfTwo_iff.mp hp
    rw [trailingZeros_pow]
    have hl := level_le (D := D) (i := 0) (l := l) hn (by omega)
    have := pathSiblings_returns (D := D) (l := l) (by omega) hn
    rwa [if_pos hmn] at this
  · refine returns_bind_ok (P := (· = _)) (Prog.returns_mono (fun x hx => ⟨_, hx, rfl⟩)
      (subproof_returns 0 (by omega) hm hmn hn true [])) ?_
    rintro _ rfl
    rw [Rfc.seg_zero_length]
    exact rfl

theorem length_proof_le {m : ℕ} (hm : 0 < m) (hmn : m ≤ D.length) (hn : D.length ≤ i64Max) :
    (Rfc.proof m D).length ≤ 64 :=
  Rfc.proof_length_le (d := 63) hm hmn (by unfold i64Max at hn; omega)

/-- Over a store that is right for the size, generation succeeds with the proof of
the standard, which fits into a request and which verification accepts. -/
theorem generateConsistencyProof_complete [DecidableEq H] {m : ℕ} (hm : 1 ≤ m) (hmn : m ≤ D.length)
    (hn : D.length ≤ i64Max) (store : (o : ReadTile) → o.Answer H)
    (hstore : ∀ o, TileAnswers D o (store o)) :
    ∃ p, (generateConsistencyProofSimple m D.length).eval store = .ok p ∧ p = Rfc.proof m D ∧
      p.length ≤ 64 ∧
      Witness.verifyConsistency m D.length (mth (D.take m)) (mth D) p = .ok () :=
  ⟨_, Prog.returns_eval hstore (generateConsistencyProofSimple_returns hm hmn hn), rfl,
    length_proof_le hm hmn hn, Witness.verifyConsistency_complete hmn hn hm⟩

/-- A tree of five leaves, in a store of one partial tile. -/
theorem generateConsistencyProof_complete_five :
    let D : List FreeHash := [[1], [2], [3], [4], [5]].map hashLeaf
    let store : (o : ReadTile) → o.Answer FreeHash := fun _ => some ⟨D⟩
    ∃ p, (generateConsistencyProofSimple 3 5).eval store = .ok p ∧ p = Rfc.proof 3 D ∧
      p.length ≤ 64 ∧
      Witness.verifyConsistency 3 5 (mth (D.take 3)) (mth D) p = .ok () := by
  intro D store
  have hstore : ∀ o, TileAnswers D o (store o) := by
    rintro ⟨level, index, part⟩ h -
    have hlen : D.length = 5 := rfl
    have hle : level = 0 := by
      by_contra hl
      have h256 : 2 ^ 8 ≤ 2 ^ (8 * level) := Nat.pow_le_pow_right (by omega) (by omega)
      rw [hlen, Nat.div_eq_of_lt (by omega)] at h
      omega
    subst hle
    rw [mul_zero, pow_zero, Nat.div_one, hlen, tileWidth_eq] at h
    obtain rfl : index = 0 := by omega
    refine ⟨⟨D⟩, rfl, ?_⟩
    intro j hj
    have hj5 : j < D.length := by
      rw [rowWidth, mul_zero, pow_zero, Nat.div_one, hlen] at hj
      omega
    rw [mul_zero, mul_zero, Nat.zero_add]
    rw [Rfc.subtree_zero (List.getElem?_eq_getElem hj5)]
    exact List.getElem?_eq_getElem hj5
  exact generateConsistencyProof_complete (D := D) (by omega) (by decide) (by decide) store hstore

/-! ### Inclusion proofs -/

theorem subtreeHashes_returns {ranges : List (ℕ × ℕ)} (h : ∀ r ∈ ranges, r.1 < r.2 ∧ r.2 ≤ D.length)
    (hn : D.length ≤ i64Max) :
    (subtreeHashes D.length ranges).Returns (TileAnswers D)
      (· = .ok (ranges.map fun r => rangeHash D r.1 (r.2 - r.1))) := by
  induction ranges with
  | nil => exact rfl
  | cons r ranges ih =>
    obtain ⟨hr, hr'⟩ := h r (by simp)
    refine computeSubtreeHash_bind hr hr' hn ?_
    refine returns_bind_ok (P := (· = _)) (Prog.returns_mono (fun x hx => ⟨_, hx, rfl⟩)
      (ih fun r hr => h r (by simp [hr]))) ?_
    rintro _ rfl
    exact rfl

/-- The ranges split off on the way to a leaf are those of its audit path. -/
theorem siblingRanges_eq {i a b : ℕ} (hi : a ≤ i) (hi' : i < b) (hb : b ≤ D.length)
    (hn : D.length ≤ i64Max) :
    ∃ ranges, siblingRanges i a b = .ok ranges ∧ (∀ r ∈ ranges, r.1 < r.2 ∧ r.2 ≤ D.length) ∧
      (ranges.reverse.map fun r => rangeHash D r.1 (r.2 - r.1)) =
        Rfc.path (i - a) (seg D a (b - a)) := by
  induction hc : b - a using Nat.strong_induction_on generalizing a b with
  | h c ih =>
    subst hc
    have hlen : (seg D a (b - a)).length = b - a := Rfc.seg_length (by omega)
    rw [siblingRanges]
    split_ifs with h
    · have hk := Rfc.split_lt (n := b - a) (by omega)
      have hpos := Rfc.split_pos (b - a)
      have hpow : largestPowerOf2LessThan (b - a) =
          (.ok (split (b - a)) : Except (Fault Error) ℕ) :=
        largestPowerOf2LessThan_eq (by omega) (by unfold i64Max at hn; omega)
      rw [Rfc.path_split _ (by omega), hlen, Rfc.seg_take hk.le, Rfc.seg_drop]
      split
      · simp_all
      rename_i k hk'
      obtain rfl : split (b - a) = k := by simpa [hpow] using hk'
      by_cases hlt : i < a + split (b - a)
      · obtain ⟨ranges, hr, hr', hmap⟩ := ih _ (by omega) hi hlt (by omega) rfl
        rw [if_pos hlt, if_pos (by omega), hr]
        refine ⟨_, rfl, ?_, ?_⟩
        · rintro r hmem
          rcases List.mem_cons.mp hmem with rfl | hmem
          · exact ⟨by dsimp only; omega, hb⟩
          · exact hr' r hmem
        · rw [List.reverse_cons, List.map_append, hmap, Nat.add_sub_cancel_left]
          simp only [List.map_cons, List.map_nil]
          rw [show b - (a + split (b - a)) = b - a - split (b - a) by omega]
          rfl
      · obtain ⟨ranges, hr, hr', hmap⟩ :=
          ih _ (show b - (a + split (b - a)) < b - a by omega) (by omega) hi' hb rfl
        rw [if_neg hlt, if_neg (by omega), hr]
        refine ⟨_, rfl, ?_, ?_⟩
        · rintro r hmem
          rcases List.mem_cons.mp hmem with rfl | hmem
          · exact ⟨by dsimp only; omega, by dsimp only; omega⟩
          · exact hr' r hmem
        · rw [List.reverse_cons, List.map_append, hmap]
          simp only [List.map_cons, List.map_nil]
          rw [Nat.add_sub_cancel_left,
            show i - (a + split (b - a)) = i - a - split (b - a) by omega,
            show b - (a + split (b - a)) = b - a - split (b - a) by omega]
          rfl
    · refine ⟨[], rfl, by simp, ?_⟩
      obtain ⟨x, hx⟩ := List.length_eq_one_iff.mp (show (seg D a (b - a)).length = 1 by omega)
      rw [hx, Rfc.path_singleton]
      rfl

/-- The generator returns the audit path. -/
theorem generateInclusionProof_returns {i : ℕ} (hi : i < D.length) (hn : D.length ≤ i64Max) :
    (generateInclusionProof i D.length).Returns (TileAnswers D) (· = .ok (Rfc.path i D)) := by
  obtain ⟨ranges, hr, hr', hmap⟩ := siblingRanges_eq (D := D) (Nat.zero_le i) hi le_rfl hn
  rw [Nat.sub_zero, Nat.sub_zero, Rfc.seg_zero_length] at hmap
  rw [generateInclusionProof, if_neg (by omega), hr, ← hmap]
  exact subtreeHashes_returns (fun r h => hr' r (List.mem_reverse.mp h)) hn

end Siglog.Merkle

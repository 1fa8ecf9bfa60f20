import Siglog.Merkle.Integrate
import Siglog.Merkle.ProofCorrect
import Mathlib.Data.Nat.Bitwise

/-! The compact range. Its entry at a level is the complete subtree that the bit
of the size at that level stands for. Appending a leaf is binary increment: the
merging loop runs over the trailing ones. -/

namespace Siglog.Merkle

open Concurrent (Prog)
open Concurrent.Prog (returns_bind_ok Returns)
open Api (tileHeight tileWidth tileWidth_eq partialTileSize)
open Rfc (mth rangeHash subtree combine)

/-! ### Carries -/

theorem half_odd {q : ℕ} (h : q % 2 = 1) : q / 2 * 2 = q - 1 ∧ 2 * (q / 2) = q - 1 ∧
    q - 1 + 1 = q := by omega

theorem half_even {q : ℕ} (h : ¬ q % 2 = 1) : q / 2 * 2 = q ∧ q % 2 = 0 := by omega

section Carry

variable {a l : ℕ}

theorem ones_succ (h : a % 2 ^ l + 1 = 2 ^ l) (hodd : a / 2 ^ l % 2 = 1) :
    a % 2 ^ (l + 1) + 1 = 2 ^ (l + 1) := by
  rw [pow_succ, Nat.mod_mul, hodd]
  omega

theorem ones_div (h : a % 2 ^ l + 1 = 2 ^ l) {j : ℕ} (hj : j ≤ l) :
    (a / 2 ^ j + 1) * 2 ^ j = a + 1 := by
  have hdvd : a % 2 ^ j + 1 = 2 ^ j := by
    have hpos := Nat.two_pow_pos j
    have hlt := Nat.mod_lt a hpos
    have h1 : (a + 1) % 2 ^ l = 0 := by
      rw [Nat.add_mod, show a % 2 ^ l = 2 ^ l - 1 by omega]
      rcases Nat.eq_zero_or_pos l with rfl | hl
      · exact Nat.mod_one _
      · have : 2 ≤ 2 ^ l := by simpa using Nat.pow_le_pow_right (show 0 < 2 by omega) hl
        rw [Nat.mod_eq_of_lt (show 1 < 2 ^ l by omega), show 2 ^ l - 1 + 1 = 2 ^ l by
            omega, Nat.mod_self]
    have h2 : (a + 1) % 2 ^ j = 0 :=
      Nat.mod_eq_zero_of_dvd ((Nat.pow_dvd_pow 2 hj).trans (Nat.dvd_of_mod_eq_zero h1))
    by_contra hne
    have h3 := Nat.add_mod a 1 (2 ^ j)
    rcases Nat.lt_or_ge (a % 2 ^ j + 1) (2 ^ j) with hlt' | hge
    · rw [h2, Nat.mod_eq_of_lt (show 1 < 2 ^ j by omega), Nat.mod_eq_of_lt hlt'] at h3
      omega
    · omega
  have := Nat.div_add_mod a (2 ^ j)
  rw [Nat.succ_mul, mul_comm]
  omega

/-- The size after a carry that stops at level `l`. -/
theorem carry_form (h : a % 2 ^ l + 1 = 2 ^ l) (heven : a / 2 ^ l % 2 = 0) :
    a + 1 = 2 ^ l * (2 * (a / 2 ^ (l + 1)) + 1) := by
  have h₁ := ones_div h le_rfl
  have h₂ : a / 2 ^ l = 2 * (a / 2 ^ (l + 1)) := by
    rw [pow_succ, ← Nat.div_div_eq_div_mul]
    omega
  rw [← h₁, h₂, mul_comm]

theorem carry_lt (h : a % 2 ^ l + 1 = 2 ^ l) (heven : a / 2 ^ l % 2 = 0) {j : ℕ} (hj : j < l) :
    (a + 1) / 2 ^ j % 2 = 0 := by
  obtain ⟨d, rfl⟩ : ∃ d, l = j + 1 + d := ⟨l - (j + 1), by omega⟩
  rw [carry_form h heven, pow_add, pow_succ, mul_assoc, mul_assoc,
    Nat.mul_div_cancel_left _ (Nat.two_pow_pos j), Nat.mul_mod_right]

theorem carry_eq (h : a % 2 ^ l + 1 = 2 ^ l) : (a + 1) / 2 ^ l = a / 2 ^ l + 1 := by
  rw [← ones_div h le_rfl, Nat.mul_div_cancel _ (Nat.two_pow_pos l)]

theorem carry_gt (h : a % 2 ^ l + 1 = 2 ^ l) (heven : a / 2 ^ l % 2 = 0) {j : ℕ} (hj : l < j) :
    (a + 1) / 2 ^ j = a / 2 ^ j := by
  obtain ⟨d, rfl⟩ : ∃ d, j = l + 1 + d := ⟨j - (l + 1), by omega⟩
  have hstep : (a + 1) / 2 ^ (l + 1) = a / 2 ^ (l + 1) := by
    rw [pow_succ, ← Nat.div_div_eq_div_mul, ← Nat.div_div_eq_div_mul, carry_eq h]
    omega
  rw [pow_add, ← Nat.div_div_eq_div_mul, hstep, Nat.div_div_eq_div_mul]

/-- The carry stops at the largest power of two that divides the new size. -/
theorem carry_le (h : a % 2 ^ l + 1 = 2 ^ l) (heven : a / 2 ^ l % 2 = 0) {j : ℕ}
    (hj : 2 ^ j ∣ a + 1) : j ≤ l := by
  by_contra hlt
  have hdvd : 2 ^ (l + 1) ∣ 2 ^ l * (2 * (a / 2 ^ (l + 1)) + 1) := by
    rw [← carry_form h heven]
    exact (Nat.pow_dvd_pow 2 (by omega)).trans hj
  rw [pow_succ, Nat.mul_dvd_mul_iff_left (Nat.two_pow_pos l)] at hdvd
  omega

end Carry

variable {H : Type} [Sha256Hash H] {D X : List H}

/-- The compact range of the tree over `X`. -/
def RangeOf (X : List H) (range : List (Option H)) : Prop :=
  ∀ j, range[j]?.join = if X.length / 2 ^ j % 2 = 1 then some (subtree X j (X.length / 2 ^ j - 1))
    else none

omit [Sha256Hash H] in
theorem setRange_join (range : List (Option H)) (level : ℕ) (hash : H) (j : ℕ) :
    (setRange range level hash)[j]?.join = if j = level then some hash else range[j]?.join := by
  unfold setRange
  by_cases h : j = level
  · subst h
    rw [if_pos rfl,
      List.getElem?_set_self (by rw [List.length_append, List.length_replicate]; omega)]
    rfl
  · rw [if_neg h, List.getElem?_set_ne (Ne.symm h)]
    rcases Nat.lt_or_ge j range.length with hlt | hge
    · rw [List.getElem?_append_left hlt]
    · rw [List.getElem?_append_right hge, List.getElem?_eq_none hge, List.getElem?_replicate]
      split_ifs <;> rfl

/-! ### Loading -/

omit [Sha256Hash H] in
theorem integratePartialSize_eq {level : ℕ} (h : level ≤ 7) (index size : ℕ) :
    integratePartialSize level index size = partialTileSize level index size := by
  rw [partialTileSize_eq h, integratePartialSize, tileHeight, mul_comm level]

/-- Every leaf tile of the tree over `D` is there and right. -/
def LeafAnswers (D : List H) (o : ReadTile) (answer : o.Answer H) : Prop :=
  ∀ index part, o = ⟨0, index, part⟩ → TileAnswers D ⟨0, index, part⟩ answer

theorem leafAnswers_of_tileAnswers {o : ReadTile} {answer : o.Answer H}
    (h : TileAnswers D o answer) :
    LeafAnswers D o answer := by
  rintro index part rfl
  exact h

/-- A node is computed from the leaves alone. -/
theorem computeNodeHash_returns {l i : ℕ} (h : (i + 1) * 2 ^ l ≤ D.length) :
    (computeNodeHash D.length l i : TileReader H H).Returns (LeafAnswers D)
      (· = .ok (subtree D l i)) := by
  induction l generalizing i with
  | zero =>
    rw [pow_zero, mul_one] at h
    have hrow : tileWidth * (i / tileWidth) < D.length / 2 ^ (8 * 0) := by
      rw [mul_zero, pow_zero, Nat.div_one, tileWidth_eq]
      omega
    have hco : nodeToTileCoords 0 i = (⟨0, i / tileWidth⟩, (0, i % tileWidth)) := rfl
    rw [computeNodeHash, hco]
    dsimp only
    rw [integratePartialSize_eq (by omega)]
    rw [readTile, if_neg (by omega)]
    intro answer hanswer
    obtain ⟨tile, rfl, ht⟩ := hanswer _ _ rfl hrow rfl
    have hj := ht (i % tileWidth) (by
      rw [rowWidth, mul_zero, pow_zero, Nat.div_one, tileWidth_eq]
      omega)
    rw [Nat.div_add_mod] at hj
    simp only [Prog.pure_bind, hj]
    exact rfl
  | succ l ih =>
    have e₁ : (i * 2 + 1 + 1) * 2 ^ l = (i + 1) * 2 ^ (l + 1) := by ring
    have hle : (i * 2 + 1) * 2 ^ l ≤ (i * 2 + 1 + 1) * 2 ^ l := Nat.mul_le_mul_right _ (by omega)
    rw [computeNodeHash]
    refine returns_bind_ok (P := (· = _))
      (Prog.returns_mono (fun x hx => ⟨_, hx, rfl⟩) (ih (by omega))) ?_
    rintro _ rfl
    refine returns_bind_ok (P := (· = _))
      (Prog.returns_mono (fun x hx => ⟨_, hx, rfl⟩) (ih (by omega))) ?_
    rintro _ rfl
    rw [Rfc.subtree_succ h, mul_comm i 2]
    exact rfl

theorem loadRangeNodes_append (size : ℕ) (nodes nodes' : List (ℕ × ℕ)) (range : List (Option H)) :
    loadRangeNodes size (nodes ++ nodes') range =
      (loadRangeNodes size nodes range).bind (loadRangeNodes size nodes') := by
  induction nodes generalizing range with
  | nil => rfl
  | cons node nodes ih =>
    simp only [List.cons_append, loadRangeNodes, Prog.bind_eq, Prog.bind_assoc, ih]

theorem and_pow_ne_zero {a l : ℕ} : a &&& 2 ^ l ≠ 0 ↔ a / 2 ^ l % 2 = 1 := by
  rw [Nat.and_two_pow, Nat.testBit_eq_decide_div_mod_eq]
  by_cases h : a / 2 ^ l % 2 = 1 <;> simp [h]

/-- One level of the compact range: the nodes above it reach to its last complete subtree. -/
theorem rangeNodesBelow_succ (n level : ℕ) :
    rangeNodesBelow n (level + 1) (n / 2 ^ (level + 1) * 2 ^ (level + 1)) =
      if n / 2 ^ level % 2 = 1 then
        (level, n / 2 ^ level - 1) :: rangeNodesBelow n level (n / 2 ^ level * 2 ^ level)
      else rangeNodesBelow n level (n / 2 ^ level * 2 ^ level) := by
  have hdiv : n / 2 ^ (level + 1) = n / 2 ^ level / 2 := by rw [pow_succ, Nat.div_div_eq_div_mul]
  rw [rangeNodesBelow]
  by_cases h : n / 2 ^ level % 2 = 1
  · have hcum : n / 2 ^ (level + 1) * 2 ^ (level + 1) = (n / 2 ^ level - 1) * 2 ^ level := by
      rw [hdiv, pow_succ', ← mul_assoc, (half_odd h).1]
    have hsucc : (n / 2 ^ level - 1) * 2 ^ level + 2 ^ level = n / 2 ^ level * 2 ^ level := by
      rw [← Nat.succ_mul, Nat.succ_eq_add_one, (half_odd h).2.2]
    rw [if_pos (and_pow_ne_zero.mpr h), if_pos h, hcum, hsucc,
      Nat.mul_div_cancel _ (Nat.two_pow_pos level)]
  · have hcum : n / 2 ^ (level + 1) * 2 ^ (level + 1) = n / 2 ^ level * 2 ^ level := by
      rw [hdiv, pow_succ', ← mul_assoc, (half_even h).1]
    rw [if_neg (fun hb => h (and_pow_ne_zero.mp hb)), if_neg h, hcum]

theorem computeRangeNodes_eq {n : ℕ} (h0 : n ≠ 0) (hn : n < 2 ^ 64) :
    computeRangeNodes n = (rangeNodesBelow n (n.log2 + 1) 0).reverse := by
  have hlz := leadingZeros_eq h0 hn
  rw [computeRangeNodes, if_neg h0, show 63 - leadingZeros n = n.log2 by omega]

/-- Loading the nodes below a level gives the range below that level. -/
theorem loadRangeNodes_returns (level : ℕ) :
    (loadRangeNodes D.length
      (rangeNodesBelow D.length level (D.length / 2 ^ level * 2 ^ level)).reverse []).Returns
      (LeafAnswers D) (fun x => ∃ range, x = .ok range ∧ ∀ j, range[j]?.join =
        if j < level ∧ D.length / 2 ^ j % 2 = 1 then some (subtree D j (D.length / 2 ^ j - 1))
        else none) := by
  induction level with
  | zero => exact ⟨[], rfl, fun j => by simp⟩
  | succ level ih =>
    rw [rangeNodesBelow_succ]
    by_cases h : D.length / 2 ^ level % 2 = 1
    · have hle : (D.length / 2 ^ level - 1 + 1) * 2 ^ level ≤ D.length := by
        rw [(half_odd h).2.2]
        exact Nat.div_mul_le_self _ _
      rw [if_pos h, List.reverse_cons, loadRangeNodes_append]
      refine returns_bind_ok ih ?_
      rintro range hrange
      refine returns_bind_ok (P := (· = _)) (Prog.returns_mono (fun x hx => ⟨_, hx, rfl⟩)
        (computeNodeHash_returns hle)) ?_
      rintro _ rfl
      refine ⟨_, rfl, fun j => ?_⟩
      rw [setRange_join, hrange]
      by_cases hj : j = level
      · subst hj
        simp [h]
      · rw [if_neg hj]
        congr 1
        simp only [eq_iff_iff]
        constructor <;> rintro ⟨h₁, h₂⟩ <;> exact ⟨by omega, h₂⟩
    · rw [if_neg h]
      refine Prog.returns_mono ?_ ih
      rintro _ ⟨range, rfl, hrange⟩
      refine ⟨range, rfl, fun j => ?_⟩
      rw [hrange]
      congr 1
      simp only [eq_iff_iff]
      constructor
      · rintro ⟨h₁, h₂⟩
        exact ⟨by omega, h₂⟩
      · rintro ⟨h₁, h₂⟩
        refine ⟨?_, h₂⟩
        rcases Nat.lt_succ_iff_lt_or_eq.mp h₁ with h₃ | rfl
        · exact h₃
        · exact absurd h₂ h

theorem startRange_returns (hn : D.length < 2 ^ 64) :
    (TreeBuilder.startRange D.length).Returns (LeafAnswers D)
      (fun x => ∃ range, x = .ok range ∧ RangeOf D range) := by
  rw [TreeBuilder.startRange]
  split_ifs with h0
  · exact ⟨[], rfl, fun j => by simp [h0]⟩
  have hlog := Nat.lt_log2_self (n := D.length)
  have hload := loadRangeNodes_returns (D := D) (D.length.log2 + 1)
  rw [Nat.div_eq_of_lt hlog, Nat.zero_mul] at hload
  rw [loadCompactRange, computeRangeNodes_eq h0 hn]
  refine Prog.returns_mono ?_ hload
  rintro _ ⟨range, rfl, hrange⟩
  refine ⟨range, rfl, fun j => ?_⟩
  rw [hrange]
  congr 1
  simp only [eq_iff_iff, and_iff_right_iff_imp]
  intro hj
  by_contra hge
  have hpow : 2 ^ (D.length.log2 + 1) ≤ 2 ^ j := Nat.pow_le_pow_right (by omega) (by omega)
  rw [Nat.div_eq_of_lt (hlog.trans_le hpow)] at hj
  omega

/-! ### The root -/

open TreeBuilder (bag)

/-- What the chaining has reached below a level. -/
theorem bag_take {range : List (Option H)} (hr : RangeOf X range) {l : ℕ} (hl : l ≤ range.length) :
    ((range.take l).filterMap fun h => h).foldl bag none =
      if X.length % 2 ^ l = 0 then none
      else some (rangeHash X (X.length / 2 ^ l * 2 ^ l) (X.length % 2 ^ l)) := by
  induction l with
  | zero => simp [Nat.mod_one]
  | succ l ih =>
    have hpos := Nat.two_pow_pos l
    have hlt := Nat.mod_lt X.length hpos
    have hdm := Nat.div_add_mod X.length (2 ^ l)
    have hget := hr l
    have hdiv : X.length / 2 ^ (l + 1) = X.length / 2 ^ l / 2 := by
      rw [pow_succ, Nat.div_div_eq_div_mul]
    have hmod : X.length % 2 ^ (l + 1) = X.length % 2 ^ l + 2 ^ l * (X.length / 2 ^ l % 2) := by
      rw [pow_succ, Nat.mod_mul]
    rw [List.getElem?_eq_getElem (by omega), Option.join_some] at hget
    rw [List.take_succ_eq_append_getElem (by omega), List.filterMap_append, List.foldl_append,
      ih (by omega)]
    by_cases h : X.length / 2 ^ l % 2 = 1
    · -- a complete subtree to the left of what has been bagged
      have hstart : X.length / 2 ^ (l + 1) * 2 ^ (l + 1) = (X.length / 2 ^ l - 1) * 2 ^ l := by
        rw [hdiv, pow_succ', ← mul_assoc, (half_odd h).1]
      have hnext : (X.length / 2 ^ l - 1) * 2 ^ l + 2 ^ l = X.length / 2 ^ l * 2 ^ l := by
        rw [← Nat.succ_mul, Nat.succ_eq_add_one, (half_odd h).2.2]
      rw [if_pos h] at hget
      rw [h, mul_one] at hmod
      rw [if_neg (show ¬ X.length % 2 ^ (l + 1) = 0 by omega), hstart, hmod, hget]
      simp only [List.filterMap_cons, List.filterMap_nil, List.foldl_cons, List.foldl_nil]
      split_ifs with h0
      · rw [h0, Nat.zero_add]
        rfl
      · rw [mul_comm] at hdm
        rw [Nat.add_comm, Rfc.rangeHash_pow_add (by omega) hlt.le (by omega), hnext]
        rfl
    · rw [if_neg h] at hget
      have hstart : X.length / 2 ^ (l + 1) * 2 ^ (l + 1) = X.length / 2 ^ l * 2 ^ l := by
        rw [hdiv, pow_succ', ← mul_assoc, (half_even h).1]
      rw [(half_even h).2, mul_zero, Nat.add_zero] at hmod
      rw [hstart, hmod, hget]
      rfl

/-- The root is the tree hash. -/
theorem computeRoot_eq {b : TreeBuilder H} (hsize : b.size = X.length) (h0 : 0 < X.length)
    (hr : RangeOf X b.range) :
    b.computeRoot = .ok (mth X) := by
  have hlog := Nat.lt_log2_self (n := X.length)
  -- the range reaches up to the highest bit of the size
  have hlen : X.length < 2 ^ b.range.length := by
    have htop : X.length / 2 ^ X.length.log2 = 1 := by
      have hle := Nat.log2_self_le (n := X.length) (by omega)
      rw [pow_succ] at hlog
      exact Nat.div_eq_of_lt_le (by omega) (by omega)
    have hsome := hr X.length.log2
    rw [if_pos (by rw [htop])] at hsome
    have hlt : X.length.log2 < b.range.length := by
      by_contra hge
      rw [List.getElem?_eq_none (by omega)] at hsome
      cases hsome
    exact hlog.trans_le (Nat.pow_le_pow_right (by omega) (by omega))
  have hbag := bag_take hr le_rfl
  rw [List.take_length, Nat.mod_eq_of_lt hlen, Nat.div_eq_of_lt hlen, if_neg (by omega),
    Nat.zero_mul, Rfc.rangeHash_full] at hbag
  rw [TreeBuilder.computeRoot, if_neg (by omega), hbag]

end Siglog.Merkle

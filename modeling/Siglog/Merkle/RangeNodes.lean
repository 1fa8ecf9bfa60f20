import Siglog.Merkle.IntegrateCorrect

/-! Reloading the compact range. The nodes of a size tile its leaves: one complete
subtree for each bit that is set, the larger ones in front. What is loaded from the leaf
tiles of a tree is therefore the range that appending its leaves builds, and integration
goes on from there. -/

namespace Siglog.Merkle

open Concurrent (Prog)
open Api (tileWidth_eq)
open Rfc (mth)

/-! ### Tilings -/

/-- A node is above a leaf. -/
def Covers (node : ℕ × ℕ) (k : ℕ) : Prop := node.2 * 2 ^ node.1 ≤ k ∧ k < (node.2 + 1) * 2 ^ node.1

/-- The nodes are above the leaves from `start` to `stop`, one after the other. -/
def Tiles : ℕ → List (ℕ × ℕ) → ℕ → Prop
  | start, [], stop => start = stop
  | start, node :: nodes, stop =>
    node.2 * 2 ^ node.1 = start ∧ Tiles ((node.2 + 1) * 2 ^ node.1) nodes stop

section Tilings

variable {nodes : List (ℕ × ℕ)} {node : ℕ × ℕ} {start stop k : ℕ}

theorem Tiles.le (h : Tiles start nodes stop) : start ≤ stop := by
  induction nodes generalizing start with
  | nil => exact h.le
  | cons node nodes ih =>
    obtain ⟨rfl, hrest⟩ := h
    exact (Nat.mul_le_mul_right _ (Nat.le_succ _)).trans (ih hrest)

theorem Tiles.within (h : Tiles start nodes stop) (hnode : node ∈ nodes) :
    start ≤ node.2 * 2 ^ node.1 ∧ (node.2 + 1) * 2 ^ node.1 ≤ stop := by
  induction nodes generalizing start with
  | nil => cases hnode
  | cons first nodes ih =>
    obtain ⟨rfl, hrest⟩ := h
    rcases List.mem_cons.mp hnode with rfl | hnode
    · exact ⟨le_rfl, hrest.le⟩
    · obtain ⟨hstart, hstop⟩ := ih hrest hnode
      exact ⟨(Nat.mul_le_mul_right _ (Nat.le_succ _)).trans hstart, hstop⟩

theorem Tiles.covered (h : Tiles start nodes stop) (hstart : start ≤ k) (hstop : k < stop) :
    ∃ node ∈ nodes, Covers node k := by
  induction nodes generalizing start with
  | nil =>
    have heq : start = stop := h
    omega
  | cons node nodes ih =>
    obtain ⟨rfl, hrest⟩ := h
    rcases Nat.lt_or_ge k ((node.2 + 1) * 2 ^ node.1) with hlt | hge
    · exact ⟨node, List.mem_cons_self, hstart, hlt⟩
    · obtain ⟨node', hmem, hcovers⟩ := ih hrest hge
      exact ⟨node', List.mem_cons_of_mem _ hmem, hcovers⟩

/-- No leaf is below two nodes of a tiling. -/
theorem Tiles.unique (h : Tiles start nodes stop) {node' : ℕ × ℕ} (hnode : node ∈ nodes)
    (hnode' : node' ∈ nodes) (hk : Covers node k) (hk' : Covers node' k) : node = node' := by
  induction nodes generalizing start with
  | nil => cases hnode
  | cons first nodes ih =>
    obtain ⟨-, hrest⟩ := h
    rcases List.mem_cons.mp hnode with rfl | hmem <;>
      rcases List.mem_cons.mp hnode' with rfl | hmem'
    · rfl
    · have := (hrest.within hmem').1
      have := hk.2
      have := hk'.1
      omega
    · have := (hrest.within hmem).1
      have := hk.1
      have := hk'.2
      omega
    · exact ih hrest hmem hmem'

end Tilings

/-! ### The nodes of a size -/

/-- The nodes below a level tile the leaves that do not fill a node there. -/
theorem rangeNodesBelow_tiles (n level : ℕ) :
    Tiles (n / 2 ^ level * 2 ^ level) (rangeNodesBelow n level (n / 2 ^ level * 2 ^ level)) n := by
  induction level with
  | zero => rw [pow_zero, Nat.div_one, mul_one, rangeNodesBelow, Tiles]
  | succ level ih =>
    have hdiv : n / 2 ^ (level + 1) = n / 2 ^ level / 2 := by rw [pow_succ, Nat.div_div_eq_div_mul]
    rw [rangeNodesBelow_succ]
    by_cases h : n / 2 ^ level % 2 = 1
    · rw [if_pos h, Tiles]
      constructor
      · rw [hdiv, pow_succ', ← mul_assoc, (half_odd h).1]
      · rwa [(half_odd h).2.2]
    · rwa [if_neg h, hdiv, pow_succ', ← mul_assoc, (half_even h).1]

theorem rangeNodesBelow_levels (n level : ℕ) : ∀ cumulativeLeaves,
    (rangeNodesBelow n level cumulativeLeaves).map Prod.fst =
      ((List.range level).filter fun l => n.testBit l).reverse := by
  induction level with
  | zero =>
    intro cumulativeLeaves
    rfl
  | succ level ih =>
    intro cumulativeLeaves
    have hbit : n.testBit level = decide (n / 2 ^ level % 2 = 1) := Nat.testBit_eq_decide_div_mod_eq
    rw [rangeNodesBelow, List.range_succ, List.filter_append, List.reverse_append]
    by_cases h : n / 2 ^ level % 2 = 1
    · rw [if_pos (and_pow_ne_zero.mpr h), List.map_cons, ih]
      simp [hbit, h]
    · rw [if_neg (fun hb => h (and_pow_ne_zero.mp hb)), ih]
      simp [hbit, h]

/-- The nodes are complete subtrees that partition the leaves, one for each bit of the size
that is set. -/
structure RangePartition (n : ℕ) (nodes : List (ℕ × ℕ)) : Prop where
  levels : nodes.map Prod.fst = (List.range 64).filter fun level => n.testBit level
  complete : ∀ node ∈ nodes, (node.2 + 1) * 2 ^ node.1 ≤ n
  partition : ∀ k < n, ∃! node, node ∈ nodes ∧ Covers node k

theorem computeRangeNodes_partition {n : ℕ} (h0 : n ≠ 0) (hn : n < 2 ^ 64) :
    RangePartition n (computeRangeNodes n) := by
  have hlog := Nat.lt_log2_self (n := n)
  have htiles := rangeNodesBelow_tiles n (n.log2 + 1)
  rw [Nat.div_eq_of_lt hlog, Nat.zero_mul] at htiles
  rw [computeRangeNodes_eq h0 hn]
  refine ⟨?_, fun node hnode => (htiles.within (List.mem_reverse.mp hnode)).2, fun k hk => ?_⟩
  · -- no bit is set above the highest one
    have hle : n.log2 + 1 ≤ 64 := (Nat.log2_lt h0).mpr hn
    obtain ⟨d, hd⟩ : ∃ d, 64 = n.log2 + 1 + d := ⟨64 - (n.log2 + 1), by omega⟩
    have hnone :
        ((List.range d).map (n.log2 + 1 + ·)).filter (fun level => n.testBit level) = [] := by
      rw [List.filter_eq_nil_iff]
      intro level hlevel
      obtain ⟨j, -, rfl⟩ := List.mem_map.mp hlevel
      rw [Nat.testBit_lt_two_pow (hlog.trans_le (Nat.pow_le_pow_right (by omega) (by omega)))]
      exact Bool.false_ne_true
    have hrange : List.range (n.log2 + 1 + d) = List.range (n.log2 + 1) ++
        (List.range d).map (n.log2 + 1 + ·) :=
      List.range_add
    rw [List.map_reverse, rangeNodesBelow_levels, List.reverse_reverse, hd, hrange,
      List.filter_append, hnone, List.append_nil]
  · obtain ⟨node, hnode, hcovers⟩ := htiles.covered (Nat.zero_le k) hk
    refine ⟨node, ⟨List.mem_reverse.mpr hnode, hcovers⟩, ?_⟩
    rintro node' ⟨hnode', hcovers'⟩
    exact htiles.unique (List.mem_reverse.mp hnode') hnode hcovers' hcovers

/-! ### Going on from a stored tree -/

variable {H : Type} [Sha256Hash H] {D : List H}

/-- Appending the leaves of `D` from the empty tree gives its compact range. -/
theorem foldl_append_range (D : List H) :
    RangeOf D (D.foldl TreeBuilder.append ⟨0, 0, [], ∅⟩).range := by
  have hrange : RangeOf ([] : List H) [] := fun j => by simp
  have hcache : CacheOf 0 ([] : List H) (∅ : TileCache H) := by
    refine ⟨fun key m h => by simp at h, fun l i hash => ?_⟩
    constructor
    · intro h
      simp [nodeAt] at h
    · rintro ⟨-, h, -⟩
      have hpos : 0 < (i + 1) * 2 ^ l := Nat.mul_pos (Nat.succ_pos i) (Nat.two_pow_pos l)
      rw [List.length_nil] at h
      omega
  exact (foldl_append_correct D (b := ⟨0, 0, [], ∅⟩) le_rfl rfl hrange hcache).2.2.1

theorem loadCompactRange_eval (hD : D ≠ []) (hn : D.length < 2 ^ 64)
    {store : (o : ReadTile) → o.Answer H} (hstore : ∀ o, LeafAnswers D o (store o)) :
    ∃ range, (loadCompactRange D.length).eval store = .ok range ∧ RangeOf D range := by
  have hstart := startRange_returns hn
  rw [TreeBuilder.startRange, if_neg (List.length_pos_iff.mpr hD).ne'] at hstart
  exact Prog.returns_eval hstore hstart

/-- The root that integration computes depends on the leaf tiles alone. -/
theorem integrate_root (order : MapOrder H) {E : List H} (hE : E ≠ [])
    (hn : (D ++ E).length < 2 ^ 64)
    {store : (o : ReadTile) → o.Answer H} (hstore : ∀ o, LeafAnswers D o (store o)) :
    ∃ r, (integrate order D.length E).eval store = .ok r ∧ r.newSize = (D ++ E).length ∧
      r.rootHash = mth (D ++ E) := by
  have hrun := integrate_cached (fun _ _ h => h) order hE hn (Q := fun _ _ => True)
    fun cache hc key mutator hm => ?_
  · obtain ⟨r, hr, hsize, hroot, -⟩ := Prog.returns_eval hstore hrun
    exact ⟨r, hr, hsize, hroot⟩
  · have hl := tile_level_of_lt hn (cacheOf_key hc hm)
    rw [TreeBuilder.previousTile]
    split_ifs
    · rw [readTile, if_neg (by omega)]
      intro answer _
      exact ⟨_, rfl, trivial⟩
    · exact ⟨_, rfl, trivial⟩

/-- Over a store whose leaf tiles are right, the loaded compact range is the one that the
leaves build, its nodes partition the leaves, and integration goes on to the tree hash of
the old leaves and the new. -/
theorem loadCompactRange_builds (D : List H) (hD : D ≠ []) (hn : D.length < 2 ^ 64)
    (store : (o : ReadTile) → o.Answer H) (hstore : ∀ o, LeafAnswers D o (store o)) :
    (∃ range start, (loadCompactRange D.length).eval store = .ok range ∧
      (TreeBuilder.new 0).eval store = .ok start ∧
        ∀ level : ℕ, range[level]?.join = (D.foldl TreeBuilder.append start).range[level]?.join) ∧
      RangePartition D.length (computeRangeNodes D.length) ∧
      ∀ order E, E ≠ [] → (D ++ E).length < 2 ^ 64 →
        ∃ r, (integrate order D.length E).eval store = .ok r ∧
        r.newSize = (D ++ E).length ∧ r.rootHash = mth (D ++ E) := by
  refine ⟨?_, computeRangeNodes_partition (List.length_pos_iff.mpr hD).ne' hn,
    fun order E hE hlen =>
    integrate_root order hE hlen hstore⟩
  obtain ⟨range, hrange, hof⟩ := loadCompactRange_eval hD hn hstore
  refine ⟨range, ⟨0, 0, [], ∅⟩, hrange, rfl, fun level => ?_⟩
  rw [hof, foldl_append_range D]

/-- The one leaf tile of a tree of five leaves, and no other tile. -/
def fiveLeaves (D : List H) : (o : ReadTile) → o.Answer H
  | ⟨0, 0, 5⟩ => some ⟨D⟩
  | _ => none

theorem loadCompactRange_builds_five :
    let D : List FreeHash := [[1], [2], [3], [4], [5]].map hashLeaf
    ∃ range start, (loadCompactRange 5).eval (fiveLeaves D) = .ok range ∧
      (TreeBuilder.new 0).eval (fiveLeaves D) = .ok start ∧
      ∀ level : ℕ, range[level]?.join = (D.foldl TreeBuilder.append start).range[level]?.join := by
  intro D
  refine (loadCompactRange_builds D (by simp [D]) (by decide) _ ?_).1
  rintro _ index part rfl hrow hpart
  have hlen : D.length = 5 := rfl
  rw [mul_zero, pow_zero, Nat.div_one, hlen, tileWidth_eq] at hrow
  obtain rfl : index = 0 := by omega
  rw [hlen] at hpart
  obtain rfl : part = 5 := hpart.trans (by decide)
  refine ⟨⟨D⟩, rfl, fun j hj => ?_⟩
  have hj5 : j < D.length := by
    rw [rowWidth, mul_zero, pow_zero, Nat.div_one, hlen] at hj
    omega
  rw [mul_zero, mul_zero, Nat.zero_add, Rfc.subtree_zero (List.getElem?_eq_getElem hj5)]
  exact List.getElem?_eq_getElem hj5

end Siglog.Merkle

import Siglog.Merkle.StoredTile
import Siglog.Merkle.RangeNodes

/-! Integration over a storage in which tiles are missing or too short. All leaves of the
old tree are read again, and one that is not there is an error. The tiles above them are
read only when they are changed, and what they lack is filled up with zero hashes. -/

namespace Siglog.Merkle

open Concurrent (Prog)
open Api (tileHeight tileWidth tileWidth_eq)
open Rfc (subtree)

variable {H : Type}

/-- What the storage answers. -/
abbrev Storage (H : Type) := (o : ReadTile) → o.Answer H

/-- A node of the tile that is read as the one before the integration. -/
def storedNode (store : Storage H) (fromSize : ℕ) (key : TileKey) (j : ℕ) : Option H :=
  (store ⟨key.level, key.index, integratePartialSize key.level key.index fromSize⟩).bind fun tile =>
    tile.nodes[j]?

/-- The places in the bottom rows that were complete at the old size hold the nodes of the
stored tiles. -/
def KeepsRows (store : Storage H) (fromSize : ℕ) (r : IntegrationResult H) : Prop :=
  ∀ key tile, r.tiles.lookup key = some tile → ∀ j, j < rowWidth key.level key.index fromSize →
    ∃ hash, storedNode store fromSize key j = some hash ∧ tile.nodes[j]? = some hash

/-- The leaves of the old tree are in the storage. -/
def LeavesStored (store : Storage H) (fromSize : ℕ) : Prop :=
  ∀ i, i < fromSize → (storedNode store fromSize ⟨0, i / tileWidth⟩ (i % tileWidth)).isSome

/-- Where a level above the leaves gets new nodes, those that its last tile had are in the
storage. -/
def RowsStored (store : Storage H) (fromSize newSize : ℕ) : Prop :=
  ∀ level, 0 < level → fromSize / 2 ^ (8 * level) < newSize / 2 ^ (8 * level) →
    ∀ j, j < fromSize / 2 ^ (8 * level) % tileWidth →
      (storedNode store fromSize ⟨level, fromSize / 2 ^ (8 * level) / tileWidth⟩ j).isSome

variable [Sha256Hash H]

/-! ### The leaves -/

/-- A node is computed from stored leaves, or there is an error. -/
theorem computeNodeHash_cases (store : Storage H) (n l i : ℕ) :
    (∃ e, (computeNodeHash n l i).eval store = .error (.err e)) ∨
    ∃ hash, (computeNodeHash n l i).eval store = .ok hash ∧
      ∀ k, i * 2 ^ l ≤ k → k < (i + 1) * 2 ^ l →
        (storedNode store n ⟨0, k / tileWidth⟩ (k % tileWidth)).isSome := by
  induction l generalizing i with
  | zero =>
    have hco : nodeToTileCoords 0 i = (⟨0, i / tileWidth⟩, (0, i % tileWidth)) := rfl
    rw [computeNodeHash, hco]
    dsimp only
    rw [readTile, if_neg (by omega)]
    cases htile : store ⟨0, i / tileWidth, integratePartialSize 0 (i / tileWidth) n⟩ with
    | none =>
      refine .inl ⟨.internal s!"missing tile at level={0}, index={i / tileWidth}", ?_⟩
      simp [Prog.call, Prog.eval, htile]
    | some tile =>
      cases hnode : tile.nodes[i % tileWidth]? with
      | none =>
        refine .inl ⟨.internal s!"missing leaf at index {i % tileWidth}", ?_⟩
        simp [Prog.call, Prog.eval, htile, hnode]
      | some hash =>
        refine .inr ⟨hash, by simp [Prog.call, Prog.eval, htile, hnode], fun k hk hk' => ?_⟩
        obtain rfl : k = i := by omega
        simp [storedNode, htile, hnode]
  | succ l ih =>
    rw [computeNodeHash, Prog.bind_eq, Prog.eval_bind]
    rcases ih (i * 2) with ⟨e, hleft⟩ | ⟨left, hleft, hleaves⟩
    · rw [hleft]
      exact .inl ⟨e, rfl⟩
    rw [hleft]
    change (∃ e, ((computeNodeHash n l (i * 2 + 1)).bind _).eval store = _) ∨
      ∃ hash, ((computeNodeHash n l (i * 2 + 1)).bind _).eval store = _ ∧ _
    rw [Prog.eval_bind]
    rcases ih (i * 2 + 1) with ⟨e, hright⟩ | ⟨right, hright, hleaves'⟩
    · rw [hright]
      exact .inl ⟨e, rfl⟩
    · rw [hright]
      refine .inr ⟨hashChildren left right, rfl, fun k hk hk' => ?_⟩
      have hmid : i * 2 ^ (l + 1) = i * 2 * 2 ^ l := by ring
      have hend : (i + 1) * 2 ^ (l + 1) = (i * 2 + 1 + 1) * 2 ^ l := by ring
      rcases Nat.lt_or_ge k ((i * 2 + 1) * 2 ^ l) with hlt | hge
      · exact hleaves k (by omega) hlt
      · exact hleaves' k hge (by omega)

theorem loadRangeNodes_cases (store : Storage H) (n : ℕ) (nodes : List (ℕ × ℕ))
    (range : List (Option H)) :
    (∃ e, (loadRangeNodes n nodes range).eval store = .error (.err e)) ∨
    ∀ node ∈ nodes, ∀ k, node.2 * 2 ^ node.1 ≤ k → k < (node.2 + 1) * 2 ^ node.1 →
      (storedNode store n ⟨0, k / tileWidth⟩ (k % tileWidth)).isSome := by
  induction nodes generalizing range with
  | nil => exact .inr (by simp)
  | cons node nodes ih =>
    obtain ⟨level, index⟩ := node
    rw [loadRangeNodes, Prog.bind_eq, Prog.eval_bind]
    rcases computeNodeHash_cases store n level index with ⟨e, herr⟩ | ⟨hash, hhash, hnode⟩
    · rw [herr]
      exact .inl ⟨e, rfl⟩
    · rw [hhash]
      rcases ih (setRange range level hash) with ⟨e, herr⟩ | hnodes
      · exact .inl ⟨e, herr⟩
      · refine .inr ?_
        rw [List.forall_mem_cons]
        exact ⟨hnode, hnodes⟩

/-- If a leaf of the old tree is not stored, integration ends with an error. -/
theorem integrate_missing_leaf (store : Storage H) (order : MapOrder H) {n : ℕ} (hn : n < 2 ^ 64)
    {E : List H} (hE : E ≠ []) :
    (∃ e, (integrate order n E).eval store = .error (.err e)) ∨ LeavesStored store n := by
  rw [integrate, if_neg hE, TreeBuilder.new, TreeBuilder.startRange]
  by_cases h0 : n = 0
  · refine .inr fun i hi => ?_
    omega
  rw [if_neg h0, loadCompactRange]
  simp only [Prog.bind_eq, Prog.bind_assoc, Prog.eval_bind]
  rcases loadRangeNodes_cases store n (computeRangeNodes n) [] with ⟨e, herr⟩ | hnodes
  · rw [herr]
    exact .inl ⟨e, rfl⟩
  · refine .inr fun i hi => ?_
    obtain ⟨node, ⟨hnode, hle, hlt⟩, -⟩ := (computeRangeNodes_partition h0 hn).partition i hi
    exact hnodes node hnode i hle hlt

/-! ### The tiles -/

/-- The leaves that are in the storage. -/
def storedLeaves (store : Storage H) (n : ℕ) : List H :=
  (List.range n).map fun i => (storedNode store n ⟨0, i / tileWidth⟩ (i % tileWidth)).getD zeroHash

@[simp] theorem length_storedLeaves (store : Storage H) (n : ℕ) :
    (storedLeaves store n).length = n := by simp [storedLeaves]

theorem leafAnswers_storedLeaves {store : Storage H} {n : ℕ} (h : LeavesStored store n)
    (o : ReadTile) :
    LeafAnswers (storedLeaves store n) o (store o) := by
  rintro index part rfl hrow hpart
  rw [length_storedLeaves, mul_zero, pow_zero, Nat.div_one] at hrow
  rw [length_storedLeaves, ← integratePartialSize_eq (by omega)] at hpart
  subst hpart
  have hnode :
      ∀ j, j < tileWidth → tileWidth * index + j < n →
        (storedNode store n ⟨0, index⟩ j).isSome := by
    intro j hj hlt
    have := h (tileWidth * index + j) hlt
    rwa [Nat.mul_add_div (by rw [tileWidth_eq]; omega), Nat.div_eq_of_lt hj, Nat.add_zero,
      Nat.mul_add_mod, Nat.mod_eq_of_lt hj] at this
  cases htile : store ⟨0, index, integratePartialSize 0 index n⟩ with
  | none =>
    have := hnode 0 (by rw [tileWidth_eq]; omega) hrow
    simp [storedNode, htile] at this
  | some tile =>
    refine ⟨tile, rfl, fun j hj => ?_⟩
    rw [rowWidth, length_storedLeaves, mul_zero, pow_zero, Nat.div_one] at hj
    have hjw : j < tileWidth := by omega
    obtain ⟨hash, hhash⟩ := Option.isSome_iff_exists.mp (hnode j hjw (by omega))
    have hstored : tile.nodes[j]? = some hash := by simpa [storedNode, htile] using hhash
    have hleaf : (storedLeaves store n)[tileWidth * index + j]? = some hash := by
      rw [storedLeaves, List.getElem?_map, List.getElem?_range (by omega), Option.map_some,
        Nat.mul_add_div (by rw [tileWidth_eq]; omega), Nat.div_eq_of_lt hjw, Nat.add_zero,
        Nat.mul_add_mod,
        Nat.mod_eq_of_lt hjw, hhash]
      rfl
    rw [hstored, mul_zero, Rfc.subtree_zero hleaf]

/-- The places of a changed tile that were complete before keep the nodes of the previous
tile, and are filled up with zero hashes. -/
theorem applyTo_row {X : List H} {cache : TileCache H} {n : ℕ} (hc : CacheOf n X cache)
    {level index : ℕ} {mutator : TileMutator H}
    (hm : cache.lookup ⟨level, index⟩ = some mutator) (order : Shuffle (Σ _ : ℕ × ℕ, H))
    (tile : HashTile H) {j : ℕ} (hj : j < rowWidth level index n) :
    (applyTo order mutator tile).nodes[j]? = some ((tile.nodes[j]?).getD zeroHash) := by
  have hgrown := rowWidth_lt_of_cached hc hm
  have hwidth : rowWidth level index X.length ≤ tileWidth := min_le_left _ _
  have hnone : mutator.lookup (0, j) = none := by
    rw [Option.eq_none_iff_forall_ne_some]
    intro hash hlookup
    exact ((cacheOf_mutator hc hm (0, j) hash).mp hlookup).1 (completeIn_bottom.mpr hj)
  cases htile : tile.nodes[j]? with
  | some hash => exact applyTo_keep order (by omega) hnone htile
  | none =>
    -- the first new node of the row stands behind this place
    have hnew : mutator.lookup (0, rowWidth level index n) =
        some (nodeHash X level index (0, rowWidth level index n)) :=
      (cacheOf_mutator hc hm _ _).mpr
        ⟨fun h => lt_irrefl _ (completeIn_bottom.mp h), completeIn_bottom.mpr hgrown, rfl⟩
    have hmax :=
      le_foldr_max (List.mem_map_of_mem (f := fun e : Σ _ : ℕ × ℕ, H => flatOffset e.1.1 e.1.2)
      (AList.mem_lookup_iff.mp hnew))
    rw [flatOffset_zero] at hmax
    dsimp only at hmax
    unfold applyTo
    dsimp only
    rw [foldl_set_ne (fun e : Σ _ : ℕ × ℕ, H => flatOffset e.1.1 e.1.2) (fun e => e.2)]
    · have hle := List.getElem?_eq_none_iff.mp htile
      rw [List.getElem?_append_right hle, List.getElem?_replicate, if_pos (by omega)]
      rfl
    · rintro ⟨⟨level', index'⟩, hash'⟩ he heq
      obtain ⟨rfl, rfl⟩ := flatOffset_lt (by omega) heq
      have := AList.mem_lookup_iff.mpr (Shuffle.mem_order.mp he)
      rw [hnone] at this
      cases this

/-- What integration returns if the leaves of the old tree are stored: the tiles that have
grown, with what is stored of their old rows and zero hashes in its place elsewhere. -/
theorem integrate_rows {store : Storage H} {n : ℕ} (h : LeavesStored store n) (order : MapOrder H)
    {E : List H} (hE : E ≠ [])
    (hn : n + E.length < 2 ^ 64) : ∃ r, (integrate order n E).eval store = .ok r ∧
      (∀ key tile, r.tiles.lookup key = some tile →
        rowWidth key.level key.index n < rowWidth key.level key.index (n + E.length) ∧
        ∀ j, j < rowWidth key.level key.index n →
          tile.nodes[j]? = some ((storedNode store n key j).getD zeroHash)) ∧
      ∀ level index, r.tiles.lookup ⟨level, index⟩ = none →
        rowWidth level index (n + E.length) = rowWidth level index n := by
  have hlen : (storedLeaves store n ++ E).length = n + E.length := by
    rw [List.length_append, length_storedLeaves]
  have hrun := integrate_cached (D := storedLeaves store n) (A := fun o answer => answer = store o)
    (fun o answer hanswer => hanswer ▸ leafAnswers_storedLeaves h o) order hE (by rwa [hlen])
    (Q := fun key tile => rowWidth key.level key.index n <
      rowWidth key.level key.index (n + E.length) ∧
      ∀ j, j < rowWidth key.level key.index n →
        tile.nodes[j]? = some ((storedNode store n key j).getD zeroHash))
    fun cache hc key mutator hm => ?_
  · have hrefl : ∀ o, store o = store o := fun _ => rfl
    obtain ⟨r, hr, -, -, htiles, huncached⟩ :=
      Prog.returns_eval (A := fun o answer => answer = store o) hrefl hrun
    rw [length_storedLeaves] at hr
    refine ⟨r, hr, htiles, fun level index hnone => ?_⟩
    have := huncached level index hnone
    rwa [hlen, length_storedLeaves] at this
  · have hl := tile_level_of_lt (by rwa [hlen]) (cacheOf_key hc hm)
    have hgrown := rowWidth_lt_of_cached hc hm
    rw [length_storedLeaves, hlen] at hgrown
    have hrow : ∀ tile : HashTile H,
        (∀ j, j < rowWidth key.level key.index n → tile.nodes[j]? = storedNode store n key j) →
        ∀ j, j < rowWidth key.level key.index n →
          (applyTo (order.nodes key) mutator tile).nodes[j]? =
            some ((storedNode store n key j).getD zeroHash) := by
      intro tile htile j hj
      rw [← htile j hj]
      apply applyTo_row hc hm
      rwa [length_storedLeaves]
    rw [TreeBuilder.previousTile, tileHeight, mul_comm key.level, length_storedLeaves]
    split_ifs with hexisted
    · rw [readTile, if_neg (by omega)]
      rintro _ rfl
      refine ⟨_, rfl, hgrown, hrow _ fun j hj => ?_⟩
      rw [storedNode]
      cases store ⟨key.level, key.index, integratePartialSize key.level key.index n⟩ <;> rfl
    · refine ⟨_, rfl, hgrown, hrow _ fun j hj => ?_⟩
      rw [tileWidth_eq] at hexisted
      rw [rowWidth, tileWidth_eq] at hj
      omega

/-! ### Which tiles are needed -/

omit [Sha256Hash H] in
/-- The rows of the tiles that were begun and have grown. -/
theorem rowsStored_iff {store : Storage H} {n n' : ℕ} (h : LeavesStored store n) :
    RowsStored store n n' ↔
    ∀ key : TileKey, rowWidth key.level key.index n < rowWidth key.level key.index n' →
      ∀ j, j < rowWidth key.level key.index n → (storedNode store n key j).isSome := by
  constructor
  · rintro hrows ⟨level, index⟩ hgrown j hj
    dsimp only at hgrown hj
    rw [rowWidth, rowWidth] at hgrown
    rw [rowWidth] at hj
    rcases Nat.eq_zero_or_pos level with rfl | hlevel
    · rw [mul_zero, pow_zero, Nat.div_one] at hj
      have := h (tileWidth * index + j) (by omega)
      rwa [Nat.mul_add_div (by rw [tileWidth_eq]; omega), Nat.div_eq_of_lt (by omega), Nat.add_zero,
        Nat.mul_add_mod, Nat.mod_eq_of_lt (by omega)] at this
    · have hindex : n / 2 ^ (8 * level) / tileWidth = index := by
        rw [tileWidth_eq] at hgrown hj ⊢
        omega
      have hmod : j < n / 2 ^ (8 * level) % tileWidth := by
        rw [tileWidth_eq] at hgrown hj ⊢
        omega
      exact hindex ▸ hrows level hlevel (by omega) j hmod
  · intro hkeys level hlevel hgrown j hj
    have hlt := Nat.mod_lt (n / 2 ^ (8 * level)) (show 0 < tileWidth by rw [tileWidth_eq]; omega)
    have hdm := Nat.div_add_mod (n / 2 ^ (8 * level)) tileWidth
    apply hkeys ⟨level, n / 2 ^ (8 * level) / tileWidth⟩
    · unfold rowWidth
      dsimp only
      omega
    · unfold rowWidth
      dsimp only
      omega

/-- Integration ends with an error or keeps what was complete, if and only if a leaf of the
old tree is missing or no node is missing from the old rows that it extends. -/
theorem integrate_keeps_iff (store : Storage H) (order : MapOrder H) (fromSize : ℕ)
    (leafHashes : List H) (hne : leafHashes ≠ []) (hsize : fromSize + leafHashes.length < 2 ^ 64) :
    ((∃ e, (integrate order fromSize leafHashes).eval store = .error (.err e)) ∨
      ∃ r, (integrate order fromSize leafHashes).eval store = .ok r ∧ KeepsRows store fromSize r) ↔
    (LeavesStored store fromSize → RowsStored store fromSize (fromSize + leafHashes.length)) := by
  constructor
  · intro hends hleaves
    obtain ⟨r, hr, htiles, huncached⟩ := integrate_rows hleaves order hne hsize
    obtain ⟨e, herr⟩ | ⟨r', hr', hkeeps⟩ := hends
    · rw [hr] at herr
      cases herr
    obtain rfl := Except.ok.inj (hr.symm.trans hr')
    rw [rowsStored_iff hleaves]
    intro key hgrown j hj
    cases htile : r.tiles.lookup key with
    | none =>
      have := huncached key.level key.index htile
      omega
    | some tile =>
      obtain ⟨hash, hstored, -⟩ := hkeeps key tile htile j hj
      rw [hstored]
      rfl
  · intro hrows
    rcases integrate_missing_leaf store order (show fromSize < 2 ^ 64 by omega)
      hne with herr | hleaves
    · exact .inl herr
    obtain ⟨r, hr, htiles, -⟩ := integrate_rows hleaves order hne hsize
    refine .inr ⟨r, hr, fun key tile htile j hj => ?_⟩
    obtain ⟨hgrown, hnodes⟩ := htiles key tile htile
    obtain ⟨hash, hstored⟩ :=
      Option.isSome_iff_exists.mp ((rowsStored_iff hleaves).mp (hrows hleaves) key hgrown j hj)
    have := hnodes j hj
    rw [hstored] at this
    exact ⟨hash, hstored, this⟩

/-- The leaves of a full tile, and what there is of the tile above them. -/
def fullTile (leaf : H) (above : Option (HashTile H)) : Storage H
  | ⟨0, 0, _⟩ => some ⟨List.replicate tileWidth leaf⟩
  | ⟨1, 0, 1⟩ => above
  | _ => none

omit [Sha256Hash H] in
theorem fullTile_stored (leaf : H) (above : Option (HashTile H)) :
    LeavesStored (fullTile leaf above) tileWidth := by
  intro i hi
  rw [Nat.div_eq_of_lt hi, Nat.mod_eq_of_lt hi, storedNode, fullTile, Option.bind_some,
    List.getElem?_replicate, if_pos hi]
  rfl

/-- The leaves of a full tile are given. -/
theorem length_fullLeaves :
    (List.replicate tileWidth (emptyRootHash : StartHash)).length = tileWidth :=
  List.length_replicate

/-- The first tile above the leaves is stored with its one node. -/
theorem integrate_keeps_present : ∃ store : Storage StartHash,
    LeavesStored store tileWidth ∧ (storedNode store tileWidth ⟨1, 0⟩ 0).isSome ∧
    ((∃ e, (integrate .listed tileWidth (List.replicate tileWidth emptyRootHash)).eval store =
        .error (.err e)) ∨
      ∃ r, (integrate .listed tileWidth (List.replicate tileWidth emptyRootHash)).eval store =
        .ok r ∧ KeepsRows store tileWidth r) := by
  let root : StartHash := subtree (List.replicate tileWidth emptyRootHash) 8 0
  let store : Storage StartHash := fullTile emptyRootHash (some ⟨[root]⟩)
  have hnode : (storedNode store tileWidth ⟨1, 0⟩ 0).isSome := rfl
  refine ⟨store, fullTile_stored _ _, hnode, ?_⟩
  refine (integrate_keeps_iff store .listed tileWidth _ ?_ ?_).mpr ?_
  · rw [← List.length_pos_iff, length_fullLeaves, tileWidth_eq]
    omega
  · rw [length_fullLeaves, tileWidth_eq]
    omega
  intro _ level hlevel hgrown j hj
  rw [length_fullLeaves, tileWidth_eq] at hgrown
  rw [tileWidth_eq] at hj
  obtain rfl | hhigh : level = 1 ∨ 2 ≤ level := by omega
  · -- the level had one node
    obtain rfl : j = 0 := by omega
    exact hnode
  · -- there are no levels above it
    have hpow : 2 ^ (8 * 2) ≤ 2 ^ (8 * level) := Nat.pow_le_pow_right (by omega) (by omega)
    rw [Nat.div_eq_of_lt (by omega)] at hj
    omega

/-- The first tile above the leaves is missing, and the result has a zero hash for its first
node. -/
theorem missing_tile_zeroHash :
    ∃ (store : Storage StartHash) (order : MapOrder StartHash) (r : IntegrationResult StartHash)
    (tile : HashTile StartHash),
    (integrate order tileWidth (List.replicate tileWidth emptyRootHash)).eval store = .ok r ∧
      r.tiles.lookup ⟨1, 0⟩ = some tile ∧ 0 < rowWidth 1 0 tileWidth ∧
      storedNode store tileWidth ⟨1, 0⟩ 0 = none ∧
      tile.nodes[0]? = some zeroHash ∧ ¬ KeepsRows store tileWidth r := by
  let store : Storage StartHash := fullTile emptyRootHash none
  have hnone : storedNode store tileWidth ⟨1, 0⟩ 0 = none := rfl
  have hrow : rowWidth 1 0 tileWidth = 1 := rfl
  have hlen := length_fullLeaves
  have hE : List.replicate tileWidth (emptyRootHash : StartHash) ≠ [] := by
    rw [← List.length_pos_iff, hlen, tileWidth_eq]
    omega
  obtain ⟨r, hr, htiles, huncached⟩ :=
    integrate_rows (fullTile_stored emptyRootHash none) .listed hE
      (by rw [hlen, tileWidth_eq]; omega)
  cases htile : r.tiles.lookup ⟨1, 0⟩ with
  | none =>
    have hgrown := huncached 1 0 htile
    rw [hlen] at hgrown
    exact absurd hgrown (by decide)
  | some tile =>
    have hzero := (htiles ⟨1, 0⟩ tile htile).2 0 (by rw [hrow]; omega)
    refine ⟨store, .listed, r, tile, hr, htile, by rw [hrow]; omega, hnone, hzero, fun hkeeps => ?_⟩
    obtain ⟨hash, hstored, -⟩ := hkeeps ⟨1, 0⟩ tile htile 0 (by rw [hrow]; omega)
    rw [hnone] at hstored
    cases hstored

end Siglog.Merkle

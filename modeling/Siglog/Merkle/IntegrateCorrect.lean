import Siglog.Merkle.CompactRange
import Mathlib.Data.List.Induction

/-! Integration is correct: over right tiles of the old tree it returns the root
of the new tree and, for every tile that has changed, a tile whose bottom row is
right at the new size. -/

namespace Siglog.Merkle

open Concurrent (Prog)
open Concurrent.Prog (returns_bind_ok Returns)
open Api (tileHeight tileWidth tileWidth_eq partialTileSize)
open Rfc (mth rangeHash subtree combine)
open TreeBuilder (setNode mergeUp)

variable {H : Type}

/-! ### The node cache -/

theorem nodeToTileCoords_injective {l i l' i' : ℕ}
    (h : nodeToTileCoords l i = nodeToTileCoords l' i') :
    l = l' ∧ i = i' := by
  simp only [nodeToTileCoords, Prod.mk.injEq, TileKey.mk.injEq, tileHeight] at h
  obtain ⟨⟨h₁, h₂⟩, h₃, h₄⟩ := h
  obtain rfl : l = l' := by omega
  have d := Nat.div_add_mod i (2 ^ (8 - l % 8))
  have d' := Nat.div_add_mod i' (2 ^ (8 - l % 8))
  rw [h₂, h₄] at d
  exact ⟨rfl, d.symm.trans d'⟩

/-- The cached hash of a node. -/
def nodeAt (cache : TileCache H) (level index : ℕ) : Option H :=
  (cache.lookup (nodeToTileCoords level index).1).bind (·.lookup (nodeToTileCoords level index).2)

theorem nodeAt_setNode (cache : TileCache H) (l i : ℕ) (hash : H) (l' i' : ℕ) :
    nodeAt (setNode cache l i hash) l' i' = if l' = l ∧ i' = i then some hash
    else nodeAt cache l' i' := by
  unfold nodeAt setNode
  by_cases hk : (nodeToTileCoords l' i').1 = (nodeToTileCoords l i).1
  · rw [hk, AList.lookup_insert, Option.bind_some]
    by_cases hn : (nodeToTileCoords l' i').2 = (nodeToTileCoords l i).2
    · obtain ⟨rfl, rfl⟩ := nodeToTileCoords_injective (Prod.ext hk hn)
      rw [AList.lookup_insert, if_pos ⟨rfl, rfl⟩]
    · rw [AList.lookup_insert_ne hn, if_neg (by rintro ⟨rfl, rfl⟩; exact hn rfl)]
      cases cache.lookup (nodeToTileCoords l i).1 <;> rfl
  · rw [AList.lookup_insert_ne hk, if_neg (by rintro ⟨rfl, rfl⟩; exact hk rfl)]

/-- Every cached tile has nodes, and all of them are nodes of that tile. -/
def Keyed (cache : TileCache H) : Prop :=
  ∀ key mutator, cache.lookup key = some mutator →
    (∃ l i, (nodeToTileCoords l i).1 = key ∧ nodeAt cache l i ≠ none) ∧
      ∀ node ∈ mutator, ∃ l i, nodeToTileCoords l i = (key, node)

theorem keyed_setNode {cache : TileCache H} (h : Keyed cache) (l i : ℕ) (hash : H) :
    Keyed (setNode cache l i hash) := by
  intro key mutator hm
  by_cases hk : key = (nodeToTileCoords l i).1
  · subst hk
    refine ⟨⟨l, i, rfl, by rw [nodeAt_setNode, if_pos ⟨rfl, rfl⟩]; simp⟩, fun node hnode => ?_⟩
    rw [setNode, AList.lookup_insert, Option.some.injEq] at hm
    subst hm
    rcases AList.mem_insert _ |>.mp hnode with rfl | hnode
    · exact ⟨l, i, rfl⟩
    · rcases hc : cache.lookup (nodeToTileCoords l i).1 with _ | m
      · rw [hc] at hnode
        simp at hnode
      · rw [hc] at hnode
        exact (h _ _ hc).2 node hnode
  · rw [setNode, AList.lookup_insert_ne hk] at hm
    obtain ⟨⟨l', i', hk', hn⟩, hnodes⟩ := h key mutator hm
    refine ⟨⟨l', i', hk', ?_⟩, hnodes⟩
    rw [nodeAt_setNode]
    split_ifs
    · simp
    · exact hn

variable [Sha256Hash H] {D X : List H}

/-- The cache after appending the leaves of `X` behind the `n`-th: the subtrees
of `X` that are not complete within the first `n` leaves. -/
structure CacheOf (n : ℕ) (X : List H) (cache : TileCache H) : Prop where
  keyed : Keyed cache
  node : ∀ l i hash, nodeAt cache l i = some hash ↔
    n / 2 ^ l ≤ i ∧ (i + 1) * 2 ^ l ≤ X.length ∧ hash = subtree X l i

/-- The state of the merging loop at some level, while the leaf `x` is appended. -/
structure Merging (n : ℕ) (X : List H) (x : H) (l : ℕ) (hash : H) (range : List (Option H))
    (cache : TileCache H) :
    Prop where
  ones : X.length % 2 ^ l + 1 = 2 ^ l
  hash_eq : hash = subtree (X ++ [x]) l (X.length / 2 ^ l)
  range_join : ∀ j, range[j]?.join =
    if l ≤ j ∧ X.length / 2 ^ j % 2 = 1 then some (subtree X j (X.length / 2 ^ j - 1)) else none
  keyed : Keyed cache
  node : ∀ L i hash, nodeAt cache L i = some hash ↔
    n / 2 ^ L ≤ i ∧ hash = subtree (X ++ [x]) L i ∧
    ((i + 1) * 2 ^ L ≤ X.length ∨ (L ≤ l ∧ i = X.length / 2 ^ L))

theorem merging_start {n : ℕ} {x : H} {range : List (Option H)} {cache : TileCache H}
    (hn : n ≤ X.length) (hr : RangeOf X range) (hc : CacheOf n X cache) :
    Merging n X x 0 x range (setNode cache 0 X.length x) := by
  have hx : x = subtree (X ++ [x]) 0 X.length := (Rfc.subtree_zero (by simp)).symm
  refine ⟨by simp [Nat.mod_one], by simpa using hx, fun j => by
      simpa using hr j, keyed_setNode hc.keyed _ _ _, ?_⟩
  intro L i hash
  rw [nodeAt_setNode]
  split_ifs with h
  · obtain ⟨rfl, rfl⟩ := h
    simp only [Option.some.injEq, pow_zero, Nat.div_one, mul_one, hn, true_and, le_refl, or_true,
      and_true, ← hx]
    exact eq_comm
  · rw [hc.node]
    constructor
    · rintro ⟨h₁, h₂, rfl⟩
      exact ⟨h₁, (Rfc.subtree_append_left h₂ [x]).symm, .inl h₂⟩
    · rintro ⟨h₁, rfl, h₂ | ⟨h₂, h₃⟩⟩
      · exact ⟨h₁, h₂, Rfc.subtree_append_left h₂ [x]⟩
      · obtain rfl : L = 0 := by omega
        rw [pow_zero, Nat.div_one] at h₃
        exact absurd ⟨rfl, h₃⟩ h

/-- One merge. -/
theorem merging_step {n l : ℕ} {x hash left : H} {range : List (Option H)} {cache : TileCache H}
    (hn : n ≤ X.length) (h : Merging n X x l hash range cache) (hodd : X.length / 2 ^ l % 2 = 1)
    (hleft : range[l]?.join = some left) :
    shouldStoreNode (l + 1) (X.length / 2 ^ l / 2) (X.length + 1) ∧
      Merging n X x (l + 1) (hashChildren left hash) (range.set l none)
        (setNode cache (l + 1) (X.length / 2 ^ l / 2) (hashChildren left hash)) := by
  have hones := ones_succ h.ones hodd
  have hdiv : X.length / 2 ^ l / 2 = X.length / 2 ^ (l + 1) := by
    rw [pow_succ, Nat.div_div_eq_div_mul]
  have hfull := ones_div hones le_rfl
  have hstore : shouldStoreNode (l + 1) (X.length / 2 ^ l / 2) (X.length + 1) := by
    rw [shouldStoreNode, hdiv, hfull]
  have hlen : (X ++ [x]).length = X.length + 1 := by simp
  -- the new node is the parent of the two
  have hhash : hashChildren left hash = subtree (X ++ [x]) (l + 1) (X.length / 2 ^ (l + 1)) := by
    have hl : left = subtree (X ++ [x]) l (2 * (X.length / 2 ^ (l + 1))) := by
      have hcomplete : (X.length / 2 ^ l - 1 + 1) * 2 ^ l ≤ X.length := by
        rw [(half_odd hodd).2.2]
        exact Nat.div_mul_le_self _ _
      rw [h.range_join, if_pos ⟨le_rfl, hodd⟩, Option.some.injEq] at hleft
      rw [← hleft, ← hdiv, (half_odd hodd).2.1, Rfc.subtree_append_left hcomplete]
    rw [Rfc.subtree_succ (by rw [hlen, hfull]), ← hl, h.hash_eq, ← hdiv, (half_odd hodd).2.1,
      (half_odd hodd).2.2]
    rfl
  refine ⟨hstore, hones, hhash, fun j => ?_, keyed_setNode h.keyed _ _ _, fun L i hash' => ?_⟩
  · by_cases hj : j = l
    · subst hj
      rw [if_neg (by omega), List.getElem?_set_self']
      cases range[j]? <;> rfl
    · rw [List.getElem?_set_ne (Ne.symm hj), h.range_join]
      congr 1
      simp only [eq_iff_iff, and_congr_left_iff]
      intro _
      omega
  · rw [nodeAt_setNode, hdiv]
    split_ifs with hnode
    · obtain ⟨rfl, rfl⟩ := hnode
      rw [Option.some.injEq, hhash]
      constructor
      · rintro rfl
        exact ⟨Nat.div_le_div_right hn, rfl, .inr ⟨le_rfl, rfl⟩⟩
      · rintro ⟨-, rfl, -⟩
        rfl
    · rw [h.node]
      refine and_congr_right fun _ => and_congr_right fun _ => or_congr_right ?_
      constructor
      · rintro ⟨h₁, h₂⟩
        exact ⟨by omega, h₂⟩
      · rintro ⟨h₁, rfl⟩
        refine ⟨?_, rfl⟩
        by_contra hlt
        obtain rfl : L = l + 1 := by omega
        exact hnode ⟨rfl, rfl⟩

/-- The merging loop runs over the trailing ones of the size. -/
theorem mergeUp_merging {n : ℕ} {x : H} (hn : n ≤ X.length) :
    ∀ {l : ℕ} {hash : H} {range : List (Option H)}
    {cache : TileCache H}, Merging n X x l hash range cache →
      ∃ l' hash' range' cache',
        mergeUp (X.length + 1) l (X.length / 2 ^ l) hash range cache = (l', hash', range', cache') ∧
          X.length / 2 ^ l' % 2 = 0 ∧ Merging n X x l' hash' range' cache' := by
  intro l
  induction hi : X.length / 2 ^ l using Nat.strong_induction_on generalizing l with
  | h i ih =>
    subst hi
    intro hash range cache h
    rw [mergeUp]
    by_cases hodd : X.length / 2 ^ l % 2 = 1
    · have hleft := h.range_join l
      rw [if_pos ⟨le_rfl, hodd⟩] at hleft
      obtain ⟨hstore, hnext⟩ := merging_step hn h hodd hleft
      have hdiv : X.length / 2 ^ l / 2 = X.length / 2 ^ (l + 1) := by
        rw [pow_succ, Nat.div_div_eq_div_mul]
      rw [dif_pos hodd, hleft]
      dsimp only
      rw [if_pos hstore]
      exact ih _ (by
        generalize X.length / 2 ^ l = q at hodd
        omega) hdiv.symm hnext
    · rw [dif_neg hodd]
      exact ⟨l, hash, range, cache, rfl, by omega, h⟩

/-- Appending a leaf keeps the range and the cache right. -/
theorem append_correct {n : ℕ} {b : TreeBuilder H} (x : H) (hn : n ≤ X.length)
    (hsize : b.size = X.length) (hr : RangeOf X b.range) (hc : CacheOf n X b.tileCache) :
    (b.append x).size = (X ++ [x]).length ∧ (b.append x).fromSize = b.fromSize ∧
      RangeOf (X ++ [x]) (b.append x).range ∧ CacheOf n (X ++ [x]) (b.append x).tileCache := by
  obtain ⟨l, hash, range, cache, he, heven, hm⟩ :=
    mergeUp_merging hn (merging_start (x := x) hn hr hc)
  rw [pow_zero, Nat.div_one] at he
  have hlen : (X ++ [x]).length = X.length + 1 := by simp
  have happ : b.append x =
      { b with size := X.length + 1, range := setRange range l hash, tileCache := cache } := by
    simp only [TreeBuilder.append, hsize, he]
  rw [happ]
  refine ⟨hlen.symm, rfl, fun j => ?_, hm.keyed, fun L i hash' => ?_⟩
  · rw [setRange_join, hm.range_join, hlen]
    rcases Nat.lt_trichotomy j l with hj | rfl | hj
    · rw [if_neg (by omega), if_neg (by omega), if_neg (by rw [carry_lt hm.ones heven hj]; omega)]
    · rw [if_pos rfl, carry_eq hm.ones, if_pos (by omega), hm.hash_eq]
      rfl
    · rw [if_neg (by omega), carry_gt hm.ones heven hj]
      by_cases hbit : X.length / 2 ^ j % 2 = 1
      · have hcomplete : (X.length / 2 ^ j - 1 + 1) * 2 ^ j ≤ X.length := by
          rw [(half_odd hbit).2.2]
          exact Nat.div_mul_le_self _ _
        rw [if_pos ⟨hj.le, hbit⟩, if_pos hbit, Rfc.subtree_append_left hcomplete]
      · rw [if_neg (fun h => hbit h.2), if_neg hbit]
  · rw [hm.node, hlen]
    constructor
    · rintro ⟨h₁, rfl, h₂ | ⟨h₂, rfl⟩⟩
      · exact ⟨h₁, by omega, rfl⟩
      · exact ⟨h₁, (ones_div hm.ones h₂).le, rfl⟩
    · rintro ⟨h₁, h₂, rfl⟩
      refine ⟨h₁, rfl, ?_⟩
      rcases Nat.lt_or_ge ((i + 1) * 2 ^ L) (X.length + 1) with h₃ | h₃
      · exact .inl (by omega)
      · -- the subtree ends at the new leaf
        have he : (i + 1) * 2 ^ L = X.length + 1 := le_antisymm h₂ h₃
        have hle := carry_le hm.ones heven ⟨i + 1, by rw [← he, mul_comm]⟩
        have heq := ones_div hm.ones hle
        rw [← he] at heq
        have := Nat.eq_of_mul_eq_mul_right (Nat.two_pow_pos L) heq
        exact .inr ⟨hle, by omega⟩

theorem foldl_append_correct {n : ℕ} (E : List H) :
    ∀ {X : List H} {b : TreeBuilder H}, n ≤ X.length →
    b.size = X.length → RangeOf X b.range → CacheOf n X b.tileCache →
      (E.foldl TreeBuilder.append b).size = (X ++ E).length ∧
        (E.foldl TreeBuilder.append b).fromSize = b.fromSize ∧
        RangeOf (X ++ E) (E.foldl TreeBuilder.append b).range ∧
        CacheOf n (X ++ E) (E.foldl TreeBuilder.append b).tileCache := by
  induction E with
  | nil =>
    intro X b _ hsize hr hc
    rw [List.append_nil]
    exact ⟨hsize, rfl, hr, hc⟩
  | cons x E ih =>
    intro X b hn hsize hr hc
    obtain ⟨hsize', hfrom, hr', hc'⟩ := append_correct x hn hsize hr hc
    have := ih (by rw [List.length_append]; omega) hsize' hr' hc'
    rw [List.append_assoc, List.singleton_append, hfrom] at this
    exact this

/-! ### Tiles -/

section Sets

variable {α β : Type} (f : α → ℕ) (g : α → β)

theorem foldl_set_length (l : List α) (nodes : List β) :
    (l.foldl (fun nodes e => nodes.set (f e) (g e)) nodes).length = nodes.length := by
  induction l generalizing nodes with
  | nil => rfl
  | cons e l ih => rw [List.foldl_cons, ih, List.length_set]

theorem foldl_set_ne {l : List α} {j : ℕ} (h : ∀ e ∈ l, f e ≠ j) (nodes : List β) :
    (l.foldl (fun nodes e => nodes.set (f e) (g e)) nodes)[j]? = nodes[j]? := by
  induction l generalizing nodes with
  | nil => rfl
  | cons e l ih =>
    rw [List.foldl_cons, ih (fun e' he' => h e' (by simp [he'])),
      List.getElem?_set_ne (h e (by simp))]

/-- All writes to one place agree, so their order does not matter. -/
theorem foldl_set_mem {l : List α} (nodes : List β) {e : α} (he : e ∈ l) (hlen : f e < nodes.length)
    (h : ∀ e' ∈ l, f e' = f e → g e' = g e) :
    (l.foldl (fun nodes e => nodes.set (f e) (g e)) nodes)[f e]? = some (g e) := by
  induction l using List.reverseRecOn with
  | nil => simp at he
  | append_singleton l e' ih =>
    rw [List.foldl_append, List.foldl_cons, List.foldl_nil]
    by_cases heq : f e' = f e
    · rw [heq, List.getElem?_set_self (by rw [foldl_set_length]; exact hlen), h e' (by simp) heq]
    · have hmem : e ∈ l := by
        rcases List.mem_append.mp he with hmem | hmem
        · exact hmem
        · exact absurd (by rw [List.mem_singleton.mp hmem]) heq
      rw [List.getElem?_set_ne heq]
      exact ih hmem fun e'' he'' => h e'' (by simp [he''])

end Sets

theorem flatOffset_zero (index : ℕ) : flatOffset 0 index = index := by simp [flatOffset]

/-- The rows above the bottom row are stored behind it. -/
theorem flatOffset_succ (level index : ℕ) : tileWidth ≤ flatOffset (level + 1) index := by
  have hrow : tileWidth ≤ ((List.range (level + 1)).foldl
      (fun (r : ℕ × ℕ) _ => (r.1 + r.2, r.2 / 2)) (0, tileWidth)).1 := by
    induction level with
    | zero => exact le_rfl
    | succ level ih =>
      rw [List.range_succ, List.foldl_append, List.foldl_cons, List.foldl_nil]
      dsimp only
      omega
  unfold flatOffset
  dsimp only
  omega

theorem flatOffset_lt {level index j : ℕ} (hj : j < tileWidth) (h : flatOffset level index = j) :
    level = 0 ∧ index = j := by
  cases level with
  | zero => exact ⟨rfl, by rwa [flatOffset_zero] at h⟩
  | succ level =>
    have := flatOffset_succ level index
    omega

theorem le_foldr_max {l : List ℕ} {a : ℕ} (h : a ∈ l) : a ≤ l.foldr max 0 := by
  induction l with
  | nil => simp at h
  | cons b l ih =>
    rw [List.foldr_cons]
    rcases List.mem_cons.mp h with rfl | h
    · exact le_max_left _ _
    · exact (ih h).trans (le_max_right _ _)

theorem applyTo_node (order : Shuffle (Σ _ : ℕ × ℕ, H)) {mutator : TileMutator H}
    (tile : HashTile H) {j : ℕ} {hash : H}
    (hj : j < tileWidth) (h : mutator.lookup (0, j) = some hash) :
    (applyTo order mutator tile).nodes[j]? = some hash := by
  have hmem : (⟨(0, j), hash⟩ : Σ _ : ℕ × ℕ, H) ∈ mutator.entries := AList.mem_lookup_iff.mp h
  have hmax :=
    le_foldr_max (List.mem_map_of_mem (f := fun e : Σ _ : ℕ × ℕ, H => flatOffset e.1.1 e.1.2) hmem)
  rw [flatOffset_zero] at hmax
  have hset := foldl_set_mem (fun e : Σ _ : ℕ × ℕ, H => flatOffset e.1.1 e.1.2) (fun e => e.2)
    (l := order.order mutator.entries) (e := ⟨(0, j), hash⟩)
    (tile.nodes ++ List.replicate
      ((mutator.entries.map fun e => flatOffset e.1.1 e.1.2).foldr max 0 + 1 - tile.nodes.length)
        zeroHash)
    (Shuffle.mem_order.mpr hmem)
    (by rw [flatOffset_zero, List.length_append, List.length_replicate]; omega) (by
      rintro ⟨⟨level, index⟩, hash'⟩ he' heq
      rw [flatOffset_zero] at heq
      obtain ⟨rfl, rfl⟩ := flatOffset_lt hj heq
      have := AList.mem_lookup_iff.mpr (Shuffle.mem_order.mp he')
      rw [h] at this
      exact (Option.some.inj this).symm)
  rw [flatOffset_zero] at hset
  exact hset

theorem applyTo_keep (order : Shuffle (Σ _ : ℕ × ℕ, H)) {mutator : TileMutator H}
    {tile : HashTile H} {j : ℕ} {hash : H}
    (hj : j < tileWidth) (h : mutator.lookup (0, j) = none) (ht : tile.nodes[j]? = some hash) :
    (applyTo order mutator tile).nodes[j]? = some hash := by
  unfold applyTo
  dsimp only
  rw [foldl_set_ne (fun e : Σ _ : ℕ × ℕ, H => flatOffset e.1.1 e.1.2) (fun e => e.2),
    List.getElem?_append_left (List.getElem?_eq_some_iff.mp ht).1, ht]
  rintro ⟨⟨level, index⟩, hash'⟩ he heq
  obtain ⟨rfl, rfl⟩ := flatOffset_lt hj heq
  have := AList.mem_lookup_iff.mpr (Shuffle.mem_order.mp he)
  rw [h] at this
  cases this

theorem nodeToTileCoords_tile {l j : ℕ} (hl : l < tileHeight) (hj : j < 2 ^ (tileHeight - l))
    (level index : ℕ) :
    nodeToTileCoords (tileHeight * level + l) (2 ^ (tileHeight - l) * index + j) =
      (⟨level, index⟩, (l, j)) := by
  have hmod : (tileHeight * level + l) % tileHeight = l := by
    rw [Nat.mul_add_mod, Nat.mod_eq_of_lt hl]
  unfold nodeToTileCoords
  dsimp only
  rw [hmod, Nat.mul_add_mod, Nat.mod_eq_of_lt hj, Nat.mul_add_div (Nat.two_pow_pos _),
    Nat.div_eq_of_lt hj, Nat.add_zero,
    Nat.mul_add_div (Nat.zero_lt_of_lt hl), Nat.div_eq_of_lt hl, Nat.add_zero]

omit [Sha256Hash H] in
theorem nodeAt_tile (cache : TileCache H) (level index : ℕ) {l j : ℕ} (hl : l < tileHeight)
    (hj : j < 2 ^ (tileHeight - l)) :
    nodeAt cache (tileHeight * level + l) (2 ^ (tileHeight - l) * index + j) =
      (cache.lookup ⟨level, index⟩).bind (·.lookup (l, j)) := by
  rw [nodeAt, nodeToTileCoords_tile hl hj]

omit [Sha256Hash H] in
theorem nodeAt_bottom (cache : TileCache H) (level index : ℕ) {j : ℕ} (hj : j < tileWidth) :
    nodeAt cache (8 * level) (tileWidth * index + j) =
      (cache.lookup ⟨level, index⟩).bind (·.lookup (0, j)) :=
  nodeAt_tile (l := 0) cache level index (by decide) hj

/-- A cached tile is a tile of the new tree. -/
theorem cacheOf_key {n : ℕ} {cache : TileCache H} (hc : CacheOf n X cache) {key : TileKey}
    {mutator : TileMutator H} (h : cache.lookup key = some mutator) :
    tileWidth * key.index < X.length / 2 ^ (8 * key.level) := by
  obtain ⟨⟨l, i, rfl, hn⟩, -⟩ := hc.keyed key mutator h
  obtain ⟨hash, hh⟩ := Option.ne_none_iff_exists'.mp hn
  obtain ⟨-, hle, -⟩ := (hc.node l i hash).mp hh
  have hpos := Nat.two_pow_pos (l % 8)
  have hw : tileWidth = 2 ^ (8 - l % 8) * 2 ^ (l % 8) := by
    rw [← pow_add, show 8 - l % 8 + l % 8 = 8 by omega]; rfl
  have hl : 2 ^ l = 2 ^ (l % 8) * 2 ^ (8 * (l / 8)) := by rw [← pow_add, Nat.mod_add_div]
  -- the first node of the bottom row is below the cached one
  have hfirst : tileWidth * (i / 2 ^ (8 - l % 8)) ≤ i * 2 ^ (l % 8) := by
    rw [hw, mul_right_comm]
    exact Nat.mul_le_mul_right _ (Nat.mul_div_le _ _)
  have hlast : i * 2 ^ (l % 8) + 2 ^ (l % 8) ≤ X.length / 2 ^ (8 * (l / 8)) := by
    rw [Nat.le_div_iff_mul_le (Nat.two_pow_pos _), ← Nat.succ_mul, mul_assoc, ← hl]
    exact hle
  change tileWidth * (i / 2 ^ (8 - l % 8)) < X.length / 2 ^ (8 * (l / 8))
  omega

/-- The level of a tile that is not empty. -/
theorem tile_level_of_lt {level index size : ℕ} (hn : size < 2 ^ 64)
    (h : tileWidth * index < size / 2 ^ (8 * level)) :
    level ≤ 7 := by
  by_contra hl
  have h64 : 2 ^ 64 ≤ 2 ^ (8 * level) := Nat.pow_le_pow_right (by omega) (by omega)
  rw [Nat.div_eq_of_lt (by omega)] at h
  omega

theorem tile_level_le {level index size : ℕ} (hn : size ≤ i64Max)
    (h : tileWidth * index < size / 2 ^ (8 * level)) :
    level ≤ 7 := tile_level_of_lt (by unfold i64Max at hn; omega) h

/-- The changed tile has the right bottom row. -/
theorem applyTo_correct {cache : TileCache H} (hpre : D <+: X) (hc : CacheOf D.length X cache)
    {level index : ℕ} {mutator : TileMutator H} (hm : cache.lookup ⟨level, index⟩ = some mutator)
    (order : Shuffle (Σ _ : ℕ × ℕ, H)) {tile : HashTile H} (ht : TileCorrect D level index tile) :
    TileCorrect X level index (applyTo order mutator tile) := by
  intro j hj
  have hj' : j < tileWidth := lt_of_lt_of_le hj (min_le_left _ _)
  have hnode := nodeAt_bottom cache level index hj'
  rw [hm, Option.bind_some] at hnode
  have hcomplete : (tileWidth * index + j + 1) * 2 ^ (8 * level) ≤ X.length := by
    rw [← Nat.le_div_iff_mul_le (Nat.two_pow_pos _)]
    unfold rowWidth at hj
    omega
  rcases Nat.lt_or_ge (tileWidth * index + j) (D.length / 2 ^ (8 * level)) with hold | hnew
  · -- an old node: no change to it is cached
    have hnone : mutator.lookup (0, j) = none := by
      rw [← hnode, Option.eq_none_iff_forall_ne_some]
      intro hash hh
      have := ((hc.node _ _ _).mp hh).1
      omega
    have hrow : j < rowWidth level index D.length := by unfold rowWidth; omega
    obtain ⟨E, rfl⟩ := hpre
    rw [Rfc.subtree_append_left (by rw [← Nat.le_div_iff_mul_le (Nat.two_pow_pos _)]; omega)]
    exact applyTo_keep order hj' hnone (ht j hrow)
  · exact applyTo_node order tile hj' (hnode ▸ (hc.node _ _ _).mpr ⟨hnew, hcomplete, rfl⟩)

/-- A tile that is not cached has not grown. -/
theorem rowWidth_of_uncached {cache : TileCache H} (hpre : D <+: X) (hc : CacheOf D.length X cache)
    {level index : ℕ} (hm : cache.lookup ⟨level, index⟩ = none) :
    rowWidth level index X.length = rowWidth level index D.length := by
  have hle := Nat.div_le_div_right (c := 2 ^ (8 * level)) hpre.length_le
  have hnone : ∀ j, j < tileWidth → D.length / 2 ^ (8 * level) ≤ tileWidth * index + j →
      X.length / 2 ^ (8 * level) ≤ tileWidth * index + j := by
    intro j hj hD
    by_contra hlt
    have hnode := nodeAt_bottom cache level index hj
    rw [hm, Option.bind_none, (hc.node _ _ _).mpr ⟨hD, by
      rw [← Nat.le_div_iff_mul_le (Nat.two_pow_pos _)]; omega, rfl⟩] at hnode
    cases hnode
  have hw : 0 < tileWidth := Nat.two_pow_pos _
  have h₀ := hnone 0 hw
  have h₁ := hnone (D.length / 2 ^ (8 * level) - tileWidth * index)
  unfold rowWidth
  omega

theorem previousTile_returns {key : TileKey} (hn : D.length ≤ i64Max) :
    (TreeBuilder.previousTile D.length key : TileReader H (HashTile H)).Returns (TileAnswers D)
      (fun x => ∃ tile, x = .ok tile ∧ TileCorrect D key.level key.index tile) := by
  rw [TreeBuilder.previousTile, tileHeight, mul_comm key.level]
  split_ifs with h
  · have hrow : tileWidth * key.index < D.length / 2 ^ (8 * key.level) := by
      rw [tileWidth_eq] at h ⊢
      omega
    have hl := tile_level_le hn hrow
    rw [integratePartialSize_eq hl]
    refine returns_bind_ok (readTile_returns (by omega) hrow rfl) ?_
    rintro _ ⟨tile, rfl, ht⟩
    exact ⟨tile, rfl, ht⟩
  · refine ⟨_, rfl, fun j hj => ?_⟩
    rw [tileWidth_eq] at h
    rw [rowWidth, tileWidth_eq] at hj
    omega

/-- Every changed tile is made from its previous tile. -/
theorem finalizeTiles_returns {A : ∀ o : ReadTile, o.Answer H → Prop}
    {Q : TileKey → HashTile H → Prop} (order : MapOrder H)
    (n : ℕ) (es : List (Σ _ : TileKey, TileMutator H)) :
    (∀ e ∈ es, e.1.level ≤ 63 ∧
      (TreeBuilder.previousTile n e.1 : TileReader H (HashTile H)).Returns A
      (fun x => ∃ tile, x = .ok tile ∧ Q e.1 (applyTo (order.nodes e.1) e.2 tile))) →
    ∀ tiles : AList fun _ : TileKey => HashTile H,
    (TreeBuilder.finalizeTiles order n es tiles).Returns A (fun x => ∃ tiles', x = .ok tiles' ∧
      (∀ key, tiles'.lookup key = none → tiles.lookup key = none ∧
        ∀ mutator, (⟨key, mutator⟩ : Σ _, _) ∉ es) ∧
      ∀ key tile, tiles'.lookup key = some tile → tiles.lookup key = some tile ∨ Q key tile) := by
  induction es with
  | nil => exact fun _ tiles => ⟨tiles, rfl, fun key h => ⟨h, by simp⟩, fun key tile h => .inl h⟩
  | cons e es ih =>
    intro hes tiles
    obtain ⟨key, mutator⟩ := e
    obtain ⟨hl, hprevious⟩ := hes _ List.mem_cons_self
    dsimp only at hl
    rw [TreeBuilder.finalizeTiles, if_neg (by omega)]
    refine returns_bind_ok hprevious fun tile ht => ?_
    refine Prog.returns_mono ?_ (ih (fun e he => hes e (by simp [he])) _)
    rintro _ ⟨tiles', rfl, hnone, hsome⟩
    refine ⟨tiles', rfl, fun key' h' => ?_, fun key' tile' h' => ?_⟩
    · obtain ⟨h₁, h₂⟩ := hnone key' h'
      by_cases hk : key' = key
      · subst hk
        rw [AList.lookup_insert] at h₁
        cases h₁
      · rw [AList.lookup_insert_ne hk] at h₁
        refine ⟨h₁, fun mutator' hmem => ?_⟩
        rcases List.mem_cons.mp hmem with heq | hmem
        · exact hk (congrArg Sigma.fst heq)
        · exact h₂ mutator' hmem
    · rcases hsome key' tile' h' with h₁ | h₁
      · by_cases hk : key' = key
        · subst hk
          rw [AList.lookup_insert, Option.some.injEq] at h₁
          subst h₁
          exact .inr ht
        · rw [AList.lookup_insert_ne hk] at h₁
          exact .inl h₁
      · exact .inr h₁

/-! ### Integration -/

/-- What integration promises about its result. -/
structure Integrated (D X : List H) (r : IntegrationResult H) : Prop where
  newSize : r.newSize = X.length
  rootHash : r.rootHash = mth X
  tile : ∀ key tile, r.tiles.lookup key = some tile →
    tileWidth * key.index < X.length / 2 ^ (8 * key.level) ∧ TileCorrect X key.level key.index tile
  unchanged : ∀ level index, r.tiles.lookup ⟨level, index⟩ = none →
    rowWidth level index X.length = rowWidth level index D.length

/-- What integration returns, given what it makes of the previous tile of each cached one. -/
theorem integrate_cached {A : ∀ o : ReadTile, o.Answer H → Prop}
    (hA : ∀ o r, A o r → LeafAnswers D o r) (order : MapOrder H)
    {E : List H} (hE : E ≠ []) (hn : (D ++ E).length < 2 ^ 64) {Q : TileKey → HashTile H → Prop}
    (hQ : ∀ cache, CacheOf D.length (D ++ E) cache →
      ∀ key mutator, cache.lookup key = some mutator →
      (TreeBuilder.previousTile D.length key : TileReader H (HashTile H)).Returns A
        (fun x => ∃ tile, x = .ok tile ∧ Q key (applyTo (order.nodes key) mutator tile))) :
    (integrate order D.length E).Returns A (fun x => ∃ r, x = .ok r ∧ r.newSize = (D ++ E).length ∧
      r.rootHash = mth (D ++ E) ∧ (∀ key tile, r.tiles.lookup key = some tile → Q key tile) ∧
      ∀ level index, r.tiles.lookup ⟨level, index⟩ = none →
        rowWidth level index (D ++ E).length = rowWidth level index D.length) := by
  have hlen : 0 < E.length := List.length_pos_iff.mpr hE
  have hnD : D.length < 2 ^ 64 := by rw [List.length_append] at hn; omega
  rw [integrate, if_neg hE, TreeBuilder.new]
  simp only [Prog.bind_eq, Prog.bind_assoc]
  refine returns_bind_ok (Prog.returns_contract hA (startRange_returns hnD)) fun range hr => ?_
  rw [Prog.pure_bind]
  have hc₀ : CacheOf D.length D (∅ : TileCache H) := by
    refine ⟨fun key m h => by simp at h, fun l i hash => ?_⟩
    constructor
    · intro h
      simp [nodeAt] at h
    · rintro ⟨h₁, h₂, -⟩
      rw [← Nat.le_div_iff_mul_le (Nat.two_pow_pos _)] at h₂
      omega
  obtain ⟨hsize, hfrom, hrange, hcache⟩ :=
    foldl_append_correct E (b := ⟨D.length, D.length, range, ∅⟩) le_rfl rfl hr hc₀
  dsimp only at hfrom
  rw [TreeBuilder.finalize, computeRoot_eq hsize (by rw [List.length_append]; omega) hrange, hfrom,
    hsize]
  simp only [Prog.ofExcept_ok, Prog.bind_eq, Prog.pure_bind]
  refine returns_bind_ok (finalizeTiles_returns (Q := Q) order D.length _ (fun e he => ?_) ∅) ?_
  · have hm := AList.mem_lookup_iff.mpr (Shuffle.mem_order.mp he)
    have hl := tile_level_of_lt hn (cacheOf_key hcache hm)
    exact ⟨by omega, hQ _ hcache e.1 e.2 hm⟩
  rintro tiles ⟨hnone, hsome⟩
  refine ⟨_, rfl, rfl, rfl, fun key tile h => ?_, fun level index h => ?_⟩
  · rcases hsome key tile h with h' | h'
    · simp at h'
    · exact h'
  · refine rowWidth_of_uncached (List.prefix_append D E) hcache ?_
    rw [Option.eq_none_iff_forall_ne_some]
    intro mutator hm
    exact (hnone _ h).2 mutator (Shuffle.mem_order.mpr (AList.mem_lookup_iff.mp hm))

theorem integrate_returns (order : MapOrder H) {E : List H} (hE : E ≠ [])
    (hn : (D ++ E).length ≤ i64Max) :
    (integrate order D.length E).Returns (TileAnswers D)
      (fun x => ∃ r, x = .ok r ∧ Integrated D (D ++ E) r) := by
  have hpre := List.prefix_append D E
  refine Prog.returns_mono ?_ (integrate_cached
    (Q := fun key tile => tileWidth * key.index < (D ++ E).length / 2 ^ (8 * key.level) ∧
    TileCorrect (D ++ E) key.level key.index tile) (fun _ _ => leafAnswers_of_tileAnswers) order hE
    (by unfold i64Max at hn; omega) fun cache hc key mutator hm => ?_)
  · rintro _ ⟨r, rfl, hsize, hroot, htile, hunchanged⟩
    exact ⟨r, rfl, hsize, hroot, htile, hunchanged⟩
  · refine Prog.returns_mono ?_ (previousTile_returns (hpre.length_le.trans hn))
    rintro _ ⟨tile, rfl, ht⟩
    exact ⟨tile, rfl, cacheOf_key hc hm, applyTo_correct hpre hc hm (order.nodes key) ht⟩

end Siglog.Merkle

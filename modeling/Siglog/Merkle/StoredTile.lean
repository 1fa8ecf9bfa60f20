import Siglog.Merkle.IntegrateCorrect
import Mathlib.Data.List.DropRight

/-! The contents of stored tiles. Integration sets the nodes of all eight rows of a tile,
and so what is stored is more than the bottom row: the rows stand one behind the other
up to the last complete node, with zero hashes between them. These contents are a
function of the leaves; they do not depend on how the leaves came in batches. -/

namespace Siglog.Merkle

open Concurrent (Prog)
open Concurrent.Prog (returns_bind_ok Returns)
open Api (tileHeight tileWidth tileWidth_eq partialTileSize)
open Rfc (mth rangeHash subtree combine)

/-! ### Offsets -/

/-- A node of a tile that is complete when `w` nodes of the bottom row are there. -/
def CompleteIn (w : ℕ) (node : ℕ × ℕ) : Prop := node.1 < tileHeight ∧ (node.2 + 1) * 2 ^ node.1 ≤ w

instance (w : ℕ) (node : ℕ × ℕ) : Decidable (CompleteIn w node) :=
  inferInstanceAs (Decidable (_ ∧ _))

theorem CompleteIn.mono {w w' : ℕ} {node : ℕ × ℕ} (h : CompleteIn w node) (hw : w ≤ w') :
    CompleteIn w' node :=
  ⟨h.1, h.2.trans hw⟩

theorem completeIn_bottom {w j : ℕ} : CompleteIn w (0, j) ↔ j < w := by
  rw [CompleteIn, pow_zero, mul_one]
  exact and_iff_right (show 0 < tileHeight by decide)

theorem tileWidth_row {l : ℕ} (hl : l < tileHeight) : tileWidth = 2 ^ (tileHeight - l) * 2 ^ l := by
  rw [← pow_add, Nat.sub_add_cancel hl.le]
  rfl

/-- A row has half the width of the one below it. -/
theorem CompleteIn.lt_row {w : ℕ} {node : ℕ × ℕ} (h : CompleteIn w node) (hw : w ≤ tileWidth) :
    node.2 < 2 ^ (tileHeight - node.1) := by
  have := h.2.trans hw
  rw [tileWidth_row h.1] at this
  exact Nat.le_of_mul_le_mul_right this (Nat.two_pow_pos _)

theorem flatOffset_eq {l : ℕ} (hl : l ≤ tileHeight) (j : ℕ) :
    flatOffset l j = 512 - 2 ^ (9 - l) + j := by
  unfold tileHeight at hl
  interval_cases l <;> rfl

theorem flatOffset_row {l : ℕ} (hl : l < tileHeight) :
    flatOffset (l + 1) 0 = flatOffset l 0 + 2 ^ (tileHeight - l) := by
  unfold tileHeight at *
  interval_cases l <;> rfl

theorem flatOffset_lt_row {l l' j : ℕ} (hl : l < l') (hl' : l' ≤ tileHeight)
    (hj : j < 2 ^ (tileHeight - l)) (j' : ℕ) :
    flatOffset l j < flatOffset l' j' := by
  have hlt : l < tileHeight := lt_of_lt_of_le hl hl'
  rw [flatOffset_eq hlt.le, flatOffset_eq hl']
  unfold tileHeight at *
  have h₁ : 2 ^ (9 - l) = 2 * 2 ^ (8 - l) := by rw [← pow_succ', show 8 - l + 1 = 9 - l by omega]
  have h₂ : 2 ^ (9 - l') ≤ 2 ^ (8 - l) := Nat.pow_le_pow_right (by omega) (by omega)
  have h₃ : 2 ^ (9 - l) ≤ 2 ^ 9 := Nat.pow_le_pow_right (by omega) (by omega)
  omega

theorem flatOffset_injective {l l' j j' : ℕ} (hl : l < tileHeight) (hl' : l' < tileHeight)
    (hj : j < 2 ^ (tileHeight - l)) (hj' : j' < 2 ^ (tileHeight - l'))
    (h : flatOffset l j = flatOffset l' j') :
    l = l' ∧ j = j' := by
  rcases Nat.lt_trichotomy l l' with hlt | rfl | hlt
  · exact absurd h (flatOffset_lt_row hlt hl'.le hj j').ne
  · rw [flatOffset_eq hl.le, flatOffset_eq hl.le] at h
    exact ⟨rfl, by omega⟩
  · exact absurd h (flatOffset_lt_row hlt hl.le hj' j).ne'

variable {H : Type} [Sha256Hash H]

/-! ### Contents -/

/-- The hash of a node of a tile. -/
def nodeHash (X : List H) (level index : ℕ) (node : ℕ × ℕ) : H :=
  subtree X (tileHeight * level + node.1) (2 ^ (tileHeight - node.1) * index + node.2)

/-- The tile holds the complete nodes at their places, and nothing else. -/
structure TileOf (X : List H) (level index w : ℕ) (tile : HashTile H) : Prop where
  node : ∀ node, CompleteIn w node →
    tile.nodes[flatOffset node.1 node.2]? = some (nodeHash X level index node)
  gap : ∀ k, k < tile.nodes.length → (∀ node, CompleteIn w node → flatOffset node.1 node.2 ≠ k) →
    tile.nodes[k]? = some zeroHash
  last : ∀ k, k < tile.nodes.length → ∃ node, CompleteIn w node ∧ k ≤ flatOffset node.1 node.2

/-- There is only one such tile. -/
theorem TileOf.unique {X : List H} {level index w : ℕ} {tile tile' : HashTile H}
    (h : TileOf X level index w tile) (h' : TileOf X level index w tile') : tile = tile' := by
  have hlen : ∀ {t t' : HashTile H}, TileOf X level index w t → TileOf X level index w t' →
      ∀ k, k < t.nodes.length → k < t'.nodes.length := by
    intro t t' ht ht' k hk
    obtain ⟨node, hnode, hle⟩ := ht.last k hk
    exact lt_of_le_of_lt hle (List.getElem?_eq_some_iff.mp (ht'.node node hnode)).1
  obtain ⟨nodes⟩ := tile
  obtain ⟨nodes'⟩ := tile'
  rw [HashTile.mk.injEq]
  apply List.ext_getElem?
  intro k
  by_cases hk : k < nodes.length
  · by_cases hnode : ∃ node, CompleteIn w node ∧ flatOffset node.1 node.2 = k
    · obtain ⟨node, hnode, rfl⟩ := hnode
      exact (h.node node hnode).trans (h'.node node hnode).symm
    · have hgap : ∀ node, CompleteIn w node → flatOffset node.1 node.2 ≠ k :=
        fun node hn he => hnode ⟨node, hn, he⟩
      exact (h.gap k hk hgap).trans (h'.gap k (hlen h h' k hk) hgap).symm
  · have hk' : ¬ k < nodes'.length := fun hlt => hk (hlen h' h k hlt)
    rw [List.getElem?_eq_none (not_lt.mp hk), List.getElem?_eq_none (not_lt.mp hk')]

/-- A tile without nodes. -/
theorem tileOf_zero (X : List H) (level index : ℕ) : TileOf X level index 0 ⟨[]⟩ := by
  refine ⟨fun node h => ?_, fun k hk => absurd hk (by simp), fun k hk => absurd hk (by simp)⟩
  have := h.2
  have := Nat.two_pow_pos node.1
  have := Nat.le_mul_of_pos_left (2 ^ node.1) (show 0 < node.2 + 1 by omega)
  omega

/-- What a tile holds does not change when the log grows. -/
theorem nodeHash_append {X : List H} {level index w : ℕ}
    (hX : (tileWidth * index + w) * 2 ^ (8 * level) ≤ X.length)
    {node : ℕ × ℕ} (hnode : CompleteIn w node) (E : List H) :
    nodeHash (X ++ E) level index node = nodeHash X level index node := by
  apply Rfc.subtree_append_left
  refine le_trans ?_ hX
  rw [pow_add, mul_comm (2 ^ (tileHeight * level)), ← mul_assoc, tileWidth_row hnode.1]
  apply Nat.mul_le_mul_right
  have := hnode.2
  calc (2 ^ (tileHeight - node.1) * index + node.2 + 1) * 2 ^ node.1
      = 2 ^ (tileHeight - node.1) * 2 ^ node.1 * index + (node.2 + 1) * 2 ^ node.1 := by ring
    _ ≤ 2 ^ (tileHeight - node.1) * 2 ^ node.1 * index + w := by omega

theorem TileOf.mono {X Y : List H} (hXY : X <+: Y) {level index w : ℕ}
    (hX : (tileWidth * index + w) * 2 ^ (8 * level) ≤ X.length) {tile : HashTile H} :
    TileOf X level index w tile ↔ TileOf Y level index w tile := by
  obtain ⟨E, rfl⟩ := hXY
  constructor
  · intro h
    exact ⟨fun node hn => (h.node node hn).trans (congrArg some (nodeHash_append hX hn E).symm),
      h.gap, h.last⟩
  · intro h
    exact ⟨fun node hn => (h.node node hn).trans (congrArg some (nodeHash_append hX hn E)), h.gap,
      h.last⟩

/-- The rows of a tile below some level, one behind the other. -/
def tileRows (X : List H) (level index w : ℕ) : ℕ → List (Option H)
  | 0 => []
  | l + 1 => tileRows X level index w l ++ (List.range (2 ^ (tileHeight - l))).map fun j =>
      if CompleteIn w (l, j) then some (nodeHash X level index (l, j)) else none

/-- The contents of a tile with so many nodes in its bottom row. -/
def storedTile (X : List H) (level index w : ℕ) : HashTile H :=
  ⟨((tileRows X level index w tileHeight).rdropWhile Option.isNone).map fun hash =>
    hash.getD zeroHash⟩

theorem storedTile_append {X : List H} {level index w : ℕ}
    (hX : (tileWidth * index + w) * 2 ^ (8 * level) ≤ X.length)
    (E : List H) : storedTile (X ++ E) level index w = storedTile X level index w := by
  have hrows : ∀ l, tileRows (X ++ E) level index w l = tileRows X level index w l := by
    intro l
    induction l with
    | zero => rfl
    | succ l ih =>
      rw [tileRows, tileRows, ih]
      congr 2
      funext j
      split_ifs with hnode
      · rw [nodeHash_append hX hnode]
      · rfl
  rw [storedTile, storedTile, hrows]

theorem length_tileRows (X : List H) (level index w : ℕ) {l : ℕ} (hl : l ≤ tileHeight) :
    (tileRows X level index w l).length = flatOffset l 0 := by
  induction l with
  | zero => rfl
  | succ l ih =>
    have hlt : l < tileHeight := hl
    rw [tileRows, List.length_append, ih hlt.le, List.length_map, List.length_range,
      flatOffset_row hl]

theorem tileRows_node (X : List H) (level index w : ℕ) {l j n : ℕ} (hl : l < n)
    (hn : n ≤ tileHeight)
    (hj : j < 2 ^ (tileHeight - l)) : (tileRows X level index w n)[flatOffset l j]? =
      some (if CompleteIn w (l, j) then some (nodeHash X level index (l, j)) else none) := by
  induction n with
  | zero => omega
  | succ n ih =>
    have hlen := length_tileRows X level index w (Nat.le_of_succ_le hn)
    rw [tileRows]
    rcases Nat.lt_succ_iff_lt_or_eq.mp hl with hlt | rfl
    · rw [List.getElem?_append_left, ih hlt (Nat.le_of_succ_le hn)]
      rw [hlen]
      exact flatOffset_lt_row hlt (Nat.le_of_succ_le hn) hj 0
    · have hoff : flatOffset l j = flatOffset l 0 + j := by
        rw [flatOffset_eq (Nat.le_of_succ_le hn), flatOffset_eq (Nat.le_of_succ_le hn)]
        rfl
      rw [List.getElem?_append_right (by omega), hlen, hoff, Nat.add_sub_cancel_left,
        List.getElem?_map, List.getElem?_range hj]
      rfl

/-- Every place of the rows is that of a node. -/
theorem exists_offset {k n : ℕ} (hn : n ≤ tileHeight) (hk : k < flatOffset n 0) :
    ∃ l j, l < n ∧ j < 2 ^ (tileHeight - l) ∧ flatOffset l j = k := by
  induction n with
  | zero =>
    rw [flatOffset_zero] at hk
    omega
  | succ n ih =>
    rcases Nat.lt_or_ge k (flatOffset n 0) with hlt | hge
    · obtain ⟨l, j, hl, hj, he⟩ := ih (Nat.le_of_succ_le hn) hlt
      exact ⟨l, j, by omega, hj, he⟩
    · refine ⟨n, k - flatOffset n 0, by omega, ?_, ?_⟩
      · rw [flatOffset_row hn] at hk
        omega
      · have hzero := flatOffset_eq (Nat.le_of_succ_le hn) 0
        rw [flatOffset_eq (Nat.le_of_succ_le hn)]
        omega

section

variable {α : Type} {p : α → Bool}

theorem getElem?_rdropWhile {l : List α} {k k' : ℕ} (hk : k ≤ k') {a : α} (h : l[k']? = some a)
    (ha : p a = false) :
    (l.rdropWhile p)[k]? = l[k]? := by
  induction l using List.reverseRecOn with
  | nil => rfl
  | append_singleton l b ih =>
    rw [List.rdropWhile_concat]
    split_ifs with hb
    · have hlt : k' < l.length := by
        by_contra hge
        rw [List.getElem?_append_right (not_lt.mp hge), List.getElem?_singleton] at h
        split_ifs at h
        obtain rfl := Option.some.inj h
        rw [ha] at hb
        cases hb
      rw [List.getElem?_append_left hlt] at h
      rw [ih h, List.getElem?_append_left (by omega)]
    · rfl

theorem getElem?_rdropWhile_of_lt {l : List α} {k : ℕ} (hk : k < (l.rdropWhile p).length) :
    (l.rdropWhile p)[k]? = l[k]? := by
  obtain ⟨t, ht⟩ := List.rdropWhile_prefix p l
  rw [← List.getElem?_append_left hk, ht]

theorem exists_of_lt_rdropWhile {l : List α} {k : ℕ} (hk : k < (l.rdropWhile p).length) :
    ∃ (k' : ℕ) (a : α), k ≤ k' ∧ l[k']? = some a ∧ p a = false := by
  induction l using List.reverseRecOn with
  | nil => simp at hk
  | append_singleton l b ih =>
    rw [List.rdropWhile_concat] at hk
    split_ifs at hk with hb
    · obtain ⟨k', a, hle, ha, hp⟩ := ih hk
      exact ⟨k', a, hle, by
          rw [List.getElem?_append_left (List.getElem?_eq_some_iff.mp ha).1, ha], hp⟩
    · rw [List.length_append, List.length_singleton] at hk
      exact ⟨l.length, b, by omega, by simp, by simpa using hb⟩

end

theorem length_storedTile (X : List H) (level index w : ℕ) :
    (storedTile X level index w).nodes.length =
    ((tileRows X level index w tileHeight).rdropWhile Option.isNone).length := by
  unfold storedTile
  simp only [List.length_map]

/-- Eight rows of a tile are at most 510 nodes. -/
theorem length_storedTile_le (X : List H) (level index w : ℕ) :
    (storedTile X level index w).nodes.length ≤ 510 := by
  rw [length_storedTile]
  refine (List.rdropWhile_prefix _ _).length_le.trans ?_
  rw [length_tileRows X level index w le_rfl]
  decide

theorem storedTile_tileOf (X : List H) (level index : ℕ) {w : ℕ} (hw : w ≤ tileWidth) :
    TileOf X level index w (storedTile X level index w) := by
  have hnode :
      ∀ node, CompleteIn w node → (tileRows X level index w tileHeight)[flatOffset node.1 node.2]? =
      some (some (nodeHash X level index node)) := by
    intro node h
    rw [tileRows_node X level index w h.1 le_rfl (h.lt_row hw), if_pos h]
  -- what is there but for the zero hashes
  have hplace : ∀ {k : ℕ} {hash : Option H}, (tileRows X level index w tileHeight)[k]? = some hash →
      ∃ l j, l < tileHeight ∧ flatOffset l j = k ∧
        hash = if CompleteIn w (l, j) then some (nodeHash X level index (l, j)) else none := by
    intro k hash hk
    have hlt := (List.getElem?_eq_some_iff.mp hk).1
    rw [length_tileRows X level index w le_rfl] at hlt
    obtain ⟨l, j, hl, hj, rfl⟩ := exists_offset le_rfl hlt
    rw [tileRows_node X level index w hl le_rfl hj] at hk
    exact ⟨l, j, hl, rfl, (Option.some.inj hk).symm⟩
  refine ⟨fun node h => ?_, fun k hk hgap => ?_, fun k hk => ?_⟩
  · rw [storedTile, List.getElem?_map, getElem?_rdropWhile le_rfl (hnode node h) rfl, hnode node h]
    rfl
  · rw [length_storedTile] at hk
    have hget := List.getElem?_eq_getElem hk
    have hget' := hget
    rw [getElem?_rdropWhile_of_lt hk] at hget'
    obtain ⟨l, j, hl, he, hhash⟩ := hplace hget'
    rw [if_neg fun hc => hgap (l, j) hc he] at hhash
    rw [storedTile, List.getElem?_map, hget, hhash]
    rfl
  · rw [length_storedTile] at hk
    obtain ⟨k', hash, hle, hget, hsome⟩ := exists_of_lt_rdropWhile hk
    obtain ⟨l, j, hl, rfl, hhash⟩ := hplace hget
    by_cases hc : CompleteIn w (l, j)
    · exact ⟨(l, j), hc, hle⟩
    · rw [if_neg hc] at hhash
      rw [hhash] at hsome
      cases hsome

/-- The tile is the stored one. -/
theorem tileOf_iff {X : List H} {level index w : ℕ} (hw : w ≤ tileWidth) {tile : HashTile H} :
    TileOf X level index w tile ↔ tile = storedTile X level index w :=
  ⟨fun h => h.unique (storedTile_tileOf X level index hw),
    fun h => h ▸ storedTile_tileOf X level index hw⟩

/-- From the second node on, the rows above the bottom row are there. -/
theorem TileOf.length_eq {X : List H} {level index w : ℕ} {tile : HashTile H}
    (h : TileOf X level index w tile) (hw : w ≤ tileWidth) : tile.nodes.length = w ↔ w ≤ 1 := by
  constructor
  · intro hlen
    by_contra hlt
    have htwo : CompleteIn w (1, 0) := ⟨by decide, by dsimp only; omega⟩
    have hlast := (List.getElem?_eq_some_iff.mp (h.node _ htwo)).1
    have hoff := flatOffset_succ 0 0
    rw [hlen] at hlast
    change tileWidth ≤ flatOffset 1 0 at hoff
    dsimp only at hlast
    omega
  · intro hle
    apply le_antisymm
    · by_contra hlt
      obtain ⟨⟨l, j⟩, hc, hk⟩ := h.last w (not_le.mp hlt)
      have hpow := Nat.two_pow_pos l
      have hprod := hc.2
      dsimp only at hprod hk
      have hj : j = 0 ∧ l = 0 := by
        rcases Nat.eq_zero_or_pos l with rfl | hl
        · refine ⟨by omega, rfl⟩
        · have : 2 ≤ 2 ^ l := by simpa using Nat.pow_le_pow_right (show 0 < 2 by omega) hl
          have := Nat.le_mul_of_pos_left (2 ^ l) (show 0 < j + 1 by omega)
          omega
      obtain ⟨rfl, rfl⟩ := hj
      rw [flatOffset_zero] at hk
      omega
    · rcases Nat.eq_zero_or_pos w with rfl | hpos
      · exact Nat.zero_le _
      · have := (List.getElem?_eq_some_iff.mp (h.node (0, 0) (completeIn_bottom.mpr hpos))).1
        rw [flatOffset_zero] at this
        omega

theorem TileOf.correct {X : List H} {level index : ℕ} {tile : HashTile H}
    (h : TileOf X level index (rowWidth level index X.length) tile) :
    TileCorrect X level index tile := by
  intro j hj
  have := h.node (0, j) (completeIn_bottom.mpr hj)
  rw [flatOffset_zero] at this
  exact this

/-! ### Integration -/

/-- Which nodes of a tile are complete at a size. -/
theorem completeIn_rowWidth {level index n : ℕ} {node : ℕ × ℕ} (hl : node.1 < tileHeight)
    (hj : node.2 < 2 ^ (tileHeight - node.1)) : CompleteIn (rowWidth level index n) node ↔
      (2 ^ (tileHeight - node.1) * index + node.2 + 1) * 2 ^ (tileHeight * level + node.1) ≤ n := by
  have hrow := tileWidth_row hl
  have hle : (node.2 + 1) * 2 ^ node.1 ≤ tileWidth := by
    rw [hrow]
    exact Nat.mul_le_mul_right _ hj
  have hpos : 0 < (node.2 + 1) * 2 ^ node.1 := Nat.mul_pos (Nat.succ_pos _) (Nat.two_pow_pos _)
  have hsplit : (2 ^ (tileHeight - node.1) * index + node.2 + 1) * 2 ^ node.1 =
      tileWidth * index + (node.2 + 1) * 2 ^ node.1 := by
    rw [hrow]
    ring
  rw [pow_add, mul_comm (2 ^ (tileHeight * level)), ← mul_assoc,
    ← Nat.le_div_iff_mul_le (Nat.two_pow_pos _), hsplit]
  unfold CompleteIn rowWidth
  change _ ↔ _ ≤ n / 2 ^ (8 * level)
  generalize (node.2 + 1) * 2 ^ node.1 = k at *
  omega

section

variable {D X : List H} {cache : TileCache H} {level index : ℕ} {mutator : TileMutator H}

/-- The changes of a tile are the nodes that have become complete. -/
theorem cacheOf_mutator {n : ℕ} (hc : CacheOf n X cache)
    (hm : cache.lookup ⟨level, index⟩ = some mutator)
    (node : ℕ × ℕ) (hash : H) : mutator.lookup node = some hash ↔
      ¬ CompleteIn (rowWidth level index n) node ∧ CompleteIn (rowWidth level index X.length) node ∧
        hash = nodeHash X level index node := by
  have hlookup : ∀ node : ℕ × ℕ, node.1 < tileHeight → node.2 < 2 ^ (tileHeight - node.1) →
      (mutator.lookup node = some hash ↔ ¬ CompleteIn (rowWidth level index n) node ∧
        CompleteIn (rowWidth level index X.length) node ∧ hash = nodeHash X level index node) := by
    intro node hl hj
    have hnode := nodeAt_tile cache level index hl hj
    rw [hm, Option.bind_some] at hnode
    rw [completeIn_rowWidth hl hj, completeIn_rowWidth hl hj,
      ← Nat.le_div_iff_mul_le (Nat.two_pow_pos _), not_le, Nat.lt_succ_iff]
    have hcached :=
      hc.node (tileHeight * level + node.1) (2 ^ (tileHeight - node.1) * index + node.2) hash
    rwa [hnode] at hcached
  constructor
  · intro h
    obtain ⟨l, i, heq⟩ := (hc.keyed _ _ hm).2 node (AList.lookup_isSome.mp (by rw [h]; rfl))
    obtain rfl : (nodeToTileCoords l i).2 = node := congrArg Prod.snd heq
    refine (hlookup _ ?_ ?_).mp h
    · exact Nat.mod_lt l (by decide)
    · exact Nat.mod_lt i (Nat.two_pow_pos _)
  · intro h
    exact (hlookup node h.2.1.1 (h.2.1.lt_row (min_le_left _ _))).mpr h

/-- A cached tile has grown. -/
theorem rowWidth_lt_of_cached {n : ℕ} (hc : CacheOf n X cache)
    (hm : cache.lookup ⟨level, index⟩ = some mutator) :
    rowWidth level index n < rowWidth level index X.length := by
  obtain ⟨⟨l, i, hkey, hnone⟩, -⟩ := hc.keyed _ _ hm
  obtain ⟨hash, hhash⟩ := Option.ne_none_iff_exists'.mp hnone
  rw [nodeAt, hkey, hm, Option.bind_some] at hhash
  obtain ⟨hold, hnew, -⟩ := (cacheOf_mutator hc hm _ hash).mp hhash
  by_contra hle
  exact hold (hnew.mono (not_lt.mp hle))

theorem foldr_max_mem {l : List ℕ} (h : l ≠ []) : l.foldr max 0 ∈ l := by
  induction l with
  | nil => exact absurd rfl h
  | cons a l ih =>
    rw [List.foldr_cons]
    rcases le_total a (l.foldr max 0) with hle | hle
    · rw [max_eq_right hle]
      by_cases hl : l = []
      · subst hl
        have : a = 0 := Nat.le_zero.mp hle
        simp [this]
      · exact List.mem_cons_of_mem a (ih hl)
    · rw [max_eq_left hle]
      exact List.mem_cons_self

/-- The changed tile is the stored one of the new tree, with all its rows. -/
theorem applyTo_tileOf (hpre : D <+: X) (hc : CacheOf D.length X cache)
    (hm : cache.lookup ⟨level, index⟩ = some mutator)
    (order : Shuffle (Σ _ : ℕ × ℕ, H)) {tile : HashTile H}
    (ht : TileOf D level index (rowWidth level index D.length) tile) :
    TileOf X level index (rowWidth level index X.length) (applyTo order mutator tile) := by
  set w := rowWidth level index X.length with hw
  set w₀ := rowWidth level index D.length with hw₀
  have hlt : w₀ < w := rowWidth_lt_of_cached hc hm
  have hwidth : w ≤ tileWidth := min_le_left _ _
  have hmutator := cacheOf_mutator hc hm
  have hentry : ∀ e ∈ mutator.entries, ¬ CompleteIn w₀ e.1 ∧ CompleteIn w e.1 ∧
      e.2 = nodeHash X level index e.1 :=
    fun e he => (hmutator e.1 e.2).mp (AList.mem_lookup_iff.mpr he)
  -- the old tile, filled up with zero hashes
  set offsets := mutator.entries.map fun e => flatOffset e.1.1 e.1.2 with hoffsets
  set padded := tile.nodes ++
    List.replicate (offsets.foldr max 0 + 1 - tile.nodes.length) (zeroHash : H) with hpadded
  have hlen : padded.length = max tile.nodes.length (offsets.foldr max 0 + 1) := by
    rw [hpadded, List.length_append, List.length_replicate]
    omega
  have hnodes : (applyTo order mutator tile).nodes =
      (order.order mutator.entries).foldl (fun nodes e => nodes.set (flatOffset e.1.1 e.1.2) e.2)
        padded := rfl
  have hnodesLen : (applyTo order mutator tile).nodes.length = padded.length := by
    rw [hnodes]
    exact foldl_set_length (fun e : Σ _ : ℕ × ℕ, H => flatOffset e.1.1 e.1.2) (fun e => e.2) _ _
  have hinjective : ∀ {node node' : ℕ × ℕ}, CompleteIn w node → CompleteIn w node' →
      flatOffset node.1 node.2 = flatOffset node'.1 node'.2 → node = node' := by
    intro node node' h h' heq
    obtain ⟨h₁, h₂⟩ := flatOffset_injective h.1 h'.1 (h.lt_row hwidth) (h'.lt_row hwidth) heq
    exact Prod.ext h₁ h₂
  refine ⟨fun node h => ?_, fun k hk hgap => ?_, fun k hk => ?_⟩
  · rw [hnodes]
    by_cases hold : CompleteIn w₀ node
    · rw [foldl_set_ne (fun e : Σ _ : ℕ × ℕ, H => flatOffset e.1.1 e.1.2) (fun e => e.2)]
      · have hnode := ht.node node hold
        rw [hpadded, List.getElem?_append_left (List.getElem?_eq_some_iff.mp hnode).1, hnode]
        obtain ⟨E, rfl⟩ := hpre
        have hcomplete := (completeIn_rowWidth hold.1 (hold.lt_row (min_le_left _ _))).mp hold
        rw [nodeHash, nodeHash, Rfc.subtree_append_left hcomplete]
      · intro e he heq
        obtain ⟨hnew, hcomplete, -⟩ := hentry e (Shuffle.mem_order.mp he)
        rw [hinjective hcomplete h heq] at hnew
        exact hnew hold
    · have hmem : (⟨node, nodeHash X level index node⟩ : Σ _ : ℕ × ℕ, H) ∈ mutator.entries :=
        AList.mem_lookup_iff.mp ((hmutator node _).mpr ⟨hold, h, rfl⟩)
      have hmax : flatOffset node.1 node.2 ≤ offsets.foldr max 0 :=
        le_foldr_max
          (List.mem_map_of_mem (f := fun e : Σ _ : ℕ × ℕ, H => flatOffset e.1.1 e.1.2) hmem)
      refine foldl_set_mem (fun e : Σ _ : ℕ × ℕ, H => flatOffset e.1.1 e.1.2) (fun e => e.2) padded
        (Shuffle.mem_order.mpr hmem) ?_ fun e' he' heq => ?_
      · rw [hlen]
        exact lt_max_of_lt_right (Nat.lt_succ_of_le hmax)
      · obtain ⟨-, hcomplete, hhash⟩ := hentry e' (Shuffle.mem_order.mp he')
        rw [hhash, hinjective hcomplete h heq]
  · rw [hnodes, foldl_set_ne (fun e : Σ _ : ℕ × ℕ, H => flatOffset e.1.1 e.1.2) (fun e => e.2)]
    · rw [hnodesLen] at hk
      rcases Nat.lt_or_ge k tile.nodes.length with hold | hnew
      · rw [hpadded, List.getElem?_append_left hold]
        exact ht.gap k hold fun node hnode => hgap node (hnode.mono hlt.le)
      · rw [hpadded, List.getElem?_append_right hnew, List.getElem?_replicate, if_pos (by omega)]
    · intro e he heq
      exact hgap e.1 (hentry e (Shuffle.mem_order.mp he)).2.1 heq
  · rw [hnodesLen, hlen] at hk
    rcases lt_max_iff.mp hk with hold | hnew
    · obtain ⟨node, hnode, hle⟩ := ht.last k hold
      exact ⟨node, hnode.mono hlt.le, hle⟩
    · have hne : offsets ≠ [] := by
        obtain ⟨⟨l, i, hkey, hnone⟩, -⟩ := hc.keyed _ _ hm
        obtain ⟨hash, hhash⟩ := Option.ne_none_iff_exists'.mp hnone
        rw [nodeAt, hkey, hm, Option.bind_some] at hhash
        exact List.ne_nil_of_mem (List.mem_map_of_mem (AList.mem_lookup_iff.mp hhash))
      obtain ⟨e, he, hmax⟩ : ∃ e ∈ mutator.entries, flatOffset e.1.1 e.1.2 = offsets.foldr max 0 :=
        List.mem_map.mp (foldr_max_mem hne)
      exact ⟨e.1, (hentry e he).2.1, by omega⟩

end

/-- Every tile that the tree over `D` has is there with its contents. -/
def StoredAnswers (D : List H) : (o : ReadTile) → o.Answer H → Prop
  | ⟨level, index, part⟩, answer =>
    tileWidth * index < D.length / 2 ^ (8 * level) → part = partialTileSize level index D.length →
      ∃ tile, answer = some tile ∧ TileOf D level index (rowWidth level index D.length) tile

theorem StoredAnswers.tileAnswers {D : List H} {o : ReadTile} {r : o.Answer H}
    (h : StoredAnswers D o r) :
    TileAnswers D o r := by
  intro hrow hpart
  obtain ⟨tile, hr, ht⟩ := h hrow hpart
  exact ⟨tile, hr, ht.correct⟩

variable {D : List H}

theorem previousTile_stored {key : TileKey} (hn : D.length ≤ i64Max) :
    (TreeBuilder.previousTile D.length key : TileReader H (HashTile H)).Returns (StoredAnswers D)
      (fun x => ∃ tile, x = .ok tile ∧
        TileOf D key.level key.index (rowWidth key.level key.index D.length) tile) := by
  rw [TreeBuilder.previousTile, tileHeight, mul_comm key.level]
  split_ifs with h
  · have hrow : tileWidth * key.index < D.length / 2 ^ (8 * key.level) := by
      rw [tileWidth_eq] at h ⊢
      omega
    have hl := tile_level_le hn hrow
    rw [integratePartialSize_eq hl, readTile, if_neg (by omega)]
    intro answer hanswer
    obtain ⟨tile, rfl, ht⟩ := hanswer hrow rfl
    exact ⟨tile, rfl, ht⟩
  · have hzero : rowWidth key.level key.index D.length = 0 := by
      rw [rowWidth, tileWidth_eq]
      rw [tileWidth_eq] at h
      omega
    rw [hzero]
    exact ⟨_, rfl, tileOf_zero D _ _⟩

/-- Over the stored tiles of the old tree, integration returns the stored tiles of the new one
that have grown. -/
theorem integrate_stored (order : MapOrder H) {E : List H} (hE : E ≠ [])
    (hn : (D ++ E).length ≤ i64Max) :
    (integrate order D.length E).Returns (StoredAnswers D)
      (fun x => ∃ r, x = .ok r ∧ Integrated D (D ++ E) r ∧
      ∀ key tile, r.tiles.lookup key = some tile →
        rowWidth key.level key.index D.length < rowWidth key.level key.index (D ++ E).length ∧
        TileOf (D ++ E) key.level key.index (rowWidth key.level key.index (D ++ E).length)
          tile) := by
  have hpre := List.prefix_append D E
  refine Prog.returns_mono ?_ (integrate_cached (Q := fun key tile =>
    tileWidth * key.index < (D ++ E).length / 2 ^ (8 * key.level) ∧
    rowWidth key.level key.index D.length < rowWidth key.level key.index (D ++ E).length ∧
    TileOf (D ++ E) key.level key.index (rowWidth key.level key.index (D ++ E).length) tile)
    (fun _ _ h => leafAnswers_of_tileAnswers h.tileAnswers) order hE (by unfold i64Max at hn; omega)
    fun cache hc key mutator hm => ?_)
  · rintro _ ⟨r, rfl, hsize, hroot, htile, hunchanged⟩
    refine ⟨r, rfl, ⟨hsize, hroot, fun key tile h => ?_, hunchanged⟩,
      fun key tile h => (htile key tile h).2⟩
    exact ⟨(htile key tile h).1, (htile key tile h).2.2.correct⟩
  · refine Prog.returns_mono ?_ (previousTile_stored (hpre.length_le.trans hn))
    rintro _ ⟨tile, rfl, ht⟩
    exact ⟨tile, rfl, cacheOf_key hc hm, rowWidth_lt_of_cached hc hm,
      applyTo_tileOf hpre hc hm (order.nodes key) ht⟩

end Siglog.Merkle

import Siglog.Client
import Siglog.Merkle.StoredTile
import Siglog.Worker.LogInvariant
import Mathlib.Data.Finset.Card

/-! The width in the name of an object is computed in five places, one for each program that
writes or reads it. They agree: the width is the number of complete subtrees that the tree
has in the tile, and a node of the tree lies in a tile of the tree, within that width. -/

namespace Siglog.Worker

open Api (entriesPath partialTileSize tileHeight tileWidth tileWidth_eq)
open Merkle (CompleteIn ReadTile TileReader completeIn_rowWidth integratePartialSize
  integratePartialSize_eq
  leafPartial_eq nodeToTileCoords nodeToTileCoords_injective partialTileSize_eq readLeafHash
    rowWidth)
open Storage (Server TileStorage.writeEntryBundle)

variable {H : Type}

/-! ### The widths -/

/-- The width is the number of complete subtrees in the tile. -/
theorem rowWidth_eq_card (level index n : ℕ) : rowWidth level index n =
    ((Finset.range tileWidth).filter fun j => (tileWidth * index + j + 1) * 2 ^ (8 * level) ≤
      n).card := by
  have hfilter :
      ((Finset.range tileWidth).filter fun j => (tileWidth * index + j + 1) * 2 ^ (8 * level) ≤ n) =
      Finset.range (rowWidth level index n) := by
    ext j
    rw [Finset.mem_filter, Finset.mem_range, Finset.mem_range,
      ← Nat.le_div_iff_mul_le (Nat.two_pow_pos _), rowWidth]
    omega
  rw [hfilter, Finset.card_range]

/-- The tile that is read for a leaf. -/
theorem next_readLeafHash {leaf n : ℕ} (hleaf : leaf < n) (hn : n ≤ i64Max) :
    (readLeafHash leaf n : TileReader H H).next =
      some (ReadTile.mk 0 (leaf / tileWidth) (partialTileSize 0 (leaf / tileWidth) n)) := by
  have hpart := @leafPartial_eq Unit (List.replicate n ()) leaf
  rw [List.length_replicate] at hpart
  rw [readLeafHash, hpart hleaf hn]
  rfl

/-- The width in the name of a bundle that a client fetches. -/
theorem bundleCount_mod {index n : ℕ} (h : tileWidth * index < n) :
    LogClient.bundleCount index n % 256 = partialTileSize 0 index n := by
  have hrow : tileWidth * index < n / 2 ^ (8 * 0) := by simpa using h
  rw [partialTileSize_of_rowWidth (by omega) hrow, rowWidth, LogClient.bundleCount, mul_zero,
    pow_zero, Nat.div_one, tileWidth_eq, mul_comm, min_comm]

/-- What a client asks for when it fetches a bundle. -/
theorem next_bundle (client : LogClient H) {index n : ℕ} (h : tileWidth * index < n)
    (hn : n ≤ i64Max) :
    (client.bundle index n).next =
      some (ClientOp.get (client.url ++ '/' :: entriesPath index (partialTileSize 0 index n))) := by
  rw [tileWidth_eq] at h
  rw [LogClient.bundle, if_neg (by omega), ← bundleCount_mod h]
  rfl

/-- The entries of a bundle that were there at a size. -/
theorem existingPartial_eq {index n : ℕ} (h : tileWidth * index < n) :
    (if index = n / tileWidth then n % tileWidth else 0) = partialTileSize 0 index n := by
  rw [partialTileSize_eq (by omega), mul_zero, pow_zero, Nat.div_one]
  rw [tileWidth_eq] at h ⊢
  split_ifs <;> omega

/-- What is written behind the entries that are there. -/
theorem writeBundles_cons {index n : ℕ} (h : tileWidth * index < n) (toSize : ℕ)
    (entries : List Bytes) (bundles : List (Σ _ : ℕ, List Bytes)) :
    (writeBundles n toSize (⟨index, entries⟩ :: bundles) : Server H Unit) = (do
      let bundle ← previousBundle index (partialTileSize 0 index n)
      TileStorage.writeEntryBundle index (partialTileSize 0 index toSize)
        ⟨bundle.entries ++ entries⟩
      writeBundles n toSize bundles) := by
  rw [← existingPartial_eq h]
  rfl

/-! ### Nodes in tiles -/

/-- A complete node of the tree is one of its tile, within the width. -/
theorem nodeToTileCoords_complete {level index n : ℕ} (h : (index + 1) * 2 ^ level ≤ n) :
    CompleteIn (rowWidth (nodeToTileCoords level index).1.level
      (nodeToTileCoords level index).1.index n)
      (nodeToTileCoords level index).2 := by
  have hlevel := Nat.mod_lt level (show 0 < tileHeight by decide)
  have hindex := Nat.mod_lt index (Nat.two_pow_pos (tileHeight - level % tileHeight))
  rw [nodeToTileCoords]
  dsimp only
  rwa [completeIn_rowWidth hlevel hindex, Nat.div_add_mod, Nat.div_add_mod]

/-- A tile with a complete node is a tile of the tree. -/
theorem lt_of_complete {level index n : ℕ} {node : ℕ × ℕ}
    (h : CompleteIn (rowWidth level index n) node) :
    tileWidth * index < n / 2 ^ (8 * level) := by
  have hpos : 0 < (node.2 + 1) * 2 ^ node.1 := Nat.mul_pos (Nat.succ_pos _) (Nat.two_pow_pos _)
  have hle := h.2
  rw [rowWidth] at hle
  omega

/-! ### All of them -/

/-- All copies of the arithmetic agree with the number of complete subtrees in a tile, and
the coordinates of a complete node are in range and its own. -/
theorem partialSizes_agree (n : ℕ) (hn : n ≤ i64Max) :
    (∀ level index, level ≤ 7 → index < (n / 2 ^ (8 * level) + 255) / 256 →
      let w := min 256 (n / 2 ^ (8 * level) - 256 * index)
      w = ((Finset.range 256).filter fun j => (256 * index + j + 1) * 2 ^ (8 * level) ≤ n).card ∧
      partialTileSize level index n = w % 256 ∧ integratePartialSize level index n = w % 256) ∧
    (∀ index, index < (n + 255) / 256 →
      let part := min 256 (n - 256 * index) % 256
      (∀ leaf, leaf < n → leaf / 256 = index →
        (readLeafHash leaf n : TileReader H H).next = some (ReadTile.mk 0 index part)) ∧
      LogClient.bundleCount index n % 256 = part ∧
      (∀ client : LogClient H, (client.bundle index n).next =
        some (ClientOp.get (client.url ++ '/' :: entriesPath index part))) ∧
      ∀ toSize entries bundles,
        (writeBundles n toSize (⟨index, entries⟩ :: bundles) : Server H Unit) = (do
        let bundle ← previousBundle index part
        TileStorage.writeEntryBundle index (partialTileSize 0 index toSize)
          ⟨bundle.entries ++ entries⟩
        writeBundles n toSize bundles)) ∧
    (∀ level index, (index + 1) * 2 ^ level ≤ n →
      let (tile, (row, offset)) := nodeToTileCoords level index
      tile.level ≤ 7 ∧ tile.index < (n / 2 ^ (8 * tile.level) + 255) / 256 ∧ row < 8 ∧
      offset < 2 ^ (8 - row) ∧
        (offset + 1) * 2 ^ row ≤ min 256 (n / 2 ^ (8 * tile.level) - 256 * tile.index)) ∧
    ∀ level index level' index', nodeToTileCoords level index = nodeToTileCoords level' index' →
      level = level' ∧ index = index' := by
  refine ⟨fun level index hlevel hindex => ?_, fun index hindex => ?_,
    fun level index hcomplete => ?_, fun _ _ _ _ => nodeToTileCoords_injective⟩
  · have hrow : tileWidth * index < n / 2 ^ (8 * level) := by rw [tileWidth_eq]; omega
    have hpart := partialTileSize_of_rowWidth hlevel hrow
    refine ⟨rowWidth_eq_card level index n, hpart, ?_⟩
    rw [integratePartialSize_eq hlevel]
    exact hpart
  · have hlt : tileWidth * index < n := by rw [tileWidth_eq]; omega
    have hpart : min 256 (n - 256 * index) % 256 = partialTileSize 0 index n := by
      rw [← bundleCount_mod hlt, LogClient.bundleCount, mul_comm, min_comm]
    dsimp only
    rw [hpart]
    refine ⟨fun leaf hleaf htile => ?_, bundleCount_mod hlt,
      fun client => next_bundle client hlt hn, writeBundles_cons hlt⟩
    subst htile
    exact next_readLeafHash hleaf hn
  · have hin := nodeToTileCoords_complete hcomplete
    have hrow := lt_of_complete hin
    have hlevel := Merkle.tile_level_le hn hrow
    rw [tileWidth_eq] at hrow
    have hindex : (nodeToTileCoords level index).1.index <
        (n / 2 ^ (8 * (nodeToTileCoords level index).1.level) + 255) / 256 := by omega
    exact ⟨hlevel, hindex, hin.1, hin.lt_row (min_le_left _ _), hin.2⟩

/-- A tree of 700 leaves: the third tile has 188 of them, and the tile above it has two nodes. -/
theorem partialSizes_agree_700 : partialTileSize 0 2 700 = 188 ∧ integratePartialSize 1 0 700 = 2 ∧
    (readLeafHash 699 700 : TileReader StartHash StartHash).next = some (ReadTile.mk 0 2 188) := by
  obtain ⟨hsizes, hreads, -⟩ := @partialSizes_agree StartHash 700 (by decide)
  exact ⟨(hsizes 0 2 (by decide) (by decide)).2.1, (hsizes 1 0 (by decide) (by decide)).2.2,
    (hreads 2 (by decide)).1 699 (by decide) rfl⟩

end Siglog.Worker

import Siglog.Worker.Immutable
import Siglog.Import.Bulk

/-! The objects of an import. A chunk is to produce the tiles that grow with it and the
bundles of its entries; which objects these are, and their bytes, depends on the input and
the chunk size alone. No two chunks produce an object of one name. -/

namespace Siglog.Import

open Api (Path checkpointPath tilePath entriesPath tileWidth tileWidth_eq partialTileSize)
open Merkle (EntryBundle rowWidth)
open Worker (tileBytes bundleBytes objectWidth)

variable {H : Type} [Sha256Hash H]

/-- The objects of the chunk from entry `m` to entry `n`. -/
inductive ChunkObject (H : Type) [Sha256Hash H] (data : List Bytes) (m n : ℕ) :
    Path → Bytes → Prop where
  | tile (level index : ℕ) (h : rowWidth level index m < rowWidth level index n) :
      ChunkObject H data m n (tilePath level index (partialTileSize level index n))
        (tileBytes (data.map hashLeaf : List H) level index (partialTileSize level index n))
  | bundle (index : ℕ) (bytes : Bytes) (hm : m ≤ tileWidth * index) (hn : tileWidth * index < n)
      (h : bundleBytes data index (partialTileSize 0 index n) = .ok bytes) :
      ChunkObject H data m n (entriesPath index (partialTileSize 0 index n)) bytes

theorem chunkObject_iff {data : List Bytes} {m n : ℕ} {path : Path} {bytes : Bytes} :
    ChunkObject H data m n path bytes ↔
    (∃ level index, rowWidth level index m < rowWidth level index n ∧
      path = tilePath level index (partialTileSize level index n) ∧
      bytes = tileBytes (data.map hashLeaf : List H) level index (partialTileSize level index n)) ∨
    ∃ index, m ≤ tileWidth * index ∧ tileWidth * index < n ∧
      path = entriesPath index (partialTileSize 0 index n) ∧
      bundleBytes data index (partialTileSize 0 index n) = .ok bytes := by
  constructor
  · rintro (⟨level, index, h⟩ | ⟨index, _, hm, hn, h⟩)
    · exact .inl ⟨level, index, h, rfl, rfl⟩
    · exact .inr ⟨index, hm, hn, rfl, h⟩
  · rintro (⟨level, index, h, hpath, hbytes⟩ | ⟨index, hm, hn, hpath, h⟩)
    · rw [hpath, hbytes]
      exact .tile level index h
    · rw [hpath]
      exact .bundle index bytes hm hn h

/-- The number of entries before a chunk. -/
def cut (data : List Bytes) (chunkSize k : ℕ) : ℕ := min (chunkSize * k) data.length

/-- The objects of the first chunks. -/
def ImportedBy (H : Type) [Sha256Hash H] (data : List Bytes) (chunkSize k : ℕ) (path : Path)
    (bytes : Bytes) : Prop :=
  ∃ j < k, ChunkObject H data (cut data chunkSize j) (cut data chunkSize (j + 1)) path bytes

/-- The objects of the whole import, but for the manifest. -/
def ImportObject (H : Type) [Sha256Hash H] (data : List Bytes) (chunkSize : ℕ) (path : Path)
    (bytes : Bytes) : Prop :=
  ∃ k, ImportedBy H data chunkSize k path bytes

variable {data : List Bytes} {m n : ℕ} {path : Path} {bytes bytes' : Bytes}

theorem row_pos {level index : ℕ} :
    0 < rowWidth level index n ↔ tileWidth * index < n / 2 ^ (8 * level) := by
  unfold rowWidth
  rw [tileWidth_eq]
  omega

theorem row_of_lt {level index : ℕ} (h : rowWidth level index m < rowWidth level index n) :
    tileWidth * index < n / 2 ^ (8 * level) := row_pos.mp (Nat.zero_lt_of_lt h)

theorem rowWidth_mono {level index : ℕ} (h : m ≤ n) :
    rowWidth level index m ≤ rowWidth level index n := by
  have := Nat.div_le_div_right (c := 2 ^ (8 * level)) h
  unfold rowWidth
  omega

theorem row_zero {index : ℕ} : tileWidth * index < n / 2 ^ (8 * 0) ↔ tileWidth * index < n := by
  rw [mul_zero, pow_zero, Nat.div_one]

/-! ### Names -/

/-- The bytes of an object of an import are given by its name. -/
theorem ChunkObject.eq {m' n' : ℕ} (h : ChunkObject H data m n path bytes)
    (h' : ChunkObject H data m' n' path bytes') :
    bytes = bytes' := by
  cases h with
  | tile level index hgrown =>
    generalize hp : tilePath level index (partialTileSize level index n) = p at h'
    cases h' with
    | tile level' index' hgrown' =>
      obtain ⟨rfl, rfl, hpart⟩ := Api.tilePath_injective hp
      rw [hpart]
    | bundle index' _ hm hn hbytes => exact absurd hp (Api.tilePath_ne_entriesPath _ _ _ _ _)
  | bundle index _ hm hn hbytes =>
    generalize hp : entriesPath index (partialTileSize 0 index n) = p at h'
    cases h' with
    | tile level' index' hgrown' => exact absurd hp.symm (Api.tilePath_ne_entriesPath _ _ _ _ _)
    | bundle index' _ hm' hn' hbytes' =>
      obtain ⟨rfl, hpart⟩ := Api.entriesPath_injective hp
      rw [hpart, hbytes'] at hbytes
      exact (Except.ok.inj hbytes).symm

theorem ImportObject.eq {chunkSize : ℕ} (h : ImportObject H data chunkSize path bytes)
    (h' : ImportObject H data chunkSize path bytes') : bytes = bytes' := by
  obtain ⟨_, _, _, h⟩ := h
  obtain ⟨_, _, _, h'⟩ := h'
  exact h.eq h'

/-- Chunks that do not overlap have no name in common: a tile that grows has a new name. -/
theorem ChunkObject.disjoint {m' n' : ℕ} (hle : n ≤ m') (hn : n ≤ i64Max)
    (h : ChunkObject H data m n path bytes) (h' : ChunkObject H data m' n' path bytes') :
    False := by
  cases h with
  | tile level index hgrown =>
    generalize hp : tilePath level index (partialTileSize level index n) = p at h'
    cases h' with
    | tile level' index' hgrown' =>
      obtain ⟨rfl, rfl, hpart⟩ := Api.tilePath_injective hp
      have hrow := row_of_lt hgrown
      have hrow' := row_of_lt hgrown'
      have hl := Merkle.tile_level_le hn hrow
      have hwidth := congrArg objectWidth hpart
      rw [Worker.objectWidth_part hl hrow, Worker.objectWidth_part hl hrow'] at hwidth
      have : rowWidth level index n ≤ rowWidth level index m' := rowWidth_mono hle
      omega
    | bundle index' _ hm hn hbytes => exact absurd hp (Api.tilePath_ne_entriesPath _ _ _ _ _)
  | bundle index _ hm hn hbytes =>
    generalize hp : entriesPath index (partialTileSize 0 index n) = p at h'
    cases h' with
    | tile level' index' hgrown' => exact absurd hp.symm (Api.tilePath_ne_entriesPath _ _ _ _ _)
    | bundle index' _ hm' hn' hbytes' =>
      obtain ⟨rfl, hpart⟩ := Api.entriesPath_injective hp
      omega

theorem manifestPath_ne_tilePath (level index part : ℕ) :
    manifestPath ≠ tilePath level index part := by
  intro h
  have hhead : some 'i' = some 't' := congrArg List.head? h
  exact absurd hhead (by decide)

theorem manifestPath_ne_entriesPath (index part : ℕ) : manifestPath ≠ entriesPath index part := by
  intro h
  have hhead : some 'i' = some 't' := congrArg List.head? h
  exact absurd hhead (by decide)

theorem manifestPath_ne_checkpointPath : manifestPath ≠ checkpointPath := by decide

theorem ChunkObject.ne_manifest (h : ChunkObject H data m n path bytes) : path ≠ manifestPath := by
  cases h with
  | tile level index hgrown => exact (manifestPath_ne_tilePath _ _ _).symm
  | bundle index _ hm hn hbytes => exact (manifestPath_ne_entriesPath _ _).symm

theorem ChunkObject.ne_checkpoint (h : ChunkObject H data m n path bytes) :
    path ≠ checkpointPath := by
  cases h with
  | tile level index hgrown => exact (Api.checkpointPath_ne_tilePath _ _ _).symm
  | bundle index _ hm hn hbytes => exact (Api.checkpointPath_ne_entriesPath _ _).symm

/-! ### Chunks -/

section

variable {chunkSize : ℕ}

theorem cut_zero : cut data chunkSize 0 = 0 := by simp [cut]

theorem cut_le (k : ℕ) : cut data chunkSize k ≤ data.length := min_le_right _ _

theorem cut_mono {j k : ℕ} (h : j ≤ k) : cut data chunkSize j ≤ cut data chunkSize k := by
  have := Nat.mul_le_mul_left chunkSize h
  unfold cut
  omega

theorem cut_of_lt {k : ℕ} (h : chunkSize * k < data.length) :
    cut data chunkSize k = chunkSize * k := by
  unfold cut
  omega

theorem cut_lt {k : ℕ} (hpos : 0 < chunkSize) (h : chunkSize * k < data.length) :
    cut data chunkSize k < cut data chunkSize (k + 1) := by
  rw [cut_of_lt h, cut, Nat.mul_succ]
  omega

theorem take_drop_cut {k : ℕ} (h : chunkSize * k < data.length) :
    (data.drop (cut data chunkSize k)).take chunkSize =
    Rfc.seg data (cut data chunkSize k) (cut data chunkSize (k + 1) - cut data chunkSize k) := by
  rw [Rfc.seg, List.take_eq_take_iff, List.length_drop, cut_of_lt h, cut, Nat.mul_succ]
  omega

theorem drop_cut {k : ℕ} (h : chunkSize * k < data.length) :
    data.drop (cut data chunkSize k + chunkSize) = data.drop (cut data chunkSize (k + 1)) := by
  rw [cut_of_lt h, cut, Nat.mul_succ]
  rcases le_total (chunkSize * k + chunkSize) data.length with hle | hle
  · rw [Nat.min_eq_left hle]
  · rw [Nat.min_eq_right hle, List.drop_length, List.drop_of_length_le hle]

/-- A tile with nodes has been stored under its present name by the chunk that it last grew with. -/
theorem importedBy_tile {level index : ℕ} (hn : data.length ≤ i64Max) {k : ℕ}
    (hrow : tileWidth * index < cut data chunkSize k / 2 ^ (8 * level)) :
    ImportedBy H data chunkSize k
      (tilePath level index (partialTileSize level index (cut data chunkSize k)))
      (tileBytes (data.map hashLeaf : List H) level index
        (partialTileSize level index (cut data chunkSize k))) := by
  induction k with
  | zero =>
    rw [cut_zero, Nat.zero_div] at hrow
    omega
  | succ k ih =>
    rcases Nat.lt_or_ge (rowWidth level index (cut data chunkSize k))
      (rowWidth level index (cut data chunkSize (k + 1)))
      with hgrown | hle
    · exact ⟨k, Nat.lt_succ_self k, .tile level index hgrown⟩
    · have hsame := Nat.le_antisymm (rowWidth_mono (cut_mono (Nat.le_succ k))) hle
      have hrow' : tileWidth * index < cut data chunkSize k / 2 ^ (8 * level) := by
        have hpos := row_pos.mpr hrow
        rw [← hsame] at hpos
        exact row_pos.mp hpos
      have hl := Merkle.tile_level_le ((cut_le (k + 1)).trans hn) hrow
      rw [Worker.partialTileSize_of_rowWidth hl hrow, ← hsame,
        ← Worker.partialTileSize_of_rowWidth hl hrow']
      obtain ⟨j, hj, hobj⟩ := ih hrow'
      exact ⟨j, hj.trans (Nat.lt_succ_self k), hobj⟩

/-- The objects of a chunk are new. -/
theorem ChunkObject.not_importedBy {k : ℕ} (hn : data.length ≤ i64Max)
    (h : ChunkObject H data (cut data chunkSize k) (cut data chunkSize (k + 1)) path bytes) :
    ¬ ImportedBy H data chunkSize k path bytes' := by
  rintro ⟨j, hj, hobj⟩
  exact hobj.disjoint (cut_mono hj) ((cut_le _).trans hn) h

theorem importedBy_succ {k : ℕ} :
    ImportedBy H data chunkSize (k + 1) path bytes ↔ ImportedBy H data chunkSize k path bytes ∨
    ChunkObject H data (cut data chunkSize k) (cut data chunkSize (k + 1)) path bytes := by
  constructor
  · rintro ⟨j, hj, hobj⟩
    rcases Nat.lt_succ_iff_lt_or_eq.mp hj with hlt | rfl
    · exact .inl ⟨j, hlt, hobj⟩
    · exact .inr hobj
  · rintro (⟨j, hj, hobj⟩ | hobj)
    · exact ⟨j, hj.trans (Nat.lt_succ_self k), hobj⟩
    · exact ⟨k, Nat.lt_succ_self k, hobj⟩

/-- After the last chunk there are no more objects. -/
theorem importObject_iff {k : ℕ} (h : data.length ≤ chunkSize * k) :
    ImportObject H data chunkSize path bytes ↔ ImportedBy H data chunkSize k path bytes := by
  refine ⟨?_, fun hobj => ⟨k, hobj⟩⟩
  rintro ⟨_, j, -, hobj⟩
  refine ⟨j, ?_, hobj⟩
  by_contra hj
  have hcut : ∀ i, k ≤ i → cut data chunkSize i = data.length := by
    intro i hi
    have := Nat.mul_le_mul_left chunkSize hi
    unfold cut
    omega
  rw [hcut j (by omega), hcut (j + 1) (by omega)] at hobj
  cases hobj with
  | tile level index hgrown => omega
  | bundle index _ hm hn hbytes => omega

end

end Siglog.Import

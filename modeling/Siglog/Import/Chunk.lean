import Siglog.Import.Objects
import Siglog.Import.System

/-! What one chunk uploads: with the tiles of all chunks before it at hand, just the
objects that the input gives it, whatever later chunks have left in the storage. -/

namespace Siglog.Import

open Concurrent (Prog Schedule)
open Api (Path checkpointPath tilePath entriesPath tileWidth tileWidth_eq partialTileSize)
open Merkle (HashTile EntryBundle MapOrder TileKey ReadTile Integrated IntegrationResult
  StoredAnswers TileOf rowWidth storedTile)
open Rfc (mth seg)
open Worker (tileBytes bundleBytes objectWidth)

theorem map_seg {α β : Type} (f : α → β) (D : List α) (a c : ℕ) :
    (seg D a c).map f = seg (D.map f) a c := by
  rw [seg, seg, List.map_take, List.map_drop]

/-! ### The fingerprint -/

theorem fingerprintEntries_append (hashed : Bytes) (a b : List Bytes) :
    fingerprintEntries hashed (a ++ b) =
    (fingerprintEntries hashed a).bind fun hashed => fingerprintEntries hashed b := by
  induction a generalizing hashed with
  | nil => rfl
  | cons data a ih =>
    rw [List.cons_append, fingerprintEntries, fingerprintEntries]
    cases fingerprintEntry hashed data with
    | error e => rfl
    | ok hashed' => exact ih hashed'

theorem fingerprintEntries_take {hashed hashed' : Bytes} {data : List Bytes}
    (h : fingerprintEntries hashed data = .ok hashed')
    (m : ℕ) : ∃ hashed', fingerprintEntries hashed (data.take m) = .ok hashed' := by
  rw [← List.take_append_drop m data, fingerprintEntries_append] at h
  cases htake : fingerprintEntries hashed (data.take m) with
  | error e => simp [htake, Except.bind] at h
  | ok hashed' => exact ⟨hashed', rfl⟩

/-- What has a fingerprint has entries of the right size. -/
theorem length_of_fingerprint {hashed hashed' : Bytes} {data : List Bytes}
    (h : fingerprintEntries hashed data = .ok hashed') :
    ∀ entry ∈ data, entry.length ≤ maxEntrySize := by
  induction data generalizing hashed with
  | nil => simp
  | cons first data ih =>
    rw [fingerprintEntries] at h
    cases hfirst : fingerprintEntry hashed first with
    | error e => simp [hfirst, bind, Except.bind] at h
    | ok hashed₁ =>
      rw [hfirst] at h
      unfold fingerprintEntry at hfirst
      split_ifs at hfirst with hsize
      intro entry hentry
      rcases List.mem_cons.mp hentry with rfl | hentry
      · omega
      · exact ih h entry hentry

theorem scanEntries_ok {hashed hashed' : Bytes} {count count' : ℕ} {data : List Bytes}
    (h : scanEntries hashed count (data.map .ok) = .ok (hashed', count')) :
    fingerprintEntries hashed data = .ok hashed' ∧ count' = count + data.length := by
  induction data generalizing hashed count with
  | nil =>
    obtain ⟨rfl, rfl⟩ := Prod.mk.inj (Except.ok.inj h)
    exact ⟨rfl, rfl⟩
  | cons first data ih =>
    rw [List.map_cons, scanEntries] at h
    rw [fingerprintEntries]
    cases hfirst : fingerprintEntry hashed first with
    | error e => simp [hfirst, bind, Except.bind] at h
    | ok hashed₁ =>
      simp only [hfirst, bind, Except.bind] at h
      split_ifs at h
      obtain ⟨hdata, hcount⟩ := ih h
      exact ⟨hdata, by rw [hcount, List.length_cons]; omega⟩

/-- The summary of an input is its number of entries and its fingerprint. -/
theorem scan_ok [Sha256] {data : List Bytes} {input : InputSummary}
    (h : InputSummary.scan (data.map .ok) = .ok input) :
    ∃ hashed, fingerprintEntries [] data = .ok hashed ∧
      input = ⟨data.length, Text.Hex.encode (digest hashed).1⟩ ∧
      0 < data.length ∧ data.length ≤ i64Max := by
  unfold InputSummary.scan at h
  cases hscan : scanEntries [] 0 (data.map .ok) with
  | error e => simp [hscan, bind, Except.bind] at h
  | ok r =>
    obtain ⟨hashed, count⟩ := r
    simp only [hscan, bind, Except.bind] at h
    split_ifs at h with hcount
    obtain rfl := Except.ok.inj h
    obtain ⟨hhashed, rfl⟩ := scanEntries_ok hscan
    refine ⟨hashed, hhashed, by rw [Nat.zero_add], ?_, ?_⟩
    · omega
    · omega

theorem scanEntries_of_sizes {data : List Bytes}
    (h : ∀ entry ∈ data, entry ≠ [] ∧ entry.length ≤ maxEntrySize) :
    ∀ {hashed : Bytes} {count : ℕ}, count + data.length < 2 ^ 64 →
      ∃ hashed', scanEntries hashed count (data.map .ok) = .ok (hashed', count + data.length) := by
  induction data with
  | nil => exact fun {hashed count} _ => ⟨hashed, rfl⟩
  | cons first data ih =>
    intro hashed count hcount
    rw [List.forall_mem_cons] at h
    rw [List.length_cons] at hcount ⊢
    have hfirst :
        fingerprintEntry hashed first = .ok (hashed ++ u64BeBytes first.length ++ first) :=
      if_neg (not_or.mpr ⟨h.1.1, not_lt.mpr h.1.2⟩)
    obtain ⟨hashed', hscan⟩ :=
      @ih h.2 (hashed ++ u64BeBytes first.length ++ first) (count + 1) (by omega)
    refine ⟨hashed', ?_⟩
    rw [List.map_cons, scanEntries, hfirst]
    simp only [bind, Except.bind]
    rw [if_neg (by omega), hscan, Nat.add_assoc, Nat.add_comm 1]

/-- Every input of entries of the right size has a summary. -/
theorem scan_of_sizes [Sha256] {data : List Bytes}
    (h : ∀ entry ∈ data, entry ≠ [] ∧ entry.length ≤ maxEntrySize)
    (hpos : data ≠ []) (hmax : data.length ≤ i64Max) :
    ∃ input, InputSummary.scan (data.map .ok) = .ok input ∧ input.entries = data.length := by
  have hlimit : i64Max < 2 ^ 64 := by decide
  have hlen := List.length_pos_iff.mpr hpos
  obtain ⟨hashed, hscan⟩ := @scanEntries_of_sizes data h [] 0 (by omega)
  rw [Nat.zero_add] at hscan
  refine ⟨⟨data.length, Text.Hex.encode (digest hashed).1⟩, ?_, rfl⟩
  rw [InputSummary.scan, hscan]
  exact if_neg (by omega)

/-! ### Bundles -/

theorem mem_bundleObjects {size newSize : ℕ} {groups : List (ℕ × List Bytes)}
    {object : Path × Bytes} :
    ∀ {bundles : List (Path × Bytes)}, bundleObjects size newSize groups = .ok bundles →
      (object ∈ bundles ↔
      ∃ group ∈ groups, object.1 =
        entriesPath (size / 256 + group.1) (partialTileSize 0 (size / 256 + group.1) newSize) ∧
        EntryBundle.toBytes ⟨group.2⟩ = .ok object.2) := by
  induction groups with
  | nil =>
    rintro _ ⟨⟩
    simp
  | cons group groups ih =>
    intro bundles h
    simp only [bundleObjects] at h
    cases hbytes : EntryBundle.toBytes ⟨group.2⟩ with
    | error e => simp [hbytes, bind, Except.bind] at h
    | ok bytes =>
      cases hrest : bundleObjects size newSize groups with
      | error e => simp [hbytes, hrest, bind, Except.bind] at h
      | ok rest =>
        simp only [hbytes, hrest, bind, Except.bind, Except.ok.injEq] at h
        subst h
        rw [List.mem_cons, ih hrest, List.exists_mem_cons_iff, hbytes, Except.ok.injEq]
        exact or_congr_left ⟨fun h => by rw [h]; exact ⟨rfl, rfl⟩, fun h => Prod.ext h.1 h.2.symm⟩

theorem bundleObjects_ok (size newSize : ℕ) {groups : List (ℕ × List Bytes)}
    (h : ∀ group ∈ groups, ∀ entry ∈ group.2, entry.length ≤ maxEntrySize) :
    ∃ bundles, bundleObjects size newSize groups = .ok bundles := by
  induction groups with
  | nil => exact ⟨[], rfl⟩
  | cons group groups ih =>
    obtain ⟨bytes, hbytes⟩ : ∃ bytes, EntryBundle.toBytes ⟨group.2⟩ = .ok bytes :=
      EntryBundle.toBytes_ok (h group List.mem_cons_self)
    obtain ⟨rest, hrest⟩ := ih fun g hg => h g (List.mem_cons_of_mem group hg)
    simp [bundleObjects, hbytes, hrest, bind, Except.bind]

/-- The groups of a chunk are its bundles. -/
theorem mem_chunks256 {data : List Bytes} {m n : ℕ} (hmn : m < n) (hn : n ≤ data.length)
    (hm : m % 256 = 0)
    {offset : ℕ} {group : List Bytes} : (offset, group) ∈ chunks256 (seg data m (n - m)) ↔
      256 * (m / 256 + offset) < n ∧
        group = seg data (256 * (m / 256 + offset))
          (objectWidth (partialTileSize 0 (m / 256 + offset) n)) := by
  have hlen : (seg data m (n - m)).length = n - m := Rfc.seg_length (by omega)
  have hstart : m + 256 * offset = 256 * (m / 256 + offset) := by omega
  rw [chunks256, hlen, List.mem_map]
  simp only [List.mem_range, Prod.mk.injEq]
  have hgroup : 256 * (m / 256 + offset) < n → ((seg data m (n - m)).drop (256 * offset)).take 256 =
      seg data (256 * (m / 256 + offset))
        (objectWidth (partialTileSize 0 (m / 256 + offset) n)) := by
    intro hlt
    have hrow : tileWidth * (m / 256 + offset) < n / 2 ^ (8 * 0) :=
      row_zero.mpr (by rwa [tileWidth_eq])
    rw [Worker.objectWidth_part (by omega) hrow, rowWidth, mul_zero, pow_zero, Nat.div_one,
      tileWidth_eq, Rfc.seg_drop, hstart, seg, seg, List.take_take]
    congr 1
    omega
  constructor
  · rintro ⟨i, hi, rfl, rfl⟩
    have hlt : 256 * (m / 256 + i) < n := by omega
    exact ⟨hlt, hgroup hlt⟩
  · rintro ⟨hlt, rfl⟩
    exact ⟨offset, by omega, rfl, hgroup hlt⟩

/-- The bundles of a chunk are its entries in groups. -/
theorem chunk_bundles {data : List Bytes} {m n : ℕ} (hmn : m < n) (hn : n ≤ data.length)
    (hm : m % 256 = 0) (hsize : ∀ entry ∈ data, entry.length ≤ maxEntrySize) :
    ∃ bundles, bundleObjects m n (chunks256 (seg data m (n - m))) = .ok bundles ∧
      ∀ object : Path × Bytes,
      object ∈ bundles ↔ ∃ index, m ≤ tileWidth * index ∧ tileWidth * index < n ∧
        object.1 = entriesPath index (partialTileSize 0 index n) ∧
        bundleBytes data index (partialTileSize 0 index n) = .ok object.2 := by
  have hgroups :
      ∀ group ∈ chunks256 (seg data m (n - m)), ∀ entry ∈ group.2, entry.length ≤ maxEntrySize := by
    rintro ⟨offset, group⟩ hmem entry hentry
    obtain ⟨-, rfl⟩ := (mem_chunks256 hmn hn hm).mp hmem
    exact hsize entry (List.mem_of_mem_drop (List.mem_of_mem_take hentry))
  obtain ⟨bundles, hbundles⟩ := bundleObjects_ok m n hgroups
  refine ⟨bundles, hbundles, fun object => ?_⟩
  rw [mem_bundleObjects hbundles]
  constructor
  · rintro ⟨⟨offset, group⟩, hmem, hpath, hbytes⟩
    obtain ⟨hlt, rfl⟩ := (mem_chunks256 hmn hn hm).mp hmem
    rw [tileWidth_eq]
    exact ⟨m / 256 + offset, by omega, hlt, hpath, hbytes⟩
  · rintro ⟨index, hm', hlt, hpath, hbytes⟩
    rw [tileWidth_eq] at hm' hlt
    obtain ⟨offset, rfl⟩ := Nat.exists_eq_add_of_le (show m / 256 ≤ index by omega)
    exact ⟨(offset, _), (mem_chunks256 hmn hn hm).mpr ⟨hlt, rfl⟩, hpath, hbytes⟩

/-! ### Tiles -/

variable {H : Type} [Sha256Hash H]

/-- The tiles that integration returns are those that grow, and have the bytes that the leaves
give them. -/
theorem mem_tileObjects {X : List H} {m n : ℕ} (hn : n ≤ X.length) (hX : X.length ≤ i64Max)
    {r : IntegrationResult H} (hr : Integrated (X.take m) (X.take n) r) (hm : m ≤ n)
    (htiles : ∀ key tile, r.tiles.lookup key = some tile →
      rowWidth key.level key.index m < rowWidth key.level key.index n ∧
      TileOf (X.take n) key.level key.index (rowWidth key.level key.index n) tile)
      (order : MapOrder H)
    (object : Path × Bytes) : object ∈ tileObjects n (order.tiles.order r.tiles.entries) ↔
      ∃ level index, rowWidth level index m < rowWidth level index n ∧
        object.1 = tilePath level index (partialTileSize level index n) ∧
        object.2 = tileBytes X level index (partialTileSize level index n) := by
  have hbytes : ∀ key tile, r.tiles.lookup key = some tile →
      tile.toBytes = tileBytes X key.level key.index (partialTileSize key.level key.index n) := by
    intro key tile hlook
    obtain ⟨hgrown, htile⟩ := htiles key tile hlook
    have hrow := row_of_lt hgrown
    have hwidth := Worker.objectWidth_part (Merkle.tile_level_le (hn.trans hX) hrow) hrow
    have hcover : (tileWidth * key.index + rowWidth key.level key.index n) * 2 ^ (8 * key.level) ≤
        (X.take n).length := by
      rw [List.length_take, Nat.min_eq_left hn]
      exact Worker.rowWidth_le hrow
    have hle : rowWidth key.level key.index n ≤ tileWidth := min_le_left _ _
    have hstored :=
      (Merkle.tileOf_iff hle).mp ((TileOf.mono (List.take_prefix n X) hcover).mp htile)
    rw [tileBytes, hwidth, hstored]
  rw [tileObjects, List.mem_map]
  constructor
  · rintro ⟨⟨key, tile⟩, he, rfl⟩
    have hlook := AList.mem_lookup_iff.mpr (Merkle.Shuffle.mem_order.mp he)
    exact ⟨key.level, key.index, (htiles key tile hlook).1, rfl, hbytes key tile hlook⟩
  · rintro ⟨level, index, hgrown, hpath, hobject⟩
    obtain ⟨tile, hlook⟩ : ∃ tile, r.tiles.lookup ⟨level, index⟩ = some tile := by
      rw [← Option.ne_none_iff_exists']
      intro hnone
      have hsame := hr.unchanged level index hnone
      rw [List.length_take, List.length_take, Nat.min_eq_left hn,
        Nat.min_eq_left (hm.trans hn)] at hsame
      omega
    refine ⟨⟨⟨level, index⟩, tile⟩, Merkle.Shuffle.mem_order.mpr (AList.mem_lookup_iff.mp hlook),
      ?_⟩
    exact Prod.ext hpath.symm ((hbytes ⟨level, index⟩ tile hlook).trans hobject.symm)

/-- A chunk uploads the objects of the chunk. -/
theorem mem_objects {data : List Bytes} {m n : ℕ} {tiles bundles : List (Path × Bytes)}
    (htiles : ∀ object : Path × Bytes, object ∈ tiles ↔
      ∃ level index, rowWidth level index m < rowWidth level index n ∧
      object.1 = tilePath level index (partialTileSize level index n) ∧
      object.2 = tileBytes (data.map hashLeaf : List H) level index (partialTileSize level index n))
    (hbundles : ∀ object : Path × Bytes, object ∈ bundles ↔ ∃ index, m ≤ tileWidth * index ∧
      tileWidth * index < n ∧
      object.1 = entriesPath index (partialTileSize 0 index n) ∧
      bundleBytes data index (partialTileSize 0 index n) = .ok object.2) (object : Path × Bytes) :
    object ∈ tiles ++ bundles ↔ ChunkObject H data m n object.1 object.2 := by
  rw [List.mem_append, htiles, hbundles, chunkObject_iff]

end Siglog.Import

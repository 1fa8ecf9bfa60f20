import Siglog.Worker.LogSystem
import Siglog.Merkle.IntegrateCorrect

/-! The invariant of the log. Every stored object is right for the entries that have
been sequenced, whoever wrote it and whether or not its cycle got to the end; and
for every size that was ever integrated all objects of that size are stored. Both
survive stale and interrupted cycles, since an object is never wrong for a longer
log and is never removed. -/

namespace Siglog.Worker

open Concurrent (Prog)
open Api (Path checkpointPath tilePath entriesPath tileWidth tileWidth_eq partialTileSize)
open Merkle (HashTile EntryBundle MapOrder TileKey rowWidth TileCorrect TileAnswers)
open Rfc (mth subtree seg)
open Storage (Op Server Database accepted DbOf)

variable {H : Type} [Sha256Hash H]

/-- The number of nodes or entries that the name of an object promises. -/
def objectWidth (part : ℕ) : ℕ := if part = 0 then tileWidth else part

/-- The bottom row of the tile is right for the leaves. -/
def TileObject (leaves : List H) (level index part : ℕ) (tile : HashTile H) : Prop :=
  (tileWidth * index + objectWidth part) * 2 ^ (8 * level) ≤ leaves.length ∧
    ∀ j, j < objectWidth part →
      tile.nodes[j]? = some (subtree leaves (8 * level) (tileWidth * index + j))

/-- The bundle holds the entries its name promises. -/
def BundleObject (log : List (Entry H)) (index part : ℕ) (bundle : EntryBundle) : Prop :=
  tileWidth * index + objectWidth part ≤ log.length ∧
    bundle.entries = seg (log.map Entry.data) (tileWidth * index) (objectWidth part)

/-- All objects of the tree of size `n` are stored. -/
structure StoredAt (objects : Path → Option Bytes) (n : ℕ) : Prop where
  tile : ∀ level index, tileWidth * index < n / 2 ^ (8 * level) →
    objects (tilePath level index (partialTileSize level index n)) ≠ none
  bundle : ∀ index, tileWidth * index < n →
  objects (entriesPath index (partialTileSize 0 index n)) ≠ none

structure Inv (s : LogSystem H) : Prop where
  db : DbOf s.db s.size (s.log.drop s.size)
  size_mem : s.size ∈ s.sizes
  sizes_le : ∀ n ∈ s.sizes, n ≤ s.log.length
  root : s.db.logState.rootHash = if s.size = 0 then none else some (mth (s.leaves.take s.size))
  tile : ∀ level index part data, s.objects (tilePath level index part) = some data →
    ∃ tile, HashTile.fromBytes data = .ok tile ∧ TileObject s.leaves level index part tile
  bundle : ∀ index part data, s.objects (entriesPath index part) = some data →
    ∃ bundle, EntryBundle.fromBytes data = .ok bundle ∧ BundleObject s.log index part bundle
  stored : ∀ n ∈ s.sizes, StoredAt s.objects n

/-- How the state moves: the log grows, the tree grows, sizes are remembered and objects stay. -/
structure Le (s s' : LogSystem H) : Prop where
  log : s.log <+: s'.log
  size : s.size ≤ s'.size
  sizes : ∀ n ∈ s.sizes, n ∈ s'.sizes
  objects : ∀ path, s.objects path ≠ none → s'.objects path ≠ none

theorem Le.refl (s : LogSystem H) : Le s s := ⟨List.prefix_rfl, le_rfl, fun _ h => h, fun _ h => h⟩

theorem Le.trans (a b c : LogSystem H) (h : Le a b) (h' : Le b c) : Le a c :=
  ⟨h.log.trans h'.log, h.size.trans h'.size, fun n hn => h'.sizes n (h.sizes n hn),
    fun p hp => h'.objects p (h.objects p hp)⟩

/-! ### Widths -/

/-- The name of a tile of the tree tells the width of its bottom row. -/
theorem objectWidth_part {level index n : ℕ} (hl : level ≤ 7)
    (h : tileWidth * index < n / 2 ^ (8 * level)) :
    objectWidth (partialTileSize level index n) = rowWidth level index n := by
  rw [Merkle.partialTileSize_eq hl, rowWidth]
  rw [tileWidth_eq] at h ⊢
  unfold objectWidth
  rw [tileWidth_eq]
  generalize n / 2 ^ (8 * level) = q at h
  by_cases hq : index < q / 256
  · rw [if_pos hq, if_pos rfl]
    omega
  · rw [if_neg hq]
    split_ifs <;> omega

/-- Tiles of the same width have the same name. -/
theorem partialTileSize_of_rowWidth {level index n : ℕ} (hl : level ≤ 7)
    (h : tileWidth * index < n / 2 ^ (8 * level)) :
    partialTileSize level index n = rowWidth level index n % tileWidth := by
  rw [Merkle.partialTileSize_eq hl, rowWidth]
  rw [tileWidth_eq] at h ⊢
  generalize n / 2 ^ (8 * level) = q at h
  split_ifs <;> omega

theorem partialTileSize_lt {level index n : ℕ} (hl : level ≤ 7) :
    partialTileSize level index n < tileWidth := by
  rw [Merkle.partialTileSize_eq hl, tileWidth_eq]
  split_ifs <;> omega

theorem rowWidth_le {level index n : ℕ} (h : tileWidth * index < n / 2 ^ (8 * level)) :
    (tileWidth * index + rowWidth level index n) * 2 ^ (8 * level) ≤ n := by
  rw [← Nat.le_div_iff_mul_le (Nat.two_pow_pos _), rowWidth]
  omega

/-! ### Objects of a growing log -/

theorem TileObject.mono {X Y : List H} (hXY : X <+: Y) {level index part : ℕ} {tile : HashTile H}
    (h : TileObject X level index part tile) : TileObject Y level index part tile := by
  obtain ⟨E, rfl⟩ := hXY
  refine ⟨h.1.trans (by rw [List.length_append]; omega), fun j hj => ?_⟩
  rw [h.2 j hj, Rfc.subtree_append_left]
  exact (Nat.mul_le_mul_right _ (by omega)).trans h.1

theorem BundleObject.mono {log log' : List (Entry H)} (hlog : log <+: log') {index part : ℕ}
    {bundle : EntryBundle}
    (h : BundleObject log index part bundle) : BundleObject log' index part bundle := by
  obtain ⟨E, rfl⟩ := hlog
  refine ⟨h.1.trans (by rw [List.length_append]; omega), ?_⟩
  rw [h.2, List.map_append, Rfc.seg_append_left (by rw [List.length_map]; exact h.1)]

/-- A right tile of the tree over a prefix is a right object. -/
theorem tileObject_of_correct {X leaves : List H} (hX : X <+: leaves) (hn : X.length ≤ i64Max)
    {level index : ℕ} (h : tileWidth * index < X.length / 2 ^ (8 * level)) {tile : HashTile H}
    (ht : TileCorrect X level index tile) :
    TileObject leaves level index (partialTileSize level index X.length) tile := by
  have hl := Merkle.tile_level_le hn h
  refine TileObject.mono hX ⟨?_, fun j hj => ?_⟩
  · rw [objectWidth_part hl h]
    exact rowWidth_le h
  · rw [objectWidth_part hl h] at hj
    exact ht j hj

/-- A right object is a right tile of the tree over a prefix. -/
theorem tileCorrect_of_object {X leaves : List H} (hX : X <+: leaves) (hn : X.length ≤ i64Max)
    {level index : ℕ} (h : tileWidth * index < X.length / 2 ^ (8 * level)) {tile : HashTile H}
    (ht : TileObject leaves level index (partialTileSize level index X.length) tile) :
    TileCorrect X level index tile := by
  have hl := Merkle.tile_level_le hn h
  intro j hj
  obtain ⟨E, rfl⟩ := hX
  rw [ht.2 j (by rw [objectWidth_part hl h]; exact hj), Rfc.subtree_append_left]
  exact (Nat.mul_le_mul_right _ (by omega)).trans (rowWidth_le h)

/-- The tiles of the tree of an integrated size can be read. -/
theorem Inv.tileAnswers {s : LogSystem H} (h : Inv s) {X : List H} (hmem : X.length ∈ s.sizes)
    (hX : X <+: s.leaves) (hn : X.length ≤ i64Max) (level index part : ℕ) :
    (s.objects (tilePath level index part) = none → TileAnswers X ⟨level, index, part⟩ none) ∧
      ∀ data tile, s.objects (tilePath level index part) = some data →
        HashTile.fromBytes data = .ok tile →
        TileAnswers X ⟨level, index, part⟩ (some tile) := by
  constructor
  · rintro hnone hrow rfl
    exact absurd hnone ((h.stored _ hmem).tile level index hrow)
  · rintro data tile hdata htile hrow rfl
    obtain ⟨tile', htile', hobj⟩ := h.tile level index _ data hdata
    rw [htile] at htile'
    obtain rfl := Except.ok.inj htile'
    exact ⟨tile, rfl, tileCorrect_of_object hX hn hrow hobj⟩

/-! ### Steps that keep the invariant -/

section

variable {s : LogSystem H}

omit [Sha256Hash H] in
theorem put_objects_ne_none [Sha256Hash H] (s : LogSystem H) (path : Path) (data : Bytes) {p : Path}
    (h : s.objects p ≠ none) : (s.put path data).objects p ≠ none := by
  change (if p = path then some data else s.objects p) ≠ none
  split_ifs
  · simp
  · exact h

theorem put_le (s : LogSystem H) (path : Path) (data : Bytes) : Le s (s.put path data) :=
  ⟨List.prefix_rfl, le_rfl, fun _ h => h, fun _ h => put_objects_ne_none s path data h⟩

/-- Storing an object that is right for the log. -/
theorem Inv.put (h : Inv s) {path : Path} {data : Bytes}
    (ht : ∀ level index part, path = tilePath level index part →
      ∃ tile, HashTile.fromBytes data = .ok tile ∧ TileObject s.leaves level index part tile)
    (hb : ∀ index part, path = entriesPath index part →
      ∃ bundle, EntryBundle.fromBytes data = .ok bundle ∧ BundleObject s.log index part bundle) :
    Inv (s.put path data) := by
  refine ⟨h.db, h.size_mem, h.sizes_le, h.root, fun level index part d hd => ?_,
    fun index part d hd => ?_, fun n hn => ⟨fun level index hi => ?_, fun index hi => ?_⟩⟩
  · change (if tilePath level index part = path then some data else s.objects _) = some d at hd
    split_ifs at hd with heq
    · cases hd
      exact ht level index part heq.symm
    · exact h.tile level index part d hd
  · change (if entriesPath index part = path then some data else s.objects _) = some d at hd
    split_ifs at hd with heq
    · cases hd
      exact hb index part heq.symm
    · exact h.bundle index part d hd
  · exact put_objects_ne_none s path data ((h.stored n hn).tile level index hi)
  · exact put_objects_ne_none s path data ((h.stored n hn).bundle index hi)

theorem Inv.putTile [LawfulSha256Hash H] (h : Inv s) {level index part : ℕ} {tile : HashTile H}
    (ht : TileObject s.leaves level index part tile) :
    Inv (s.put (tilePath level index part) tile.toBytes) := by
  refine h.put (fun level' index' part' heq => ?_) (fun index' part' heq => ?_)
  · obtain ⟨rfl, rfl, rfl⟩ := Api.tilePath_injective heq
    exact ⟨tile, HashTile.fromBytes_toBytes tile, ht⟩
  · exact absurd heq (Api.tilePath_ne_entriesPath _ _ _ _ _)

theorem Inv.putBundle (h : Inv s) {index part : ℕ} {bundle : EntryBundle} {data : Bytes}
    (hdata : bundle.toBytes = .ok data) (hb : BundleObject s.log index part bundle) :
    Inv (s.put (entriesPath index part) data) := by
  refine h.put (fun level' index' part' heq => ?_) (fun index' part' heq => ?_)
  · exact absurd heq.symm (Api.tilePath_ne_entriesPath _ _ _ _ _)
  · obtain ⟨rfl, rfl⟩ := Api.entriesPath_injective heq
    exact ⟨bundle, EntryBundle.fromBytes_toBytes hdata, hb⟩

/-- A worker whose size is current marks entries whose objects are all stored. -/
theorem Inv.mark (h : Inv s) {k : ℕ} (hk : 0 < k) (hle : s.size + k ≤ s.log.length)
    (hs : StoredAt s.objects (s.size + k)) {db : Database H} {marked : Bool}
    (hm : s.db.markIntegratedIfCurrent s.size (s.size + k) (mth (s.leaves.take (s.size + k))) =
      .ok (marked, db)) :
    Inv (s.mark marked (s.size + k) db) ∧ Le s (s.mark marked (s.size + k) db) := by
  obtain ⟨db', hdb, hof, hroot, -, -⟩ := h.db.mark (k := k) (by rw [List.length_drop]; omega)
    (mth (s.leaves.take (s.size + k)))
  rw [hdb, Except.ok.injEq, Prod.mk.injEq] at hm
  obtain ⟨rfl, rfl⟩ := hm
  have hb := h.db.bound
  rw [List.length_drop] at hb
  have hsize : (s.mark true (s.size + k) db').size = s.size + k := by
    change Storage.asU64 db'.logState.integratedSize = _
    rw [hof.integrated, Storage.asU64_natCast (by omega)]
  refine ⟨⟨?_, ?_, ?_, ?_, h.tile, h.bundle, ?_⟩, ⟨List.prefix_rfl, by omega, ?_, fun _ h => h⟩⟩
  · rw [hsize]
    rw [List.drop_drop] at hof
    exact hof
  · rw [hsize]
    exact List.mem_append_right _ (List.mem_singleton_self _)
  · intro n hn
    rcases List.mem_append.mp hn with hn | hn
    · exact h.sizes_le n hn
    · rw [List.mem_singleton.mp hn]
      exact hle
  · rw [hsize, if_neg (by omega)]
    exact hroot
  · intro n hn
    rcases List.mem_append.mp hn with hn | hn
    · exact h.stored n hn
    · rw [List.mem_singleton.mp hn]
      exact hs
  · exact fun n hn => List.mem_append_left _ hn

end

/-- Sequencing and publishing keep the invariant. -/
theorem Inv.env [DecidableEq H] {s s' : LogSystem H} (h : Inv s) (he : Env s s') : Inv s' ∧
    Le s s' := by
  cases he with
  | append entries answers db hseq =>
    obtain ⟨hof, -, hroot, -, -⟩ := h.db.sequenceEntries hseq
    have hb := hof.bound
    have hle := h.sizes_le _ h.size_mem
    have hsize :
        (⟨db, s.objects, s.log ++ accepted answers, s.sizes⟩ : LogSystem H).size = s.size := by
      change Storage.asU64 db.logState.integratedSize = _
      rw [hof.integrated, Storage.asU64_natCast (by omega)]
    have hlog : s.log <+: s.log ++ accepted answers := List.prefix_append _ _
    have hleaves :
        s.leaves <+: (⟨db, s.objects, s.log ++ accepted answers, s.sizes⟩ : LogSystem H).leaves :=
      hlog.map _
    refine ⟨⟨?_, ?_, ?_, ?_, ?_, ?_, h.stored⟩, ⟨hlog, hsize.ge, fun _ h => h, fun _ h => h⟩⟩
    · rw [hsize]
      dsimp only
      rw [List.drop_append_of_le_length hle]
      exact hof
    · rw [hsize]
      exact h.size_mem
    · intro n hn
      exact (h.sizes_le n hn).trans hlog.length_le
    · rw [hsize]
      dsimp only
      rw [hroot, h.root]
      obtain ⟨E, hE⟩ := hleaves
      rw [← hE, List.take_append_of_le_length
        (by rw [LogSystem.leaves, List.length_map]; exact hle)]
    · intro level index part data hd
      obtain ⟨tile, ht, hto⟩ := h.tile level index part data hd
      exact ⟨tile, ht, hto.mono hleaves⟩
    · intro index part data hd
      obtain ⟨bundle, ht, hbo⟩ := h.bundle index part data hd
      exact ⟨bundle, ht, hbo.mono hlog⟩
  | insertMode mode =>
    exact ⟨⟨h.db.insertMode mode, h.size_mem, h.sizes_le, h.root, h.tile, h.bundle,
      h.stored⟩, ⟨List.prefix_rfl, le_rfl, fun _ h => h, fun _ h => h⟩⟩
  | publish data =>
    refine ⟨h.put (fun level index part heq => ?_) (fun index part heq => ?_), put_le _ _ _⟩
    · exact absurd heq (Api.checkpointPath_ne_tilePath _ _ _)
    · exact absurd heq (Api.checkpointPath_ne_entriesPath _ _)

end Siglog.Worker

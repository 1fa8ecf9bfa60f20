import Siglog.Import.Resume

/-! A log that was imported and is then served. What an import leaves is a state of a
running log, with the input as its entries. So workers can go on from it, and their
objects and those of the import are the same wherever they have the same name. -/

namespace Siglog.Import

open Concurrent (Schedule)
open Concurrent.Sys (runAlone)
open Api (tilePath entriesPath tileWidth tileWidth_eq partialTileSize)
open Merkle (EntryBundle HashTile MapOrder storedTile)
open Rfc (mth seg)
open Worker (BundleObject Contents LogPool LogSystem ObjectPath StoredAt TileObject bundleBytes
  logSys objectWidth tileBytes)

variable {H : Type} [Sha256Hash H] {manifest : Bytes} {data : List Bytes} {chunkSize : ℕ}
  {s : ImportState H}

/-- The log that is served from the database and the storage of an import. -/
def ImportState.served (s : ImportState H) (data : List Bytes) : LogSystem H :=
  ⟨s.db, s.objects, data.map Entry.new, [data.length]⟩

/-! ### What an import leaves -/

omit [Sha256Hash H] in
/-- Nothing is sequenced by an import. -/
theorem runAlone_pending {α : Type} (p : Importer H α) (s : ImportState H) :
    (runAlone ImportState.answer p s).2.db.pendingEntries = s.db.pendingEntries := by
  induction p generalizing s with
  | pure a => rfl
  | fail e => rfl
  | op o k ih =>
    rw [Concurrent.Sys.runAlone, ih]
    cases o with
    | finishImport size root =>
      rw [ImportState.answer, Storage.Database.finishImport]
      split_ifs <;> rfl
    | readObject path => rfl
    | writeObject path data => rfl
    | ensureMode mode => rfl
    | beginImport => rfl
    | syncImport => rfl

theorem leaves_served (s : ImportState H) (data : List Bytes) :
    (s.served data).leaves = data.map hashLeaf := by
  rw [LogSystem.leaves, ImportState.served, List.map_map]
  rfl

/-- A tile of the leaves is right for them. -/
theorem tileObject_stored {X : List H} {level index part : ℕ} (hpart : objectWidth part ≤ tileWidth)
    (hcover : (tileWidth * index + objectWidth part) * 2 ^ (8 * level) ≤ X.length) :
    TileObject X level index part (storedTile X level index (objectWidth part)) := by
  refine ⟨hcover, fun j hj => ?_⟩
  have hnode :=
    (Merkle.storedTile_tileOf X level index hpart).node (0, j) (Merkle.completeIn_bottom.mpr hj)
  rwa [Merkle.flatOffset_zero] at hnode

/-- The bundles of the whole input are stored under the names that they have in its tree. -/
theorem importedBy_bundle (hsize : ∀ entry ∈ data, entry.length ≤ maxEntrySize)
    (haligned : chunkSize % 256 = 0) {index k : ℕ}
    (hk : data.length ≤ chunkSize * k) (hi : tileWidth * index < data.length) :
    ∃ bytes, ImportedBy H data chunkSize k (entriesPath index (partialTileSize 0 index data.length))
      bytes := by
  rw [tileWidth_eq] at hi
  obtain ⟨c, rfl⟩ := Nat.dvd_of_mod_eq_zero haligned
  have hc : 0 < c := by
    rcases Nat.eq_zero_or_pos c with rfl | hc
    · rw [mul_zero, zero_mul] at hk
      omega
    · exact hc
  -- the bundle is in the chunk that starts at `c * j` bundles
  generalize hj : index / c = j
  have hlow : c * j ≤ index := hj ▸ Nat.mul_div_le index c
  have hhigh : index < c * (j + 1) := hj ▸ Nat.lt_mul_div_succ index hc
  have hjk : j < k := by
    by_contra hge
    have := Nat.mul_le_mul_left c (not_lt.mp hge)
    rw [mul_assoc] at hk
    omega
  have hstart : cut data (256 * c) j ≤ tileWidth * index := by
    rw [cut, mul_assoc, tileWidth_eq]
    omega
  have hstop : tileWidth * index < cut data (256 * c) (j + 1) := by
    rw [cut, mul_assoc, tileWidth_eq]
    omega
  have hpart :
      partialTileSize 0 index (cut data (256 * c) (j + 1)) =
        partialTileSize 0 index data.length := by
    rw [Merkle.partialTileSize_eq (by omega), Merkle.partialTileSize_eq (by omega), mul_zero,
      pow_zero, Nat.div_one, Nat.div_one, cut, mul_assoc, tileWidth_eq]
    split_ifs <;> omega
  obtain ⟨bytes, hbytes⟩ : ∃ bytes,
      bundleBytes data index (partialTileSize 0 index (cut data (256 * c) (j + 1))) =
        .ok bytes := by
    refine EntryBundle.toBytes_ok fun entry hentry => hsize entry ?_
    exact List.mem_of_mem_drop (List.mem_of_mem_take hentry)
  refine ⟨bytes, j, hjk, ?_⟩
  rw [← hpart]
  exact .bundle index bytes hstart hstop hbytes

section

variable (h : Imported manifest data chunkSize s)

include h

theorem Imported.size (hmax : data.length ≤ i64Max) : (s.served data).size = data.length := by
  rw [LogSystem.size, ImportState.served, h.row]
  exact Storage.asU64_natCast hmax

theorem Imported.tile (hmax : data.length ≤ i64Max) {level index part : ℕ} {bytes : Bytes}
    (hobj : s.objects (tilePath level index part) = some bytes) :
    bytes = tileBytes (data.map hashLeaf : List H) level index part ∧
      TileObject (data.map hashLeaf : List H) level index part
        (storedTile (data.map hashLeaf) level index (objectWidth part)) := by
  rcases (h.objects _ _).mp hobj with ⟨hpath, -⟩ | ⟨_, j, -, hobject⟩
  · exact absurd hpath.symm (manifestPath_ne_tilePath _ _ _)
  rcases chunkObject_iff.mp
    hobject with ⟨level', index', hgrown, hpath, hbytes⟩ | ⟨index', -, -, hpath, -⟩
  · obtain ⟨rfl, rfl, rfl⟩ := Api.tilePath_injective hpath
    have hrow := row_of_lt hgrown
    have hwidth :=
      Worker.objectWidth_part (Merkle.tile_level_le ((cut_le (j + 1)).trans hmax) hrow) hrow
    refine ⟨hbytes, tileObject_stored (hwidth.trans_le (min_le_left _ _)) ?_⟩
    rw [hwidth, List.length_map]
    exact (Worker.rowWidth_le hrow).trans (cut_le _)
  · exact absurd hpath (Api.tilePath_ne_entriesPath _ _ _ _ _)

theorem Imported.bundle {index part : ℕ} {bytes : Bytes}
    (hobj : s.objects (entriesPath index part) = some bytes) :
    ∃ bundle, EntryBundle.fromBytes bytes = .ok bundle ∧
      BundleObject (s.served data).log index part bundle := by
  rcases (h.objects _ _).mp hobj with ⟨hpath, -⟩ | ⟨_, j, -, hobject⟩
  · exact absurd hpath.symm (manifestPath_ne_entriesPath _ _)
  rcases chunkObject_iff.mp
    hobject with ⟨level, index', -, hpath, -⟩ | ⟨index', -, hi, hpath, hbytes⟩
  · exact absurd hpath.symm (Api.tilePath_ne_entriesPath _ _ _ _ _)
  · obtain ⟨rfl, rfl⟩ := Api.entriesPath_injective hpath
    have hdata : (data.map Entry.new : List (Entry H)).map Entry.data = data := by
      rw [List.map_map]
      exact List.map_id data
    have hrow : tileWidth * index < cut data chunkSize (j + 1) / 2 ^ (8 * 0) := row_zero.mpr hi
    have hcover := Worker.rowWidth_le hrow
    rw [mul_zero, pow_zero, mul_one] at hcover
    refine ⟨_, EntryBundle.fromBytes_toBytes hbytes, ?_, ?_⟩
    · rw [Worker.objectWidth_part (by omega) hrow, ImportState.served, List.length_map]
      exact hcover.trans (cut_le _)
    · rw [ImportState.served, hdata]

theorem Imported.stored (hmax : data.length ≤ i64Max)
    (hsize : ∀ entry ∈ data, entry.length ≤ maxEntrySize)
    (hchunk : 0 < chunkSize) (haligned : chunkSize % 256 = 0) : StoredAt s.objects data.length := by
  have hk : data.length ≤ chunkSize * data.length := Nat.le_mul_of_pos_left _ hchunk
  have hcut : cut data chunkSize data.length = data.length := Nat.min_eq_right hk
  constructor
  · intro level index hrow
    rw [← hcut] at hrow
    have hobj := importedBy_tile (H := H) hmax hrow
    rw [hcut] at hobj
    rw [(h.objects _ _).mpr (.inr ⟨_, hobj⟩)]
    exact Option.some_ne_none _
  · intro index hi
    obtain ⟨bytes, hobj⟩ := importedBy_bundle (H := H) hsize haligned hk hi
    rw [(h.objects _ _).mpr (.inr ⟨_, hobj⟩)]
    exact Option.some_ne_none _

/-- The state of a log. -/
theorem Imported.inv [LawfulSha256Hash H] (hpending : s.db.pendingEntries = [])
    (hpos : 0 < data.length) (hmax : data.length ≤ i64Max)
    (hsize : ∀ entry ∈ data, entry.length ≤ maxEntrySize) (hchunk : 0 < chunkSize)
    (haligned : chunkSize % 256 = 0) :
    Worker.Inv (s.served data) ∧ Contents (s.served data) := by
  have hlen : (data.map hashLeaf : List H).length = data.length := List.length_map _
  have hn := h.size hmax
  have hlog : (s.served data).log.drop data.length = [] :=
    List.drop_of_length_le
      (show (data.map Entry.new).length ≤ data.length from (List.length_map _).le)
  refine ⟨⟨?_, ?_, ?_, ?_, ?_, fun index part bytes => h.bundle, ?_⟩, ?_⟩
  · rw [hn, hlog]
    refine ⟨?_, ?_, by simpa using hmax, hpending⟩
    · change s.db.logState.integratedSize = _
      rw [h.row]
    · change s.db.logState.nextIndex = _
      rw [h.row, List.length_nil, Nat.add_zero]
  · rw [hn]
    exact List.mem_singleton_self _
  · intro n hn
    rw [List.mem_singleton.mp hn]
    exact (List.length_map _).ge
  · rw [hn, if_neg (by omega), leaves_served, List.take_of_length_le hlen.le, ImportState.served,
      h.row]
  · intro level index part bytes hobj
    obtain ⟨hbytes, hobject⟩ := h.tile hmax hobj
    refine ⟨storedTile (data.map hashLeaf) level index (objectWidth part), ?_, ?_⟩
    · rw [hbytes, tileBytes]
      exact HashTile.fromBytes_toBytes _
    · rw [leaves_served]
      exact hobject
  · intro n hn
    rw [List.mem_singleton.mp hn]
    exact h.stored hmax hsize hchunk haligned
  · intro level index part bytes hobj
    rw [leaves_served]
    exact (h.tile hmax hobj).1

end

/-! ### Going on from an import -/

section

variable [LawfulSha256Hash H] [Sha256] [ManifestJson] [LawfulManifestJson] {input : InputSummary}
  {config : ImportConfig}

/-- An import that succeeds, after any number of attempts, leaves a log. -/
theorem runImport_served (hscan : InputSummary.scan (data.map .ok) = .ok input)
    (hs : Attempted input data config.chunkSize s)
    (orders : ℕ → MapOrder H × Schedule) (hconfig : config.valid)
    (hstart : Startable config.resume s) :
    ∃ summary s', runImport orders input config data s = (.ok summary, s') ∧
      summary.rootHash = mth (data.map hashLeaf) ∧
      Worker.Inv (s'.served data) ∧ Contents (s'.served data) := by
  obtain ⟨manifest, hjson⟩ := LawfulManifestJson.toVec_ok input config.chunkSize
  have hsound := hs.sound hscan hjson
  obtain ⟨summary, s', hrun, hdone, hsummary⟩ :=
    runImport_ok orders hconfig hscan hjson hsound hstart
  obtain ⟨hashed, hhashed, -, hpos, hmax⟩ := scan_ok hscan
  have hpending : s'.db.pendingEntries = [] := by
    have hkept := runAlone_pending (bulkImport orders input config (data.map .ok)) s
    change (runImport orders input config data s).2.db.pendingEntries = _ at hkept
    rw [hrun] at hkept
    exact hkept.trans hsound.pending
  have hchunk : 0 < config.chunkSize ∧ config.chunkSize % 256 = 0 := by
    unfold ImportConfig.valid at hconfig
    omega
  exact ⟨summary, s', hrun, hsummary.2.1,
    hdone.inv hpending hpos hmax (length_of_fingerprint hhashed) hchunk.1 hchunk.2⟩

variable [DecidableEq H]

/-- Submissions and cycles go on from an import as from any log: in every state of every run the
input is the start of the log, all its entries are integrated, the objects of the log are right
and complete, and those that the import has stored are as it has stored them. -/
theorem imported_log (hscan : InputSummary.scan (data.map .ok) = .ok input)
    (hs : Attempted input data config.chunkSize s)
    (orders : ℕ → MapOrder H × Schedule) (hconfig : config.valid)
    (hstart : Startable config.resume s) :
    ∃ summary s', runImport orders input config data s = (.ok summary, s') ∧
      ∀ q : LogPool H, Relation.ReflTransGen logSys.Step ⟨s'.served data, []⟩ q →
        Worker.Inv q.shared ∧ data.map Entry.new <+: q.shared.log ∧ data.length ≤ q.shared.size ∧
        ∀ path bytes, ObjectPath path → s'.objects path = some bytes →
          q.shared.objects path = some bytes := by
  obtain ⟨summary, s', hrun, -, hinv, hcontents⟩ := runImport_served hscan hs orders hconfig hstart
  refine ⟨summary, s', hrun, fun q hq => ?_⟩
  obtain ⟨hgood, hle⟩ := Worker.contentsProof.run_good hq ⟨⟨hinv, hcontents⟩, by simp⟩
  have hsize : (s'.served data).size = data.length := (List.mem_singleton.mp hinv.size_mem)
  refine ⟨hgood.1.1, hle.log, hsize ▸ hle.size, fun path bytes hpath hobj => ?_⟩
  obtain ⟨bytes', hobj'⟩ := Option.ne_none_iff_exists'.mp (hle.objects path (by
    change s'.objects path ≠ none
    rw [hobj]
    exact Option.some_ne_none bytes))
  rw [hobj', Worker.objects_eq ⟨hinv, hcontents⟩ hgood.1 hle.log hpath hobj hobj']

/-- The import and the workers build the same log. Whatever submissions and cycles have led to a
log that agrees with the input, each object that both have stored under one name is the same. -/
theorem import_agrees (hscan : InputSummary.scan (data.map .ok) = .ok input)
    (hs : Attempted input data config.chunkSize s)
    (orders : ℕ → MapOrder H × Schedule) (hconfig : config.valid)
    (hstart : Startable config.resume s) :
    ∃ summary s', runImport orders input config data s = (.ok summary, s') ∧
      ∀ p : LogPool H, Worker.Reachable p → p.shared.log <+: data.map Entry.new ∨
        data.map Entry.new <+: p.shared.log →
        (∀ path bytes bytes', ObjectPath path → s'.objects path = some bytes →
          p.shared.objects path = some bytes' →
          bytes = bytes') ∧
        (p.shared.size = data.length → p.shared.db.logState.rootHash = some summary.rootHash) := by
  obtain ⟨summary, s', hrun, hroot, hinv, hcontents⟩ :=
    runImport_served hscan hs orders hconfig hstart
  refine ⟨summary, s', hrun,
    fun p hp hagree => ⟨fun path bytes bytes' hpath hobj hobj' => ?_, fun hsize => ?_⟩⟩
  · have hp' := And.intro (Worker.reachable_inv hp) (Worker.reachable_contents hp)
    rcases hagree with hagree | hagree
    · exact (Worker.objects_eq hp' ⟨hinv, hcontents⟩ hagree hpath hobj' hobj).symm
    · exact Worker.objects_eq ⟨hinv, hcontents⟩ hp' hagree hpath hobj hobj'
  · have hi := Worker.reachable_inv hp
    obtain ⟨-, -, -, hpos, -⟩ := scan_ok hscan
    have hlog : p.shared.log.take data.length = data.map Entry.new := by
      rcases hagree with hagree | hagree
      · have hlen := hi.sizes_le _ hi.size_mem
        rw [hsize] at hlen
        rw [List.take_of_length_le (hagree.length_le.trans (List.length_map _).le)]
        exact hagree.eq_of_length (le_antisymm hagree.length_le ((List.length_map _).le.trans hlen))
      · rw [List.prefix_iff_eq_take.mp hagree, List.length_map]
    rw [hi.root, hsize, if_neg (by omega), LogSystem.leaves, ← List.map_take, hlog, hroot,
      List.map_map]
    rfl

end

/-! ### Small imports -/

section

attribute [local instance] StartHash.sha256 sortedManifest sortedManifest_lawful

theorem imported_log_two :
    ∃ (summary : ImportSummary StartHash) (s s' : ImportState StartHash),
    s.objects (tilePath 0 0 2) ≠ none ∧
    runImport asListed twoInput ⟨256, 16, true⟩ [[1], [2]] s = (.ok summary, s') ∧
      ∀ q : LogPool StartHash, Relation.ReflTransGen logSys.Step ⟨s'.served [[1], [2]], []⟩ q →
        [[1], [2]].map Entry.new <+: q.shared.log ∧ 2 ≤ q.shared.size := by
  have hscan : InputSummary.scan ([[1], [2]].map .ok) = .ok twoInput := rfl
  have hmanifest : interrupted.2.objects manifestPath ≠ none := by decide +kernel
  obtain ⟨summary, s', hrun, hserved⟩ := imported_log hscan attempted_interrupted asListed
    (show (⟨256, 16, true⟩ : ImportConfig).valid by decide) hmanifest
  exact ⟨summary, _, s', by decide +kernel, hrun,
    fun q hq => ⟨(hserved q hq).2.1, (hserved q hq).2.2.1⟩⟩

open Worker (cycled threePending twoCycles twoCycles_size)

theorem import_agrees_three :
    ∃ (summary : ImportSummary StartHash) (input : InputSummary) (s' : ImportState StartHash)
    (p : LogPool StartHash),
    runImport asListed input ⟨256, 16, false⟩ [[1], [2], [3]] .empty = (.ok summary, s') ∧
      Worker.Reachable p ∧ p.shared.size = 3 ∧
      p.shared.db.logState.rootHash = some summary.rootHash := by
  obtain ⟨input, hscan⟩ : ∃ input, InputSummary.scan ([[1], [2], [3]].map .ok) = .ok input :=
    ⟨_, rfl⟩
  have hs : Attempted input [[1], [2], [3]] 256 (ImportState.empty : ImportState StartHash) :=
    .empty
  have hconfig : (⟨256, 16, false⟩ : ImportConfig).valid := by decide
  obtain ⟨summary, s', hrun, hagrees⟩ := import_agrees hscan hs asListed hconfig fun _ => rfl
  obtain ⟨ts, h⟩ := twoCycles
  have hlog : (cycled 10 (cycled 2 threePending)).log = [[1], [2], [3]].map Entry.new := by
    decide +kernel
  have hsize := twoCycles_size
  generalize cycled 10 (cycled 2 threePending) = s at h hlog hsize
  exact ⟨summary, input, s', _, hrun, h, hsize,
    (hagrees _ h (.inl (hlog ▸ List.prefix_rfl))).2 hsize⟩

end

end Siglog.Import

import Siglog.Import.Chunk

/-! Imports that are interrupted and resumed. Whatever attempts leave behind, there are
only objects of the import in the storage, and the log is empty until an attempt succeeds.
A chunk reads tiles under the names that they have at its start, and all of these have
been stored by the chunks before it. -/

namespace Siglog.Import

open Concurrent (Prog Schedule)
open Concurrent.Prog
  (Apart Along AllEnd Reaches along_bind along_weaken along_ofExcept along_translate)
open Api (Path checkpointPath tilePath entriesPath tileWidth tileWidth_eq partialTileSize)
open Merkle (HashTile EntryBundle MapOrder TileKey ReadTile Integrated IntegrationResult
  StoredAnswers TileOf rowWidth storedTile)
open Rfc (mth seg)
open Worker (tileBytes bundleBytes objectWidth)
open Storage (Database Mode)

variable {H : Type} [Sha256Hash H]

/-- The log is empty, and there is nothing in the storage but objects of the import. -/
structure Sound (manifest : Bytes) (data : List Bytes) (chunkSize : ℕ) (s : ImportState H) :
    Prop where
  row : s.db.logState = ⟨0, 0, none⟩
  pending : s.db.pendingEntries = []
  mode : s.db.logConfig = none ∨ s.db.logConfig = some .tessera
  objects : ∀ path bytes, s.objects path = some bytes →
    path = manifestPath ∧ bytes = manifest ∨ ImportObject H data chunkSize path bytes
  first : s.objects manifestPath = none → ∀ path, s.objects path = none

/-- The objects of `k` chunks are stored. Unless the import is resumed, there are none but those
of `j` chunks. -/
structure Stage (manifest : Bytes) (data : List Bytes) (chunkSize : ℕ) (resume : Bool) (k j : ℕ)
    (s : ImportState H) : Prop
    extends Sound manifest data chunkSize s where
  manifest : s.objects manifestPath = some manifest
  stored : ∀ path bytes, ImportedBy H data chunkSize k path bytes → s.objects path = some bytes
  new : resume = false → ∀ path bytes, s.objects path = some bytes →
    path = manifestPath ∨ ImportedBy H data chunkSize j path bytes

variable {manifest : Bytes} {data : List Bytes} {chunkSize : ℕ} {resume : Bool} {k : ℕ}
  {mayFail : Prop} {s : ImportState H}

theorem Sound.tile (h : Sound manifest data chunkSize s) {level index part : ℕ} {bytes : Bytes}
    (hobj : s.objects (tilePath level index part) = some bytes) :
    bytes = tileBytes (data.map hashLeaf : List H) level index part := by
  rcases h.objects _ _ hobj with ⟨hpath, -⟩ | ⟨_, _, -, hchunk⟩
  · exact absurd hpath.symm (manifestPath_ne_tilePath _ _ _)
  · rcases chunkObject_iff.mp
      hchunk with ⟨level', index', -, hpath, hbytes⟩ | ⟨index', -, -, hpath, -⟩
    · obtain ⟨rfl, rfl, rfl⟩ := Api.tilePath_injective hpath
      exact hbytes
    · exact absurd hpath (Api.tilePath_ne_entriesPath _ _ _ _ _)

theorem Sound.checkpoint (h : Sound manifest data chunkSize s) :
    s.objects checkpointPath = none := by
  by_contra hne
  obtain ⟨bytes, hobj⟩ := Option.ne_none_iff_exists'.mp hne
  rcases h.objects _ _ hobj with ⟨hpath, -⟩ | ⟨_, _, -, hchunk⟩
  · exact manifestPath_ne_checkpointPath hpath.symm
  · exact hchunk.ne_checkpoint rfl

/-- A chunk stores one of its objects. -/
theorem Stage.put (h : Stage manifest data chunkSize resume k (k + 1) s) {path : Path}
    {bytes : Bytes}
    (hchunk : ChunkObject H data (cut data chunkSize k) (cut data chunkSize (k + 1)) path bytes)
    (hnone : s.objects path = none) :
    Stage manifest data chunkSize resume k (k + 1) (s.put path bytes) := by
  have hmine : ImportedBy H data chunkSize (k + 1) path bytes := importedBy_succ.mpr (.inr hchunk)
  have hkept : s.Kept (s.put path bytes) := ImportState.kept_put hnone bytes
  have hcases : ∀ path' bytes', (s.put path bytes).objects path' = some bytes' →
      s.objects path' = some bytes' ∨ path' = path ∧ bytes' = bytes := by
    intro path' bytes' hobj
    by_cases heq : path' = path
    · subst heq
      rw [ImportState.put_self] at hobj
      exact .inr ⟨rfl, (Option.some.inj hobj).symm⟩
    · rw [ImportState.put_ne s bytes heq] at hobj
      exact .inl hobj
  have hmanifest := hkept _ _ h.manifest
  refine ⟨⟨h.row, h.pending, h.mode, fun path' bytes' hobj => ?_, fun hnone => ?_⟩, hmanifest,
    fun path' bytes' hobj => ?_, fun hresume path' bytes' hobj => ?_⟩
  · rcases hcases _ _ hobj with hold | ⟨rfl, rfl⟩
    · exact h.objects _ _ hold
    · exact .inr ⟨k + 1, hmine⟩
  · rw [hmanifest] at hnone
    cases hnone
  · exact hkept _ _ (h.stored _ _ hobj)
  · rcases hcases _ _ hobj with hold | ⟨rfl, rfl⟩
    · exact h.new hresume _ _ hold
    · exact .inr hmine

/-! ### Tiles are read back -/

/-- What a chunk reads is the stored tile of the tree before it. -/
theorem reader_along [LawfulSha256Hash H] (hdata : data.length ≤ i64Max)
    (h : Stage manifest data chunkSize resume k k s)
    (o : ReadTile) :
    (reader o).Along (ImportExec mayFail) (fun _ => Sound manifest data chunkSize) (fun x s' =>
      (∀ r, x = .ok r → Stage manifest data chunkSize resume k k s' ∧
        StoredAnswers ((data.map hashLeaf : List H).take (cut data chunkSize k)) o r) ∧
      ∀ e, x = .error e → Sound manifest data chunkSize s' ∧ mayFail) s := by
  obtain ⟨level, index, part⟩ := o
  have hlen : ((data.map hashLeaf : List H).take (cut data chunkSize k)).length =
      cut data chunkSize k := by
    rw [List.length_take, List.length_map]
    exact Nat.min_eq_left (cut_le k)
  refine ⟨h.toSound, fun r s' he => ?_⟩
  obtain ⟨rfl, rfl | ⟨hf, e, rfl⟩⟩ := exec_read he
  · cases hobj : s'.objects (tilePath level index part) with
    | none =>
      refine ⟨?_, by rintro _ ⟨⟩⟩
      rintro _ ⟨⟩
      refine ⟨h, ?_⟩
      rintro hrow rfl
      rw [hlen] at hrow hobj
      rw [h.stored _ _ (importedBy_tile hdata hrow)] at hobj
      cases hobj
    | some bytes =>
      have hbytes := h.tile hobj
      have hparse : HashTile.fromBytes bytes =
          .ok (storedTile (data.map hashLeaf : List H) level index (objectWidth part)) := by
        rw [hbytes]
        exact HashTile.fromBytes_toBytes _
      change Along _ _ _ (((Prog.ofExcept (HashTile.fromBytes bytes)).bind fun tile : HashTile H =>
        Prog.pure (some tile)).translate readOnly) s'
      rw [hparse]
      refine ⟨?_, by rintro _ ⟨⟩⟩
      rintro _ ⟨⟩
      refine ⟨h, ?_⟩
      rintro hrow rfl
      rw [hlen] at hrow ⊢
      have hwidth :=
        Worker.objectWidth_part (Merkle.tile_level_le ((cut_le k).trans hdata) hrow) hrow
      refine ⟨_, rfl, ?_⟩
      rw [hwidth, TileOf.mono (List.take_prefix _ _) (by rw [hlen]; exact Worker.rowWidth_le hrow)]
      exact Merkle.storedTile_tileOf _ _ _ (min_le_left _ _)
  · refine ⟨by rintro _ ⟨⟩, ?_⟩
    rintro _ ⟨⟩
    exact ⟨h.toSound, hf⟩

/-- What integration returns for a chunk. -/
theorem integrate_along [LawfulSha256Hash H] (order : MapOrder H) (hdata : data.length ≤ i64Max)
    {n : ℕ} (hn : n ≤ data.length) (hlt : cut data chunkSize k < n)
    (h : Stage manifest data chunkSize resume k k s) :
    ((Merkle.integrate order (cut data chunkSize k)
      (seg (data.map hashLeaf : List H) (cut data chunkSize k)
        (n - cut data chunkSize k))).translate reader).Along
      (ImportExec mayFail) (fun _ => Sound manifest data chunkSize) (fun x s' =>
        (∃ r, x = .ok r ∧ Stage manifest data chunkSize resume k k s' ∧
          Integrated ((data.map hashLeaf : List H).take (cut data chunkSize k))
            ((data.map hashLeaf).take n) r ∧
          ∀ key tile, r.tiles.lookup key = some tile →
            rowWidth key.level key.index (cut data chunkSize k) < rowWidth key.level key.index n ∧
            TileOf ((data.map hashLeaf).take n) key.level key.index (rowWidth key.level key.index n)
              tile) ∨
        ∃ e, x = .error e ∧ Sound manifest data chunkSize s' ∧ mayFail) s := by
  generalize hX : (data.map hashLeaf : List H) = X
  have hXlen : X.length = data.length := by rw [← hX, List.length_map]
  generalize hm : cut data chunkSize k = m at hlt
  have hsplit : X.take m ++ seg X m (n - m) = X.take n := Rfc.take_append_seg hlt.le
  have hlen : (X.take m).length = m := by
    rw [List.length_take]
    omega
  have hne : seg X m (n - m) ≠ [] := by
    have := Rfc.seg_length (D := X) (show m + (n - m) ≤ X.length by omega)
    intro hnil
    rw [hnil] at this
    simp at this
    omega
  have hint :=
    Merkle.integrate_stored order hne (D := X.take m) (by rw [hsplit, List.length_take]; omega)
  rw [hsplit, hlen] at hint
  have htake : (X.take n).length = n := by
    rw [List.length_take]
    omega
  rw [htake] at hint
  refine along_weaken ?_
    (along_translate (K := Stage manifest data chunkSize resume k k) (A := StoredAnswers (X.take m))
    (E := fun _ s => Sound manifest data chunkSize s ∧ mayFail) (fun o s' h' => ?_) hint h)
  · rintro x s' (⟨hs', r, rfl, hr⟩ | ⟨e, rfl, he⟩)
    · exact .inl ⟨r, rfl, hs', hr⟩
    · exact .inr ⟨e, rfl, he⟩
  · rw [← hX, ← hm]
    exact reader_along hdata h' o

/-! ### One chunk -/

/-- The uploads of a chunk succeed, and then the objects of the chunk are there. -/
theorem uploads_along (schedule : Schedule) {limit : ℕ} (hlimit : 0 < limit)
    (hdata : data.length ≤ i64Max)
    {objects : List (Path × Bytes)} (hnodup : (objects.map Prod.fst).Nodup)
    (hmem : ∀ object : Path × Bytes,
      object ∈ objects ↔
      ChunkObject H data (cut data chunkSize k) (cut data chunkSize (k + 1)) object.1 object.2)
    (h : Stage manifest data chunkSize resume k k s) :
    (Prog.bufferUnordered schedule (fun object => writeImportObject object.1 object.2 resume) limit
      objects).Along
      (ImportExec mayFail) (fun _ => Sound manifest data chunkSize) (fun x s' =>
        (∃ wrote, x = .ok wrote ∧ Stage manifest data chunkSize resume (k + 1) (k + 1) s' ∧
          (resume = false → wrote.count false = 0)) ∨
        ∃ e, x = .error e ∧ Sound manifest data chunkSize s' ∧ mayFail) s := by
  -- what is there under the name of an object is this object, and only when resuming
  have hthere : ∀ object ∈ objects, s.objects object.1 = none ∨ resume = true ∧
      s.objects object.1 = some object.2 := by
    intro object hobject
    have hchunk := (hmem object).mp hobject
    cases hobj : s.objects object.1 with
    | none => exact .inl rfl
    | some existing =>
      have himport : ImportObject H data chunkSize object.1 object.2 :=
        ⟨k + 1, importedBy_succ.mpr (.inr hchunk)⟩
      cases hresume : resume with
      | false =>
        rcases h.new hresume _ _ hobj with hpath | hold
        · exact absurd hpath hchunk.ne_manifest
        · exact absurd hold (hchunk.not_importedBy hdata)
      | true =>
        rcases h.objects _ _ hobj with ⟨hpath, -⟩ | hold
        · exact absurd hpath hchunk.ne_manifest
        · exact .inr ⟨rfl, congrArg some (hold.eq himport)⟩
  have hapart : Apart (ImportExec mayFail)
      (fun o s => Absent o s ∧ Stage manifest data chunkSize resume k (k + 1) s)
      (Stage manifest data chunkSize resume k (k + 1))
        (Upload objects resume mayFail fun object existing =>
        existing = none ∨ resume = true ∧ existing = some object.2) :=
    upload_apart hnodup fun object hobject s hs hnone => hs.put ((hmem object).mp hobject) hnone
  have hstart : Stage manifest data chunkSize resume k (k + 1) s :=
    ⟨h.toSound, h.manifest, h.stored, fun hresume path bytes hobj =>
      (h.new hresume path bytes hobj).imp_right fun hold => importedBy_succ.mpr (.inl hold)⟩
  refine Prog.along_mono (fun o s hs => hs.2.toSound)
    (along_weaken ?_ (Prog.along_bufferUnordered hapart schedule _ hlimit
    hnodup.of_map hstart fun object hobject => ⟨hobject, .inl ⟨rfl, hthere object hobject⟩⟩))
  intro x s' hx
  cases x with
  | ok wrote =>
    obtain ⟨hs', ends, rfl, hperm, hends⟩ := hx
    have hdone : ∀ d ∈ ends, s'.objects d.1.1 = some d.1.2 ∧ (d.2 = true ∨ resume = true) := by
      intro d hd
      rcases (hends d hd).2 with ⟨hp, -⟩ | ⟨hp, -⟩ | ⟨b, hp, hstored, hb⟩ | ⟨e, hp, -⟩
      · rw [writeImportObject_eq] at hp
        cases hp
      · cases hp
      · cases hp
        exact ⟨hstored, hb⟩
      · cases hp
    refine .inl ⟨_, rfl, ⟨hs'.toSound, hs'.manifest, fun path bytes hobj => ?_, hs'.new⟩,
      fun hresume => ?_⟩
    · rcases importedBy_succ.mp hobj with hold | hchunk
      · exact hs'.stored _ _ hold
      · obtain ⟨d, hd, heq⟩ := List.mem_map.mp (hperm.mem_iff.mpr ((hmem (path, bytes)).mpr hchunk))
        have := (hdone d hd).1
        rwa [heq] at this
    · rw [List.count_eq_zero]
      intro hmem
      obtain ⟨d, hd, heq⟩ := List.mem_map.mp hmem
      rcases (hdone d hd).2 with hb | hb
      · rw [heq] at hb
        cases hb
      · rw [hresume] at hb
        cases hb
  | error e =>
    obtain ⟨hs', object, hobject, -,
        ⟨hp, -⟩ | ⟨hp, -⟩ | ⟨b, hp, -⟩ | ⟨_, -, hfail | ⟨existing, hthere', hdiffers⟩⟩⟩ := hx
    · rw [writeImportObject_eq] at hp
      cases hp
    · cases hp
    · cases hp
    · exact .inr ⟨e, rfl, hs'.toSound, hfail⟩
    · rcases hthere' with hnone | ⟨hresume, hsame⟩
      · cases hnone
      · exact absurd ⟨hresume, Option.some.inj hsame⟩ hdiffers

/-- The variables of the loop when it comes to an entry. -/
structure Reached (data : List Bytes) (resume : Bool) (m : ℕ) (p : Progress H) : Prop where
  size : p.size = m
  hashed : fingerprintEntries [] (data.take m) = .ok p.hashed
  root : 0 < m → p.root = some (mth ((data.map hashLeaf : List H).take m))
  verified : resume = false → p.verified = 0

/-- One round of the loop. -/
theorem importChunk_along [LawfulSha256Hash H] (order : MapOrder H) (schedule : Schedule)
    {input : InputSummary}
    {config : ImportConfig} (hconfig : config.valid) (hdata : data.length ≤ i64Max)
    (hinput : input.entries = data.length)
    {hashed : Bytes} (hhashed : fingerprintEntries [] data = .ok hashed)
    (hlt : config.chunkSize * k < data.length)
    {p : Progress H} (hp : Reached data config.resume (cut data config.chunkSize k) p)
    (h : Stage manifest data config.chunkSize config.resume k k s) :
    (importChunk order schedule input config
      (seg data (cut data config.chunkSize k)
        (cut data config.chunkSize (k + 1) - cut data config.chunkSize k)) p).Along
      (ImportExec mayFail) (fun _ => Sound manifest data config.chunkSize) (fun x s' =>
        (∃ p', x = .ok p' ∧ Stage manifest data config.chunkSize config.resume (k + 1) (k + 1) s' ∧
          Reached data config.resume (cut data config.chunkSize (k + 1)) p') ∨
        ∃ e, x = .error e ∧ Sound manifest data config.chunkSize s' ∧ mayFail) s := by
  have hcs : 0 < config.chunkSize ∧ config.chunkSize % 256 = 0 ∧ 0 < config.uploadConcurrency := by
    unfold ImportConfig.valid at hconfig
    omega
  have hnext := cut_lt hcs.1 hlt
  have hle : cut data config.chunkSize (k + 1) ≤ data.length := cut_le (k + 1)
  have haligned : cut data config.chunkSize k % 256 = 0 := by
    rw [cut_of_lt hlt, Nat.mul_mod, hcs.2.1, Nat.zero_mul, Nat.zero_mod]
  have hlen := Rfc.seg_length (D := data) (show cut data config.chunkSize k +
    (cut data config.chunkSize (k + 1) - cut data config.chunkSize k) ≤ data.length by omega)
  obtain ⟨hashed', hhashed'⟩ := fingerprintEntries_take hhashed (cut data config.chunkSize (k + 1))
  have hround : fingerprintEntries p.hashed (seg data (cut data config.chunkSize k)
      (cut data config.chunkSize (k + 1) - cut data config.chunkSize k)) = .ok hashed' := by
    rw [← Rfc.take_append_seg hnext.le, fingerprintEntries_append, hp.hashed] at hhashed'
    exact hhashed'
  rw [importChunk, hp.size, hinput, checkedSub_ok (cut_le k), Prog.bind_eq, Prog.ofExcept_ok,
    Prog.pure_bind, hlen, if_neg (by omega), hround]
  obtain ⟨bundles, hbundles, hmembundles⟩ :=
    chunk_bundles hnext hle haligned (length_of_fingerprint hhashed)
  simp only [Prog.bind_eq, Prog.ofExcept_ok, Prog.pure_bind]
  rw [map_seg]
  refine along_bind (integrate_along order hdata hle hnext h) ?_ ?_
  · rintro r s₁ (⟨_, ⟨⟩, h₁, hr, htiles⟩ | ⟨e, ⟨⟩, -⟩)
    have hsize : r.newSize = cut data config.chunkSize (k + 1) := by
      rw [hr.newSize, List.length_take, List.length_map]
      exact Nat.min_eq_left hle
    have hmemtiles :=
      mem_tileObjects (by rwa [List.length_map]) (by rwa [List.length_map]) hr hnext.le htiles order
    rw [hsize, hbundles, Prog.ofExcept_ok, Prog.pure_bind]
    refine along_bind (uploads_along schedule hcs.2.2 hdata (nodup_objects order _ hbundles)
      (mem_objects hmemtiles hmembundles) h₁) ?_ ?_
    · rintro wrote s₂ (⟨_, ⟨⟩, h₂, hcount⟩ | ⟨e, ⟨⟩, -⟩)
      refine .inl ⟨_, rfl, h₂, rfl, hhashed', fun _ => congrArg some hr.rootHash, fun hresume => ?_⟩
      dsimp only
      rw [hp.verified hresume, hcount hresume]
    · rintro e s₂ (⟨_, ⟨⟩, -⟩ | ⟨_, ⟨⟩, he⟩)
      exact .inr ⟨e, rfl, he⟩
  · rintro e s₁ (⟨_, ⟨⟩, -⟩ | ⟨_, ⟨⟩, he⟩)
    exact .inr ⟨e, rfl, he⟩

/-! ### All chunks -/

/-- The entries that an attempt reads are those of the input, up to an error where reading may
fail. -/
inductive Feeds (mayFail : Prop) : List Bytes → List (Except Error Bytes) → Prop where
  | nil : Feeds mayFail [] []
  | cons (entry : Bytes) {data : List Bytes} {entries : List (Except Error Bytes)}
      (h : Feeds mayFail data entries) :
      Feeds mayFail (entry :: data) (.ok entry :: entries)
  | error (h : mayFail) (data : List Bytes) (e : Error) (entries : List (Except Error Bytes)) :
      Feeds mayFail data (.error e :: entries)

theorem feeds_map (data : List Bytes) : Feeds mayFail data (data.map .ok) := by
  induction data with
  | nil => exact .nil
  | cons entry data ih => exact .cons entry ih

theorem collectChunk_feeds {entries : List (Except Error Bytes)} (h : Feeds mayFail data entries)
    (n : ℕ) :
    (∃ rest, collectChunk n entries = .ok (data.take n, rest) ∧ Feeds mayFail (data.drop n) rest) ∨
      ∃ e, collectChunk n entries = .error e ∧ mayFail := by
  induction h generalizing n with
  | nil =>
    refine .inl ⟨[], ?_, by simpa using .nil⟩
    cases n with
    | zero => rfl
    | succ n => rfl
  | cons entry h ih =>
    cases n with
    | zero => exact .inl ⟨_, rfl, .cons entry h⟩
    | succ n =>
      rw [collectChunk]
      rcases ih n with ⟨rest, hrest, hfeeds⟩ | ⟨e, he, hf⟩
      · exact .inl ⟨rest, by rw [hrest]; rfl, hfeeds⟩
      · exact .inr ⟨e, by rw [he]; rfl, hf⟩
  | error hf data e entries =>
    cases n with
    | zero => exact .inl ⟨_, rfl, .error hf data e entries⟩
    | succ n => exact .inr ⟨e, rfl, hf⟩

/-- The loop, from any chunk on. -/
theorem importChunks_along [LawfulSha256Hash H] (orders : ℕ → MapOrder H × Schedule)
    {input : InputSummary}
    {config : ImportConfig} (hconfig : config.valid) (hdata : data.length ≤ i64Max)
    (hinput : input.entries = data.length)
    {hashed : Bytes} (hhashed : fingerprintEntries [] data = .ok hashed)
    {entries : List (Except Error Bytes)}
    (hfeeds : Feeds mayFail (data.drop (cut data config.chunkSize k)) entries) {p : Progress H}
    (hp : Reached data config.resume (cut data config.chunkSize k) p)
    (h : Stage manifest data config.chunkSize config.resume k k s) :
    (importChunks orders input config entries p).Along (ImportExec mayFail)
      (fun _ => Sound manifest data config.chunkSize)
      (fun x s' => (∃ p' k', x = .ok p' ∧ data.length ≤ config.chunkSize * k' ∧
          Stage manifest data config.chunkSize config.resume k' k' s' ∧
          Reached data config.resume data.length p') ∨
        ∃ e, x = .error e ∧ Sound manifest data config.chunkSize s' ∧ mayFail) s := by
  have hcs : 0 < config.chunkSize := by
    unfold ImportConfig.valid at hconfig
    omega
  induction hrest : entries.length using Nat.strong_induction_on generalizing entries k p s with
  | h n ih =>
    subst hrest
    rcases collectChunk_feeds hfeeds
      config.chunkSize with ⟨rest, hcollect, hfeeds'⟩ | ⟨e, hcollect, hf⟩
    · have hlength := length_collectChunk hcollect
      rcases Nat.lt_or_ge (config.chunkSize * k) data.length with hlt | hge
      · have hchunk := take_drop_cut hlt
        rw [hchunk] at hcollect hlength
        have hnext := cut_lt hcs hlt
        have hle : cut data config.chunkSize (k + 1) ≤ data.length := cut_le (k + 1)
        have hlen := Rfc.seg_length (D := data) (show cut data config.chunkSize k +
          (cut data config.chunkSize (k + 1) - cut data config.chunkSize k) ≤ data.length by omega)
        rw [importChunks_cons (List.length_pos_iff.mp (by omega)) hcollect]
        refine along_bind (importChunk_along _ _ hconfig hdata hinput hhashed hlt hp h) ?_ ?_
        · rintro p' s' (⟨_, ⟨⟩, h', hp'⟩ | ⟨e, ⟨⟩, -⟩)
          refine ih rest.length (by omega) ?_ hp' h' rfl
          rwa [List.drop_drop, drop_cut hlt] at hfeeds'
        · rintro e s' (⟨_, ⟨⟩, -⟩ | ⟨_, ⟨⟩, he⟩)
          exact .inr ⟨e, rfl, he⟩
      · have hend : cut data config.chunkSize k = data.length := Nat.min_eq_right hge
        rw [hend, List.drop_length, List.take_nil] at hcollect
        rw [importChunks_nil hcollect]
        rw [hend] at hp
        exact .inl ⟨p, k, rfl, hge, h, hp⟩
    · rw [importChunks_error hcollect]
      exact .inr ⟨_, rfl, h.toSound, hf⟩

/-! ### A whole attempt -/

/-- The import is done: the log state is set, and all its objects are there and no others. -/
structure Imported (manifest : Bytes) (data : List Bytes) (chunkSize : ℕ) (s : ImportState H) :
    Prop where
  row : s.db.logState = ⟨data.length, data.length, some (mth (data.map hashLeaf))⟩
  objects : ∀ path bytes, s.objects path = some bytes ↔
    path = manifestPath ∧ bytes = manifest ∨ ImportObject H data chunkSize path bytes

/-- What an import returns. -/
def Summarizes (data : List Bytes) (resume : Bool) (summary : ImportSummary H) : Prop :=
  summary.treeSize = data.length ∧ summary.rootHash = mth (data.map hashLeaf) ∧
    (resume = false → summary.objectsVerified = 0)

theorem commitImport_along [Sha256] (hdata : data.length ≤ i64Max) (hpos : 0 < data.length)
    {hashed : Bytes} (hhashed : fingerprintEntries [] data = .ok hashed) {p : Progress H}
    (hp : Reached data resume data.length p)
    (hk : data.length ≤ chunkSize * k) (h : Stage manifest data chunkSize resume k k s) :
    (commitImport ⟨data.length, Text.Hex.encode (digest hashed).1⟩ p).Along (ImportExec mayFail)
      (fun _ => Sound manifest data chunkSize) (fun x s' =>
        (∃ summary, x = .ok summary ∧ Imported manifest data chunkSize s' ∧
          Summarizes data resume summary) ∨
        ∃ e, x = .error e ∧ Sound manifest data chunkSize s' ∧ mayFail) s := by
  have hsame : p.hashed = hashed := by
    have := hp.hashed
    rw [List.take_length, hhashed] at this
    exact (Except.ok.inj this).symm
  have hroot := hp.root hpos
  have hlen : (data.map hashLeaf : List H).length = data.length := List.length_map _
  rw [← hlen, List.take_length] at hroot
  rw [commitImport, hp.size, hsame, if_neg (by simp), hroot]
  refine ⟨h.toSound, fun r s₁ he => ?_⟩
  obtain ⟨rfl, rfl | ⟨hf, e, rfl⟩⟩ := exec_sync he
  · refine ⟨h.toSound, fun r s₂ he => ?_⟩
    rcases exec_finish he with ⟨db, hdb, rfl, rfl⟩ | ⟨e, rfl, rfl, hf | hdb⟩
    · rw [Database.finishImport, if_neg (not_lt.mpr hdata)] at hdb
      obtain rfl := Except.ok.inj hdb
      refine .inl ⟨_, rfl, ⟨rfl, fun path bytes => ⟨h.objects path bytes, ?_⟩⟩, rfl, rfl,
        hp.verified⟩
      rintro (⟨rfl, rfl⟩ | hobj)
      · exact h.manifest
      · exact h.stored _ _ ((importObject_iff hk).mp hobj)
    · exact .inr ⟨e, rfl, h.toSound, hf⟩
    · rw [Database.finishImport, if_neg (not_lt.mpr hdata)] at hdb
      cases hdb
  · exact .inr ⟨e, rfl, h.toSound, hf⟩

/-- An attempt finds what it needs: the manifest if it is to resume, and else an empty storage. -/
def Startable (resume : Bool) (s : ImportState H) : Prop :=
  if resume then s.objects manifestPath ≠ none else ∀ path, s.objects path = none

omit [Sha256Hash H] in
theorem insertMode_tessera {db : Database H}
    (h : db.logConfig = none ∨ db.logConfig = some .tessera) :
    (db.insertMode .tessera).logConfig = some .tessera := by
  rcases h with h | h
  · simp [Database.insertMode, h]
  · simp [Database.insertMode, h]

theorem Sound.insertMode (h : Sound manifest data chunkSize s) :
    Sound manifest data chunkSize { s with db := s.db.insertMode .tessera } :=
  ⟨h.row, h.pending, .inr (insertMode_tessera h.mode), h.objects, h.first⟩

theorem Sound.beginImport (h : Sound manifest data chunkSize s) : s.db.beginImport = .ok () := by
  rw [Database.beginImport, h.row, h.pending, if_neg (by simp)]

theorem not_importedBy_zero {path : Path} {bytes : Bytes} :
    ¬ ImportedBy H data chunkSize 0 path bytes := by
  rintro ⟨j, hj, -⟩
  omega

/-- The manifest is the first object of a storage. -/
theorem Sound.putManifest (h : Sound manifest data chunkSize s)
    (hnone : s.objects manifestPath = none) :
    Stage manifest data chunkSize false 0 0 (s.put manifestPath manifest) := by
  have hcases : ∀ path bytes, (s.put manifestPath manifest).objects path = some bytes →
      path = manifestPath ∧ bytes = manifest := by
    intro path bytes hobj
    by_cases heq : path = manifestPath
    · subst heq
      rw [ImportState.put_self] at hobj
      exact ⟨rfl, (Option.some.inj hobj).symm⟩
    · rw [ImportState.put_ne s manifest heq, h.first hnone] at hobj
      cases hobj
  refine ⟨⟨h.row, h.pending, h.mode, fun path bytes hobj => .inl (hcases path bytes hobj),
    fun hnone => ?_⟩,
    s.put_self _ _, fun path bytes hobj => absurd hobj not_importedBy_zero,
    fun _ path bytes hobj => .inl (hcases path bytes hobj).1⟩
  rw [ImportState.put_self] at hnone
  cases hnone

/-- The manifest is written, or it is there. -/
theorem manifest_along (h : Sound manifest data chunkSize s)
    (hstart : resume = true → s.objects manifestPath ≠ none) :
    (writeImportObject manifestPath manifest resume).Along (ImportExec mayFail)
      (fun _ => Sound manifest data chunkSize)
      (fun x s' => (∃ b, x = .ok b ∧ Stage manifest data chunkSize resume 0 0 s') ∨
        ∃ e, x = .error e ∧ Sound manifest data chunkSize s' ∧ (Startable resume s → mayFail))
        s := by
  rw [writeImportObject_eq]
  refine ⟨h, fun r s₁ he => ?_⟩
  obtain ⟨rfl, rfl | ⟨hf, e, rfl⟩⟩ := exec_read he
  · change Along _ _ _ (afterRead manifestPath manifest resume (s₁.objects manifestPath)) s₁
    cases hobj : s₁.objects manifestPath with
    | some existing =>
      obtain rfl : existing = manifest := by
        rcases h.objects _ _ hobj with ⟨-, rfl⟩ | ⟨_, _, -, hchunk⟩
        · rfl
        · exact absurd rfl hchunk.ne_manifest
      rw [afterRead]
      cases resume with
      | true =>
        rw [if_pos ⟨rfl, rfl⟩]
        exact .inl ⟨false, rfl, h, hobj, fun path bytes hobj => absurd hobj not_importedBy_zero, by
            rintro ⟨⟩⟩
      | false =>
        rw [if_neg (by simp)]
        refine .inr ⟨_, rfl, h, fun hempty => ?_⟩
        have hnone : s₁.objects manifestPath = none := hempty _
        rw [hobj] at hnone
        cases hnone
    | none =>
      cases resume with
      | true => exact absurd hobj (hstart rfl)
      | false =>
        refine ⟨h, fun r s₂ he => ?_⟩
        rcases exec_write he with ⟨-, ⟨rfl, rfl⟩ | ⟨hf, e, rfl⟩⟩
        · exact .inl ⟨true, rfl, h.putManifest hobj⟩
        · refine .inr ⟨e, rfl, ?_, fun _ => hf⟩
          rcases (exec_write he).1 with rfl | rfl
          · exact (h.putManifest hobj).toSound
          · exact h
  · exact .inr ⟨e, rfl, h, fun _ => hf⟩

theorem canStart_along (h : Sound manifest data chunkSize s) :
    (canStart resume).Along (ImportExec mayFail)
    (fun _ => Sound manifest data chunkSize) (fun x s' =>
      (∃ start, x = .ok start ∧ s' = s ∧
        (start = true → resume = true → s.objects manifestPath ≠ none) ∧
        (start = false → ¬ Startable resume s)) ∨
      ∃ e, x = .error e ∧ s' = s ∧ mayFail) s := by
  cases resume with
  | false => exact .inl ⟨true, rfl, rfl, by rintro _ ⟨⟩, by rintro ⟨⟩⟩
  | true =>
    refine ⟨h, fun r s' he => ?_⟩
    obtain ⟨rfl, rfl | ⟨hf, e, rfl⟩⟩ := exec_read he
    · refine .inl ⟨_, rfl, rfl, fun hsome _ hnone => ?_, fun hnone hsome => hsome ?_⟩
      · rw [hnone] at hsome
        cases hsome
      · simpa using hnone
    · exact .inr ⟨e, rfl, rfl, hf⟩

/-- An attempt from the manifest on. -/
theorem importAll_along [LawfulSha256Hash H] [Sha256] (orders : ℕ → MapOrder H × Schedule)
    {config : ImportConfig}
    (hconfig : config.valid) (hdata : data.length ≤ i64Max) (hpos : 0 < data.length)
    {hashed : Bytes}
    (hhashed : fingerprintEntries [] data = .ok hashed) {entries : List (Except Error Bytes)}
    (hfeeds : Feeds mayFail data entries) (h : Sound manifest data config.chunkSize s)
    (hstart : config.resume = true → s.objects manifestPath ≠ none) :
    ((writeImportObject manifestPath manifest config.resume).bind fun _ =>
      (importChunks orders ⟨data.length, Text.Hex.encode (digest hashed).1⟩ config entries
        ⟨[], 0, none, 0, 0⟩).bind fun p =>
        commitImport ⟨data.length, Text.Hex.encode (digest hashed).1⟩ p).Along (ImportExec mayFail)
      (fun _ => Sound manifest data config.chunkSize) (fun x s' =>
        (∃ summary, x = .ok summary ∧ Imported manifest data config.chunkSize s' ∧
          Summarizes data config.resume summary) ∨
        ∃ e, x = .error e ∧ Sound manifest data config.chunkSize s' ∧
          (config.valid → Startable config.resume s → mayFail)) s := by
  refine along_bind (manifest_along h hstart) ?_ ?_
  · rintro _ s₁ (⟨b, ⟨⟩, h₁⟩ | ⟨e, ⟨⟩, -⟩)
    have hp : Reached data config.resume (cut data config.chunkSize 0)
        (⟨[], 0, none, 0, 0⟩ : Progress H) := by
      rw [cut_zero]
      exact ⟨rfl, rfl, fun hzero => absurd hzero (lt_irrefl 0), fun _ => rfl⟩
    refine along_bind (importChunks_along orders hconfig hdata rfl hhashed
      (by rwa [cut_zero, List.drop_zero]) hp h₁) ?_ ?_
    · rintro p s₂ (⟨_, k, ⟨⟩, hk, h₂, hp'⟩ | ⟨e, ⟨⟩, -⟩)
      refine along_weaken ?_ (commitImport_along hdata hpos hhashed hp' hk h₂)
      rintro x s₃ (hok | ⟨e, rfl, hs₃, hf⟩)
      · exact .inl hok
      · exact .inr ⟨e, rfl, hs₃, fun _ _ => hf⟩
    · rintro e s₂ (⟨_, _, ⟨⟩, -⟩ | ⟨_, ⟨⟩, hs₂, hf⟩)
      exact .inr ⟨e, rfl, hs₂, fun _ _ => hf⟩
  · rintro e s₁ (⟨_, ⟨⟩, -⟩ | ⟨_, ⟨⟩, hs₁, hf⟩)
    exact .inr ⟨e, rfl, hs₁, fun _ hstartable => hf hstartable⟩

/-- An attempt keeps the storage sound. It succeeds if it finds what it needs and nothing fails. -/
theorem bulkImport_along [LawfulSha256Hash H] [Sha256] [ManifestJson]
    (orders : ℕ → MapOrder H × Schedule) {input : InputSummary} {config : ImportConfig}
    (hscan : InputSummary.scan (data.map .ok) = .ok input)
    (hjson : ManifestJson.toVec input config.chunkSize = .ok manifest)
    {entries : List (Except Error Bytes)}
    (hfeeds : Feeds mayFail data entries) (h : Sound manifest data config.chunkSize s) :
    (bulkImport orders input config entries).Along (ImportExec mayFail)
      (fun _ => Sound manifest data config.chunkSize)
      (fun x s' => (∃ summary, x = .ok summary ∧ Imported manifest data config.chunkSize s' ∧
          Summarizes data config.resume summary) ∨
        ∃ e, x = .error e ∧ Sound manifest data config.chunkSize s' ∧
          (config.valid → Startable config.resume s → mayFail)) s := by
  obtain ⟨hashed, hhashed, rfl, hpos, hdata⟩ := scan_ok hscan
  rw [bulkImport]
  by_cases hconfig : config.valid
  · rw [if_neg (not_not.mpr hconfig), if_neg (by dsimp only; omega)]
    refine ⟨h, fun r s₁ he => ?_⟩
    rcases exec_mode he with ⟨rfl, rfl⟩ | ⟨hs₁, hf, e, rfl⟩
    · have h₁ := h.insertMode
      have hmode := insertMode_tessera h.mode
      rw [Database.checkMode, hmode]
      refine ⟨h₁, fun r s₂ he => ?_⟩
      obtain ⟨rfl, rfl | ⟨hf, e, rfl⟩⟩ := exec_begin he
      · rw [h₁.beginImport]
        refine ⟨h₁, fun r s₂ he => ?_⟩
        obtain ⟨rfl, rfl | ⟨hf, e, rfl⟩⟩ := exec_read he
        · rw [h₁.checkpoint]
          simp only [Prog.bind_eq, Prog.ofExcept_ok, Prog.pure_bind, Option.isSome_none,
            Bool.false_eq_true, if_false, hjson, Except.mapError]
          refine along_bind (canStart_along h₁) ?_ ?_
          · rintro start s₂ (⟨_, ⟨⟩, rfl, hstart, hstop⟩ | ⟨e, ⟨⟩, -⟩)
            cases start with
            | false =>
              rw [if_pos (by simp)]
              exact .inr ⟨_, rfl, h₁, fun _ hstartable => absurd hstartable (hstop rfl)⟩
            | true =>
              rw [if_neg (by simp)]
              exact importAll_along orders hconfig hdata hpos hhashed hfeeds h₁ (hstart rfl)
          · rintro e s₂ (⟨_, ⟨⟩, -⟩ | ⟨_, ⟨⟩, rfl, hf⟩)
            exact .inr ⟨e, rfl, h₁, fun _ _ => hf⟩
        · exact .inr ⟨e, rfl, h₁, fun _ _ => hf⟩
      · exact .inr ⟨e, rfl, h₁, fun _ _ => hf⟩
    · refine .inr ⟨e, rfl, ?_, fun _ _ => hf⟩
      rcases hs₁ with rfl | rfl
      · exact h.insertMode
      · exact h
  · rw [if_pos hconfig]
    exact .inr ⟨_, rfl, h, fun hvalid => absurd hvalid hconfig⟩

/-! ### Any number of attempts -/

theorem sound_empty : Sound manifest data chunkSize (ImportState.empty : ImportState H) :=
  ⟨rfl, rfl, .inl rfl, by rintro _ _ ⟨⟩, fun _ _ => rfl⟩

section

variable [Sha256] [ManifestJson]

/-- States after attempts with this input and chunk size, none of which has returned a summary. Each
attempt may have had any other settings, and may have been stopped anywhere. -/
inductive Attempted (input : InputSummary) (data : List Bytes) (chunkSize : ℕ) :
    ImportState H → Prop where
  | empty : Attempted input data chunkSize .empty
  | attempt {s s' : ImportState H} {p : Importer H (ImportSummary H)}
      (h : Attempted input data chunkSize s)
      (orders : ℕ → MapOrder H × Schedule) (config : ImportConfig)
      (hchunk : config.chunkSize = chunkSize)
      (entries : List (Except Error Bytes)) (hfeeds : Feeds True data entries)
      (hreaches : Reaches (ImportExec True) (bulkImport orders input config entries) s p s')
      (hstop : ∀ summary, p ≠ .pure summary) : Attempted input data chunkSize s'

/-- Nothing fails, and the whole input is read. -/
def runImport (orders : ℕ → MapOrder H × Schedule) (input : InputSummary) (config : ImportConfig)
    (data : List Bytes)
    (s : ImportState H) : Except (Fault Error) (ImportSummary H) × ImportState H :=
  Concurrent.Sys.runAlone ImportState.answer (bulkImport orders input config (data.map .ok)) s

/-- The paths that this run writes, in order. -/
def writtenPaths (orders : ℕ → MapOrder H × Schedule) (input : InputSummary) (config : ImportConfig)
    (data : List Bytes) (s : ImportState H) : List Path :=
  (Concurrent.Sys.opsAlone ImportState.answer (bulkImport orders input config (data.map .ok))
    s).filterMap ImportOp.written

variable [LawfulSha256Hash H] {input : InputSummary}

theorem Attempted.sound (hscan : InputSummary.scan (data.map .ok) = .ok input)
    (hjson : ManifestJson.toVec input chunkSize = .ok manifest)
    (h : Attempted input data chunkSize s) :
    Sound manifest data chunkSize s := by
  induction h with
  | empty => exact sound_empty
  | @attempt s s' p h orders config hchunk entries hfeeds hreaches hstop ih =>
    subst hchunk
    have halong := Prog.along_reaches (bulkImport_along orders hscan hjson hfeeds ih) hreaches
    cases p with
    | pure summary => exact absurd rfl (hstop summary)
    | fail e =>
      obtain ⟨_, ⟨⟩, -⟩ | ⟨_, ⟨⟩, hsound, -⟩ := halong
      exact hsound
    | op o k => exact halong.1

/-- An import of a sound storage that finds what it needs succeeds. -/
theorem runImport_ok (orders : ℕ → MapOrder H × Schedule) {config : ImportConfig}
    (hconfig : config.valid) (hscan : InputSummary.scan (data.map .ok) = .ok input)
    (hjson : ManifestJson.toVec input config.chunkSize = .ok manifest)
    (h : Sound manifest data config.chunkSize s)
    (hstart : Startable config.resume s) :
    ∃ summary s', runImport orders input config data s = (.ok summary, s') ∧
      Imported manifest data config.chunkSize s' ∧ Summarizes data config.resume summary := by
  have hfeeds : Feeds False data (data.map .ok) := feeds_map data
  have halong := bulkImport_along orders hscan hjson hfeeds h
  have hends := Concurrent.Sys.along_runAlone (fun s o => .answer s o) halong
  obtain ⟨summary, hok, hdone⟩ | ⟨e, -, -, hfails⟩ := hends
  · exact ⟨summary, _, Prod.ext hok rfl, hdone⟩
  · exact (hfails hconfig hstart).elim

/-- An import of an empty log into an empty storage writes each object once and succeeds. After any
number of attempts with the same input and chunk size, the first of which has written the manifest,
a resumed import succeeds with the storage and the log state of an uninterrupted one. No attempt
changes an object, and one that fails leaves the log state as it is. -/
theorem bulkImport_resumable [LawfulManifestJson]
    (hscan : InputSummary.scan (data.map .ok) = .ok input) :
    (∀ (orders : ℕ → MapOrder H × Schedule) (config : ImportConfig), config.valid →
      config.chunkSize = chunkSize →
      config.resume = false →
      ∃ summary s, runImport orders input config data .empty = (.ok summary, s) ∧
        s.db.logState = ⟨data.length, data.length, some (mth (data.map hashLeaf))⟩ ∧
        (writtenPaths orders input config data (.empty : ImportState H)).Nodup ∧
        summary.objectsVerified = 0) ∧
    (∀ s : ImportState H, Attempted input data chunkSize s → s.objects manifestPath ≠ none →
      ∀ (orders : ℕ → MapOrder H × Schedule) (config : ImportConfig), config.valid →
        config.chunkSize = chunkSize →
        config.resume = true →
        ∃ summary s', runImport orders input config data s = (.ok summary, s') ∧
          s'.db.logState = ⟨data.length, data.length, some (mth (data.map hashLeaf))⟩ ∧
          ∀ (orders₀ : ℕ → MapOrder H × Schedule) (config₀ : ImportConfig), config₀.valid →
            config₀.chunkSize = chunkSize →
            config₀.resume = false →
            (runImport orders₀ input config₀ data .empty).2.objects = s'.objects ∧
              (runImport orders₀ input config₀ data .empty).2.db.logState = s'.db.logState) ∧
    ∀ (s : ImportState H) (orders : ℕ → MapOrder H × Schedule) (input : InputSummary)
      (config : ImportConfig)
      (entries : List (Except Error Bytes)) (p : Importer H (ImportSummary H)) (s' : ImportState H),
      Reaches (ImportExec True) (bulkImport orders input config entries) s p s' →
        (∀ p' s'', Reaches (ImportExec True) p s' p' s'' → s'.Kept s'') ∧
        ∀ e, p = .fail e → s'.db.logState = s.db.logState := by
  obtain ⟨manifest, hjson⟩ := LawfulManifestJson.toVec_ok input chunkSize
  have hfresh : ∀ (orders : ℕ → MapOrder H × Schedule) (config : ImportConfig), config.valid →
      config.chunkSize = chunkSize →
      config.resume = false →
      ∃ summary s, runImport orders input config data .empty = (.ok summary, s) ∧
        Imported manifest data chunkSize s ∧ Summarizes data false summary := by
    rintro orders config hconfig rfl hresume
    obtain ⟨summary, s, hrun, hdone, hsummary⟩ :=
      runImport_ok orders hconfig hscan hjson sound_empty
      (by rw [Startable, hresume]; exact fun _ => rfl)
    exact ⟨summary, s, hrun, hdone, hresume ▸ hsummary⟩
  refine ⟨?_, ?_, ?_⟩
  · rintro orders config hconfig hchunk hresume
    obtain ⟨summary, s, hrun, hdone, hsummary⟩ := hfresh orders config hconfig hchunk hresume
    refine ⟨summary, s, hrun, hdone.row, ?_, hsummary.2.2 rfl⟩
    exact (nodup_written
      (Prog.along_mono (fun _ _ h => h.1) (bulkImport_commits orders input config _ _ rfl))).1
  · rintro s hs hmanifest orders config hconfig rfl hresume
    obtain ⟨summary, s', hrun, hdone, -⟩ :=
      runImport_ok orders hconfig hscan hjson (hs.sound hscan hjson)
      (by rw [Startable, hresume]; exact hmanifest)
    refine ⟨summary, s', hrun, hdone.row, ?_⟩
    rintro orders₀ config₀ hconfig₀ hchunk₀ hresume₀
    obtain ⟨_, s₀, hrun₀, hdone₀, -⟩ := hfresh orders₀ config₀ hconfig₀ hchunk₀ hresume₀
    rw [hrun₀]
    refine ⟨?_, hdone₀.row.trans hdone.row.symm⟩
    funext path
    apply Option.ext
    intro bytes
    exact (hdone₀.objects path bytes).trans (hdone.objects path bytes).symm
  · intro s orders input config entries p s' hreaches
    have hcommits : Commits True s.db.logState (bulkImport orders input config entries) :=
      bulkImport_commits orders input config entries
    have hp := Prog.along_reaches (hcommits s rfl) hreaches
    refine ⟨fun p' s'' hr => reaches_kept (fun _ _ h => h.1) hp hr, ?_⟩
    rintro e rfl
    exact hp e rfl

end

section

open Concurrent.Prog (reaches_runFor runFor)

attribute [local instance] StartHash.sha256

/-- The manifest as `serde_json` writes it. -/
local instance sortedManifest : ManifestJson :=
  ⟨fun input chunkSize => .ok (Text.utf8 ("\x7b\"chunk_size\":".toList ++ Text.decimal chunkSize ++
    ",\"input\":\x7b\"entries\":".toList ++ Text.decimal input.entries ++ ",\"sha256\":\"".toList ++
      input.sha256 ++
    "\"\x7d,\"mode\":\"tessera\",\"version\":1\x7d".toList))⟩

local instance sortedManifest_lawful : LawfulManifestJson := ⟨fun _ _ => ⟨_, rfl⟩⟩

/-- Orders and a schedule that leave everything as it comes. -/
def asListed : ℕ → MapOrder StartHash × Schedule := fun _ => (.listed, ⟨[], []⟩)

/-- What the scan finds in two entries. -/
def twoInput : InputSummary :=
  ⟨2, Text.Hex.encode (digest ((fingerprintEntries [] [[1], [2]]).toOption.getD [])).1⟩

/-- An attempt that is stopped before the sync, when the tile and the bundle are written. -/
def interrupted : Importer StartHash (ImportSummary StartHash) × ImportState StartHash :=
  runFor ImportState.answer 9
    (bulkImport asListed twoInput ⟨256, 16, false⟩ ([[1], [2]].map .ok)) .empty

theorem attempted_interrupted : Attempted twoInput [[1], [2]] 256 interrupted.2 := by
  refine .attempt .empty asListed ⟨256, 16, false⟩ rfl _ (feeds_map _)
    (reaches_runFor (fun s o => .answer s o) 9 _ _) fun summary hstop => ?_
  have hnext : interrupted.1.next.isSome = true := by decide +kernel
  rw [interrupted, hstop] at hnext
  cases hnext

/-- An import of two entries, which is resumed after its objects were written. -/
theorem bulkImport_resumable_two : ∃ (summary : ImportSummary StartHash)
    (s s' : ImportState StartHash), InputSummary.scan [.ok [1], .ok [2]] = .ok twoInput ∧
    Attempted twoInput [[1], [2]] 256 s ∧
    s.objects manifestPath ≠ none ∧ s.objects (tilePath 0 0 2) ≠ none ∧
      s.objects (entriesPath 0 2) ≠ none ∧
      runImport asListed twoInput ⟨256, 16, true⟩ [[1], [2]] s = (.ok summary, s') ∧
      s'.db.logState = ⟨2, 2, some (mth [hashLeaf [1], hashLeaf [2]])⟩ := by
  have hscan : InputSummary.scan ([[1], [2]].map .ok) = .ok twoInput := rfl
  have hmanifest : interrupted.2.objects manifestPath ≠ none := by decide +kernel
  obtain ⟨summary, s', hrun, hrow, -⟩ := (bulkImport_resumable hscan).2.1 interrupted.2
    attempted_interrupted hmanifest asListed ⟨256, 16, true⟩ (by decide) rfl rfl
  exact ⟨summary, _, s', hscan, attempted_interrupted, hmanifest, by decide +kernel,
    by decide +kernel, hrun, hrow⟩

end

end Siglog.Import

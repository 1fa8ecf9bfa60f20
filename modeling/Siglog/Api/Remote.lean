import Siglog.Api.Handlers
import Siglog.Client
import Siglog.Merkle.SubtreeHash
import Siglog.Worker.Immutable
import Siglog.Worker.ObjectWidths

/-! A client of a log that is running. The log goes on between the reads of the client, and
all the same every bundle of a size that was integrated is complete, and every entry of it
is proved. -/

namespace Siglog.Api

open Concurrent (Prog)
open Concurrent.Prog (returns_bind_ok returns_mono returns_translateWith)
open Concurrent.Sys (runAlone runAlone_bind runAlone_attempt runAlone_ofExcept)
open Merkle (EntryBundle HashTile InclusionVerifier LawfulInclusionVerifier ReadTile TileAnswers
  TileCorrect
  generateInclusionProof rowWidth)
open Note (Checkpoint)
open Rfc (mth seg)
open Storage (perform)
open Text (Str)
open Witness (HttpTexts Response)
open Worker (BundleObject LogPool LogSystem TileObject logSys objectWidth)

variable {H : Type} [Sha256Hash H]

/-- The response of the log in some state when nothing fails. -/
def respond (s : LogSystem H) (path : Str) : Except (Fault Error) Response :=
  (runAlone LogSystem.answer (Handlers.get path) s).1

/-- What a client makes of a response. -/
def received [HttpTexts] : Except (Fault Error) Response → Except String Bytes
  | .ok response =>
    if 400 ≤ response.status then .error (HttpTexts.status response.status) else .ok response.body
  | .error _ => .error "connection closed before message completed"

/-- Reads from a log at `base` that was once in the state of `p`. What else is at that place is
not told. -/
def SeenFrom [HttpTexts] [DecidableEq H] (p : LogPool H) (base : Str) :
    (o : ClientOp) → o.Answer → Prop
  | .build, r => r = .ok ()
  | .get url, r =>
    ∀ path, (Handlers.route path : Option (Storage.Server H Bytes)) ≠ none →
      url = base ++ '/' :: path →
      ∃ q, Relation.ReflTransGen logSys.Step p q ∧ r = received (respond q.shared path)

/-! ### Responses -/

theorem respond_handler {s : LogSystem H} {path : Str} {handler : Storage.Server H Bytes}
    {data : Bytes} (hroute : Handlers.route path = some handler)
    (hrun : runAlone LogSystem.answer handler s = (.ok data, s)) :
    respond s path = .ok ⟨200, data⟩ := by
  rw [respond, Handlers.get, hroute]
  dsimp only
  rw [Prog.bind_eq, runAlone_bind (by rw [runAlone_attempt, hrun])]
  rfl

theorem respond_tile {s : LogSystem H} {level index part : ℕ} {data : Bytes} (hl : level ≤ 63)
    (hi : index < 2 ^ 64)
    (hp : part < tileWidth) (h : s.objects (tilePath level index part) = some data) :
    respond s (tilePath level index part) = .ok ⟨200, data⟩ := by
  apply respond_handler (route_tilePath level index part)
  rw [Handlers.getTile, parseTilePath_format hl hi hp]
  change runAlone LogSystem.answer (Prog.bind (.pure (s.objects (tilePath level index part))) _) s =
    _
  rw [h]
  rfl

theorem respond_entries {s : LogSystem H} {index part : ℕ} {data : Bytes} (hi : index < 2 ^ 64)
    (hp : part < tileWidth) (h : s.objects (entriesPath index part) = some data) :
    respond s (entriesPath index part) = .ok ⟨200, data⟩ := by
  apply respond_handler (route_entriesPath index part)
  rw [Handlers.getEntries, parseTileIndex_formatNWithSuffix hi hp]
  change runAlone LogSystem.answer (Prog.bind (.pure (s.objects (entriesPath index part))) _) s = _
  rw [h]
  rfl

theorem respond_checkpoint {s : LogSystem H} {data : Bytes}
    (h : s.objects checkpointPath = some data) :
    respond s checkpointPath = .ok ⟨200, data⟩ := by
  have hroute : Handlers.route checkpointPath =
      some (Handlers.getCheckpoint : Storage.Server H Bytes) := if_pos rfl
  apply respond_handler hroute
  change runAlone LogSystem.answer (Prog.bind (.pure (s.objects checkpointPath)) _) s = _
  rw [h]
  rfl

section

variable [HttpTexts] [DecidableEq H]

/-- A read gets what every later state of the log responds. -/
theorem read_returns {p : LogPool H} {client : LogClient H} {path : Str} {limit : ℕ}
    {P : Bytes → Prop} (hroute : (Handlers.route path : Option (Storage.Server H Bytes)) ≠ none)
    (h : ∀ q, Relation.ReflTransGen logSys.Step p q →
      ∃ data, respond q.shared path = .ok ⟨200, data⟩ ∧
      data.length ≤ limit ∧ P data) :
    (client.read path limit).Returns (SeenFrom p client.url)
      (fun x => ∃ data, x = .ok data ∧ P data) := by
  intro r hr
  obtain ⟨q, hpq, rfl⟩ := hr path hroute rfl
  obtain ⟨data, hdata, hlen, hP⟩ := h q hpq
  rw [hdata]
  change (Prog.mapErr Fault.err (Prog.ofExcept (boundedBody data limit))).Returns _ _
  rw [boundedBody, if_neg (Nat.not_lt_of_le hlen)]
  exact ⟨data, rfl, hP⟩

/-! ### Bundles -/

section

variable [LawfulSha256Hash H] {p : LogPool H} {client : LogClient H} {n : ℕ}

omit [HttpTexts] in
/-- Sizes that were integrated stay in range. -/
theorem size_le (h : Worker.Reachable p) (hn : n ∈ p.shared.sizes) : n ≤ p.shared.log.length ∧
    n ≤ i64Max := by
  have hinv := Worker.reachable_inv h
  have := hinv.sizes_le n hn
  have := hinv.length_log_le
  omega

omit [Sha256Hash H] [HttpTexts] [DecidableEq H] [LawfulSha256Hash H] in
theorem seg_prefix {α : Type} {X Y : List α} (hXY : X <+: Y) {a c : ℕ} (h : a + c ≤ X.length) :
    seg Y a c = seg X a c := by
  obtain ⟨E, rfl⟩ := hXY
  exact Rfc.seg_append_left h E

/-- Every bundle of an integrated size is fetched with all of its entries. -/
theorem bundle_served (h : Worker.Reachable p) (hn : n ∈ p.shared.sizes) {index : ℕ}
    (hi : tileWidth * index < n) :
    (client.bundle index n).Returns (SeenFrom p client.url) (fun x => x = .ok
      ⟨seg (p.shared.log.map Entry.data) (tileWidth * index) (LogClient.bundleCount index n)⟩) := by
  obtain ⟨hlog, hmax⟩ := size_le h hn
  have hrow : tileWidth * index < n / 2 ^ (8 * 0) := by simpa using hi
  have hpart := Worker.bundleCount_mod hi
  have hwidth : objectWidth (partialTileSize 0 index n) = LogClient.bundleCount index n := by
    rw [Worker.objectWidth_part (by omega) hrow, rowWidth, mul_zero, pow_zero, Nat.div_one,
      LogClient.bundleCount, tileWidth_eq, mul_comm, min_comm]
  have hserved : ∀ q, Relation.ReflTransGen logSys.Step p q → ∃ data,
      respond q.shared (entriesPath index (LogClient.bundleCount index n % 256)) = .ok ⟨200, data⟩ ∧
        data.length ≤ LogClient.bundleCount index n * (65535 + 2) ∧ EntryBundle.fromBytes data =
          .ok ⟨seg (p.shared.log.map Entry.data) (tileWidth * index)
            (LogClient.bundleCount index n)⟩ := by
    intro q hpq
    have hle := Worker.run_le h hpq
    have hinv := Worker.reachable_inv (Relation.ReflTransGen.trans h hpq)
    obtain ⟨data, hdata⟩ :=
      Option.ne_none_iff_exists'.mp ((hinv.stored n (hle.sizes n hn)).bundle index hi)
    obtain ⟨bundle, hbundle, hcover, hentries⟩ := hinv.bundle index _ data hdata
    rw [hwidth] at hcover hentries
    have hseg : seg (q.shared.log.map Entry.data) (tileWidth * index)
        (LogClient.bundleCount index n) =
        seg (p.shared.log.map Entry.data) (tileWidth * index) (LogClient.bundleCount index n) := by
      refine seg_prefix (hle.log.map _) ?_
      rw [List.length_map, tileWidth_eq, LogClient.bundleCount]
      rw [tileWidth_eq] at hi
      omega
    obtain ⟨entries⟩ := bundle
    obtain rfl : entries = _ := hentries
    have hlen := EntryBundle.length_entriesToBytes_le (EntryBundle.toBytes_fromBytes hbundle)
    refine ⟨data, ?_, ?_, ?_⟩
    · rw [hpart]
      refine respond_entries ?_ (Worker.partialTileSize_lt (by omega)) hdata
      rw [tileWidth_eq] at hi
      unfold i64Max at hmax
      omega
    · refine hlen.trans (Nat.mul_le_mul_right _ ?_)
      exact (List.length_take_le _ _)
    · rw [hbundle, hseg]
  have hlength :
      (seg (p.shared.log.map Entry.data) (tileWidth * index)
        (LogClient.bundleCount index n)).length =
      LogClient.bundleCount index n := by
    rw [tileWidth_eq] at hi ⊢
    rw [seg, List.length_take, List.length_drop, List.length_map, LogClient.bundleCount]
    omega
  rw [LogClient.bundle, if_neg (by rw [tileWidth_eq] at hi; omega)]
  refine returns_bind_ok (read_returns (by simp [route_entriesPath]) hserved) fun data hdata => ?_
  rw [hdata]
  change (if _ then _ else _ : Client EntryBundle).Returns _ _
  rw [if_neg (by rw [hlength]; simp)]
  exact rfl

/-! ### Tiles -/

/-- The client reads from `base`, and the tiles that it keeps are right for the leaves. -/
def Cached (leaves : List H) (base : Str) (client : LogClient H) : Prop :=
  client.url = base ∧
  ∀ level index part tile, client.tiles.lookup (tilePath level index part) = some tile →
    TileObject leaves level index part tile

omit [HttpTexts] [DecidableEq H] [LawfulSha256Hash H] in
theorem Cached.mono {X Y : List H} (hXY : X <+: Y) {base : Str} {client : LogClient H}
    (h : Cached X base client) :
    Cached Y base client :=
  ⟨h.1, fun level index part tile hlook => (h.2 level index part tile hlook).mono hXY⟩

omit [HttpTexts] in
/-- A tile of an integrated size has all the nodes that its name promises, and the response is
not too long. -/
theorem tile_served (h : Worker.Reachable p) (hn : n ∈ p.shared.sizes) {level index : ℕ}
    (hrow : tileWidth * index < n / 2 ^ (8 * level)) {q : LogPool H}
    (hpq : Relation.ReflTransGen logSys.Step p q) :
    ∃ tile : HashTile H, respond q.shared (tilePath level index (partialTileSize level index n)) =
      .ok ⟨200, tile.toBytes⟩ ∧
      tile.nodes.length ≤ 510 ∧ objectWidth (partialTileSize level index n) ≤ tile.nodes.length ∧
      TileObject p.shared.leaves level index (partialTileSize level index n) tile := by
  obtain ⟨hlog, hmax⟩ := size_le h hn
  have hl := Merkle.tile_level_le hmax hrow
  have hle := Worker.run_le h hpq
  have hq : Worker.Reachable q := Relation.ReflTransGen.trans h hpq
  have hinv := Worker.reachable_inv hq
  obtain ⟨data, hdata⟩ :=
    Option.ne_none_iff_exists'.mp ((hinv.stored n (hle.sizes n hn)).tile level index hrow)
  obtain ⟨tile, htile, hobj⟩ := hinv.tile level index _ data hdata
  have hbytes := Worker.reachable_contents hq level index _ data hdata
  have heq : tile = Merkle.storedTile q.shared.leaves level index
      (objectWidth (partialTileSize level index n)) := by
    rw [hbytes, Worker.tileBytes, HashTile.fromBytes_toBytes] at htile
    exact (Except.ok.inj htile).symm
  have hwidth := Worker.objectWidth_part hl hrow
  have hcover := Worker.rowWidth_le hrow
  rw [← hwidth] at hcover
  have hpos : 0 < objectWidth (partialTileSize level index n) := by
    rw [hwidth, rowWidth, tileWidth_eq]
    rw [tileWidth_eq] at hrow
    omega
  have hlen : p.shared.leaves.length = p.shared.log.length := List.length_map _
  refine ⟨tile, ?_, ?_, ?_, ?_⟩
  · rw [respond_tile (by omega) ?_ (Worker.partialTileSize_lt hl) hdata, hbytes, heq]
    · rfl
    · have := Nat.div_le_self n (2 ^ (8 * level))
      rw [tileWidth_eq] at hrow
      unfold i64Max at hmax
      omega
  · rw [heq]
    exact Merkle.length_storedTile_le _ _ _ _
  · obtain ⟨hlast, -⟩ := List.getElem?_eq_some_iff.mp
      (hobj.2 (objectWidth (partialTileSize level index n) - 1) (by omega))
    omega
  · refine ⟨hcover.trans (by omega), fun j hj => ?_⟩
    rw [hobj.2 j hj]
    obtain ⟨E, hE⟩ : p.shared.leaves <+: q.shared.leaves := hle.log.map _
    rw [← hE, Rfc.subtree_append_left]
    exact (Nat.mul_le_mul_right _ (by omega)).trans (hcover.trans (by omega))

/-- Every tile that a proof for an integrated size needs is read right, from the log or from those
that were read before. -/
theorem readTile_served (h : Worker.Reachable p) (hn : n ∈ p.shared.sizes) {base : Str}
    (hc : Cached p.shared.leaves base client)
    (o : ReadTile) (hneed : ∀ r : o.Answer H, TileAnswers (p.shared.leaves.take n) o r → r.isSome) :
    (client.readTile o).Returns (SeenFrom p base) (fun x => ∃ r client, x = .ok (r, client) ∧
      TileAnswers (p.shared.leaves.take n) o r ∧ Cached p.shared.leaves base client) := by
  obtain ⟨level, index, part⟩ := o
  obtain ⟨hlog, hmax⟩ := size_le h hn
  have hlen : (p.shared.leaves.take n).length = n := by
    rw [Worker.LogSystem.leaves, List.length_take, List.length_map]
    exact Nat.min_eq_left hlog
  -- a read that any answer would do for is not needed
  have hin : tileWidth * index < n / 2 ^ (8 * level) ∧ part = partialTileSize level index n := by
    by_contra hout
    have hnone :=
      hneed none (fun hrow hpart => absurd (by rw [hlen] at hrow hpart; exact ⟨hrow, hpart⟩) hout)
    exact absurd hnone (by simp)
  obtain ⟨hrow, rfl⟩ := hin
  have hobject :
      ∀ tile, TileObject p.shared.leaves level index (partialTileSize level index n) tile →
      TileAnswers (p.shared.leaves.take n) ⟨level, index, partialTileSize level index n⟩
        (some tile) := by
    intro tile htile hrow' hpart'
    refine ⟨tile, rfl,
      Worker.tileCorrect_of_object (List.take_prefix n _) (hlen.trans_le hmax) hrow' ?_⟩
    rwa [← hpart']
  obtain ⟨rfl, htiles⟩ := hc
  rw [LogClient.readTile]
  dsimp only
  cases hlook : client.tiles.lookup (tilePath level index (partialTileSize level index n)) with
  | some tile => exact ⟨some tile, client, rfl, hobject tile (htiles _ _ _ tile hlook), rfl, htiles⟩
  | none =>
    dsimp only
    have hcount :
        (if partialTileSize level index n = 0 then 256 else partialTileSize level index n) =
        objectWidth (partialTileSize level index n) := by
      rw [objectWidth, tileWidth_eq]
    rw [hcount]
    refine returns_bind_ok (P := fun data => ∃ tile : HashTile H, data = tile.toBytes ∧
        objectWidth (partialTileSize level index n) ≤ tile.nodes.length ∧
        TileObject p.shared.leaves level index (partialTileSize level index n) tile) ?_ ?_
    · refine read_returns (by simp [route_tilePath]) fun q hpq => ?_
      obtain ⟨tile, hrespond, hlong, hwide, hobj⟩ := tile_served h hn hrow hpq
      refine ⟨_, hrespond, ?_, tile, rfl, hwide, hobj⟩
      rw [Worker.length_toBytes]
      omega
    · rintro _ ⟨tile, rfl, hwide, hobj⟩
      have hbytes := Worker.length_toBytes tile
      rw [if_neg (by omega), HashTile.take_toBytes, HashTile.fromBytes_toBytes]
      have hrow' : TileObject p.shared.leaves level index (partialTileSize level index n)
          ⟨tile.nodes.take (objectWidth (partialTileSize level index n))⟩ := by
        refine ⟨hobj.1, fun j hj => ?_⟩
        rw [List.getElem?_take_of_lt hj]
        exact hobj.2 j hj
      refine ⟨some _, _, rfl, hobject _ hrow', rfl, fun level' index' part' tile' hlook' => ?_⟩
      -- a cached tile is the one just read, or one of those that were there
      by_cases hpath :
        tilePath level' index' part' = tilePath level index (partialTileSize level index n)
      · obtain ⟨rfl, rfl, rfl⟩ := Api.tilePath_injective hpath
        rw [AList.lookup_insert] at hlook'
        obtain rfl := Option.some.inj hlook'
        exact hrow'
      · rw [AList.lookup_insert_ne hpath] at hlook'
        split_ifs at hlook'
        · exact absurd hlook' (by simp [AList.lookup_empty])
        · exact htiles _ _ _ _ hlook'

/-! ### Entries -/

variable [InclusionVerifier H] [LawfulInclusionVerifier H]

/-- Every entry of an integrated size is proved for a checkpoint of that size. -/
theorem verifyEntry_served (h : Worker.Reachable p) (hn : n ∈ p.shared.sizes) {base : Str}
    (hc : Cached p.shared.leaves base client)
    {index : ℕ} {entry : Entry H} (hentry : p.shared.log[index]? = some entry) (hi : index < n)
    {checkpoint : Checkpoint H} (hsize : checkpoint.size = n)
    (hroot : checkpoint.rootHash = mth (p.shared.leaves.take n)) :
    (client.verifyEntry entry.data index checkpoint).Returns (SeenFrom p base)
      (fun x => ∃ client, x = .ok client ∧ Cached p.shared.leaves base client) := by
  obtain ⟨hlog, hmax⟩ := size_le h hn
  have hlen : (p.shared.leaves.take n).length = n := by
    rw [Worker.LogSystem.leaves, List.length_take, List.length_map]
    exact Nat.min_eq_left hlog
  have hleaf : (p.shared.leaves.take n)[index]? = some (hashLeaf entry.data) := by
    rw [List.getElem?_take_of_lt hi, Worker.LogSystem.leaves, List.getElem?_map, hentry]
    exact congrArg some entry.leafHash_eq
  have hproof := Merkle.generateInclusionProof_returns (D := p.shared.leaves.take n) (by rwa [hlen])
    (hlen.trans_le hmax)
  rw [hlen] at hproof
  have hrun := returns_translateWith (B := SeenFrom p base) (I := Cached p.shared.leaves base)
    (V := fun proof =>
      proof = Rfc.path index (p.shared.leaves.take n)) (f := LogClient.readTile)
    (fun client o hc hneed => readTile_served h hn hc o hneed)
      (Merkle.generateInclusionProof_stops index n)
    (returns_mono (fun x hx => ⟨_, hx, rfl⟩) hproof) hc
  have hverify :=
    (LawfulInclusionVerifier.verify_iff _ _ _ _ _).mpr (Rfc.verifyInclusion_path hleaf)
  rw [hlen] at hverify
  rw [LogClient.verifyEntry, hsize, hroot, if_neg (by omega)]
  refine returns_bind_ok (P := fun rs => rs.1 = Rfc.path index (p.shared.leaves.take n) ∧
    Cached p.shared.leaves base rs.2) ?_ ?_
  · refine returns_mono ?_ hrun
    rintro _ ⟨proof, client, rfl, rfl, hc⟩
    exact ⟨_, rfl, rfl, hc⟩
  · rintro ⟨_, client⟩ ⟨rfl, hc⟩
    dsimp only
    rw [hverify]
    exact ⟨client, rfl, hc⟩

omit [InclusionVerifier H] [LawfulInclusionVerifier H] in
/-- An entry is at its place in its bundle. -/
theorem bundle_entry (h : Worker.Reachable p) (hn : n ∈ p.shared.sizes) {index : ℕ}
    {entry : Entry H} (hentry : p.shared.log[index]? = some entry) (hi : index < n) :
    (client.bundle (index / 256) n).Returns (SeenFrom p client.url)
      (fun x => ∃ bundle, x = .ok bundle ∧
      bundle.entries.length = LogClient.bundleCount (index / 256) n ∧
      bundle.entries[index % 256]? = some entry.data) := by
  have hbundle : tileWidth * (index / 256) < n := by
    rw [tileWidth_eq]
    omega
  refine returns_mono ?_ (bundle_served h hn hbundle)
  rintro _ rfl
  obtain ⟨hlog, -⟩ := size_le h hn
  have hcount : index % 256 < LogClient.bundleCount (index / 256) n := by
    unfold LogClient.bundleCount
    omega
  refine ⟨_, rfl, ?_, ?_⟩
  · rw [seg, List.length_take, List.length_drop, List.length_map, tileWidth_eq,
      LogClient.bundleCount]
    omega
  · rw [seg, List.getElem?_take_of_lt hcount, List.getElem?_drop, List.getElem?_map, tileWidth_eq,
      Nat.div_add_mod, hentry]
    rfl

/-- While the log goes on, a client gets each entry of every integrated size from its bundle,
and proves it for the checkpoint of that size. The tiles that it keeps stay right for the log
as it grows, so it can go on to the next entry. -/
theorem entries_served (h : Worker.Reachable p) (hn : n ∈ p.shared.sizes) {base : Str}
    (hc : Cached p.shared.leaves base client)
    {index : ℕ} {entry : Entry H} (hentry : p.shared.log[index]? = some entry) (hi : index < n)
    {c : Checkpoint H} (hsize : c.size = n) (hroot : c.rootHash = mth (p.shared.leaves.take n)) :
    (client.bundle (index / 256) n).Returns (SeenFrom p base) (fun x => ∃ bundle, x = .ok bundle ∧
      bundle.entries.length = LogClient.bundleCount (index / 256) n ∧
      bundle.entries[index % 256]? = some entry.data) ∧
    (client.verifyEntry entry.data index c).Returns (SeenFrom p base)
      (fun x => ∃ client, x = .ok client ∧
      ∀ q, Relation.ReflTransGen logSys.Step p q → Cached q.shared.leaves base client) := by
  refine ⟨hc.1 ▸ bundle_entry h hn hentry hi,
    returns_mono ?_ (verifyEntry_served h hn hc hentry hi hsize hroot)⟩
  rintro _ ⟨client, rfl, hc'⟩
  exact ⟨client, rfl, fun q hpq => hc'.mono ((Worker.run_le h hpq).log.map _)⟩

end

end

/-! ### A client of three entries -/

section

open Rfc (VerifyInclusion)
open Worker (cycled threePending twoCycles twoCycles_size)

attribute [local instance] Witness.plainTexts Merkle.rootVerifier Merkle.rootVerifier_lawful

/-- A client that has read nothing. -/
def freshClient : LogClient StartHash := ⟨"https://log".toList, ∅⟩

theorem entries_served_three : ∃ p : LogPool StartHash, Worker.Reachable p ∧ p.shared.size = 3 ∧
    (freshClient.bundle 0 3).Returns (SeenFrom p freshClient.url)
      (fun x => ∃ bundle, x = .ok bundle ∧
      bundle.entries.length = 3 ∧ bundle.entries[2]? = some [3]) := by
  obtain ⟨ts, h⟩ := twoCycles
  have hsize := twoCycles_size
  have hentry : (cycled 10 (cycled 2 threePending)).log[2]? = some (Entry.new [3]) := by
    decide +kernel
  generalize cycled 10 (cycled 2 threePending) = s at h hsize hentry
  have hmem : 3 ∈ s.sizes := hsize ▸ (Worker.reachable_inv h).size_mem
  have hfresh : Cached s.leaves freshClient.url freshClient := ⟨rfl, fun _ _ _ _ h => by cases h⟩
  exact ⟨_, h, hsize, (entries_served h hmem hfresh hentry (by decide)
    (c := ⟨Note.logOrigin, 3, mth (s.leaves.take 3)⟩) rfl rfl).1⟩

end

end Siglog.Api

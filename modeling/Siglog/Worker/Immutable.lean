import Siglog.Merkle.StoredTile
import Siglog.Worker.LogRuns

/-! Stored tiles and bundles never change. Whichever worker writes an object, and however
the entries came in batches, its bytes are a function of the entries that it covers. -/

namespace Siglog.Worker

open Concurrent (Prog)
open Api (Path checkpointPath tilePath entriesPath tileWidth tileWidth_eq partialTileSize)
open Merkle (HashTile EntryBundle MapOrder TileKey Integrated IntegrationResult ReadTile
  StoredAnswers TileOf rowWidth
  storedTile)
open Rfc (seg)
open Storage (Op Server PendingEntry perform toPending TileStorage.reader)

variable {H : Type} [Sha256Hash H]

/-- The number of entries that a tile covers. -/
def tileCover (level index part : ℕ) : ℕ := (tileWidth * index + objectWidth part) * 2 ^ (8 * level)

/-- The bytes of a tile over these leaves. -/
def tileBytes (leaves : List H) (level index part : ℕ) : Bytes :=
  (storedTile leaves level index (objectWidth part)).toBytes

theorem tileBytes_grow {X Y : List H} (hXY : X <+: Y) {level index part : ℕ}
    (hX : tileCover level index part ≤ X.length) :
    tileBytes Y level index part = tileBytes X level index part := by
  obtain ⟨E, rfl⟩ := hXY
  rw [tileBytes, tileBytes, Merkle.storedTile_append hX]

/-- Every stored tile has the bytes of its place. -/
def Contents (s : LogSystem H) : Prop := ∀ level index part data,
  s.objects (tilePath level index part) = some data → data = tileBytes s.leaves level index part

/-- A stored tile covers entries of the log. -/
theorem Inv.cover_le {s : LogSystem H} (h : Inv s) {level index part : ℕ} {data : Bytes}
    (hdata : s.objects (tilePath level index part) = some data) :
    tileCover level index part ≤ s.leaves.length := by
  obtain ⟨_, -, hobj⟩ := h.tile level index part data hdata
  exact hobj.1

theorem Contents.grow {s s' : LogSystem H} (h : Contents s) (hi : Inv s) (hlog : s.log <+: s'.log)
    (hobjects : ∀ level index part data, s'.objects (tilePath level index part) = some data →
      s.objects (tilePath level index part) = some data) : Contents s' := by
  intro level index part data hdata
  have hdata' := hobjects level index part data hdata
  have hleaves : s.leaves <+: s'.leaves := hlog.map _
  rw [tileBytes_grow hleaves (hi.cover_le hdata')]
  exact h level index part data hdata'

/-- The operation stores no tile but those of the log. -/
def StoresTiles (L : List (Entry H)) : Op H → Prop
  | .writeObject path data => ∀ level index part, path = tilePath level index part →
      tileCover level index part ≤ L.length ∧
      data = tileBytes (L.map Entry.leafHash) level index part
  | _ => True

theorem Contents.put {s : LogSystem H} (h : Contents s) {L : List (Entry H)} (hL : L <+: s.log)
    {path : Path} {data : Bytes}
    (hstores : StoresTiles L (.writeObject path data)) : Contents (s.put path data) := by
  intro level index part d hd
  change (if tilePath level index part = path then some data else s.objects _) = some d at hd
  split_ifs at hd with heq
  · obtain rfl := Option.some.inj hd
    obtain ⟨hcover, hbytes⟩ := hstores level index part heq.symm
    rw [hbytes]
    exact (tileBytes_grow (hL.map _) (by rwa [List.length_map])).symm
  · exact h level index part d hd

theorem StoresTiles.contents {L : List (Entry H)} {o : Op H} (ho : StoresTiles L o)
    {s : LogSystem H} (hL : L <+: s.log)
    (h : Contents s) {r : o.Answer H} {s' : LogSystem H} (he : Exec s o r s') : Contents s' := by
  cases he with
  | fault => exact h
  | read => exact h
  | write => exact h.put hL ho
  | writeLost => exact h.put hL ho
  | getLogState => exact h
  | getPendingEntries => exact h
  | mark => exact h
  | markLost => exact h
  | markError => exact h
  | indexEntry => exact h
  | flushIndex => exact h
  | maybeSnapshot => exact h

/-- The bytes of a stored tile are given by the entries that it covers. -/
theorem Inv.object_tile {s : LogSystem H} (h : Inv s) (hc : Contents s) {level index part : ℕ}
    {data : Bytes} (hobj : s.objects (tilePath level index part) = some data) :
    tileCover level index part ≤ s.log.length ∧
      data = tileBytes ((s.log.take (tileCover level index part)).map Entry.leafHash) level index
        part := by
  have hcover := h.cover_le hobj
  have hlen : s.leaves.length = s.log.length := List.length_map _
  refine ⟨hlen ▸ hcover, ?_⟩
  have hpre : (s.log.take (tileCover level index part)).map Entry.leafHash <+: s.leaves :=
    (List.take_prefix _ _).map _
  rw [← tileBytes_grow hpre (by rw [List.length_map, List.length_take]; omega)]
  exact hc level index part data hobj

/-- The number of entries up to the last one of a bundle. -/
def bundleCover (index part : ℕ) : ℕ := tileWidth * index + objectWidth part

/-- The bytes of a bundle of these entries. -/
def bundleBytes (entries : List Bytes) (index part : ℕ) : Except (Fault Error) Bytes :=
  EntryBundle.toBytes ⟨seg entries (tileWidth * index) (objectWidth part)⟩

theorem Inv.object_bundle {s : LogSystem H} (h : Inv s) {index part : ℕ} {data : Bytes}
    (hobj : s.objects (entriesPath index part) = some data) :
    bundleCover index part ≤ s.log.length ∧
      bundleBytes ((s.log.take (bundleCover index part)).map Entry.data) index part = .ok data := by
  obtain ⟨bundle, hbundle, hcover, hentries⟩ := h.bundle index part data hobj
  refine ⟨hcover, ?_⟩
  have hseg : seg (s.log.map Entry.data) (tileWidth * index) (objectWidth part) =
      seg ((s.log.take (bundleCover index part)).map Entry.data) (tileWidth * index)
        (objectWidth part) := by
    conv_lhs => rw [← List.take_append_drop (bundleCover index part) s.log, List.map_append]
    rw [Rfc.seg_append_left]
    rw [List.length_map, List.length_take, bundleCover]
    omega
  rw [bundleBytes, ← hseg, ← hentries]
  exact EntryBundle.toBytes_fromBytes hbundle

/-! ### Cycles -/

/-- The program keeps the contents of all tiles and ends as asserted. -/
def Keeps {α : Type} (p : Server H α) (P : α → LogSystem H → Prop) (s : LogSystem H) : Prop :=
  p.Safe Exec (fun s => Inv s ∧ Contents s) Le Le (Ends P) s

section

variable {α β : Type} {s : LogSystem H} {P : α → LogSystem H → Prop}

theorem keeps_bind {p : Server H α} {f : α → Server H β} {Q : β → LogSystem H → Prop}
    (hp : Keeps p P s) (hf : ∀ a s, P a s → Keeps (f a) Q s) : Keeps (p.bind f) Q s := by
  refine Prog.safe_bind.mpr (Prog.safe_weaken ?_ hp)
  intro x s hx
  cases x with
  | ok a => exact hf a s hx
  | error e => exact hx

theorem keeps_of_runs {L : List (Entry H)} {p : Server H α} (h : Runs p P s)
    (hp : p.Calls (StoresTiles L)) (hL : L <+: s.log) : Keeps p P s :=
  Prog.safe_and_of_calls (K := fun s => L <+: s.log) (fun _ _ hK hle => hK.trans hle.log)
    (fun _ _ hK hle => hK.trans hle.log)
    (fun _ ho _ hK _ hJ _ _ he => ho.contents hK hJ he) h hp hL

/-- A program that writes nothing. -/
theorem keeps_of_quiet {p : Server H α} (h : Runs p P s) (hp : p.Calls (StoresTiles [])) :
    Keeps p P s :=
  keeps_of_runs h hp List.nil_prefix

theorem storesTiles_common (L : List (Entry H)) : Common (StoresTiles L) := by
  refine ⟨fun _ => trivial, fun index part data level index' part' heq => ?_, fun _ _ => trivial,
    trivial, trivial⟩
  exact absurd heq.symm (Api.tilePath_ne_entriesPath _ _ _ _ _)

end

section

variable {n : ℕ} {L : List (Entry H)} {written : Path → Prop} {s : LogSystem H}

/-- What is read for a tile of the tree that was integrated is the tile with all its rows. -/
theorem reader_keeps [LawfulSha256Hash H] (h : Working n L written s) (hn : n ≤ L.length)
    (hL : L.length ≤ i64Max) (o : ReadTile) : Keeps (TileStorage.reader o)
      (fun r s' => Working n L written s' ∧ StoredAnswers ((L.take n).map Entry.leafHash) o r)
        s := by
  obtain ⟨level, index, part⟩ := o
  have hlen : ((L.take n).map Entry.leafHash).length = n := by
    rw [List.length_map, List.length_take]
    omega
  have hread : Keeps (perform (.readObject (tilePath level index part)))
      (fun r s' => Working n L written s' ∧ Inv s' ∧ Contents s' ∧
        r = s'.objects (tilePath level index part)) s := by
    intro s₁ hle hi r s₂ he
    cases he with
    | fault => rename_i hf; exact ⟨hi, .refl _, hf⟩
    | read => exact ⟨hi, .refl _, h.mono hle, hi.1, hi.2, rfl⟩
  refine keeps_bind hread fun r s' => ?_
  rintro ⟨h', hi, hcontents, rfl⟩
  have hpre : (L.take n).map Entry.leafHash <+: s'.leaves :=
    (List.take_prefix n L |>.map _).trans h'.leaves
  cases hobj : s'.objects (tilePath level index part) with
  | none =>
    refine ⟨h', ?_⟩
    rintro hrow rfl
    rw [hlen] at hrow hobj
    exact absurd hobj ((hi.stored n h'.size_mem).tile level index hrow)
  | some data =>
    have hdata := hcontents level index part data hobj
    have hparse :
        HashTile.fromBytes data = .ok (storedTile s'.leaves level index (objectWidth part)) := by
      rw [hdata]
      exact HashTile.fromBytes_toBytes _
    dsimp only
    rw [hparse]
    refine ⟨h', ?_⟩
    rintro hrow rfl
    have hl := Merkle.tile_level_le (by omega) hrow
    refine ⟨_, rfl, ?_⟩
    have hwidth := objectWidth_part hl hrow
    rw [hwidth, TileOf.mono hpre (rowWidth_le hrow)]
    exact Merkle.storedTile_tileOf _ _ _ (min_le_left _ _)

/-- Integration over the stored tiles, while others write. -/
theorem integrate_keeps [LawfulSha256Hash H] (order : MapOrder H) {E : List H} (hE : E ≠ [])
    (hn : n ≤ L.length)
    (hL : L.length ≤ i64Max) (hE' : n + E.length ≤ i64Max) (h : Working n L written s) :
    Keeps ((Merkle.integrate order n E).translate TileStorage.reader)
      (fun r s' => Working n L written s' ∧
      Integrated ((L.take n).map Entry.leafHash) ((L.take n).map Entry.leafHash ++ E) r ∧
      ∀ key tile, r.tiles.lookup key = some tile →
        rowWidth key.level key.index n < rowWidth key.level key.index (n + E.length) ∧
        TileOf ((L.take n).map Entry.leafHash ++ E) key.level key.index
          (rowWidth key.level key.index (n + E.length)) tile) s := by
  have hlen : ((L.take n).map Entry.leafHash).length = n := by
    rw [List.length_map, List.length_take]
    omega
  have hint := Merkle.integrate_stored (D := (L.take n).map Entry.leafHash) order hE
    (by rw [List.length_append, hlen]; exact hE')
  rw [List.length_append, hlen] at hint
  refine Prog.safe_weaken ?_ (Prog.safe_translate
    (fun o s' h' => Prog.safe_weaken ?_ (reader_keeps h' hn hL o))
    (E := fun e _ => External e) hint h)
  · rintro x s' (⟨hw, r, rfl, hr⟩ | ⟨e, rfl, he⟩)
    · exact ⟨hw, hr⟩
    · exact he
  · intro x s'' hx
    cases x with
    | ok r => exact ⟨by rintro _ ⟨⟩; exact hx, by rintro _ ⟨⟩⟩
    | error e => exact ⟨by rintro _ ⟨⟩, by rintro _ ⟨⟩; exact hx⟩

end

theorem integrateBatch_keeps [LawfulSha256Hash H] (order : MapOrder H) (vindex : Bool) {n : ℕ}
    {L₀ E : List (Entry H)}
    (hn : L₀.length = n) (hE : E ≠ []) (hL : (L₀ ++ E).length ≤ i64Max) {s : LogSystem H}
    (h : Working n (L₀ ++ E) (fun _ => False) s) :
    Keeps (integrateBatch order vindex n (toPending n E)) (fun _ _ => True) s := by
  have hlen : (L₀ ++ E).length = n + E.length := by rw [List.length_append, hn]
  have hD : (((L₀ ++ E).take n).map Entry.leafHash) = L₀.map Entry.leafHash := by
    rw [← hn, List.take_left]
  rw [integrateBatch_eq, map_leafHash_toPending]
  refine keeps_bind
    (integrate_keeps order (by simpa using hE) (by omega) hL (by rw [List.length_map]; omega) h) ?_
  rintro r s₁ ⟨h₁, hr, htiles⟩
  rw [hD, ← List.map_append] at hr htiles
  rw [List.length_map, ← hlen] at htiles
  have hsize : r.newSize = (L₀ ++ E).length := by rw [hr.newSize, List.length_map]
  refine keeps_of_runs (storeBatch_runs order vindex hn hE hL hr h₁) ?_ h₁.log
  refine storeBatch_calls (storesTiles_common _) order vindex n _ r (fun e he => ?_) trivial
  intro level index part heq
  obtain ⟨rfl, rfl, rfl⟩ := Api.tilePath_injective heq
  have hlook := AList.mem_lookup_iff.mpr he
  have hrow := (hr.tile e.1 e.2 hlook).1
  rw [List.length_map] at hrow
  have hl := Merkle.tile_level_le hL hrow
  have hwidth := objectWidth_part hl hrow
  rw [hsize, tileCover, tileBytes, hwidth]
  exact ⟨rowWidth_le hrow,
    congrArg HashTile.toBytes ((Merkle.tileOf_iff (min_le_left _ _)).mp (htiles _ _ hlook).2)⟩

theorem runIntegrationCycle_keeps [LawfulSha256Hash H] (order : MapOrder H) (batchSize : ℕ)
    (vindex : Bool)
    (s : LogSystem H) : Keeps (runIntegrationCycle order batchSize vindex) (fun _ _ => True) s := by
  refine keeps_bind (keeps_of_quiet getLogState_runs (perform_calls trivial)) fun state s₁ h₁ => ?_
  refine keeps_bind (keeps_of_quiet (pendingCount_runs state) Prog.calls_ofExcept) ?_
  rintro count _ rfl
  split_ifs
  · trivial
  refine keeps_bind
    (keeps_of_quiet (getPendingEntries_runs h₁.1 h₁.2 batchSize) (perform_calls trivial)) ?_
  rintro pending s₂ ⟨L₀, E, hsize, rfl, hb, h₂⟩
  split_ifs with hE
  · trivial
  have hE' : E ≠ [] := fun h => hE (by rw [h]; rfl)
  refine keeps_bind (keeps_of_quiet (checkContiguous_runs hE') Prog.calls_ofExcept) ?_
  rintro _ _ ⟨rfl, heq⟩
  rw [heq]
  exact integrateBatch_keeps order vindex heq hE' hb h₂

/-! ### Runs -/

variable [DecidableEq H]

theorem Contents.env {s s' : LogSystem H} (h : Contents s) (hi : Inv s) (he : Env s s') :
    Contents s' := by
  cases he with
  | append entries answers db hseq => exact h.grow hi (List.prefix_append _ _) fun _ _ _ _ h => h
  | insertMode mode => exact h.grow hi List.prefix_rfl fun _ _ _ _ h => h
  | publish data =>
    refine h.put (L := []) List.nil_prefix fun level index part heq => ?_
    exact absurd heq (Api.checkpointPath_ne_tilePath _ _ _)

def contentsProof [LawfulSha256Hash H] : (logSys (H := H)).Proof where
  Inv s := Inv s ∧ Contents s
  le := Le
  Out _ := Ends fun _ _ => True
  refl := Le.refl
  trans := Le.trans
  stable := ends_stable
  env := fun _ _ h he => ⟨⟨(h.1.env he).1, h.2.env h.1 he⟩, (h.1.env he).2⟩
  start := by
    intro s t p _ hp
    cases hp with
    | cycle order batchSize vindex => exact runIntegrationCycle_keeps order batchSize vindex s

variable [LawfulSha256Hash H] {p q : LogPool H}

omit [DecidableEq H] [LawfulSha256Hash H] in
theorem init_contents : Inv (LogSystem.init : LogSystem H) ∧
    Contents (LogSystem.init : LogSystem H) :=
  ⟨Inv.init, by rintro _ _ _ _ ⟨⟩⟩

theorem reachable_contents (h : Reachable p) : Contents p.shared :=
  (contentsProof.reachable_inv init_contents h).2

/-- A worker is about to write an object. -/
def Writes (p : LogPool H) (path : Path) (data : Bytes) : Prop :=
  ∃ t k, (t, .op (.writeObject path data) k) ∈ p.threads

theorem writes_put (h : Reachable p) {path : Path} {data : Bytes} (hw : Writes p path data) :
    Inv (p.shared.put path data) ∧ Contents (p.shared.put path data) := by
  obtain ⟨t, k, hmem⟩ := hw
  obtain ⟨hi, hsafe⟩ := contentsProof.reachable_good init_contents h
  exact (hsafe _ hmem p.shared (.refl _) hi _ _ (.write p.shared path data)).1

/-- The path of a tile or of a bundle. -/
def ObjectPath (path : Path) : Prop :=
  (∃ level index part, path = tilePath level index part) ∨
  ∃ index part, path = entriesPath index part

omit [DecidableEq H] [LawfulSha256Hash H] in
/-- Two objects of one path over two states of a log are the same. -/
theorem objects_eq {s s' : LogSystem H} (h : Inv s ∧ Contents s) (h' : Inv s' ∧ Contents s')
    (hlog : s.log <+: s'.log)
    {path : Path} (hpath : ObjectPath path) {data data' : Bytes} (hobj : s.objects path = some data)
    (hobj' : s'.objects path = some data') : data = data' := by
  rcases hpath with ⟨level, index, part, rfl⟩ | ⟨index, part, rfl⟩
  · rw [h.2 _ _ _ _ hobj, h'.2 _ _ _ _ hobj']
    exact (tileBytes_grow (hlog.map _) (h.1.cover_le hobj)).symm
  · have hbytes := (h.1.object_bundle hobj).2
    obtain ⟨E, hE⟩ := hlog
    rw [← Except.ok.injEq, ← hbytes, ← (h'.1.object_bundle hobj').2, ← hE,
      List.take_append_of_le_length (h.1.object_bundle hobj).1]

/-- Every object that a worker writes for a tile or a bundle is given by the entries that it covers,
later writes to its path in the same run have the same bytes, and it stays as it is. -/
theorem reachable_immutable (h : Reachable p) :
    (∀ level index part data, Writes p (tilePath level index part) data →
      tileCover level index part ≤ p.shared.log.length ∧
      data = tileBytes ((p.shared.log.take (tileCover level index part)).map Entry.leafHash) level
        index part) ∧
    (∀ index part data, Writes p (entriesPath index part) data →
      bundleCover index part ≤ p.shared.log.length ∧
      bundleBytes ((p.shared.log.take (bundleCover index part)).map Entry.data) index part =
        .ok data) ∧
    ∀ q, Relation.ReflTransGen logSys.Step p q → ∀ path, ObjectPath path →
      (∀ data data', Writes p path data → Writes q path data' → data' = data) ∧
      ∀ data, p.shared.objects path = some data → q.shared.objects path = some data := by
  refine ⟨fun level index part data hw => ?_, fun index part data hw => ?_,
    fun q hpq path hpath => ⟨?_, ?_⟩⟩
  · obtain ⟨hi, hcontents⟩ := writes_put h hw
    exact hi.object_tile hcontents (p.shared.put_objects_self _ _)
  · obtain ⟨hi, -⟩ := writes_put h hw
    exact hi.object_bundle (p.shared.put_objects_self _ _)
  · intro data data' hw hw'
    exact (objects_eq (writes_put h hw) (writes_put (h.trans hpq) hw') (run_le h hpq).log hpath
      (p.shared.put_objects_self _ _) (q.shared.put_objects_self _ _)).symm
  · intro data hdata
    obtain ⟨data', hdata'⟩ := Option.ne_none_iff_exists'.mp
      ((run_le h hpq).objects path (by rw [hdata]; exact Option.some_ne_none data))
    rw [hdata', objects_eq ⟨reachable_inv h, reachable_contents h⟩
      ⟨reachable_inv (h.trans hpq), reachable_contents (h.trans hpq)⟩ (run_le h hpq).log hpath hdata
        hdata']

theorem reachable_immutable_three : ∃ (p : LogPool StartHash) (data : Bytes), Reachable p ∧
    p.shared.objects (tilePath 0 0 3) = some data ∧
    ∀ q, Relation.ReflTransGen logSys.Step p q → q.shared.objects (tilePath 0 0 3) = some data := by
  obtain ⟨ts, h⟩ := twoCycles
  obtain ⟨data, -, hdata, -⟩ :=
    (reachable_inv h).tile_at (reachable_inv h).size_mem (reachable_inv h).size_le 0 0
    (by change 0 < (cycled 10 (cycled 2 threePending)).size / 1; rw [twoCycles_size]; decide)
  rw [twoCycles_size] at hdata
  exact ⟨_, data, h, hdata,
    fun q hpq => ((reachable_immutable h).2.2 q hpq _ (.inl ⟨0, 0, 3, rfl⟩)).2 data hdata⟩

/-! ### More than the bottom row -/

omit [DecidableEq H] [LawfulSha256Hash H] in
theorem length_toBytes (tile : HashTile H) : tile.toBytes.length = 32 * tile.nodes.length := by
  rw [HashTile.toBytes, List.length_flatMap]
  induction tile.nodes with
  | nil => rfl
  | cons node nodes ih =>
    rw [List.map_cons, List.sum_cons, ih, (Sha256Hash.asBytes node).2, List.length_cons]
    omega

/-- The tile has just the nodes of its bottom row. -/
def BottomRow (newSize : ℕ) (key : TileKey) (tile : HashTile H) : Prop :=
  tile.nodes.length = objectWidth (partialTileSize key.level key.index newSize) ∧
    tile.toBytes.length = 32 * objectWidth (partialTileSize key.level key.index newSize)

/-- One leaf on top of full tiles changes one tile only, and this is of width one. -/
theorem rowWidth_succ {m level index : ℕ} (hm : m % tileWidth = 0)
    (h : rowWidth level index m < rowWidth level index (m + 1)) :
    rowWidth level index (m + 1) = 1 := by
  rw [tileWidth_eq] at hm
  unfold rowWidth at *
  rw [tileWidth_eq] at *
  rcases Nat.eq_zero_or_pos level with rfl | hlevel
  · rw [mul_zero, pow_zero, Nat.div_one, Nat.div_one] at h
    rw [mul_zero, pow_zero, Nat.div_one]
    omega
  · have hdvd : 256 ∣ 2 ^ (8 * level) := Nat.pow_dvd_pow 2 (show 8 ≤ 8 * level by omega)
    have hsame : (m + 1) / 2 ^ (8 * level) = m / 2 ^ (8 * level) := by
      rw [Nat.succ_div, if_neg]
      · rfl
      · intro hd
        have := Nat.mod_eq_zero_of_dvd (hdvd.trans hd)
        omega
    rw [hsame] at h
    omega

/-- The tiles that an integration returns have just their bottom rows if it has nothing to add, or
one leaf on top of full tiles, and in no other case. -/
theorem integrate_bottomRow (h : Reachable p) {m : ℕ} (hm : m ∈ p.shared.sizes) (order : MapOrder H)
    (E : List H) (hE : m + E.length ≤ i64Max) {r : IntegrationResult H} {s' : LogSystem H}
    (hrun : Concurrent.Sys.runAlone
      LogSystem.answer ((Merkle.integrate order m E).translate TileStorage.reader) p.shared =
        (.ok r, s')) :
    (∀ key tile, r.tiles.lookup key = some tile → BottomRow r.newSize key tile) ↔
      E = [] ∨ E.length = 1 ∧ m % tileWidth = 0 := by
  have hi := reachable_inv h
  by_cases hnil : E = []
  · refine iff_of_true (fun key tile hlook => ?_) (.inl hnil)
    rw [Merkle.integrate, if_pos hnil] at hrun
    split_ifs at hrun
    · obtain rfl := Except.ok.inj (Prod.mk.inj hrun).1
      simp at hlook
    · cases (Prod.mk.inj hrun).1
  have hworking : Working m p.shared.log (fun _ => False) p.shared :=
    ⟨hm, List.prefix_rfl, fun _ h => h.elim⟩
  have hkeeps := integrate_keeps order hnil (hi.sizes_le m hm) hi.length_log_le hE hworking
  have hends := Concurrent.Sys.safe_runAlone Le.refl exec_answer hkeeps ⟨hi, reachable_contents h⟩
  rw [hrun] at hends
  obtain ⟨-, hr, htiles⟩ := hends
  have hlen : ((p.shared.log.take m).map Entry.leafHash).length = m := by
    rw [List.length_map, List.length_take]
    exact Nat.min_eq_left (hi.sizes_le m hm)
  have hsize : r.newSize = m + E.length := by rw [hr.newSize, List.length_append, hlen]
  -- a tile has just its bottom row if this has one node
  have hone : ∀ key tile, r.tiles.lookup key = some tile →
      (BottomRow r.newSize key tile ↔ rowWidth key.level key.index (m + E.length) = 1) := by
    intro key tile hlook
    obtain ⟨hgrown, htile⟩ := htiles key tile hlook
    have hrow := (hr.tile key tile hlook).1
    rw [List.length_append, hlen] at hrow
    have hlength := htile.length_eq (min_le_left _ _)
    rw [BottomRow, length_toBytes, hsize, objectWidth_part (Merkle.tile_level_le hE hrow) hrow]
    omega
  have hchanged : ∀ index, rowWidth 0 index m < rowWidth 0 index (m + E.length) →
      ∃ tile, r.tiles.lookup ⟨0, index⟩ = some tile := by
    intro index hgrown
    rw [← Option.ne_none_iff_exists']
    intro hnone
    have := hr.unchanged 0 index hnone
    rw [List.length_append, hlen] at this
    omega
  have hpos : 0 < E.length := List.length_pos_iff.mpr hnil
  constructor
  · intro hall
    have hwidth : ∀ index, rowWidth 0 index m < rowWidth 0 index (m + E.length) →
        rowWidth 0 index (m + E.length) = 1 := by
      intro index hgrown
      obtain ⟨tile, hlook⟩ := hchanged index hgrown
      exact (hone _ _ hlook).mp (hall _ _ hlook)
    -- the tile of the last leaf, and that of the one before it
    have hlast := hwidth ((m + E.length - 1) / 256)
    have hbefore := hwidth ((m + E.length - 2) / 256)
    simp only [rowWidth, mul_zero, pow_zero, Nat.div_one, tileWidth_eq] at hlast hbefore ⊢
    refine .inr ?_
    omega
  · rintro (hnil' | ⟨hlength, hfull⟩) key tile hlook
    · exact absurd hnil' hnil
    · rw [hone key tile hlook, hlength]
      have hgrown := (htiles key tile hlook).1
      rw [hlength] at hgrown
      exact rowWidth_succ hfull hgrown

section

/-- The leaves of a first batch, integrated by themselves. -/
def firstBatch (E : List StartHash) :
    Except (Fault Error) (IntegrationResult StartHash) × LogSystem StartHash :=
  Concurrent.Sys.runAlone LogSystem.answer
    ((Merkle.integrate .listed 0 E).translate TileStorage.reader) LogSystem.init

/-- The size of the tree and the number of nodes in its first tile. -/
def firstTile (E : List StartHash) : Option (ℕ × ℕ) :=
  match (firstBatch E).1 with
  | .error _ => none
  | .ok r => (r.tiles.lookup ⟨0, 0⟩).map fun tile => (r.newSize, tile.nodes.length)

theorem firstTile_eq {E : List StartHash} {n k : ℕ} (h : firstTile E = some (n, k)) :
    ∃ r tile, (firstBatch E).1 = .ok r ∧
    r.tiles.lookup ⟨0, 0⟩ = some tile ∧ r.newSize = n ∧ tile.nodes.length = k := by
  unfold firstTile at h
  cases hrun : (firstBatch E).1 with
  | error e => simp [hrun] at h
  | ok r =>
    rw [hrun] at h
    obtain ⟨tile, hlook, hlen⟩ := Option.map_eq_some_iff.mp h
    exact ⟨r, tile, rfl, hlook, congrArg Prod.fst hlen, congrArg Prod.snd hlen⟩

/-- A tile of two leaves is stored with its parent node behind the place of a full bottom row. -/
theorem two_leaves_stored :
    ∃ (p : LogPool StartHash) (r : IntegrationResult StartHash) (s' : LogSystem StartHash)
    (tile : HashTile StartHash), Reachable p ∧ Concurrent.Sys.runAlone LogSystem.answer
      ((Merkle.integrate .listed 0 [hashLeaf [1], hashLeaf [2]]).translate TileStorage.reader)
        p.shared = (.ok r, s') ∧
    r.tiles.lookup ⟨0, 0⟩ = some tile ∧ tile.nodes.length = 257 ∧
    ¬ BottomRow r.newSize ⟨0, 0⟩ tile := by
  have h : firstTile [hashLeaf [1], hashLeaf [2]] = some (2, 257) := by decide +kernel
  obtain ⟨r, tile, hrun, hlook, hsize, hlen⟩ := firstTile_eq h
  refine ⟨⟨LogSystem.init, []⟩, r, (firstBatch [hashLeaf [1], hashLeaf [2]]).2, tile, .refl,
    Prod.ext hrun rfl, hlook, hlen, ?_⟩
  rintro ⟨hrow, -⟩
  rw [hsize, hlen] at hrow
  revert hrow
  decide

theorem integrate_bottomRow_one : ∃ r, (firstBatch [hashLeaf [1]]).1 = .ok r ∧
    ∀ key tile, r.tiles.lookup key = some tile → BottomRow r.newSize key tile := by
  have h : firstTile [hashLeaf [1]] = some (1, 1) := by decide +kernel
  obtain ⟨r, tile, hrun, -⟩ := firstTile_eq h
  have hrow := integrate_bottomRow (p := ⟨LogSystem.init, []⟩) .refl (List.mem_singleton_self 0)
    .listed [hashLeaf [1]]
    (by decide) (Prod.ext hrun rfl)
  exact ⟨r, hrun, hrow.mpr (.inr ⟨rfl, rfl⟩)⟩

end

end Siglog.Worker

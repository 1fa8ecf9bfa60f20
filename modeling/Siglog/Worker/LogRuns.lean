import Siglog.Worker.CycleCorrect

/-! The log over whole runs. In every state that any run can reach, the recorded root
is the tree hash of the integrated entries, and their tiles and bundles are stored
and right. -/

namespace Siglog.Worker

open Concurrent (Pool Prog)
open Api (Path tilePath entriesPath tileWidth tileWidth_eq partialTileSize)
open Merkle (HashTile EntryBundle MapOrder Shuffle rowWidth TileCorrect TileAnswers ReadTile)
open Rfc (mth subtree seg)
open Storage (Op Server Database)

variable {H : Type} [Sha256Hash H]

/-! ### The state of a run -/

theorem Inv.init : Inv (LogSystem.init : LogSystem H) := by
  refine ⟨⟨rfl, rfl, Nat.zero_le _, rfl⟩, List.mem_singleton_self 0, by
      simp [LogSystem.init], rfl, ?_, ?_, ?_⟩
  · intro _ _ _ _ h
    cases h
  · intro _ _ _ h
    cases h
  · intro n hn
    obtain rfl := List.mem_singleton.mp hn
    exact ⟨fun _ _ h => by simp at h, fun _ h => by simp at h⟩

/-- The leaf hashes of the integrated entries. -/
def LogSystem.tree (s : LogSystem H) : List H := s.leaves.take s.size

theorem Inv.length_tree {s : LogSystem H} (h : Inv s) : s.tree.length = s.size := by
  rw [LogSystem.tree, LogSystem.leaves, List.length_take, List.length_map]
  exact Nat.min_eq_left (h.sizes_le _ h.size_mem)

theorem Inv.tree_prefix {s : LogSystem H} : s.tree <+: s.leaves := List.take_prefix _ _

theorem Inv.length_log_le {s : LogSystem H} (h : Inv s) : s.log.length ≤ i64Max := by
  have := h.db.bound
  rw [List.length_drop] at this
  omega

theorem Inv.size_le {s : LogSystem H} (h : Inv s) : s.size ≤ i64Max := by
  have := h.db.bound
  omega

/-- The tiles of every size that was ever integrated are stored and right. -/
theorem Inv.tile_at {s : LogSystem H} (h : Inv s) {n : ℕ} (hn : n ∈ s.sizes) (hb : n ≤ i64Max)
    (level index : ℕ) (hi : tileWidth * index < n / 2 ^ (8 * level)) :
    ∃ data tile, s.objects (tilePath level index (partialTileSize level index n)) = some data ∧
      HashTile.fromBytes data = .ok tile ∧ TileCorrect (s.leaves.take n) level index tile := by
  have hlen : (s.leaves.take n).length = n := by
    rw [LogSystem.leaves, List.length_take, List.length_map]
    exact Nat.min_eq_left (h.sizes_le n hn)
  obtain ⟨data, hdata⟩ := Option.ne_none_iff_exists'.mp ((h.stored n hn).tile level index hi)
  obtain ⟨tile, htile, hobj⟩ := h.tile level index _ data hdata
  refine ⟨data, tile, hdata, htile, ?_⟩
  rw [← hlen] at hi hobj hb
  exact tileCorrect_of_object (List.take_prefix _ _) hb hi hobj

/-- The bundles of the integrated entries are stored and right. -/
theorem Inv.bundle_at {s : LogSystem H} (h : Inv s) {index : ℕ} (hi : tileWidth * index < s.size) :
    ∃ data bundle, s.objects (entriesPath index (partialTileSize 0 index s.size)) = some data ∧
      EntryBundle.fromBytes data = .ok bundle ∧
      bundle.entries = seg (s.log.map Entry.data) (tileWidth * index)
        (min tileWidth (s.size - tileWidth * index)) := by
  obtain ⟨data, hdata⟩ := Option.ne_none_iff_exists'.mp ((h.stored _ h.size_mem).bundle index hi)
  obtain ⟨bundle, hbundle, hobj⟩ := h.bundle index _ data hdata
  refine ⟨data, bundle, hdata, hbundle, ?_⟩
  rw [hobj.2, objectWidth_part (by omega) (by simpa using hi), rowWidth, mul_zero, pow_zero,
    Nat.div_one]

/-! ### Runs -/

theorem ends_stable (_ : Unit) (x : Except (Fault Error) Unit) (s s' : LogSystem H)
    (h : Ends (fun _ _ => True) x s) (_ : Le s s') : Ends (fun _ _ => True) x s' := by
  cases x with
  | ok a => trivial
  | error e => exact h

variable [DecidableEq H]

/-- The invariant holds at every operation of every cycle. -/
def logProof [LawfulSha256Hash H] : (logSys (H := H)).Proof where
  Inv := Inv
  le := Le
  Out _ := Ends fun _ _ => True
  refl := Le.refl
  trans := Le.trans
  stable := ends_stable
  env := fun _ _ h he => h.env he
  start := by
    intro s t p _ hp
    cases hp with
    | cycle order batchSize vindex => exact runIntegrationCycle_runs order batchSize vindex s

/-- The states of a log over all its runs. -/
abbrev LogPool (H : Type) [Sha256Hash H] :=
  Pool (LogSystem H) Unit (Op H) (Op.Answer H) (Fault Error) Unit

variable [LawfulSha256Hash H] {p : LogPool H}

theorem reachable_inv (h : Reachable p) : Inv p.shared := logProof.reachable_inv Inv.init h

theorem run_le {q : LogPool H} (h : Reachable p) (hpq : Relation.ReflTransGen logSys.Step p q) :
    Le p.shared q.shared :=
  (logProof.run_good hpq (logProof.reachable_good Inv.init h)).2

/-- In every reachable state the recorded root is the tree hash of the integrated
entries, and each tile of the tree is stored with the subtree hashes in its bottom row. -/
theorem reachable_tree (h : Reachable p) (hn : 0 < p.shared.size) :
    p.shared.tree = (p.shared.log.take p.shared.size).map (fun entry => hashLeaf entry.data) ∧
    p.shared.tree.length = p.shared.size ∧
    p.shared.db.logState.rootHash = some (mth p.shared.tree) ∧
    ∀ level index, index < (p.shared.size / 2 ^ (8 * level) + 255) / 256 →
      ∃ data tile, p.shared.objects
        (tilePath level index (partialTileSize level index p.shared.size)) = some data ∧
        HashTile.fromBytes data = .ok tile ∧
        ∀ j, j < rowWidth level index p.shared.size →
          tile.nodes[j]? = some (subtree p.shared.tree (8 * level) (256 * index + j)) := by
  have hi := reachable_inv h
  refine ⟨?_, hi.length_tree, ?_, ?_⟩
  · rw [LogSystem.tree, LogSystem.leaves, ← List.map_take]
    exact List.map_congr_left fun entry _ => entry.leafHash_eq
  · rw [hi.root, if_neg (by omega)]
    rfl
  · intro level index hindex
    obtain ⟨data, tile, hdata, htile, hcorrect⟩ := hi.tile_at hi.size_mem hi.size_le level index
      (by rw [tileWidth_eq]; omega)
    refine ⟨data, tile, hdata, htile, fun j hj => hcorrect j ?_⟩
    change j < rowWidth level index p.shared.tree.length
    rwa [hi.length_tree]

/-! ### A run of two cycles -/

/-- The log after one cycle that runs alone. -/
def cycled (batchSize : ℕ) (s : LogSystem StartHash) : LogSystem StartHash :=
  (Concurrent.Sys.runAlone LogSystem.answer (runIntegrationCycle .listed batchSize false) s).2

/-- A log with pending entries. -/
def pending (data : List Bytes) : LogSystem StartHash :=
  let entries : List (Entry StartHash) := data.map Entry.new
  ⟨⟨⟨entries.length, 0, none⟩, Storage.pendingRows 0 entries, [], none⟩, fun _ => none, entries,
    [0]⟩

theorem reachable_pending {data : List Bytes}
    (h : (LogSystem.init : LogSystem StartHash).db.sequenceEntries (pending data).log =
      .ok ((pending data).log.mapIdx fun i entry => .ok ⟨i, entry⟩, (pending data).db)) :
    ∃ ts, Reachable (⟨pending data, ts⟩ : LogPool StartHash) := by
  have henv := Env.append LogSystem.init _ _ _ h
  rw [Storage.accepted_mapIdx] at henv
  exact ⟨[], Relation.ReflTransGen.refl.tail (.env henv)⟩

def threePending : LogSystem StartHash := pending [[1], [2], [3]]

theorem reachable_cycled {s : LogSystem StartHash}
    (h : ∃ ts, Reachable (⟨s, ts⟩ : LogPool StartHash)) (batchSize : ℕ) :
    ∃ ts, Reachable (⟨cycled batchSize s, ts⟩ : LogPool StartHash) := by
  obtain ⟨ts, h⟩ := h
  exact ⟨_, Concurrent.Sys.reachable_runAlone exec_answer h (Start.cycle s .listed batchSize false)⟩

theorem reachable_threePending : ∃ ts, Reachable (⟨threePending, ts⟩ : LogPool StartHash) :=
  reachable_pending (by decide +kernel)

/-- Two of the entries are integrated by one cycle and the third by the next. -/
theorem twoCycles :
    ∃ ts, Reachable (⟨cycled 10 (cycled 2 threePending), ts⟩ : LogPool StartHash) := by
  apply reachable_cycled
  apply reachable_cycled
  exact reachable_threePending

theorem twoCycles_size : (cycled 10 (cycled 2 threePending)).size = 3 := by decide +kernel

theorem reachable_tree_three : ∃ p : LogPool StartHash, Reachable p ∧ p.shared.size = 3 ∧
    p.shared.db.logState.rootHash = some (mth p.shared.tree) := by
  obtain ⟨ts, h⟩ := twoCycles
  exact ⟨_, h, twoCycles_size, (reachable_tree h (by rw [twoCycles_size]; decide)).2.2.1⟩

/-- In every reachable state each bundle of the integrated entries is stored with their
data, in agreement with the bottom row of the tree, and no cycle has failed on the
bundle before its own. -/
theorem reachable_bundles (h : Reachable p) :
    (∀ index, index < (p.shared.size + 255) / 256 →
      ∃ data bundle, p.shared.objects (entriesPath index (partialTileSize 0 index p.shared.size)) =
        some data ∧
        EntryBundle.fromBytes data = .ok bundle ∧
        bundle.entries = ((p.shared.log.map Entry.data).drop (256 * index)).take
          (min 256 (p.shared.size - 256 * index)) ∧
        ∃ (tileData : Bytes) (tile : HashTile H),
          p.shared.objects (tilePath 0 index (partialTileSize 0 index p.shared.size)) =
            some tileData ∧
          HashTile.fromBytes tileData = .ok tile ∧
          bundle.entries.length = rowWidth 0 index p.shared.size ∧
          ∀ (k : ℕ) entry, bundle.entries[k]? = some entry →
            tile.nodes[k]? = some (hashLeaf entry)) ∧
    ∀ t e, (t, .fail e) ∈ p.threads → e ≠ missingPrevious ∧ e ≠ incorrectPrevious := by
  have hi := reachable_inv h
  refine ⟨fun index hindex => ?_, fun t e he => logProof.reachable_error Inv.init h he⟩
  have hrow : tileWidth * index < p.shared.size := by rw [tileWidth_eq]; omega
  obtain ⟨data, bundle, hdata, hbundle, hentries⟩ := hi.bundle_at hrow
  obtain ⟨tileData, tile, htileData, htile, hcorrect⟩ := hi.tile_at hi.size_mem hi.size_le 0 index
    (by simpa using hrow)
  have hle := hi.sizes_le _ hi.size_mem
  have hwidth :
      min tileWidth (p.shared.size - tileWidth * index) = rowWidth 0 index p.shared.size := by
    rw [rowWidth, mul_zero, pow_zero, Nat.div_one]
  have hlen : bundle.entries.length = rowWidth 0 index p.shared.size := by
    rw [hentries, hwidth, Rfc.seg_length]
    rw [List.length_map, rowWidth, mul_zero, pow_zero, Nat.div_one]
    omega
  refine ⟨data, bundle, hdata, hbundle, hentries, tileData, tile, htileData, htile, hlen,
    fun k entry hk => ?_⟩
  have hk' : k < rowWidth 0 index p.shared.size := hlen ▸ (List.getElem?_eq_some_iff.mp hk).1
  have hnode :=
    hcorrect k (by change k < rowWidth 0 index p.shared.tree.length; rwa [hi.length_tree])
  rw [hentries, seg, List.getElem?_take, if_pos (by rwa [hwidth]), List.getElem?_drop,
    List.getElem?_map] at hk
  obtain ⟨e, he, rfl⟩ := Option.map_eq_some_iff.mp hk
  rw [hnode, mul_zero, Rfc.subtree_zero (x := e.leafHash), e.leafHash_eq]
  rw [List.getElem?_take, if_pos, LogSystem.leaves, List.getElem?_map, he, Option.map_some]
  rw [rowWidth, mul_zero, pow_zero, Nat.div_one] at hk'
  omega

theorem reachable_bundles_three : ∃ p : LogPool StartHash, Reachable p ∧ p.shared.size = 3 ∧
    ∃ data bundle, p.shared.objects (entriesPath 0 3) = some data ∧
      EntryBundle.fromBytes data = .ok bundle ∧
      bundle.entries = (p.shared.log.map Entry.data).take 3 := by
  obtain ⟨ts, h⟩ := twoCycles
  obtain ⟨data, bundle, hdata, hbundle, hentries, -⟩ :=
    (reachable_bundles h).1 0 (by rw [twoCycles_size]; decide)
  rw [twoCycles_size] at hdata hentries
  exact ⟨_, h, twoCycles_size, data, bundle, hdata, hbundle, hentries⟩

end Siglog.Worker

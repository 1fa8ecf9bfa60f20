import Siglog.Worker.LogRuns

/-! Progress of the integration of a log without an index. Whatever cycles have run, have
failed or have been interrupted before, a cycle that runs alone and meets no failure
integrates its whole batch. So the log can always be integrated to its end. An index can
refuse an entry, and the cycle with it. -/

namespace Siglog.Worker

open Concurrent (Prog)
open Concurrent.Prog (canEnd_bind canEnd_mono canEnd_pure canEnd_translate)
open Concurrent.Sys (runAlone)
open Api (tilePath entriesPath tileWidth tileWidth_eq partialTileSize)
open Merkle (EntryBundle HashTile Integrated MapOrder ReadTile TileAnswers TileCorrect TileKey)
open Rfc (seg)
open Storage (Op PendingEntry Server perform toPending TileStorage.reader TileStorage.writeTile
  TileStorage.writeEntryBundle)

variable {H : Type} [Sha256Hash H] {α β : Type}

/-- An operation that does not fail. -/
def Undisturbed (s : LogSystem H) (o : Op H) (r : o.Answer H) (s' : LogSystem H) : Prop :=
  s.answer o = (r, s')

/-- The program runs alone, and ends with a value that satisfies `P`. -/
abbrev Alone (P : α → LogSystem H → Prop) (p : Server H α) (s : LogSystem H) : Prop :=
  Prog.CanEnd Undisturbed P p s

variable {s₀ s : LogSystem H}

theorem alone_perform {o : Op H} {a : Op.Result H o} {t : LogSystem H}
    {P : Op.Result H o → LogSystem H → Prop}
    (h : s.answer o = (.ok a, t)) (ha : P a t) : Alone P (perform o) s := by
  refine canEnd_bind (Prog.canEnd_call (P := fun r s => r = .ok a ∧ P a s) h ⟨rfl, ha⟩) ?_
  rintro _ s ⟨rfl, ha⟩
  exact canEnd_pure ha

/-- A cycle is storing objects. Nothing else has changed since it began in the state `s₀`. -/
structure Storing (s₀ s : LogSystem H) : Prop where
  inv : Inv s
  db : s.db = s₀.db
  log : s.log = s₀.log

theorem Storing.size (h : Storing s₀ s) : s.size = s₀.size := by
  rw [LogSystem.size, h.db, LogSystem.size]

theorem Storing.leaves (h : Storing s₀ s) : s.leaves = s₀.leaves := by
  rw [LogSystem.leaves, h.log, LogSystem.leaves]

/-! ### Reading -/

/-- The tiles of the tree are read right. -/
theorem reader_alone (h : Storing s₀ s) (o : ReadTile) :
    Alone (fun r s => Storing s₀ s ∧ TileAnswers s₀.tree o r) (TileStorage.reader o) s := by
  obtain ⟨level, index, part⟩ := o
  have htree : s.tree = s₀.tree := by rw [LogSystem.tree, h.leaves, h.size, LogSystem.tree]
  have hanswers := h.inv.tileAnswers (h.inv.length_tree.symm ▸ h.inv.size_mem) Inv.tree_prefix
    (h.inv.length_tree.trans_le h.inv.size_le) level index part
  rw [htree] at hanswers
  refine canEnd_bind (alone_perform
    (P := fun r t => r = s.objects (tilePath level index part) ∧ t = s) rfl ⟨rfl, rfl⟩) ?_
  rintro _ s ⟨rfl, rfl⟩
  cases hdata : s.objects (tilePath level index part) with
  | none => exact canEnd_pure ⟨h, hanswers.1 hdata⟩
  | some data =>
    obtain ⟨tile, htile, -⟩ := h.inv.tile level index part data hdata
    dsimp only
    rw [htile]
    exact canEnd_pure ⟨h, hanswers.2 data tile hdata htile⟩

section

variable {L : List (Entry H)}

/-- The bundle that the tree ends in is there. -/
theorem previousBundle_alone (hL : L <+: s₀.log) (hn : s₀.size ≤ L.length) {bundleIdx existing : ℕ}
    (hex : existing = 0 ∨ (bundleIdx = s₀.size / tileWidth ∧ existing = s₀.size % tileWidth))
    (h : Storing s₀ s) :
    Alone (fun bundle s => Storing s₀ s ∧
      bundle.entries = seg (L.map Entry.data) (tileWidth * bundleIdx) existing)
      (previousBundle bundleIdx existing) s := by
  rw [previousBundle]
  split_ifs with h0
  · obtain ⟨rfl, rfl⟩ := hex.resolve_left (by omega)
    have hsize : tileWidth * (s₀.size / tileWidth) + s₀.size % tileWidth = s₀.size :=
      Nat.div_add_mod _ _
    obtain ⟨data, bundle, hdata, hbundle, hentries⟩ := h.inv.bundle_at
      (show tileWidth * (s₀.size / tileWidth) < s.size by rw [h.size]; omega)
    have hpart : partialTileSize 0 (s₀.size / tileWidth) s₀.size = s₀.size % tileWidth := by
      rw [Merkle.partialTileSize_eq (by omega), mul_zero, pow_zero, Nat.div_one, if_neg (by omega)]
    have hrest : s₀.size - tileWidth * (s₀.size / tileWidth) = s₀.size % tileWidth := by omega
    obtain ⟨E, hE⟩ := hL
    rw [h.size, hpart] at hdata
    rw [h.size, h.log, hrest, Nat.min_eq_right (Nat.mod_lt _ (by rw [tileWidth_eq]; omega)).le,
      ← hE, List.map_append, Rfc.seg_append_left (by rw [List.length_map]; omega)] at hentries
    have hlen : bundle.entries.length = s₀.size % tileWidth := by
      rw [hentries, Rfc.seg_length (by rw [List.length_map]; omega)]
    refine canEnd_bind (P := fun b t => b = some bundle ∧ t = s) ?_ ?_
    · refine canEnd_bind (alone_perform (P := fun r t => r = some data ∧ t = s) ?_ ⟨rfl, rfl⟩) ?_
      · rw [← hdata]
        rfl
      rintro _ _ ⟨rfl, rfl⟩
      dsimp only
      rw [hbundle]
      exact canEnd_pure ⟨rfl, rfl⟩
    · rintro _ _ ⟨rfl, rfl⟩
      dsimp only
      rw [if_neg (not_not.mpr hlen)]
      exact canEnd_pure ⟨h, hentries⟩
  · obtain rfl : existing = 0 := by omega
    exact canEnd_pure ⟨h, rfl⟩

/-! ### Writing -/

theorem writeTiles_alone [LawfulSha256Hash H] {size : ℕ} (tiles : List (Σ _ : TileKey, HashTile H))
    (ht : ∀ e ∈ tiles,
      TileObject s₀.leaves e.1.level e.1.index (partialTileSize e.1.level e.1.index size) e.2)
    (h : Storing s₀ s) : Alone (fun _ s => Storing s₀ s) (writeTiles size tiles) s := by
  induction tiles generalizing s with
  | nil => exact canEnd_pure h
  | cons e tiles ih =>
    rw [List.forall_mem_cons] at ht
    have hput := h.inv.putTile (h.leaves ▸ ht.1)
    have hwrite : Alone (fun _ s => Storing s₀ s) (TileStorage.writeTile e.1.level e.1.index
        (partialTileSize e.1.level e.1.index size) e.2) s :=
      alone_perform (o := .writeObject _ e.2.toBytes) rfl ⟨hput, h.db, h.log⟩
    exact canEnd_bind hwrite fun _ s h => ih ht.2 h

/-- A bundle of entries that are not too long is stored. -/
theorem writeEntryBundle_alone (hL : L <+: s₀.log) (hdata : ∀ entry ∈ L, entry.data.length ≤ 65535)
    {index part : ℕ}
    {bundle : EntryBundle} (hb : BundleObject L index part bundle) (h : Storing s₀ s) :
    Alone (fun _ s => Storing s₀ s) (TileStorage.writeEntryBundle index part bundle) s := by
  have hshort : ∀ data ∈ bundle.entries, data.length ≤ 65535 := by
    rw [hb.2]
    intro data hmem
    obtain ⟨entry, hentry, rfl⟩ :=
      List.mem_map.mp (List.mem_of_mem_drop (List.mem_of_mem_take hmem))
    exact hdata entry hentry
  obtain ⟨data, hbytes⟩ := EntryBundle.toBytes_ok hshort
  have hput := h.inv.putBundle hbytes (hb.mono (h.log ▸ hL))
  rw [TileStorage.writeEntryBundle, hbytes]
  exact alone_perform (o := .writeObject (entriesPath index part) data) rfl ⟨hput, h.db, h.log⟩

theorem writeBundles_alone (hL : L <+: s₀.log) (hn : s₀.size ≤ L.length)
    (hdata : ∀ entry ∈ L, entry.data.length ≤ 65535)
    (bundles : List (Σ _ : ℕ, List Bytes))
    (hb : ∀ e ∈ bundles, groupStart s₀.size e.1 < groupStop L.length e.1 ∧
      e.2 = seg (L.map Entry.data) (groupStart s₀.size e.1)
        (groupStop L.length e.1 - groupStart s₀.size e.1))
    (h : Storing s₀ s) :
    Alone (fun _ s => Storing s₀ s) (writeBundles s₀.size L.length bundles) s := by
  induction bundles generalizing s with
  | nil => exact canEnd_pure h
  | cons e bundles ih =>
    rw [List.forall_mem_cons] at hb
    obtain ⟨bundleIdx, entries⟩ := e
    obtain ⟨⟨hgroup, hentries⟩, hb⟩ := hb
    dsimp only at hgroup hentries
    subst hentries
    rw [writeBundles]
    refine canEnd_bind (previousBundle_alone hL hn ?_ h) ?_
    · split_ifs with hlast
      · exact .inr ⟨hlast, rfl⟩
      · exact .inl rfl
    rintro bundle s₁ ⟨h₁, hprevious⟩
    have hobj := bundleObject_of_group hn hgroup rfl hprevious
    exact canEnd_bind (writeEntryBundle_alone hL hdata hobj h₁) fun _ s₂ h₂ => ih hb h₂

/-! ### The cycle -/

/-- Nobody else has advanced the tree. -/
theorem mark_alone {k : ℕ} (hk : s₀.size + k ≤ s₀.log.length) (root : H) (h : Storing s₀ s) :
    Alone (fun _ t => t.log = s₀.log ∧ t.size = s₀.size + k)
      (perform (.markIntegratedIfCurrent s₀.size (s₀.size + k) root)) s := by
  obtain ⟨db, hmark, hof, -⟩ :=
    h.inv.db.mark (k := k) (by rw [List.length_drop, h.size, h.log]; omega) root
  have hmax := h.inv.length_log_le
  rw [h.log] at hmax
  rw [h.size] at hmark hof
  refine alone_perform (a := true) (t := s.mark true (s₀.size + k) db) ?_ ⟨h.log, ?_⟩
  · rw [LogSystem.answer, hmark]
  · change Storage.asU64 db.logState.integratedSize = _
    rw [hof.integrated, Storage.asU64_natCast (by omega)]

variable [LawfulSha256Hash H]

theorem storeBatch_alone (order : MapOrder H) {L₀ E : List (Entry H)} (hL₀ : L₀.length = s₀.size)
    (hL : L₀ ++ E <+: s₀.log) (hdata : ∀ entry ∈ L₀ ++ E, entry.data.length ≤ 65535)
    {r : Merkle.IntegrationResult H}
    (hr : Integrated (L₀.map Entry.leafHash) ((L₀ ++ E).map Entry.leafHash) r) (h : Storing s₀ s) :
    Alone (fun _ t => t.log = s₀.log ∧ t.size = s₀.size + E.length)
      (storeBatch order false s₀.size (toPending s₀.size E) r) s := by
  have hlen : (L₀ ++ E).length = s₀.size + E.length := by rw [List.length_append, hL₀]
  have hsize : r.newSize = (L₀ ++ E).length := by rw [hr.newSize, List.length_map]
  have hmax := h.inv.length_log_le
  rw [h.log] at hmax
  have hcover := hL.length_le
  have hseg : seg ((L₀ ++ E).map Entry.data) s₀.size E.length = E.map Entry.data := by
    rw [seg, List.map_append, ← hL₀,
      show L₀.length = (L₀.map Entry.data).length from (List.length_map _).symm,
      List.drop_left, List.take_of_length_le (List.length_map _).le]
  have hgroups := groupBundles_lookup _ s₀.size E hseg
  rw [← hlen] at hgroups
  rw [storeBatch, hsize]
  refine canEnd_bind (writeTiles_alone _ (fun e he => ?_) h) fun _ s₁ h₁ => ?_
  · obtain ⟨hrow, hcorrect⟩ :=
      hr.tile e.1 e.2 (AList.mem_lookup_iff.mpr (Merkle.Shuffle.mem_order.mp he))
    have hobj :=
      tileObject_of_correct (hL.map Entry.leafHash) (by rw [List.length_map]; omega) hrow hcorrect
    rwa [List.length_map] at hobj
  refine canEnd_bind (writeBundles_alone hL (by omega) hdata _ (fun e he => ?_) h₁) fun _ s₂ h₂ =>
    ?_
  · have hlook := AList.mem_lookup_iff.mpr (Merkle.Shuffle.mem_order.mp he)
    rw [hgroups] at hlook
    split_ifs at hlook with hlt
    · exact ⟨hlt, (Option.some.inj hlook).symm⟩
    · cases hlook
  refine canEnd_bind (P := fun _ s => Storing s₀ s) (canEnd_pure h₂) fun _ s₃ h₃ => ?_
  rw [hlen]
  refine canEnd_bind (mark_alone (hlen ▸ hcover) r.rootHash h₃) fun marked s₄ h₄ => ?_
  rw [if_neg (by simp)]
  exact canEnd_pure h₄

/-- A cycle that nothing disturbs takes as many entries as fit into its batch. -/
theorem cycle_alone (order : MapOrder H) (batchSize : ℕ)
    (hdata : ∀ entry ∈ s₀.log, entry.data.length ≤ 65535) (h : Inv s₀) :
    Alone (fun _ t => t.log = s₀.log ∧ t.size = min (s₀.size + batchSize) s₀.log.length)
      (runIntegrationCycle order batchSize false) s₀ := by
  have hle := h.sizes_le _ h.size_mem
  have hmax := h.length_log_le
  let E := (s₀.log.drop s₀.size).take batchSize
  have hE : E.length = min batchSize (s₀.log.length - s₀.size) := by
    rw [List.length_take, List.length_drop]
  have hstate : s₀.db.getLogState = ⟨s₀.log.length, s₀.size, s₀.db.logState.rootHash⟩ := by
    rw [h.db.getLogState, List.length_drop, Nat.add_sub_cancel' hle]
  have hcount : s₀.db.getLogState.pendingCount = .ok (s₀.log.length - s₀.size) := by
    rw [hstate]
    exact checkedSub_ok hle
  refine canEnd_bind
    (alone_perform (P := fun state t => state = s₀.db.getLogState ∧ t = s₀) rfl ⟨rfl, rfl⟩) ?_
  rintro _ s ⟨rfl, rfl⟩
  rw [hcount]
  refine canEnd_bind (P := fun count t => count = s.log.length - s.size ∧ t = s)
    (canEnd_pure ⟨rfl, rfl⟩) ?_
  rintro _ s ⟨rfl, rfl⟩
  split_ifs with h0
  · exact canEnd_pure ⟨rfl, by omega⟩
  refine canEnd_bind
    (alone_perform (P := fun pending t => pending = toPending s.size E ∧ t = s) rfl ⟨?_, rfl⟩) ?_
  · rw [hstate]
    exact h.db.getPendingEntries le_rfl batchSize
  rintro _ s ⟨rfl, rfl⟩
  split_ifs with hpending
  · rw [toPending_eq_nil.mp hpending, List.length_nil] at hE
    exact canEnd_pure ⟨rfl, by omega⟩
  have hnil := mt toPending_eq_nil.mpr hpending
  rw [hstate, checkContiguous_toPending]
  refine canEnd_bind (P := fun _ t => t = s) (canEnd_pure rfl) ?_
  rintro _ s rfl
  have hL₀ : (s.log.take s.size).length = s.size := by rw [List.length_take, Nat.min_eq_left hle]
  have hL : s.log.take s.size ++ E <+: s.log := by
    rw [← List.take_add]
    exact List.take_prefix _ _
  have hlen := hL.length_le
  have hint := Merkle.integrate_returns (D := (s.log.take s.size).map Entry.leafHash) order
    (E := E.map Entry.leafHash)
    (by simpa using hnil) (by rw [← List.map_append, List.length_map]; omega)
  rw [List.length_map, hL₀, ← List.map_append, List.map_take] at hint
  rw [integrateBatch_eq, map_leafHash_toPending]
  have hsize : s.size + E.length = min (s.size + batchSize) s.log.length := by omega
  rw [← hsize]
  refine canEnd_bind (canEnd_translate (K := Storing s) (fun o s' h' => reader_alone h' o) hint
    ⟨h, rfl, rfl⟩) fun r s' h' => ?_
  refine storeBatch_alone order hL₀ hL (fun entry he => hdata entry (hL.subset he)) ?_ h'.1
  rw [List.map_take]
  exact h'.2

end

/-! ### Runs -/

/-- The log after a cycle that runs alone. There is no index. -/
def integrated (order : MapOrder H) (batchSize : ℕ) (s : LogSystem H) : LogSystem H :=
  (runAlone LogSystem.answer (runIntegrationCycle order batchSize false) s).2

theorem runAlone_cycle [LawfulSha256Hash H] (order : MapOrder H) (batchSize : ℕ)
    (hdata : ∀ entry ∈ s.log, entry.data.length ≤ 65535) (h : Inv s) :
    (runAlone LogSystem.answer (runIntegrationCycle order batchSize false) s).1 = .ok () ∧
      (integrated order batchSize s).log = s.log ∧
      (integrated order batchSize s).size = min (s.size + batchSize) s.log.length := by
  obtain ⟨_, t, hreaches, hlog, hsize⟩ := cycle_alone order batchSize hdata h
  have hrun := Concurrent.Sys.runAlone_reaches (fun _ _ _ _ he => he) hreaches
  rw [Concurrent.Sys.runAlone_pure] at hrun
  rw [integrated, hrun]
  exact ⟨rfl, hlog, hsize⟩

variable [DecidableEq H] [LawfulSha256Hash H] {p : LogPool H}

/-- Whatever has happened, cycles that run alone one after the other do not fail, and each
integrates as many entries as fit into its batch, until all are integrated. -/
theorem iterate_integrated (h : Reachable p) (order : MapOrder H) (batchSize : ℕ)
    (hdata : ∀ entry ∈ p.shared.log, entry.data.length ≤ 65535) (k : ℕ) :
    ((integrated order batchSize)^[k] p.shared).log = p.shared.log ∧
      ((integrated order batchSize)^[k] p.shared).size =
        min (p.shared.size + k * batchSize) p.shared.log.length ∧
      (runAlone LogSystem.answer (runIntegrationCycle order batchSize false)
        ((integrated order batchSize)^[k] p.shared)).1 = .ok () := by
  have hinv : ∀ k, Inv ((integrated order batchSize)^[k] p.shared) := by
    intro k
    obtain ⟨ts, hrun⟩ := Concurrent.Sys.run_iterate exec_answer (M := logSys)
      (fun s => Start.cycle s order batchSize false) p k
    exact reachable_inv (h.trans hrun)
  have hle := (hinv 0).sizes_le _ (hinv 0).size_mem
  induction k with
  | zero =>
    refine ⟨rfl, ?_, (runAlone_cycle order batchSize hdata (hinv 0)).1⟩
    rw [zero_mul]
    exact (Nat.min_eq_left hle).symm
  | succ k ih =>
    obtain ⟨hlog, hsize, -⟩ := ih
    obtain ⟨-, hlog', hsize'⟩ := runAlone_cycle order batchSize (hlog ▸ hdata) (hinv k)
    rw [hlog] at hlog'
    have hnext := hinv (k + 1)
    rw [Function.iterate_succ_apply'] at hnext ⊢
    refine ⟨hlog', ?_, (runAlone_cycle order batchSize (hlog' ▸ hdata) hnext).1⟩
    rw [hsize', hlog, hsize, Nat.succ_mul]
    omega

end Siglog.Worker

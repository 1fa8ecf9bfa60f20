import Siglog.Worker.BundleGroups
import Siglog.Worker.CycleCalls
import Siglog.Worker.LogInvariant

/-! A cycle of the integration worker keeps the invariant at every operation, however
other cycles move the state in between, and it never fails on a previous bundle. -/

namespace Siglog.Worker

open Concurrent (Prog)
open Api (Path tilePath entriesPath tileWidth tileWidth_eq partialTileSize)
open Merkle (HashTile EntryBundle MapOrder TileKey rowWidth TileCorrect TileAnswers Integrated
  ReadTile)
open Rfc (mth subtree seg)
open Storage (Op Server PendingEntry perform toPending DbOf TileStorage.reader TileStorage.readTile
  TileStorage.writeTile TileStorage.readEntryBundle TileStorage.writeEntryBundle)

variable {H : Type} [Sha256Hash H] {α β : Type}

/-- A program ends with a value that satisfies `P`, or with an external error. -/
def Ends (P : α → LogSystem H → Prop) : Except (Fault Error) α → LogSystem H → Prop
  | .ok a, s => P a s
  | .error e, _ => External e

/-- The program is safe among other cycles and ends as asserted. -/
def Runs (p : Server H α) (P : α → LogSystem H → Prop) (s : LogSystem H) : Prop :=
  p.Safe Exec Inv Le Le (Ends P) s

section Rules

variable {s : LogSystem H} {P : α → LogSystem H → Prop}

theorem runs_fail {e : Fault Error} (h : External e) : Runs (.fail e) P s := h

theorem runs_mono {P' : α → LogSystem H → Prop} (hP : ∀ a s, P a s → P' a s) {p : Server H α}
    (h : Runs p P s) :
    Runs p P' s := by
  refine Prog.safe_weaken ?_ h
  intro x s hx
  cases x with
  | ok a => exact hP a s hx
  | error e => exact hx

theorem runs_bind {p : Server H α} {f : α → Server H β} {Q : β → LogSystem H → Prop}
    (hp : Runs p P s) (hf : ∀ a s, P a s → Runs (f a) Q s) : Runs (p.bind f) Q s := by
  refine Prog.safe_bind.mpr (Prog.safe_weaken ?_ hp)
  intro x s hx
  cases x with
  | ok a => exact hf a s hx
  | error e => exact hx

theorem runs_ofExcept {x : Except (Fault Error) α} (h : Ends P x s) :
    Runs (Prog.ofExcept x) P s := by
  cases x with
  | ok a => exact h
  | error e => exact h

theorem runs_perform {o : Op H} {P : Op.Result H o → LogSystem H → Prop}
    (h : ∀ s₁, Le s s₁ → Inv s₁ → ∀ r s₂, Exec s₁ o r s₂ → Inv s₂ ∧ Le s₁ s₂ ∧ Ends P r s₂) :
    Runs (perform o) P s := by
  intro s₁ hle hi r s₂ he
  obtain ⟨hi₂, hle₂, hr⟩ := h s₁ hle hi r s₂ he
  refine ⟨hi₂, hle₂, ?_⟩
  cases r with
  | ok a => exact hr
  | error e => exact hr

end Rules

theorem external_of_ne {e : Error}
    (h : ∀ m, e = .internal m → m.toList.head? ≠ some 'm' ∧ m.toList.head? ≠ some 'i') :
    External (.err e) := by
  constructor
  · intro he
    exact (h "missing previous entry bundle" (Fault.err.inj he)).1 rfl
  · intro he
    exact (h "incorrect previous entry bundle length" (Fault.err.inj he)).2 rfl

theorem head_notContiguous (expected got : ℕ) :
    (s!"pending entries are not contiguous: expected index {expected}, got {got}").toList.head? =
      some 'p' := by
  rw [String.append_assoc, String.append_assoc, String.toList_append]
  rfl

/-- What a cycle knows at any time: the size it started from was integrated, the
entries up to the end of its batch are in the log, and what it has written is there. -/
structure Working (n : ℕ) (L : List (Entry H)) (written : Path → Prop) (s : LogSystem H) :
    Prop where
  size_mem : n ∈ s.sizes
  log : L <+: s.log
  written : ∀ path, written path → s.objects path ≠ none

section

variable {n : ℕ} {L : List (Entry H)} {written : Path → Prop} {s : LogSystem H}

theorem Working.mono {s' : LogSystem H} (h : Working n L written s) (hle : Le s s') :
    Working n L written s' :=
  ⟨hle.sizes n h.size_mem, h.log.trans hle.log, fun path hp => hle.objects path (h.written path hp)⟩

theorem Working.leaves (h : Working n L written s) : L.map Entry.leafHash <+: s.leaves :=
  h.log.map _

/-! ### Reading -/

theorem read_runs (h : Working n L written s) (path : Path) :
    Runs (perform (.readObject path))
      (fun r s' => Working n L written s' ∧ Inv s' ∧ r = s'.objects path) s := by
  apply runs_perform
  intro s₁ hle hi r s₂ he
  cases he with
  | fault => rename_i hf; exact ⟨hi, .refl _, hf⟩
  | read => exact ⟨hi, .refl _, h.mono hle, hi, rfl⟩

/-- The tiles of the size the cycle started from can be read while others write. -/
theorem reader_runs (h : Working n L written s) (hn : n ≤ L.length) (hL : L.length ≤ i64Max)
    (o : ReadTile) :
    Runs (TileStorage.reader o)
      (fun r s' => Working n L written s' ∧ TileAnswers ((L.take n).map Entry.leafHash) o r) s := by
  obtain ⟨level, index, part⟩ := o
  have hlen : ((L.take n).map Entry.leafHash).length = n := by
    rw [List.length_map, List.length_take]
    omega
  refine runs_bind (read_runs h _) fun r s' => ?_
  rintro ⟨h', hi, rfl⟩
  have hpre : (L.take n).map Entry.leafHash <+: s'.leaves :=
    (List.take_prefix n L |>.map _).trans h'.leaves
  have hanswer := hi.tileAnswers (by rw [hlen]; exact h'.size_mem) hpre (by omega) level index part
  cases hobj : s'.objects (tilePath level index part) with
  | none => exact ⟨h', hanswer.1 hobj⟩
  | some data =>
    dsimp only
    rcases htile : HashTile.fromBytes data with e | tile
    · refine runs_fail ?_
      rw [HashTile.fromBytes] at htile
      split_ifs at htile
      obtain rfl := Except.error.inj htile
      exact external_of_ne (by simp)
    · exact ⟨h', hanswer.2 data tile hobj htile⟩

/-! ### Writing -/

theorem writeTile_runs [LawfulSha256Hash H] (h : Working n L written s) {level index part : ℕ}
    {tile : HashTile H} (ht : TileObject (L.map Entry.leafHash) level index part tile) :
    Runs (TileStorage.writeTile level index part tile)
      (fun _ => Working n L (fun path => written path ∨ path = tilePath level index part)) s := by
  apply runs_perform
  intro s₁ hle hi r s₂ he
  have hput : Inv (s₁.put (tilePath level index part) tile.toBytes) :=
    hi.putTile (ht.mono (h.mono hle).leaves)
  cases he with
  | fault => rename_i hf; exact ⟨hi, .refl _, hf⟩
  | write =>
    refine ⟨hput, put_le _ _ _, ?_⟩
    have hw := (h.mono hle).mono (put_le s₁ (tilePath level index part) tile.toBytes)
    refine ⟨hw.size_mem, hw.log, fun path hp => ?_⟩
    rcases hp with hp | rfl
    · exact hw.written path hp
    · simp [LogSystem.put]
  | writeLost => rename_i hf; exact ⟨hput, put_le _ _ _, hf⟩

theorem writeTiles_runs [LawfulSha256Hash H] (hL : L.length ≤ i64Max)
    (tiles : List (Σ _ : TileKey, HashTile H))
    (ht : ∀ e ∈ tiles, tileWidth * e.1.index < L.length / 2 ^ (8 * e.1.level) ∧
      TileCorrect (L.map Entry.leafHash) e.1.level e.1.index e.2) :
    ∀ {written : Path → Prop} {s : LogSystem H}, Working n L written s →
      Runs (writeTiles L.length tiles) (fun _ => Working n L fun path => written path ∨ ∃ e ∈ tiles,
        path = tilePath e.1.level e.1.index (partialTileSize e.1.level e.1.index L.length)) s := by
  induction tiles with
  | nil =>
    intro written s h
    exact ⟨h.size_mem, h.log, fun path hp => h.written path (by simpa using hp)⟩
  | cons e tiles ih =>
    intro written s h
    obtain ⟨hrow, hcorrect⟩ := ht e (by simp)
    have hobj :=
      tileObject_of_correct (X := L.map Entry.leafHash) List.prefix_rfl (by rwa [List.length_map])
      (by rwa [List.length_map]) hcorrect
    rw [List.length_map] at hobj
    refine runs_bind (writeTile_runs h hobj) fun _ s' h' => ?_
    refine runs_mono (fun _ s'' h'' => ⟨h''.size_mem, h''.log, fun path hp => h''.written path ?_⟩)
      (ih (fun e he => ht e (by simp [he])) h')
    rcases hp with hp | ⟨e', he', rfl⟩
    · exact .inl (.inl hp)
    · rcases List.mem_cons.mp he' with rfl | he'
      · exact .inl (.inr rfl)
      · exact .inr ⟨e', he', rfl⟩

/-! ### Bundles -/

/-- The previous bundle is there and has the length that its name promises. -/
theorem previousBundle_runs (h : Working n L written s) (hn : n ≤ L.length) {bundleIdx existing : ℕ}
    (hex : existing = 0 ∨ (bundleIdx = n / tileWidth ∧ existing = n % tileWidth)) :
    Runs (previousBundle bundleIdx existing) (fun bundle s' => Working n L written s' ∧
      bundle.entries = seg (L.map Entry.data) (tileWidth * bundleIdx) existing) s := by
  rw [previousBundle]
  split_ifs with h0
  · obtain ⟨rfl, rfl⟩ : bundleIdx = n / tileWidth ∧ existing = n % tileWidth :=
      hex.resolve_left (by omega)
    have hsize : tileWidth * (n / tileWidth) + n % tileWidth = n := Nat.div_add_mod n tileWidth
    have hpart : partialTileSize 0 (n / tileWidth) n = n % tileWidth := by
      rw [Merkle.partialTileSize_eq (by omega), mul_zero, pow_zero, Nat.div_one, if_neg (by omega)]
    refine runs_bind (P := fun b s' => Working n L written s' ∧ ∃ bundle, b = some bundle ∧
      bundle.entries = seg (L.map Entry.data) (tileWidth * (n / tileWidth)) (n % tileWidth)) ?_ ?_
    · refine runs_bind (read_runs h _) fun r s' => ?_
      rintro ⟨h', hi, rfl⟩
      have hstored := (hi.stored n h'.size_mem).bundle (n / tileWidth) (by omega)
      rw [hpart] at hstored
      obtain ⟨data, hdata⟩ := Option.ne_none_iff_exists'.mp hstored
      obtain ⟨bundle, hbundle, hobj⟩ := hi.bundle _ _ data hdata
      rw [hdata]
      dsimp only
      rw [hbundle]
      refine ⟨h', bundle, rfl, ?_⟩
      obtain ⟨E, hE⟩ := h'.log
      rw [hobj.2, objectWidth, if_neg (by omega), ← hE, List.map_append,
        Rfc.seg_append_left (by rw [List.length_map]; omega)]
    · rintro _ s' ⟨h', bundle, rfl, hentries⟩
      have hlen : bundle.entries.length = n % tileWidth := by
        rw [hentries, Rfc.seg_length (by rw [List.length_map]; omega)]
      dsimp only
      rw [if_neg (not_not.mpr hlen)]
      exact ⟨h', hentries⟩
  · obtain rfl : existing = 0 := by omega
    exact ⟨h, rfl⟩

theorem writeEntryBundle_runs (h : Working n L written s) {index part : ℕ} {bundle : EntryBundle}
    (hb : BundleObject L index part bundle) :
    Runs (TileStorage.writeEntryBundle index part bundle)
      (fun _ => Working n L (fun path => written path ∨ path = entriesPath index part)) s := by
  rw [TileStorage.writeEntryBundle]
  rcases hdata : bundle.toBytes with e | data
  · -- an entry too long for a bundle ends the cycle
    have hext : ∀ (entries : List Bytes) e, EntryBundle.entriesToBytes entries = .error e →
        External e := by
      intro entries
      induction entries with
      | nil => intro e he; cases he
      | cons entry entries ih =>
        intro e he
        rw [EntryBundle.entriesToBytes] at he
        split_ifs at he
        · cases he
          exact external_of_ne (by simp)
        · rcases hrest : EntryBundle.entriesToBytes entries with e' | rest
          · simp only [hrest, bind, Except.bind, Except.error.injEq] at he
            exact he ▸ ih e' hrest
          · simp [hrest, bind, Except.bind] at he
    exact hext _ e hdata
  · change Runs (perform (.writeObject _ data)) _ s
    apply runs_perform
    intro s₁ hle hi r s₂ he
    have hput : Inv (s₁.put (entriesPath index part) data) :=
      hi.putBundle hdata (hb.mono (h.mono hle).log)
    cases he with
    | fault => rename_i hf; exact ⟨hi, .refl _, hf⟩
    | write =>
      refine ⟨hput, put_le _ _ _, ?_⟩
      have hw := (h.mono hle).mono (put_le s₁ (entriesPath index part) data)
      refine ⟨hw.size_mem, hw.log, fun path hp => ?_⟩
      rcases hp with hp | rfl
      · exact hw.written path hp
      · simp [LogSystem.put]
    | writeLost => rename_i hf; exact ⟨hput, put_le _ _ _, hf⟩

/-- The old prefix and the new entries of a bundle make up its part of the log. -/
theorem bundleObject_of_group (hn : n ≤ L.length) {bundleIdx : ℕ}
    (hgroup : groupStart n bundleIdx < groupStop L.length bundleIdx) {existing : ℕ}
    (hex : existing = if bundleIdx = n / tileWidth then n % tileWidth else 0) {bundle : EntryBundle}
    (hb : bundle.entries = seg (L.map Entry.data) (tileWidth * bundleIdx) existing) :
    BundleObject L bundleIdx (partialTileSize 0 bundleIdx L.length) ⟨bundle.entries ++
      seg (L.map Entry.data) (groupStart n bundleIdx)
        (groupStop L.length bundleIdx - groupStart n bundleIdx)⟩ := by
  have hwidth : objectWidth (partialTileSize 0 bundleIdx L.length) =
      groupStop L.length bundleIdx - tileWidth * bundleIdx := by
    have hrow : tileWidth * bundleIdx < L.length / 2 ^ (8 * 0) := by
      rw [mul_zero, pow_zero, Nat.div_one]
      unfold groupStart groupStop at hgroup
      omega
    rw [objectWidth_part (by omega) hrow, rowWidth, mul_zero, pow_zero, Nat.div_one, groupStop,
      tileWidth_eq]
    omega
  have hstart : groupStart n bundleIdx = tileWidth * bundleIdx + existing := by
    subst hex
    unfold groupStart groupStop at *
    rw [tileWidth_eq] at *
    split_ifs <;> omega
  have hstop : groupStop L.length bundleIdx ≤ L.length := by unfold groupStop; omega
  refine ⟨?_, ?_⟩
  · rw [hwidth]
    unfold groupStart at hgroup
    omega
  · dsimp only
    rw [hwidth, hb, hstart, ← Rfc.seg_add]
    congr 1
    omega

theorem writeBundles_runs (hn : n ≤ L.length) (bundles : List (Σ _ : ℕ, List Bytes))
    (hb : ∀ e ∈ bundles, groupStart n e.1 < groupStop L.length e.1 ∧
      e.2 = seg (L.map Entry.data) (groupStart n e.1) (groupStop L.length e.1 - groupStart n e.1)) :
    ∀ {written : Path → Prop} {s : LogSystem H}, Working n L written s →
      Runs (writeBundles n L.length bundles)
        (fun _ => Working n L fun path => written path ∨ ∃ e ∈ bundles,
        path = entriesPath e.1 (partialTileSize 0 e.1 L.length)) s := by
  induction bundles with
  | nil =>
    intro written s h
    exact ⟨h.size_mem, h.log, fun path hp => h.written path (by simpa using hp)⟩
  | cons e bundles ih =>
    intro written s h
    obtain ⟨bundleIdx, entries⟩ := e
    obtain ⟨hgroup, hentries⟩ := hb _ List.mem_cons_self
    dsimp only at hgroup hentries
    subst hentries
    rw [writeBundles]
    refine runs_bind (previousBundle_runs h hn ?_) ?_
    · split_ifs with hlast
      · exact .inr ⟨hlast, rfl⟩
      · exact .inl rfl
    rintro bundle s₁ ⟨h₁, hentries⟩
    refine runs_bind (writeEntryBundle_runs h₁ (bundleObject_of_group hn hgroup rfl hentries))
      fun _ s₂ h₂ => ?_
    refine runs_mono (fun _ s'' h'' => ⟨h''.size_mem, h''.log, fun path hp => h''.written path ?_⟩)
      (ih (fun e he => hb e (by simp [he])) h₂)
    rcases hp with hp | ⟨e', he', rfl⟩
    · exact .inl (.inl hp)
    · rcases List.mem_cons.mp he' with rfl | he'
      · exact .inl (.inr rfl)
      · exact .inr ⟨e', he', rfl⟩

/-! ### The whole cycle -/

/-- What the cycle has written completes the objects of the size it started from. -/
theorem storedAt_of_written (hL : L.length ≤ i64Max) (hn : n < L.length) {D : List H}
    (hD : D.length = n)
    {r : Merkle.IntegrationResult H} (hr : Integrated D (L.map Entry.leafHash) r)
    (h : Working n L written s) (hs : StoredAt s.objects n)
    (ht : ∀ level index tile, r.tiles.lookup ⟨level, index⟩ = some tile →
      written (tilePath level index (partialTileSize level index L.length)))
    (hb : ∀ index, groupStart n index < groupStop L.length index →
      written (entriesPath index (partialTileSize 0 index L.length))) : StoredAt s.objects
      L.length := by
  constructor
  · intro level index hrow
    rcases hlook : r.tiles.lookup ⟨level, index⟩ with _ | tile
    · -- the tile has not changed, so it has kept its name
      have hw := hr.unchanged level index hlook
      rw [List.length_map, hD] at hw
      have hl := Merkle.tile_level_le hL hrow
      have hrow' : tileWidth * index < n / 2 ^ (8 * level) := by
        unfold rowWidth at hw
        rw [tileWidth_eq] at hw hrow ⊢
        omega
      rw [partialTileSize_of_rowWidth hl hrow, hw, ← partialTileSize_of_rowWidth hl hrow']
      exact hs.tile level index hrow'
    · exact h.written _ (ht level index tile hlook)
  · intro index hi
    by_cases hg : groupStart n index < groupStop L.length index
    · exact h.written _ (hb index hg)
    · -- no entry of the batch falls into the bundle
      have hfull : tileWidth * (index + 1) ≤ n := by
        unfold groupStart groupStop at hg
        rw [tileWidth_eq] at *
        omega
      have hpart : ∀ m, n ≤ m → partialTileSize 0 index m = 0 := by
        intro m hm
        rw [Merkle.partialTileSize_eq (by omega), mul_zero, pow_zero, Nat.div_one, if_pos]
        rw [tileWidth_eq] at *
        omega
      have := hs.bundle index (by rw [tileWidth_eq] at *; omega)
      rw [hpart n le_rfl] at this
      rwa [hpart _ hn.le]

theorem quiet_runs {o : Op H}
    (ho : ∀ s r s', Exec s o r s' → s' = s ∧ ∀ e, r = .error e → External e)
    (h : Working n L written s) : Runs (perform o) (fun _ => Working n L written) s := by
  apply runs_perform
  intro s₁ hle hi r s₂ he
  obtain ⟨rfl, hr⟩ := ho s₁ r s₂ he
  refine ⟨hi, .refl _, ?_⟩
  cases r with
  | ok a => exact h.mono hle
  | error e => exact hr e rfl

theorem updateIndex_runs (vindex : Bool) (pending : List (PendingEntry H))
    (h : Working n L written s) :
    Runs (updateIndex vindex pending) (fun _ => Working n L written) s := by
  rw [updateIndex]
  split_ifs
  · refine runs_bind (P := fun _ => Working n L written) ?_ fun _ s' h' =>
      quiet_runs (fun _ _ _ he => ?_) h'
    · clear * - h
      induction pending generalizing s with
      | nil => exact h
      | cons entry pending ih =>
        refine runs_bind (quiet_runs (fun _ _ _ he => ?_) h) fun _ s' h' => ih h'
        cases he with
        | fault => rename_i hf; exact ⟨rfl, by rintro e ⟨⟩; exact hf⟩
        | indexEntry => exact ⟨rfl, by rintro e ⟨⟩⟩
    · cases he with
      | fault => rename_i hf; exact ⟨rfl, by rintro e ⟨⟩; exact hf⟩
      | flushIndex => exact ⟨rfl, by rintro e ⟨⟩⟩
  · exact h

/-- A mark by a cycle that has stored everything. If another worker has advanced the
tree it changes nothing. -/
theorem mark_runs (hlen : n < L.length)
    (hstored : ∀ s', Inv s' → Working n L written s' → StoredAt s'.objects L.length)
    (h : Working n L written s) :
    Runs (perform (.markIntegratedIfCurrent n L.length (mth (L.map Entry.leafHash))))
      (fun _ => Working n L written) s := by
  apply runs_perform
  intro s₁ hle hi r s₂ he
  have h₁ := h.mono hle
  have hmark : ∀ marked db, s₁.db.markIntegratedIfCurrent n L.length (mth (L.map Entry.leafHash)) =
      .ok (marked, db) →
      Inv (s₁.mark marked L.length db) ∧ Le s₁ (s₁.mark marked L.length db) := by
    intro marked db hm
    by_cases hcur : s₁.size = n
    · obtain ⟨E, hE⟩ := h₁.leaves
      have htake : s₁.leaves.take L.length = L.map Entry.leafHash := by
        rw [← hE, show L.length = (L.map Entry.leafHash).length from (List.length_map _).symm,
          List.take_left]
      obtain ⟨k, hk⟩ : ∃ k, L.length = s₁.size + k := ⟨L.length - s₁.size, by omega⟩
      have hs := hstored s₁ hi h₁
      have hlog := h₁.log.length_le
      rw [← htake, ← hcur, hk] at hm
      rw [hk] at hs hlog ⊢
      exact hi.mark (by omega) hlog hs hm
    · have hstale := hi.db.mark_stale (Ne.symm hcur) hlen.le (mth (L.map Entry.leafHash))
      rw [hstale, Except.ok.injEq, Prod.mk.injEq] at hm
      obtain ⟨rfl, rfl⟩ := hm
      exact ⟨hi, .refl _⟩
  cases he with
  | fault => rename_i hf; exact ⟨hi, .refl _, hf⟩
  | mark =>
    rename_i hm
    obtain ⟨hi', hle'⟩ := hmark _ _ hm
    exact ⟨hi', hle', h₁.mono hle'⟩
  | markLost =>
    rename_i hf hm
    obtain ⟨hi', hle'⟩ := hmark _ _ hm
    exact ⟨hi', hle', hf⟩
  | markError =>
    rename_i hm
    rw [Storage.Database.markIntegratedIfCurrent, if_neg (by omega)] at hm
    split_ifs at hm

end

theorem storeBatch_runs [LawfulSha256Hash H] (order : MapOrder H) (vindex : Bool) {n : ℕ}
    {L₀ E : List (Entry H)} (hn : L₀.length = n) (hE : E ≠ []) (hL : (L₀ ++ E).length ≤ i64Max)
    {r : Merkle.IntegrationResult H}
    (hr : Integrated (L₀.map Entry.leafHash) ((L₀ ++ E).map Entry.leafHash) r) {s : LogSystem H}
    (h : Working n (L₀ ++ E) (fun _ => False) s) :
    Runs (storeBatch order vindex n (toPending n E) r) (fun _ _ => True) s := by
  have hlen : (L₀ ++ E).length = n + E.length := by rw [List.length_append, hn]
  have hpos : 0 < E.length := List.length_pos_iff.mpr hE
  have hsize : r.newSize = (L₀ ++ E).length := by rw [hr.newSize, List.length_map]
  have hdata : seg ((L₀ ++ E).map Entry.data) n E.length = E.map Entry.data := by
    rw [seg, List.map_append, ← hn,
      show L₀.length = (L₀.map Entry.data).length from (List.length_map _).symm,
      List.drop_left, List.take_of_length_le (List.length_map _).le]
  have hgroups := groupBundles_lookup _ n E hdata
  rw [← hlen] at hgroups
  rw [storeBatch, hsize]
  refine runs_bind (writeTiles_runs hL _ (fun e he => ?_) h) fun _ s₂ h₂ => ?_
  · have := hr.tile e.1 e.2 (AList.mem_lookup_iff.mpr (Merkle.Shuffle.mem_order.mp he))
    rwa [List.length_map] at this
  refine runs_bind (writeBundles_runs (by omega) _ (fun e he => ?_) h₂) fun _ s₃ h₃ => ?_
  · have hlook := AList.mem_lookup_iff.mpr (Merkle.Shuffle.mem_order.mp he)
    rw [hgroups] at hlook
    split_ifs at hlook with hlt
    · exact ⟨hlt, (Option.some.inj hlook).symm⟩
    · cases hlook
  refine runs_bind (updateIndex_runs vindex _ h₃) fun _ s₄ h₄ => ?_
  rw [hr.rootHash]
  refine runs_bind (mark_runs (by omega) (fun s' hi h' => ?_) h₄) fun marked s₅ h₅ => ?_
  · refine storedAt_of_written hL (by omega) (by rw [List.length_map, hn]) hr h'
      (hi.stored n h'.size_mem)
      (fun level index tile hlook => ?_) (fun index hlt => ?_)
    · exact .inl (.inr ⟨⟨⟨level, index⟩, tile⟩,
        Merkle.Shuffle.mem_order.mpr (AList.mem_lookup_iff.mp hlook), rfl⟩)
    · have hlook := hgroups index
      rw [if_pos hlt] at hlook
      exact .inr ⟨⟨index, _⟩, Merkle.Shuffle.mem_order.mpr (AList.mem_lookup_iff.mp hlook), rfl⟩
  · split_ifs
    · refine runs_mono (fun _ _ _ => trivial) (quiet_runs (fun _ _ _ he => ?_) h₅)
      cases he with
      | fault => rename_i hf; exact ⟨rfl, by rintro e ⟨⟩; exact hf⟩
      | maybeSnapshot => exact ⟨rfl, by rintro e ⟨⟩⟩
    · trivial

/-- Integration of a batch that continues the tree. -/
theorem integrateBatch_runs [LawfulSha256Hash H] (order : MapOrder H) (vindex : Bool) {n : ℕ}
    {L₀ E : List (Entry H)}
    (hn : L₀.length = n) (hE : E ≠ []) (hL : (L₀ ++ E).length ≤ i64Max) {s : LogSystem H}
    (h : Working n (L₀ ++ E) (fun _ => False) s) :
    Runs (integrateBatch order vindex n (toPending n E)) (fun _ _ => True) s := by
  have hlen : (L₀ ++ E).length = n + E.length := by rw [List.length_append, hn]
  have hD : (((L₀ ++ E).take n).map Entry.leafHash) = L₀.map Entry.leafHash := by
    rw [← hn, List.take_left]
  have hint :=
    Merkle.integrate_returns (D := L₀.map Entry.leafHash) order (E := E.map Entry.leafHash)
    (by simpa using hE) (by simpa using hL)
  rw [List.length_map, hn, ← List.map_append] at hint
  rw [integrateBatch_eq, map_leafHash_toPending]
  refine runs_bind (P := fun r s' => Working n (L₀ ++ E) (fun _ => False) s' ∧
    Integrated (L₀.map Entry.leafHash) ((L₀ ++ E).map Entry.leafHash) r) ?_
    fun r s₁ h₁ => storeBatch_runs order vindex hn hE hL h₁.2 h₁.1
  refine Prog.safe_weaken ?_
    (Prog.safe_translate (fun o s' h' => Prog.safe_weaken ?_ (reader_runs h' (by omega) hL o))
    (E := fun e _ => External e) hint h)
  · rintro x s' (⟨hw, r, rfl, hr⟩ | ⟨e, rfl, he⟩)
    · exact ⟨hw, hr⟩
    · exact he
  · intro x s'' hx
    rw [hD] at hx
    cases x with
    | ok r => exact ⟨by rintro _ ⟨⟩; exact hx, by rintro _ ⟨⟩⟩
    | error e => exact ⟨by rintro _ ⟨⟩, by rintro _ ⟨⟩; exact hx⟩

/-! ### The start of a cycle -/

section

variable {s : LogSystem H}

theorem getLogState_runs : Runs (perform .getLogState)
    (fun state s' => state.integratedSize ∈ s'.sizes ∧ state.integratedSize ≤ s'.size) s := by
  apply runs_perform
  intro s₁ _ hi r s₂ he
  cases he with
  | fault => rename_i hf; exact ⟨hi, .refl _, hf⟩
  | getLogState => exact ⟨hi, .refl _, hi.size_mem, le_rfl⟩

theorem pendingCount_runs (state : Storage.LogState H) :
    Runs (Prog.ofExcept state.pendingCount) (fun _ s' => s' = s) s := by
  refine runs_ofExcept ?_
  rw [Storage.LogState.pendingCount, checkedSub]
  split_ifs
  · rfl
  · exact ⟨by simp [missingPrevious], by simp [incorrectPrevious]⟩

/-- The pending entries are read later than the size, when the tree may have grown. -/
theorem getPendingEntries_runs {n : ℕ} (hmem : n ∈ s.sizes) (hle : n ≤ s.size) (batchSize : ℕ) :
    Runs (perform (.getPendingEntries n batchSize)) (fun pending s' => ∃ L₀ E, n ≤ L₀.length ∧
      pending = toPending L₀.length E ∧ (L₀ ++ E).length ≤ i64Max ∧
      Working n (L₀ ++ E) (fun _ => False) s') s := by
  apply runs_perform
  intro s₂ hle₂ hi r s₃ he
  cases he with
  | fault => rename_i hf; exact ⟨hi, .refl _, hf⟩
  | getPendingEntries =>
    refine ⟨hi, .refl _, s₂.log.take s₂.size, (s₂.log.drop s₂.size).take batchSize, ?_⟩
    have hsize := hi.sizes_le _ hi.size_mem
    have hb := hi.db.bound
    have hpre : s₂.log.take s₂.size ++ (s₂.log.drop s₂.size).take batchSize <+: s₂.log := by
      rw [← List.take_add]
      exact List.take_prefix _ _
    have hlen := hpre.length_le
    rw [List.length_drop] at hb
    rw [List.length_take, Nat.min_eq_left hsize]
    exact ⟨hle.trans hle₂.size, hi.db.getPendingEntries (hle.trans hle₂.size) batchSize, by
        omega, hle₂.sizes _ hmem, hpre,
      fun _ h => h.elim⟩

/-- Entries that another worker has taken are refused. -/
theorem checkContiguous_runs {n : ℕ} {L₀ E : List (Entry H)} (hE : E ≠ []) :
    Runs (Prog.ofExcept (checkContiguous n (toPending L₀.length E)))
      (fun _ s' => s' = s ∧ L₀.length = n) s := by
  refine runs_ofExcept ?_
  by_cases heq : L₀.length = n
  · rw [← heq, checkContiguous_toPending]
    exact ⟨rfl, rfl⟩
  · obtain ⟨entry, E', rfl⟩ := List.exists_cons_of_ne_nil hE
    rw [toPending, checkContiguous, if_pos heq]
    refine external_of_ne ?_
    rintro m ⟨⟩
    rw [head_notContiguous]
    decide

end

/-- Every cycle is safe, and it never fails on a previous bundle. -/
theorem runIntegrationCycle_runs [LawfulSha256Hash H] (order : MapOrder H) (batchSize : ℕ)
    (vindex : Bool)
    (s : LogSystem H) : Runs (runIntegrationCycle order batchSize vindex) (fun _ _ => True) s := by
  refine runs_bind getLogState_runs fun state s₁ h₁ => ?_
  refine runs_bind (pendingCount_runs state) ?_
  rintro count _ rfl
  split_ifs
  · trivial
  refine runs_bind (getPendingEntries_runs h₁.1 h₁.2 batchSize) ?_
  rintro pending s₂ ⟨L₀, E, hsize, rfl, hb, h₂⟩
  split_ifs with hE
  · trivial
  have hE' : E ≠ [] := fun h => hE (by rw [h]; rfl)
  refine runs_bind (checkContiguous_runs hE') ?_
  rintro _ _ ⟨rfl, heq⟩
  rw [heq]
  exact integrateBatch_runs order vindex heq hE' hb h₂

end Siglog.Worker

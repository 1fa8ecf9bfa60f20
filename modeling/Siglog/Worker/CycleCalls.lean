import Siglog.Worker.Integration

/-! The operations that a cycle of the integration worker may perform, whatever their
answers are. -/

namespace Siglog.Worker

open Concurrent (Prog)
open Api (Path tilePath entriesPath partialTileSize)
open Merkle (HashTile MapOrder TileKey)
open Storage (Op Server PendingEntry perform TileStorage.reader)

variable {H : Type} [Sha256Hash H]

/-- What follows the integration of a batch: tiles and bundles are stored, then the entries are
marked. -/
def storeBatch (order : MapOrder H) (vindex : Bool) (fromSize : ℕ) (pending : List (PendingEntry H))
    (result : Merkle.IntegrationResult H) : Server H Unit := do
  writeTiles result.newSize (order.tiles.order result.tiles.entries)
  writeEntryBundles order pending fromSize result.newSize
  updateIndex vindex pending
  let marked ← perform (.markIntegratedIfCurrent fromSize result.newSize result.rootHash)
  if marked ∧ vindex then perform .maybeSnapshot else .pure ()

theorem integrateBatch_eq (order : MapOrder H) (vindex : Bool) (n : ℕ)
    (pending : List (PendingEntry H)) :
    integrateBatch order vindex n pending =
      ((Merkle.integrate order n (pending.map fun e => e.leafHash)).translate
        TileStorage.reader).bind
        (storeBatch order vindex n pending) := rfl

/-- What a cycle does besides storing tiles and marking entries. -/
structure Common (C : Op H → Prop) : Prop where
  read : ∀ path, C (.readObject path)
  bundle : ∀ index part data, C (.writeObject (entriesPath index part) data)
  index : ∀ index data, C (.indexEntry index data)
  flush : C .flushIndex
  snapshot : C .maybeSnapshot

variable {C : Op H → Prop}

omit [Sha256Hash H] in
theorem perform_calls {o : Op H} (h : C o) : (perform o).Calls C :=
  ⟨h, fun _ => Prog.calls_ofExcept⟩

theorem reader_calls (h : ∀ path, C (.readObject path)) (o : Merkle.ReadTile) :
    (TileStorage.reader (H := H) o).Calls C := by
  obtain ⟨level, index, part⟩ := o
  refine Prog.calls_seq (perform_calls (h _)) fun data => ?_
  cases data with
  | none => trivial
  | some data => exact Prog.calls_seq Prog.calls_ofExcept fun _ => trivial

theorem writeTiles_calls (newSize : ℕ) (tiles : List (Σ _ : TileKey, HashTile H))
    (h : ∀ e ∈ tiles, C (.writeObject
      (tilePath e.1.level e.1.index (partialTileSize e.1.level e.1.index newSize)) e.2.toBytes)) :
    (writeTiles newSize tiles).Calls C := by
  induction tiles with
  | nil => trivial
  | cons e tiles ih =>
    refine Prog.calls_seq (perform_calls (h e List.mem_cons_self)) fun _ => ih fun e' he' => ?_
    exact h e' (List.mem_cons_of_mem e he')

omit [Sha256Hash H] in
theorem previousBundle_calls (h : ∀ path, C (.readObject path)) (bundleIdx existing : ℕ) :
    (previousBundle (H := H) bundleIdx existing).Calls C := by
  rw [previousBundle]
  split_ifs
  · refine Prog.calls_seq (Prog.calls_seq (perform_calls (h _)) fun data => ?_) fun bundle => ?_
    · cases data with
      | none => trivial
      | some data => exact Prog.calls_seq Prog.calls_ofExcept fun _ => trivial
    · cases bundle with
      | none => trivial
      | some bundle =>
        dsimp only
        split_ifs
        · trivial
        · trivial
  · trivial

omit [Sha256Hash H] in
theorem writeBundles_calls (hread : ∀ path, C (.readObject path))
    (hwrite : ∀ index part data, C (.writeObject (entriesPath index part) data))
    (fromSize toSize : ℕ) (bundles : List (Σ _ : ℕ, List Bytes)) :
    (writeBundles (H := H) fromSize toSize bundles).Calls C := by
  induction bundles with
  | nil => trivial
  | cons e bundles ih =>
    refine Prog.calls_seq (previousBundle_calls hread _ _) fun bundle => Prog.calls_seq ?_ fun _ =>
      ih
    exact Prog.calls_seq Prog.calls_ofExcept fun _ => perform_calls (hwrite _ _ _)

omit [Sha256Hash H] in
theorem updateIndex_calls (h : Common C) (vindex : Bool) (pending : List (PendingEntry H)) :
    (updateIndex vindex pending).Calls C := by
  rw [updateIndex]
  split_ifs
  · refine Prog.calls_seq ?_ fun _ => perform_calls h.flush
    induction pending with
    | nil => trivial
    | cons entry pending ih => exact Prog.calls_seq (perform_calls (h.index _ _)) fun _ => ih
  · trivial

/-- After integration a cycle stores the changed tiles and makes one mark. -/
theorem storeBatch_calls (h : Common C) (order : MapOrder H) (vindex : Bool) (n : ℕ)
    (pending : List (PendingEntry H))
    (result : Merkle.IntegrationResult H) (htile : ∀ e ∈ result.tiles.entries, C (.writeObject
      (tilePath e.1.level e.1.index (partialTileSize e.1.level e.1.index result.newSize))
        e.2.toBytes))
    (hmark : C (.markIntegratedIfCurrent n result.newSize result.rootHash)) :
    (storeBatch order vindex n pending result).Calls C := by
  refine Prog.calls_seq
    (writeTiles_calls _ _ fun e he => htile e (Merkle.Shuffle.mem_order.mp he)) fun _ =>
    Prog.calls_seq (writeBundles_calls h.read h.bundle _ _ _) fun _ =>
      Prog.calls_seq (updateIndex_calls h _ _) fun _ =>
    Prog.calls_seq (perform_calls hmark) fun marked => ?_
  split_ifs
  · exact perform_calls h.snapshot
  · trivial

end Siglog.Worker

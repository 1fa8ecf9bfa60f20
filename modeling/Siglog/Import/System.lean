import Siglog.Import.Bulk
import Siglog.Concurrent.Pool

/-! What an importer works on: the database, whose writer lock it holds, and the storage.
An operation may fail, and a failed write may have taken place. Whatever the state is in
which an import starts, and however it ends, it replaces no object, and it sets the log
state only as its last operation. -/

namespace Siglog.Import

open Concurrent (Prog Schedule)
open Concurrent.Prog (Apart Along AllEnd along_bind along_weaken along_ofExcept along_of_calls)
open Api (Path tilePath entriesPath partialTileSize)
open Merkle (HashTile EntryBundle MapOrder ReadTile TileKey integrate)
open Storage (Database Mode)

structure ImportState (H : Type) where
  db : Database H
  objects : Path → Option Bytes

variable {H : Type}

namespace ImportState

/-- An empty database and an empty storage. -/
def empty : ImportState H := ⟨.empty, fun _ => none⟩

def put (s : ImportState H) (path : Path) (data : Bytes) : ImportState H :=
  { s with objects := fun p => if p = path then some data else s.objects p }

@[simp] theorem put_db (s : ImportState H) (path : Path) (data : Bytes) :
    (s.put path data).db = s.db := rfl

@[simp] theorem put_self (s : ImportState H) (path : Path) (data : Bytes) :
    (s.put path data).objects path = some data := by
  simp [put]

theorem put_ne (s : ImportState H) {path path' : Path} (data : Bytes) (h : path' ≠ path) :
    (s.put path data).objects path' = s.objects path' := by
  simp [put, h]

/-- What an operation does when nothing fails. -/
def answer (s : ImportState H) : (o : ImportOp H) → o.Answer H × ImportState H
  | .readObject path => (.ok (s.objects path), s)
  | .writeObject path data => (.ok (), s.put path data)
  | .ensureMode mode =>
    ((s.db.insertMode mode).checkMode mode, { s with db := s.db.insertMode mode })
  | .beginImport => (s.db.beginImport, s)
  | .syncImport => (.ok (), s)
  | .finishImport size root =>
    match s.db.finishImport size root with
    | .ok db => (.ok (), { s with db })
    | .error e => (.error e, s)

/-- All objects are still there as they were. -/
def Kept (s s' : ImportState H) : Prop :=
  ∀ path data, s.objects path = some data → s'.objects path = some data

theorem Kept.trans {s s' s'' : ImportState H} (h : s.Kept s') (h' : s'.Kept s'') : s.Kept s'' :=
  fun path data hdata => h' path data (h path data hdata)

theorem kept_put {s : ImportState H} {path : Path} (h : s.objects path = none) (data : Bytes) :
    s.Kept (s.put path data) := by
  intro path' data' hdata
  rw [put_ne s data]
  · exact hdata
  · rintro rfl
    rw [h] at hdata
    cases hdata

end ImportState

/-- One operation of an import, where operations may fail or may not. What a failed
operation did may have taken place, but for a commit, which then has not. -/
inductive ImportExec (mayFail : Prop) :
    ImportState H → (o : ImportOp H) → o.Answer H → ImportState H → Prop where
  | answer (s : ImportState H) (o : ImportOp H) :
      ImportExec mayFail s o (s.answer o).1 (s.answer o).2
  | fault (h : mayFail) (s : ImportState H) (o : ImportOp H) (e : Fault Error) :
      ImportExec mayFail s o (.error e) s
  | writeLost (h : mayFail) (s : ImportState H) (path : Path) (data : Bytes) (e : Fault Error) :
      ImportExec mayFail s (.writeObject path data) (.error e) (s.put path data)
  | modeLost (h : mayFail) (s : ImportState H) (mode : Mode) (e : Fault Error) :
      ImportExec mayFail s (.ensureMode mode) (.error e) { s with db := s.db.insertMode mode }

variable {mayFail : Prop}

/-- What a read answers. -/
theorem exec_read {s s' : ImportState H} {path : Path} {r : Except (Fault Error) (Option Bytes)}
    (h : ImportExec mayFail s (.readObject path) r s') :
    s' = s ∧ (r = .ok (s.objects path) ∨ mayFail ∧ ∃ e, r = .error e) := by
  cases h with
  | answer => exact ⟨rfl, .inl rfl⟩
  | fault hf _ _ e => exact ⟨rfl, .inr ⟨hf, e, rfl⟩⟩

theorem exec_write {s s' : ImportState H} {path : Path} {data : Bytes}
    {r : Except (Fault Error) Unit} (h : ImportExec mayFail s (.writeObject path data) r s') :
    (s' = s.put path data ∨ s' = s) ∧
    (r = .ok () ∧ s' = s.put path data ∨ mayFail ∧ ∃ e, r = .error e) := by
  cases h with
  | answer => exact ⟨.inl rfl, .inl ⟨rfl, rfl⟩⟩
  | fault hf _ _ e => exact ⟨.inr rfl, .inr ⟨hf, e, rfl⟩⟩
  | writeLost hf _ _ _ e => exact ⟨.inl rfl, .inr ⟨hf, e, rfl⟩⟩

theorem exec_sync {s s' : ImportState H} {r : Except (Fault Error) Unit}
    (h : ImportExec mayFail s .syncImport r s') :
    s' = s ∧ (r = .ok () ∨ mayFail ∧ ∃ e, r = .error e) := by
  cases h with
  | answer => exact ⟨rfl, .inl rfl⟩
  | fault hf _ _ e => exact ⟨rfl, .inr ⟨hf, e, rfl⟩⟩

theorem exec_begin {s s' : ImportState H} {r : Except (Fault Error) Unit}
    (h : ImportExec mayFail s .beginImport r s') :
    s' = s ∧ (r = s.db.beginImport ∨ mayFail ∧ ∃ e, r = .error e) := by
  cases h with
  | answer => exact ⟨rfl, .inl rfl⟩
  | fault hf _ _ e => exact ⟨rfl, .inr ⟨hf, e, rfl⟩⟩

theorem exec_mode {s s' : ImportState H} {mode : Mode} {r : Except (Fault Error) Unit}
    (h : ImportExec mayFail s (.ensureMode mode) r s') :
    s' = { s with db := s.db.insertMode mode } ∧ r = (s.db.insertMode mode).checkMode mode ∨
      (s' = { s with db := s.db.insertMode mode } ∨ s' = s) ∧ mayFail ∧ ∃ e, r = .error e := by
  cases h with
  | answer => exact .inl ⟨rfl, rfl⟩
  | fault hf _ _ e => exact .inr ⟨.inr rfl, hf, e, rfl⟩
  | modeLost hf _ _ e => exact .inr ⟨.inl rfl, hf, e, rfl⟩

theorem exec_finish {s s' : ImportState H} {size : ℕ} {root : H} {r : Except (Fault Error) Unit}
    (h : ImportExec mayFail s (.finishImport size root) r s') :
    (∃ db, s.db.finishImport size root = .ok db ∧ r = .ok () ∧ s' = { s with db }) ∨
      ∃ e, r = .error e ∧ s' = s ∧ (mayFail ∨ s.db.finishImport size root = .error e) := by
  cases h with
  | answer =>
    rw [ImportState.answer]
    cases hdb : s.db.finishImport size root with
    | ok db => exact .inl ⟨db, rfl, rfl, rfl⟩
    | error e => exact .inr ⟨e, rfl, rfl, .inr rfl⟩
  | fault hf _ _ e => exact .inr ⟨e, rfl, rfl, .inl hf⟩

/-- An operation that replaces nothing. -/
def Absent (o : ImportOp H) (s : ImportState H) : Prop :=
  ∀ path data, o = .writeObject path data → s.objects path = none

theorem exec_kept {s s' : ImportState H} {o : ImportOp H} {r : o.Answer H} (ho : Absent o s)
    (h : ImportExec mayFail s o r s') : s.Kept s' := by
  cases h with
  | answer =>
    cases o with
    | readObject path => exact fun _ _ h => h
    | writeObject path data => exact ImportState.kept_put (ho path data rfl) data
    | ensureMode mode => exact fun _ _ h => h
    | beginImport => exact fun _ _ h => h
    | syncImport => exact fun _ _ h => h
    | finishImport size root =>
      rw [ImportState.answer]
      split
      · exact fun _ _ h => h
      · exact fun _ _ h => h
  | fault => exact fun _ _ h => h
  | writeLost => exact ImportState.kept_put (ho _ _ rfl) _
  | modeLost => exact fun _ _ h => h

def ImportOp.written : ImportOp H → Option Path
  | .writeObject path _ => some path
  | _ => none

/-- If nothing is replaced and nothing fails, no path is written twice. -/
theorem nodup_written {α : Type} {Q : Except (Fault Error) α → ImportState H → Prop}
    {p : Importer H α} {s : ImportState H} (h : p.Along (ImportExec False) Absent Q s) :
    ((Concurrent.Sys.opsAlone ImportState.answer p s).filterMap ImportOp.written).Nodup ∧
      ∀ path ∈ (Concurrent.Sys.opsAlone ImportState.answer p s).filterMap ImportOp.written,
        s.objects path = none := by
  induction p generalizing s with
  | pure a => exact ⟨List.nodup_nil, by rintro _ ⟨⟩⟩
  | fail e => exact ⟨List.nodup_nil, by rintro _ ⟨⟩⟩
  | op o k ih =>
    have he : ImportExec False s o (s.answer o).1 (s.answer o).2 := .answer s o
    obtain ⟨hnodup, habsent⟩ := ih (s.answer o).1 (h.2 _ _ he)
    have hkept := exec_kept h.1 he
    have hbefore : ∀ path, (s.answer o).2.objects path = none → s.objects path = none := by
      intro path hnone
      by_contra hne
      obtain ⟨data, hdata⟩ := Option.ne_none_iff_exists'.mp hne
      rw [hkept path data hdata] at hnone
      cases hnone
    rw [Concurrent.Sys.opsAlone]
    cases hwritten : o.written with
    | none =>
      rw [List.filterMap_cons_none hwritten]
      exact ⟨hnodup, fun path hpath => hbefore path (habsent path hpath)⟩
    | some path =>
      rw [List.filterMap_cons_some hwritten, List.nodup_cons]
      have hwrite : ∃ data, o = .writeObject path data := by
        cases o with
        | writeObject path' data =>
          obtain rfl := Option.some.inj hwritten
          exact ⟨data, rfl⟩
        | _ => cases hwritten
      obtain ⟨data, rfl⟩ := hwrite
      refine ⟨⟨fun hmem => ?_, hnodup⟩, fun path' hpath' => ?_⟩
      · have hnone := habsent path hmem
        rw [ImportState.answer, ImportState.put_self] at hnone
        cases hnone
      · rcases List.mem_cons.mp hpath' with rfl | hpath'
        · exact h.1 _ _ rfl
        · exact hbefore path' (habsent path' hpath')

theorem reaches_kept {α : Type} {J : ImportOp H → ImportState H → Prop}
    (hJ : ∀ o s, J o s → Absent o s)
    {Q : Except (Fault Error) α → ImportState H → Prop} {p p' : Importer H α} {s s' : ImportState H}
    (h : p.Along (ImportExec mayFail) J Q s) (hr : Prog.Reaches (ImportExec mayFail) p s p' s') :
    s.Kept s' := by
  induction hr with
  | refl p s => exact fun _ _ h => h
  | op he _ ih => exact (exec_kept (hJ _ _ h.1) he).trans (ih (h.2 _ _ he))

/-! ### Uploads -/

/-- Where the upload of an object is. Before it starts, what is stored under its name is as `P`
says. -/
def Upload (objects : List (Path × Bytes)) (resume : Bool) (mayFail : Prop)
    (P : Path × Bytes → Option Bytes → Prop)
    (object : Path × Bytes) (p : Importer H Bool) (s : ImportState H) : Prop :=
  object ∈ objects ∧ (
    (p = writeImportObject object.1 object.2 resume ∧ P object (s.objects object.1)) ∨
    (p = (perform (.writeObject object.1 object.2)).bind (fun _ => .pure true) ∧
      s.objects object.1 = none) ∨
    (∃ b : Bool, p = .pure b ∧ s.objects object.1 = some object.2 ∧ (b = true ∨ resume = true)) ∨
    ∃ e, p = .fail e ∧
      (mayFail ∨ ∃ existing, P object (some existing) ∧ ¬ (resume = true ∧ existing = object.2)))

/-- An upload after its read. -/
def afterRead (path : Path) (data : Bytes) (resume : Bool) : Option Bytes → Importer H Bool
  | some existing => if resume ∧ existing = data then .pure false else .fail (refused path)
  | none => (perform (.writeObject path data)).bind fun _ => .pure true

theorem writeImportObject_eq (path : Path) (data : Bytes) (resume : Bool) :
    (writeImportObject path data resume : Importer H Bool) =
    .op (.readObject path) fun r => (Prog.ofExcept r).bind (afterRead path data resume) := by
  rw [writeImportObject, Prog.bind_eq, perform, Prog.call, Prog.op_bind, Prog.op_bind]
  congr 1
  funext r
  cases r with
  | error e => rfl
  | ok existing =>
    cases existing with
    | none => rfl
    | some existing => rfl

section

variable {objects : List (Path × Bytes)} {resume : Bool} {P : Path × Bytes → Option Bytes → Prop}
  {object : Path × Bytes} {s s' : ImportState H}

theorem upload_read (resume : Bool) (hmem : object ∈ objects) (hP : P object (s.objects object.1))
    {r : Except (Fault Error) (Option Bytes)}
    (h : ImportExec mayFail s (.readObject object.1) r s') :
    s' = s ∧ Upload objects resume mayFail P object
      ((Prog.ofExcept r).bind (afterRead object.1 object.2 resume)) s := by
  obtain ⟨rfl, rfl | ⟨hf, e, rfl⟩⟩ := exec_read h
  · refine ⟨rfl, hmem, ?_⟩
    cases hobj : s'.objects object.1 with
    | none => exact .inr (.inl ⟨rfl, rfl⟩)
    | some existing =>
      rw [Prog.ofExcept_ok, Prog.pure_bind, afterRead]
      by_cases heq : resume = true ∧ existing = object.2
      · rw [if_pos heq]
        exact .inr (.inr (.inl ⟨false, rfl, by rw [heq.2], .inr heq.1⟩))
      · rw [if_neg heq]
        exact .inr (.inr (.inr ⟨_, rfl, .inr ⟨existing, hobj ▸ hP, heq⟩⟩))
  · exact ⟨rfl, hmem, .inr (.inr (.inr ⟨e, rfl, .inl hf⟩))⟩

theorem upload_write (hmem : object ∈ objects) {r : Except (Fault Error) Unit}
    (h : ImportExec mayFail s (.writeObject object.1 object.2) r s') :
    Upload objects resume mayFail P object ((Prog.ofExcept r).bind fun _ => .pure true) s' := by
  obtain ⟨-, ⟨rfl, rfl⟩ | ⟨hf, e, rfl⟩⟩ := exec_write h
  · exact ⟨hmem, .inr (.inr (.inl ⟨true, rfl, s.put_self _ _, .inl rfl⟩))⟩
  · exact ⟨hmem, .inr (.inr (.inr ⟨e, rfl, .inl hf⟩))⟩

/-- An upload looks at its own object only. -/
theorem Upload.congr {p : Importer H Bool} (h : Upload objects resume mayFail P object p s)
    (hs : s'.objects object.1 = s.objects object.1) :
    Upload objects resume mayFail P object p s' := by
  unfold Upload at *
  rwa [hs]

/-- Uploads of objects of different names do not disturb each other. -/
theorem upload_apart (hnodup : (objects.map Prod.fst).Nodup) {Inv : ImportState H → Prop}
    (hput : ∀ object ∈ objects, ∀ s, Inv s → s.objects object.1 = none →
      Inv (s.put object.1 object.2)) :
    Apart (ImportExec mayFail) (fun o s => Absent o s ∧ Inv s) Inv
      (Upload objects resume mayFail P) := by
  have hnames : ∀ a ∈ objects, ∀ b ∈ objects, a.1 = b.1 → a = b :=
    fun a ha b hb => List.inj_on_of_nodup_map hnodup ha hb
  -- the next operation is a read, or a write of what is not there
  have hnext :
      ∀ (t : Path × Bytes) (o : ImportOp H) k s, Upload objects resume mayFail P t (.op o k) s →
      (∃ h : o = .readObject t.1, P t (s.objects t.1) ∧
        h ▸ k = fun r => (Prog.ofExcept r).bind (afterRead t.1 t.2 resume)) ∨
      ∃ h : o = .writeObject t.1 t.2, s.objects t.1 = none ∧
        h ▸ k = fun r => (Prog.ofExcept r).bind fun _ => .pure true := by
    rintro t o k s ⟨-, ⟨hp, hP⟩ | ⟨hp, hnone⟩ | ⟨b, hp, -⟩ | ⟨e, hp, -⟩⟩
    · rw [writeImportObject_eq] at hp
      cases hp
      exact .inl ⟨rfl, hP, rfl⟩
    · cases hp
      exact .inr ⟨rfl, hnone, rfl⟩
    · cases hp
    · cases hp
  refine ⟨fun t o k s hi h => ⟨?_, hi⟩, fun t o k s hi h r s' he => ?_⟩
  · rcases hnext t o k s h with ⟨rfl, -, -⟩ | ⟨rfl, hnone, -⟩
    · rintro path data ⟨⟩
    · rintro path data ⟨⟩
      exact hnone
  · rcases hnext t o k s h with ⟨rfl, hP, rfl⟩ | ⟨rfl, hnone, rfl⟩
    · obtain ⟨rfl, hk⟩ := upload_read resume h.1 hP he
      exact ⟨hi, hk, fun _ _ _ h => h⟩
    · refine ⟨?_, upload_write h.1 he, fun t' ht p hp => hp.congr ?_⟩
      · rcases (exec_write he).1 with rfl | rfl
        · exact hput t h.1 s hi hnone
        · exact hi
      · rcases (exec_write he).1 with rfl | rfl
        · exact s.put_ne _ fun heq => ht (hnames t' hp.1 t h.1 heq)
        · rfl

end

/-! ### Names of the objects of a chunk -/

theorem map_fst_bundleObjects {size newSize : ℕ} {groups : List (ℕ × List Bytes)} :
    ∀ {bundles : List (Path × Bytes)},
    bundleObjects size newSize groups = .ok bundles → bundles.map Prod.fst = groups.map fun group =>
      entriesPath (size / 256 + group.1) (partialTileSize 0 (size / 256 + group.1) newSize) := by
  induction groups with
  | nil =>
    rintro _ ⟨⟩
    rfl
  | cons group groups ih =>
    intro bundles h
    simp only [bundleObjects] at h
    cases hbytes : EntryBundle.toBytes ⟨group.2⟩ with
    | error e => simp [hbytes, bind, Except.bind] at h
    | ok bytes =>
      cases hrest : bundleObjects size newSize groups with
      | error e => simp [hbytes, hrest, bind, Except.bind] at h
      | ok rest =>
        simp only [hbytes, hrest, bind, Except.bind, Except.ok.injEq] at h
        subst h
        rw [List.map_cons, List.map_cons, ih hrest]

theorem nodup_bundleObjects {size newSize : ℕ} {chunk : List Bytes} {bundles : List (Path × Bytes)}
    (h : bundleObjects size newSize (chunks256 chunk) = .ok bundles) :
    (bundles.map Prod.fst).Nodup := by
  rw [map_fst_bundleObjects h, chunks256, List.map_map]
  apply List.Nodup.map _ List.nodup_range
  intro i j hij
  have := (Api.entriesPath_injective hij).1
  dsimp only at this
  omega

variable [Sha256Hash H]

theorem nodup_tileObjects (newSize : ℕ) (order : MapOrder H)
    (tiles : AList fun _ : TileKey => HashTile H) :
    ((tileObjects newSize (order.tiles.order tiles.entries)).map Prod.fst).Nodup := by
  rw [tileObjects, List.map_map]
  have hkeys : ((order.tiles.order tiles.entries).map Sigma.fst).Nodup :=
    ((order.tiles.perm tiles.entries).map Sigma.fst).nodup_iff.mpr tiles.nodupKeys
  rw [List.Nodup, List.pairwise_map] at hkeys ⊢
  apply hkeys.imp
  rintro ⟨⟨level, index⟩, tile⟩ ⟨⟨level', index'⟩, tile'⟩ hne heq
  obtain ⟨rfl, rfl, -⟩ := Api.tilePath_injective heq
  exact hne rfl

theorem nodup_objects {size newSize : ℕ} (order : MapOrder H)
    (tiles : AList fun _ : TileKey => HashTile H)
    {chunk : List Bytes} {bundles : List (Path × Bytes)}
    (h : bundleObjects size newSize (chunks256 chunk) = .ok bundles) :
    ((tileObjects newSize (order.tiles.order tiles.entries) ++ bundles).map Prod.fst).Nodup := by
  rw [List.map_append, List.nodup_append]
  refine ⟨nodup_tileObjects newSize order tiles, nodup_bundleObjects h,
    fun path hpath path' hpath' heq => ?_⟩
  rw [tileObjects, List.map_map, List.mem_map] at hpath
  rw [map_fst_bundleObjects h, List.mem_map] at hpath'
  obtain ⟨e, -, rfl⟩ := hpath
  obtain ⟨group, -, rfl⟩ := hpath'
  exact Api.tilePath_ne_entriesPath _ _ _ _ _ heq

/-! ### Any import -/

/-- Neither a write nor the commit. -/
def Quiet : ImportOp H → Prop
  | .writeObject _ _ => False
  | .finishImport _ _ => False
  | _ => True

omit [Sha256Hash H] in
theorem quiet_keeps {s s' : ImportState H} {o : ImportOp H} {r : o.Answer H} (ho : Quiet o)
    (h : ImportExec mayFail s o r s') : s'.objects = s.objects ∧
    s'.db.logState = s.db.logState := by
  cases h with
  | answer =>
    cases o with
    | readObject path => exact ⟨rfl, rfl⟩
    | writeObject path data => exact ho.elim
    | ensureMode mode => exact ⟨rfl, rfl⟩
    | beginImport => exact ⟨rfl, rfl⟩
    | syncImport => exact ⟨rfl, rfl⟩
    | finishImport size root => exact ho.elim
  | fault => exact ⟨rfl, rfl⟩
  | writeLost => exact ho.elim
  | modeLost => exact ⟨rfl, rfl⟩

/-- The program replaces no object and leaves the log state as it is. -/
def Harmless {α : Type} (mayFail : Prop) (row : Storage.LogStateRow H) (p : Importer H α) : Prop :=
  ∀ s : ImportState H, s.db.logState = row → p.Along (ImportExec mayFail)
    (fun o s => Absent o s ∧ s.db.logState = row) (fun _ s => s.db.logState = row) s

section

variable {row : Storage.LogStateRow H} {α β : Type}

omit [Sha256Hash H] in
theorem harmless_of_calls {p : Importer H α} (h : p.Calls Quiet) : Harmless mayFail row p := by
  intro s hs
  refine along_of_calls (C := Quiet) (fun o s ho hs => ⟨?_, hs⟩) (fun o ho s hs r s' he => ?_) h hs
  · exact (quiet_keeps ho he).2.trans hs
  · rintro path data rfl
    exact ho.elim

omit [Sha256Hash H] in
theorem harmless_bind {p : Importer H α} {f : α → Importer H β} (hp : Harmless mayFail row p)
    (hf : ∀ a, Harmless mayFail row (f a)) : Harmless mayFail row (p.bind f) :=
  fun s hs => along_bind (hp s hs) (fun a s' hs' => hf a s' hs') fun _ _ h => h

omit [Sha256Hash H] in
/-- The rest of a program need only be looked at for the values its first part can end in. -/
theorem harmless_ofExcept {x : Except (Fault Error) α} {f : α → Importer H β}
    (hf : ∀ a, x = .ok a → Harmless mayFail row (f a)) :
    Harmless mayFail row ((Prog.ofExcept x).bind f) := by
  cases x with
  | ok a => exact hf a rfl
  | error e => exact fun s hs => hs

omit [Sha256Hash H] in
theorem perform_quiet {o : ImportOp H} (h : Quiet o) : (perform o).Calls Quiet :=
  ⟨h, fun _ => Prog.calls_ofExcept⟩

omit [Sha256Hash H] in
theorem harmless_pure (a : α) : Harmless (H := H) mayFail row (.pure a) := fun _ hs => hs

omit [Sha256Hash H] in
theorem harmless_fail (e : Fault Error) : Harmless (H := H) (α := α) mayFail row (.fail e) :=
  fun _ hs => hs

omit [Sha256Hash H] in
theorem canStart_quiet (resume : Bool) : (canStart (H := H) resume).Calls Quiet := by
  rw [canStart]
  split_ifs
  · exact Prog.calls_seq (perform_quiet trivial) fun _ => trivial
  · trivial

theorem reader_quiet (o : ReadTile) : (reader (H := H) o).Calls Quiet := by
  refine Prog.calls_translate (fun o => ?_) _
  cases o with
  | readObject path => exact ⟨trivial, fun _ => trivial⟩
  | _ => trivial

omit [Sha256Hash H] in
theorem uploads_harmless {objects : List (Path × Bytes)} (hnodup : (objects.map Prod.fst).Nodup)
    (schedule : Schedule)
    {limit : ℕ} (hlimit : 0 < limit) (resume : Bool) : Harmless (H := H) mayFail row
      (Prog.bufferUnordered schedule (fun object => writeImportObject object.1 object.2 resume)
        limit objects) := by
  intro s hs
  have hapart : Apart (ImportExec mayFail) (fun o s => Absent o s ∧ s.db.logState = row)
      (fun s : ImportState H => s.db.logState = row)
      (Upload objects resume mayFail fun _ _ => True) :=
    upload_apart hnodup fun _ _ _ h _ => h
  refine along_weaken ?_
    (Prog.along_bufferUnordered hapart schedule _ hlimit hnodup.of_map hs fun object hmem => ?_)
  · intro x s' h
    cases x with
    | ok wrote => exact h.1
    | error e => exact h.1
  · exact ⟨hmem, .inl ⟨rfl, trivial⟩⟩

omit [Sha256Hash H] in
/-- A single upload is one of a list. -/
theorem writeImportObject_harmless (path : Path) (data : Bytes) (resume : Bool) :
    Harmless (H := H) mayFail row (writeImportObject path data resume) := by
  rw [writeImportObject_eq]
  intro s hs
  refine ⟨⟨by rintro _ _ ⟨⟩, hs⟩, fun r s' he => ?_⟩
  obtain ⟨rfl, rfl | ⟨-, e, rfl⟩⟩ := exec_read he
  · change Along _ _ _ (afterRead path data resume (s'.objects path)) s'
    cases hobj : s'.objects path with
    | none =>
      refine ⟨⟨?_, hs⟩, fun r s'' he' => ?_⟩
      · rintro _ _ ⟨⟩
        exact hobj
      · refine along_bind (P := fun _ (s : ImportState H) => s.db.logState = row)
          (along_ofExcept ?_) (fun _ _ h => h) fun _ _ h => h
        rcases (exec_write he').1 with rfl | rfl
        · exact hs
        · exact hs
    | some existing =>
      rw [afterRead]
      split_ifs
      · exact hs
      · exact hs
  · exact hs

theorem importChunk_harmless (order : MapOrder H) (schedule : Schedule) (input : InputSummary)
    {config : ImportConfig} (hconfig : config.valid) (chunk : List Bytes) (p : Progress H) :
    Harmless mayFail row (importChunk order schedule input config chunk p) := by
  have hlimit : 0 < config.uploadConcurrency := by
    unfold ImportConfig.valid at hconfig
    omega
  refine harmless_ofExcept fun left _ => ?_
  split_ifs
  · exact harmless_fail _
  refine harmless_ofExcept fun hashed _ => ?_
  refine harmless_bind (harmless_of_calls (Prog.calls_translate reader_quiet _)) fun result => ?_
  refine harmless_ofExcept fun bundles hbundles => ?_
  exact harmless_bind (uploads_harmless (nodup_objects order _ hbundles) schedule hlimit _)
    fun wrote => harmless_pure _

theorem importChunks_harmless (orders : ℕ → MapOrder H × Schedule) (input : InputSummary)
    {config : ImportConfig}
    (hconfig : config.valid) (entries : List (Except Error Bytes)) (p : Progress H) :
    Harmless mayFail row (importChunks orders input config entries p) := by
  induction hlen : entries.length using Nat.strong_induction_on generalizing entries p with
  | h n ih =>
    subst hlen
    cases hchunk : collectChunk config.chunkSize entries with
    | error e =>
      rw [importChunks_error hchunk]
      exact harmless_fail _
    | ok r =>
      obtain ⟨chunk, rest⟩ := r
      by_cases hnil : chunk = []
      · subst hnil
        rw [importChunks_nil hchunk]
        exact harmless_pure _
      · rw [importChunks_cons hnil hchunk]
        have hlen := length_collectChunk hchunk
        have hpos := List.length_pos_iff.mpr hnil
        exact harmless_bind (importChunk_harmless _ _ input hconfig chunk p) fun p' =>
          ih _ (by omega) rest p' rfl

/-- The program replaces no object, and leaves the log state as it is unless it succeeds. -/
def Commits (mayFail : Prop) (row : Storage.LogStateRow H) (p : Importer H α) : Prop :=
  ∀ s : ImportState H, s.db.logState = row → p.Along (ImportExec mayFail)
    (fun o s => Absent o s ∧ s.db.logState = row)
      (fun x s => ∀ e, x = .error e → s.db.logState = row) s

omit [Sha256Hash H] in
theorem commits_bind {p : Importer H α} {f : α → Importer H β} (hp : Harmless mayFail row p)
    (hf : ∀ a, Commits mayFail row (f a)) : Commits mayFail row (p.bind f) :=
  fun s hs => along_bind (hp s hs) (fun a s' hs' => hf a s' hs') fun _ _ h _ _ => h

omit [Sha256Hash H] in
theorem commits_fail (e : Fault Error) : Commits (H := H) (α := α) mayFail row (.fail e) :=
  fun _ hs _ _ => hs

omit [Sha256Hash H] in
theorem commitImport_commits [Sha256] (input : InputSummary) (p : Progress H) :
    Commits mayFail row (commitImport input p) := by
  rw [commitImport]
  split_ifs
  · exact commits_fail _
  cases p.root with
  | none => exact commits_fail _
  | some root =>
    refine commits_bind (harmless_of_calls (perform_quiet (o := .syncImport) trivial)) fun _ s hs =>
      ?_
    refine ⟨⟨by rintro _ _ ⟨⟩, hs⟩, fun r s' he => ?_⟩
    rcases exec_finish he with ⟨_, -, rfl, rfl⟩ | ⟨e, rfl, rfl, -⟩
    · rintro _ ⟨⟩
    · exact fun _ _ => hs

/-- An import replaces no object, and leaves the log state as it is unless it succeeds. -/
theorem bulkImport_commits [Sha256] [ManifestJson] (orders : ℕ → MapOrder H × Schedule)
    (input : InputSummary) (config : ImportConfig) (entries : List (Except Error Bytes)) :
    Commits mayFail row (bulkImport orders input config entries) := by
  rw [bulkImport]
  by_cases hconfig : config.valid
  · rw [if_neg (not_not.mpr hconfig)]
    split_ifs
    · exact commits_fail _
    refine commits_bind (harmless_of_calls (perform_quiet (o := .ensureMode .tessera) trivial))
      fun _ => ?_
    refine commits_bind (harmless_of_calls (perform_quiet (o := .beginImport) trivial)) fun _ => ?_
    refine commits_bind (harmless_of_calls
      (perform_quiet (o := .readObject Api.checkpointPath) trivial)) fun published => ?_
    split_ifs
    · exact commits_fail _
    refine commits_bind (harmless_of_calls Prog.calls_ofExcept) fun manifest => ?_
    refine commits_bind (harmless_of_calls (canStart_quiet _)) fun start => ?_
    split_ifs
    · refine commits_bind (writeImportObject_harmless _ _ _) fun _ => ?_
      exact commits_bind (importChunks_harmless orders input hconfig entries _)
        (commitImport_commits input)
    · exact commits_fail _
  · rw [if_pos hconfig]
    exact commits_fail _

end

end Siglog.Import

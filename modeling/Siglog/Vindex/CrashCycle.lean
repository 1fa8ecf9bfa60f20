import Siglog.Sequencer.Runs
import Siglog.Vindex.CrashInvariant

/-! A cycle keeps what can be restored, at every operation on the database, the store and
the files of the index. Behind the loop over the batch the index is not behind the end of
the batch, and when the database is marked the WAL has been synced up to there. -/

namespace Siglog.Vindex

open Concurrent (DurableFile Prog)
open Merkle (MapOrder)
open Storage (Op PendingEntry Server perform toPending TileStorage.reader)
open Worker (checkContiguous_toPending integrateBatch_eq storeBatch toPending_eq_nil)

variable {H : Type} [Sha256Hash H] [Crc32] [Sha256] {α β : Type}

section

variable (c : Setup) (entries : ℕ → Bytes)

/-- One operation, where no snapshot has been taken with too many indices of a key. -/
def SmallExec (s : IndexedLog H) (o : IndexOp H) (r : o.Answer H) (s' : IndexedLog H) : Prop :=
  IndexExec c s o r s' ∧ Small entries s'

omit [Crc32] [Sha256] in
/-- What holds at the end of a program that has not failed. -/
def Ends (P : α → IndexedLog H → Prop) : Except (Fault Error) α → IndexedLog H → Prop
  | .ok a, s => P a s
  | .error _, _ => True

/-- The program keeps what can be restored and ends as asserted. -/
def Keeps (p : IndexServer H α) (P : α → IndexedLog H → Prop) (s : IndexedLog H) : Prop :=
  p.Safe (SmallExec c entries) (Recoverable c entries) Rely
    (fun s s' => ∀ j : Unit, j ≠ () → Rely s s') (Ends P) s

/-- The same of a program of the cycle. -/
def Runs (p : Server H α) (P : α → IndexedLog H → Prop) (s : IndexedLog H) : Prop :=
  Keeps c entries (p.translate onFiles) P s

end

variable {c : Setup} {entries : ℕ → Bytes} {s s' : IndexedLog H}

section Rules

variable {P : α → IndexedLog H → Prop}

theorem keeps_bind {p : IndexServer H α} {f : α → IndexServer H β} {Q : β → IndexedLog H → Prop}
    (hp : Keeps c entries p P s)
    (hf : ∀ a s, P a s → Keeps c entries (f a) Q s) : Keeps c entries (p.bind f) Q s := by
  refine Prog.safe_bind.mpr (Prog.safe_weaken ?_ hp)
  intro x s hx
  cases x with
  | ok a => exact hf a s hx
  | error e => exact hx

theorem keeps_call {o : IndexOp H} {P : o.Answer H → IndexedLog H → Prop}
    (h : ∀ s₁, Rely s s₁ → Recoverable c entries s₁ → ∀ r s₂, IndexExec c s₁ o r s₂ →
      Small entries s₂ →
      Recoverable c entries s₂ ∧ P r s₂) : Keeps c entries (Prog.call o) P s := by
  intro s₁ hrely hi r s₂ he
  obtain ⟨hi₂, hr⟩ := h s₁ hrely hi r s₂ he.1 he.2
  exact ⟨hi₂, fun j hj => absurd rfl hj, hr⟩

theorem runs_bind {p : Server H α} {f : α → Server H β} {Q : β → IndexedLog H → Prop}
    (hp : Runs c entries p P s)
    (hf : ∀ a s, P a s → Runs c entries (f a) Q s) : Runs c entries (p.bind f) Q s := by
  rw [Runs, Prog.translate_bind]
  exact keeps_bind hp hf

theorem runs_ofExcept {x : Except (Fault Error) α} (h : ∀ a, x = .ok a → P a s) :
    Runs c entries (Prog.ofExcept x) P s := by
  cases x with
  | ok a => exact h a rfl
  | error e => trivial

theorem runs_perform {o : Op H} {P : Op.Result H o → IndexedLog H → Prop}
    (h : Keeps c entries (onFiles o) (fun r s => ∀ a, r = .ok a → P a s) s) :
    Runs c entries (perform o) P s := by
  have hcall : (Prog.call o : Server H (o.Answer H)).translate onFiles = onFiles o :=
    Prog.bind_pure (onFiles o)
  refine runs_bind (P := fun r s => ∀ a, r = .ok a → P a s) ?_ fun r s hr => runs_ofExcept hr
  rw [Runs, hcall]
  exact h

end Rules

/-! ### Objects -/

/-- The operations on the store. -/
def Object : Op H → Prop
  | .readObject _ => True
  | .writeObject _ _ => True
  | _ => False

/-- The log with the same database and the same entries. -/
theorem Recoverable.object (h : Recoverable c entries s) {log : Worker.LogSystem H}
    (hdb : log.db = s.log.db) (hlog : log.log = s.log.log) : Recoverable c entries (s.withLog log) ∧
    Rely s (s.withLog log) := by
  have hsize : log.size = s.log.size :=
    congrArg (fun db : Storage.Database H => Storage.asU64 db.logState.integratedSize) hdb
  have hgrow : s.log.log <+: log.log := hlog ▸ List.prefix_rfl
  refine ⟨h.withLog ⟨?_, h.small.snapshots⟩ ⟨?_, ?_⟩ hsize hgrow, ⟨rfl, rfl, hsize, hgrow⟩⟩
  · change ∀ i entry, log.log[i]? = some entry → _
    rw [hlog]
    exact h.small.log
  · rw [hdb, hsize, hlog]
    exact h.log.db
  · rw [hsize, hlog]
    exact h.log.size_le

/-- Reads and writes of objects keep what holds among submissions. -/
theorem objects_run {p : Server H α} (hp : p.Calls Object) {V : α → Prop}
    (hV : p.Returns (fun _ _ => True) fun x => ∀ a, x = .ok a → V a) {J : IndexedLog H → Prop}
    (hJ : ∀ s s', J s → Rely s s' → J s') (hs : J s) :
    Runs c entries p (fun a s => J s ∧ V a) s := by
  have hcalls : (p.translate onFiles).Calls fun o => ∃ o', o = IndexOp.log o' ∧ Object o' := by
    refine Prog.calls_translate_of (fun o ho => ?_) hp
    cases o with
    | readObject path => exact ⟨⟨_, rfl, ho⟩, fun _ => trivial⟩
    | writeObject path data => exact ⟨⟨_, rfl, ho⟩, fun _ => trivial⟩
    | _ => exact ho.elim
  refine Prog.safe_weaken ?_
    (Prog.safe_and_returns (Prog.safe_of_calls hJ ?_ hcalls hs) (Prog.returns_translate_any hV))
  · rintro x s ⟨hs, hx⟩
    cases x with
    | ok a => exact ⟨hs, hx a rfl⟩
    | error e => trivial
  · rintro _ ⟨o, rfl, ho⟩ s hs hi r s' ⟨hexec, -⟩
    have hunmarked : Unmarked o := by
      rintro _ _ _ rfl
      exact ho
    cases hexec with
    | log hrunning h =>
      obtain ⟨hdb, hlog⟩ := exec_unmarked hunmarked h
      obtain ⟨hi', hrely⟩ := hi.object hdb hlog
      exact ⟨hi', fun j hj => absurd rfl hj, hJ s _ hs hrely⟩

/-! ### The index -/

variable (c) in
omit [Crc32] [Sha256] in
/-- The cycle is at work on the entries `E` behind the first `n`. -/
structure Batch (n : ℕ) (E : List (Entry H)) (s : IndexedLog H) : Prop where
  size : s.log.size = n
  entries : E <+: s.log.log.drop n
  limit : E.length ≤ c.integrationBatchSize
  ahead : ∀ index, s.running = some index → index.treeSize ≤ n + E.length

omit [Crc32] [Sha256] in
/-- The first `n` entries have been indexed. -/
def IndexedTo (n : ℕ) (s : IndexedLog H) : Prop :=
  ∀ index, s.running = some index → n ≤ index.treeSize

variable {n : ℕ} {E : List (Entry H)}

omit [Crc32] [Sha256] in
theorem Batch.rely (h : Batch c n E s) (hs : Rely s s') : Batch c n E s' := by
  refine ⟨hs.size.trans h.size, h.entries.trans (hs.log.drop n), h.limit, ?_⟩
  rw [hs.running]
  exact h.ahead

omit [Crc32] [Sha256] in
theorem IndexedTo.rely (h : IndexedTo n s) (hs : Rely s s') : IndexedTo n s' := by
  rw [IndexedTo, hs.running]
  exact h

omit [Crc32] [Sha256] in
theorem Synced.rely (h : Synced s) (hs : Rely s s') : Synced s' := by
  rw [Synced, hs.files]
  exact h

omit [Crc32] [Sha256] in
theorem Batch.le_length (h : Batch c n E s) (hsize : s.log.size ≤ s.log.log.length) :
    n + E.length ≤ s.log.log.length := by
  have hle := h.entries.length_le
  rw [List.length_drop] at hle
  have := h.size
  omega

/-- Nothing has been written. -/
theorem Recoverable.unchanged (h : Recoverable c entries s) {index : VerifiableIndex}
    (hrunning : s.running = some index) :
    Recoverable c entries { s.withWalFile (s.files.wal.write []) with running := some index } := by
  have hcontents : (s.files.wal.write []).contents = s.files.wal.contents := by
    rw [DurableFile.contents_write, List.append_nil]
  refine ⟨⟨h.small.log, h.small.snapshots⟩, h.log, h.fits, fun named hnamed wal hwal => ?_, ?_, by
      rintro ⟨⟩⟩
  · refine h.left named hnamed wal ?_
    rcases DurableFile.survives_write.mp hwal with hwal | ⟨k, rfl⟩
    · exact hwal
    · rw [List.take_nil, List.append_nil]
      exact s.files.wal.survives_contents
  · rintro _ ⟨⟩
    obtain ⟨hindexed, hfits, hle, hlength, hbatch, hlogs⟩ := h.running index hrunning
    refine ⟨hindexed, hfits, hle, hlength, hbatch, fun named hnamed => ?_⟩
    obtain ⟨b, hb, hcovers, hwal⟩ := hlogs named hnamed
    exact ⟨b, hb, hcovers, hcontents.symm ▸ hwal⟩

/-- A call to index the entry at `m`, which is in the batch. -/
theorem indexEntry_runs {m : ℕ} (h : Batch c n E s) (hto : IndexedTo m s) (hm : m < n + E.length) :
    Runs c entries (perform (.indexEntry m (entries m)))
      (fun _ s => Batch c n E s ∧ IndexedTo (m + 1) s) s := by
  apply runs_perform
  apply keeps_call
  intro s₁ hrely hi r s₂ he hsmall
  have h₁ := h.rely hrely
  have hto₁ := hto.rely hrely
  cases he with
  | @indexEntry index index' hrunning _ _ result wal hcall =>
    have hindex := hi.running index hrunning
    have hle : m ≤ index.treeSize := hto₁ index hrunning
    by_cases hnext : m = index.treeSize ∧ Fits c entries index.treeSize index
    · obtain ⟨rfl, hfits⟩ := hnext
      have hlength := h₁.le_length hi.log.size_le
      obtain ⟨next, e, he, hrun, hindexed, -⟩ :=
        hindex.indexed.next (hi.log.fits hindex.le_length) hfits s₁.files.wal
      rw [hrun] at hcall
      obtain ⟨rfl, rfl, rfl⟩ := hcall
      have hlimit := h₁.limit
      have hsize := h₁.size
      refine ⟨hi.next hrunning (by omega) (by omega) hfits he hindexed,
        fun _ _ => ⟨⟨h₁.size, h₁.entries, h₁.limit, ?_⟩, ?_⟩⟩
      · rintro _ ⟨⟩
        rw [hindexed.treeSize]
        exact hm
      · rintro _ ⟨⟩
        exact hindexed.treeSize.ge
    · have hother : m = index.treeSize → ¬ Fits c entries index.treeSize index :=
        fun heq hfits => hnext ⟨heq, hfits⟩
      obtain ⟨result', hrun, hok⟩ := hindex.indexed.kept hother s₁.files.wal
      rw [hrun] at hcall
      obtain ⟨rfl, rfl, rfl⟩ := hcall
      refine ⟨hi.unchanged hrunning, fun _ hr => ⟨⟨h₁.size, h₁.entries, h₁.limit, ?_⟩, ?_⟩⟩
      · rintro _ ⟨⟩
        exact h₁.ahead index hrunning
      · rintro _ ⟨⟩
        exact hok hr

/-- The loop over the batch. -/
theorem indexEntries_runs {m : ℕ} {E' : List (Entry H)} (h : Batch c n E s) (hto : IndexedTo m s)
    (hm : m + E'.length = n + E.length)
    (hdata : ∀ i entry, E'[i]? = some entry → entries (m + i) = entry.data) :
    Runs c entries (Worker.indexEntries (toPending m E'))
      (fun _ s => Batch c n E s ∧ IndexedTo (n + E.length) s) s := by
  induction E' generalizing m s with
  | nil => exact ⟨h, hm ▸ hto⟩
  | cons entry E' ih =>
    rw [List.length_cons] at hm
    have hfirst : entries m = entry.data := hdata 0 entry rfl
    refine runs_bind (P := fun _ s => Batch c n E s ∧ IndexedTo (m + 1) s) ?_ fun _ s₁ h₁ => ?_
    · have hlow : m < n + E.length := by omega
      rw [← hfirst]
      exact indexEntry_runs h hto hlow
    · refine ih h₁.1 h₁.2 (by omega) fun i next hi => ?_
      rw [Nat.add_assoc, Nat.add_comm 1 i]
      exact hdata (i + 1) next hi

theorem syncWal_keeps {J : IndexedLog H → Prop} (hJ : ∀ s s', J s → Rely s s' → J s')
    (hfile : ∀ s wal, J s → J (s.withWalFile wal)) (hs : J s) :
    Keeps c entries (Prog.call IndexOp.syncWal) (fun _ s => J s ∧ Synced s) s := by
  apply keeps_call
  intro s₁ hrely hi r s₂ he hsmall
  cases he with
  | syncWal hrunning =>
    exact ⟨hi.sync hrunning, hfile s₁ _ (hJ s s₁ hs hrely),
      fun wal hwal => DurableFile.survives_ofSynced.mp hwal⟩

/-- What has been indexed of the batch is synced. -/
theorem flushIndex_runs (h : Batch c n E s) (hto : IndexedTo (n + E.length) s) :
    Runs c entries (perform .flushIndex)
      (fun _ s => (Batch c n E s ∧ IndexedTo (n + E.length) s) ∧ Synced s) s := by
  apply runs_perform
  refine keeps_bind (syncWal_keeps (J := fun s => Batch c n E s ∧ IndexedTo (n + E.length) s) ?_ ?_
    ⟨h, hto⟩) fun _ _ hs _ _ => hs
  · exact fun _ _ hs hrely => ⟨hs.1.rely hrely, hs.2.rely hrely⟩
  · exact fun _ _ hs => ⟨⟨hs.1.size, hs.1.entries, hs.1.limit, hs.1.ahead⟩, hs.2⟩

/-- The mark, when the WAL has been synced up to the end of the batch. -/
theorem mark_runs (h : Batch c n E s) (hto : IndexedTo (n + E.length) s) (hsynced : Synced s)
    (root : H) :
    Runs c entries (perform (.markIntegratedIfCurrent n (n + E.length) root))
      (fun marked s => marked = true → UpToDate s) s := by
  apply runs_perform
  apply keeps_call
  intro s₁ hrely hi r s₂ he hsmall
  have h₁ := h.rely hrely
  have hlength := h₁.le_length hi.log.size_le
  obtain rfl := h₁.size
  cases he with
  | @log index hrunning _ _ log he =>
    have hend := (hto.rely hrely) index hrunning
    rcases hi.log.mark hlength he with ⟨hgood, hsize, hsame⟩ | ⟨rfl, hr⟩
    · refine ⟨hi.mark hrunning (hsynced.rely hrely) hgood (by omega) (by omega) hsame,
        fun _ _ _ index' hrunning' => ?_⟩
      change _ = log.size
      rw [hsize]
      exact le_antisymm (h₁.ahead index' hrunning') ((hto.rely hrely) index' hrunning')
    · exact ⟨hi, fun _ hok hmarked => absurd (hmarked ▸ hok) hr⟩

/-! ### The snapshot -/

omit [Crc32] [Sha256] in
theorem UpToDate.rely (h : UpToDate s) (hs : Rely s s') : UpToDate s' := by
  rw [UpToDate, hs.running, hs.size]
  exact h

/-- The snapshot is that of the integrated entries. -/
theorem renameSnapshot_keeps (h : UpToDate s) (hsynced : Synced s) :
    Keeps c entries (Prog.call IndexOp.renameSnapshot)
    (fun _ s => UpToDate s ∧ Covers c.mapFn entries s.log.size s.files.snapshot) s := by
  apply keeps_call
  intro s₁ hrely hi r s₂ he hsmall
  have h₁ := h.rely hrely
  cases he with
  | @renameSnapshot index hrunning records hwalk hlen =>
    have hsize := h₁ index hrunning
    have hindex := hi.running index hrunning
    have hcount := hsmall.snapshots index (List.mem_append_right _ List.mem_cons_self)
    have hfits := hi.log.fits hi.log.size_le
    have hcovers := hindex.indexed.covers (by omega) hcount hwalk hlen
    rw [hsize] at hcovers
    refine ⟨hi.rename hrunning (hsynced.rely hrely) hsize (hsize ▸ hcovers) hsmall.snapshots, h₁,
      ?_⟩
    exact hsize ▸ hcovers

theorem syncDirectory_keeps (h : UpToDate s)
    (hcovers : Covers c.mapFn entries s.log.size s.files.snapshot) :
    Keeps c entries (Prog.call IndexOp.syncDirectory)
      (fun _ s => UpToDate s ∧
        ∀ named, s.files.Names named → Covers c.mapFn entries s.log.size named) s := by
  apply keeps_call
  intro s₁ hrely hi r s₂ he hsmall
  have h₁ := h.rely hrely
  cases he with
  | syncDirectory hrunning =>
    refine ⟨hi.syncDirectory, h₁, fun named hnamed => ?_⟩
    obtain rfl : named = s₁.files.snapshot := hnamed.elim id id
    change Covers _ _ s₁.log.size _
    rw [hrely.size, hrely.files]
    exact hcovers

theorem truncateWal_keeps (h : UpToDate s)
    (hcovers : ∀ named, s.files.Names named → Covers c.mapFn entries s.log.size named) :
    Keeps c entries (Prog.call IndexOp.truncateWal) (fun _ _ => True) s := by
  apply keeps_call
  intro s₁ hrely hi r s₂ he hsmall
  cases he with
  | @truncateWal index hrunning =>
    refine ⟨hi.truncate hrunning ((h.rely hrely) index hrunning) fun named hnamed => ?_, trivial⟩
    rw [hrely.files] at hnamed
    rw [hrely.size]
    exact hcovers named hnamed

theorem snapshot_keeps (h : UpToDate s) : Keeps c entries snapshot (fun _ _ => True) s := by
  refine keeps_bind (syncWal_keeps (fun _ _ hs hrely => hs.rely hrely) (fun _ _ hs => hs) h)
    fun _ s₁ h₁ => ?_
  refine keeps_bind (renameSnapshot_keeps h₁.1 h₁.2) fun _ s₂ h₂ => ?_
  refine keeps_bind (syncDirectory_keeps h₂.1 h₂.2) fun _ s₃ h₃ => ?_
  refine keeps_bind (truncateWal_keeps h₃.1 h₃.2) fun _ s₄ _ => ?_
  refine keeps_bind (syncWal_keeps (J := fun _ => True) (fun _ _ _ _ => trivial)
    (fun _ _ _ => trivial) trivial) fun _ s₅ _ => ?_
  apply keeps_call
  intro s₆ _ hi r s₇ he hsmall
  cases he with
  | resetCount hrunning => exact ⟨hi.resetCount hrunning, trivial⟩

/-- A snapshot may be due when the cycle has marked its entries. -/
theorem maybeSnapshot_runs (h : UpToDate s) :
    Runs c entries (perform .maybeSnapshot) (fun _ _ => True) s := by
  apply runs_perform
  refine keeps_bind (P := fun _ _ => True) ?_ fun _ _ _ _ _ => trivial
  refine keeps_bind (P := fun _ s => UpToDate s) (keeps_call fun s₁ hrely hi r s₂ he hsmall => ?_)
    fun due s₁ h₁ => ?_
  · cases he with
    | snapshotDue hrunning => exact ⟨hi, h.rely hrely⟩
  · split_ifs
    · exact snapshot_keeps h₁
    · trivial

/-! ### The cycle -/

theorem getLogState_runs :
    Runs c entries (perform .getLogState) (fun state s => state.integratedSize = s.log.size) s := by
  apply runs_perform
  apply keeps_call
  intro s₁ hrely hi r s₂ he hsmall
  cases he with
  | log hrunning he =>
    cases he with
    | fault => exact ⟨hi, by rintro _ ⟨⟩⟩
    | getLogState =>
      refine ⟨hi, ?_⟩
      rintro _ ⟨⟩
      exact congrArg Storage.LogState.integratedSize hi.log.db.getLogState

omit [Crc32] [Sha256] in
/-- The entries of a batch are those behind the first `n`. -/
theorem Small.batch (h : Small entries s) (hE : E <+: s.log.log.drop n) (i : ℕ) (entry : Entry H)
    (hi : E[i]? = some entry) :
    entries (n + i) = entry.data := by
  obtain ⟨rest, hrest⟩ := hE
  have hlog : (s.log.log.drop n)[i]? = some entry := by
    rw [← hrest, List.getElem?_append_left (List.getElem?_eq_some_iff.mp hi).1]
    exact hi
  rw [List.getElem?_drop] at hlog
  exact h.log (n + i) entry hlog

/-- The pending entries, some of which the index may have already. -/
theorem getPendingEntries_runs (h : s.log.size = n) :
    Runs c entries (perform (.getPendingEntries n c.integrationBatchSize))
      (fun pending s => ∃ E, pending = toPending n E ∧
      (∀ i entry, E[i]? = some entry → entries (n + i) = entry.data) ∧ Batch c n E s ∧
      IndexedTo n s) s := by
  apply runs_perform
  apply keeps_call
  intro s₁ hrely hi r s₂ he hsmall
  have hsize : s₁.log.size = n := hrely.size.trans h
  cases he with
  | log hrunning he =>
    cases he with
    | fault => exact ⟨hi, by rintro _ ⟨⟩⟩
    | getPendingEntries =>
      refine ⟨hi, ?_⟩
      rintro _ ⟨⟩
      subst hsize
      have hE := List.take_prefix c.integrationBatchSize (s₁.log.log.drop s₁.log.size)
      refine ⟨_, hi.log.db.getPendingEntries le_rfl c.integrationBatchSize, hi.small.batch hE,
        ⟨rfl, hE, List.length_take_le _ _, fun index hrunning => ?_⟩,
        fun index hrunning => (hi.running index hrunning).size_le⟩
      have hindex := hi.running index hrunning
      have hlength := hindex.le_length
      have hbatch := hindex.le_batch
      rw [List.length_take, List.length_drop]
      change _ ≤ s₁.log.size + _
      omega

/-- The batch is stored, indexed and marked. -/
theorem storeBatch_runs (hE : ∀ i entry, E[i]? = some entry → entries (n + i) = entry.data)
    (order : MapOrder H)
    {result : Merkle.IntegrationResult H} (hresult : result.newSize = n + E.length)
    (h : Batch c n E s ∧ IndexedTo n s) :
    Runs c entries (storeBatch order true n (toPending n E) result) (fun _ _ => True) s := by
  have hobjects {p : Server H Unit} (hp : p.Calls Object) {s : IndexedLog H}
      (hs : Batch c n E s ∧ IndexedTo n s) :
      Runs c entries p (fun _ s => (Batch c n E s ∧ IndexedTo n s) ∧ True) s := by
    have hany : p.Returns (fun _ _ => True) fun x => ∀ a, x = .ok a → True :=
      Prog.returns_any p fun _ _ _ => trivial
    exact objects_run hp hany (fun _ _ hs hrely => ⟨hs.1.rely hrely, hs.2.rely hrely⟩) hs
  rw [storeBatch, hresult]
  refine runs_bind (hobjects (Worker.writeTiles_calls _ _ fun _ _ => trivial) h) fun _ s₁ h₁ => ?_
  refine runs_bind (hobjects (Worker.writeBundles_calls (fun _ => trivial) (fun _ _ _ => trivial) _
    _ _) h₁.1) fun _ s₂ h₂ => ?_
  refine runs_bind (P := fun _ s => (Batch c n E s ∧ IndexedTo (n + E.length) s) ∧ Synced s) ?_
    fun _ s₃ h₃ => ?_
  · rw [Worker.updateIndex, if_pos rfl]
    exact runs_bind (indexEntries_runs h₂.1.1 h₂.1.2 rfl hE) fun _ s hs => flushIndex_runs hs.1 hs.2
  refine runs_bind (mark_runs h₃.1.1 h₃.1.2 h₃.2 result.rootHash) fun marked s₄ h₄ => ?_
  split_ifs with hmarked
  · exact maybeSnapshot_runs (h₄ hmarked.1)
  · trivial

/-- The batch is integrated, whatever the tiles hold. -/
theorem integrateBatch_runs (hE : ∀ i entry, E[i]? = some entry → entries (n + i) = entry.data)
    (order : MapOrder H) (h : Batch c n E s ∧ IndexedTo n s) :
    Runs c entries (Worker.integrateBatch order true n (toPending n E)) (fun _ _ => True) s := by
  have hsize := Sequencer.integrate_newSize order n ((toPending n E).map fun e => e.leafHash)
  rw [List.length_map, Worker.length_toPending] at hsize
  have hstable (s s' : IndexedLog H) (hs : Batch c n E s ∧ IndexedTo n s) (hrely : Rely s s') :
      Batch c n E s' ∧ IndexedTo n s' :=
    ⟨hs.1.rely hrely, hs.2.rely hrely⟩
  rw [integrateBatch_eq]
  refine runs_bind (objects_run (Prog.calls_translate (Worker.reader_calls fun _ => trivial) _)
    (Prog.returns_translate_any hsize) hstable h) fun result s₁ h₁ => ?_
  exact storeBatch_runs hE order h₁.2 h₁.1

/-- A cycle keeps what can be restored. -/
theorem cycle_keeps (order : MapOrder H) (s : IndexedLog H) :
    Keeps c entries (cycle c order) (fun _ _ => True) s := by
  change Runs c entries (Worker.runIntegrationCycle order c.integrationBatchSize true) _ s
  refine runs_bind getLogState_runs fun state s₁ h₁ => ?_
  refine runs_bind (runs_ofExcept (P := fun _ s => s = s₁) fun _ _ => rfl) ?_
  rintro count _ rfl
  split_ifs
  · trivial
  refine runs_bind (getPendingEntries_runs h₁.symm) ?_
  rintro pending s₂ ⟨E, rfl, hE, h₂⟩
  split_ifs
  · trivial
  rw [checkContiguous_toPending]
  exact runs_bind (P := fun _ s => s = s₂) rfl fun _ _ heq => heq ▸ integrateBatch_runs hE order h₂

/-- A process that starts restores the index. -/
theorem boot_keeps (s : IndexedLog H) : Keeps c entries boot (fun _ _ => True) s := by
  refine keeps_bind (P := fun _ _ => True) (keeps_call fun s₁ _ hi r s₂ he _ => ⟨?_, trivial⟩)
    fun r s₁ _ => ?_
  · cases he with
    | restart hdown walk hfile h =>
      obtain ⟨index, left, b, hrun, hindex, hb, hcovers, hleft⟩ :=
        hi.restores (fun index => walk.perm index.entries) hfile
      rw [hrun] at h
      obtain ⟨rfl, rfl⟩ := h
      exact hi.restart hdown hindex hb hcovers hleft
  · cases r with
    | ok u => trivial
    | error e => trivial

end Siglog.Vindex

import Siglog.Merkle.IntegrateCorrect
import Siglog.Vindex.CrashCycle

/-! A process that nothing interrupts. It takes the first entries of the log in one batch,
stores, indexes and marks them, and takes a snapshot of their index. -/

namespace Siglog.Vindex

open Concurrent (DurableFile ProcSys Prog)
open Merkle (EntryBundle MapOrder)
open Storage (DbOf Op PendingEntry Server perform toPending TileStorage.reader)
open Worker (checkContiguous_toPending integrateBatch_eq storeBatch)

variable {H : Type} [Sha256Hash H] [Crc32] [Sha256] {α β : Type} {c : Setup} {entries : ℕ → Bytes}
  {s s' : IndexedLog H}

/-! ### Rules -/

variable (c) in
/-- A program of the cycle that can end as asserted. -/
def CanRun (P : α → IndexedLog H → Prop) (p : Server H α) (s : IndexedLog H) : Prop :=
  Prog.CanEnd (IndexExec c) P (p.translate onFiles) s

section Rules

variable {P : α → IndexedLog H → Prop}

theorem canRun_bind {p : Server H α} {f : α → Server H β} {Q : β → IndexedLog H → Prop}
    (hp : CanRun c P p s) (hf : ∀ a s, P a s → CanRun c Q (f a) s) : CanRun c Q (p.bind f) s := by
  rw [CanRun, Prog.translate_bind]
  exact Prog.canEnd_bind hp hf

theorem canRun_perform {o : Op H} {P : Op.Result H o → IndexedLog H → Prop}
    (h : Prog.CanEnd (IndexExec c) (fun r s => ∃ a, r = .ok a ∧ P a s) (onFiles o) s) :
    CanRun c P (perform o) s := by
  have hcall : (Prog.call o : Server H (o.Answer H)).translate onFiles = onFiles o :=
    Prog.bind_pure (onFiles o)
  refine canRun_bind (P := fun r s => ∃ a, r = .ok a ∧ P a s) ?_ ?_
  · rw [CanRun, hcall]
    exact h
  · rintro _ s ⟨a, rfl, ha⟩
    exact Prog.canEnd_pure ha

/-- An operation on the log that succeeds. -/
theorem canRun_log {o : Op H} (ho : onFiles o = Prog.call (IndexOp.log o)) {index : VerifiableIndex}
    (hrunning : s.running = some index) {a : Op.Result H o} {log : Worker.LogSystem H}
    (hexec : Worker.Exec s.log o (.ok a) log)
    {P : Op.Result H o → IndexedLog H → Prop} (h : P a (s.withLog log)) :
    CanRun c P (perform o) s := by
  apply canRun_perform
  rw [ho]
  exact ⟨_, _, .op (IndexExec.log hrunning hexec) (.refl _ _), a, rfl, h⟩

end Rules

/-! ### The batch -/

variable (c entries) in
/-- Entries that a cycle can take in one batch and snapshot. -/
structure FirstBatch (E : List (Entry H)) : Prop where
  same : ∀ k entry, E[k]? = some entry → entries k = entry.data
  ne_nil : E ≠ []
  data : ∀ entry ∈ E, entry.data.length ≤ 65535
  fits : FitsBelow c entries E.length
  limit : E.length ≤ c.integrationBatchSize
  interval : c.snapshotInterval ≠ 0 ∧ c.snapshotInterval ≤ E.length
  length : ∀ index, Indexed c entries E.length index →
    (writeSnapshot E.length index.index.entries).length ≤ i64Max

variable (c entries) in
/-- The first `i` of the entries `E` have been indexed, and none of them is marked. -/
structure Underway (E : List (Entry H)) (i : ℕ) (s : IndexedLog H) : Prop where
  db : DbOf s.log.db 0 E
  log : s.log.log = E
  index : ∃ index, s.running = some index ∧ Indexed c entries i index ∧
  i ≤ index.entriesSinceSnapshot
  snapshots : s.snapshots = []

variable {E : List (Entry H)} {i : ℕ}

omit [Crc32] in
/-- What is stored does not matter. -/
theorem Underway.withLog (h : Underway c entries E i s) {log : Worker.LogSystem H}
    (hdb : log.db = s.log.db)
    (hlog : log.log = s.log.log) : Underway c entries E i (s.withLog log) :=
  ⟨hdb.symm ▸ h.db, hlog.trans h.log, h.index, h.snapshots⟩

omit [Crc32] in
theorem Underway.length_le (h : Underway c entries E i s) : E.length ≤ i64Max := by
  have := h.db.bound
  omega

theorem canRun_write (h : Underway c entries E i s) (path : Api.Path) (data : Bytes) :
    CanRun c (fun _ => Underway c entries E i) (perform (.writeObject path data)) s := by
  obtain ⟨index, hrunning, -⟩ := h.index
  exact canRun_log rfl hrunning (.write s.log path data) (h.withLog rfl rfl)

/-- There is no tile to read. -/
theorem canRun_reader (h : Underway c entries E i s ∧ ∀ path, s.log.objects path = none)
    (o : Merkle.ReadTile) :
    CanRun c (fun r s => (Underway c entries E i s ∧ ∀ path, s.log.objects path = none) ∧
      Merkle.TileAnswers [] o r)
      (TileStorage.reader o) s := by
  obtain ⟨index, hrunning, -⟩ := h.1.index
  obtain ⟨level, idx, part⟩ := o
  refine canRun_bind (P :=
    fun data s => data = none ∧ Underway c entries E i s ∧ ∀ path, s.log.objects path = none) ?_ ?_
  · exact canRun_log rfl hrunning (.read s.log (Api.tilePath level idx part))
      ⟨h.2 _, h.1.withLog rfl rfl, h.2⟩
  · rintro _ s ⟨rfl, hs⟩
    exact Prog.canEnd_pure ⟨hs, fun hrow _ => by simp at hrow⟩

theorem canRun_writeTiles (h : Underway c entries E i s) (newSize : ℕ)
    (tiles : List (Σ _ : Merkle.TileKey, Merkle.HashTile H)) :
    CanRun c (fun _ => Underway c entries E i) (Worker.writeTiles newSize tiles) s := by
  induction tiles generalizing s with
  | nil => exact Prog.canEnd_pure h
  | cons e tiles ih => exact canRun_bind (canRun_write h _ _) fun _ _ h' => ih h'

/-- No bundle continues an earlier one. -/
theorem canRun_writeBundles (h : Underway c entries E i s) (toSize : ℕ)
    (bundles : List (Σ _ : ℕ, List Bytes))
    (hdata : ∀ b ∈ bundles, ∀ data ∈ b.2, data.length ≤ 65535) :
    CanRun c (fun _ => Underway c entries E i) (Worker.writeBundles 0 toSize bundles) s := by
  induction bundles generalizing s with
  | nil => exact Prog.canEnd_pure h
  | cons b bundles ih =>
    rw [List.forall_mem_cons] at hdata
    obtain ⟨bundleIdx, data⟩ := b
    obtain ⟨bytes, hbytes⟩ := @EntryBundle.toBytes_ok ⟨data⟩ hdata.1
    have hfirst : Worker.previousBundle (H := H) bundleIdx
      (if bundleIdx = 0 / Api.tileWidth then 0 % Api.tileWidth else 0) =
        .pure ⟨[]⟩ := by
      rw [Nat.zero_mod, ite_self]
      rfl
    refine canRun_bind (P := fun bundle s => bundle = ⟨[]⟩ ∧ Underway c entries E i s) ?_ ?_
    · rw [hfirst]
      exact Prog.canEnd_pure ⟨rfl, h⟩
    rintro _ s₁ ⟨rfl, h₁⟩
    refine canRun_bind (P := fun _ => Underway c entries E i) ?_ fun _ s₂ h₂ => ih h₂ hdata.2
    rw [Storage.TileStorage.writeEntryBundle]
    refine canRun_bind (P := fun _ => Underway c entries E i) ?_ fun _ s₂ h₂ => canRun_write h₂ _ _
    rw [List.nil_append, hbytes]
    exact Prog.canEnd_pure h₁

theorem canRun_indexEntry (hE : FirstBatch c entries E) (hi : i < E.length)
    (h : Underway c entries E i s) :
    CanRun c (fun _ => Underway c entries E (i + 1)) (perform (.indexEntry i (entries i))) s := by
  have hlimit : i64Max + 1 < 2 ^ 64 := by decide
  have hmax := h.length_le
  obtain ⟨index, hrunning, hindexed, hcount⟩ := h.index
  obtain ⟨next, e, -, hrun, hnext, hmore⟩ :=
    hindexed.next (by omega) (hE.fits i hi index hindexed) s.files.wal
  have hcount' : i + 1 ≤ next.entriesSinceSnapshot := by omega
  apply canRun_perform
  exact ⟨_, _, .op (IndexExec.indexEntry hrunning hrun) (.refl _ _), (), rfl, h.db, h.log,
    ⟨next, rfl, hnext, hcount'⟩, h.snapshots⟩

/-- Each entry is the next one. -/
theorem canRun_indexEntries (hE : FirstBatch c entries E) {rest : List (Entry H)}
    (hrest : i + rest.length = E.length)
    (hdata : ∀ k entry, rest[k]? = some entry → entries (i + k) = entry.data)
    (h : Underway c entries E i s) :
    CanRun c (fun _ => Underway c entries E E.length) (Worker.indexEntries (toPending i rest))
      s := by
  induction rest generalizing i s with
  | nil => exact Prog.canEnd_pure (hrest ▸ h)
  | cons entry rest ih =>
    rw [List.length_cons] at hrest
    have hlow : i < E.length := by omega
    have hfirst : entries i = entry.data := hdata 0 entry rfl
    refine canRun_bind (P := fun _ => Underway c entries E (i + 1)) ?_ fun _ s₁ h₁ => ?_
    · rw [← hfirst]
      exact canRun_indexEntry hE hlow h
    · refine ih (by omega) (fun k next hk => ?_) h₁
      rw [Nat.add_assoc, Nat.add_comm 1 k]
      exact hdata (k + 1) next hk

theorem canRun_flushIndex (h : Underway c entries E i s) :
    CanRun c (fun _ => Underway c entries E i) (perform .flushIndex) s := by
  obtain ⟨index, hrunning, hindexed⟩ := h.index
  apply canRun_perform
  refine ⟨_, _, .op (IndexExec.syncWal hrunning) (.refl _ _), (), rfl, h.db, h.log,
    ⟨index, hrunning, hindexed⟩, h.snapshots⟩

/-! ### The snapshot -/

variable (c entries) in
/-- All entries have been marked, and the index on disk is a snapshot that has been taken of
them. -/
structure Snapshotted (E : List (Entry H)) (s : IndexedLog H) : Prop where
  size : s.log.size = E.length
  log : s.log.log = E
  files : ∃ index, Indexed c entries E.length index ∧ s.snapshots = [index] ∧
    s.files = ⟨.ofSynced [], some (writeSnapshot E.length index.index.entries),
      some (writeSnapshot E.length index.index.entries)⟩

/-- A snapshot that is not interrupted. -/
theorem snapshot_canEnd {index : VerifiableIndex} (hrunning : s.running = some index)
    (hlen : (writeSnapshot index.treeSize index.index.entries).length ≤ i64Max) :
    Prog.CanEnd (IndexExec c) (fun _ s' => s'.log = s.log ∧ s'.snapshots = s.snapshots ++ [index] ∧
      s'.files = ⟨.ofSynced [], some (writeSnapshot index.treeSize index.index.entries),
        some (writeSnapshot index.treeSize index.index.entries)⟩) snapshot s := by
  let data := writeSnapshot index.treeSize index.index.entries
  let s₁ := s.withWalFile s.files.wal.sync
  let s₂ : IndexedLog H :=
    ⟨s₁.log, { s₁.files with snapshot := some data }, s₁.running, s₁.snapshots ++ [index]⟩
  let s₃ : IndexedLog H := { s₂ with files := { s₂.files with syncedSnapshot := some data } }
  let s₄ := s₃.withWalFile (s₃.files.wal.setLen 0)
  let s₅ := s₄.withWalFile s₄.files.wal.sync
  have h₁ : IndexExec c s .syncWal () s₁ := .syncWal hrunning
  have h₂ : IndexExec c s₁ .renameSnapshot () s₂ :=
    .renameSnapshot (s := s₁) hrunning (List.Perm.refl _) hlen
  have h₃ : IndexExec c s₂ .syncDirectory () s₃ := .syncDirectory (s := s₂) hrunning
  have h₄ : IndexExec c s₃ .truncateWal () s₄ := .truncateWal (s := s₃) hrunning
  have h₅ : IndexExec c s₄ .syncWal () s₅ := .syncWal (s := s₄) hrunning
  have h₆ : IndexExec c s₅ .resetCount ()
      { s₅ with running := some { index with entriesSinceSnapshot := 0 } } :=
    .resetCount (s := s₅) hrunning
  have hwal : s₅.files.wal = .ofSynced [] := by
    change DurableFile.ofSynced (s.files.wal.sync.setLen 0).contents = _
    rw [DurableFile.contents_setLen]
    rfl
  refine ⟨(), _, .op h₁ (.op h₂ (.op h₃ (.op h₄ (.op h₅ (.op h₆ (.refl _ _)))))), rfl, rfl, ?_⟩
  exact congrArg (IndexFiles.mk · (some data) (some data)) hwal

variable (c entries) in
/-- All entries have been marked. -/
structure Marked (E : List (Entry H)) (s : IndexedLog H) : Prop where
  size : s.log.size = E.length
  log : s.log.log = E
  index : ∃ index, s.running = some index ∧ Indexed c entries E.length index ∧
    E.length ≤ index.entriesSinceSnapshot
  snapshots : s.snapshots = []

theorem canRun_mark (h : Underway c entries E E.length s) (root : H) :
    CanRun c (fun marked s => marked = true ∧ Marked c entries E s)
      (perform (.markIntegratedIfCurrent 0 E.length root)) s := by
  obtain ⟨index, hrunning, hindexed⟩ := h.index
  obtain ⟨db, hmark, hdb, -⟩ := h.db.mark le_rfl root
  rw [Nat.zero_add] at hmark hdb
  refine canRun_log rfl hrunning (.mark s.log 0 E.length root true db hmark)
    ⟨rfl, ?_, h.log, ⟨index, hrunning, hindexed⟩, h.snapshots⟩
  change Storage.asU64 db.logState.integratedSize = _
  rw [hdb.integrated, Storage.asU64_natCast h.length_le]

theorem canRun_maybeSnapshot (hE : FirstBatch c entries E) (h : Marked c entries E s) :
    CanRun c (fun _ => Snapshotted c entries E) (perform .maybeSnapshot) s := by
  obtain ⟨index, hrunning, hindexed, hcount⟩ := h.index
  have hsize := hindexed.treeSize
  have hdue : decide (c.snapshotInterval ≠ 0 ∧ c.snapshotInterval ≤ index.entriesSinceSnapshot) =
      true :=
    decide_eq_true ⟨hE.interval.1, hE.interval.2.trans hcount⟩
  apply canRun_perform
  refine Prog.canEnd_bind (P := fun _ => Snapshotted c entries E) ?_ fun _ _ hs =>
    Prog.canEnd_pure ⟨(), rfl, hs⟩
  refine Prog.canEnd_bind (Prog.canEnd_call (P := fun due s' => due = true ∧ s' = s)
    (.snapshotDue hrunning) ⟨hdue, rfl⟩) ?_
  rintro _ _ ⟨rfl, rfl⟩
  rw [if_pos rfl]
  refine Prog.canEnd_mono ?_ (snapshot_canEnd hrunning (hsize.symm ▸ hE.length index hindexed))
  rintro _ s' ⟨hlog, hsnapshots, hfiles⟩
  rw [h.snapshots] at hsnapshots
  rw [hsize] at hfiles
  exact ⟨hlog ▸ h.size, hlog ▸ h.log, index, hindexed, hsnapshots, hfiles⟩

/-! ### The cycle -/

omit [Crc32] [Sha256] in
/-- Bundles hold entries of the batch. -/
theorem mem_groupBundles {b : Σ _ : ℕ, List Bytes}
    (hb : b ∈ (Worker.groupBundles (toPending 0 E)).entries) {data : Bytes}
    (hdata : data ∈ b.2) : data ∈ E.map Entry.data := by
  have hall : Rfc.seg (E.map Entry.data) 0 E.length = E.map Entry.data := by
    rw [Rfc.seg, List.drop_zero, List.take_of_length_le (List.length_map _).le]
  have hlookup := AList.mem_lookup_iff.mpr hb
  rw [Worker.groupBundles_lookup _ 0 E hall] at hlookup
  split_ifs at hlookup with hlt
  · rw [← Option.some.inj hlookup] at hdata
    exact List.mem_of_mem_drop (List.mem_of_mem_take hdata)
  · cases hlookup

theorem canRun_storeBatch (hE : FirstBatch c entries E) (order : MapOrder H)
    {result : Merkle.IntegrationResult H}
    (hresult : result.newSize = E.length) (h : Underway c entries E 0 s) :
    CanRun c (fun _ => Snapshotted c entries E) (storeBatch order true 0 (toPending 0 E) result)
      s := by
  rw [storeBatch, hresult]
  refine canRun_bind (canRun_writeTiles h _ _) fun _ s₁ h₁ => ?_
  refine canRun_bind (canRun_writeBundles h₁ _ _ fun b hb data hmem => ?_) fun _ s₂ h₂ => ?_
  · obtain ⟨entry, hentry, rfl⟩ :=
      List.mem_map.mp (mem_groupBundles (Merkle.Shuffle.mem_order.mp hb) hmem)
    exact hE.data entry hentry
  refine canRun_bind (P := fun _ => Underway c entries E E.length) ?_ fun _ s₃ h₃ => ?_
  · rw [Worker.updateIndex, if_pos rfl]
    refine canRun_bind (canRun_indexEntries hE (Nat.zero_add _) (fun k entry hk => ?_) h₂)
      fun _ s hs => canRun_flushIndex hs
    rw [Nat.zero_add]
    exact hE.same k entry hk
  refine canRun_bind (canRun_mark h₃ result.rootHash) ?_
  rintro _ s₄ ⟨rfl, h₄⟩
  rw [if_pos ⟨rfl, rfl⟩]
  exact canRun_maybeSnapshot hE h₄

/-- A cycle that takes all entries. -/
theorem cycle_canEnd (hE : FirstBatch c entries E) (order : MapOrder H)
    (h : Underway c entries E 0 s ∧ ∀ path, s.log.objects path = none) :
    Prog.CanEnd (IndexExec c) (fun _ => Snapshotted c entries E) (cycle c order) s := by
  obtain ⟨index, hrunning, -⟩ := h.1.index
  have hdb := h.1.db
  have hmax := h.1.length_le
  have hpos : E.length ≠ 0 := fun hzero => hE.ne_nil (List.length_eq_zero_iff.mp hzero)
  have hcount : s.log.db.getLogState.pendingCount = .ok E.length := by
    rw [hdb.getLogState, Storage.LogState.pendingCount, Nat.zero_add]
    exact checkedSub_ok (Nat.zero_le _)
  have hfrom : s.log.db.getLogState.integratedSize = 0 := by rw [hdb.getLogState]
  have hpending : s.log.db.getPendingEntries 0 c.integrationBatchSize = toPending 0 E := by
    rw [hdb.getPendingEntries le_rfl, List.take_of_length_le hE.limit]
  change CanRun c _ (Worker.runIntegrationCycle order c.integrationBatchSize true) s
  refine canRun_bind (canRun_log (P := fun state s' => state = s.log.db.getLogState ∧ s = s') rfl
    hrunning (.getLogState s.log)
    ⟨rfl, rfl⟩) ?_
  rintro _ _ ⟨rfl, rfl⟩
  rw [hcount]
  refine canRun_bind (P := fun count s' => count = E.length ∧ s = s') (Prog.canEnd_pure ⟨rfl, rfl⟩)
    ?_
  rintro _ _ ⟨rfl, rfl⟩
  rw [if_neg hpos, hfrom]
  refine canRun_bind
    (canRun_log (P := fun pending s' => pending = toPending 0 E ∧ s = s') rfl hrunning
    (.getPendingEntries s.log 0 c.integrationBatchSize) ⟨hpending, rfl⟩) ?_
  rintro _ _ ⟨rfl, rfl⟩
  rw [if_neg (mt Worker.toPending_eq_nil.mp hE.ne_nil), checkContiguous_toPending]
  refine canRun_bind (P := fun _ s' => s = s') (Prog.canEnd_pure rfl) ?_
  rintro _ _ rfl
  rw [integrateBatch_eq, Worker.map_leafHash_toPending]
  have hint := Merkle.integrate_returns (D := []) order (E := E.map Entry.leafHash)
    (by simpa using hE.ne_nil) (by simpa using hmax)
  refine canRun_bind
    (P := fun result s' => (Underway c entries E 0 s' ∧ ∀ path, s'.log.objects path = none) ∧
    result.newSize = E.length) ?_ fun result s₁ h₁ => canRun_storeBatch hE order h₁.2 h₁.1.1
  rw [CanRun, Prog.translate_translate]
  refine Prog.canEnd_translate
    (K := fun s => Underway c entries E 0 s ∧ ∀ path, s.log.objects path = none)
    (A := Merkle.TileAnswers []) (fun o s hs => canRun_reader hs o) (Prog.returns_mono ?_ hint) h
  rintro _ ⟨result, rfl, hresult⟩
  refine ⟨result, rfl, ?_⟩
  rw [hresult.newSize, List.nil_append, List.length_map]

/-! ### The run -/

/-- The index of no entry is restored from no file. -/
theorem boot_canEnd {log : Worker.LogSystem H} (hdb : DbOf log.db 0 E) (hlog : log.log = E)
    (hE : ∀ k entry, E[k]? = some entry → entries k = entry.data)
    (hobjects : ∀ path, log.objects path = none) :
    Prog.CanEnd (IndexExec c)
      (fun _ s => Underway c entries E 0 s ∧ ∀ path, s.log.objects path = none) boot
      (IndexedLog.init.withLog log) := by
  have hsize : log.size = 0 := by
    change Storage.asU64 log.db.logState.integratedSize = 0
    rw [hdb.integrated]
    rfl
  have hgood : LogGood log := by
    refine ⟨?_, hsize ▸ Nat.zero_le _⟩
    rw [hsize, hlog]
    exact hdb
  have hempty : (none : Option Bytes).getD [] = (IndexedLog.init.withLog log).files.wal.contents :=
    rfl
  have hinit : Recoverable c entries (IndexedLog.init.withLog log) :=
    recoverable_init hgood hsize (hlog.symm ▸ hE)
  obtain ⟨index, left, b, hrun, hindexed, -⟩ :=
    hinit.restores (fun index => Merkle.Shuffle.id.perm index.entries) hempty
  have hindexed : Indexed c entries 0 index := hsize ▸ hindexed
  have hexec :=
    IndexExec.restart (c := c) (s := IndexedLog.init.withLog log) rfl Merkle.Shuffle.id hempty hrun
  refine ⟨(), _, .op hexec (.refl _ _), ⟨hdb, hlog, ⟨index, rfl, hindexed, Nat.zero_le _⟩, rfl⟩,
    hobjects⟩

variable [DecidableEq H]

/-- The entries are submitted one after the other. -/
theorem submitted_reachable (c : Setup) (E : List (Entry H)) (hmax : E.length ≤ i64Max) :
    ∃ log : Worker.LogSystem H,
      (crashSystem c).Reachable IndexedLog.init ⟨IndexedLog.init.withLog log, fun _ => none⟩ ∧
      DbOf log.db 0 E ∧ log.db.logConfig = none ∧ log.log = E ∧
      ∀ path, log.objects path = none := by
  induction E using List.reverseRecOn with
  | nil => exact ⟨.init, .refl, ⟨rfl, rfl, Nat.zero_le _, rfl⟩, rfl, rfl, fun _ => rfl⟩
  | append_singleton E entry ih =>
    rw [List.length_append, List.length_singleton] at hmax
    obtain ⟨log, hreach, hdb, hmode, hlog, hobjects⟩ := ih (by omega)
    obtain ⟨db, hseq, hdb', hmode'⟩ :=
      hdb.sequenceEntries_one (by rw [hmode]; simp) (by omega) entry
    have henv := Worker.Env.append log [entry] _ db hseq
    refine ⟨_, hreach.tail (.env ⟨_, henv, rfl⟩), hdb', hmode'.trans hmode, ?_, hobjects⟩
    change log.log ++ [entry] = _
    rw [hlog]

/-- Entries that fit can be submitted, indexed, marked and snapshotted. -/
theorem snapshotted_reachable (hE : FirstBatch c entries E) (hmax : E.length ≤ i64Max)
    (order : MapOrder H) :
    ∃ s : IndexedLog H, (crashSystem c).Reachable IndexedLog.init ⟨s, fun _ => none⟩ ∧
      Snapshotted c entries E s := by
  obtain ⟨log, hreach, hdb, -, hlog, hobjects⟩ := submitted_reachable c E hmax
  obtain ⟨_, s₁, hboot, h₁⟩ := boot_canEnd (c := c) hdb hlog hE.same hobjects
  obtain ⟨_, s₂, hcycle, h₂⟩ := cycle_canEnd hE order h₁
  have hbooted := ProcSys.reachable_ends (i := ()) (t := ()) rfl (Or.inl rfl) hboot rfl hreach
  exact ⟨s₂, ProcSys.reachable_ends (i := ()) (t := ()) rfl (Or.inr ⟨order, rfl⟩) hcycle rfl
    hbooted, h₂⟩

end Siglog.Vindex

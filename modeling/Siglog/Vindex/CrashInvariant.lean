import Siglog.Vindex.Rebuild
import Siglog.Worker.BundleGroups
import Siglog.Worker.CycleCalls

/-! What holds at every point of a run with crashes. Whatever a crash leaves restores the
index of the integrated entries. While the process runs, the index in memory is not behind
the database and at most one batch ahead of it, and the WAL ends with its last entry. -/

namespace Siglog.Vindex

open Concurrent (DurableFile Prog)
open Storage (Op DbOf accepted)
open Worker (LogSystem)

variable {H : Type} [Sha256Hash H]

/-! ### The log -/

/-- The database holds the entries behind the integrated ones. -/
structure LogGood (l : LogSystem H) : Prop where
  db : DbOf l.db l.size (l.log.drop l.size)
  size_le : l.size ≤ l.log.length

theorem logGood_init : LogGood (LogSystem.init : LogSystem H) :=
  ⟨⟨rfl, rfl, Nat.zero_le _, rfl⟩, Nat.zero_le _⟩

theorem LogGood.length_le {l : LogSystem H} (h : LogGood l) : l.log.length ≤ i64Max := by
  have hbound := h.db.bound
  have hle := h.size_le
  rw [List.length_drop] at hbound
  omega

theorem LogGood.fits {l : LogSystem H} (h : LogGood l) {n : ℕ} (hn : n ≤ l.log.length) :
    n + 1 < 2 ^ 64 := by
  have hmax : i64Max + 1 < 2 ^ 64 := by decide
  have := h.length_le
  omega

/-- Submissions leave the integrated size and add to the log. -/
theorem LogGood.env [DecidableEq H] {l l' : LogSystem H} (h : LogGood l) (he : Worker.Env l l') :
    LogGood l' ∧ l'.size = l.size ∧ l.log <+: l'.log := by
  cases he with
  | append entries answers db hseq =>
    obtain ⟨hof, -, -, -, -⟩ := h.db.sequenceEntries hseq
    have hbound := hof.bound
    have hsize :
        (⟨db, l.objects, l.log ++ accepted answers, l.sizes⟩ : LogSystem H).size = l.size := by
      change Storage.asU64 db.logState.integratedSize = _
      rw [hof.integrated, Storage.asU64_natCast (by omega)]
    refine ⟨⟨?_, ?_⟩, hsize, List.prefix_append _ _⟩
    · rw [hsize]
      dsimp only
      rw [List.drop_append_of_le_length h.size_le]
      exact hof
    · rw [hsize]
      exact h.size_le.trans (List.prefix_append _ _).length_le
  | insertMode mode => exact ⟨⟨h.db.insertMode mode, h.size_le⟩, rfl, List.prefix_rfl⟩
  | publish data => exact ⟨⟨h.db, h.size_le⟩, rfl, List.prefix_rfl⟩

omit [Sha256Hash H] in
/-- An operation that does not mark entries. -/
def Unmarked (o : Op H) : Prop :=
  ∀ expected newSize root, o ≠ .markIntegratedIfCurrent expected newSize root

theorem exec_log {l l' : LogSystem H} {o : Op H} {r : o.Answer H} (he : Worker.Exec l o r l') :
    l'.log = l.log := by
  cases he <;> rfl

theorem exec_unmarked {l l' : LogSystem H} {o : Op H} {r : o.Answer H} (ho : Unmarked o)
    (he : Worker.Exec l o r l') :
    l'.db = l.db ∧ l'.log = l.log := by
  cases he with
  | mark => exact absurd rfl (ho _ _ _)
  | markLost => exact absurd rfl (ho _ _ _)
  | markError => exact absurd rfl (ho _ _ _)
  | _ => exact ⟨rfl, rfl⟩

/-- A mark of the next entries moves the size, whether or not it is answered, or it has no
effect. -/
theorem LogGood.mark {l l' : LogSystem H} (h : LogGood l) {k : ℕ} (hk : l.size + k ≤ l.log.length)
    {root : H} {r : Except (Fault Error) Bool}
    (he : Worker.Exec l (.markIntegratedIfCurrent l.size (l.size + k) root) r l') :
    (LogGood l' ∧ l'.size = l.size + k ∧ l'.log = l.log) ∨ l' = l ∧ r ≠ .ok true := by
  obtain ⟨db', hrun, hof, -, -, -⟩ := h.db.mark (k := k) (by rw [List.length_drop]; omega) root
  have hbound := h.length_le
  have hsize : (l.mark true (l.size + k) db').size = l.size + k := by
    change Storage.asU64 db'.logState.integratedSize = _
    rw [hof.integrated, Storage.asU64_natCast (by omega)]
  have hgood : LogGood (l.mark true (l.size + k) db') := by
    refine ⟨?_, ?_⟩
    · rw [hsize]
      rw [List.drop_drop] at hof
      exact hof
    · rw [hsize]
      exact hk
  cases he with
  | fault => exact .inr ⟨rfl, by simp⟩
  | mark _ _ _ marked db hm =>
    rw [hrun, Except.ok.injEq, Prod.mk.injEq] at hm
    obtain ⟨rfl, rfl⟩ := hm
    exact .inl ⟨hgood, hsize, rfl⟩
  | markLost _ _ _ marked db f hm hf =>
    rw [hrun, Except.ok.injEq, Prod.mk.injEq] at hm
    obtain ⟨rfl, rfl⟩ := hm
    exact .inl ⟨hgood, hsize, rfl⟩
  | markError _ _ _ f hm =>
    rw [hrun] at hm
    cases hm

/-! ### The invariant -/

section

variable [Crc32] [Sha256] (c : Setup) (entries : ℕ → Bytes)

omit [Crc32] [Sha256] in
/-- The entries are those of the log, and no key had too many indices when a snapshot was taken. -/
structure Small (s : IndexedLog H) : Prop where
  log : ∀ i entry, s.log.log[i]? = some entry → entries i = entry.data
  snapshots : ∀ index ∈ s.snapshots, ∀ key, (indicesOf index.index key).length < 2 ^ 32

omit [Sha256Hash H] [Sha256] in
/-- The index of the first `n` entries is restored from a snapshot and a WAL. -/
def Restorable (n : ℕ) (snapshot : Option Bytes) (wal : Bytes) : Prop :=
  ∃ (b cover : ℕ) (whole rest : Bytes), wal = whole ++ rest ∧ (∀ pos, WalReader.Stops ⟨rest, pos⟩) ∧
    Covers c.mapFn entries b snapshot ∧ Logs c.mapFn entries b cover whole ∧ b ≤ n ∧ n ≤ cover

omit [Crc32] [Sha256] in
/-- A snapshot that a crash may leave. -/
def IndexFiles.Names (files : IndexFiles) (snapshot : Option Bytes) : Prop :=
  snapshot = files.snapshot ∨ snapshot = files.syncedSnapshot

/-- The index in memory, with the WAL that has been written for it. -/
structure Running (s : IndexedLog H) (index : VerifiableIndex) : Prop where
  indexed : Indexed c entries index.treeSize index
  fits : FitsBelow c entries index.treeSize
  size_le : s.log.size ≤ index.treeSize
  le_length : index.treeSize ≤ s.log.log.length
  le_batch : index.treeSize ≤ s.log.size + c.integrationBatchSize
  wal : ∀ snapshot, s.files.Names snapshot → ∃ b ≤ s.log.size, Covers c.mapFn entries b snapshot ∧
    Logs c.mapFn entries b index.treeSize s.files.wal.contents

/-- What holds between any two operations. -/
structure Recoverable (s : IndexedLog H) : Prop where
  small : Small entries s
  log : LogGood s.log
  fits : FitsBelow c entries s.log.size
  left : ∀ snapshot, s.files.Names snapshot → ∀ wal, s.files.wal.Survives wal →
    Restorable c entries s.log.size snapshot wal
  running : ∀ index, s.running = some index → Running c entries s index
  down : s.running = none → s.files.syncedSnapshot = s.files.snapshot

omit [Crc32] [Sha256] in
/-- What a program of the process may rely on while others submit entries. -/
structure Rely (s s' : IndexedLog H) : Prop where
  files : s'.files = s.files
  running : s'.running = s.running
  size : s'.log.size = s.log.size
  log : s.log.log <+: s'.log.log

end

omit [Sha256Hash H] in
theorem rely_refl [Sha256Hash H] (s : IndexedLog H) : Rely s s := ⟨rfl, rfl, rfl, List.prefix_rfl⟩

theorem Rely.trans {a b d : IndexedLog H} (h : Rely a b) (h' : Rely b d) : Rely a d :=
  ⟨h'.files.trans h.files, h'.running.trans h.running, h'.size.trans h.size, h.log.trans h'.log⟩

variable [Crc32] [Sha256] {c : Setup} {entries : ℕ → Bytes} {s s' : IndexedLog H}

omit [Sha256Hash H] [Sha256] in
theorem restorable_of_logs {b n cover : ℕ} {snapshot : Option Bytes} {wal : Bytes}
    (hsnapshot : Covers c.mapFn entries b snapshot)
    (hwal : Logs c.mapFn entries b cover wal) (hb : b ≤ n) (hn : n ≤ cover) :
    Restorable c entries n snapshot wal :=
  ⟨b, cover, wal, [], by rw [List.append_nil], stops_nil, hsnapshot, hwal, hb, hn⟩

/-- What has been written is restored, also for entries that have been integrated since. -/
theorem Running.restorable {index : VerifiableIndex} (h : Running c entries s index)
    {snapshot : Option Bytes}
    (hsnapshot : s.files.Names snapshot) {n : ℕ} (hn : s.log.size ≤ n) (hn' : n ≤ index.treeSize) :
    Restorable c entries n snapshot s.files.wal.contents := by
  obtain ⟨b, hb, hcovers, hlogs⟩ := h.wal snapshot hsnapshot
  exact restorable_of_logs hcovers hlogs (hb.trans hn) hn'

/-- Nothing is integrated, and nothing has been written. -/
theorem recoverable_init {log : LogSystem H} (hlog : LogGood log) (hsize : log.size = 0)
    (hentries : ∀ i entry, log.log[i]? = some entry → entries i = entry.data) :
    Recoverable c entries (IndexedLog.init.withLog log) := by
  have hnone : (IndexedLog.init.withLog log).log.size = 0 := hsize
  refine ⟨⟨hentries, by rintro _ ⟨⟩⟩, hlog, ?_, fun named hnamed wal hwal => ?_, by
      rintro _ ⟨⟩, fun _ => rfl⟩
  · rw [hnone]
    exact fun i hi => absurd hi (Nat.not_lt_zero i)
  · obtain rfl : named = none := hnamed.elim id id
    obtain rfl := DurableFile.survives_ofSynced.mp hwal
    rw [hnone]
    exact restorable_of_logs covers_none (logs_nil 0) le_rfl le_rfl

/-- Changes of the log that leave the integrated size. -/
theorem Recoverable.withLog (h : Recoverable c entries s) {log : LogSystem H}
    (hsmall : Small entries (s.withLog log)) (hlog : LogGood log)
    (hsize : log.size = s.log.size) (hgrow : s.log.log <+: log.log) :
    Recoverable c entries (s.withLog log) := by
  have hsame : (s.withLog log).log.size = s.log.size := hsize
  refine ⟨hsmall, hlog, ?_, ?_, ?_, h.down⟩
  · rw [hsame]
    exact h.fits
  · rw [hsame]
    exact h.left
  · intro index hrunning
    obtain ⟨hindexed, hfits, hle, hlength, hbatch, hwal⟩ := h.running index hrunning
    refine ⟨hindexed, hfits, ?_, hlength.trans hgrow.length_le, ?_, ?_⟩
    · rw [hsame]
      exact hle
    · rw [hsame]
      exact hbatch
    · rw [hsame]
      exact hwal

/-! ### Operations on the files -/

variable {index : VerifiableIndex}

theorem Recoverable.sync (h : Recoverable c entries s) (hrunning : s.running = some index) :
    Recoverable c entries (s.withWalFile s.files.wal.sync) := by
  have hindex := h.running index hrunning
  refine ⟨⟨h.small.log, h.small.snapshots⟩, h.log, h.fits, fun snapshot hsnapshot wal hwal => ?_,
    fun index' hrunning' => ?_, h.down⟩
  · obtain rfl := DurableFile.survives_ofSynced.mp hwal
    exact hindex.restorable hsnapshot le_rfl hindex.size_le
  · obtain ⟨hindexed, hfits, hle, hlength, hbatch, hlogs⟩ := h.running index' hrunning'
    exact ⟨hindexed, hfits, hle, hlength, hbatch, hlogs⟩

/-- The record of the next entry, and the index with it. -/
theorem Recoverable.next (h : Recoverable c entries s) (hrunning : s.running = some index)
    (hlength : index.treeSize < s.log.log.length)
    (hbatch : index.treeSize < s.log.size + c.integrationBatchSize)
    (hfits : Fits c entries index.treeSize index) {index' : VerifiableIndex} {e : WalEntry}
    (he : (e.idx, e.keys) = walValue c.mapFn entries index.treeSize)
    (hindexed : Indexed c entries (index.treeSize + 1) index') :
    Recoverable c entries
      { s.withWalFile (s.files.wal.write (WalRecord.checked e).bytes) with
        running := some index' } := by
  have hindex := h.running index hrunning
  have hsize := hindexed.treeSize
  refine ⟨⟨h.small.log, h.small.snapshots⟩, h.log, h.fits, fun snapshot hsnapshot wal hwal => ?_,
    ?_, by rintro ⟨⟩⟩
  · rcases DurableFile.survives_write.mp hwal with hwal | ⟨n, rfl⟩
    · exact h.left snapshot hsnapshot wal hwal
    · obtain ⟨b, hb, hcovers, hlogs⟩ := hindex.wal snapshot hsnapshot
      rcases Nat.lt_or_ge n (WalRecord.checked e).bytes.length with hn | hn
      · exact ⟨b, index.treeSize, s.files.wal.contents, (WalRecord.checked e).bytes.take n, rfl,
          stops_torn _ hn, hcovers, hlogs, hb, hindex.size_le⟩
      · rw [List.take_of_length_le hn]
        exact restorable_of_logs hcovers (hlogs.push he) hb (Nat.le_succ_of_le hindex.size_le)
  · rintro _ ⟨⟩
    rw [← hsize] at hindexed
    refine ⟨hindexed, ?_, ?_, ?_, ?_, fun snapshot hsnapshot => ?_⟩
    · rw [hsize]
      intro i hi index'' hindex''
      rcases Nat.lt_succ_iff_lt_or_eq.mp hi with hlt | rfl
      · exact hindex.fits i hlt index'' hindex''
      · exact hfits.congr hindex.indexed hindex''
    · rw [hsize]
      exact Nat.le_succ_of_le hindex.size_le
    · rw [hsize]
      exact hlength
    · rw [hsize]
      exact hbatch
    · obtain ⟨b, hb, hcovers, hlogs⟩ := hindex.wal snapshot hsnapshot
      refine ⟨b, hb, hcovers, ?_⟩
      rw [hsize]
      change Logs _ _ _ _ (s.files.wal.write _).contents
      rw [DurableFile.contents_write]
      exact hlogs.push he

/-- Everything that has been written to the WAL outlives a crash. -/
def Synced (s : IndexedLog H) : Prop := ∀ wal, s.files.wal.Survives wal → wal = s.files.wal.contents

/-- The database moves up to where the WAL has been synced. -/
theorem Recoverable.mark (h : Recoverable c entries s) (hrunning : s.running = some index)
    (hsynced : Synced s) {log : LogSystem H} (hlog : LogGood log) (hle : s.log.size ≤ log.size)
    (hindex : log.size ≤ index.treeSize)
    (hsame : log.log = s.log.log) : Recoverable c entries (s.withLog log) := by
  have hold := h.running index hrunning
  refine ⟨⟨?_, h.small.snapshots⟩, hlog, ?_, fun snapshot hsnapshot wal hwal => ?_,
    fun index' hrunning' => ?_, h.down⟩
  · change ∀ i entry, log.log[i]? = some entry → _
    rw [hsame]
    exact h.small.log
  · exact fun i hi => hold.fits i (lt_of_lt_of_le hi hindex)
  · rw [hsynced wal hwal]
    exact hold.restorable hsnapshot hle hindex
  · obtain rfl : index' = index := Option.some.inj (hrunning'.symm.trans hrunning)
    refine ⟨hold.indexed, hold.fits, hindex, ?_, hold.le_batch.trans (Nat.add_le_add_right hle _),
      fun snapshot hsnapshot => ?_⟩
    · change index'.treeSize ≤ log.log.length
      rw [hsame]
      exact hold.le_length
    · obtain ⟨b, hb, hwal⟩ := hold.wal snapshot hsnapshot
      exact ⟨b, hb.trans hle, hwal⟩

omit [Sha256Hash H] in
/-- A snapshot whose counts fit in their field is read back. -/
theorem Indexed.covers {n : ℕ} (h : Indexed c entries n index) (hn : n < 2 ^ 64)
    (hcount : ∀ key, (indicesOf index.index key).length < 2 ^ 32) {records : List KeyRecord}
    (hwalk : records.Perm index.index.entries) (hlen : (writeSnapshot n records).length ≤ i64Max) :
    Covers c.mapFn entries n (some (writeSnapshot n records)) := by
  have hspells := h.mirrors.spells
  have hrecord : ∀ r ∈ records, r.2 = indicesOf index.index r.1 := by
    intro r hr
    have hmem : r ∈ index.index.entries := hwalk.mem_iff.mp hr
    rw [indicesOf, AList.mem_lookup_iff.mpr hmem]
    rfl
  have hof : SnapshotOf n records := by
    refine ⟨hn, fun r hr => ⟨?_, ?_⟩, ((hwalk.map Sigma.fst).nodup_iff).mpr index.index.nodupKeys⟩
    · rw [hrecord r hr, h.mirrors.indices]
      exact orderedBelow_spec n r.1
    · rw [hrecord r hr]
      exact hcount r.1
  refine ⟨some (n, insertRecords ∅ records), ?_, rfl, fun key => ?_⟩
  · rw [readSnapshot, hof.parse hlen]
  · rw [← hspells key]
    apply AList.perm_lookup
    change (insertRecords ∅ records).entries.Perm index.index.entries
    rw [hof.entries]
    exact (List.reverse_perm records).trans hwalk

/-- The index is that of the integrated entries. -/
def UpToDate (s : IndexedLog H) : Prop :=
  ∀ index, s.running = some index → index.treeSize = s.log.size

theorem Recoverable.rename (h : Recoverable c entries s) (hrunning : s.running = some index)
    (hsynced : Synced s) (hsize : index.treeSize = s.log.size) {snapshot : Option Bytes}
    {snapshots : List VerifiableIndex} (hcovers : Covers c.mapFn entries s.log.size snapshot)
    (hsmall : ∀ index ∈ snapshots, ∀ key, (indicesOf index.index key).length < 2 ^ 32) :
    Recoverable c entries { s with files := { s.files with snapshot }, snapshots } := by
  have hindex := h.running index hrunning
  have hlogs : Logs c.mapFn entries s.log.size index.treeSize s.files.wal.contents := by
    obtain ⟨b, hb, -, hlogs⟩ := hindex.wal s.files.snapshot (.inl rfl)
    rw [← hsize]
    exact hlogs.cover
  refine ⟨⟨h.small.log, hsmall⟩, h.log, h.fits, fun named hnamed wal hwal => ?_,
    fun index' hrunning' => ?_, fun hdown => ?_⟩
  · rcases hnamed with rfl | hnamed
    · rw [hsynced wal hwal]
      exact restorable_of_logs hcovers hlogs le_rfl hsize.ge
    · exact h.left named (.inr hnamed) wal hwal
  · obtain rfl : index' = index := Option.some.inj (hrunning'.symm.trans hrunning)
    refine ⟨hindex.indexed, hindex.fits, hindex.size_le, hindex.le_length, hindex.le_batch,
      fun named hnamed => ?_⟩
    rcases hnamed with rfl | hnamed
    · exact ⟨s.log.size, le_rfl, hcovers, hlogs⟩
    · exact hindex.wal named (.inr hnamed)
  · rw [hrunning] at hdown
    cases hdown

theorem Recoverable.syncDirectory (h : Recoverable c entries s) :
    Recoverable c entries
      { s with files := { s.files with syncedSnapshot := s.files.snapshot } } := by
  have hnames : ∀ {named}, IndexFiles.Names { s.files with syncedSnapshot := s.files.snapshot }
    named → s.files.Names named :=
    fun hnamed => .inl (hnamed.elim id id)
  refine ⟨⟨h.small.log, h.small.snapshots⟩, h.log, h.fits, fun named hnamed wal hwal => ?_,
    fun index' hrunning' => ?_, fun _ => rfl⟩
  · exact h.left named (hnames hnamed) wal hwal
  · obtain ⟨hindexed, hfits, hle, hlength, hbatch, hlogs⟩ := h.running index' hrunning'
    exact ⟨hindexed, hfits, hle, hlength, hbatch, fun named hnamed => hlogs named (hnames hnamed)⟩

/-- The WAL is cut off behind a snapshot of all of its entries. -/
theorem Recoverable.truncate (h : Recoverable c entries s) (hrunning : s.running = some index)
    (hsize : index.treeSize = s.log.size)
    (hcovers : ∀ named, s.files.Names named → Covers c.mapFn entries s.log.size named) :
    Recoverable c entries (s.withWalFile (s.files.wal.setLen 0)) := by
  have hindex := h.running index hrunning
  refine ⟨⟨h.small.log, h.small.snapshots⟩, h.log, h.fits, fun named hnamed wal hwal => ?_,
    fun index' hrunning' => ?_, h.down⟩
  · rcases DurableFile.survives_setLen.mp hwal with hwal | rfl
    · exact h.left named hnamed wal hwal
    · exact restorable_of_logs (hcovers named hnamed) (logs_nil s.log.size) le_rfl le_rfl
  · obtain rfl : index' = index := Option.some.inj (hrunning'.symm.trans hrunning)
    refine ⟨hindex.indexed, hindex.fits, hindex.size_le, hindex.le_length, hindex.le_batch,
      fun named hnamed => ?_⟩
    refine ⟨s.log.size, le_rfl, hcovers named hnamed, ?_⟩
    change Logs _ _ _ _ (s.files.wal.setLen 0).contents
    rw [DurableFile.contents_setLen, hsize]
    exact logs_nil s.log.size

theorem Recoverable.resetCount (h : Recoverable c entries s) (hrunning : s.running = some index) :
    Recoverable c entries { s with running := some { index with entriesSinceSnapshot := 0 } } := by
  have hindex := h.running index hrunning
  refine ⟨⟨h.small.log, h.small.snapshots⟩, h.log, h.fits, h.left, ?_, by rintro ⟨⟩⟩
  rintro _ ⟨⟩
  exact ⟨hindex.indexed.count 0, hindex.fits, hindex.size_le, hindex.le_length, hindex.le_batch,
    hindex.wal⟩

/-! ### Restarts and crashes -/

omit [Sha256] in
theorem Recoverable.crash [Sha256] (h : Recoverable c entries s) (hcrash : Crash s s') :
    Recoverable c entries s' := by
  cases hcrash with
  | mk hwal hsnapshot =>
    refine ⟨⟨h.small.log, h.small.snapshots⟩, h.log, h.fits, fun named hnamed wal hleft => ?_, by
        rintro _ ⟨⟩, fun _ => rfl⟩
    obtain rfl := DurableFile.survives_ofSynced.mp hleft
    obtain rfl : named = _ := hnamed.elim id id
    exact h.left _ hsnapshot _ hwal

/-- Whatever a crash has left, the index of the integrated entries is restored from it. -/
theorem Recoverable.restores (h : Recoverable c entries s) {walk : IndexMap → List KeyRecord}
    (hwalk : ∀ index, (walk index).Perm index.entries) {file : Option Bytes}
    (hfile : file.getD [] = s.files.wal.contents) :
    ∃ index left b, withWal walk c.maxKeys c.maxIndicesPerKey s.files.snapshot file s.log.size =
      (.ok index, some left) ∧
      Indexed c entries s.log.size index ∧ b ≤ s.log.size ∧
      Covers c.mapFn entries b s.files.snapshot ∧
      Logs c.mapFn entries b s.log.size left := by
  obtain ⟨b, cover, whole, rest, hwal, hstop, hcovers, hlogs, hb, hcover⟩ :=
    h.left s.files.snapshot (.inl rfl) _ s.files.wal.survives_contents
  have hfits := h.log.fits h.log.size_le
  obtain ⟨index, left, hrun, hsize, hsane, hmax, hmaxIndices, hmirrors, hleft⟩ :=
    withWal_restores hwalk c.maxKeys c.maxIndicesPerKey hcovers hlogs hstop (hfile.trans hwal) hb
      hcover (by omega)
  exact ⟨index, left, b, hrun, ⟨hmirrors, hsize, hsane, hmax, hmaxIndices⟩, hb, hcovers, hleft⟩

/-- The process goes on from there. -/
theorem Recoverable.restart (h : Recoverable c entries s) (hdown : s.running = none)
    (hindex : Indexed c entries s.log.size index)
    {b : ℕ} {left : Bytes} (hb : b ≤ s.log.size)
    (hcovers : Covers c.mapFn entries b s.files.snapshot)
    (hleft : Logs c.mapFn entries b s.log.size left) :
    Recoverable c entries { s.withWalFile (.ofSynced left) with running := some index } := by
  have hsame := h.down hdown
  have hnames : ∀ {named}, s.files.Names named → named = s.files.snapshot :=
    fun hnamed => hnamed.elim id fun heq => heq.trans hsame
  have hsize := hindex.treeSize
  refine ⟨⟨h.small.log, h.small.snapshots⟩, h.log, h.fits, fun named hnamed wal hwal => ?_, ?_, by
      rintro ⟨⟩⟩
  · obtain rfl := hnames hnamed
    obtain rfl := DurableFile.survives_ofSynced.mp hwal
    exact restorable_of_logs hcovers hleft hb le_rfl
  · rintro _ ⟨⟩
    refine ⟨hsize.symm ▸ hindex, hsize.symm ▸ h.fits, hsize.ge, hsize.le.trans h.log.size_le, ?_,
      fun named hnamed => ?_⟩
    · exact hsize.le.trans (Nat.le_add_right _ _)
    · obtain rfl := hnames hnamed
      exact ⟨b, hb, hcovers, hsize.symm ▸ hleft⟩

end Siglog.Vindex

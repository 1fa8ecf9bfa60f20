import Siglog.Api.Remote
import Siglog.Monitor.Alone
import Siglog.Monitor.Guarantee
import Siglog.Witness.Handled

/-! A log that is running, as the content-validating witness sees it. If its entries are a
Conda log, the witness fetches and proves them all, validates each, and cosigns. -/

namespace Siglog.Monitor

open Api (Cached SeenFrom tileWidth tileWidth_eq)
open Concurrent (Prog)
open Concurrent.Sys (runAlone)
open Merkle (InclusionVerifier LawfulInclusionVerifier)
open Note (Checkpoint CheckpointSignature CheckpointSigner CosignedCheckpoint NoteCrypto
  LawfulNoteCrypto Origin)
open Rfc (mth seg)
open Storage (asI64 asU64)
open Text (Str joinLines)
open Text.Base64 (DecodeErrors)
open Witness (AddCheckpointRequest HttpTexts LogConfig RowOf SignedHead StateRow Store StoreOp
  WitnessDb WitnessedState
  WitnessStateStore.getOrInit WitnessStateStore.update proofFrom runAlone_getOrInit
    verifyConsistency verifyConsistency_complete)
open Worker (LogPool logSys)

/-! ### Keys that are not there -/

namespace ContentIndex

theorem Fresh.check {idx : ContentIndex} {key : Str} (h : idx.Fresh key) (currentIndex : ℕ)
    (expectedValue : Option Str) :
    idx.check key currentIndex expectedValue = none := by
  rw [check_eq, lookup_eq_none.mpr h]
  rfl

end ContentIndex

section

variable [Hasher] {old new : List CondaEntry}

theorem Staged.fresh {which : CondaIndex} {idx : ContentIndex} (h : Staged which idx old new)
    {key : Str} (hne : ∀ entry ∈ old ++ new, which.key entry ≠ key) : idx.Fresh key := by
  refine ⟨fun e he heq => ?_, ?_⟩
  · obtain ⟨i, entry, hi, rfl⟩ := h.mem_pending he
    exact hne entry (List.mem_append_right _ (List.mem_of_getElem? hi)) heq
  · cases hkey : idx.index key with
    | none => rfl
    | some v =>
      obtain ⟨i, entry, hi, rfl, -⟩ := (h.index key v).mp hkey
      exact absurd rfl (hne entry (List.mem_append_left _ (List.mem_of_getElem? hi)))

end

section

variable [EntryJson] {log : List Bytes} {old : List CondaEntry}

theorem CondaLog.take (h : CondaLog log old) (m : ℕ) : CondaLog (log.take m) (old.take m) where
  parses := by rw [List.map_take, h.parses, List.map_take]
  sha256 := h.sha256.sublist ((List.take_sublist m old).map _)
  filename a ha b hb := h.filename a (List.mem_of_mem_take ha) b (List.mem_of_mem_take hb)

end

variable {SK VK H ε δ α β : Type} [Sha256Hash H] [DecidableEq H] [HttpTexts]

/-! ### Programs that succeed -/

/-- One operation of a process that is alone with its database, and reads a log that goes on. -/
inductive ServedExec (p : LogPool H) (base : Str) (clock : UInt64) :
    Solo H → (o : MonitorOp H) → o.Answer H → Solo H → Prop where
  | answer (s : Solo H) (o : MonitorOp H) (web : Str → Except String Bytes)
      (h : ∀ url, SeenFrom p base (.get url) (web url)) :
    ServedExec p base clock s o (s.answer clock web o).1 (s.answer clock web o).2

/-- The program ends with a value that satisfies `P`. -/
def Succeeds (p : LogPool H) (base : Str) (clock : UInt64)
    (prog : Prog (MonitorOp H) (MonitorOp.Answer H) ε α)
    (P : α → Solo H → Prop) (s : Solo H) : Prop :=
  prog.Along (ServedExec p base clock) (fun _ _ => True) (fun x s => ∃ a, x = .ok a ∧ P a s) s

variable {p : LogPool H} {base : Str} {clock : UInt64} {s : Solo H}

theorem succeeds_bind {prog : Prog (MonitorOp H) (MonitorOp.Answer H) ε α}
    {f : α → Prog (MonitorOp H) (MonitorOp.Answer H) ε β}
    {P : α → Solo H → Prop} {Q : β → Solo H → Prop} (hp : Succeeds p base clock prog P s)
    (hf : ∀ a s, P a s → Succeeds p base clock (f a) Q s) :
    Succeeds p base clock (prog.bind f) Q s := by
  refine Prog.along_bind hp ?_ ?_
  · rintro a s ⟨_, heq, ha⟩
    cases heq
    exact hf a s ha
  · rintro e s ⟨_, heq, -⟩
    cases heq

theorem succeeds_weaken {prog : Prog (MonitorOp H) (MonitorOp.Answer H) ε α}
    {P P' : α → Solo H → Prop} (h : ∀ a s, P a s → P' a s) (hp : Succeeds p base clock prog P s) :
    Succeeds p base clock prog P' s := by
  refine Prog.along_weaken ?_ hp
  rintro x s ⟨a, rfl, ha⟩
  exact ⟨a, rfl, h a s ha⟩

theorem succeeds_mapErr {f : ε → δ} {prog : Prog (MonitorOp H) (MonitorOp.Answer H) ε α}
    {P : α → Solo H → Prop}
    (hp : Succeeds p base clock prog P s) : Succeeds p base clock (prog.mapErr f) P s := by
  induction prog generalizing s with
  | pure a =>
    obtain ⟨_, heq, ha⟩ := hp
    cases heq
    exact ⟨a, rfl, ha⟩
  | fail e =>
    obtain ⟨_, heq, -⟩ := hp
    cases heq
  | op o k ih => exact ⟨trivial, fun r s' he => ih r (hp.2 r s' he)⟩

theorem succeeds_attempt {prog : Prog (MonitorOp H) (MonitorOp.Answer H) ε α}
    {P : α → Solo H → Prop} (hp : Succeeds p base clock prog P s) :
    Succeeds p base clock (prog.attempt : Prog (MonitorOp H) (MonitorOp.Answer H) ε (Except ε α))
      (fun x s => ∃ a, x = .ok a ∧ P a s) s := by
  induction prog generalizing s with
  | pure a =>
    obtain ⟨_, heq, ha⟩ := hp
    cases heq
    exact ⟨_, rfl, a, rfl, ha⟩
  | fail e =>
    obtain ⟨_, heq, -⟩ := hp
    cases heq
  | op o k ih => exact ⟨trivial, fun r s' he => ih r (hp.2 r s' he)⟩

theorem succeeds_call {o : MonitorOp H} {P : o.Answer H → Solo H → Prop}
    (h : ∀ web, P (s.answer clock web o).1 (s.answer clock web o).2) :
    Succeeds p base clock (Prog.call o : Prog (MonitorOp H) (MonitorOp.Answer H) ε (o.Answer H)) P
      s := by
  refine ⟨trivial, fun r s' he => ?_⟩
  cases he with
  | answer web _ => exact ⟨_, rfl, h web⟩

/-- The rule for an operation whose answer is no error. -/
theorem succeeds_perform {o : MonitorOp H} {f : ε → Fault MonitorError}
    {ho : o.Answer H = Except ε α} {a : α} {t : Solo H}
    {P : α → Solo H → Prop}
    (h : ∀ web, ho ▸ (s.answer clock web o).1 = (.ok a : Except ε α) ∧ (s.answer clock web o).2 = t)
    (ha : P a t) : Succeeds p base clock (perform f o ho) P s := by
  refine succeeds_bind (P := fun r s => ho ▸ r = (.ok a : Except ε α) ∧ s = t) (succeeds_call h) ?_
  rintro r _ ⟨hr, rfl⟩
  rw [hr]
  exact ⟨a, rfl, ha⟩

/-! ### Inside the transaction -/

/-- A request has locked its log: the memory of its process, and the log as its transaction sees
it. -/
structure Sees (origin : Str) (memory : CondaMonitor) (part : LogPart H) (s : Solo H) : Prop where
  memory : s.memory = memory
  txn : ∃ txn, s.txn = some txn ∧ (txn.view s.db).part origin = part

variable {origin : Str} {memory : CondaMonitor} {part : LogPart H}

omit [Sha256Hash H] [DecidableEq H] [HttpTexts] in
theorem Sees.statement {db : MonitorDb H} {txn : Txn H} (hpart : (txn.view db).part origin = part)
    {w : Write H} (hw : w.origin = origin) (locked : List Str) :
    Sees origin memory (part.write w) ⟨db, some ⟨locked, txn.writes ++ [w]⟩, memory⟩ := by
  refine ⟨rfl, _, rfl, ?_⟩
  change (List.foldl MonitorDb.write db (txn.writes ++ [w])).part origin = _
  rw [List.foldl_append, List.foldl_cons, List.foldl_nil, part_write, if_pos hw]
  exact congrArg (LogPart.write · w) hpart

theorem succeeds_index (which : CondaIndex) (o : IndexOp) (hs : Sees origin memory part s) :
    Succeeds p base clock (index which o) (fun r s => r = ((memory.get which).answer o).1 ∧
      Sees origin (memory.set which ((memory.get which).answer o).2) part s) s := by
  obtain ⟨rfl, htxn⟩ := hs
  exact succeeds_call fun web => ⟨rfl, rfl, htxn⟩

/-- What a client does changes nothing. -/
theorem succeeds_client {prog : Client α} {V : α → Prop}
    (hV : prog.Returns (SeenFrom p base) fun x => ∃ a, x = .ok a ∧ V a)
    (f : Fault Error → Fault MonitorError) (hs : Sees origin memory part s) :
    Succeeds p base clock ((onClient prog).mapErr f) (fun a s => Sees origin memory part s ∧ V a)
      s := by
  refine succeeds_mapErr ?_
  induction prog with
  | pure a =>
    obtain ⟨_, heq, ha⟩ := hV
    cases heq
    exact ⟨a, rfl, hs, ha⟩
  | fail e =>
    obtain ⟨_, heq, -⟩ := hV
    cases heq
  | op o k ih =>
    refine ⟨trivial, fun r s' he => ?_⟩
    cases he with
    | answer web hweb =>
      cases o with
      | build => exact ih _ (hV _ rfl)
      | get url => exact ih _ (hV _ (hweb url))

theorem succeeds_loadRows (indexName : Str) (hs : Sees origin memory part s) :
    Succeeds p base clock (perform internal (.loadRows indexName origin) rfl) (fun rows s =>
      rows = part.content.filter (fun row => row.indexName = indexName) ∧ Sees origin memory part s)
      s := by
  obtain ⟨db, txn, memory⟩ := s
  obtain ⟨rfl, txn, rfl, rfl⟩ := hs
  refine succeeds_perform (fun web => ⟨rfl, rfl⟩) ⟨?_, rfl, txn, rfl, rfl⟩
  rw [MonitorDb.part, List.filter_filter]
  congr 1
  funext row
  simp

theorem succeeds_insertRow {row : ContentRow} (hrow : row.origin = origin)
    (hs : Sees origin memory part s) :
    Succeeds p base clock (perform internal (.insertRow row) rfl)
      (fun _ s => Sees origin memory (part.write (.content row)) s) s := by
  obtain ⟨db, txn, memory⟩ := s
  obtain ⟨rfl, txn, rfl, hpart⟩ := hs
  have hw : (Write.content row : Write H).origin = origin := hrow
  exact succeeds_perform (fun web => ⟨rfl, rfl⟩) (.statement hpart hw txn.locked)

/-- The row of the log is updated if it is the one that was read. -/
theorem succeeds_update {expected : WitnessedState H} (horigin : expected.origin = origin)
    {row : StateRow H} (hrow : part.row = some row) (hsize : row.size = asI64 expected.size)
    (hroot : row.rootHash = expected.rootHash)
    {size : ℕ} {rootHash : H} {checkpoint : Str} (hle : expected.size ≤ size)
    (hsame : size = expected.size → rootHash = expected.rootHash) (hbound : size ≤ i64Max)
    (hs : Sees origin memory part s) :
    Succeeds p base clock
      (inTransaction (WitnessStateStore.update expected size rootHash checkpoint)) (fun updated s =>
      updated = true ∧
      Sees origin memory (part.write (.state origin ⟨size, rootHash, checkpoint⟩)) s) s := by
  obtain ⟨db, txn, memory⟩ := s
  obtain ⟨rfl, txn, rfl, rfl⟩ := hs
  subst horigin
  have hmatch : (txn.view db).witness.Matching expected := ⟨row, hrow, hsize, hroot⟩
  rw [WitnessStateStore.update, if_neg, if_neg (by omega)]
  · change Succeeds p base clock
      ((Prog.call (MonitorOp.updateMatching expected size rootHash checkpoint)).bind fun r =>
      (Prog.ofExcept r).translate statement) _ _
    refine succeeds_bind (P := fun r s => r = .ok true ∧ Sees expected.origin memory
      (((txn.view db).part expected.origin).write
        (.state expected.origin ⟨size, rootHash, checkpoint⟩)) s) (succeeds_call fun web => ?_) ?_
    · dsimp only [Solo.answer]
      rw [if_pos hmatch]
      exact ⟨rfl, .statement (w := .state expected.origin ⟨size, rootHash, checkpoint⟩) rfl rfl _⟩
    · rintro _ s ⟨rfl, hs⟩
      exact ⟨true, rfl, rfl, hs⟩
  · rintro (h | ⟨h, hne⟩)
    · omega
    · exact hne (hsame h)

/-- After the commit the log is as the transaction has seen it. -/
theorem succeeds_commit (hs : Sees origin memory part s) :
    Succeeds p base clock (perform databaseError .commit rfl)
      (fun _ s => s.txn = none ∧ s.db.part origin = part) s := by
  obtain ⟨db, txn, memory⟩ := s
  obtain ⟨rfl, txn, rfl, hpart⟩ := hs
  exact succeeds_perform (fun web => ⟨rfl, rfl⟩) ⟨rfl, hpart⟩

/-! ### Loading and saving -/

variable [EntryJson] [Hasher] {log : List Bytes} {entries old new : List CondaEntry} {m n : ℕ}

omit [EntryJson] [Hasher] in
theorem succeeds_rollbackEntries (hs : Sees origin memory part s) :
    Succeeds p base clock rollbackEntries (fun _ s =>
    ∃ memory, Sees origin memory part s ∧ ∀ which, (memory.get which).pending = []) s := by
  rw [rollbackEntries]
  refine succeeds_bind (succeeds_index .sha256 .rollback hs) ?_
  rintro _ s ⟨-, hs⟩
  refine succeeds_weaken ?_ (succeeds_index .filename .rollback hs)
  rintro _ s ⟨-, hs⟩
  refine ⟨_, hs, fun which => ?_⟩
  cases which with
  | sha256 =>
    rw [CondaMonitor.get_set_ne _ (show CondaIndex.sha256 ≠ .filename by decide),
      CondaMonitor.get_set_self]
    rfl
  | filename =>
    rw [CondaMonitor.get_set_self]
    rfl

omit [EntryJson] [Hasher] in
theorem succeeds_loadIndex (which : CondaIndex) (hs : Sees origin memory part s) :
    Succeeds p base clock (loadIndex which origin)
      (fun _ s => Sees origin (memory.set which ((memory.get which).loadFrom
      (contentMap (part.content.filter fun row => row.indexName = which.name)))) part s) s := by
  rw [loadIndex]
  refine succeeds_bind (succeeds_loadRows which.name hs) ?_
  rintro _ s ⟨rfl, hs⟩
  exact succeeds_weaken (fun _ _ h => h.2) (succeeds_index which _ hs)

/-- The rows of the persisted entries are loaded. -/
theorem succeeds_loadState (hkey : Function.Injective hashKey) (hlog : CondaLog log old)
    (hbound : log.length ≤ i64Max) (hrows : part.content.Perm (contentRows origin old))
    (hpending : ∀ which, (memory.get which).pending = [])
    (hs : Sees origin memory part s) :
    Succeeds p base clock (loadState origin) (fun _ s => ∃ memory, Sees origin memory part s ∧
      ∀ which, Staged which (memory.get which) old []) s := by
  have hstaged : ∀ which, Staged which ((memory.get which).loadFrom
      (contentMap (part.content.filter fun row => row.indexName = which.name))) old [] := by
    intro which
    have hperm := hrows.filter fun row => row.indexName = which.name
    rw [filter_contentRows] at hperm
    exact ⟨contentMap_rows (hlog.length_eq ▸ hbound) (hlog.nodup_keys hkey which) hperm,
      hpending which⟩
  rw [loadState]
  refine succeeds_bind (succeeds_loadIndex .sha256 hs) fun _ s hs => ?_
  refine succeeds_weaken ?_ (succeeds_loadIndex .filename hs)
  intro _ s hs
  rw [CondaMonitor.get_set_ne _ (show CondaIndex.filename ≠ .sha256 by decide)] at hs
  refine ⟨_, hs, fun which => ?_⟩
  cases which with
  | sha256 =>
    rw [CondaMonitor.get_set_ne _ (show CondaIndex.sha256 ≠ .filename by decide),
      CondaMonitor.get_set_self]
    exact hstaged .sha256
  | filename =>
    rw [CondaMonitor.get_set_self]
    exact hstaged .filename

omit [EntryJson] [Hasher] in
theorem succeeds_saveRows (which : CondaIndex) (pending : List PendingEntry) :
    ∀ (part : LogPart H) (s : Solo H),
    Sees origin memory part s → Succeeds p base clock (saveRows which origin pending)
      (fun _ s => Sees origin memory ((pending.map fun e => e.row which origin).foldl
        (fun p row => p.write (.content row)) part) s) s := by
  induction pending with
  | nil => exact fun part s hs => ⟨(), rfl, hs⟩
  | cons entry pending ih =>
    intro part s hs
    rw [saveRows]
    exact succeeds_bind (succeeds_insertRow rfl hs) fun _ s hs => ih _ s hs

omit [EntryJson] in
theorem succeeds_saveIndex {which : CondaIndex} (hstaged : Staged which (memory.get which) old new)
    (hs : Sees origin memory part s) :
    Succeeds p base clock (saveIndex which origin) (fun _ s => Sees origin memory
      ((which.rows origin old.length new).foldl (fun p row => p.write (.content row)) part) s)
      s := by
  rw [saveIndex]
  refine succeeds_bind (succeeds_index which .pendingEntriesSnapshot hs) ?_
  rintro _ s ⟨rfl, hs⟩
  change Sees origin (memory.set which (memory.get which)) part s at hs
  rw [CondaMonitor.set_get] at hs
  change Succeeds p base clock (saveRows which origin (memory.get which).pending) _ s
  rw [hstaged.pending]
  exact succeeds_saveRows which _ part s hs

/-- The rows of all entries are saved. -/
theorem succeeds_commitEntries (hkey : Function.Injective hashKey)
    (hlog : CondaLog log (old ++ new)) (hstaged : ∀ which, Staged which (memory.get which) old new)
    (hrows : part.content.Perm (contentRows origin old))
    (hs : Sees origin memory part s) :
    Succeeds p base clock (commitEntries origin)
      (fun _ s => ∃ memory content, content.Perm (contentRows origin (old ++ new)) ∧
      Sees origin memory { part with content := content } s) s := by
  have hperm : (part.content ++ (CondaIndex.sha256.rows origin old.length new ++
      CondaIndex.filename.rows origin old.length new)).Perm (contentRows origin (old ++ new)) :=
    (hrows.append_right _).trans (contentRows_append origin old new).symm
  have hpairs :=
    (hperm.pairwise_iff fun h hsame => h hsame.symm).mpr (hlog.pairwise_rows hkey origin)
  rw [commitEntries]
  refine succeeds_bind (succeeds_saveIndex (hstaged .sha256) hs) fun _ s hs => ?_
  refine succeeds_bind (succeeds_saveIndex (hstaged .filename) hs) fun _ s hs => ?_
  refine succeeds_bind (succeeds_index _ _ hs) ?_
  rintro _ s ⟨-, hs⟩
  refine succeeds_weaken ?_ (succeeds_index _ _ hs)
  rintro _ s ⟨-, hs⟩
  rw [← List.foldl_append, foldl_write_content _ hpairs] at hs
  exact ⟨_, _, hperm, hs⟩

/-! ### Validation -/

/-- The entries from `m` up to `i` are pending in memory. -/
def Ready (origin : Str) (part : LogPart H) (entries : List CondaEntry) (m i : ℕ) (s : Solo H) :
    Prop :=
  ∃ memory, Sees origin memory part s ∧
    ∀ which, Staged which (memory.get which) (entries.take m) ((entries.take i).drop m)

omit [EntryJson] [Hasher] in
theorem succeeds_check {which : CondaIndex} {key : Str} (hfresh : (memory.get which).Fresh key)
    (currentIndex : ℕ) (value : Option Str) (hs : Sees origin memory part s) :
    Succeeds p base clock (index which (.check key currentIndex value))
      (fun r s => r = none ∧ Sees origin memory part s) s := by
  refine succeeds_weaken ?_ (succeeds_index which (.check key currentIndex value) hs)
  rintro r s ⟨rfl, hs⟩
  change Sees origin (memory.set which (memory.get which)) part s at hs
  rw [CondaMonitor.set_get] at hs
  exact ⟨hfresh.check _ _, hs⟩

/-- The next entry of a log with different keys is valid. -/
theorem succeeds_validateEntry (hnodup : ∀ which : CondaIndex, (entries.map which.key).Nodup)
    {i : ℕ} (hm : m ≤ i) {entry : CondaEntry} (hentry : entries[i]? = some entry) {data : Bytes}
    (hparse : parseEntry data = .ok entry) (hs : Ready origin part entries m i s) :
    Succeeds p base clock (validateEntry i data)
      (fun r s => r = .valid ∧ Ready origin part entries m (i + 1) s) s := by
  obtain ⟨memory, hs, hstaged⟩ := hs
  obtain ⟨hi, hget⟩ := List.getElem?_eq_some_iff.mp hentry
  have hsplit : entries.take m ++ (entries.take i).drop m = entries.take i := by
    have htake := List.take_append_drop m (entries.take i)
    rwa [List.take_take, Nat.min_eq_left hm] at htake
  have hlen : (entries.take m).length + ((entries.take i).drop m).length = i := by
    rw [← List.length_append, hsplit, List.length_take]
    omega
  have hnext : (entries.take (i + 1)).drop m = (entries.take i).drop m ++ [entry] := by
    rw [List.take_add_one, hentry, Option.toList_some, List.drop_append_of_le_length]
    rw [List.length_take]
    omega
  have hfresh : ∀ which : CondaIndex, (memory.get which).Fresh (which.key entry) := by
    intro which
    refine (hstaged which).fresh fun e he heq => ?_
    rw [hsplit] at he
    obtain ⟨j, hj, rfl⟩ := List.mem_take_iff_getElem.mp he
    have hj' : j < (entries.map which.key).length := by
      rw [List.length_map]
      omega
    have hi' : i < (entries.map which.key).length := by rwa [List.length_map]
    have hkeys : (entries.map which.key)[j] = (entries.map which.key)[i] := by simp [heq, hget]
    have := (hnodup which).getElem_inj_iff.mp hkeys
    omega
  rw [validateEntry, hparse]
  dsimp only
  refine succeeds_bind (succeeds_check (hfresh .sha256) i none hs) ?_
  rintro _ s ⟨rfl, hs⟩
  dsimp only
  rw [checkFilename]
  refine succeeds_bind (succeeds_check (hfresh .filename) i (some entry.sha256) hs) ?_
  rintro _ s ⟨rfl, hs⟩
  dsimp only
  rw [stageEntry]
  refine succeeds_bind (succeeds_index _ _ hs) ?_
  rintro _ s ⟨-, hs⟩
  refine succeeds_bind (succeeds_index _ _ hs) ?_
  rintro _ s ⟨-, hs⟩
  refine ⟨_, rfl, rfl, _, hs, fun which => ?_⟩
  have hstage :
      Staged which ((memory.get which).stage (which.key entry) i (which.value entry))
        (entries.take m)
      ((entries.take (i + 1)).drop m) := by
    have := (hstaged which).stage (hfresh which)
    rwa [hlen, ← hnext] at this
  rw [CondaMonitor.get_set_ne _ (show CondaIndex.filename ≠ .sha256 by decide)]
  cases which with
  | sha256 =>
    rw [CondaMonitor.get_set_ne _ (show CondaIndex.sha256 ≠ .filename by decide),
      CondaMonitor.get_set_self]
    exact hstage
  | filename =>
    rw [CondaMonitor.get_set_self]
    exact hstage

/-! ### Admission -/

section

variable [LawfulSha256Hash H] [InclusionVerifier H] [LawfulInclusionVerifier H] {cp : Checkpoint H}

/-- The log, its sizes and its entries. -/
structure Honest (p : LogPool H) (n : ℕ) (entries : List CondaEntry) (cp : Checkpoint H) :
    Prop where
  reachable : Worker.Reachable p
  size_mem : n ∈ p.shared.sizes
  isLog : CondaLog ((p.shared.log.take n).map Entry.data) entries
  size : cp.size = n
  root : cp.rootHash = mth (p.shared.leaves.take n)

omit [HttpTexts] [Hasher] [LawfulSha256Hash H] [InclusionVerifier H] [LawfulInclusionVerifier H] in
/-- Each entry of the log parses to one of the entries. -/
theorem Honest.entry (h : Honest p n entries cp) {i : ℕ} {entry : Entry H} (hi : i < n)
    (hentry : p.shared.log[i]? = some entry) : ∃ e, entries[i]? = some e ∧
    parseEntry entry.data = .ok e := by
  have hdata :
      (((p.shared.log.take n).map Entry.data).map parseEntry)[i]? =
        some (parseEntry entry.data) := by
    simp [List.getElem?_take_of_lt hi, hentry]
  rw [h.isLog.parses, List.getElem?_map] at hdata
  obtain ⟨e, he, heq⟩ := Option.map_eq_some_iff.mp hdata
  exact ⟨e, he, heq.symm⟩

theorem succeeds_admitEntry (hkey : Function.Injective hashKey) (h : Honest p n entries cp) {i : ℕ}
    (hm : m ≤ i) (hi : i < n)
    {entry : Entry H} (hentry : p.shared.log[i]? = some entry) {client : LogClient H}
    (hc : Cached p.shared.leaves base client)
    (hs : Ready origin part entries m i s) :
    Succeeds p base clock (admitEntry cp client i entry.data)
      (fun client s => Cached p.shared.leaves base client ∧ Ready origin part entries m (i + 1) s)
        s := by
  obtain ⟨e, he, hparse⟩ := h.entry hi hentry
  obtain ⟨memory, hs, hstaged⟩ := hs
  rw [admitEntry]
  refine succeeds_bind (succeeds_client
    (Api.verifyEntry_served h.reachable h.size_mem hc hentry hi h.size h.root) _ hs) ?_
  rintro client s ⟨hs, hc⟩
  refine succeeds_bind (succeeds_validateEntry (fun which => h.isLog.nodup_keys hkey which) hm he
    hparse ⟨memory, hs, hstaged⟩) ?_
  rintro _ s ⟨rfl, hs⟩
  exact ⟨client, rfl, hc, hs⟩

/-- Consecutive entries of the log, those from `m` on. -/
theorem succeeds_admitEntries (hkey : Function.Injective hashKey) (h : Honest p n entries cp)
    (ds : List Bytes) :
    ∀ (client : LogClient H) (k : ℕ) (s : Solo H), k + ds.length ≤ n →
      (∀ j d, ds[j]? = some d → (p.shared.log.map Entry.data)[k + j]? = some d) →
      Cached p.shared.leaves base client →
      Ready origin part entries m (max m k) s →
      Succeeds p base clock (admitEntries cp m client k ds)
        (fun client s => Cached p.shared.leaves base client ∧
        Ready origin part entries m (max m (k + ds.length)) s) s := by
  induction ds with
  | nil => exact fun client k s hk hds hc hs => ⟨client, rfl, hc, hs⟩
  | cons d ds ih =>
    intro client k s hk hds hc hs
    rw [List.length_cons] at hk
    have hrest : ∀ j d, ds[j]? = some d → (p.shared.log.map Entry.data)[k + 1 + j]? = some d := by
      intro j d hj
      have := hds (j + 1) d (by rwa [List.getElem?_cons_succ])
      rwa [← Nat.add_assoc, Nat.add_right_comm] at this
    rw [admitEntries, List.length_cons, Nat.add_comm ds.length, ← Nat.add_assoc]
    split_ifs with hlt
    · rw [show max m k = max m (k + 1) by omega] at hs
      exact ih client (k + 1) s (by omega) hrest hc hs
    · rw [show max m k = k by omega] at hs
      have hd := hds 0 d rfl
      rw [Nat.add_zero, List.getElem?_map] at hd
      obtain ⟨entry, hentry, rfl⟩ := Option.map_eq_some_iff.mp hd
      refine succeeds_bind (succeeds_admitEntry hkey h (by omega) (by omega) hentry hc hs) ?_
      rintro client s ⟨hc, hs⟩
      rw [show k + 1 = max m (k + 1) by omega] at hs
      exact ih client (k + 1) s (by omega) hrest hc hs

/-- Bundles one after the other, up to the size of the checkpoint. -/
theorem succeeds_admitBundles (hkey : Function.Injective hashKey) (h : Honest p n entries cp)
    (hmn : m ≤ n) (count : ℕ) :
    ∀ (client : LogClient H) (b : ℕ) (s : Solo H), (n + 255) / 256 = b + count →
      Cached p.shared.leaves base client →
      Ready origin part entries m (max m (min (b * 256) n)) s →
      Succeeds p base clock (admitBundles cp m client (List.range' b count))
        (fun _ s => Ready origin part entries m n s) s := by
  induction count with
  | zero =>
    intro client b s hb hc hs
    rw [show max m (min (b * 256) n) = n by omega] at hs
    exact ⟨(), rfl, hs⟩
  | succ count ih =>
    intro client b s hb hc hs
    obtain ⟨memory, hs, hstaged⟩ := hs
    have hbundle : (client.bundle b n).Returns (SeenFrom p client.url) (· = .ok
        ⟨seg (p.shared.log.map Entry.data) (tileWidth * b) (LogClient.bundleCount b n)⟩) :=
      Api.bundle_served h.reachable h.size_mem (by rw [tileWidth_eq]; omega)
    obtain ⟨hlog, -⟩ := Api.size_le h.reachable h.size_mem
    rw [List.range'_succ, admitBundles, h.size]
    rw [hc.1] at hbundle
    refine succeeds_bind
      (succeeds_client (Prog.returns_mono (fun x hx => ⟨_, hx, rfl⟩) hbundle) _ hs) ?_
    rintro _ s ⟨hs, rfl⟩
    have hlen : (seg (p.shared.log.map Entry.data) (tileWidth * b)
        (LogClient.bundleCount b n)).length =
        LogClient.bundleCount b n := by
      rw [seg, List.length_take, List.length_drop, List.length_map, tileWidth_eq,
        LogClient.bundleCount]
      omega
    have hends : b * 256 + LogClient.bundleCount b n = min ((b + 1) * 256) n := by
      unfold LogClient.bundleCount
      omega
    have hdata : ∀ j d,
        (seg (p.shared.log.map Entry.data) (tileWidth * b) (LogClient.bundleCount b n))[j]? =
          some d →
        (p.shared.log.map Entry.data)[b * 256 + j]? = some d := by
      intro j d hj
      obtain ⟨hlt, -⟩ := List.getElem?_eq_some_iff.mp hj
      rw [seg, List.getElem?_take_of_lt (hlen ▸ hlt), List.getElem?_drop, tileWidth_eq,
        Nat.mul_comm] at hj
      exact hj
    rw [show min (b * 256) n = b * 256 by omega] at hstaged
    refine succeeds_bind
      (succeeds_admitEntries hkey h _ client (b * 256) s (by rw [hlen]; omega) hdata hc
      ⟨memory, hs, hstaged⟩) ?_
    rintro client s ⟨hc, hs⟩
    rw [hlen, hends] at hs
    exact ih client (b + 1) s (by omega) hc hs

/-- The log as the transaction sees it, with the rows of some of its entries. -/
def Holding (origin : Str) (row : StateRow H) (entries : List CondaEntry) (s : Solo H) : Prop :=
  ∃ memory content, content.Perm (contentRows origin entries) ∧
    Sees origin memory ⟨some row, content⟩ s

theorem succeeds_admitGrowth (hkey : Function.Injective hashKey) (h : Honest p n entries cp)
    (hmn : m < n) {monitor : MonitoringWitness SK VK} {url : Str}
    (hurl : (monitor.logs.find? fun l => l.origin = cp.origin.str).bind LogConfig.url = some url)
    (hbase : (url.reverse.dropWhile (· = '/')).reverse = base) {state : WitnessedState H}
    (hstate : state.size = m) {row : StateRow H}
    {content : List ContentRow} (hrows : content.Perm (contentRows cp.origin.str (entries.take m)))
    (hs : Ready cp.origin.str ⟨some row, content⟩ entries m m s) :
    Succeeds p base clock (admitGrowth monitor cp state)
      (fun _ s => Holding cp.origin.str row entries s) s := by
  obtain ⟨memory, hs, hstaged⟩ := hs
  obtain ⟨hlog, -⟩ := Api.size_le h.reachable h.size_mem
  have hlen : entries.length = n := by
    rw [← h.isLog.length_eq, List.length_map, List.length_take]
    omega
  have hnew : (LogClient.new (H := H) url).Returns (SeenFrom p base)
    (fun x => ∃ client, x = .ok client ∧
      Cached p.shared.leaves base client) := by
    rintro _ rfl
    exact ⟨_, rfl, hbase, fun _ _ _ _ hlook => by cases hlook⟩
  have hcount : (n + 255) / 256 = m / 256 + ((n + 255) / 256 - m / 256) := by omega
  rw [admitGrowth, hurl]
  dsimp only
  refine succeeds_bind (succeeds_client hnew _ hs) ?_
  rintro client s ⟨hs, hc⟩
  rw [hstate, bundleRange, h.size]
  have hready :
      Ready cp.origin.str ⟨some row, content⟩ entries m (max m (min (m / 256 * 256) n)) s := by
    rw [show max m (min (m / 256 * 256) n) = m by omega]
    exact ⟨memory, hs, hstaged⟩
  refine succeeds_bind (succeeds_admitBundles hkey h hmn.le _ client _ s hcount hc hready) ?_
  rintro _ s ⟨memory, hs, hstaged⟩
  have hsplit : entries.take m ++ (entries.take n).drop m = entries := by
    rw [List.take_of_length_le hlen.le, List.take_append_drop]
  refine succeeds_weaken ?_
    (succeeds_commitEntries hkey (by rw [hsplit]; exact h.isLog) hstaged hrows hs)
  rintro _ s ⟨memory, content, hperm, hs⟩
  rw [hsplit] at hperm
  exact ⟨memory, content, hperm, hs⟩

/-! ### The request -/

variable [NoteCrypto SK VK]

omit [NoteCrypto SK VK] in
/-- The rows of all entries, whether the checkpoint has more of them or none. -/
theorem succeeds_growth (hkey : Function.Injective hashKey) (h : Honest p n entries cp)
    (hmn : m ≤ n) {monitor : MonitoringWitness SK VK} {url : Str}
    (hurl : (monitor.logs.find? fun l => l.origin = cp.origin.str).bind LogConfig.url = some url)
    (hbase : (url.reverse.dropWhile (· = '/')).reverse = base) {state : WitnessedState H}
    (hstate : state.size = m) {row : StateRow H}
    (hs : Holding cp.origin.str row (entries.take m) s) {f : Unit → MonitorProg H α}
    {P : α → Solo H → Prop}
    (hf : ∀ s, Holding cp.origin.str row entries s → Succeeds p base clock (f ()) P s) :
    Succeeds p base clock (rollbackEntries.bind fun _ => (loadState cp.origin.str).bind fun _ =>
      if state.size < cp.size then (admitGrowth monitor cp state).bind f else f ()) P s := by
  obtain ⟨memory, content, hrows, hs⟩ := hs
  obtain ⟨hlog, hmax⟩ := Api.size_le h.reachable h.size_mem
  have hlen : entries.length = n := by
    rw [← h.isLog.length_eq, List.length_map, List.length_take]
    omega
  have hbound : (((p.shared.log.take n).map Entry.data).take m).length ≤ i64Max := by
    rw [List.length_take]
    omega
  refine succeeds_bind (succeeds_rollbackEntries hs) ?_
  rintro _ s ⟨memory, hs, hpending⟩
  refine succeeds_bind (succeeds_loadState hkey (h.isLog.take m) hbound hrows hpending hs) ?_
  rintro _ s ⟨memory, hs, hstaged⟩
  split_ifs with hgrowth
  · rw [hstate, h.size] at hgrowth
    refine succeeds_bind (succeeds_admitGrowth hkey h hgrowth hurl hbase hstate hrows
      ⟨memory, hs, fun which => ?_⟩) fun _ => hf
    rw [List.drop_of_length_le (List.length_take_le _ _)]
    exact hstaged which
  · rw [hstate, h.size] at hgrowth
    rw [List.take_of_length_le (by omega)] at hrows
    exact hf s ⟨memory, content, hrows, hs⟩

/-- With the row of the entries up to `m` locked, the transaction leaves that of all entries. -/
theorem succeeds_updateLocked (hkey : Function.Injective hashKey) (h : Honest p n entries cp)
    (hmn : m ≤ n) {monitor : MonitoringWitness SK VK} {url : Str}
    (hurl : (monitor.logs.find? fun l => l.origin = cp.origin.str).bind LogConfig.url = some url)
    (hbase : (url.reverse.dropWhile (· = '/')).reverse = base) {request : AddCheckpointRequest H}
    {row : StateRow H} (hsize : row.size = m) (hroot : row.rootHash = mth (p.shared.leaves.take m))
    (hs : Holding cp.origin.str row (entries.take m) s) :
    Succeeds p base clock
      (updateLocked monitor request cp ⟨cp.origin.str, m, mth (p.shared.leaves.take m)⟩)
      (fun signature s => signature = monitor.signer.cosignV1 cp clock ∧ s.txn = none ∧ ∃ content,
        content.Perm (contentRows cp.origin.str entries) ∧
          s.db.part cp.origin.str =
            ⟨some ⟨n, mth (p.shared.leaves.take n), request.checkpoint⟩, content⟩) s := by
  obtain ⟨-, hmax⟩ := Api.size_le h.reachable h.size_mem
  have hsize' : row.size = asI64 m := hsize.trans (Storage.asI64_natCast (by omega)).symm
  have hbound : cp.size ≤ i64Max := by rwa [h.size]
  have hle : m ≤ cp.size := by rwa [h.size]
  have hsame : cp.size = m → cp.rootHash = mth (p.shared.leaves.take m) := by
    rintro heq
    rw [h.root, ← h.size, heq]
  refine succeeds_growth hkey h hmn hurl hbase rfl hs ?_
  rintro s ⟨memory, content, hrows, hs⟩
  have hupdate : Succeeds p base clock (inTransaction (WitnessStateStore.update
        (⟨cp.origin.str, m, mth (p.shared.leaves.take m)⟩ : WitnessedState H) cp.size cp.rootHash
          request.checkpoint))
      (fun updated s => updated = true ∧ Sees cp.origin.str memory
        (LogPart.write ⟨some row, content⟩
          (.state cp.origin.str ⟨cp.size, cp.rootHash, request.checkpoint⟩)) s) s := by
    refine succeeds_update rfl rfl ?_ ?_ ?_ ?_ ?_ hs
    exacts [hsize', hroot, hle, hsame, hbound]
  refine succeeds_bind (succeeds_mapErr hupdate) ?_
  rintro _ s ⟨rfl, hs⟩
  rw [if_pos rfl]
  refine succeeds_bind (succeeds_commit hs) ?_
  rintro _ s ⟨htxn, hpart⟩
  refine succeeds_bind (P := fun now t => now = .ok clock ∧ t = s)
    (succeeds_call fun web => ⟨rfl, rfl⟩) ?_
  rintro _ _ ⟨rfl, rfl⟩
  refine ⟨_, rfl, rfl, htxn, content, hrows, ?_⟩
  rw [hpart, LogPart.write, h.size, h.root]

omit [InclusionVerifier H] [LawfulInclusionVerifier H] [EntryJson] [Hasher] [LawfulSha256Hash H] in
/-- What is read or inserted before the transaction. -/
theorem succeeds_onDatabase {prog : Store H ε α}
    (hcalls : prog.Calls fun o => ∃ origin, o = .get origin ∨ o = .insertInitial origin)
    (htxn : s.txn = none) {a : α} {db : WitnessDb H}
    (hrun : runAlone (WitnessDb.answer clock) prog s.db.witness = (.ok a, db)) :
    Succeeds p base clock (onDatabase prog)
      (fun b t => b = a ∧ t = { s with db := { s.db with witness := db } }) s := by
  induction prog generalizing s with
  | pure b =>
    obtain ⟨rfl, rfl⟩ : b = a ∧ s.db.witness = db := by simpa [runAlone] using hrun
    exact ⟨b, rfl, rfl, rfl⟩
  | fail e => simp [runAlone] at hrun
  | op o k ih =>
    refine ⟨trivial, fun r s' he => ?_⟩
    obtain ⟨db', txn, memory⟩ := s
    obtain rfl : txn = none := htxn
    cases he with
    | answer web _ =>
      obtain ⟨origin, rfl | rfl⟩ := hcalls.1
      · exact ih _ (hcalls.2 _) rfl hrun
      · exact ih (.ok ()) (s := ⟨⟨db'.witness.insertInitial origin, db'.content⟩, none, memory⟩)
          (hcalls.2 _) rfl hrun

/-- No transaction is open, and the log is persisted up to `m`. -/
structure Persisted (origin : Str) (leaves : List H) (entries : List CondaEntry) (m : ℕ)
    (s : Solo H) : Prop where
  idle : s.txn = none
  row : RowOf origin (leaves.take m) s.db.witness
  content : (s.db.part origin).content.Perm (contentRows origin (entries.take m))

/-- The witness has the key of the log and reads it from `base`. -/
structure Watches (monitor : MonitoringWitness SK VK) (signer : CheckpointSigner SK)
    (origin : Origin) (base : Str) : Prop where
  config : ∃ config url, monitor.logs.find? (fun l => l.origin = origin.str) = some config ∧
    config.verifyingKey = NoteCrypto.verifyingKey signer.signingKey ∧ config.keyId = signer.keyId ∧
    config.keyName = signer.name ∧ config.url = some url ∧
    (url.reverse.dropWhile (· = '/')).reverse = base

variable [DecodeErrors] [LawfulNoteCrypto SK VK] {signer : CheckpointSigner SK} {head : Origin}
  {D : List H} {cosigned : CosignedCheckpoint H} {monitor : MonitoringWitness SK VK}

omit [DecidableEq H] [HttpTexts] [InclusionVerifier H] [LawfulInclusionVerifier H] [EntryJson]
  [Hasher] in
theorem Watches.checkRequest (hwatches : Watches monitor signer head base)
    (hsigned : SignedHead signer head D cosigned)
    (hD : D.length ≤ i64Max) (hmn : m ≤ D.length) (proof : List H) :
    checkRequest monitor ⟨m, proof, joinLines cosigned.noteLines⟩ = .ok cosigned := by
  obtain ⟨config, url, hfind, hkey, hid, hname, -, -⟩ := hwatches.config
  have hconfig : config.origin = head.str := by simpa using List.find?_some hfind
  have hlog : Signed SK monitor.logs cosigned := by
    refine ⟨config, ?_, hsigned.verify hconfig hkey hid hname⟩
    rw [hsigned.head]
    exact hfind
  have hsize : cosigned.checkpoint.size = D.length := by rw [hsigned.head]
  exact (monitor_checkRequest hsigned.fromText hlog).mpr ⟨rfl, hsize ▸ hD, hsize ▸ hmn⟩

omit [LawfulSha256Hash H] [InclusionVerifier H] [LawfulInclusionVerifier H] [EntryJson] [Hasher]
  [HttpTexts]
  [NoteCrypto SK VK] [DecodeErrors] [LawfulNoteCrypto SK VK] in
/-- A request from the size of the state passes. -/
theorem checkState_proofFrom (hmn : m ≤ D.length) (hD : D.length ≤ i64Max) (origin text : Str) :
    checkState ⟨m, proofFrom m D, text⟩ D.length (mth D) ⟨origin, m, mth (D.take m)⟩ = .ok () := by
  refine monitor_checkState.mpr ⟨rfl, ?_⟩
  change verifyConsistency m D.length (mth (D.take m)) (mth D) (proofFrom m D) = .ok ()
  rcases Nat.eq_zero_or_pos m with rfl | hpos
  · rcases Nat.eq_zero_or_pos D.length with hzero | hD'
    · rw [hzero]
      refine verifyConsistency_same.mpr ⟨if_neg (by simp), ?_⟩
      rw [List.length_eq_zero_iff.mp hzero, List.take_nil]
    · exact (verifyConsistency_zero hD').mpr ⟨if_neg (by simp), mth_empty⟩
  · rcases hmn.eq_or_lt with rfl | hlt
    · refine verifyConsistency_same.mpr ⟨if_neg (by simp), ?_⟩
      rw [List.take_length]
    · rw [proofFrom, if_pos (by omega)]
      exact verifyConsistency_complete hmn hD hpos

omit [LawfulSha256Hash H] [InclusionVerifier H] [LawfulInclusionVerifier H] [EntryJson] [Hasher]
  [NoteCrypto SK VK]
  [DecodeErrors] [LawfulNoteCrypto SK VK] in
theorem succeeds_getOrInit {E : List H} (htxn : s.txn = none) (hrow : RowOf origin E s.db.witness)
    (hE : E.length ≤ i64Max) :
    Succeeds p base clock (onDatabase (WitnessStateStore.getOrInit origin))
      (fun state t => state = ⟨origin, E.length, mth E⟩ ∧
      t.txn = none ∧ (t.db.part origin).content = (s.db.part origin).content ∧
        ∃ checkpoint, (t.db.part origin).row = some ⟨E.length, mth E, checkpoint⟩) s := by
  obtain ⟨db, hrun, hdb⟩ := runAlone_getOrInit clock hrow hE
  have hcalls : (WitnessStateStore.getOrInit (H := H) origin).Calls fun o => ∃ origin, o =
    .get origin ∨ o = .insertInitial origin := by
    refine ⟨⟨origin, .inl rfl⟩, fun r => ?_⟩
    rcases r with e | (_ | state)
    · trivial
    · refine ⟨⟨origin, .inr rfl⟩, fun r => ?_⟩
      rcases r with e | u
      · trivial
      · refine ⟨⟨origin, .inl rfl⟩, fun r => ?_⟩
        rcases r with e | (_ | state)
        · trivial
        · trivial
        · trivial
    · trivial
  refine succeeds_weaken ?_ (succeeds_onDatabase hcalls htxn hrun)
  rintro _ _ ⟨rfl, rfl⟩
  exact ⟨rfl, htxn, rfl, _, hdb⟩

omit [LawfulInclusionVerifier H] [InclusionVerifier H] [EntryJson] [Hasher] in
/-- The checks before the transaction pass, and the row of the log is there then. -/
theorem succeeds_admission (hwatches : Watches monitor signer head base)
    (hsigned : SignedHead signer head D cosigned)
    (hmn : m ≤ D.length) (hD : D.length ≤ i64Max)
    (horigin : cosigned.checkpoint.origin.str = origin) (htxn : s.txn = none)
    (hrow : RowOf origin (D.take m) s.db.witness) :
    Succeeds p base clock
      (onDatabase (admission monitor ⟨m, proofFrom m D, joinLines cosigned.noteLines⟩))
      (fun x t => x = (cosigned, ⟨origin, m, mth (D.take m)⟩) ∧ t.txn = none ∧
        (t.db.part origin).content = (s.db.part origin).content ∧
          ∃ checkpoint, (t.db.part origin).row = some ⟨m, mth (D.take m), checkpoint⟩) s := by
  have hE : (D.take m).length = m := by
    rw [List.length_take]
    omega
  have hcp : cosigned.checkpoint.size = D.length ∧ cosigned.checkpoint.rootHash = mth D := by
    rw [hsigned.head]
    exact ⟨rfl, rfl⟩
  rw [admission, hwatches.checkRequest hsigned hD hmn]
  simp only [Prog.bind_eq, onDatabase_bind, onDatabase_mapErr, onDatabase_ofExcept]
  refine succeeds_bind (P := fun c t => c = cosigned ∧ t = s) ⟨cosigned, rfl, rfl, rfl⟩ ?_
  rintro _ s ⟨rfl, rfl⟩
  rw [horigin, hcp.1, hcp.2]
  refine succeeds_bind (succeeds_mapErr (succeeds_getOrInit htxn hrow (by omega))) ?_
  rintro _ t ⟨rfl, hrest⟩
  rw [hE] at hrest ⊢
  rw [checkState_proofFrom hmn hD]
  exact ⟨_, rfl, rfl, hrest⟩

theorem succeeds_addLocked (hkey : Function.Injective hashKey)
    (h : Honest p n entries cosigned.checkpoint)
    (hsigned : SignedHead signer head (p.shared.leaves.take n) cosigned)
    (hwatches : Watches monitor signer head base)
    (hmn : m ≤ n) (hs : Persisted cosigned.checkpoint.origin.str p.shared.leaves entries m s) :
    Succeeds p base clock
      (addLocked monitor ⟨m, proofFrom m (p.shared.leaves.take n), joinLines cosigned.noteLines⟩)
      (fun signature s => signature = monitor.signer.cosignV1 cosigned.checkpoint clock ∧
        s.txn = none ∧ ∃ content,
        content.Perm (contentRows cosigned.checkpoint.origin.str entries) ∧
        s.db.part cosigned.checkpoint.origin.str =
          ⟨some ⟨n, mth (p.shared.leaves.take n), joinLines cosigned.noteLines⟩, content⟩) s := by
  obtain ⟨hle, hmax⟩ := Api.size_le h.reachable h.size_mem
  obtain ⟨htxn, hrow, hcontent⟩ := hs
  have hD : (p.shared.leaves.take n).length = n := by
    rw [Worker.LogSystem.leaves, List.length_take, List.length_map]
    exact Nat.min_eq_left hle
  have htake : (p.shared.leaves.take n).take m = p.shared.leaves.take m := by
    rw [List.take_take, Nat.min_eq_left hmn]
  obtain ⟨config, url, hfind, -, -, -, hurl, hbase⟩ := hwatches.config
  have hconfig : (monitor.logs.find? fun l => l.origin = cosigned.checkpoint.origin.str).bind
      LogConfig.url = some url := by
    rw [hsigned.head, hfind]
    exact hurl
  rw [← htake] at hrow
  rw [addLocked]
  refine succeeds_bind
    (succeeds_admission hwatches hsigned (hD.symm ▸ hmn) (hD.trans_le hmax) rfl htxn hrow) ?_
  rintro _ ⟨db, _, memory⟩ ⟨rfl, rfl, hsame, checkpoint, hput⟩
  rw [htake] at hput ⊢
  rw [← hsame] at hcontent
  have hmatch : (Txn.view ⟨[], []⟩ db).witness.Matching
      ⟨cosigned.checkpoint.origin.str, m, mth (p.shared.leaves.take m)⟩ :=
    ⟨_, hput, (Storage.asI64_natCast (by omega)).symm, rfl⟩
  refine succeeds_bind (P := fun _ t => t = ⟨db, some ⟨[], []⟩, memory⟩)
    (succeeds_perform (fun web => ⟨rfl, rfl⟩) rfl) ?_
  rintro _ _ rfl
  refine succeeds_bind (P := fun locked t => locked = true ∧ Holding cosigned.checkpoint.origin.str
      ⟨m, mth (p.shared.leaves.take m), checkpoint⟩ (entries.take m) t) (succeeds_perform
        (t := ⟨db, some ⟨[cosigned.checkpoint.origin.str], []⟩, memory⟩) (a := true) (fun web => ?_)
          ?_) ?_
  · dsimp only [Solo.answer]
    rw [if_pos hmatch]
    exact ⟨rfl, rfl⟩
  · exact ⟨rfl, memory, _, hcontent, rfl, _, rfl, by rw [← hput]; rfl⟩
  · rintro _ s ⟨rfl, hs⟩
    exact succeeds_updateLocked hkey h hmn hconfig hbase rfl rfl hs

omit [InclusionVerifier H] [LawfulInclusionVerifier H] [HttpTexts] [NoteCrypto SK VK] [DecodeErrors]
  [LawfulNoteCrypto SK VK]
  [DecidableEq H] [LawfulSha256Hash H] in
/-- What is persisted is so as the log grows. -/
theorem Persisted.mono {X Y : List (Entry H)} (hXY : X <+: Y) (hn : n ≤ X.length) (hmn : m ≤ n)
    (hlog : CondaLog ((X.take n).map Entry.data) old) {k : ℕ} (hnk : n ≤ k)
    (hlog' : CondaLog ((Y.take k).map Entry.data) new)
    (h : Persisted origin (X.map Entry.leafHash) old m s) :
    Persisted origin (Y.map Entry.leafHash) new m s := by
  have htake : Y.take m = X.take m := by
    obtain ⟨E, rfl⟩ := hXY
    exact List.take_append_of_le_length (by omega)
  have hparses :
      (new.take m).map Except.ok = (old.take m).map (Except.ok (ε := ValidationError)) := by
    rw [List.map_take, List.map_take, ← hlog.parses, ← hlog'.parses, ← List.map_take,
      ← List.map_take, ← List.map_take,
      ← List.map_take, List.take_take, List.take_take, Nat.min_eq_left hmn,
      Nat.min_eq_left (hmn.trans hnk), htake]
  have hentries : new.take m = old.take m :=
    List.map_injective_iff.mpr (fun _ _ h => Except.ok.inj h) hparses
  obtain ⟨hidle, hrow, hcontent⟩ := h
  rw [← List.map_take] at hrow
  rw [← hentries] at hcontent
  refine ⟨hidle, ?_, hcontent⟩
  rw [← List.map_take, htake]
  exact hrow

/-- An honest log is cosigned: while it goes on, the witness that has persisted some of its
entries fetches the rest, finds them valid, and signs its checkpoint. What it has persisted
then is what the next request starts from. -/
theorem addCheckpoint_served (hkey : Function.Injective hashKey) (hp : Worker.Reachable p)
    (hn : n ∈ p.shared.sizes) (hlog : CondaLog ((p.shared.log.take n).map Entry.data) entries)
    (hsigned : SignedHead signer head (p.shared.leaves.take n) cosigned)
    (hwatches : Watches monitor signer head base)
    (hmn : m ≤ n) (hs : Persisted head.str p.shared.leaves entries m s) :
    Succeeds p base clock
      (addCheckpoint monitor
        ⟨m, proofFrom m (p.shared.leaves.take n), joinLines cosigned.noteLines⟩)
      (fun signature s => signature = monitor.signer.cosignV1 cosigned.checkpoint clock ∧
        ∀ q k more, Relation.ReflTransGen logSys.Step p q → n ≤ k →
          CondaLog ((q.shared.log.take k).map Entry.data) more →
          Persisted head.str q.shared.leaves more n s) s := by
  obtain ⟨hle, hmax⟩ := Api.size_le hp hn
  have hD : (p.shared.leaves.take n).length = n := by
    rw [Worker.LogSystem.leaves, List.length_take, List.length_map]
    exact Nat.min_eq_left hle
  have hlen : entries.length = n := by
    rw [← hlog.length_eq, List.length_map, List.length_take]
    omega
  have hhead := hsigned.head
  rw [hD] at hhead
  have hhonest : Honest p n entries cosigned.checkpoint :=
    ⟨hp, hn, hlog, by rw [hhead], by rw [hhead]⟩
  have horigin : cosigned.checkpoint.origin.str = head.str := by rw [hhead]
  rw [← horigin] at hs ⊢
  rw [addCheckpoint]
  refine succeeds_bind (succeeds_attempt (succeeds_addLocked hkey hhonest hsigned hwatches hmn hs))
    ?_
  rintro _ ⟨db, txn, memory⟩ ⟨signature, rfl, rfl, -, content, hcontent, hpart⟩
  refine succeeds_bind (P := fun _ t => t = ⟨db, none, memory⟩) (succeeds_call fun web => rfl) ?_
  rintro _ _ rfl
  refine ⟨_, rfl, rfl, fun q k more hpq hnk hmore => ?_⟩
  refine Persisted.mono (Worker.run_le hp hpq).log hle le_rfl hlog hnk hmore ⟨rfl, ?_, ?_⟩
  · have hrow : db.witness.rows cosigned.checkpoint.origin.str = some _ :=
      congrArg LogPart.row hpart
    change RowOf _ (p.shared.leaves.take n) _
    rw [RowOf, hrow, hD]
    exact ⟨rfl, rfl⟩
  · change (db.part cosigned.checkpoint.origin.str).content.Perm _
    rw [show db.part cosigned.checkpoint.origin.str = _ from hpart, List.take_of_length_le hlen.le]
    exact hcontent

end

end Siglog.Monitor

/-! ### Three entries -/

namespace Siglog.Monitor

open Note (CosignedCheckpoint startSigner)
open Rfc (mth)
open Text (Str joinLines)
open Witness (AddCheckpointRequest SignedHead proofFrom)
open Worker (LogPool cycled threePending twoCycles twoCycles_size)

attribute [local instance] nameJson sameHasher Text.Base64.plainErrors Witness.plainTexts
  Merkle.rootVerifier Merkle.rootVerifier_lawful

/-- The request of a log of three leaves to a witness that has seen nothing. -/
def firstRequest (D : List StartHash) : AddCheckpointRequest StartHash :=
  ⟨0, proofFrom 0 D,
    joinLines (CosignedCheckpoint.new ⟨Note.logOrigin, D.length, mth D⟩ startSigner).noteLines⟩

/-- Where the log is. -/
def oneBase : Str := "https://log".toList

theorem watches_one : Watches oneMonitor startSigner Note.logOrigin oneBase :=
  ⟨_, _, rfl, rfl, rfl, rfl, rfl, by decide⟩

attribute [local irreducible] Succeeds

theorem addCheckpoint_served_three : ∃ p : LogPool StartHash, Worker.Reachable p ∧
    p.shared.size = 3 ∧
    Succeeds p oneBase 0 (addCheckpoint oneMonitor (firstRequest (p.shared.leaves.take 3)))
      (fun signature _ =>
      signature = startSigner.cosignV1 ⟨Note.logOrigin, 3, mth (p.shared.leaves.take 3)⟩ 0)
      .init := by
  obtain ⟨ts, h⟩ := twoCycles
  have hsize := twoCycles_size
  have hdata : ((cycled 10 (cycled 2 threePending)).log.take 3).map Entry.data =
      [[1], [2], [3]] := by decide +kernel
  have hlength : ((cycled 10 (cycled 2 threePending)).leaves.take 3).length = 3 := by decide +kernel
  generalize cycled 10 (cycled 2 threePending) = s at h hsize hdata hlength
  have hmem : 3 ∈ s.sizes := hsize ▸ (Worker.reachable_inv h).size_mem
  have hkey : Function.Injective hashKey := Text.Hex.encode_injective.comp Text.utf8_injective
  have hlog : CondaLog [[1], [2], [3]]
      [⟨[.ofNat 1], [.ofNat 1]⟩, ⟨[.ofNat 2], [.ofNat 2]⟩, ⟨[.ofNat 3], [.ofNat 3]⟩] :=
    ⟨rfl, by decide, by decide⟩
  have hsigned := SignedHead.new startSigner Note.logOrigin (by decide) (by decide)
    (D := s.leaves.take 3) (by rw [hlength]; decide)
  have hfirst : Persisted Note.logOrigin.str s.leaves
      [⟨[.ofNat 1], [.ofNat 1]⟩, ⟨[.ofNat 2], [.ofNat 2]⟩, ⟨[.ofNat 3], [.ofNat 3]⟩] 0
      (.init : Solo StartHash) :=
    ⟨rfl, rfl, .refl _⟩
  have hserved : Succeeds ⟨s, ts⟩ oneBase 0 _ _ _ :=
    addCheckpoint_served hkey h hmem (hdata ▸ hlog) hsigned watches_one (Nat.zero_le 3) hfirst
  have hcp : (CosignedCheckpoint.new
      ⟨Note.logOrigin, (s.leaves.take 3).length, mth (s.leaves.take 3)⟩ startSigner).checkpoint =
    ⟨Note.logOrigin, 3, mth (s.leaves.take 3)⟩ := by rw [hlength]; rfl
  refine ⟨⟨s, ts⟩, h, hsize, ?_⟩
  refine succeeds_weaken ?_ hserved
  rintro signature _ ⟨rfl, -⟩
  rw [hcp]
  rfl

end Siglog.Monitor

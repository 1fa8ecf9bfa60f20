import Siglog.Monitor.Locked

/-! The content of a log inside its transaction. The indices in memory are those of the
persisted entries, with what has been admitted since then pending. Each entry that is
admitted has an inclusion proof, and its keys are new. What is saved in the end are the rows
of all entries. -/

namespace Siglog.Monitor

open Concurrent (Prog)
open Merkle (InclusionVerifier LawfulInclusionVerifier)
open Note (Checkpoint NoteCrypto)
open Rfc (VerifyInclusion)
open Storage (asI64 asU64)
open Text (Str)
open Text.Base64 (DecodeErrors)

variable {SK VK H : Type} [NoteCrypto SK VK] [DecodeErrors] [Sha256Hash H] [EntryJson] [Hasher]
variable {monitors : ℕ → MonitoringWitness SK VK} {i : ℕ} {s : MonitorSystem H}
variable {origin : Str} {memory : CondaMonitor} {part : LogPart H}
variable {log added : List Bytes} {old new : List CondaEntry}

/-! ### Keys -/

section

omit [DecodeErrors]

omit [Hasher] in
theorem CondaLog.length_eq (h : CondaLog log old) : log.length = old.length := by
  simpa using congrArg List.length h.parses

omit [Hasher] in
/-- No filename occurs twice. -/
theorem CondaLog.filenames (h : CondaLog log old) : (old.map CondaEntry.filename).Nodup := by
  have hpairs : old.Pairwise fun a b => a.sha256 ≠ b.sha256 := List.pairwise_map.mp h.sha256
  apply List.pairwise_map.mpr
  exact hpairs.imp_of_mem fun ha hb hne heq => hne (h.filename _ ha _ hb heq)

theorem CondaLog.nodup_keys (hkey : Function.Injective hashKey) (h : CondaLog log old)
    (which : CondaIndex) :
    (old.map which.key).Nodup := by
  cases which with
  | sha256 => exact List.map_map (f := CondaEntry.sha256) (g := hashKey) ▸ h.sha256.map hkey
  | filename => exact List.map_map (f := CondaEntry.filename) (g := hashKey) ▸ h.filenames.map hkey

omit [Hasher] in
/-- One more entry, with a SHA-256 and a filename that have not been seen. -/
theorem CondaLog.concat (h : CondaLog log old) {data : Bytes} {entry : CondaEntry}
    (hparse : parseEntry data = .ok entry)
    (hsha : ∀ e ∈ old, e.sha256 ≠ entry.sha256) (hfile : ∀ e ∈ old, e.filename ≠ entry.filename) :
    CondaLog (log ++ [data]) (old ++ [entry]) where
  parses := by simp [h.parses, hparse]
  sha256 := by
    rw [List.map_append, List.map_singleton, ← List.concat_eq_append, List.nodup_concat]
    refine ⟨?_, h.sha256⟩
    intro hmem
    obtain ⟨e, he, heq⟩ := List.mem_map.mp hmem
    exact hsha e he heq
  filename a ha b hb heq := by
    rcases List.mem_append.mp ha with ha | ha
    · rcases List.mem_append.mp hb with hb | hb
      · exact h.filename a ha b hb heq
      · rw [List.mem_singleton.mp hb] at heq
        exact absurd heq (hfile a ha)
    · rcases List.mem_append.mp hb with hb | hb
      · rw [List.mem_singleton.mp ha] at heq
        exact absurd heq.symm (hfile b hb)
      · rw [List.mem_singleton.mp ha, List.mem_singleton.mp hb]

/-! ### The indices in memory -/

/-- An index with the persisted entries, and those that have been admitted pending. -/
structure Staged (which : CondaIndex) (idx : ContentIndex) (old new : List CondaEntry) : Prop where
  index : ∀ key v, idx.index key = some v ↔
    ∃ i entry, old[i]? = some entry ∧ key = which.key entry ∧ v = (i, which.value entry)
  pending : idx.pending = which.pending old.length new

omit [EntryJson] [Hasher] in
theorem contentMap_eq_some {rows : List ContentRow} (h : (rows.map ContentRow.key).Nodup)
    {key : Str} {v : ℕ × Option Str} :
    contentMap rows key = some v ↔ ∃ row ∈ rows, key = row.key ∧
    v = (asU64 row.firstIndex, row.value) := by
  induction rows using List.reverseRecOn with
  | nil => simp [contentMap]
  | append_singleton rows row ih =>
    rw [List.map_append, List.map_singleton, ← List.concat_eq_append, List.nodup_concat] at h
    rw [contentMap, List.foldl_append]
    change Function.update (contentMap rows) row.key _ key = some v ↔ _
    by_cases hk : key = row.key
    · subst hk
      rw [Function.update_self]
      constructor
      · intro hv
        exact ⟨row, by simp, rfl, (Option.some.inj hv).symm⟩
      · rintro ⟨row', hmem, hkey, rfl⟩
        rcases List.mem_append.mp hmem with hmem | hmem
        · exact absurd (List.mem_map.mpr ⟨row', hmem, hkey.symm⟩) h.1
        · rw [List.mem_singleton.mp hmem]
    · rw [Function.update_of_ne hk, ih h.2]
      simp [hk]

omit [EntryJson] in
/-- The rows of a log are loaded into the map of its entries. -/
theorem contentMap_rows {rows : List ContentRow} {which : CondaIndex} (hbound : old.length ≤ i64Max)
    (hnodup : (old.map which.key).Nodup) (h : rows.Perm (which.rows origin 0 old)) (key : Str)
    (v : ℕ × Option Str) :
    contentMap rows key = some v ↔ ∃ i entry, old[i]? = some entry ∧ key = which.key entry ∧
    v = (i, which.value entry) := by
  have hkeys : (rows.map ContentRow.key).Nodup := by
    rw [(h.map ContentRow.key).nodup_iff, CondaIndex.map_key_rows]
    exact hnodup
  have hindex : ∀ i (entry : CondaEntry), old[i]? = some entry → asU64 (asI64 i) = i := by
    intro i entry hi
    obtain ⟨hlt, -⟩ := List.getElem?_eq_some_iff.mp hi
    rw [Storage.asI64_natCast (by omega), Storage.asU64_natCast (by omega)]
  rw [contentMap_eq_some hkeys]
  constructor
  · rintro ⟨row, hrow, rfl, rfl⟩
    obtain ⟨e, he, rfl⟩ := List.mem_map.mp (h.mem_iff.mp hrow)
    obtain ⟨i, entry, hi, rfl⟩ := CondaIndex.mem_pending.mp he
    refine ⟨i, entry, hi, rfl, ?_⟩
    rw [PendingEntry.row, Nat.zero_add, hindex i entry hi]
  · rintro ⟨i, entry, hi, rfl, rfl⟩
    have hmem : (⟨which.key entry, 0 + i, which.value entry⟩ : PendingEntry) ∈
        which.pending 0 old :=
      CondaIndex.mem_pending.mpr ⟨i, entry, hi, rfl⟩
    refine ⟨_, h.mem_iff.mpr (List.mem_map_of_mem hmem), rfl, ?_⟩
    rw [PendingEntry.row, Nat.zero_add, hindex i entry hi]

omit [EntryJson] in
theorem Staged.mem_pending {which : CondaIndex} {idx : ContentIndex} (h : Staged which idx old new)
    {e : PendingEntry} (he : e ∈ idx.pending) : ∃ i entry, new[i]? = some entry ∧
    e = ⟨which.key entry, old.length + i, which.value entry⟩ := by
  rw [h.pending] at he
  exact CondaIndex.mem_pending.mp he

omit [EntryJson] in
/-- The keys of all entries are there. -/
theorem Staged.ne_of_fresh {which : CondaIndex} {idx : ContentIndex} (h : Staged which idx old new)
    {key : Str} (hfresh : idx.Fresh key) : ∀ entry ∈ old ++ new, which.key entry ≠ key := by
  intro entry hentry heq
  rcases List.mem_append.mp hentry with hmem | hmem
  · obtain ⟨i, hi⟩ := List.mem_iff_getElem?.mp hmem
    have := (h.index key (i, which.value entry)).mpr ⟨i, entry, hi, heq.symm, rfl⟩
    rw [hfresh.index] at this
    cases this
  · obtain ⟨i, hi⟩ := List.mem_iff_getElem?.mp hmem
    refine hfresh.pending ⟨which.key entry, old.length + i, which.value entry⟩ ?_ heq
    rw [h.pending]
    exact CondaIndex.mem_pending.mpr ⟨i, entry, hi, rfl⟩

omit [EntryJson] in
theorem Staged.stage {which : CondaIndex} {idx : ContentIndex} (h : Staged which idx old new)
    {entry : CondaEntry} (hfresh : idx.Fresh (which.key entry)) :
    Staged which (idx.stage (which.key entry) (old.length + new.length) (which.value entry)) old
      (new ++ [entry]) := by
  rw [hfresh.stage]
  refine ⟨h.index, ?_⟩
  change idx.pending ++ _ = _
  rw [h.pending, CondaIndex.pending_append]
  rfl

end

/-! ### Loading -/

theorem runs_rollbackEntries (hs : Holds i origin memory part s) :
    Runs monitors i rollbackEntries (fun _ s =>
    ∃ memory, Holds i origin memory part s ∧ ∀ which, (memory.get which).pending = []) s := by
  rw [rollbackEntries]
  refine runs_bind (runs_index .sha256 .rollback hs) ?_
  rintro _ s ⟨-, hs⟩
  refine runs_weaken ?_ (runs_index .filename .rollback hs)
  rintro _ s ⟨-, hs⟩
  refine ⟨_, hs, fun which => ?_⟩
  cases which with
  | sha256 =>
    rw [CondaMonitor.get_set_ne _ (show CondaIndex.sha256 ≠ .filename by decide),
      CondaMonitor.get_set_self]
    rfl
  | filename =>
    rw [CondaMonitor.get_set_self]
    rfl

theorem runs_loadIndex (which : CondaIndex) (hs : Holds i origin memory part s) :
    Runs monitors i (loadIndex which origin) (fun _ s =>
    Holds i origin (memory.set which ((memory.get which).loadFrom
      (contentMap (part.content.filter fun row => row.indexName = which.name)))) part s) s := by
  rw [loadIndex]
  refine runs_bind (runs_loadRows which.name hs) ?_
  rintro _ s ⟨rfl, hs⟩
  exact runs_weaken (fun _ _ h => h.2) (runs_index which _ hs)

/-- With nothing pending, both indices are loaded with the persisted entries. -/
theorem runs_loadState (hkey : Function.Injective hashKey) (hlog : CondaLog log old)
    (hbound : log.length ≤ i64Max) (hrows : part.content.Perm (contentRows origin old))
    (hpending : ∀ which, (memory.get which).pending = [])
    (hs : Holds i origin memory part s) :
    Runs monitors i (loadState origin) (fun _ s => ∃ memory, Holds i origin memory part s ∧
      ∀ which, Staged which (memory.get which) old []) s := by
  have hstaged : ∀ which, Staged which ((memory.get which).loadFrom
      (contentMap (part.content.filter fun row => row.indexName = which.name))) old [] := by
    intro which
    have hperm := hrows.filter fun row => row.indexName = which.name
    rw [filter_contentRows] at hperm
    exact ⟨contentMap_rows (hlog.length_eq ▸ hbound) (hlog.nodup_keys hkey which) hperm,
      hpending which⟩
  rw [loadState]
  refine runs_bind (runs_loadIndex .sha256 hs) fun _ s hs => ?_
  refine runs_weaken ?_ (runs_loadIndex .filename hs)
  intro _ s hs
  rw [CondaMonitor.get_set_ne _ (show CondaIndex.filename ≠ .sha256 by decide)] at hs
  refine ⟨_, hs, fun which => ?_⟩
  cases which with
  | sha256 =>
    rw [CondaMonitor.get_set_ne _ (show CondaIndex.sha256 ≠ .filename by decide),
      CondaMonitor.get_set_self]
    exact hstaged .sha256
  | filename =>
    rw [CondaMonitor.get_set_self]
    exact hstaged .filename

/-! ### Validation -/

theorem runs_check (which : CondaIndex) (key : Str) (currentIndex : ℕ) (value : Option Str)
    (hs : Holds i origin memory part s) :
    Runs monitors i (index which (.check key currentIndex value)) (fun r s =>
      r = (memory.get which).check key currentIndex value ∧ Holds i origin memory part s) s := by
  refine runs_weaken ?_ (runs_index which (.check key currentIndex value) hs)
  rintro r s ⟨rfl, hs⟩
  change Holds i origin (memory.set which (memory.get which)) part s at hs
  rw [CondaMonitor.set_get] at hs
  exact ⟨rfl, hs⟩

theorem runs_stageEntry (hstaged : ∀ which, Staged which (memory.get which) old new)
    {entry : CondaEntry} (hfresh : ∀ which : CondaIndex, (memory.get which).Fresh (which.key entry))
    (hs : Holds i origin memory part s) :
    Runs monitors i (stageEntry (old.length + new.length) entry)
      (fun _ s => ∃ memory, Holds i origin memory part s ∧
      ∀ which, Staged which (memory.get which) old (new ++ [entry])) s := by
  rw [stageEntry]
  refine runs_bind (runs_index _ _ hs) ?_
  rintro _ s ⟨-, hs⟩
  refine runs_bind (runs_index _ _ hs) ?_
  rintro _ s ⟨-, hs⟩
  refine ⟨_, hs, fun which => ?_⟩
  rw [CondaMonitor.get_set_ne _ (show CondaIndex.filename ≠ .sha256 by decide)]
  cases which with
  | sha256 =>
    rw [CondaMonitor.get_set_ne _ (show CondaIndex.sha256 ≠ .filename by decide),
      CondaMonitor.get_set_self]
    exact (hstaged .sha256).stage (hfresh .sha256)
  | filename =>
    rw [CondaMonitor.get_set_self]
    exact (hstaged .filename).stage (hfresh .filename)

/-- With a new SHA-256, a filename passes only if it is new. -/
theorem runs_checkFilename (hstaged : ∀ which, Staged which (memory.get which) old new)
    {entry : CondaEntry} (hfresh : (memory.get .sha256).Fresh (CondaIndex.sha256.key entry))
    (hsha : ∀ e ∈ old ++ new, e.sha256 ≠ entry.sha256)
    (hs : Holds i origin memory part s) :
    Runs monitors i (checkFilename (old.length + new.length) entry)
      (fun result s => result = .valid →
      (memory.get .filename).Fresh (CondaIndex.filename.key entry) ∧
      ∃ memory, Holds i origin memory part s ∧
        ∀ which, Staged which (memory.get which) old (new ++ [entry])) s := by
  have hpending : ∀ e ∈ (memory.get .filename).pending, e.value ≠ some entry.sha256 := by
    intro e he heq
    obtain ⟨j, e', hj, rfl⟩ := (hstaged .filename).mem_pending he
    exact hsha e' (List.mem_append_right _ (List.mem_of_getElem? hj)) (Option.some.inj heq)
  have hindex : ∀ key v, (memory.get .filename).index key = some v → v.2 ≠ some entry.sha256 := by
    intro key v hv heq
    obtain ⟨j, e', hj, -, rfl⟩ := ((hstaged .filename).index key v).mp hv
    exact hsha e' (List.mem_append_left _ (List.mem_of_getElem? hj)) (Option.some.inj heq)
  rw [checkFilename]
  refine runs_bind (runs_check _ _ _ _ hs) ?_
  rintro r s ⟨rfl, hs⟩
  rcases ContentIndex.fresh_or_conflict hpending
    hindex with ⟨hfile, hnone⟩ | ⟨violation, hconflict, hkind⟩
  · rw [hnone]
    refine runs_weaken ?_ (runs_stageEntry hstaged (fun which => ?_) hs)
    · exact fun _ _ h _ => ⟨hfile, h⟩
    · cases which with
      | sha256 => exact hfresh
      | filename => exact hfile
  · rw [hconflict]
    dsimp only
    rw [hkind]
    exact fun h => by cases h

/-- Validation of the next entry admits only an entry with new keys, which is then pending. -/
theorem runs_validateEntry (hlog : CondaLog (log ++ added) (old ++ new))
    (hstaged : ∀ which, Staged which (memory.get which) old new)
    (data : Bytes) (hs : Holds i origin memory part s) :
    Runs monitors i (validateEntry (old.length + new.length) data)
      (fun result s => result = .valid →
      ∃ entry memory, Holds i origin memory part s ∧
        (∀ which, Staged which (memory.get which) old (new ++ [entry])) ∧
        CondaLog (log ++ (added ++ [data])) (old ++ (new ++ [entry]))) s := by
  rw [validateEntry]
  cases hparse : parseEntry data with
  | error e => exact fun h => by cases h
  | ok entry =>
    refine runs_bind (runs_check _ _ _ _ hs) ?_
    rintro r s ⟨rfl, hs⟩
    cases hcheck :
      (memory.get .sha256).check (hashKey entry.sha256) (old.length + new.length) none with
    | some violation => exact fun h => by cases h
    | none =>
      have hfresh : (memory.get .sha256).Fresh (CondaIndex.sha256.key entry) := by
        refine ContentIndex.fresh_of_check (fun e he => ?_) (fun key v hv => ?_) hcheck
        · obtain ⟨j, e', hj, rfl⟩ := (hstaged .sha256).mem_pending he
          obtain ⟨hlt, -⟩ := List.getElem?_eq_some_iff.mp hj
          dsimp only
          omega
        · obtain ⟨j, e', hj, -, rfl⟩ := ((hstaged .sha256).index key v).mp hv
          obtain ⟨hlt, -⟩ := List.getElem?_eq_some_iff.mp hj
          dsimp only
          omega
      have hsha : ∀ e ∈ old ++ new, e.sha256 ≠ entry.sha256 :=
        fun e he heq => (hstaged .sha256).ne_of_fresh hfresh e he (congrArg hashKey heq)
      refine runs_weaken ?_ (runs_checkFilename hstaged hfresh hsha hs)
      intro result s h hvalid
      obtain ⟨hfile, memory', hs, hstaged'⟩ := h hvalid
      refine ⟨entry, memory', hs, hstaged', ?_⟩
      rw [← List.append_assoc, ← List.append_assoc]
      exact hlog.concat hparse hsha fun e he heq =>
        (hstaged .filename).ne_of_fresh hfile e he (congrArg hashKey heq)

/-! ### Admission -/

/-- The entries that have been admitted after the persisted ones: a Conda log together with
them, pending in memory, and in the tree of the checkpoint. -/
structure Admitted (cp : Checkpoint H) (log added : List Bytes) (old new : List CondaEntry)
    (memory : CondaMonitor) : Prop where
  isLog : CondaLog (log ++ added) (old ++ new)
  staged : ∀ which, Staged which (memory.get which) old new
  included : ∀ j data, added[j]? = some data →
    ∃ proof, VerifyInclusion (hashLeaf data) (log.length + j) cp.size proof cp.rootHash

/-- The same, of a request that has locked its log. -/
def Admits (i : ℕ) (origin : Str) (part : LogPart H) (cp : Checkpoint H) (log : List Bytes)
    (old : List CondaEntry) (added : List Bytes) (s : MonitorSystem H) : Prop :=
  ∃ new memory, Holds i origin memory part s ∧ Admitted cp log added old new memory

variable [DecidableEq H] [InclusionVerifier H] [LawfulInclusionVerifier H] {cp : Checkpoint H}

omit [DecidableEq H] in
theorem runs_admitEntry (hold : CondaLog log old) (client : LogClient H) (data : Bytes)
    (hs : Admits i origin part cp log old added s) :
    Runs monitors i (admitEntry cp client (log.length + added.length) data)
      (fun _ s => Admits i origin part cp log old (added ++ [data]) s) s := by
  obtain ⟨new, memory, hs, hlog, hstaged, hincluded⟩ := hs
  have hlen := hold.length_eq
  have hlen' := hlog.length_eq
  rw [List.length_append, List.length_append, hlen, Nat.add_left_cancel_iff] at hlen'
  rw [admitEntry]
  refine runs_bind (runs_client (LogClient.verifyEntry_returns client data _ cp) _ hs) ?_
  rintro client s ⟨hs, hproof⟩
  rw [hlen, hlen']
  refine runs_bind (runs_validateEntry hlog hstaged data hs) fun result s h => ?_
  cases result with
  | invalid e => trivial
  | valid =>
    obtain ⟨entry, memory, hs, hstaged, hlog⟩ := h rfl
    refine ⟨new ++ [entry], memory, hs, hlog, hstaged, fun j d hj => ?_⟩
    rcases Nat.lt_or_ge j added.length with hlt | hge
    · rw [List.getElem?_append_left hlt] at hj
      exact hincluded j d hj
    · rw [List.getElem?_append_right hge, List.getElem?_singleton] at hj
      split_ifs at hj with hzero
      obtain rfl := Option.some.inj hj
      obtain rfl : j = added.length := by omega
      exact hproof

omit [DecidableEq H] in
/-- The entries of a bundle that come after the persisted ones are admitted, each at its index. -/
theorem runs_admitEntries (hold : CondaLog log old) (entries : List Bytes) :
    ∀ (client : LogClient H) (k : ℕ) (added : List Bytes)
    (s : MonitorSystem H), max log.length k = log.length + added.length →
    Admits i origin part cp log old added s →
      Runs monitors i (admitEntries cp log.length client k entries) (fun _ s => ∃ added,
        max log.length (k + entries.length) = log.length + added.length ∧
        Admits i origin part cp log old added s) s := by
  induction entries with
  | nil => exact fun client k added s hk hs => ⟨added, hk, hs⟩
  | cons data entries ih =>
    intro client k added s hk hs
    rw [admitEntries, List.length_cons, Nat.add_comm entries.length, ← Nat.add_assoc]
    split_ifs with hlt
    · exact ih client (k + 1) added s (by omega) hs
    · obtain rfl : k = log.length + added.length := by omega
      refine runs_bind (runs_admitEntry hold client data hs) fun client s hs => ?_
      apply ih client _ (added ++ [data]) s _ hs
      rw [List.length_append, List.length_singleton]
      omega

omit [DecidableEq H] in
/-- Bundles one after the other, up to the size of the checkpoint. -/
theorem runs_admitBundles (hold : CondaLog log old) (count : ℕ) :
    ∀ (client : LogClient H) (b : ℕ) (added : List Bytes)
    (s : MonitorSystem H), (cp.size + 255) / 256 = b + count →
    max log.length (min (b * 256) cp.size) = log.length + added.length →
      Admits i origin part cp log old added s →
      Runs monitors i (admitBundles cp log.length client (List.range' b count)) (fun _ s => ∃ added,
        max log.length cp.size = log.length + added.length ∧
        Admits i origin part cp log old added s) s := by
  induction count with
  | zero =>
    intro client b added s hb hk hs
    refine ⟨added, ?_, hs⟩
    rw [← hk]
    omega
  | succ count ih =>
    intro client b added s hb hk hs
    rw [List.range'_succ, admitBundles]
    obtain ⟨new, memory, hs, hadmitted⟩ := hs
    refine runs_bind (runs_client (LogClient.bundle_returns client b cp.size) _ hs) ?_
    rintro bundle s ⟨hs, hlen⟩
    rw [LogClient.bundleCount] at hlen
    refine runs_bind (runs_admitEntries hold bundle.entries client (b * 256) added s (by omega)
      ⟨new, memory, hs, hadmitted⟩) ?_
    rintro client s ⟨added', hk', hs⟩
    -- the bundle ends where the next one starts, or at the size of the checkpoint
    have hend : min ((b + 1) * 256) cp.size = b * 256 + bundle.entries.length := by omega
    have hb' : (cp.size + 255) / 256 = b + 1 + count := by omega
    exact ih client (b + 1) added' s hb' (hend ▸ hk') hs

/-! ### Saving -/

omit [DecodeErrors] [Sha256Hash H] [EntryJson] [Hasher] [DecidableEq H] [InclusionVerifier H]
  [LawfulInclusionVerifier H] in
/-- Rows with new keys are added one after the other. -/
theorem foldl_write_content (rows : List ContentRow) {p : LogPart H}
    (h : (p.content ++ rows).Pairwise fun a b => ¬ a.SameKey b) :
    rows.foldl (fun p row => p.write (.content row)) p =
      { p with content := p.content ++ rows } := by
  induction rows generalizing p with
  | nil => simp
  | cons row rows ih =>
    have hnew : ∀ old ∈ p.content, ¬ row.SameKey old := by
      intro old hold hsame
      exact (List.pairwise_append.mp h).2.2 old hold row List.mem_cons_self hsame.symm
    rw [← List.singleton_append, ← List.append_assoc] at h
    rw [List.foldl_cons, LogPart.write_content_new hnew, ih h, List.append_assoc,
      List.singleton_append]

omit [DecodeErrors] in
/-- The rows of a log are under different keys. -/
theorem CondaLog.pairwise_rows (hkey : Function.Injective hashKey) (h : CondaLog log old)
    (origin : Str) :
    (contentRows origin old).Pairwise fun a b => ¬ a.SameKey b := by
  have hone : ∀ which : CondaIndex, (which.rows origin 0 old).Pairwise fun a b =>
      ¬ a.SameKey b := by
    intro which
    have hkeys : ((which.rows origin 0 old).map ContentRow.key).Nodup := by
      rw [CondaIndex.map_key_rows]
      exact h.nodup_keys hkey which
    exact (List.pairwise_map.mp hkeys).imp fun hne hsame => hne hsame.2.2
  rw [contentRows, List.pairwise_append]
  refine ⟨hone .sha256, hone .filename, fun a ha b hb hsame => ?_⟩
  have hname := hsame.1
  rw [CondaIndex.indexName_of_mem ha, CondaIndex.indexName_of_mem hb] at hname
  exact absurd (CondaIndex.name_injective hname) (by decide)

omit [DecodeErrors] [EntryJson] in
theorem contentRows_append (origin : Str) (old new : List CondaEntry) :
    (contentRows origin (old ++ new)).Perm (contentRows origin old ++
      (CondaIndex.sha256.rows origin old.length new ++
        CondaIndex.filename.rows origin old.length new)) := by
  apply List.perm_iff_count.mpr
  intro row
  simp only [contentRows, CondaIndex.rows_append, List.count_append, Nat.zero_add]
  omega

section

omit [DecidableEq H] [InclusionVerifier H] [LawfulInclusionVerifier H]

theorem runs_saveRows (which : CondaIndex) (entries : List PendingEntry) :
    ∀ (part : LogPart H) (s : MonitorSystem H),
    Holds i origin memory part s → Runs monitors i (saveRows which origin entries)
      (fun _ s => Holds i origin memory
        ((entries.map fun e => e.row which origin).foldl (fun p row => p.write (.content row)) part)
          s) s := by
  induction entries with
  | nil => exact fun part s hs => hs
  | cons entry entries ih =>
    intro part s hs
    rw [saveRows]
    exact runs_bind (runs_insertRow rfl hs) fun _ s hs => ih _ s hs

/-- The pending entries of an index are saved. -/
theorem runs_saveIndex {which : CondaIndex} (hstaged : Staged which (memory.get which) old new)
    (hs : Holds i origin memory part s) :
    Runs monitors i (saveIndex which origin) (fun _ s => Holds i origin memory
      ((which.rows origin old.length new).foldl (fun p row => p.write (.content row)) part) s)
      s := by
  rw [saveIndex]
  refine runs_bind (runs_index which .pendingEntriesSnapshot hs) ?_
  rintro _ s ⟨rfl, hs⟩
  change Holds i origin (memory.set which (memory.get which)) part s at hs
  rw [CondaMonitor.set_get] at hs
  change Runs monitors i (saveRows which origin (memory.get which).pending) _ s
  rw [hstaged.pending]
  exact runs_saveRows which _ part s hs

/-- After what is pending has been committed, the rows are those of all entries. -/
theorem runs_commitEntries (hkey : Function.Injective hashKey) (hlog : CondaLog log (old ++ new))
    (hstaged : ∀ which, Staged which (memory.get which) old new)
    (hrows : part.content.Perm (contentRows origin old))
    (hs : Holds i origin memory part s) :
    Runs monitors i (commitEntries origin)
      (fun _ s => ∃ memory content, content.Perm (contentRows origin (old ++ new)) ∧
      Holds i origin memory { part with content := content } s) s := by
  have hperm : (part.content ++ (CondaIndex.sha256.rows origin old.length new ++
      CondaIndex.filename.rows origin old.length new)).Perm (contentRows origin (old ++ new)) :=
    (hrows.append_right _).trans (contentRows_append origin old new).symm
  have hpairs :=
    (hperm.pairwise_iff fun h hsame => h hsame.symm).mpr (hlog.pairwise_rows hkey origin)
  rw [commitEntries]
  refine runs_bind (runs_saveIndex (hstaged .sha256) hs) fun _ s hs => ?_
  refine runs_bind (runs_saveIndex (hstaged .filename) hs) fun _ s hs => ?_
  refine runs_bind (runs_index _ _ hs) ?_
  rintro _ s ⟨-, hs⟩
  refine runs_weaken ?_ (runs_index _ _ hs)
  rintro _ s ⟨-, hs⟩
  rw [← List.foldl_append, foldl_write_content _ hpairs] at hs
  exact ⟨_, _, hperm, hs⟩

end

end Siglog.Monitor

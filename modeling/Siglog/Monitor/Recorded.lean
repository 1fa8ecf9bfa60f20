import Siglog.Monitor.Calls

/-! What a run of the Conda monitor has on record: entries that were valid when they were
validated, and the SHA-256 of every entry that is kept. -/

namespace Siglog.Monitor

open Concurrent (Prog)
open Storage (asI64 asU64 asU64_asI64)
open Text (Str)

variable {H : Type} [Hasher] {origin : Str} {valid : List Validated} {k : Keeping} {s : Session H}
  {db : MonitorDb H}

/-! ### The invariant -/

/-- A SHA-256 key is committed, in memory and in the table. -/
def Known (origin : Str) (s : Session H) (key : Str) : Prop :=
  s.memory.sha256Index.index key ≠ none ∧ HasSha256 origin s.db key

/-- What is on record are entries that were valid, and the SHA-256 of each kept entry and of
each filename is there. -/
structure Recorded (origin : Str) (valid : List Validated) (k : Keeping) (s : Session H) :
    Prop where
  pending : ∀ which, (s.memory.get which).pending = k.pending.map (Validated.pendingEntry which)
  kept : k.kept ⊆ valid
  index : ∀ which key r, (s.memory.get which).index key = some r →
    ∃ v ∈ valid, which.key v.entry = key ∧ r = (v.index.toNat, which.value v.entry)
  rowsOf : RowsOf origin valid s.db
  committed : ∀ v ∈ k.committed, Known origin s (hashKey v.entry.sha256)
  filename : ∀ key j t, s.memory.filenameIndex.index key = some (j, some t) →
  Known origin s (hashKey t)

theorem Recorded.saved (h : Recorded origin valid k s) {which : CondaIndex}
    {x : Except (Fault MonitorError) Unit} {s' : Session H}
    (hs : Saved origin valid which k.pending s x s') : Recorded origin valid k s' := by
  have hknown : ∀ key, Known origin s key → Known origin s' key :=
    fun key hkey => ⟨hs.memory ▸ hkey.1, hs.grown key hkey.2⟩
  refine ⟨hs.memory ▸ h.pending, h.kept, hs.memory ▸ h.index, hs.rowsOf,
    fun v hv => hknown _ (h.committed v hv), ?_⟩
  intro key j t ht
  exact hknown _ (h.filename key j t (hs.memory ▸ ht))

/-- Both indices are committed. -/
theorem Recorded.commit (h : Recorded origin valid k s)
    (hsha : ∀ v ∈ k.pending, HasSha256 origin s.db (hashKey v.entry.sha256))
    {memory : CondaMonitor} (hmemory : ∀ which, memory.get which = (s.memory.get which).commit) :
    Recorded origin valid ⟨k.committed ++ k.pending, []⟩ ⟨s.db, memory⟩ := by
  have hcases : ∀ which key, (∃ v ∈ k.pending, which.key v.entry = key ∧
        (memory.get which).index key = some (v.index.toNat, which.value v.entry)) ∨
      (memory.get which).index key = (s.memory.get which).index key := by
    intro which key
    rw [hmemory]
    rcases (s.memory.get which).commit_cases key with ⟨e, he, hkey, hindex⟩ | ⟨-, hindex⟩
    · rw [h.pending] at he
      obtain ⟨v, hv, rfl⟩ := List.mem_map.mp he
      exact .inl ⟨v, hv, hkey, hindex⟩
    · exact .inr hindex
  have hold : ∀ key, Known origin s key → Known origin ⟨s.db, memory⟩ key := by
    rintro key ⟨hkey, hrow⟩
    refine ⟨?_, hrow⟩
    change (memory.get .sha256).index key ≠ none
    rcases hcases .sha256 key with ⟨v, -, -, hindex⟩ | hindex
    · simp [hindex]
    · rw [hindex]
      exact hkey
  have hnew : ∀ v ∈ k.pending, Known origin ⟨s.db, memory⟩ (hashKey v.entry.sha256) := by
    intro v hv
    refine ⟨?_, hsha v hv⟩
    change (memory.get .sha256).index _ ≠ none
    rw [hmemory]
    rcases (s.memory.get .sha256).commit_cases
      (hashKey v.entry.sha256) with ⟨e, -, -, hindex⟩ | ⟨hnone, -⟩
    · simp [hindex]
    · have hmem : v.pendingEntry .sha256 ∈ (s.memory.get .sha256).pending :=
        h.pending .sha256 ▸ List.mem_map_of_mem hv
      exact absurd rfl (hnone _ hmem)
  have hvalid : ∀ v ∈ k.pending, v ∈ valid := fun v hv => h.kept (List.mem_append_right _ hv)
  refine ⟨fun which => ?_, ?_, ?_, h.rowsOf, ?_, ?_⟩
  · change (memory.get which).pending = []
    rw [hmemory]
    rfl
  · rw [Keeping.kept, List.append_nil]
    exact h.kept
  · intro which key r hr
    change (memory.get which).index key = some r at hr
    rcases hcases which key with ⟨v, hv, hkey, hindex⟩ | hindex
    · exact ⟨v, hvalid v hv, hkey, Option.some.inj (hr.symm.trans hindex)⟩
    · exact h.index which key r (hindex ▸ hr)
  · intro v hv
    rcases List.mem_append.mp hv with hv | hv
    · exact hold _ (h.committed v hv)
    · exact hnew v hv
  · intro key j t ht
    change (memory.get .filename).index key = some (j, some t) at ht
    rcases hcases .filename key with ⟨v, hv, -, hindex⟩ | hindex
    · obtain ⟨-, htext⟩ := Prod.mk.inj (Option.some.inj (ht.symm.trans hindex))
      obtain rfl := Option.some.inj htext
      exact hnew v hv
    · exact hold _ (h.filename key j t (hindex ▸ ht))

theorem Recorded.ends_commit (h : Recorded origin valid k s) :
    Ends (commitEntries origin) (fun x s' =>
    Recorded origin valid (match x with | .ok _ => ⟨k.committed ++ k.pending, []⟩ | .error _ => k)
      s') s := by
  have hvalid : k.pending ⊆ valid := fun v hv => h.kept (List.mem_append_right _ hv)
  rw [commitEntries]
  refine ends_bind (ends_saveIndex hvalid (h.pending .sha256) h.rowsOf (by simp)) ?_ fun e s' hs =>
    h.saved hs
  intro _ s₁ hs₁
  have h₁ := h.saved hs₁
  have hsha := hs₁.done rfl rfl
  refine ends_bind (ends_saveIndex hvalid (h₁.pending .filename) h₁.rowsOf fun _ => hsha) ?_
    fun e s' hs => h₁.saved hs
  intro _ s₂ hs₂
  have h₂ := h₁.saved hs₂
  apply ends_index_bind
  apply ends_index
  refine h₂.commit (fun v hv => hs₂.grown _ (hsha v hv)) fun which => ?_
  cases which <;> rfl

theorem Recorded.ends_rollback (h : Recorded origin valid k s) :
    Ends rollbackEntries (fun _ s' => Recorded origin valid ⟨k.committed, []⟩ s') s := by
  rw [rollbackEntries]
  apply ends_index_bind
  apply ends_index
  refine ⟨fun which => ?_, ?_, fun which key r hr => ?_, h.rowsOf, h.committed, h.filename⟩
  · cases which <;> rfl
  · rw [Keeping.kept, List.append_nil]
    exact List.append_subset.mp h.kept |>.1
  · cases which <;> exact h.index _ key r hr

omit [Hasher] in
theorem contentMap_cases (rows : List ContentRow) (key : Str) :
    (∃ row ∈ rows, row.key = key ∧ contentMap rows key = some (asU64 row.firstIndex, row.value)) ∨
      (∀ row ∈ rows, row.key ≠ key) ∧ contentMap rows key = none :=
  foldl_update_cases rows (fun _ => none) ContentRow.key
    (fun row => (asU64 row.firstIndex, row.value)) key

/-- What is loaded into an index. -/
def loaded (origin : Str) (db : MonitorDb H) (which : CondaIndex) : Str → Option (ℕ × Option Str) :=
  contentMap (db.content.filter fun row => row.indexName = which.name ∧ row.origin = origin)

omit [Hasher] in
theorem loaded_cases (which : CondaIndex) (key : Str) :
    (∃ row ∈ db.content, row.indexName = which.name ∧ row.origin = origin ∧ row.key = key ∧
        loaded origin db which key = some (asU64 row.firstIndex, row.value)) ∨
      (∀ row ∈ db.content, row.indexName = which.name → row.origin = origin → row.key ≠ key) ∧
        loaded origin db which key = none := by
  rcases contentMap_cases
    (db.content.filter fun row => row.indexName = which.name ∧ row.origin = origin) key with
    ⟨row, hrow, hkey, hmap⟩ | ⟨hnone, hmap⟩
  · obtain ⟨hmem, hwhich⟩ := List.mem_filter.mp hrow
    obtain ⟨hname, horigin⟩ := of_decide_eq_true hwhich
    exact .inl ⟨row, hmem, hname, horigin, hkey, hmap⟩
  · exact .inr ⟨fun row hrow hname horigin =>
      hnone row (List.mem_filter.mpr ⟨hrow, decide_eq_true ⟨hname, horigin⟩⟩), hmap⟩

omit [Hasher] in
/-- The rows of an index are loaded, or there is an error. -/
theorem ends_loadIndex (which : CondaIndex) : Ends (loadIndex which origin) (fun x s' =>
    x = .ok () ∧ s' = { s with
      memory := s.memory.set which ((s.memory.get which).loadFrom (loaded origin s.db which)) } ∨
      x ≠ .ok () ∧ s' = s) s := by
  rw [loadIndex]
  refine ⟨trivial, fun r s' hexec => ?_⟩
  cases hexec with
  | loadRows => exact ends_index (.inl ⟨rfl, rfl⟩)
  | loadFault e => exact .inr ⟨by simp, rfl⟩

/-- What has been loaded are entries that were valid. -/
theorem RowsOf.loaded (h : RowsOf origin valid db) {which : CondaIndex} {key : Str}
    {r : ℕ × Option Str} (hr : loaded origin db which key = some r) :
    ∃ v ∈ valid, which.key v.entry = key ∧ r = (v.index.toNat, which.value v.entry) ∧
      ((v.pendingEntry which).row which origin) ∈ db.content := by
  rcases loaded_cases which key with ⟨row, hrow, hname, horigin, hkey, hmap⟩ | ⟨-, hmap⟩
  · obtain ⟨v, hv, rfl⟩ := h.rows which row hrow hname horigin
    have hindex := asU64_asI64 v.index.toNat_lt
    rw [hmap, PendingEntry.row, Validated.pendingEntry] at hr
    dsimp only at hr
    rw [hindex] at hr
    exact ⟨v, hv, hkey, (Option.some.inj hr).symm, hrow⟩
  · rw [hmap] at hr
    cases hr

omit [Hasher] in
/-- Every SHA-256 key of the table is loaded. -/
theorem HasSha256.loaded {key : Str} (h : HasSha256 origin db key) :
    loaded origin db .sha256 key ≠ none := by
  obtain ⟨row, hrow, hname, horigin, hkey⟩ := h
  rcases loaded_cases .sha256 key with ⟨_, -, -, -, -, hmap⟩ | ⟨hnone, -⟩
  · rw [hmap]
    exact Option.some_ne_none _
  · exact absurd hkey (hnone row hrow hname horigin)

/-- The SHA-256 index is loaded: every key of the table is in memory from here on. -/
theorem Recorded.loadSha256 (h : Recorded origin valid k s) {memory : CondaMonitor}
    (hmemory : memory =
      s.memory.set .sha256 ((s.memory.get .sha256).loadFrom (Monitor.loaded origin s.db .sha256))) :
    Recorded origin valid k ⟨s.db, memory⟩ ∧
    ∀ key, HasSha256 origin s.db key → Known origin ⟨s.db, memory⟩ key := by
  subst hmemory
  have hknown : ∀ key, HasSha256 origin s.db key → Known origin ⟨s.db, s.memory.set .sha256
      ((s.memory.get .sha256).loadFrom (Monitor.loaded origin s.db .sha256))⟩ key :=
      fun key hkey => ⟨hkey.loaded, hkey⟩
  refine ⟨⟨fun which => ?_, h.kept, fun which key r hr => ?_, h.rowsOf,
    fun v hv => hknown _ (h.committed v hv).2, ?_⟩, hknown⟩
  · cases which with
    | sha256 => exact h.pending .sha256
    | filename => exact h.pending .filename
  · cases which with
    | sha256 =>
      obtain ⟨v, hv, hkey, hindex, -⟩ := h.rowsOf.loaded hr
      exact ⟨v, hv, hkey, hindex⟩
    | filename => exact h.index .filename key r hr
  · exact fun key j t ht => hknown _ (h.filename key j t ht).2

/-- The filename index is loaded after it. -/
theorem Recorded.loadFilename (h : Recorded origin valid k s)
    (hknown : ∀ key, HasSha256 origin s.db key → Known origin s key)
    {memory : CondaMonitor}
    (hmemory : memory = s.memory.set .filename
      ((s.memory.get .filename).loadFrom (Monitor.loaded origin s.db .filename))) :
    Recorded origin valid k ⟨s.db, memory⟩ := by
  subst hmemory
  refine ⟨fun which => ?_, h.kept, fun which key r hr => ?_, h.rowsOf, h.committed, ?_⟩
  · cases which with
    | sha256 => exact h.pending .sha256
    | filename => exact h.pending .filename
  · cases which with
    | sha256 => exact h.index .sha256 key r hr
    | filename =>
      obtain ⟨v, hv, hkey, hindex, -⟩ := h.rowsOf.loaded hr
      exact ⟨v, hv, hkey, hindex⟩
  · intro key j t ht
    obtain ⟨v, -, -, hindex, hrow⟩ := h.rowsOf.loaded ht
    obtain ⟨-, htext⟩ := Prod.mk.inj hindex
    exact hknown _ (h.rowsOf.sha256 _ hrow rfl rfl t htext.symm)

theorem Recorded.ends_load (h : Recorded origin valid k s) :
    Ends (loadState origin) (fun _ s' => Recorded origin valid k s') s := by
  rw [loadState]
  refine ends_bind (ends_loadIndex .sha256) ?_ ?_
  · rintro _ s₁ (⟨-, rfl⟩ | ⟨hne, -⟩)
    · obtain ⟨h₁, hknown⟩ := h.loadSha256 rfl
      refine Prog.along_weaken ?_ (ends_loadIndex .filename)
      rintro _ s₂ (⟨-, rfl⟩ | ⟨-, rfl⟩)
      · exact h₁.loadFilename hknown rfl
      · exact h₁
    · exact absurd rfl hne
  · rintro e s₁ (⟨hok, -⟩ | ⟨-, rfl⟩)
    · cases hok
    · exact h

/-! ### Validation -/

/-- What validation answers, and the memory after it. -/
inductive Verdict [EntryJson] (memory : CondaMonitor) (i : ℕ) (data : Bytes) :
    ValidationResult → CondaMonitor → Prop where
  | unparsed {e : ValidationError} (h : parseEntry data = .error e) :
      Verdict memory i data (.invalid e) memory
  | duplicateSha256 {entry : CondaEntry} {first : ℕ} (hparse : parseEntry data = .ok entry)
      (hsha : memory.sha256Index.lookup (hashKey entry.sha256) ≠ none) :
      Verdict memory i data (.invalid (.duplicateSha256 entry.sha256 first i)) memory
  | duplicateFilename {entry : CondaEntry} {first : ℕ} {value : Option Str}
      (hparse : parseEntry data = .ok entry)
      (hsha : memory.sha256Index.lookup (hashKey entry.sha256) = none)
      (hfile : memory.filenameIndex.lookup (hashKey entry.filename) = some (first, value)) :
      Verdict memory i data
        (.invalid (.duplicateFilename entry.filename (value.getD []) entry.sha256 first i)) memory
  | valid {entry : CondaEntry} {memory' : CondaMonitor} (hparse : parseEntry data = .ok entry)
      (hsha : memory.sha256Index.lookup (hashKey entry.sha256) = none)
      (hfile : memory.filenameIndex.lookup (hashKey entry.filename) = none)
      (hindex : ∀ which, (memory'.get which).index = (memory.get which).index)
      (hpending : ∀ which, (memory'.get which).pending =
        (memory.get which).pending ++ [⟨which.key entry, i, which.value entry⟩]) :
      Verdict memory i data .valid memory'

/-- A record is that of an entry that was valid. -/
theorem Recorded.lookup (h : Recorded origin valid k s) {which : CondaIndex} {key : Str}
    {r : ℕ × Option Str} (hr : (s.memory.get which).lookup key = some r) :
    ∃ v ∈ valid, which.key v.entry = key ∧ r = (v.index.toNat, which.value v.entry) := by
  rcases ContentIndex.lookup_eq_some hr with ⟨e, he, hkey, rfl⟩ | hindex
  · rw [h.pending] at he
    obtain ⟨v, hv, rfl⟩ := List.mem_map.mp he
    exact ⟨v, h.kept (List.mem_append_right _ hv), hkey, rfl⟩
  · exact h.index which key r hindex

/-- The SHA-256 of a record of a filename is on record. -/
theorem Recorded.lookup_sha256 (h : Recorded origin valid k s) {key : Str} {j : ℕ} {t : Str}
    (hr : s.memory.filenameIndex.lookup key = some (j, some t)) :
    s.memory.sha256Index.lookup (hashKey t) ≠ none := by
  rw [Ne, ContentIndex.lookup_eq_none]
  intro hfresh
  rcases ContentIndex.lookup_eq_some hr with ⟨e, he, -, hentry⟩ | hindex
  · have hmem : e ∈ k.pending.map (Validated.pendingEntry .filename) := h.pending .filename ▸ he
    obtain ⟨v, hv, rfl⟩ := List.mem_map.mp hmem
    obtain rfl : t = v.entry.sha256 := Option.some.inj (congrArg Prod.snd hentry)
    have hsha : v.pendingEntry .sha256 ∈ s.memory.sha256Index.pending :=
      (h.pending .sha256).symm ▸ List.mem_map_of_mem hv
    exact hfresh.pending _ hsha rfl
  · exact (h.filename key j t hindex).1 hfresh.index

variable [EntryJson]

theorem Recorded.ends_checkFilename (h : Recorded origin valid k s) {i : ℕ} {data : Bytes}
    {entry : CondaEntry} (hparse : parseEntry data = .ok entry)
    (hsha : s.memory.sha256Index.lookup (hashKey entry.sha256) = none) :
    Ends (checkFilename i entry)
      (fun x s' => ∃ result memory, x = .ok result ∧ s' = ⟨s.db, memory⟩ ∧
      Verdict s.memory i data result memory) s := by
  rw [checkFilename]
  apply ends_check_bind
  rw [show s.memory.get .filename = s.memory.filenameIndex from rfl, ContentIndex.check_eq]
  cases hfile : s.memory.filenameIndex.lookup (hashKey entry.filename) with
  | some r =>
    obtain ⟨first, value⟩ := r
    have hvalue : value ≠ some entry.sha256 := by
      rintro rfl
      exact h.lookup_sha256 hfile hsha
    simp only [Option.bind_some, ContentIndex.found, Option.isSome_some, ne_eq, hvalue,
      not_false_eq_true, and_self, if_true]
    exact ⟨_, _, rfl, rfl, .duplicateFilename hparse hsha hfile⟩
  | none =>
    have hfresh : ∀ which : CondaIndex, (s.memory.get which).Fresh (which.key entry) := by
      intro which
      cases which with
      | sha256 => exact ContentIndex.lookup_eq_none.mp hsha
      | filename => exact ContentIndex.lookup_eq_none.mp hfile
    have hstage : ∀ which : CondaIndex,
        (s.memory.get which).stage (which.key entry) i (which.value entry) =
          { s.memory.get which with
            pending := (s.memory.get which).pending ++
              [⟨which.key entry, i, which.value entry⟩] } :=
      fun which => (hfresh which).stage i (which.value entry)
    rw [Option.bind_none]
    dsimp only
    rw [stageEntry]
    apply ends_index_bind
    apply ends_index_bind
    refine ⟨_, _, rfl, rfl, .valid hparse hsha hfile (fun which => ?_) fun which => ?_⟩
    · have hindex := congrArg ContentIndex.index (hstage which)
      cases which with
      | sha256 => exact hindex
      | filename => exact hindex
    · have hpending := congrArg ContentIndex.pending (hstage which)
      cases which with
      | sha256 => exact hpending
      | filename => exact hpending

theorem Recorded.ends_validate (h : Recorded origin valid k s) {i : ℕ}
    (hlt : ∀ v ∈ valid, v.index.toNat < i) (data : Bytes) :
    Ends (validateEntry i data) (fun x s' => ∃ result memory, x = .ok result ∧ s' = ⟨s.db, memory⟩ ∧
      Verdict s.memory i data result memory) s := by
  have hne : ∀ (which : CondaIndex) (key : Str) (r : ℕ × Option Str),
      (s.memory.get which).lookup key = some r → r.1 ≠ i := by
    intro which key r hr
    obtain ⟨v, hv, -, rfl⟩ := h.lookup hr
    exact (hlt v hv).ne
  rw [validateEntry]
  cases hparse : parseEntry data with
  | error e => exact ⟨_, _, rfl, rfl, .unparsed hparse⟩
  | ok entry =>
    apply ends_check_bind
    rw [show s.memory.get .sha256 = s.memory.sha256Index from rfl, ContentIndex.check_eq]
    cases hsha : s.memory.sha256Index.lookup (hashKey entry.sha256) with
    | some r =>
      have hfirst := hne .sha256 _ r hsha
      simp only [Option.bind_some, ContentIndex.found, Option.isSome_none, Bool.false_eq_true,
        false_and, if_false, if_neg hfirst]
      exact ⟨_, _, rfl, rfl, .duplicateSha256 hparse (by simp [hsha])⟩
    | none =>
      rw [Option.bind_none]
      exact h.ends_checkFilename hparse hsha

omit [EntryJson] in
theorem Recorded.mono {valid' : List Validated} (h : Recorded origin valid k s)
    (hvalid : valid ⊆ valid') :
    Recorded origin valid' k s where
  pending := h.pending
  kept := List.Subset.trans h.kept hvalid
  index which key r hr := by
    obtain ⟨v, hv, hrecord⟩ := h.index which key r hr
    exact ⟨v, hvalid hv, hrecord⟩
  rowsOf := by
    refine ⟨fun which row hrow hname horigin => ?_, h.rowsOf.sha256⟩
    obtain ⟨v, hv, heq⟩ := h.rowsOf.rows which row hrow hname horigin
    exact ⟨v, hvalid hv, heq⟩
  committed := h.committed
  filename := h.filename

omit [EntryJson] in
/-- One more entry is pending. -/
theorem Recorded.stage (h : Recorded origin valid k s) {v : Validated} (hv : v ∈ valid)
    {memory : CondaMonitor}
    (hindex : ∀ which, (memory.get which).index = (s.memory.get which).index)
    (hpending : ∀ which, (memory.get which).pending = (s.memory.get which).pending ++
      [v.pendingEntry which]) :
    Recorded origin valid ⟨k.committed, k.pending ++ [v]⟩ ⟨s.db, memory⟩ := by
  have hknown : ∀ key, Known origin s key → Known origin ⟨s.db, memory⟩ key := by
    rintro key ⟨hkey, hrow⟩
    exact ⟨(congrFun (hindex .sha256) key).trans_ne hkey, hrow⟩
  refine ⟨fun which => ?_, ?_, fun which key r hr => ?_, h.rowsOf,
    fun w hw => hknown _ (h.committed w hw), ?_⟩
  · rw [hpending, h.pending, List.map_append]
    rfl
  · rw [Keeping.kept, ← List.append_assoc]
    exact List.append_subset.mpr ⟨h.kept, by simpa using hv⟩
  · exact h.index which key r ((congrFun (hindex which) key).symm.trans hr)
  · exact fun key j t ht =>
      hknown _ (h.filename key j t ((congrFun (hindex .filename) key).symm.trans ht))

omit [Hasher] in
theorem validated_valid (index : UInt64) {data : Bytes} {entry : CondaEntry}
    (hparse : parseEntry data = .ok entry) :
    (MonitorEvent.validate index data .valid).validated = some ⟨index, entry⟩ := by
  rw [MonitorEvent.validated, hparse]
  rfl

omit [Hasher] in
theorem Keeping.next_invalid (k : Keeping) (index : UInt64) (data : Bytes) (e : ValidationError) :
    k.next (.validate index data (.invalid e)) = k := by
  simp [next, MonitorEvent.validated]

theorem Recorded.validate (h : Recorded origin valid k s) {index : UInt64} {data : Bytes}
    {result : ValidationResult}
    {memory : CondaMonitor} (hverdict : Verdict s.memory index.toNat data result memory) :
    Recorded origin (valid ++ (MonitorEvent.validate index data result).validated.toList)
      (k.next (.validate index data result)) ⟨s.db, memory⟩ := by
  have hmono := h.mono
    (List.subset_append_left valid (MonitorEvent.validate index data result).validated.toList)
  cases hverdict with
  | unparsed hparse =>
    rw [Keeping.next_invalid]
    exact hmono
  | duplicateSha256 hparse hsha =>
    rw [Keeping.next_invalid]
    exact hmono
  | duplicateFilename hparse hsha hfile =>
    rw [Keeping.next_invalid]
    exact hmono
  | @valid entry memory hparse hsha hfile hindex hpending =>
    rw [validated_valid index hparse] at hmono ⊢
    have hnext :
        k.next (.validate index data .valid) = ⟨k.committed, k.pending ++ [⟨index, entry⟩]⟩ := by
      simp only [Keeping.next, validated_valid index hparse, Option.toList_some]
    rw [hnext]
    exact hmono.stage (by simp) hindex hpending

variable {steps : List MonitorStep}

omit [Hasher] in
/-- Only calls with smaller indices have been made. -/
theorem index_lt {index : UInt64}
    (hindex : ∀ step ∈ steps, ∀ i d r, step.event = .validate i d r → i < index) :
    ∀ v ∈ validated steps, v.index.toNat < index.toNat := by
  intro v hv
  obtain ⟨step, hstep, data, hevent⟩ := mem_validated hv
  exact UInt64.lt_iff_toNat_lt.mp (hindex step hstep _ _ _ hevent)

theorem MonitorRun.recorded (h : MonitorRun origin steps s) :
    Recorded origin (validated steps) (keeping steps) s := by
  induction h with
  | @start db h =>
    have hnone : ∀ row ∈ db.content, row.origin = origin → False :=
      fun row hrow horigin => h row hrow horigin
    refine ⟨fun which => ?_, List.nil_subset _, fun which key r hr => ?_, ⟨?_, ?_⟩, by
        simp [keeping], fun key j t ht => ?_⟩
    · cases which <;> rfl
    · cases which <;> cases hr
    · exact fun which row hrow _ horigin => (hnone row hrow horigin).elim
    · exact fun row hrow _ horigin => (hnone row hrow horigin).elim
    · cases ht
  | @validate steps s s' index data result h hindex hp ih =>
    obtain ⟨_, memory, hresult, rfl, hverdict⟩ :=
      ends_performs (ih.ends_validate (index_lt hindex) data) hp
    obtain rfl := Except.ok.inj hresult
    rw [keeping_concat, validated_concat]
    exact ih.validate hverdict
  | @commit steps s s' x h hp ih =>
    have hend := ends_performs ih.ends_commit hp
    rw [keeping_concat, validated_concat]
    cases x with
    | ok u =>
      change Recorded origin (validated steps ++ []) ⟨_, []⟩ s'
      rw [List.append_nil]
      exact hend
    | error e =>
      change Recorded origin (validated steps ++ []) ⟨_, (keeping steps).pending ++ []⟩ s'
      rw [List.append_nil, List.append_nil]
      exact hend
  | rollback h hp ih =>
    have hend := ends_performs ih.ends_rollback hp
    rw [keeping_concat, validated_concat]
    simpa [MonitorEvent.validated, Keeping.next] using hend
  | load h hp ih =>
    have hend := ends_performs ih.ends_load hp
    rw [keeping_concat, validated_concat]
    simpa [MonitorEvent.validated, Keeping.next] using hend

end Siglog.Monitor

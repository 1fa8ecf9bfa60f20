import Siglog.Monitor.AddCheckpoint

/-! Runs of the Conda monitor: any sequence of its calls for one log, whose statements may
fail. Saving adds the rows of what is pending. -/

namespace Siglog.Monitor

open Concurrent (Prog)
open Storage (asI64 asU64 asU64_asI64)
open Text (Str)

variable {H α β : Type}

/-! ### Calls of a monitor -/

/-- The database that a monitor is given, and its memory. -/
structure Session (H : Type) where
  db : MonitorDb H
  memory : CondaMonitor

/-- One operation. A statement that fails may have been carried out. -/
inductive SessionExec : Session H → (o : MonitorOp H) → o.Answer H → Session H → Prop where
  | loadRows {s : Session H} {indexName origin : Str} : SessionExec s (.loadRows indexName origin)
      (.ok (s.db.content.filter fun row => row.indexName = indexName ∧ row.origin = origin)) s
  | loadFault {s : Session H} {indexName origin : Str} (e : Error) :
      SessionExec s (.loadRows indexName origin) (.error e) s
  | insert {s : Session H} {row : ContentRow} (r : Except Error Unit) :
      SessionExec s (.insertRow row) r { s with db := s.db.write (.content row) }
  | insertFault {s : Session H} {row : ContentRow} (e : Error) :
      SessionExec s (.insertRow row) (.error e) s
  | index {s : Session H} (which : CondaIndex) (o : IndexOp) : SessionExec s (.index which o)
      ((s.memory.get which).answer o).1
        { s with memory := s.memory.set which ((s.memory.get which).answer o).2 }

/-- A call that ends. -/
def Performs (p : MonitorProg H α) (s : Session H) (x : Except (Fault MonitorError) α)
    (s' : Session H) : Prop :=
  Prog.Reaches SessionExec p s (Prog.ofExcept x) s'

/-- However a call ends, it is in `Q`. -/
def Ends (p : MonitorProg H α) (Q : Except (Fault MonitorError) α → Session H → Prop)
    (s : Session H) : Prop :=
  p.Along SessionExec (fun _ _ => True) Q s

section

variable {Q : Except (Fault MonitorError) β → Session H → Prop} {s s' : Session H}

theorem ends_performs {Q : Except (Fault MonitorError) α → Session H → Prop} {p : MonitorProg H α}
    {x : Except (Fault MonitorError) α} (h : Ends p Q s) (hp : Performs p s x s') : Q x s' := by
  have hend := Prog.along_reaches h hp
  cases x with
  | ok a => exact hend
  | error e => exact hend

theorem ends_bind {p : MonitorProg H α} {f : α → MonitorProg H β}
    {P : Except (Fault MonitorError) α → Session H → Prop}
    (hp : Ends p P s) (hok : ∀ a s, P (.ok a) s → Ends (f a) Q s)
    (herr : ∀ e s, P (.error e) s → Q (.error e) s) :
    Ends (p.bind f) Q s := Prog.along_bind hp hok herr

/-- An operation in memory, and what comes after it. -/
theorem ends_index_bind {which : CondaIndex} {o : IndexOp} {f : o.Answer → MonitorProg H β}
    (h : Ends (f ((s.memory.get which).answer o).1) Q
      { s with memory := s.memory.set which ((s.memory.get which).answer o).2 }) :
    Ends ((index which o).bind f) Q s := by
  refine ⟨trivial, fun r s' hexec => ?_⟩
  cases hexec
  exact h

/-- A check changes nothing. -/
theorem ends_check_bind {which : CondaIndex} {key : Str} {i : ℕ} {value : Option Str}
    {f : Option IndexViolation → MonitorProg H β}
    (h : Ends (f ((s.memory.get which).check key i value)) Q s) :
    Ends ((index which (.check key i value)).bind f) Q s := by
  apply ends_index_bind
  change Ends _ _ ⟨s.db, s.memory.set which (s.memory.get which)⟩
  rw [CondaMonitor.set_get]
  exact h

theorem ends_index {which : CondaIndex} {o : IndexOp}
    {Q : Except (Fault MonitorError) o.Answer → Session H → Prop}
    (h : Q (.ok ((s.memory.get which).answer o).1)
      { s with memory := s.memory.set which ((s.memory.get which).answer o).2 }) :
    Ends (index which o) Q s := by
  refine ⟨trivial, fun r s' hexec => ?_⟩
  cases hexec
  exact h

end

/-! ### Runs -/

/-- An entry that was valid. -/
structure Validated where
  index : UInt64
  entry : CondaEntry

inductive MonitorEvent where
  | validate (index : UInt64) (data : Bytes) (result : ValidationResult)
  | commit (ok : Bool)
  | rollback
  | load (ok : Bool)

/-- A call with its result, and the memory before it. -/
structure MonitorStep where
  before : CondaMonitor
  event : MonitorEvent

/-- The entries that were valid and have not been rolled back. -/
structure Keeping where
  committed : List Validated
  pending : List Validated

def Keeping.kept (k : Keeping) : List Validated := k.committed ++ k.pending

section

variable [EntryJson]

def MonitorEvent.validated : MonitorEvent → Option Validated
  | .validate index data .valid => (parseEntry data).toOption.map fun entry => ⟨index, entry⟩
  | _ => none

def Keeping.next (k : Keeping) : MonitorEvent → Keeping
  | .commit true => ⟨k.committed ++ k.pending, []⟩
  | .rollback => ⟨k.committed, []⟩
  | event => ⟨k.committed, k.pending ++ event.validated.toList⟩

def keeping (steps : List MonitorStep) : Keeping :=
  steps.foldl (fun k step => k.next step.event) ⟨[], []⟩

/-- The entries that were valid when they were validated. -/
def validated (steps : List MonitorStep) : List Validated :=
  steps.filterMap fun step => step.event.validated

theorem keeping_concat (steps : List MonitorStep) (step : MonitorStep) :
    keeping (steps ++ [step]) = (keeping steps).next step.event := by
  rw [keeping, List.foldl_append]
  rfl

theorem validated_concat (steps : List MonitorStep) (step : MonitorStep) :
    validated (steps ++ [step]) = validated steps ++ step.event.validated.toList := by
  rw [validated, List.filterMap_append]
  cases h : step.event.validated with
  | none => simp [validated, h]
  | some v => simp [validated, h]

theorem mem_validated {steps : List MonitorStep} {v : Validated} (h : v ∈ validated steps) :
    ∃ step ∈ steps, ∃ data, step.event = .validate v.index data .valid := by
  obtain ⟨step, hstep, hv⟩ := List.mem_filterMap.mp h
  refine ⟨step, hstep, ?_⟩
  unfold MonitorEvent.validated at hv
  split at hv
  · next index data heq =>
    obtain ⟨entry, -, rfl⟩ := Option.map_eq_some_iff.mp hv
    exact ⟨data, heq⟩
  · cases hv

variable [Hasher] (origin : Str)

/-- The calls of a new monitor, on a database without rows of the log. The indices that are
validated increase. -/
inductive MonitorRun : List MonitorStep → Session H → Prop where
  | start {db : MonitorDb H} (h : ∀ row ∈ db.content, row.origin ≠ origin) :
      MonitorRun [] ⟨db, .new⟩
  | validate {steps : List MonitorStep} {s s' : Session H} {index : UInt64} {data : Bytes}
      {result : ValidationResult} (h : MonitorRun steps s)
      (hindex : ∀ step ∈ steps, ∀ i d r, step.event = .validate i d r → i < index)
      (hp : Performs (validateEntry index.toNat data) s (.ok result) s') :
      MonitorRun (steps ++ [⟨s.memory, .validate index data result⟩]) s'
  | commit {steps : List MonitorStep} {s s' : Session H} {x : Except (Fault MonitorError) Unit}
      (h : MonitorRun steps s) (hp : Performs (commitEntries origin) s x s') :
      MonitorRun (steps ++ [⟨s.memory, .commit x.isOk⟩]) s'
  | rollback {steps : List MonitorStep} {s s' : Session H} {x : Except (Fault MonitorError) Unit}
      (h : MonitorRun steps s)
      (hp : Performs rollbackEntries s x s') : MonitorRun (steps ++ [⟨s.memory, .rollback⟩]) s'
  | load {steps : List MonitorStep} {s s' : Session H} {x : Except (Fault MonitorError) Unit}
      (h : MonitorRun steps s) (hp : Performs (loadState origin) s x s') :
      MonitorRun (steps ++ [⟨s.memory, .load x.isOk⟩]) s'

end
/-! ### The rows of a run -/

section

variable [Hasher] {origin : Str} {valid : List Validated} {k : Keeping} {s : Session H}
  {db : MonitorDb H}

def Validated.pendingEntry (which : CondaIndex) (v : Validated) : PendingEntry :=
  ⟨which.key v.entry, v.index.toNat, which.value v.entry⟩

/-- A SHA-256 key of the log is in the table. -/
def HasSha256 (origin : Str) (db : MonitorDb H) (key : Str) : Prop :=
  ∃ row ∈ db.content, row.indexName = CondaIndex.sha256.name ∧ row.origin = origin ∧ row.key = key

/-- The rows of the log are those of valid entries, and the SHA-256 of each filename is there. -/
structure RowsOf (origin : Str) (valid : List Validated) (db : MonitorDb H) : Prop where
  rows : ∀ which : CondaIndex, ∀ row ∈ db.content, row.indexName = which.name →
    row.origin = origin →
      ∃ v ∈ valid, row = (v.pendingEntry which).row which origin
  sha256 : ∀ row ∈ db.content, row.indexName = CondaIndex.filename.name → row.origin = origin →
    ∀ t, row.value = some t → HasSha256 origin db (hashKey t)

omit [Hasher] in
theorem mem_write {row r : ContentRow} (h : r ∈ (db.write (.content row)).content) :
    r ∈ db.content ∨ r = row := by
  rw [MonitorDb.write] at h
  split_ifs at h with hold
  · exact .inl h
  · simpa using h

omit [Hasher] in
theorem content_subset_write (db : MonitorDb H) (row : ContentRow) :
    db.content ⊆ (db.write (.content row)).content := by
  rw [MonitorDb.write]
  split_ifs with hold
  · exact List.Subset.refl _
  · exact List.subset_append_left _ _

omit [Hasher] in
theorem HasSha256.write {key : Str} (h : HasSha256 origin db key) (row : ContentRow) :
    HasSha256 origin (db.write (.content row)) key := by
  obtain ⟨r, hr, hrow⟩ := h
  exact ⟨r, content_subset_write db row hr, hrow⟩

/-- A key is there when its row has been inserted. -/
theorem hasSha256_write (db : MonitorDb H) (v : Validated) :
    HasSha256 origin (db.write (.content ((v.pendingEntry .sha256).row .sha256 origin)))
      (hashKey v.entry.sha256) := by
  rw [MonitorDb.write]
  split_ifs with hold
  · obtain ⟨r, hr, hname, horigin, hkey⟩ := hold
    exact ⟨r, hr, hname.symm, horigin.symm, hkey.symm⟩
  · exact ⟨_, List.mem_append_right _ (List.mem_singleton_self _), rfl, rfl, rfl⟩

theorem RowsOf.write (h : RowsOf origin valid db) {which : CondaIndex} {v : Validated}
    (hv : v ∈ valid) (hsha : which = .filename → HasSha256 origin db (hashKey v.entry.sha256)) :
    RowsOf origin valid (db.write (.content ((v.pendingEntry which).row which origin))) where
  rows other row hrow hname horigin := by
    rcases mem_write hrow with hrow | rfl
    · exact h.rows other row hrow hname horigin
    · obtain rfl := CondaIndex.name_injective hname
      exact ⟨v, hv, rfl⟩
  sha256 row hrow hname horigin t ht := by
    rcases mem_write hrow with hrow | rfl
    · exact (h.sha256 row hrow hname horigin t ht).write _
    · obtain rfl := CondaIndex.name_injective hname
      obtain rfl := Option.some.inj ht
      exact (hsha rfl).write _

/-- What saving does, and what it has done when it has not failed. -/
structure Saved (origin : Str) (valid : List Validated) (which : CondaIndex)
    (saved : List Validated) (s : Session H)
    (x : Except (Fault MonitorError) Unit) (s' : Session H) : Prop where
  memory : s'.memory = s.memory
  rowsOf : RowsOf origin valid s'.db
  grown : ∀ key, HasSha256 origin s.db key → HasSha256 origin s'.db key
  done : x = .ok () → which = .sha256 → ∀ v ∈ saved, HasSha256 origin s'.db (hashKey v.entry.sha256)

theorem ends_saveRows {which : CondaIndex} (saved : List Validated) (hvalid : saved ⊆ valid) :
    ∀ s : Session H,
    RowsOf origin valid s.db →
    (which = .filename → ∀ v ∈ saved, HasSha256 origin s.db (hashKey v.entry.sha256)) →
    Ends (saveRows which origin (saved.map (Validated.pendingEntry which)))
      (Saved origin valid which saved s) s := by
  induction saved with
  | nil => exact fun s hs _ => ⟨rfl, hs, fun _ h => h, fun _ _ => by simp⟩
  | cons v saved ih =>
    intro s hs hsha
    obtain ⟨hv, hvalid⟩ := List.cons_subset.mp hvalid
    have hwrite := hs.write hv fun h => hsha h v List.mem_cons_self
    rw [List.map_cons, saveRows]
    refine ⟨trivial, fun r s' hexec => ?_⟩
    cases hexec with
    | insert r =>
      cases r with
      | error e => exact ⟨rfl, hwrite, fun _ h => h.write _, fun h => by cases h⟩
      | ok u =>
        refine Prog.along_weaken ?_
          (ih hvalid _ hwrite fun h w hw => (hsha h w (List.mem_cons_of_mem _ hw)).write _)
        intro x s' h
        refine ⟨h.memory, h.rowsOf, fun key hkey => h.grown key (hkey.write _),
          fun hok hwhich w hw => ?_⟩
        rcases List.mem_cons.mp hw with rfl | hw
        · subst hwhich
          exact h.grown _ (hasSha256_write s.db w)
        · exact h.done hok hwhich w hw
    | insertFault e => exact ⟨rfl, hs, fun _ h => h, fun h => by cases h⟩

theorem ends_saveIndex {which : CondaIndex} {saved : List Validated} (hvalid : saved ⊆ valid)
    (hpending : (s.memory.get which).pending = saved.map (Validated.pendingEntry which))
    (hs : RowsOf origin valid s.db)
    (hsha : which = .filename → ∀ v ∈ saved, HasSha256 origin s.db (hashKey v.entry.sha256)) :
    Ends (saveIndex which origin) (Saved origin valid which saved s) s := by
  rw [saveIndex]
  apply ends_index_bind
  change Ends (saveRows which origin (s.memory.get which).pending) _
    ⟨s.db, s.memory.set which (s.memory.get which)⟩
  rw [CondaMonitor.set_get, hpending]
  exact ends_saveRows saved hvalid s hs hsha

end

end Siglog.Monitor

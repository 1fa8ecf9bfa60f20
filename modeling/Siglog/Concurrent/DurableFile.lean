import Mathlib.Data.List.Infix

/-! A file in which changes wait for a sync. What has been synced outlives a crash; of the
later changes some first ones do, and after them a part of the next one if it is a write. -/

namespace Siglog.Concurrent

variable {σ : Type}

/-- A change of a file. -/
inductive FileChange (σ : Type) where
  | write (data : List σ)
  | setLen (n : ℕ)

def FileChange.apply (data : List σ) : FileChange σ → List σ
  | .write more => data ++ more
  | .setLen n => data.take n

/-- What has been synced, and the changes since. -/
structure DurableFile (σ : Type) where
  synced : List σ
  changes : List (FileChange σ)

namespace DurableFile

/-- A file that has just been synced. -/
def ofSynced (data : List σ) : DurableFile σ := ⟨data, []⟩

/-- What a read finds. -/
def contents (f : DurableFile σ) : List σ := f.changes.foldl FileChange.apply f.synced

def change (f : DurableFile σ) (c : FileChange σ) : DurableFile σ :=
  { f with changes := f.changes ++ [c] }

def write (f : DurableFile σ) (data : List σ) : DurableFile σ := f.change (.write data)

def setLen (f : DurableFile σ) (n : ℕ) : DurableFile σ := f.change (.setLen n)

def sync (f : DurableFile σ) : DurableFile σ := ofSynced f.contents

/-- What a crash leaves of a file with these changes. -/
inductive Leaves : List σ → List (FileChange σ) → List σ → Prop where
  | here (data : List σ) (changes : List (FileChange σ)) : Leaves data changes data
  | torn (data more : List σ) (n : ℕ) (changes : List (FileChange σ)) :
      Leaves data (.write more :: changes) (data ++ more.take n)
  | next {data left : List σ} {c : FileChange σ} {changes : List (FileChange σ)}
      (h : Leaves (c.apply data) changes left) :
      Leaves data (c :: changes) left

def Survives (f : DurableFile σ) (left : List σ) : Prop := Leaves f.synced f.changes left

@[simp] theorem contents_ofSynced (data : List σ) : (ofSynced data).contents = data := rfl

@[simp] theorem contents_sync (f : DurableFile σ) : f.sync.contents = f.contents := rfl

@[simp] theorem contents_write (f : DurableFile σ) (data : List σ) :
    (f.write data).contents = f.contents ++ data := by
  simp [write, change, contents, FileChange.apply]

@[simp] theorem contents_setLen (f : DurableFile σ) (n : ℕ) :
    (f.setLen n).contents = f.contents.take n := by
  simp [setLen, change, contents, FileChange.apply]

/-- A crash leaves all of a file that has been synced. -/
theorem survives_ofSynced {data left : List σ} : (ofSynced data).Survives left ↔ left = data := by
  constructor
  · intro h
    cases h
    rfl
  · rintro rfl
    exact .here left []

/-- What is there may survive. -/
theorem survives_contents (f : DurableFile σ) : f.Survives f.contents := by
  obtain ⟨synced, changes⟩ := f
  change Leaves synced changes (changes.foldl FileChange.apply synced)
  induction changes generalizing synced with
  | nil => exact .here synced []
  | cons c changes ih => exact .next (ih _)

theorem leaves_concat {data left : List σ} {changes : List (FileChange σ)} {c : FileChange σ} :
    Leaves data (changes ++ [c]) left ↔ Leaves data changes left ∨
    Leaves (changes.foldl FileChange.apply data) [c] left := by
  induction changes generalizing data with
  | nil =>
    refine ⟨.inr, ?_⟩
    rintro (h | h)
    · cases h
      exact .here _ [c]
    · exact h
  | cons first changes ih =>
    rw [List.foldl_cons]
    constructor
    · intro h
      cases h with
      | here => exact .inl (.here _ _)
      | torn => exact .inl (.torn data _ _ changes)
      | next h => exact (ih.mp h).imp_left .next
    · rintro (h | h)
      · cases h with
        | here => exact .here _ _
        | torn => exact .torn data _ _ _
        | next h => exact .next (ih.mpr (.inl h))
      · exact .next (ih.mpr (.inr h))

/-- After one more write a crash leaves what it could leave before, or all before the write
and a part of it. -/
theorem survives_write {f : DurableFile σ} {data left : List σ} :
    (f.write data).Survives left ↔ f.Survives left ∨ ∃ n, left = f.contents ++ data.take n := by
  refine leaves_concat.trans (or_congr_right ?_)
  change Leaves f.contents [.write data] left ↔ _
  constructor
  · intro h
    cases h with
    | here => exact ⟨0, by simp⟩
    | torn _ _ n => exact ⟨n, rfl⟩
    | next h =>
      cases h
      exact ⟨data.length, by rw [List.take_length]; rfl⟩
  · rintro ⟨n, rfl⟩
    exact .torn f.contents data n []

/-- After a cut a crash leaves what it could leave before, or what has been cut. -/
theorem survives_setLen {f : DurableFile σ} {n : ℕ} {left : List σ} :
    (f.setLen n).Survives left ↔ f.Survives left ∨ left = f.contents.take n := by
  refine leaves_concat.trans ?_
  change _ ∨ Leaves f.contents [.setLen n] left ↔ _
  constructor
  · rintro (h | h)
    · exact .inl h
    · cases h with
      | here => exact .inl f.survives_contents
      | next h =>
        cases h
        exact .inr rfl
  · rintro (h | rfl)
    · exact .inl h
    · exact .inr (.next (.here _ []))

end DurableFile

end Siglog.Concurrent

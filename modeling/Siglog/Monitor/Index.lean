import Siglog.Text.Lines
import Mathlib.Logic.Function.Basic

/-! The content index of a monitor: which key was seen first at which log index, and with
which value. New entries are pending until they are committed, and the pending ones are
looked at first. -/

namespace Siglog.Monitor

open Text (Str)

inductive ViolationKind where
  | duplicateKey
  | conflictingValue
  deriving DecidableEq

structure IndexViolation where
  kind : ViolationKind
  key : Str
  firstIndex : ℕ
  currentIndex : ℕ
  context : Option Str
  deriving DecidableEq

structure PendingEntry where
  key : Str
  index : ℕ
  value : Option Str
  deriving DecidableEq

structure ContentIndex where
  index : Str → Option (ℕ × Option Str)
  pending : List PendingEntry
  name : Str

namespace ContentIndex

def new (name : Str) : ContentIndex := ⟨fun _ => none, [], name⟩

/-- What is found when a key exists already. -/
def found (key : Str) (currentIndex : ℕ) (expectedValue : Option Str) (firstIndex : ℕ)
    (value : Option Str) :
    Option IndexViolation :=
  if expectedValue.isSome ∧
    value ≠ expectedValue then some ⟨.conflictingValue, key, firstIndex, currentIndex, value⟩
  else if firstIndex = currentIndex then none
  else some ⟨.duplicateKey, key, firstIndex, currentIndex, none⟩

/-- Check if a key exists and optionally validate its associated value. -/
def check (idx : ContentIndex) (key : Str) (currentIndex : ℕ) (expectedValue : Option Str) :
    Option IndexViolation :=
  match idx.pending.find? fun entry => entry.key = key with
  | some entry => found key currentIndex expectedValue entry.index entry.value
  | none =>
    match idx.index key with
    | some (firstIndex, value) => found key currentIndex expectedValue firstIndex value
    | none => none

/-- Stage an entry for later commit, unless it is pending already. -/
def stage (idx : ContentIndex) (key : Str) (index : ℕ) (value : Option Str) : ContentIndex :=
  if ⟨key, index, value⟩ ∈ idx.pending then idx
  else { idx with pending := idx.pending ++ [⟨key, index, value⟩] }

def commit (idx : ContentIndex) : ContentIndex where
  index := idx.pending.foldl
    (fun index entry => Function.update index entry.key (some (entry.index, entry.value))) idx.index
  pending := []
  name := idx.name

def rollback (idx : ContentIndex) : ContentIndex := { idx with pending := [] }

def loadFrom (idx : ContentIndex) (data : Str → Option (ℕ × Option Str)) : ContentIndex :=
  { idx with index := data }

end ContentIndex

/-- The methods that a monitor calls on an index. -/
inductive IndexOp where
  | check (key : Str) (currentIndex : ℕ) (expectedValue : Option Str)
  | stage (key : Str) (index : ℕ) (value : Option Str)
  | commit
  | rollback
  | loadFrom (data : Str → Option (ℕ × Option Str))
  | pendingEntriesSnapshot

abbrev IndexOp.Answer : IndexOp → Type
  | .check _ _ _ => Option IndexViolation
  | .stage _ _ _ => Unit
  | .commit => Unit
  | .rollback => Unit
  | .loadFrom _ => Unit
  | .pendingEntriesSnapshot => List PendingEntry

def ContentIndex.answer (idx : ContentIndex) : (o : IndexOp) → o.Answer × ContentIndex
  | .check key currentIndex expectedValue => (idx.check key currentIndex expectedValue, idx)
  | .stage key index value => ((), idx.stage key index value)
  | .commit => ((), idx.commit)
  | .rollback => ((), idx.rollback)
  | .loadFrom data => ((), idx.loadFrom data)
  | .pendingEntriesSnapshot => (idx.pending, idx)

/-- A map after one key after the other has been set. -/
theorem foldl_update_cases {α β : Type} (l : List α) (f : Str → Option β) (key : α → Str)
    (value : α → β) (k : Str) :
    (∃ a ∈ l, key a = k ∧
      l.foldl (fun f a => Function.update f (key a) (some (value a))) f k = some (value a)) ∨
      (∀ a ∈ l, key a ≠ k) ∧
      l.foldl (fun f a => Function.update f (key a) (some (value a))) f k = f k := by
  induction l using List.reverseRecOn with
  | nil => exact .inr ⟨by simp, rfl⟩
  | append_singleton l a ih =>
    rw [List.foldl_append, List.foldl_cons, List.foldl_nil]
    by_cases hk : key a = k
    · subst hk
      exact .inl ⟨a, by simp, rfl, Function.update_self _ _ _⟩
    · rw [Function.update_of_ne (Ne.symm hk)]
      rcases ih with ⟨b, hb, hkey, hvalue⟩ | ⟨hnone, hsame⟩
      · exact .inl ⟨b, List.mem_append_left _ hb, hkey, hvalue⟩
      · refine .inr ⟨fun b hb => ?_, hsame⟩
        rcases List.mem_append.mp hb with hb | hb
        · exact hnone b hb
        · exact List.mem_singleton.mp hb ▸ hk

/-! ### Keys that are not there -/

namespace ContentIndex

variable {idx : ContentIndex} {key : Str} {currentIndex : ℕ}

/-- The key is neither pending nor committed. -/
structure Fresh (idx : ContentIndex) (key : Str) : Prop where
  pending : ∀ entry ∈ idx.pending, entry.key ≠ key
  index : idx.index key = none

theorem find?_none_iff : (idx.pending.find? fun entry => entry.key = key) = none ↔
    ∀ entry ∈ idx.pending, entry.key ≠ key := by
  simp

/-- A key without a value passes the check if it is not there. -/
theorem fresh_of_check (hpending : ∀ entry ∈ idx.pending, entry.index ≠ currentIndex)
    (hindex : ∀ key v, idx.index key = some v → v.1 ≠ currentIndex)
    (h : idx.check key currentIndex none = none) :
    idx.Fresh key := by
  unfold check at h
  cases hfind : idx.pending.find? fun entry => entry.key = key with
  | some entry =>
    have hne := hpending entry (List.mem_of_find?_eq_some hfind)
    simp [hfind, found, hne] at h
  | none =>
    refine ⟨find?_none_iff.mp hfind, ?_⟩
    cases hkey : idx.index key with
    | none => rfl
    | some v =>
      have hne := hindex key v hkey
      simp [hfind, hkey, found, hne] at h

/-- A value that no key has is in conflict with the value of each key that is there. -/
theorem fresh_or_conflict {value : Str} (hpending : ∀ entry ∈ idx.pending, entry.value ≠ some value)
    (hindex : ∀ key v, idx.index key = some v → v.2 ≠ some value) :
    (idx.Fresh key ∧ idx.check key currentIndex (some value) = none) ∨
      ∃ violation, idx.check key currentIndex (some value) = some violation ∧
        violation.kind = .conflictingValue := by
  unfold check
  cases hfind : idx.pending.find? fun entry => entry.key = key with
  | some entry =>
    have hne := hpending entry (List.mem_of_find?_eq_some hfind)
    simp [found, hne]
  | none =>
    cases hkey : idx.index key with
    | none => exact .inl ⟨⟨find?_none_iff.mp hfind, hkey⟩, rfl⟩
    | some v =>
      have hne := hindex key v hkey
      simp [found, hne]

theorem Fresh.stage (h : idx.Fresh key) (index : ℕ) (value : Option Str) :
    idx.stage key index value = { idx with pending := idx.pending ++ [⟨key, index, value⟩] } :=
  if_neg fun hmem => h.pending _ hmem rfl

/-! ### What is on record -/

/-- The record under a key, a pending one first. -/
def lookup (idx : ContentIndex) (key : Str) : Option (ℕ × Option Str) :=
  match idx.pending.find? fun entry => entry.key = key with
  | some entry => some (entry.index, entry.value)
  | none => idx.index key

theorem check_eq (expectedValue : Option Str) : idx.check key currentIndex expectedValue =
    (idx.lookup key).bind fun r => found key currentIndex expectedValue r.1 r.2 := by
  unfold check lookup
  cases idx.pending.find? fun entry => entry.key = key with
  | some entry => rfl
  | none => cases idx.index key <;> rfl

theorem lookup_eq_none : idx.lookup key = none ↔ idx.Fresh key := by
  unfold lookup
  cases hfind : idx.pending.find? fun entry => entry.key = key with
  | some entry =>
    have hkey : entry.key = key := by simpa using List.find?_some hfind
    exact iff_of_false (by simp) fun h => h.pending entry (List.mem_of_find?_eq_some hfind) hkey
  | none => exact ⟨fun h => ⟨find?_none_iff.mp hfind, h⟩, fun h => h.index⟩

/-- A record is pending or committed. -/
theorem lookup_eq_some {r : ℕ × Option Str} (h : idx.lookup key = some r) :
    (∃ entry ∈ idx.pending, entry.key = key ∧ r = (entry.index, entry.value)) ∨
    idx.index key = some r := by
  unfold lookup at h
  cases hfind : idx.pending.find? fun entry => entry.key = key with
  | some entry =>
    rw [hfind] at h
    exact .inl ⟨entry, List.mem_of_find?_eq_some hfind, by
        simpa using List.find?_some hfind, (Option.some.inj h).symm⟩
  | none =>
    rw [hfind] at h
    exact .inr h

/-- What is pending goes over what was committed. -/
theorem commit_cases (idx : ContentIndex) (key : Str) :
    (∃ entry ∈ idx.pending, entry.key = key ∧
      idx.commit.index key = some (entry.index, entry.value)) ∨
      (∀ entry ∈ idx.pending, entry.key ≠ key) ∧ idx.commit.index key = idx.index key :=
  foldl_update_cases idx.pending idx.index PendingEntry.key
    (fun entry => (entry.index, entry.value)) key

end ContentIndex

end Siglog.Monitor

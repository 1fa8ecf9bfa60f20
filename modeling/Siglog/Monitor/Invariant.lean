import Siglog.Monitor.AddCheckpoint

/-! What holds of the database of the monitors: the rows of each log are those of the log
entries behind its persisted root. Transactions have their locks apart from each other, and
one that is going to be committed leaves the logs that it has locked in such a state. -/

namespace Siglog.Monitor

open Rfc (mth)
open Text (Str)
open Witness (StateRow WitnessDb)

variable {H : Type}

/-! ### The rows of one log -/

structure LogPart (H : Type) where
  row : Option (StateRow H)
  content : List ContentRow

def MonitorDb.part (db : MonitorDb H) (origin : Str) : LogPart H :=
  ⟨db.witness.rows origin, db.content.filter fun row => row.origin = origin⟩

namespace LogPart

/-- A write to a row of the log. -/
def write (p : LogPart H) : Write H → LogPart H
  | .state _ row => { p with row := some row }
  | .content row =>
    if ∃ old ∈ p.content, row.SameKey old then p else { p with content := p.content ++ [row] }

theorem write_content_new {p : LogPart H} {row : ContentRow}
    (h : ∀ old ∈ p.content, ¬ row.SameKey old) :
    p.write (.content row) = { p with content := p.content ++ [row] } := by
  rw [write, if_neg]
  rintro ⟨old, hold, hsame⟩
  exact h old hold hsame

end LogPart

theorem part_put (db : MonitorDb H) (o origin : Str) (row : StateRow H) :
    (db.write (.state o row)).part origin = if o = origin then (db.part origin).write (.state o row)
    else db.part origin := by
  simp only [MonitorDb.write, MonitorDb.part, WitnessDb.put, LogPart.write]
  by_cases h : o = origin
  · simp [h]
  · simp [h, Ne.symm h]

theorem part_insert (db : MonitorDb H) (row : ContentRow) (origin : Str) :
    (db.write (.content row)).part origin =
      if row.origin = origin then (db.part origin).write (.content row) else db.part origin := by
  rw [MonitorDb.write, LogPart.write]
  by_cases ho : row.origin = origin
  · have hsame : (∃ old ∈ (db.part origin).content, row.SameKey old) ↔
        ∃ old ∈ db.content, row.SameKey old := by
      simp only [MonitorDb.part, List.mem_filter, decide_eq_true_eq]
      constructor
      · rintro ⟨old, ⟨hmem, -⟩, h⟩
        exact ⟨old, hmem, h⟩
      · rintro ⟨old, hmem, h⟩
        exact ⟨old, ⟨hmem, h.2.1 ▸ ho⟩, h⟩
    simp only [if_pos ho, hsame]
    split_ifs
    · rfl
    · simp [MonitorDb.part, ho]
  · rw [if_neg ho]
    split_ifs
    · rfl
    · simp [MonitorDb.part, ho]

theorem part_write (db : MonitorDb H) (w : Write H) (origin : Str) :
    (db.write w).part origin = if w.origin = origin then (db.part origin).write w
    else db.part origin := by
  cases w with
  | state o row => exact part_put db o origin row
  | content row => exact part_insert db row origin

/-- A transaction changes a log by its own writes. -/
theorem part_view (txn : Txn H) (db : MonitorDb H) (origin : Str) :
    (txn.view db).part origin =
      (txn.writes.filter fun w => w.origin = origin).foldl LogPart.write (db.part origin) := by
  obtain ⟨locked, writes⟩ := txn
  unfold Txn.view
  dsimp only
  induction writes generalizing db with
  | nil => rfl
  | cons w writes ih =>
    rw [List.foldl_cons, ih, part_write, List.filter_cons]
    by_cases h : w.origin = origin
    · simp [h]
    · simp [h]

/-- What a transaction does not write stays. -/
theorem part_view_ne {txn : Txn H} {origin : Str} (h : ∀ w ∈ txn.writes, w.origin ≠ origin)
    (db : MonitorDb H) :
    (txn.view db).part origin = db.part origin := by
  rw [part_view, List.filter_eq_nil_iff.mpr]
  · rfl
  · simpa using h

variable [Sha256Hash H] [EntryJson] [Hasher]

/-- The entries behind the rows of a log. -/
structure Backed (origin : Str) (row : StateRow H) (content : List ContentRow) (log : List Bytes)
    (entries : List CondaEntry) :
    Prop where
  size : row.size = log.length
  bound : log.length ≤ i64Max
  root : row.rootHash = mth (log.map hashLeaf)
  log : CondaLog log entries
  rows : content.Perm (contentRows origin entries)

/-- The rows of a log are those of its entries, and there are none before its first row of state. -/
def PartGood (origin : Str) (p : LogPart H) : Prop :=
  match p.row with
  | none => p.content = []
  | some row => ∃ log entries, Backed origin row p.content log entries

/-! ### The invariant -/

/-- A transaction writes where it has locked. -/
def Txn.Covered (txn : Txn H) : Prop := ∀ w ∈ txn.writes, w.origin ∈ txn.locked

/-- A cosignature was returned for the root of entries that are a Conda log. -/
def Vouched {SK VK : Type} [Note.NoteCrypto SK VK] [Text.Base64.DecodeErrors]
    (monitor : MonitoringWitness SK VK)
    (request : Witness.AddCheckpointRequest H) (signature : Note.CheckpointSignature) : Prop :=
  ∃ cosigned : Note.CosignedCheckpoint H, Note.CosignedCheckpoint.fromText request.checkpoint =
    .ok cosigned ∧
    (∃ timestamp, signature = monitor.signer.cosignV1 cosigned.checkpoint timestamp) ∧
    ∃ log entries, CondaLog log entries ∧ log.length = cosigned.checkpoint.size ∧
      cosigned.checkpoint.rootHash = mth (log.map hashLeaf)

variable {SK VK : Type} [Note.NoteCrypto SK VK] [Text.Base64.DecodeErrors]

structure Inv (monitors : ℕ → MonitoringWitness SK VK) (s : MonitorSystem H) : Prop where
  parts : ∀ origin, PartGood origin (s.db.part origin)
  apart : ∀ a b txn txn', a ≠ b → s.txns a = some txn → s.txns b = some txn' →
    ∀ origin ∈ txn.locked, origin ∉ txn'.locked
  covered : ∀ a txn, s.txns a = some txn → txn.Covered
  orphans : ∀ k txn, s.txns (.orphan k) = some txn →
    ∀ origin ∈ txn.locked, PartGood origin ((txn.view s.db).part origin)
  answers : ∀ a ∈ s.answers, ∀ signature, a.answer = .ok signature →
  Vouched (monitors a.process) a.request signature

/-- What a process relies on: others leave its memory, its transaction and the logs that it
has locked as they are. -/
structure Rely (i : ℕ) (s s' : MonitorSystem H) : Prop where
  memory : s'.memory i = s.memory i
  txn : s'.txns (.process i) = s.txns (.process i)
  locked : ∀ txn, s.txns (.process i) = some txn →
    ∀ origin ∈ txn.locked, s'.db.part origin = s.db.part origin

omit [Sha256Hash H] [EntryJson] [Hasher] [Text.Base64.DecodeErrors] in
theorem Rely.refl (i : ℕ) (s : MonitorSystem H) : Rely i s s := ⟨rfl, rfl, fun _ _ _ _ => rfl⟩

omit [Sha256Hash H] [EntryJson] [Hasher] [Text.Base64.DecodeErrors] in
theorem Rely.trans (i : ℕ) (a b c : MonitorSystem H) (h : Rely i a b) (h' : Rely i b c) :
    Rely i a c where
  memory := h'.memory.trans h.memory
  txn := h'.txn.trans h.txn
  locked txn ht origin ho :=
    (h'.locked txn (h.txn.trans ht) origin ho).trans (h.locked txn ht origin ho)

/-- All processes other than one. -/
abbrev Others (i : ℕ) (s s' : MonitorSystem H) : Prop := ∀ j, j ≠ i → Rely j s s'

section

variable {monitors : ℕ → MonitoringWitness SK VK} {s : MonitorSystem H} {i : ℕ}

theorem Inv.init : Inv monitors (.init : MonitorSystem H) where
  parts _ := rfl
  apart _ _ _ _ _ h := by cases h
  covered _ _ h := by cases h
  orphans _ _ h := by cases h
  answers _ h := by cases h

/-- A step that changes the memory of a process only. -/
theorem Inv.setMemory (h : Inv monitors s) (memory : CondaMonitor) :
    Inv monitors (s.setMemory i memory) ∧ Others i s (s.setMemory i memory) := by
  exact ⟨⟨h.parts, h.apart, h.covered, h.orphans, h.answers⟩,
    fun j hj => ⟨s.memory_setMemory_ne hj memory, rfl, fun _ _ _ _ => rfl⟩⟩

/-- A transaction ends without effect. -/
theorem Inv.clear (h : Inv monitors s) (owner : Owner) : Inv monitors (s.setTxn owner none) where
  parts := h.parts
  apart a b txn txn' hab ha hb :=
    h.apart a b txn txn' hab (MonitorSystem.txns_setTxn_none ha).2
      (MonitorSystem.txns_setTxn_none hb).2
  covered a txn ha := h.covered a txn (MonitorSystem.txns_setTxn_none ha).2
  orphans k txn hk := h.orphans k txn (MonitorSystem.txns_setTxn_none hk).2
  answers := h.answers

omit [Sha256Hash H] [EntryJson] [Hasher] [Text.Base64.DecodeErrors] in
theorem others_setTxn (s : MonitorSystem H) (i : ℕ) (txn : Option (Txn H)) :
    Others i s (s.setTxn (.process i) txn) := by
  intro j hj
  exact ⟨rfl, s.txns_setTxn_ne (by simpa using hj) txn, fun _ _ _ _ => rfl⟩

/-- The transaction of a process goes on. -/
theorem Inv.setTxn (h : Inv monitors s) {txn : Txn H} (hcovered : txn.Covered)
    (hfree : ∀ origin ∈ txn.locked, s.Free (.process i) origin) :
    Inv monitors (s.setTxn (.process i) (some txn)) := by
  have hold : ∀ a txn', a ≠ .process i → (s.setTxn (.process i) (some txn)).txns a = some txn' →
      s.txns a = some txn' := by
    intro a txn' ha h'
    rwa [s.txns_setTxn_ne ha] at h'
  have hself :
      ∀ txn', (s.setTxn (.process i) (some txn)).txns (.process i) = some txn' → txn = txn' := by
    intro txn' h'
    rw [s.txns_setTxn_self] at h'
    exact Option.some.inj h'
  refine ⟨h.parts, fun a b txn₁ txn₂ hab ha hb origin horigin => ?_, fun a txn' ha => ?_,
    fun k txn' hk => ?_, h.answers⟩
  · by_cases hai : a = .process i
    · subst hai
      obtain rfl := hself _ ha
      exact hfree origin horigin b txn₂ hab.symm (hold b txn₂ hab.symm hb)
    · by_cases hbi : b = .process i
      · subst hbi
        obtain rfl := hself _ hb
        exact fun hmem => hfree origin hmem a txn₁ hai (hold a txn₁ hai ha) horigin
      · exact h.apart a b txn₁ txn₂ hab (hold a _ hai ha) (hold b _ hbi hb) origin horigin
  · by_cases hai : a = .process i
    · subst hai
      exact hself _ ha ▸ hcovered
    · exact h.covered a txn' (hold a _ hai ha)
  · exact h.orphans k txn' (hold _ _ (by simp) hk)

/-- What a transaction has locked is free for it. -/
theorem Inv.free (h : Inv monitors s) {owner : Owner} {txn : Txn H} (ht : s.txns owner = some txn)
    {origin : Str} (horigin : origin ∈ txn.locked) : s.Free owner origin :=
  fun other txn' hne hother => h.apart owner other txn txn' hne.symm ht hother origin horigin

/-- Where a committed transaction has not locked, nothing changes. -/
theorem Inv.part_commit (h : Inv monitors s) {owner : Owner} {txn : Txn H}
    (ht : s.txns owner = some txn) {origin : Str}
    (horigin : origin ∉ txn.locked) : (txn.view s.db).part origin = s.db.part origin := by
  apply part_view_ne
  rintro w hw rfl
  exact horigin (h.covered owner txn ht w hw)

/-- A commit of what leaves the locked logs in a good state. -/
theorem Inv.commit (h : Inv monitors s) {owner : Owner} {txn : Txn H} (ht : s.txns owner = some txn)
    (hgood : ∀ origin ∈ txn.locked, PartGood origin ((txn.view s.db).part origin)) :
    Inv monitors { s.setTxn owner none with db := txn.view s.db } ∧
      ∀ j, owner ≠ .process j → Rely j s { s.setTxn owner none with db := txn.view s.db } := by
  have hclear := h.clear owner
  -- the other transactions have locked other logs
  have hother : ∀ a txn', a ≠ owner → s.txns a = some txn' → ∀ origin ∈ txn'.locked,
      (txn.view s.db).part origin = s.db.part origin := by
    intro a txn' hne ha origin horigin
    exact h.part_commit ht (h.apart a owner txn' txn hne ha ht origin horigin)
  refine ⟨⟨fun origin => ?_, hclear.apart, hclear.covered, fun k txn' hk origin horigin => ?_,
    h.answers⟩, fun j hj => ?_⟩
  · by_cases horigin : origin ∈ txn.locked
    · exact hgood origin horigin
    · change PartGood origin ((txn.view s.db).part origin)
      rw [h.part_commit ht horigin]
      exact h.parts origin
  · obtain ⟨hne, hk'⟩ := MonitorSystem.txns_setTxn_none hk
    have hgood' := h.orphans k txn' hk' origin horigin
    rw [part_view] at hgood' ⊢
    rwa [hother _ _ hne hk' origin horigin]
  · refine ⟨rfl, s.txns_setTxn_ne (Ne.symm hj) none, fun txn' ht' origin horigin => ?_⟩
    exact hother _ _ (Ne.symm hj) ht' origin horigin

/-- A transaction is left when its commit has been sent. -/
theorem Inv.leave (h : Inv monitors s) {txn : Txn H} (ht : s.txns (.process i) = some txn) (k : ℕ)
    (hgood : ∀ origin ∈ txn.locked, PartGood origin ((txn.view s.db).part origin)) :
    Inv monitors ((s.setTxn (.process i) none).setTxn (.orphan k) (some txn)) := by
  -- its locks have moved from the process to an owner of their own
  have hold : ∀ a txn', a ≠ .orphan k →
      ((s.setTxn (.process i) none).setTxn (.orphan k) (some txn)).txns a = some txn' →
      a ≠ .process i ∧ s.txns a = some txn' := by
    intro a txn' hne ha
    rw [MonitorSystem.txns_setTxn_ne _ hne] at ha
    exact MonitorSystem.txns_setTxn_none ha
  have hself : ∀ txn', ((s.setTxn (.process i) none).setTxn (.orphan k) (some txn)).txns
      (.orphan k) = some txn' → txn = txn' := by
    intro txn' h'
    rw [MonitorSystem.txns_setTxn_self] at h'
    exact Option.some.inj h'
  refine ⟨h.parts, fun a b txn₁ txn₂ hab ha hb origin horigin => ?_, fun a txn' ha => ?_,
    fun k' txn' hk' => ?_, h.answers⟩
  · by_cases hak : a = .orphan k
    · subst hak
      obtain rfl := hself _ ha
      obtain ⟨hbi, hb'⟩ := hold b txn₂ hab.symm hb
      exact h.apart _ b txn txn₂ hbi.symm ht hb' origin horigin
    · obtain ⟨hai, ha'⟩ := hold a txn₁ hak ha
      by_cases hbk : b = .orphan k
      · subst hbk
        obtain rfl := hself _ hb
        exact h.apart a _ txn₁ txn hai ha' ht origin horigin
      · obtain ⟨-, hb'⟩ := hold b txn₂ hbk hb
        exact h.apart a b txn₁ txn₂ hab ha' hb' origin horigin
  · by_cases hak : a = .orphan k
    · subst hak
      exact hself _ ha ▸ h.covered _ txn ht
    · exact h.covered a txn' (hold a txn' hak ha).2
  · by_cases hkk : k' = k
    · subst hkk
      exact hself _ hk' ▸ hgood
    · exact h.orphans k' txn' (hold _ txn' (by simpa using hkk) hk').2

/-- What happens by itself keeps the invariant and leaves the processes alone. -/
theorem Inv.env (h : Inv monitors s) {s' : MonitorSystem H} (he : Env s s') : Inv monitors s' ∧
    ∀ i, Rely i s s' := by
  cases he with
  | applied ht =>
    obtain ⟨hinv, hrely⟩ := h.commit ht (h.orphans _ _ ht)
    exact ⟨hinv, fun i => hrely i (by simp)⟩
  | discarded k =>
    exact ⟨h.clear _, fun i => ⟨rfl, s.txns_setTxn_ne (by simp) none, fun _ _ _ _ => rfl⟩⟩
  | busy i request =>
    refine ⟨⟨h.parts, h.apart, h.covered, h.orphans, ?_⟩, fun i => ⟨rfl, rfl, fun _ _ _ _ => rfl⟩⟩
    intro a ha signature hsignature
    rcases List.mem_append.mp ha with ha | ha
    · exact h.answers a ha signature hsignature
    · obtain rfl := List.mem_singleton.mp ha
      cases hsignature

theorem Inv.dropped (h : Inv monitors s) {s' : MonitorSystem H} (hd : Dropped i s s') :
    Inv monitors s' ∧ Others i s s' := by
  cases hd with
  | cancelled => exact ⟨h.clear _, others_setTxn s i none⟩
  | restarted =>
    obtain ⟨hinv, hothers⟩ := (h.clear (.process i)).setMemory (i := i) CondaMonitor.new
    exact ⟨hinv, fun j hj => (others_setTxn s i none j hj).trans _ _ _ _ (hothers j hj)⟩

end

end Siglog.Monitor

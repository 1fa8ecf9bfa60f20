import Siglog.Storage.DatabaseFacts
import Mathlib.Data.List.Induction
import Mathlib.Logic.Relation

/-! Deduplication in a Rekor log. The table of leaf hashes is the log itself, each entry
at its index, in every state that any order of transactions can reach. -/

namespace Siglog.Storage

variable {H : Type} [Sha256Hash H]

/-- The rows of `rekor_entries` for a log. -/
def rekorRows (log : List (Entry H)) : List (H × ℤ) :=
  log.zipIdx.map fun (entry, i) => (entry.leafHash, (i : ℤ))

theorem rekorRows_concat (log : List (Entry H)) (entry : Entry H) :
    rekorRows (log ++ [entry]) = rekorRows log ++ [(entry.leafHash, (log.length : ℤ))] := by
  simp [rekorRows, List.zipIdx_append]

variable [DecidableEq H]

/-- The place of the first entry of a log with the leaf hash of `entry`. -/
def firstIndex (log : List (Entry H)) (entry : Entry H) : Option ℕ :=
  log.findIdx? fun e => e.leafHash = entry.leafHash

/-- The lookup in the table finds the first place. -/
theorem find_rekorRows (log : List (Entry H)) (entry : Entry H) :
    (rekorRows log).find? (fun row => row.1 = entry.leafHash) =
      (firstIndex log entry).map fun i => (entry.leafHash, (i : ℤ)) := by
  induction log using List.reverseRecOn with
  | nil => rfl
  | append_singleton log e ih =>
    rw [rekorRows_concat, List.find?_append, ih, firstIndex, firstIndex, List.findIdx?_append]
    by_cases h : e.leafHash = entry.leafHash
    · cases log.findIdx? (fun e => e.leafHash = entry.leafHash) <;> simp [h]
    · cases log.findIdx? (fun e => e.leafHash = entry.leafHash) <;> simp [h]

/-- The answer to an entry that comes behind `log`. -/
def answerOf (log : List (Entry H)) (entry : Entry H) : Except Error (SequencedEntry H) :=
  match firstIndex log entry with
  | some i => .error (.duplicate i)
  | none => .ok ⟨log.length, entry⟩

/-- The answers to a batch, each entry behind those before it. -/
def answersOf : List (Entry H) → List (Entry H) → List (Except Error (SequencedEntry H))
  | _, [] => []
  | log, entry :: entries =>
    answerOf log entry :: answersOf (log ++ accepted [answerOf log entry]) entries

omit [DecidableEq H] in
theorem accepted_cons (answer : Except Error (SequencedEntry H))
    (answers : List (Except Error (SequencedEntry H))) :
    accepted (answer :: answers) = accepted [answer] ++ accepted answers := by
  cases answer <;> simp [accepted]

theorem length_answersOf (log entries : List (Entry H)) :
    (answersOf log entries).length = entries.length := by
  induction entries generalizing log with
  | nil => rfl
  | cons entry entries ih => simp [answersOf, ih]

theorem answersOf_getElem {log entries : List (Entry H)} {k : ℕ} {entry : Entry H}
    (h : entries[k]? = some entry) :
    (answersOf log entries)[k]? =
      some (answerOf (log ++ accepted ((answersOf log entries).take k)) entry) := by
  induction entries generalizing log k with
  | nil => simp at h
  | cons first entries ih =>
    cases k with
    | zero =>
      obtain rfl := Option.some.inj h
      simp [answersOf, accepted]
    | succ k =>
      have := @ih (log ++ accepted [answerOf log first]) k (by simpa using h)
      rw [answersOf, List.getElem?_cons_succ, this, List.take_succ_cons,
        accepted_cons (answerOf log first) (List.take _ _), List.append_assoc]

/-! ### One transaction -/

/-- The entries of `log` have the indices below the next one. -/
structure Numbered (db : Database H) (log : List (Entry H)) : Prop where
  next : db.logState.nextIndex = log.length
  bound : log.length ≤ i64Max
  rows : ∀ row ∈ db.pendingEntries, row.idx < log.length

/-- The leaf hashes of a Rekor log are distinct and each is in the table. Other logs have no
table. -/
structure Deduplicated (db : Database H) (log : List (Entry H)) : Prop where
  numbered : Numbered db log
  table : db.rekorEntries = if db.logConfig = some .rekor then rekorRows log else []
  nodup : db.logConfig = some .rekor → (log.map fun entry => entry.leafHash).Nodup

section

variable {db db' : Database H} {log entries : List (Entry H)} {entry : Entry H}

omit [DecidableEq H] in
theorem Numbered.sequenceEntry (h : Numbered db log) (entry : Entry H) :
    db.sequenceEntry entry = .error (.err (.indexFull "log index exhausted")) ∨
      ∃ db', db.sequenceEntry entry = .ok (⟨log.length, entry⟩, db') ∧
        Numbered db' (log ++ [entry]) ∧
        db'.rekorEntries = db.rekorEntries ∧ db'.logConfig = db.logConfig := by
  unfold Database.sequenceEntry Database.checkedSucc
  dsimp only
  rw [h.next, asU64_natCast h.bound, asI64_natCast h.bound]
  by_cases hlt : (log.length : ℤ) < 2 ^ 63 - 1
  · have hfresh : ¬ db.pendingEntries.any fun r => r.idx = (log.length : ℤ) := by
      rw [List.any_eq_true]
      rintro ⟨row, hrow, heq⟩
      have := h.rows row hrow
      simp at heq
      omega
    right
    rw [if_pos hlt]
    dsimp only
    rw [Database.insertPending, if_neg hfresh]
    refine ⟨_, rfl, ⟨by simp, ?_, ?_⟩, rfl, rfl⟩
    · simp only [List.length_append, List.length_singleton, i64Max]
      omega
    · intro row hrow
      simp only [List.length_append, List.length_singleton]
      rcases List.mem_append.mp hrow with hrow | hrow
      · have := h.rows row hrow
        omega
      · obtain rfl := List.mem_singleton.mp hrow
        simp
  · left
    rw [if_neg hlt]

/-- A batch of a log that is not Rekor's. -/
theorem Numbered.sequenceLoop {answers : List (Except Error (SequencedEntry H))}
    (h : Numbered db log) (he : db.sequenceLoop false entries = .ok (answers, db')) :
    Numbered db' (log ++ accepted answers) ∧ db'.rekorEntries = db.rekorEntries ∧
    db'.logConfig = db.logConfig := by
  induction entries generalizing db log answers with
  | nil =>
    cases he
    exact ⟨by simpa [accepted] using h, rfl, rfl⟩
  | cons entry entries ih =>
    simp only [Database.sequenceLoop, Bool.false_eq_true, if_false] at he
    rcases h.sequenceEntry entry with hfull | ⟨db₁, hseq, h₁, hrekor, hmode⟩
    · simp [hfull, bind, Except.bind] at he
    · simp only [hseq, bind, Except.bind] at he
      rcases hrest : db₁.sequenceLoop false entries with e | ⟨answers', db₂⟩
      · simp [hrest] at he
      · simp only [hrest, Except.ok.injEq, Prod.mk.injEq] at he
        obtain ⟨rfl, rfl⟩ := he
        obtain ⟨h₂, hrekor', hmode'⟩ := ih h₁ hrest
        exact ⟨by simpa [accepted] using h₂, hrekor'.trans hrekor, hmode'.trans hmode⟩

omit [DecidableEq H] in
theorem nodup_concat (h : (log.map fun entry => entry.leafHash).Nodup)
    (hnew : ∀ e ∈ log, e.leafHash ≠ entry.leafHash) :
    ((log ++ [entry]).map fun entry => entry.leafHash).Nodup := by
  rw [List.map_append, List.nodup_append]
  refine ⟨h, by simp, ?_⟩
  simpa using hnew

/-- A batch of a Rekor log is answered as its entries deserve, unless the indices are used up. -/
theorem Deduplicated.sequenceLoop (h : Deduplicated db log) (hmode : db.logConfig = some .rekor) :
    db.sequenceLoop true entries = .error (.err (.indexFull "log index exhausted")) ∨
      ∃ db', db.sequenceLoop true entries = .ok (answersOf log entries, db') ∧
        Deduplicated db' (log ++ accepted (answersOf log entries)) ∧
        db'.logConfig = some .rekor := by
  induction entries generalizing db log with
  | nil => exact .inr ⟨db, rfl, by simpa [answersOf, accepted] using h, hmode⟩
  | cons entry entries ih =>
    have htable := h.table
    rw [if_pos hmode] at htable
    rw [answersOf, Database.sequenceLoop, if_pos rfl, htable, find_rekorRows]
    cases hfirst : firstIndex log entry with
    | some i =>
      have hlt : i < log.length := (List.findIdx?_eq_some_iff_getElem.mp hfirst).1
      have hcast : asU64 (i : ℤ) = i := asU64_natCast (hlt.le.trans h.numbered.bound)
      have hanswer : answerOf log entry = .error (.duplicate i) := by rw [answerOf, hfirst]
      have hnone :
          accepted ([.error (.duplicate i)] : List (Except Error (SequencedEntry H))) = [] := rfl
      rw [hanswer, hnone, List.append_nil]
      rcases ih h hmode with hfull | ⟨db', hrest, h', hmode'⟩
      · exact .inl (by simp [hfull, bind, Except.bind])
      · exact .inr
          ⟨db', by simp [hrest, hcast, bind, Except.bind], by simpa [accepted] using h', hmode'⟩
    | none =>
      have hnew : ∀ e ∈ log, e.leafHash ≠ entry.leafHash := by simpa [firstIndex] using hfirst
      have hanswer : answerOf log entry = .ok ⟨log.length, entry⟩ := by rw [answerOf, hfirst]
      have hone : accepted ([.ok ⟨log.length, entry⟩] : List (Except Error (SequencedEntry H))) =
          [entry] := rfl
      have hreserved : Numbered
          { db with rekorEntries := rekorRows log ++ [(entry.leafHash, db.logState.nextIndex)] }
          log :=
        ⟨h.numbered.next, h.numbered.bound, h.numbered.rows⟩
      rw [hanswer, hone]
      simp only [if_true]
      rcases hreserved.sequenceEntry entry with hfull | ⟨db₁, hseq, h₁, hrekor, hconfig⟩
      · exact .inl (by simp [hfull, bind, Except.bind])
      · have h₂ : Deduplicated db₁ (log ++ [entry]) := by
          refine ⟨h₁, ?_, fun _ => nodup_concat (h.nodup hmode) hnew⟩
          rw [hconfig, if_pos hmode, hrekor, rekorRows_concat, h.numbered.next]
        rcases ih h₂ (hconfig.trans hmode) with hfull | ⟨db', hrest, h', hmode'⟩
        · exact .inl (by simp [hseq, hfull, bind, Except.bind])
        · exact .inr
            ⟨db', by simp [hseq, hrest, bind, Except.bind], by simpa [accepted] using h', hmode'⟩

/-- A batch of a Rekor log. -/
theorem Deduplicated.sequenceRekor (h : Deduplicated db log) (hmode : db.logConfig = some .rekor)
    (entries : List (Entry H)) :
    db.sequenceEntries entries = .error (.err (.indexFull "log index exhausted")) ∨
      ∃ db', db.sequenceEntries entries = .ok (answersOf log entries, db') ∧
        Deduplicated db' (log ++ accepted (answersOf log entries)) ∧
        db'.logConfig = some .rekor := by
  rw [Database.sequenceEntries]
  split_ifs with h0
  · subst h0
    exact .inr ⟨db, rfl, by simpa [answersOf, accepted] using h, hmode⟩
  · simpa [hmode] using h.sequenceLoop hmode

/-- A batch of any log. -/
theorem Deduplicated.sequenceEntries {answers : List (Except Error (SequencedEntry H))}
    (h : Deduplicated db log) (he : db.sequenceEntries entries = .ok (answers, db')) :
    Deduplicated db' (log ++ accepted answers) ∧ db'.logConfig = db.logConfig := by
  by_cases hmode : db.logConfig = some .rekor
  · rcases h.sequenceRekor hmode entries with hfull | ⟨db₁, hseq, h', hmode'⟩
    · rw [hfull] at he
      cases he
    · rw [hseq, Except.ok.injEq, Prod.mk.injEq] at he
      obtain ⟨rfl, rfl⟩ := he
      exact ⟨h', hmode'.trans hmode.symm⟩
  · rw [Database.sequenceEntries] at he
    split_ifs at he with h0
    · cases he
      exact ⟨by simpa [accepted] using h, rfl⟩
    · simp only [hmode, decide_false] at he
      obtain ⟨h', hrekor, hmode'⟩ := h.numbered.sequenceLoop he
      refine ⟨⟨h', ?_, fun hm => absurd (hmode'.symm.trans hm) hmode⟩, hmode'⟩
      rw [hmode', hrekor, h.table, if_neg hmode, if_neg hmode]

omit [DecidableEq H] in
/-- The first writer pins the mode, and a log with entries is never pinned to Rekor. -/
theorem Deduplicated.insertMode (h : Deduplicated db log) (mode : Mode) :
    Deduplicated (db.insertMode mode) log := by
  have hnumbered : Numbered (db.insertMode mode) log :=
    ⟨h.numbered.next, h.numbered.bound, h.numbered.rows⟩
  cases hmode : db.logConfig with
  | some stored =>
    have hsame : db.insertMode mode = db := by
      rw [Database.insertMode, hmode, Option.getD_some, ← hmode]
    rwa [hsame]
  | none =>
    have htable := h.table
    rw [if_neg (by simp [hmode])] at htable
    by_cases hnext : 0 < db.logState.nextIndex
    · have hne : (db.insertMode mode).logConfig ≠ some .rekor := by
        simp [Database.insertMode, hmode, hnext]
      exact ⟨hnumbered, by rw [if_neg hne]; exact htable, fun hm => absurd hm hne⟩
    · have hlog : log = [] := by
        apply List.eq_nil_of_length_eq_zero
        have := h.numbered.next
        omega
      subst hlog
      refine ⟨hnumbered, ?_, fun _ => List.nodup_nil⟩
      change db.rekorEntries = _
      simp [htable, rekorRows]

omit [DecidableEq H] in
theorem Deduplicated.mark (h : Deduplicated db log) {expected newSize : ℕ} {root : H}
    {marked : Bool} (hm : db.markIntegratedIfCurrent expected newSize root = .ok (marked, db')) :
    Deduplicated db' log ∧ db'.logConfig = db.logConfig := by
  rcases mark_ok hm with rfl | ⟨size, -, rfl⟩
  · exact ⟨h, rfl⟩
  · have hrows :
        ∀ row ∈ db.pendingEntries.filter fun row => ¬ row.idx < size, row.idx < log.length :=
      fun row hrow => h.numbered.rows row (List.mem_of_mem_filter hrow)
    exact ⟨⟨⟨h.numbered.next, h.numbered.bound, hrows⟩, h.table, h.nodup⟩, rfl⟩

end

/-! ### Runs -/

/-- The database, and the entries that were given an index, in order. -/
structure History (H : Type) [Sha256Hash H] where
  db : Database H
  log : List (Entry H)

namespace History

/-- One transaction of any process. A transaction that is rolled back, the check of a mode
and a restart leave the database as it is. -/
inductive Step : History H → History H → Prop where
  | insertMode (s : History H) (mode : Mode) : Step s ⟨s.db.insertMode mode, s.log⟩
  | sequenceEntries (s : History H) (entries : List (Entry H))
      (answers : List (Except Error (SequencedEntry H)))
      (db : Database H) (h : s.db.sequenceEntries entries = .ok (answers, db)) :
      Step s ⟨db, s.log ++ accepted answers⟩
  | mark (s : History H) (expected newSize : ℕ) (root : H) (marked : Bool) (db : Database H)
      (h : s.db.markIntegratedIfCurrent expected newSize root = .ok (marked, db)) :
      Step s ⟨db, s.log⟩
  | idle (s : History H) : Step s s

/-- The states that any order of transactions can reach from an empty database. -/
def Reachable (s : History H) : Prop := Relation.ReflTransGen Step ⟨.empty, []⟩ s

variable {s t : History H}

theorem Step.deduplicated (h : Deduplicated s.db s.log) (hs : Step s t) :
    Deduplicated t.db t.log := by
  cases hs with
  | insertMode mode => exact h.insertMode mode
  | sequenceEntries entries answers db he => exact (h.sequenceEntries he).1
  | mark expected newSize root marked db hm => exact (h.mark hm).1
  | idle => exact h

theorem Step.mode (h : Deduplicated s.db s.log) (hs : Step s t) {mode : Mode}
    (hmode : s.db.logConfig = some mode) :
    t.db.logConfig = some mode := by
  cases hs with
  | insertMode other => simp [Database.insertMode, hmode]
  | sequenceEntries entries answers db he => exact (h.sequenceEntries he).2.trans hmode
  | mark expected newSize root marked db hm => exact (h.mark hm).2.trans hmode
  | idle => exact hmode

theorem reachable_inv (h : Reachable s) : Deduplicated s.db s.log := by
  induction h with
  | refl => exact ⟨⟨rfl, Nat.zero_le _, by simp [Database.empty]⟩, rfl, fun _ => List.nodup_nil⟩
  | tail _ hstep ih => exact hstep.deduplicated ih

/-- A mode is never changed. -/
theorem run_mode (h : Reachable s) (hr : Relation.ReflTransGen Step s t) {mode : Mode}
    (hmode : s.db.logConfig = some mode) :
    t.db.logConfig = some mode := by
  induction hr with
  | refl => exact hmode
  | tail hrun hstep ih => exact hstep.mode (reachable_inv (h.trans hrun)) ih

end History

/-- The answers to a batch behind the entries of `log`: an entry that has been there gets the
index of its first occurrence, and any other the next index. -/
def Answered (log entries : List (Entry H)) (answers : List (Except Error (SequencedEntry H))) :
    Prop :=
  answers.length = entries.length ∧ ∀ (k : ℕ) (entry : Entry H), entries[k]? = some entry →
    (∀ i, firstIndex (log ++ accepted (answers.take k)) entry = some i →
      answers[k]? = some (.error (.duplicate i))) ∧
    (firstIndex (log ++ accepted (answers.take k)) entry = none →
      answers[k]? = some (.ok ⟨(log ++ accepted (answers.take k)).length, entry⟩))

theorem answered_answersOf (log entries : List (Entry H)) :
    Answered log entries (answersOf log entries) := by
  refine ⟨length_answersOf log entries, fun k entry hk => ?_⟩
  rw [answersOf_getElem hk, answerOf]
  constructor
  · intro i hi
    rw [hi]
  · intro hn
    rw [hn]

/-- A Rekor log after a batch with a repeated entry. -/
def repeated : History StartHash :=
  ⟨⟨⟨2, 0, none⟩, pendingRows 0 [.new [97], .new [98]], rekorRows [.new [97], .new [98]],
    some .rekor⟩,
    [.new [97], .new [98]]⟩

theorem repeated_reachable : repeated.Reachable := by
  have hseq : ((Database.empty.insertMode .rekor : Database StartHash)).sequenceEntries
      [.new [97], .new [97], .new [98]] =
      .ok ([.ok ⟨0, .new [97]⟩, .error (.duplicate 0), .ok ⟨1, .new [98]⟩], repeated.db) := by
        decide +kernel
  let pinned : History StartHash := ⟨Database.empty.insertMode .rekor, []⟩
  have h₁ : History.Step ⟨.empty, []⟩ pinned := .insertMode _ .rekor
  have h₂ : History.Step pinned repeated := .sequenceEntries pinned _ _ _ hseq
  exact (Relation.ReflTransGen.refl.tail h₁).tail h₂

end Siglog.Storage

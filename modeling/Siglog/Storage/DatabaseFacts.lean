import Siglog.Storage.Database

/-! What the transactions of the log database keep. The pending rows are a list of
entries numbered from the integrated size on, and the next index follows the last
of them. -/

namespace Siglog.Storage

variable {H : Type} [Sha256Hash H]

/-- The rows of pending entries, numbered from `start`. -/
def pendingRows (start : ℕ) : List (Entry H) → List (PendingRow H)
  | [] => []
  | entry :: entries => ⟨start, entry.data, entry.leafHash⟩ :: pendingRows (start + 1) entries

/-- The pending entries as they are read, numbered from `start`. -/
def toPending (start : ℕ) : List (Entry H) → List (PendingEntry H)
  | [] => []
  | entry :: entries => ⟨start, entry.data, entry.leafHash⟩ :: toPending (start + 1) entries

/-- The entries that got an index. -/
def accepted (answers : List (Except Error (SequencedEntry H))) : List (Entry H) :=
  answers.filterMap fun answer => match answer with
    | .ok sequenced => some sequenced.entry
    | .error _ => none

theorem accepted_mapIdx (entries : List (Entry H)) :
    accepted (entries.mapIdx fun i entry => .ok ⟨i, entry⟩) = entries := by
  rw [accepted, List.mapIdx_eq_zipIdx_map, List.filterMap_map]
  refine Eq.trans ?_ (List.zipIdx_map_fst 0 entries)
  exact congrFun List.filterMap_eq_map _

/-- The indices that were assigned. -/
def indices (answers : List (Except Error (SequencedEntry H))) : List ℕ :=
  answers.filterMap fun answer => match answer with
    | .ok sequenced => some sequenced.index
    | .error _ => none

/-- The database holds `pending` behind an integrated tree of size `n`. -/
structure DbOf (db : Database H) (n : ℕ) (pending : List (Entry H)) : Prop where
  integrated : db.logState.integratedSize = n
  next : db.logState.nextIndex = (n + pending.length : ℕ)
  bound : n + pending.length ≤ i64Max
  rows : db.pendingEntries = pendingRows n pending

/-! ### Rows -/

theorem rows_append (start : ℕ) (a b : List (Entry H)) :
    pendingRows start (a ++ b) = pendingRows start a ++ pendingRows (start + a.length) b := by
  induction a generalizing start with
  | nil => rfl
  | cons entry a ih =>
    simp only [List.cons_append, pendingRows, ih, List.length_cons]
    congr 3
    omega

theorem rows_take (start k : ℕ) (a : List (Entry H)) :
    (pendingRows start a).take k = pendingRows start (a.take k) := by
  induction a generalizing start k with
  | nil => simp [pendingRows]
  | cons entry a ih =>
    cases k with
    | zero => rfl
    | succ k => simp only [pendingRows, List.take_succ_cons, ih]

theorem mem_rows {start : ℕ} {a : List (Entry H)} {row : PendingRow H}
    (h : row ∈ pendingRows start a) :
    ∃ i entry, a[i]? = some entry ∧ row = ⟨(start + i : ℕ), entry.data, entry.leafHash⟩ := by
  induction a generalizing start with
  | nil => simp [pendingRows] at h
  | cons entry a ih =>
    rcases List.mem_cons.mp h with rfl | h
    · exact ⟨0, entry, rfl, rfl⟩
    · obtain ⟨i, entry', hi, rfl⟩ := ih h
      exact ⟨i + 1, entry', by simpa using hi, by congr 2; omega⟩

theorem mem_rows_of_getElem (start : ℕ) {a : List (Entry H)} {i : ℕ} {entry : Entry H}
    (h : a[i]? = some entry) :
    (⟨(start + i : ℕ), entry.data, entry.leafHash⟩ : PendingRow H) ∈ pendingRows start a := by
  induction a generalizing start i with
  | nil => simp at h
  | cons first a ih =>
    cases i with
    | zero =>
      obtain rfl := Option.some.inj h
      exact List.mem_cons_self
    | succ i =>
      have := ih (start + 1) (i := i) (by simpa using h)
      rw [show start + 1 + i = start + (i + 1) by omega] at this
      exact List.mem_cons_of_mem _ this

theorem map_idx_rows (start : ℕ) (a : List (Entry H)) :
    (pendingRows start a).map (fun row => row.idx) = (List.range' start a.length).map fun i : ℕ =>
      (i : ℤ) := by
  induction a generalizing start with
  | nil => rfl
  | cons entry a ih =>
    rw [pendingRows, List.map_cons, ih, List.length_cons, List.range'_succ, List.map_cons]

theorem rows_idx {start : ℕ} {a : List (Entry H)} {row : PendingRow H}
    (h : row ∈ pendingRows start a) :
    (start : ℤ) ≤ row.idx ∧ row.idx < (start + a.length : ℕ) := by
  obtain ⟨i, entry, hi, rfl⟩ := mem_rows h
  have := (List.getElem?_eq_some_iff.mp hi).1
  dsimp only
  omega

theorem rows_sorted (start : ℕ) (a : List (Entry H)) :
    (pendingRows start a).Pairwise fun x y => x.idx ≤ y.idx := by
  induction a generalizing start with
  | nil => exact List.Pairwise.nil
  | cons entry a ih =>
    refine List.Pairwise.cons (fun row hrow => ?_) (ih _)
    have := (rows_idx hrow).1
    dsimp only
    omega

/-- Deleting the rows below an index. -/
theorem rows_filter {n k : ℕ} {a : List (Entry H)} (hk : k ≤ a.length) :
    ((pendingRows n a).filter fun row => ¬ row.idx < ((n + k : ℕ) : ℤ)) =
      pendingRows (n + k) (a.drop k) := by
  have hsplit : pendingRows n a = pendingRows n (a.take k) ++ pendingRows (n + k) (a.drop k) := by
    have := rows_append n (a.take k) (a.drop k)
    rwa [List.take_append_drop, List.length_take, Nat.min_eq_left hk] at this
  rw [hsplit, List.filter_append, List.filter_eq_nil_iff.mpr, List.nil_append,
    List.filter_eq_self.mpr]
  · intro row hrow
    have := (rows_idx hrow).1
    simpa using this
  · intro row hrow
    have := (rows_idx hrow).2
    rw [List.length_take, Nat.min_eq_left hk] at this
    simpa using this

theorem map_rows (start : ℕ) {a : List (Entry H)} (h : start + a.length ≤ i64Max) :
    (pendingRows start a).map (fun row =>
      (⟨asU64 row.idx, row.data, row.leafHash⟩ : PendingEntry H)) = toPending start a := by
  induction a generalizing start with
  | nil => rfl
  | cons entry a ih =>
    rw [List.length_cons] at h
    simp only [pendingRows, toPending, List.map_cons, asU64_natCast (show start ≤ i64Max by omega),
      ih (start + 1) (by omega)]

/-! ### Transactions -/

omit [Sha256Hash H] in
/-- A mark moves the integrated size and deletes the rows below it, or changes nothing. -/
theorem mark_ok {db db' : Database H} {expected newSize : ℕ} {root : H} {marked : Bool}
    (hm : db.markIntegratedIfCurrent expected newSize root = .ok (marked, db')) :
    db' = db ∨ ∃ size, size = asI64 newSize ∧
    db' = ⟨{ db.logState with integratedSize := size, rootHash := some root },
      db.pendingEntries.filter fun row => ¬ row.idx < size, db.rekorEntries, db.logConfig⟩ := by
  rw [Database.markIntegratedIfCurrent] at hm
  by_cases hback : newSize < expected
  · rw [if_pos hback] at hm
    cases hm
  · rw [if_neg hback] at hm
    by_cases hstale : asU64 db.logState.integratedSize ≠ expected
    · rw [if_pos hstale] at hm
      injection hm with hm
      injection hm with _ hm
      exact .inl hm.symm
    · rw [if_neg hstale] at hm
      injection hm with hm
      injection hm with _ hm
      exact .inr ⟨_, rfl, hm.symm⟩

section

variable {db : Database H} {n : ℕ} {pending : List (Entry H)}

theorem DbOf.getLogState (h : DbOf db n pending) :
    db.getLogState = ⟨n + pending.length, n, db.logState.rootHash⟩ := by
  have := h.bound
  rw [Database.getLogState, h.next, h.integrated, asU64_natCast h.bound, asU64_natCast (by omega)]

/-- Reading from an index that is not ahead of the tree gives the first pending entries. -/
theorem DbOf.getPendingEntries (h : DbOf db n pending) {m : ℕ} (hm : m ≤ n) (limit : ℕ) :
    db.getPendingEntries m limit = toPending n (pending.take limit) := by
  have hb := h.bound
  have hfilter : (db.pendingEntries.filter fun row => asI64 m ≤ row.idx) = db.pendingEntries := by
    rw [List.filter_eq_self]
    intro row hrow
    rw [h.rows] at hrow
    have := (rows_idx hrow).1
    rw [asI64_natCast (by omega), decide_eq_true_eq]
    omega
  rw [Database.getPendingEntries, hfilter, h.rows, (rows_sorted n pending).insertionSort_eq,
    rows_take, map_rows]
  rw [List.length_take]
  omega

/-- A mark by a worker whose size is current moves a part of the pending rows into the tree. -/
theorem DbOf.mark (h : DbOf db n pending) {k : ℕ} (hk : k ≤ pending.length) (root : H) :
    ∃ db', db.markIntegratedIfCurrent n (n + k) root = .ok (true, db') ∧
      DbOf db' (n + k) (pending.drop k) ∧
      db'.logState.rootHash = some root ∧ db'.rekorEntries = db.rekorEntries ∧
      db'.logConfig = db.logConfig := by
  have hb := h.bound
  have hcast : asI64 (n + k) = (n + k : ℕ) := asI64_natCast (by omega)
  refine ⟨⟨⟨db.logState.nextIndex, (n + k : ℕ), some root⟩,
    db.pendingEntries.filter fun row => ¬ row.idx < ((n + k : ℕ) : ℤ), db.rekorEntries,
    db.logConfig⟩,
    ?_, ⟨rfl, ?_, ?_, ?_⟩, rfl, rfl, rfl⟩
  · rw [Database.markIntegratedIfCurrent, if_neg (by omega), if_neg, hcast]
    rw [h.integrated, asU64_natCast (by omega)]
    exact not_not.mpr rfl
  · have hlen : n + k + (pending.drop k).length = n + pending.length := by
      rw [List.length_drop]
      omega
    rw [hlen]
    exact h.next
  · rw [List.length_drop]
    omega
  · rw [h.rows]
    exact rows_filter hk

/-- A mark by a worker whose size is not current changes nothing. -/
theorem DbOf.mark_stale (h : DbOf db n pending) {m m' : ℕ} (hm : m ≠ n) (hm' : m ≤ m') (root : H) :
    db.markIntegratedIfCurrent m m' root = .ok (false, db) := by
  have hb := h.bound
  rw [Database.markIntegratedIfCurrent, if_neg (by omega), if_pos]
  rw [h.integrated, asU64_natCast (by omega)]
  exact hm.symm

theorem DbOf.insertPending (h : DbOf db n pending) (entry : Entry H) :
    db.insertPending ⟨(n + pending.length : ℕ), entry.data, entry.leafHash⟩ = .ok
      { db with pendingEntries := pendingRows n (pending ++ [entry]) } := by
  rw [Database.insertPending, if_neg, h.rows, rows_append]
  · rfl
  · rw [h.rows, List.any_eq_true]
    rintro ⟨row, hrow, heq⟩
    have := (rows_idx hrow).2
    rw [decide_eq_true_eq] at heq
    dsimp only at heq
    omega

/-- An entry gets the next index, or the index is exhausted. -/
theorem DbOf.sequenceEntry (h : DbOf db n pending) (entry : Entry H) :
    (n + pending.length = i64Max ∧
      db.sequenceEntry entry = .error (.err (.indexFull "log index exhausted"))) ∨
      ∃ db', db.sequenceEntry entry = .ok (⟨n + pending.length, entry⟩, db') ∧
        DbOf db' n (pending ++ [entry]) ∧
        db'.logState.rootHash = db.logState.rootHash ∧ db'.rekorEntries = db.rekorEntries ∧
        db'.logConfig = db.logConfig := by
  have hb := h.bound
  unfold Database.sequenceEntry Database.checkedSucc
  dsimp only
  rw [h.next, asU64_natCast hb, asI64_natCast hb]
  by_cases hlt : ((n + pending.length : ℕ) : ℤ) < 2 ^ 63 - 1
  · right
    rw [if_pos hlt]
    dsimp only
    rw [h.insertPending]
    refine ⟨_, rfl, ⟨h.integrated, ?_, ?_, rfl⟩, rfl, rfl, rfl⟩
    · rw [List.length_append, List.length_singleton]
      push_cast
      omega
    · rw [List.length_append, List.length_singleton]
      unfold i64Max
      omega
  · left
    rw [if_neg hlt]
    refine ⟨?_, rfl⟩
    unfold i64Max at hb ⊢
    omega

theorem DbOf.insertMode (h : DbOf db n pending) (mode : Mode) :
    DbOf (db.insertMode mode) n pending :=
  ⟨h.integrated, h.next, h.bound, h.rows⟩

theorem DbOf.rekor (h : DbOf db n pending) (rekor : List (H × ℤ)) :
    DbOf { db with rekorEntries := rekor } n pending := ⟨h.integrated, h.next, h.bound, h.rows⟩

variable [DecidableEq H]

theorem DbOf.sequenceLoop (dedup : Bool) {entries : List (Entry H)} :
    ∀ {db : Database H} {pending : List (Entry H)}
    {answers : List (Except Error (SequencedEntry H))} {db' : Database H}, DbOf db n pending →
    db.sequenceLoop dedup entries = .ok (answers, db') →
      DbOf db' n (pending ++ accepted answers) ∧
      indices answers = List.range' (n + pending.length) (accepted answers).length ∧
        db'.logState.rootHash = db.logState.rootHash ∧ db'.logConfig = db.logConfig ∧
        List.Forall₂ (fun entry answer => ∀ s, answer = Except.ok s → s.entry = entry) entries
          answers := by
  induction entries with
  | nil =>
    intro db pending answers db' h he
    cases he
    exact ⟨by simpa [accepted] using h, rfl, rfl, rfl, .nil⟩
  | cons entry entries ih =>
    intro db pending answers db' h he
    rw [Database.sequenceLoop] at he
    split at he
    · rename_i row _
      rcases hrest : Database.sequenceLoop dedup db entries with e | ⟨answers', db₁⟩
      · simp [hrest, bind, Except.bind] at he
      · simp only [hrest, bind, Except.bind, Except.ok.injEq, Prod.mk.injEq] at he
        obtain ⟨rfl, rfl⟩ := he
        obtain ⟨h₁, h₂, h₃, h₄, h₅⟩ := ih h hrest
        exact ⟨h₁, h₂, h₃, h₄, .cons (by intro s hs; cases hs) h₅⟩
    · generalize (if dedup then db.rekorEntries ++ [(entry.leafHash, db.logState.nextIndex)]
        else db.rekorEntries) = reserved at he
      rcases (h.rekor reserved).sequenceEntry
        entry with ⟨-, hfull⟩ | ⟨db₁, hseq, h₁, hroot, -, hmode⟩
      · simp [hfull, bind, Except.bind] at he
      · simp only [hseq, bind, Except.bind] at he
        rcases hrest : Database.sequenceLoop dedup db₁ entries with e | ⟨answers', db₂⟩
        · simp [hrest] at he
        · simp only [hrest, Except.ok.injEq, Prod.mk.injEq] at he
          obtain ⟨rfl, rfl⟩ := he
          obtain ⟨h₁', h₂', h₃', h₄', h₅'⟩ := ih h₁ hrest
          refine ⟨by simpa [accepted] using h₁', ?_, h₃'.trans hroot, h₄'.trans hmode,
            .cons (by rintro s ⟨⟩; rfl) h₅'⟩
          rw [List.length_append, List.length_singleton] at h₂'
          simpa [indices, accepted, List.range'_succ, Nat.add_assoc] using h₂'

/-- Without deduplication an entry is taken as long as there is an index for it. -/
theorem DbOf.sequenceEntries_one (h : DbOf db n pending) (hmode : db.logConfig ≠ some .rekor)
    (hfits : n + pending.length < i64Max) (entry : Entry H) :
    ∃ db', db.sequenceEntries [entry] = .ok ([.ok ⟨n + pending.length, entry⟩], db') ∧
      DbOf db' n (pending ++ [entry]) ∧ db'.logConfig = db.logConfig := by
  rcases h.sequenceEntry entry with ⟨hfull, -⟩ | ⟨db', hseq, h', -, -, hconfig⟩
  · omega
  · refine ⟨db', ?_, h', hconfig⟩
    rw [Database.sequenceEntries, if_neg (List.cons_ne_nil _ _), decide_eq_false hmode,
      Database.sequenceLoop, if_neg Bool.false_ne_true]
    simp only [Bool.false_eq_true, if_false, hseq, bind, Except.bind, Database.sequenceLoop]

/-- A batch is appended to the pending entries and numbered consecutively. -/
theorem DbOf.sequenceEntries {entries : List (Entry H)}
    {answers : List (Except Error (SequencedEntry H))}
    {db' : Database H} (h : DbOf db n pending)
    (he : db.sequenceEntries entries = .ok (answers, db')) :
    DbOf db' n (pending ++ accepted answers) ∧
    indices answers = List.range' (n + pending.length) (accepted answers).length ∧
      db'.logState.rootHash = db.logState.rootHash ∧ db'.logConfig = db.logConfig ∧
      List.Forall₂ (fun entry answer => ∀ s, answer = Except.ok s → s.entry = entry) entries
        answers := by
  rw [Database.sequenceEntries] at he
  split_ifs at he with h0
  · cases he
    subst h0
    exact ⟨by simpa [accepted] using h, rfl, rfl, rfl, .nil⟩
  · exact DbOf.sequenceLoop _ h he

omit [DecidableEq H] in
theorem sequenceEntry_entry {entry : Entry H} {sequenced : SequencedEntry H} {db' : Database H}
    (h : db.sequenceEntry entry = .ok (sequenced, db')) : sequenced.entry = entry := by
  rw [Database.sequenceEntry] at h
  split at h
  · cases h
  · rename_i nextIndex _
    rcases hinsert : db.insertPending
      ⟨asI64 (asU64 db.logState.nextIndex), entry.data, entry.leafHash⟩ with e | db₁
    · simp [hinsert, bind, Except.bind] at h
    · simp only [hinsert, bind, Except.bind, Except.ok.injEq, Prod.mk.injEq] at h
      rw [← h.1]

/-- Each answer is that of its entry, in any database. -/
theorem sequenceLoop_entries (dedup : Bool) {entries : List (Entry H)} : ∀ {db : Database H}
    {answers : List (Except Error (SequencedEntry H))} {db' : Database H},
    db.sequenceLoop dedup entries = .ok (answers, db') →
      List.Forall₂ (fun entry answer => ∀ s, answer = Except.ok s → s.entry = entry) entries
        answers := by
  induction entries with
  | nil =>
    intro db answers db' h
    cases h
    exact .nil
  | cons entry entries ih =>
    intro db answers db' h
    rw [Database.sequenceLoop] at h
    split at h
    · rcases hrest : Database.sequenceLoop dedup db entries with e | ⟨answers', db₁⟩
      · simp [hrest, bind, Except.bind] at h
      · simp only [hrest, bind, Except.bind, Except.ok.injEq, Prod.mk.injEq] at h
        obtain ⟨rfl, -⟩ := h
        exact .cons (by rintro s ⟨⟩) (ih hrest)
    · generalize (if dedup then db.rekorEntries ++ [(entry.leafHash, db.logState.nextIndex)]
        else db.rekorEntries) = reserved at h
      rcases hseq :
        Database.sequenceEntry { db with rekorEntries := reserved } entry with e | ⟨sequenced, db₁⟩
      · simp [hseq, bind, Except.bind] at h
      · rcases hrest : Database.sequenceLoop dedup db₁ entries with e | ⟨answers', db₂⟩
        · simp [hseq, hrest, bind, Except.bind] at h
        · simp only [hseq, hrest, bind, Except.bind, Except.ok.injEq, Prod.mk.injEq] at h
          obtain ⟨rfl, -⟩ := h
          refine .cons ?_ (ih hrest)
          rintro s ⟨⟩
          exact sequenceEntry_entry hseq

theorem sequenceEntries_entries {entries : List (Entry H)}
    {answers : List (Except Error (SequencedEntry H))}
    {db' : Database H} (h : db.sequenceEntries entries = .ok (answers, db')) :
    List.Forall₂ (fun entry answer => ∀ s, answer = Except.ok s → s.entry = entry) entries
      answers := by
  rw [Database.sequenceEntries] at h
  split_ifs at h with h0
  · cases h
    subst h0
    exact .nil
  · exact sequenceLoop_entries _ h

end

end Siglog.Storage

import Siglog.Concurrent.Pool
import Siglog.Vindex.Reads
import Siglog.Vindex.Snapshot

/-! The index with a WAL and a snapshot: how it is restored when the server starts, and
what holds of its map in every state that is reached. A snapshot of such a state is read
back as it was written. -/

namespace Siglog.Vindex

open Concurrent (Prog)
open Concurrent.Sys (runAlone)
open VerifiableIndex (record)

section

variable [Crc32]

/-- Read a snapshot. A bad snapshot is treated as absent. -/
def readSnapshot (file : Option Bytes) : Except (Fault Error) (Option (ℕ × IndexMap)) :=
  match file with
  | none => .ok none
  | some data =>
    match parseSnapshot data with
    | .ok snapshot => .ok (some snapshot)
    | .error (.err _) => .ok none
    | .error .panic => .error .panic

/-- Record `idx` under the keys of a WAL entry, once under each. -/
def replayKeys (idx : ℕ) :
    List IndexKey → IndexMap → List (ℕ × IndexKey) → IndexMap × List (ℕ × IndexKey)
  | [], index, seen => (index, seen)
  | key :: keys, index, seen =>
    if (idx, key) ∈ seen then replayKeys idx keys index seen
    else replayKeys idx keys (index.insert key (indicesOf index key ++ [idx])) ((idx, key) :: seen)

/-- Replay WAL entries on top of the snapshot. -/
def replay (baseSize : ℕ) (reader : WalReader) (treeSize : ℕ) (index : IndexMap)
    (seen : List (ℕ × IndexKey)) :
    Except (Fault Error) (ℕ × IndexMap) :=
  match _h : reader.nextEntry with
  | (.error e, _) => .error (.err e)
  | (.ok none, _) => .ok (treeSize, index)
  | (.ok (some (idx, keys)), next) =>
    if idx < baseSize then replay baseSize next treeSize index seen
    else if idx ≠ treeSize then
      .error (.err
        (.internal s!"non-contiguous vindex WAL: expected {treeSize}, got {idx}; rebuild required"))
    else
      let (index, seen) := replayKeys idx keys index seen
      match checkedAdd idx 1 with
      | .error f => .error f
      | .ok n => replay baseSize next (max treeSize n) index seen
termination_by reader.reader.length
decreasing_by all_goals exact nextEntry_shorter _h

/-- Replay the WAL if there is one. -/
def replayWal (baseSize : ℕ) (index : IndexMap) (wal : Option Bytes) :
    Except (Fault Error) (ℕ × IndexMap) :=
  match wal with
  | some data => replay baseSize ⟨data, 0⟩ baseSize index []
  | none => .ok (baseSize, index)

variable [Sha256]

/-- What is in memory after the replay. `walk` is the order in which the map is walked. -/
def restore (walk : IndexMap → List KeyRecord) (maxKeys maxIndicesPerKey baseSize : ℕ)
    (index : IndexMap) (wal : Option Bytes) :
    Except (Fault Error) VerifiableIndex := do
  let (treeSize, index) ← replayWal baseSize index wal
  let prefixTree ← PrefixTree.new.insertAll ((walk index).map fun r => (r.1, computeValueHash r.2))
  let entriesSinceSnapshot ← checkedSub treeSize baseSize
  .ok ⟨index, treeSize, false, prefixTree, entriesSinceSnapshot, maxKeys, maxIndicesPerKey⟩

/-- Restore the index from a snapshot and a WAL, and what is left of the WAL. -/
def withWal (walk : IndexMap → List KeyRecord) (maxKeys maxIndicesPerKey : ℕ)
    (snapshot wal : Option Bytes)
    (expectedTreeSize : ℕ) : Except (Fault Error) VerifiableIndex × Option Bytes :=
  match readSnapshot snapshot with
  | .error f => (.error f, wal)
  | .ok snapshot =>
    let (baseSize, index) := snapshot.getD (0, ∅)
    if expectedTreeSize < baseSize then
      (.error (.err (.internal
        (s!"vindex snapshot is ahead of database state: snapshot tree_size={baseSize}, " ++
          s!"database integrated_size={expectedTreeSize}. " ++
          "Rebuild the vindex before enabling it."))), wal)
    else
      let (actualWalSize, wal) := validateAndTruncateWal wal expectedTreeSize
      let covered := max baseSize actualWalSize
      if covered < expectedTreeSize then
        (.error (.err (.internal
          (s!"vindex state is behind the database: snapshot+WAL cover tree_size={covered}, " ++
            s!"database integrated_size={expectedTreeSize}. " ++
            "Rebuild the vindex before enabling it."))), wal)
      else
        match restore walk maxKeys maxIndicesPerKey baseSize index wal with
        | .error f => (.error f, wal)
        -- the writer creates a file that is not there
        | .ok s => (.ok s, some (wal.getD []))

end

/-! ### One entry more -/

section

variable [Sha256]

variable (mapFn : Bytes → List IndexKey) (hasWal : Bool) (idx : ℕ) (data : Bytes)
  (wal : Except Error Unit) (s : VerifiableIndex)

/-- A part of a call that does not panic leaves the index as it was, or records the entry
at the tree size under these keys. -/
def Recorded (idx : ℕ) (keys : List IndexKey) (s : VerifiableIndex)
    (r : Except (Fault Error) Unit × VerifiableIndex) : Prop :=
  r.1 = .error .panic ∨ r.2 = s ∨
  ∃ index tree, idx = s.treeSize ∧ idx + 1 < 2 ^ 64 ∧ s.poisoned = false ∧
    record idx keys s.index s.prefixTree = .ok (index, tree) ∧
    r = (.ok (), { s with
      index := index, treeSize := idx + 1, prefixTree := tree, entriesSinceSnapshot :=
    s.entriesSinceSnapshot + 1 })

theorem runAlone_section (o : Section) (f : o.Answer → IndexProg Unit) :
    runAlone (VerifiableIndex.perform wal) ((Prog.call o).bind f) s =
      runAlone (VerifiableIndex.perform wal) (f (s.perform wal o).1) (s.perform wal o).2 := rfl

/-- The index after an entry has been recorded. -/
def VerifiableIndex.recorded (s : VerifiableIndex) (index : IndexMap) (tree : PrefixTree) :
    VerifiableIndex :=
  { s with
    index := index, treeSize := s.treeSize + 1, prefixTree := tree, entriesSinceSnapshot :=
  s.entriesSinceSnapshot + 1 }

/-- The ends of a call: a panic, an error that leaves the index as it was, an entry that has
been indexed before, and an entry that passes all checks and is recorded. -/
inductive Outcome (idx : ℕ) (keys : List IndexKey) (s : VerifiableIndex) :
    Except (Fault Error) Unit × VerifiableIndex → Prop where
  | panic (s' : VerifiableIndex)
      (hpanic : s.poisoned = true ∨ 2 ^ 64 ≤ idx + 1 ∨
        record idx keys s.index s.prefixTree = .error .panic) :
      Outcome idx keys s (.error .panic, s')
  | failed (e : Error) : Outcome idx keys s (.error (.err e), s)
  | skipped (hlt : idx < s.treeSize) : Outcome idx keys s (.ok (), s)
  | recorded (index : IndexMap) (tree : PrefixTree) (hidx : idx = s.treeSize)
      (hfits : idx + 1 < 2 ^ 64)
      (hp : s.poisoned = false) (hlimits : keys = [] ∨ s.checkLimits keys = .ok ())
      (hrecord : record idx keys s.index s.prefixTree = .ok (index, tree))
      (hfew : keys.length ≤ maxKeysPerEntry) :
      Outcome idx keys s (.ok (), s.recorded index tree)

/-- The end of a call: the tree size grows after the entry has been recorded. -/
theorem grow_outcome {keys : List IndexKey} {index : IndexMap} {tree : PrefixTree}
    (hp : s.poisoned = false) (hlimits : keys = [] ∨ s.checkLimits keys = .ok ())
    (hrecord : record s.treeSize keys s.index s.prefixTree = .ok (index, tree))
    (hfew : keys.length ≤ maxKeysPerEntry) :
    Outcome s.treeSize keys s (runAlone (VerifiableIndex.perform wal)
      ((Prog.call (Section.growTreeSize s.treeSize)).bind fun r => (Prog.ofExcept r).bind fun _ =>
        Prog.call Section.countIndexed)
      { s with index := index, prefixTree := tree }) := by
  rw [runAlone_section]
  by_cases hlt : s.treeSize + 1 < 2 ^ 64
  · have hgrow : ({ s with index := index, prefixTree := tree } : VerifiableIndex).perform wal
      (.growTreeSize s.treeSize) =
        (.ok (), { s with index := index, prefixTree := tree, treeSize := s.treeSize + 1 }) := by
      simp [VerifiableIndex.perform, hp, checkedAdd_ok hlt]
    rw [hgrow]
    exact .recorded index tree rfl hlt hp hlimits hrecord hfew
  · have hgrow : (({ s with index := index, prefixTree := tree } : VerifiableIndex).perform wal
      (.growTreeSize s.treeSize)).1 =
        .error .panic := by
      have hover : (checkedAdd s.treeSize 1 : Except (Fault Error) ℕ) = .error .panic := if_neg hlt
      simp [VerifiableIndex.perform, hp, hover]
    rw [hgrow]
    exact .panic _ (.inr (.inl (not_lt.mp hlt)))

/-- A call to index an entry. -/
theorem indexEntry_outcome : Outcome idx (sortedKeys (mapFn data)) s
    (runAlone (VerifiableIndex.perform wal) (indexEntry mapFn hasWal idx data) s) := by
  have happend (keys : List IndexKey) (p : IndexProg Unit)
      (h : Outcome idx keys s (runAlone (VerifiableIndex.perform wal) p s)) :
      Outcome idx keys s (runAlone (VerifiableIndex.perform wal)
        (if hasWal then (Prog.call (Section.append idx keys)).bind fun r =>
          (ofResult r).bind fun _ => p else p) s) := by
    cases hasWal with
    | false => exact h
    | true =>
      cases wal with
      | ok u => exact h
      | error e => exact .failed e
  rw [indexEntry]
  simp only [Prog.bind_eq]
  rw [runAlone_section, VerifiableIndex.perform, VerifiableIndex.readTreeSize]
  cases hp : s.poisoned with
  | true => exact .panic s (.inl hp)
  | false =>
    rw [if_neg (by simp), Prog.ofExcept_ok, Prog.pure_bind]
    by_cases hlt : idx < s.treeSize
    · rw [if_pos hlt]
      exact .skipped hlt
    by_cases hne : idx ≠ s.treeSize
    · rw [if_neg hlt, if_pos hne]
      exact .failed _
    rw [if_neg hlt, if_neg hne]
    obtain rfl := not_not.mp hne
    dsimp only
    generalize sortedKeys (mapFn data) = keys at happend ⊢
    by_cases hmany : maxKeysPerEntry < keys.length
    · rw [if_pos hmany]
      exact .failed _
    rw [if_neg hmany]
    have hfew := Nat.le_of_not_lt hmany
    by_cases hnone : keys = []
    · rw [if_pos hnone]
      apply happend
      exact grow_outcome wal s hp (.inl hnone) (by rw [hnone, record]) hfew
    · rw [if_neg hnone, runAlone_section]
      cases hcheck : s.checkLimits keys with
      | error e =>
        rw [VerifiableIndex.perform, hcheck]
        exact .failed e
      | ok u =>
        rw [VerifiableIndex.perform, hcheck]
        apply happend
        rw [runAlone_section, VerifiableIndex.perform]
        cases hrecord : record s.treeSize keys s.index s.prefixTree with
        | error f =>
          cases f with
          | err e => exact .failed e
          | panic => exact .panic s (.inr (.inr hrecord))
        | ok r => exact grow_outcome wal s hp (.inr hcheck) hrecord hfew

theorem indexEntry_cases : Recorded idx (sortedKeys (mapFn data)) s
    (runAlone (VerifiableIndex.perform wal) (indexEntry mapFn hasWal idx data) s) := by
  have houtcome := indexEntry_outcome mapFn hasWal idx data wal s
  generalize runAlone (VerifiableIndex.perform wal) (indexEntry mapFn hasWal idx data) s =
    r at houtcome
  cases houtcome with
  | panic s' => exact .inl rfl
  | failed e => exact .inr (.inl rfl)
  | skipped hlt => exact .inr (.inl rfl)
  | recorded index tree hidx hfits hp hlimits hrecord =>
    subst hidx
    exact .inr (.inr ⟨index, tree, rfl, hfits, hp, hrecord, rfl⟩)

end

/-! ### Ordered indices -/

theorem OrderedBelow.mono {m n : ℕ} {indices : List ℕ} (h : OrderedBelow m indices) (hmn : m ≤ n) :
    OrderedBelow n indices :=
  ⟨h.ordered, fun idx hidx => lt_of_lt_of_le (h.below idx hidx) hmn⟩

/-- The next index goes behind those that are there. -/
theorem OrderedBelow.push {n : ℕ} {indices : List ℕ} (h : OrderedBelow n indices) :
    OrderedBelow (n + 1) (indices ++ [n]) := by
  refine ⟨?_, ?_⟩
  · rw [List.pairwise_append]
    exact ⟨h.ordered, List.pairwise_singleton _ _, by simpa using h.below⟩
  · intro idx hidx
    rcases List.mem_append.mp hidx with hidx | hidx
    · exact Nat.lt_succ_of_lt (h.below idx hidx)
    · rw [List.mem_singleton.mp hidx]
      exact Nat.lt_succ_self n

/-- The indices of every key are in order and below the tree size. -/
structure Ordered (treeSize : ℕ) (index : IndexMap) : Prop where
  size : treeSize < 2 ^ 64
  indices : ∀ key, OrderedBelow treeSize (indicesOf index key)

/-- Some keys get the next index. -/
theorem Ordered.next {n : ℕ} {index index' : IndexMap} (h : Ordered n index) (hn : n + 1 < 2 ^ 64)
    (keys : IndexKey → Prop) [DecidablePred keys] (hkeys : ∀ key, indicesOf index' key =
      if keys key then indicesOf index key ++ [n] else indicesOf index key) :
    Ordered (n + 1) index' := by
  refine ⟨hn, fun key => ?_⟩
  rw [hkeys]
  split_ifs
  · exact (h.indices key).push
  · exact (h.indices key).mono (Nat.le_succ n)

theorem ordered_empty : Ordered 0 ∅ := ⟨by decide, fun _ => orderedBelow_nil 0⟩

theorem replayKeys_indices (idx : ℕ) (keys : List IndexKey) (index : IndexMap)
    (seen : List (ℕ × IndexKey)) (key : IndexKey) :
    indicesOf (replayKeys idx keys index seen).1 key =
      if key ∈ keys ∧ (idx, key) ∉ seen then indicesOf index key ++ [idx]
      else indicesOf index key := by
  induction keys generalizing index seen with
  | nil => simp [replayKeys]
  | cons k keys ih =>
    rw [replayKeys]
    split_ifs with hseen hadd hadd
    · rw [ih, if_pos ⟨(List.mem_cons.mp hadd.1).resolve_left fun h => hadd.2 (h ▸ hseen), hadd.2⟩]
    · rw [ih, if_neg fun h => hadd ⟨List.mem_cons_of_mem k h.1, h.2⟩]
    · rw [ih]
      by_cases hk : key = k
      · subst hk
        rw [indicesOf_insert_self, if_neg (by simp)]
      · rw [indicesOf_insert_ne _ _ hk,
          if_pos ⟨(List.mem_cons.mp hadd.1).resolve_left hk, by simp [hk, hadd.2]⟩]
    · rw [ih]
      have hk : key ≠ k := by
        rintro rfl
        exact hadd ⟨List.mem_cons_self, hseen⟩
      rw [indicesOf_insert_ne _ _ hk, if_neg fun h =>
        hadd ⟨List.mem_cons_of_mem k h.1, fun h' => h.2 (List.mem_cons_of_mem _ h')⟩]

theorem mem_replayKeys {idx : ℕ} {keys : List IndexKey} {index : IndexMap}
    {seen : List (ℕ × IndexKey)} {e : ℕ × IndexKey}
    (h : e ∈ (replayKeys idx keys index seen).2) : e ∈ seen ∨ e.1 = idx := by
  induction keys generalizing index seen with
  | nil => exact .inl h
  | cons k keys ih =>
    rw [replayKeys] at h
    split_ifs at h
    · exact ih h
    · rcases ih h with h | h
      · rcases List.mem_cons.mp h with rfl | h
        · exact .inr rfl
        · exact .inl h
      · exact .inr h

theorem insertRecords_entries (records : List KeyRecord) {index : IndexMap}
    (hkeys : (records.map Sigma.fst).Nodup) (hnew : ∀ r ∈ records, r.1 ∉ index) :
    (insertRecords index records).entries = records.reverse ++ index.entries := by
  induction records generalizing index with
  | nil => rfl
  | cons r records ih =>
    rw [List.map_cons, List.nodup_cons] at hkeys
    rw [List.forall_mem_cons] at hnew
    rw [insertRecords, List.foldl_cons, ← insertRecords, ih hkeys.2,
      AList.entries_insert_of_notMem hnew.1]
    · simp
    · intro r' hr' hmem
      rcases (AList.mem_insert _).mp hmem with hsame | hmem
      · exact hkeys.1 (hsame ▸ List.mem_map_of_mem hr')
      · exact hnew.2 r' hr' hmem

theorem SnapshotOf.entries {treeSize : ℕ} {records : List KeyRecord}
    (h : SnapshotOf treeSize records) :
    (insertRecords ∅ records).entries = records.reverse := by
  rw [insertRecords_entries records h.keys (by simp)]
  exact List.append_nil _

theorem indicesOf_cases (index : IndexMap) (key : IndexKey) :
    indicesOf index key = [] ∨ (⟨key, indicesOf index key⟩ : KeyRecord) ∈ index.entries := by
  cases hlookup : index.lookup key with
  | none => exact .inl (by rw [indicesOf, hlookup]; rfl)
  | some indices =>
    refine .inr ?_
    rw [indicesOf, hlookup]
    exact AList.mem_lookup_iff.mp hlookup

theorem SnapshotOf.ordered {treeSize : ℕ} {records : List KeyRecord}
    (h : SnapshotOf treeSize records) :
    Ordered treeSize (insertRecords ∅ records) := by
  refine ⟨h.size, fun key => ?_⟩
  rcases indicesOf_cases (insertRecords ∅ records) key with hnone | hmem
  · rw [hnone]
    exact orderedBelow_nil treeSize
  · rw [h.entries, List.mem_reverse] at hmem
    exact (h.fits _ hmem).indices

section

variable [Crc32]

/-- The replay keeps the indices of every key in order. -/
theorem replay_ordered (baseSize : ℕ) (reader : WalReader) (treeSize : ℕ) (index : IndexMap)
    (seen : List (ℕ × IndexKey))
    {result : ℕ × IndexMap} (hordered : Ordered treeSize index) (hseen : ∀ e ∈ seen, e.1 < treeSize)
    (h : replay baseSize reader treeSize index seen = .ok result) : Ordered result.1 result.2 := by
  fun_induction replay baseSize reader treeSize index seen with
  | case1 => cases h
  | case2 =>
    cases h
    exact hordered
  | case3 reader treeSize index seen idx keys next hnext hbelow ih => exact ih hordered hseen h
  | case4 => cases h
  | case5 => cases h
  | case6 reader treeSize index seen idx keys next hnext hbelow hidx index' seen' hkeys n hn ih =>
    obtain rfl := not_not.mp hidx
    rw [checkedAdd] at hn
    split_ifs at hn with hlt
    obtain rfl := Except.ok.inj hn
    have hfresh : ∀ key, (idx, key) ∉ seen := fun key hmem => lt_irrefl idx (hseen _ hmem)
    have hsize : max idx (idx + 1) = idx + 1 := by omega
    rw [hsize] at ih h
    refine ih ?_ ?_ h
    · apply hordered.next hlt (· ∈ keys)
      intro key
      have hindices := replayKeys_indices idx keys index seen key
      rw [hkeys] at hindices
      simpa only [hfresh, not_false_eq_true, and_true] using hindices
    · intro e he
      have hmem : e ∈ (replayKeys idx keys index seen).2 := by rw [hkeys]; exact he
      rcases mem_replayKeys hmem with hold | hnew
      · exact Nat.lt_succ_of_lt (hseen e hold)
      · omega

variable [Sha256]

omit [Sha256] in
/-- What is read of a snapshot that can be parsed. -/
theorem readSnapshot_ok {data : Bytes} (hdata : data.length ≤ i64Max) {base : Option (ℕ × IndexMap)}
    (h : readSnapshot (some data) = .ok base) :
    base = none ∨ ∃ treeSize records, SnapshotOf treeSize records ∧
    base = some (treeSize, insertRecords ∅ records) := by
  rw [readSnapshot] at h
  rcases parseSnapshot_written hdata with ⟨e, herr⟩ | ⟨treeSize, records, hof, hparse, -⟩
  · rw [herr] at h
    exact .inl (Except.ok.inj h).symm
  · rw [hparse] at h
    exact .inr ⟨treeSize, records, hof, (Except.ok.inj h).symm⟩

/-- What is restored is the map after the replay. -/
theorem withWal_ok {walk : IndexMap → List KeyRecord} {maxKeys maxIndicesPerKey : ℕ}
    {snapshot wal file : Option Bytes} {expectedTreeSize : ℕ} {s : VerifiableIndex}
    (h : withWal walk maxKeys maxIndicesPerKey snapshot wal expectedTreeSize = (.ok s, file)) :
    ∃ base, readSnapshot snapshot = .ok base ∧ replayWal (base.getD (0, ∅)).1 (base.getD (0, ∅)).2
      (validateAndTruncateWal wal expectedTreeSize).2 = .ok (s.treeSize, s.index) := by
  rw [withWal] at h
  cases hread : readSnapshot snapshot with
  | error f => simp [hread] at h
  | ok base =>
    simp only [hread] at h
    split_ifs at h
    · simp at h
    · simp at h
    · cases hrun : restore walk maxKeys maxIndicesPerKey (base.getD (0, ∅)).1 (base.getD (0, ∅)).2
          (validateAndTruncateWal wal expectedTreeSize).2 with
      | error f => simp [hrun] at h
      | ok s' =>
        simp only [hrun, Prod.mk.injEq, Except.ok.injEq] at h
        obtain rfl := h.1
        rw [restore] at hrun
        obtain ⟨⟨treeSize, index⟩, hreplay, hrun⟩ := bind_eq_ok hrun
        obtain ⟨tree, -, hrun⟩ := bind_eq_ok hrun
        obtain ⟨entriesSinceSnapshot, -, hrun⟩ := bind_eq_ok hrun
        obtain rfl := Except.ok.inj hrun
        exact ⟨base, rfl, hreplay⟩

/-- Whatever is in the files, what is restored from them is in order. -/
theorem withWal_ordered {walk : IndexMap → List KeyRecord} {maxKeys maxIndicesPerKey : ℕ}
    {snapshot wal file : Option Bytes} {expectedTreeSize : ℕ} {s : VerifiableIndex}
    (hsnapshot : ∀ data ∈ snapshot, data.length ≤ i64Max)
    (h : withWal walk maxKeys maxIndicesPerKey snapshot wal expectedTreeSize = (.ok s, file)) :
    Ordered s.treeSize s.index := by
  obtain ⟨base, hread, hreplay⟩ := withWal_ok h
  have hbase : Ordered (base.getD (0, ∅)).1 (base.getD (0, ∅)).2 := by
    cases snapshot with
    | none =>
      obtain rfl := Except.ok.inj hread
      exact ordered_empty
    | some data =>
      rcases readSnapshot_ok (hsnapshot data rfl) hread with rfl | ⟨treeSize, records, hof, rfl⟩
      · exact ordered_empty
      · exact hof.ordered
  cases hwal : (validateAndTruncateWal wal expectedTreeSize).2 with
  | none =>
    rw [hwal] at hreplay
    obtain ⟨hsize, hindex⟩ := Prod.mk.inj (Except.ok.inj hreplay)
    rw [← hsize, ← hindex]
    exact hbase
  | some data =>
    rw [hwal] at hreplay
    exact replay_ordered _ _ _ _ [] hbase (by simp) hreplay

/-- The states of an index: it is made empty or restored from files, entries are indexed,
and snapshots are taken. The last two hold one mutex, and after a panic no call gets it. -/
inductive Reachable (mapFn : Bytes → List IndexKey) : VerifiableIndex → Prop
  | new (maxKeys maxIndicesPerKey : ℕ) : Reachable mapFn (.new maxKeys maxIndicesPerKey)
  | withWal {walk : IndexMap → List KeyRecord} {maxKeys maxIndicesPerKey : ℕ}
      {snapshot wal file : Option Bytes} {expectedTreeSize : ℕ} {s : VerifiableIndex}
      (hsnapshot : ∀ data ∈ snapshot, data.length ≤ i64Max)
      (hrun : withWal walk maxKeys maxIndicesPerKey snapshot wal expectedTreeSize = (.ok s, file)) :
      Reachable mapFn s
  | indexEntry {s s' : VerifiableIndex} {result : Except (Fault Error) Unit} (h : Reachable mapFn s)
      (hasWal : Bool) (idx : ℕ) (data : Bytes) (wal : Except Error Unit)
      (hrun : runAlone (VerifiableIndex.perform wal) (indexEntry mapFn hasWal idx data) s =
        (result, s'))
      (hresult : result ≠ .error .panic) : Reachable mapFn s'
  | snapshot {s : VerifiableIndex} (h : Reachable mapFn s) :
      Reachable mapFn { s with entriesSinceSnapshot := 0 }

theorem Reachable.ordered {mapFn : Bytes → List IndexKey} {s : VerifiableIndex}
    (h : Reachable mapFn s) :
    Ordered s.treeSize s.index := by
  induction h with
  | new maxKeys maxIndicesPerKey => exact ordered_empty
  | withWal hsnapshot hrun => exact withWal_ordered hsnapshot hrun
  | @indexEntry s s' result h hasWal idx data wal hrun hresult ih =>
    rcases indexEntry_cases mapFn hasWal idx data wal
      s with hpanic | hsame | ⟨index, tree, rfl, hlt, -, hrecord, hdone⟩
    · rw [hrun] at hpanic
      exact absurd hpanic hresult
    · rw [hrun] at hsame
      obtain rfl : s' = s := hsame
      exact ih
    · rw [hrun] at hdone
      obtain ⟨-, rfl⟩ := Prod.mk.inj hdone
      apply ih.next hlt (· ∈ sortedKeys (mapFn data))
      intro key
      have hnew : s.treeSize ∉ indicesOf s.index key :=
        fun hmem => lt_irrefl _ ((ih.indices key).below _ hmem)
      simpa only [hnew, not_false_eq_true, and_true] using record_indices hrecord key
  | snapshot h ih => exact ih

/-- A snapshot of a state that is reached is read back. On all bytes the parser ends
without a panic, and what it reads is in order and is written as the same bytes. -/
theorem snapshot_format :
    (∀ (mapFn : Bytes → List IndexKey) (s : VerifiableIndex), Reachable mapFn s →
      (∀ r ∈ s.index.entries, r.2.length < 2 ^ 32) →
      ∀ records, records.Perm s.index.entries → (writeSnapshot s.treeSize records).length ≤ i64Max →
        ∃ index, parseSnapshot (writeSnapshot s.treeSize records) = .ok (s.treeSize, index) ∧
          ∀ key, index.lookup key = s.index.lookup key) ∧
    ∀ data : Bytes, data.length ≤ i64Max → parseSnapshot data ≠ .error .panic ∧
      ∀ treeSize index, parseSnapshot data = .ok (treeSize, index) →
        (∀ r ∈ index.entries, OrderedBelow treeSize r.2) ∧
        (index.entries.map Sigma.fst).Nodup ∧ ∃ records, records.Perm index.entries ∧
        writeSnapshot treeSize records = data := by
  refine ⟨fun mapFn s hs hcount records hperm hlen => ?_, fun data hdata => ?_⟩
  · have hordered := hs.ordered
    have hkeys : (s.index.entries.map Sigma.fst).Nodup := s.index.nodupKeys
    have hof : SnapshotOf s.treeSize records := by
      refine ⟨hordered.size, fun r hr => ?_, ((hperm.map Sigma.fst).nodup_iff).mpr hkeys⟩
      have hmem := hperm.mem_iff.mp hr
      have hindices : indicesOf s.index r.1 = r.2 := by
        rw [indicesOf, AList.mem_lookup_iff.mpr hmem]
        rfl
      exact ⟨hindices ▸ hordered.indices r.1, hcount r hmem⟩
    refine ⟨_, hof.parse hlen, fun key => AList.perm_lookup ?_⟩
    rw [hof.entries]
    exact (List.reverse_perm records).trans hperm
  · rcases parseSnapshot_written hdata with ⟨e, herr⟩ | ⟨treeSize, records, hof, hread, hwritten⟩
    · rw [herr]
      exact ⟨by simp, by simp⟩
    · rw [hread]
      refine ⟨by simp, fun treeSize' index h => ?_⟩
      obtain ⟨rfl, rfl⟩ := Prod.mk.inj (Except.ok.inj h)
      have hperm : records.Perm (insertRecords ∅ records).entries := by
        rw [hof.entries]
        exact (List.reverse_perm records).symm
      refine ⟨fun r hr => (hof.fits r (hperm.mem_iff.mpr hr)).indices, ?_, records, hperm, hwritten⟩
      exact (insertRecords ∅ records).nodupKeys

end

end Siglog.Vindex

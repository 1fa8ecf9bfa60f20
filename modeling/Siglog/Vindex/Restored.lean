import Siglog.Vindex.Recovery

/-! What is restored from a snapshot of the first entries and a WAL of later ones, which may
run ahead of the expected size and end in a torn record: the index of the entries below that
size. The WAL may still hold records that the snapshot covers. -/

namespace Siglog.Vindex

section

variable (mapFn : Bytes → List IndexKey) (entries : ℕ → Bytes)

/-! ### The map of the first entries -/

/-- The map of the first `n` entries: a key that none of them has is not in it. -/
def specMap (n : ℕ) (key : IndexKey) : Option (List ℕ) :=
  if spec mapFn entries n key = [] then none else some (spec mapFn entries n key)

/-- The index is the map of the first `n` entries. -/
def Spells (n : ℕ) (index : IndexMap) : Prop :=
  ∀ key, index.lookup key = specMap mapFn entries n key

/-- What the WAL says of an entry. -/
def walValue (i : ℕ) : ℕ × List IndexKey := (i, sortedKeys (mapFn (entries i)))

end

variable {mapFn : Bytes → List IndexKey} {entries : ℕ → Bytes}

theorem spells_iff {n : ℕ} {index : IndexMap} : Spells mapFn entries n index ↔
    (∀ key, indicesOf index key = spec mapFn entries n key) ∧
    ∀ key, index.lookup key ≠ some [] := by
  constructor
  · intro h
    refine ⟨fun key => ?_, fun key => ?_⟩
    · rw [indicesOf, h key, specMap]
      split_ifs with hnil
      · exact hnil.symm
      · rfl
    · rw [h key, specMap]
      split_ifs with hnil
      · simp
      · simpa using hnil
  · rintro ⟨hindices, hne⟩ key
    rw [specMap, ← hindices key, indicesOf]
    cases hlookup : index.lookup key with
    | none => rfl
    | some indices =>
      have hnil : indices ≠ [] := by
        rintro rfl
        exact hne key hlookup
      exact (if_neg hnil).symm

/-- The indices of the map are in order. -/
theorem orderedBelow_spec (n : ℕ) (key : IndexKey) : OrderedBelow n (spec mapFn entries n key) := by
  refine ⟨List.pairwise_lt_range.filter _, fun idx hidx => ?_⟩
  exact List.mem_range.mp (List.mem_of_mem_filter hidx)

theorem spells_empty : Spells mapFn entries 0 ∅ := by
  intro key
  rw [AList.lookup_empty]
  rfl

/-- The records are those of a map, in any order. -/
structure Enumerates (records : List KeyRecord) (m : IndexKey → Option (List ℕ)) : Prop where
  keys : (records.map Sigma.fst).Nodup
  mem : ∀ key indices, (⟨key, indices⟩ : KeyRecord) ∈ records ↔ m key = some indices

theorem enumerates_perm {index : IndexMap} {records : List KeyRecord}
    (h : records.Perm index.entries) :
    Enumerates records index.lookup := by
  refine ⟨((h.map Sigma.fst).nodup_iff).mpr index.nodupKeys, fun key indices => ?_⟩
  rw [h.mem_iff]
  exact AList.mem_lookup_iff.symm

section

variable [Sha256]

/-- The insertions that build a tree from records. -/
def treeOps (records : List KeyRecord) : List (Bytes32 × Bytes32) :=
  records.map fun r => (r.1, computeValueHash r.2)

open PrefixTree (writes lastWrites) in
theorem writes_treeOps {records : List KeyRecord} (hkeys : (records.map Sigma.fst).Nodup)
    (m : Bytes32 → Option Bytes32) (key : IndexKey) :
    (∀ r ∈ records, r.1 = key → writes m (treeOps records) key = some (computeValueHash r.2)) ∧
      ((∀ r ∈ records, r.1 ≠ key) → writes m (treeOps records) key = m key) := by
  induction records generalizing m with
  | nil => exact ⟨by simp, fun _ => rfl⟩
  | cons r records ih =>
    rw [List.map_cons, List.nodup_cons] at hkeys
    obtain ⟨hmem, hnot⟩ := ih hkeys.2 (Function.update m r.1 (some (computeValueHash r.2)))
    have hstep : writes m (treeOps (r :: records)) =
        writes (Function.update m r.1 (some (computeValueHash r.2))) (treeOps records) := rfl
    rw [hstep]
    refine ⟨fun r' hr' heq => ?_, fun hall => ?_⟩
    · rcases List.mem_cons.mp hr' with rfl | hr'
      · subst heq
        rw [hnot, Function.update_self]
        rintro r'' hr'' heq
        exact hkeys.1 (List.mem_map.mpr ⟨r'', hr'', heq⟩)
      · exact hmem r' hr' heq
    · rw [List.forall_mem_cons] at hall
      rw [hnot hall.2, Function.update_of_ne (Ne.symm hall.1)]

/-- A tree that is built from the records of a map holds the value hashes of the map. -/
theorem Enumerates.holds {records : List KeyRecord} {m : IndexKey → Option (List ℕ)}
    (h : Enumerates records m) :
    ∃ tree, PrefixTree.new.insertAll (treeOps records) = .ok tree ∧
      tree.Holds fun key => (m key).map computeValueHash := by
  obtain ⟨tree, hrun, hholds⟩ := PrefixTree.holds_new.insertAll (treeOps records)
  refine ⟨tree, hrun, ?_⟩
  have hmap : PrefixTree.writes (fun _ => none) (treeOps records) = fun key =>
      (m key).map computeValueHash := by
    funext key
    obtain ⟨hmem, hnot⟩ := writes_treeOps h.keys (fun _ => none) key
    cases hkey : m key with
    | some indices => exact hmem ⟨key, indices⟩ ((h.mem key indices).mpr hkey) rfl
    | none =>
      refine hnot fun r hr heq => ?_
      obtain ⟨k, indices⟩ := r
      obtain rfl : k = key := heq
      rw [(h.mem k indices).mp hr] at hkey
      cases hkey
  exact hmap ▸ hholds

theorem Mirrors.spells {n : ℕ} {s : VerifiableIndex} (h : Mirrors mapFn entries n s) :
    Spells mapFn entries n s.index :=
  spells_iff.mpr ⟨h.indices, h.sound.ne_nil⟩

/-- The root of an index is that of a tree which is built from its map. -/
theorem Mirrors.rootHash_eq {n : ℕ} {s : VerifiableIndex} (h : Mirrors mapFn entries n s)
    {records : List KeyRecord} (hrecords : Enumerates records (specMap mapFn entries n)) :
    ∃ tree, PrefixTree.new.insertAll (treeOps records) = .ok tree ∧ s.rootHash = tree.rootHash := by
  obtain ⟨tree, hrun, hholds⟩ := hrecords.holds
  have hmap : (fun key => (s.index.lookup key).map computeValueHash) =
      fun key => (specMap mapFn entries n key).map computeValueHash := by
    funext key
    rw [h.spells key]
  have hsame : s.prefixTree = tree := h.sound.holds.unique (hmap ▸ hholds)
  exact ⟨tree, hrun, congrArg PrefixTree.rootHash hsame⟩

end

/-! ### The replay -/

theorem replayKeys_ne_nil {idx : ℕ} {keys : List IndexKey} {index : IndexMap}
    {seen : List (ℕ × IndexKey)} (h : ∀ key, index.lookup key ≠ some []) (key : IndexKey) :
    (replayKeys idx keys index seen).1.lookup key ≠ some [] := by
  induction keys generalizing index seen with
  | nil => exact h key
  | cons k keys ih =>
    rw [replayKeys]
    split_ifs with hseen
    · exact ih h
    · refine ih fun key' => ?_
      by_cases hk : key' = k
      · subst hk
        rw [AList.lookup_insert]
        simp
      · rw [AList.lookup_insert_ne hk]
        exact h key'

/-- The keys of the next entry. -/
theorem Spells.replayKeys {n : ℕ} {index : IndexMap} (h : Spells mapFn entries n index)
    {seen : List (ℕ × IndexKey)} (hseen : ∀ e ∈ seen, e.1 < n) :
    Spells mapFn entries (n + 1) (replayKeys n (sortedKeys (mapFn (entries n))) index seen).1 := by
  obtain ⟨hindices, hne⟩ := spells_iff.mp h
  refine spells_iff.mpr ⟨fun key => ?_, replayKeys_ne_nil hne⟩
  have hfresh : (n, key) ∉ seen := fun hmem => lt_irrefl n (hseen _ hmem)
  rw [replayKeys_indices, hindices, spec_succ]
  simp only [mem_sortedKeys, hfresh, not_false_eq_true, and_true]

variable [Crc32]

theorem replay_below {r next : WalReader} {entry : ℕ × List IndexKey}
    (h : r.nextEntry = (.ok (some entry), next))
    {baseSize : ℕ} (hbelow : entry.1 < baseSize) (treeSize : ℕ) (index : IndexMap)
    (seen : List (ℕ × IndexKey)) :
    replay baseSize r treeSize index seen = replay baseSize next treeSize index seen := by
  obtain ⟨idx, keys⟩ := entry
  rw [replay]
  split <;> simp_all

theorem replay_at {r next : WalReader} {treeSize : ℕ} {keys : List IndexKey}
    (h : r.nextEntry = (.ok (some (treeSize, keys)), next)) {baseSize : ℕ}
    (hbase : baseSize ≤ treeSize)
    (hfits : treeSize + 1 < 2 ^ 64) (index : IndexMap) (seen : List (ℕ × IndexKey)) :
    replay baseSize r treeSize index seen =
      replay baseSize next (treeSize + 1) (replayKeys treeSize keys index seen).1
        (replayKeys treeSize keys index seen).2 := by
  have hmax : max treeSize (treeSize + 1) = treeSize + 1 := by omega
  have hlow : ¬ treeSize < baseSize := not_lt.mpr hbase
  rw [replay]
  split <;> simp_all [checkedAdd_ok (ε := Error) hfits]

/-- Records that the snapshot covers are skipped. -/
theorem replay_covered {baseSize : ℕ} {old : List WalRecord} (hold : ∀ r ∈ old, r.idx < baseSize)
    (rest : Bytes) (pos treeSize : ℕ) (index : IndexMap) (seen : List (ℕ × IndexKey)) :
    replay baseSize ⟨WalRecord.file old ++ rest, pos⟩ treeSize index seen =
      replay baseSize ⟨rest, pos + (WalRecord.file old).length⟩ treeSize index seen := by
  induction old generalizing pos with
  | nil => rfl
  | cons r old ih =>
    rw [List.forall_mem_cons] at hold
    have hbelow : r.value.1 < baseSize := hold.1
    rw [WalRecord.file_cons, List.append_assoc, replay_below (nextEntry_record r _ pos) hbelow,
      ih hold.2, List.length_append, Nat.add_assoc]

/-- Records of the next entries are replayed one after the other. -/
theorem replay_next {baseSize : ℕ} {new : List WalRecord} {treeSize : ℕ}
    (hbase : baseSize ≤ treeSize) (hnew : new.map WalRecord.value =
      (List.range' treeSize new.length).map (walValue mapFn entries))
    (hfits : treeSize + new.length < 2 ^ 64) (pos : ℕ) {index : IndexMap}
    {seen : List (ℕ × IndexKey)}
    (hindex : Spells mapFn entries treeSize index) (hseen : ∀ e ∈ seen, e.1 < treeSize) :
    ∃ index', replay baseSize ⟨WalRecord.file new, pos⟩ treeSize index seen =
      .ok (treeSize + new.length, index') ∧
      Spells mapFn entries (treeSize + new.length) index' := by
  induction new generalizing treeSize pos index seen with
  | nil =>
    refine ⟨index, ?_, hindex⟩
    rw [replay]
    rfl
  | cons r new ih =>
    rw [List.length_cons, List.range'_succ, List.map_cons, List.map_cons, List.cons.injEq] at hnew
    rw [List.length_cons] at hfits ⊢
    have hidx : r.value = (treeSize, sortedKeys (mapFn (entries treeSize))) := hnew.1
    obtain ⟨index', hrun, hspells⟩ :=
      @ih (treeSize + 1) (by omega) hnew.2 (by omega) (pos + r.bytes.length)
      _ (replayKeys treeSize (sortedKeys (mapFn (entries treeSize))) index seen).2
        (hindex.replayKeys hseen) (by
        intro e he
        rcases mem_replayKeys he with hold | hnow
        · exact Nat.lt_succ_of_lt (hseen e hold)
        · omega)
    rw [show treeSize + 1 + new.length = treeSize + (new.length + 1) by omega] at hrun hspells
    refine ⟨index', ?_, hspells⟩
    have hnext := nextEntry_record r (WalRecord.file new) pos
    rw [hidx] at hnext
    rw [WalRecord.file_cons, replay_at hnext hbase (by omega)]
    exact hrun

theorem file_eq_nil {records : List WalRecord} (h : WalRecord.file records = []) :
    records = [] := by
  rw [WalRecord.file, List.flatMap_eq_nil_iff] at h
  rw [List.eq_nil_iff_forall_not_mem]
  intro r hr
  obtain ⟨version, body, hbytes, -⟩ := on_readEntry r
  have hempty := h r hr
  rw [hbytes] at hempty
  cases hempty

/-! ### The files -/

omit [Crc32] in
variable (mapFn entries) in
/-- The WAL holds records of entries below `b`, which a snapshot covers, and behind them one
for each entry from `b` up to `c`. -/
def Logs (b c : ℕ) (wal : Bytes) : Prop :=
  b ≤ c ∧ ∃ old new : List WalRecord, wal = WalRecord.file (old ++ new) ∧
  old.Pairwise (fun x y => x.idx < y.idx) ∧ (∀ r ∈ old, r.idx < b) ∧
    new.map WalRecord.value = (List.range' b (c - b)).map (walValue mapFn entries)

variable (mapFn entries) in
/-- The snapshot is that of the first `b` entries. No snapshot is that of no entry. -/
def Covers (b : ℕ) (snapshot : Option Bytes) : Prop := ∃ base, readSnapshot snapshot = .ok base ∧
  (base.getD (0, ∅)).1 = b ∧ Spells mapFn entries b (base.getD (0, ∅)).2

theorem covers_none : Covers mapFn entries 0 none := ⟨none, rfl, rfl, spells_empty⟩

theorem logs_nil (b : ℕ) : Logs mapFn entries b b [] :=
  ⟨le_rfl, [], [], rfl, .nil, by simp, by simp⟩

omit [Crc32] in
theorem map_idx_of_value {new : List WalRecord} {b k : ℕ}
    (h : new.map WalRecord.value = (List.range' b k).map (walValue mapFn entries)) :
    new.map WalRecord.idx = List.range' b k := by
  have hfst := congrArg (List.map Prod.fst) h
  rw [List.map_map, List.map_map] at hfst
  have hid : (List.range' b k).map (Prod.fst ∘ walValue mapFn entries) = List.range' b k :=
    List.map_id _
  rwa [hid] at hfst

omit [Crc32] in
theorem sorted_of_value {old new : List WalRecord} {b k : ℕ}
    (hsorted : old.Pairwise fun x y => x.idx < y.idx)
    (hold : ∀ r ∈ old, r.idx < b)
    (h : new.map WalRecord.value = (List.range' b k).map (walValue mapFn entries)) :
    (old ++ new).Pairwise fun x y => x.idx < y.idx := by
  have hidx := map_idx_of_value h
  rw [List.pairwise_append]
  refine ⟨hsorted, ?_, fun x hx y hy => ?_⟩
  · rw [← List.pairwise_map (f := WalRecord.idx) (R := (· < ·)), hidx]
    exact List.pairwise_lt_range'
  · have hmem : y.idx ∈ List.range' b k := hidx ▸ List.mem_map_of_mem hy
    exact lt_of_lt_of_le (hold x hx) (List.mem_range'_1.mp hmem).1

/-- A snapshot of all entries covers all records. -/
theorem Logs.cover {b c : ℕ} {wal : Bytes} (h : Logs mapFn entries b c wal) :
    Logs mapFn entries c c wal := by
  obtain ⟨hle, old, new, rfl, hsorted, hold, hnew⟩ := h
  have hidx := map_idx_of_value hnew
  refine ⟨le_rfl, old ++ new, [], by
      rw [List.append_nil], sorted_of_value hsorted hold hnew, fun r hr => ?_, by simp⟩
  rcases List.mem_append.mp hr with hr | hr
  · exact lt_of_lt_of_le (hold r hr) hle
  · have hmem : r.idx ∈ List.range' b (c - b) := hidx ▸ List.mem_map_of_mem hr
    have := (List.mem_range'_1.mp hmem).2
    omega

/-- The record of the next entry. -/
theorem Logs.push {b c : ℕ} {wal : Bytes} (h : Logs mapFn entries b c wal) {e : WalEntry}
    (he : (e.idx, e.keys) = walValue mapFn entries c) :
    Logs mapFn entries b (c + 1) (wal ++ (WalRecord.checked e).bytes) := by
  obtain ⟨hle, old, new, rfl, hsorted, hold, hnew⟩ := h
  refine ⟨Nat.le_succ_of_le hle, old, new ++ [.checked e], by
      simp [WalRecord.file], hsorted, hold, ?_⟩
  have hlast : b + (c - b) = c := by omega
  rw [show c + 1 - b = c - b + 1 by
      omega, List.range'_concat, List.map_append, List.map_append, hnew, one_mul, hlast,
    List.map_singleton, List.map_singleton, ← he]
  rfl

omit [Crc32] in
/-- The records that are kept: all old ones, and the new ones below the expected size. -/
theorem recordsBelow_eq {old new : List WalRecord} {b c n : ℕ} (hold : ∀ r ∈ old, r.idx < b)
    (hbn : b ≤ n) (hnc : n ≤ c)
    (hnew : new.map WalRecord.value = (List.range' b (c - b)).map (walValue mapFn entries)) :
    recordsBelow n (old ++ new) = old ++ new.take (n - b) := by
  have hidx := map_idx_of_value hnew
  have hlen : new.length = c - b := by simpa using congrArg List.length hidx
  rw [recordsBelow,
    List.takeWhile_append_of_pos fun r hr => decide_eq_true (lt_of_lt_of_le (hold r hr) hbn)]
  congr 1
  have hmem : ∀ r ∈ new.take (n - b), decide (r.idx < n) = true := by
    intro r hr
    have hin : r.idx ∈ (List.range' b (c - b)).take (n - b) := by
      rw [← hidx, ← List.map_take]
      exact List.mem_map_of_mem hr
    rw [List.take_range'_of_length_ge (by omega)] at hin
    have := (List.mem_range'_1.mp hin).2
    rw [decide_eq_true_eq]
    omega
  have hdrop : (new.drop (n - b)).takeWhile (fun r => decide (r.idx < n)) = [] := by
    cases hrest : new.drop (n - b) with
    | nil => rfl
    | cons r rest =>
      have hfirst : (List.range' b (c - b)).drop (n - b) = r.idx :: rest.map WalRecord.idx := by
        rw [← hidx, ← List.map_drop, hrest]
        rfl
      rw [List.drop_range'] at hfirst
      have hne : c - b - (n - b) ≠ 0 := by
        intro hzero
        rw [hzero] at hfirst
        cases hfirst
      obtain ⟨k, hk⟩ := Nat.exists_eq_succ_of_ne_zero hne
      rw [hk, List.range'_succ, List.cons.injEq] at hfirst
      exact List.takeWhile_cons_of_neg (by rw [decide_eq_true_eq]; omega)
  conv_lhs => rw [← List.take_append_drop (n - b) new]
  rw [List.takeWhile_append_of_pos hmem, hdrop, List.append_nil]

/-- Of a WAL that covers the expected size, what is below that size is kept. -/
theorem Logs.validate {b c n : ℕ} {wal rest : Bytes} (h : Logs mapFn entries b c wal)
    (hstop : ∀ pos, WalReader.Stops ⟨rest, pos⟩)
    {file : Option Bytes} (hfile : file.getD [] = wal ++ rest) (hbn : b ≤ n) (hnc : n ≤ c) :
    ∃ actual left, validateAndTruncateWal file n = (actual, left) ∧ n ≤ max b actual ∧
      Logs mapFn entries b n (left.getD []) := by
  obtain ⟨hle, old, new, rfl, hsorted, hold, hnew⟩ := h
  have hidx := map_idx_of_value hnew
  have hlen : new.length = c - b := by simpa using congrArg List.length hidx
  have hkept := recordsBelow_eq hold hbn hnc hnew
  have htake : (new.take (n - b)).map WalRecord.value =
      (List.range' b (n - b)).map (walValue mapFn entries) := by
    rw [List.map_take, hnew, ← List.map_take, List.take_range'_of_length_ge (by omega)]
  cases file with
  | none =>
    -- there is no record in a file that is not there
    have hnone : WalRecord.file (old ++ new) ++ rest = [] := hfile.symm
    have hnil := file_eq_nil (List.append_eq_nil_iff.mp hnone).1
    rw [(List.append_eq_nil_iff.mp hnil).2, List.length_nil] at hlen
    have hsame : n = b := by omega
    subst hsame
    exact ⟨0, none, rfl, le_max_left _ _, logs_nil n⟩
  | some data =>
    obtain rfl : data = WalRecord.file (old ++ new) ++ rest := hfile
    refine ⟨_, _, validateAndTruncateWal_file n hstop (sorted_of_value hsorted hold hnew), ?_, ?_⟩
    · rw [hkept]
      rcases Nat.eq_or_lt_of_le hbn with rfl | hlt
      · exact le_max_left _ _
      · have hlast : ((old ++ new.take (n - b)).map WalRecord.idx).getLast? = some (n - 1) := by
          rw [List.map_append, map_idx_of_value htake, List.getLast?_append, List.getLast?_range',
            if_neg (by omega), Option.some_or, Nat.add_sub_cancel' hbn]
        rw [List.getLast?_map] at hlast
        have hnext : (old ++ new.take (n - b)).getLast?.map (·.idx + 1) = some (n - 1 + 1) := by
          have := congrArg (Option.map (· + 1)) hlast
          rwa [Option.map_map] at this
        rw [hnext, Option.getD_some, Nat.sub_add_cancel (by omega)]
        exact le_max_right _ _
    · rw [hkept]
      exact ⟨hbn, old, new.take (n - b), rfl, hsorted, hold, htake⟩

/-- What is replayed on top of the snapshot. -/
theorem Logs.replay {b n : ℕ} {wal : Bytes} (h : Logs mapFn entries b n wal) (hn : n < 2 ^ 64)
    {file : Option Bytes}
    (hfile : file.getD [] = wal) {index : IndexMap} (hindex : Spells mapFn entries b index) :
    ∃ index', replayWal b index file = .ok (n, index') ∧ Spells mapFn entries n index' := by
  obtain ⟨hle, old, new, rfl, hsorted, hold, hnew⟩ := h
  have hlen : new.length = n - b := by simpa using congrArg List.length hnew
  have hsize : b + new.length = n := by omega
  cases file with
  | none =>
    obtain ⟨-, rfl⟩ := List.append_eq_nil_iff.mp (file_eq_nil hfile.symm)
    obtain rfl : b = n := hsize
    exact ⟨index, rfl, hindex⟩
  | some data =>
    obtain rfl : data = WalRecord.file (old ++ new) := hfile
    have hfile : WalRecord.file (old ++ new) = WalRecord.file old ++ WalRecord.file new :=
      List.flatMap_append
    have hrun := replay_next (le_refl b) (hlen ▸ hnew) (by omega) (WalRecord.file old).length hindex
      (fun e he => absurd he List.not_mem_nil)
    rw [hsize] at hrun
    rw [replayWal, hfile, replay_covered hold, Nat.zero_add]
    exact hrun

variable [Sha256]

/-- The index is restored from a snapshot and a WAL that cover the expected size between them. -/
theorem withWal_restores {walk : IndexMap → List KeyRecord}
    (hwalk : ∀ index, (walk index).Perm index.entries)
    (maxKeys maxIndicesPerKey : ℕ) {b c n : ℕ} {snapshot file : Option Bytes} {wal rest : Bytes}
    (hsnapshot : Covers mapFn entries b snapshot) (hwal : Logs mapFn entries b c wal)
    (hstop : ∀ pos, WalReader.Stops ⟨rest, pos⟩) (hfile : file.getD [] = wal ++ rest) (hbn : b ≤ n)
    (hnc : n ≤ c) (hn : n < 2 ^ 64) :
    ∃ s left, withWal walk maxKeys maxIndicesPerKey snapshot file n = (.ok s, some left) ∧
      s.treeSize = n ∧ s.poisoned = false ∧ s.maxKeys = maxKeys ∧
      s.maxIndicesPerKey = maxIndicesPerKey ∧
      Mirrors mapFn entries n s ∧ Logs mapFn entries b n left := by
  obtain ⟨base, hread, hsize, hindex⟩ := hsnapshot
  obtain ⟨actual, left, hvalidate, hcovered, hleft⟩ := hwal.validate hstop hfile hbn hnc
  obtain ⟨index, hreplay, hspells⟩ := hleft.replay hn rfl hindex
  have hrecords : Enumerates (walk index) (specMap mapFn entries n) := by
    have henum := enumerates_perm (hwalk index)
    have hmap : index.lookup = specMap mapFn entries n := funext hspells
    rwa [hmap] at henum
  obtain ⟨tree, hrun, hholds⟩ := hrecords.holds
  have hsub : (checkedSub n b : Except (Fault Error) ℕ) = .ok (n - b) := checkedSub_ok hbn
  have hrestore : restore walk maxKeys maxIndicesPerKey b (base.getD (0, ∅)).2 left =
      .ok ⟨index, n, false, tree, n - b, maxKeys, maxIndicesPerKey⟩ := by
    rw [restore, hreplay]
    simp only [bind, Except.bind]
    rw [← treeOps, hrun]
    dsimp only
    rw [hsub]
  refine ⟨⟨index, n, false, tree, n - b, maxKeys, maxIndicesPerKey⟩, left.getD [], ?_, rfl, rfl,
    rfl, rfl, ?_, hleft⟩
  · rw [withWal, hread]
    dsimp only
    rw [hsize, if_neg (by omega), hvalidate]
    dsimp only
    rw [if_neg (by omega), hrestore]
  · obtain ⟨hindices, hne⟩ := spells_iff.mp hspells
    have hmap : (fun key => (specMap mapFn entries n key).map computeValueHash) =
        fun key => (index.lookup key).map computeValueHash := by
      funext key
      rw [hspells key]
    exact ⟨⟨hmap ▸ hholds, hne⟩, hindices⟩

/-! ### A snapshot alone -/

omit [Sha256] in
theorem replayWal_nil {file : Option Bytes} (hfile : file.getD [] = []) (n baseSize : ℕ)
    (index : IndexMap) :
    replayWal baseSize index (validateAndTruncateWal file n).2 = .ok (baseSize, index) := by
  cases file with
  | none => rfl
  | some data =>
    obtain rfl : data = [] := hfile
    rw [validateAndTruncateWal, scanWal_stops (stops_nil 0)]
    rw [replayWal, List.length_nil, if_neg (lt_irrefl 0), replay]
    rfl

/-- What is restored without a WAL has no more indices than a snapshot has room for. -/
theorem withWal_counts {walk : IndexMap → List KeyRecord} {maxKeys maxIndicesPerKey n : ℕ}
    {data : Bytes} {file left : Option Bytes}
    {s : VerifiableIndex} (hdata : data.length ≤ i64Max) (hfile : file.getD [] = [])
    (h : withWal walk maxKeys maxIndicesPerKey (some data) file n = (.ok s, left))
    (key : IndexKey) :
    (indicesOf s.index key).length < 2 ^ 32 := by
  obtain ⟨base, hread, hreplay⟩ := withWal_ok h
  rw [replayWal_nil hfile] at hreplay
  obtain ⟨-, hindex⟩ := Prod.mk.inj (Except.ok.inj hreplay)
  rw [← hindex]
  rcases readSnapshot_ok hdata hread with rfl | ⟨treeSize, records, hof, rfl⟩
  · exact Nat.two_pow_pos 32
  · change (indicesOf (insertRecords ∅ records) key).length < 2 ^ 32
    rw [indicesOf]
    cases hlookup : (insertRecords ∅ records).lookup key with
    | none => exact Nat.two_pow_pos 32
    | some indices =>
      have hmem := AList.mem_lookup_iff.mp hlookup
      rw [hof.entries, List.mem_reverse] at hmem
      exact (hof.fits _ hmem).count

end Siglog.Vindex

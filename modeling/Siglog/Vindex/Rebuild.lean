import Siglog.Vindex.Crash
import Siglog.Vindex.Restored

/-! One call to index the next entry, with its record in the WAL, and the rebuild of the
index from the entry bundles of the log. A rebuild gets past the limits if the entries have
been indexed under them before. -/

namespace Siglog.Vindex

open Api (partialTileSize tileWidth tileWidth_eq)
open Concurrent (DurableFile Prog)
open Concurrent.Sys (opsAlone runAlone)
open Merkle (EntryBundle)
open VerifiableIndex (record)

variable [Sha256]

/-! ### The next entry -/

/-- The index is that of the first `n` entries, with the limits of the process. -/
structure Indexed (c : Setup) (entries : ℕ → Bytes) (n : ℕ) (s : VerifiableIndex) : Prop where
  mirrors : Mirrors c.mapFn entries n s
  treeSize : s.treeSize = n
  sane : s.poisoned = false
  maxKeys : s.maxKeys = c.maxKeys
  maxIndicesPerKey : s.maxIndicesPerKey = c.maxIndicesPerKey

/-- The next entry passes the checks. -/
def Fits (c : Setup) (entries : ℕ → Bytes) (n : ℕ) (s : VerifiableIndex) : Prop :=
  (sortedKeys (c.mapFn (entries n))).length ≤ maxKeysPerEntry ∧
    (sortedKeys (c.mapFn (entries n)) = [] ∨
      s.checkLimits (sortedKeys (c.mapFn (entries n))) = .ok ())

variable {c : Setup} {entries : ℕ → Bytes} {n : ℕ} {s : VerifiableIndex}

theorem Indexed.count (h : Indexed c entries n s) (k : ℕ) :
    Indexed c entries n { s with entriesSinceSnapshot := k } :=
  ⟨⟨h.mirrors.sound, h.mirrors.indices⟩, h.treeSize, h.sane, h.maxKeys, h.maxIndicesPerKey⟩

omit [Sha256] in
/-- The checks depend on what is looked up only. -/
theorem checkLimits_congr {s s' : VerifiableIndex}
    (hindex : ∀ key, s.index.lookup key = s'.index.lookup key)
    (hmax : s.maxKeys = s'.maxKeys) (hmaxIndices : s.maxIndicesPerKey = s'.maxIndicesPerKey)
    (keys : List IndexKey) :
    s.checkLimits keys = s'.checkLimits keys := by
  have hmem (key : IndexKey) : key ∈ s.index ↔ key ∈ s'.index := by
    rw [← AList.lookup_isSome, ← AList.lookup_isSome, hindex]
  have hkeys : s.index.keys.length = s'.index.keys.length := by
    apply List.Perm.length_eq
    rw [List.perm_ext_iff_of_nodup s.index.keys_nodup s'.index.keys_nodup]
    exact hmem
  simp only [VerifiableIndex.checkLimits, hkeys, hmem, hindex, hmax, hmaxIndices]

/-- An entry that is admitted once is admitted by every index of the same entries. -/
theorem Fits.congr {s' : VerifiableIndex} (hfits : Fits c entries n s) (h : Indexed c entries n s)
    (h' : Indexed c entries n s') :
    Fits c entries n s' := by
  refine ⟨hfits.1, hfits.2.imp_right fun hcheck => ?_⟩
  rw [← hcheck]
  apply checkLimits_congr
  · intro key
    rw [h'.mirrors.spells key, h.mirrors.spells key]
  · exact h'.maxKeys.trans h.maxKeys.symm
  · exact h'.maxIndicesPerKey.trans h.maxIndicesPerKey.symm

variable [Crc32]

/-- An entry that passes the checks gets its record, and the index is that of one entry more. -/
theorem Indexed.next (h : Indexed c entries n s) (hn : n + 1 < 2 ^ 64) (hfits : Fits c entries n s)
    (wal : DurableFile UInt8) :
    ∃ (s' : VerifiableIndex) (e : WalEntry), (e.idx, e.keys) = walValue c.mapFn entries n ∧
      indexOn c n (entries n) s wal = (.ok (), s', wal.write (WalRecord.checked e).bytes) ∧
      Indexed c entries (n + 1) s' ∧
        s'.entriesSinceSnapshot = s.entriesSinceSnapshot + 1 := by
  obtain ⟨hkeys, hlimits⟩ := hfits
  obtain ⟨mirrors, rfl, sane, hmax, hmaxIndices⟩ := h
  obtain ⟨index, tree, hrecord, hsound, hindices⟩ :=
    record_sound mirrors.sound s.treeSize (sortedKeys (c.mapFn (entries s.treeSize)))
  have hspec (key : IndexKey) :
      indicesOf index key = spec c.mapFn entries (s.treeSize + 1) key := by
    rw [hindices, mirrors.indices, spec_succ]
    simp only [mem_sortedKeys, not_mem_spec, not_false_eq_true, and_true]
  let e : WalEntry := ⟨s.treeSize, sortedKeys (c.mapFn (entries s.treeSize)), by omega, hkeys⟩
  have hbytes : encodeEntry [] s.treeSize (sortedKeys (c.mapFn (entries s.treeSize))) =
      (WalRecord.checked e).bytes :=
    encodeEntry_eq [] e
  refine ⟨s.recorded index tree, e, rfl, ?_, ⟨⟨hsound, hspec⟩, rfl, sane, hmax, hmaxIndices⟩, rfl⟩
  rw [← hbytes, indexOn]
  have hmany : ¬ maxKeysPerEntry < (sortedKeys (c.mapFn (entries s.treeSize))).length :=
    not_lt.mpr hkeys
  have hgrow : (checkedAdd s.treeSize 1 : Except (Fault Error) ℕ) = .ok (s.treeSize + 1) :=
    checkedAdd_ok hn
  by_cases hnone : sortedKeys (c.mapFn (entries s.treeSize)) = []
  · rw [hnone] at hrecord hmany
    rw [record] at hrecord
    obtain ⟨rfl, rfl⟩ := Prod.mk.inj (Except.ok.inj hrecord)
    simp [indexEntry, Prog.call, Prog.ofExcept, ofResult, Except.mapError, runAlone, opsAlone,
      VerifiableIndex.perform,
      VerifiableIndex.readTreeSize, VerifiableIndex.recorded, walBytes, sane, hnone, hgrow]
  · have hcheck := hlimits.resolve_left hnone
    simp [indexEntry, Prog.call, Prog.ofExcept, ofResult, Except.mapError, runAlone, opsAlone,
      VerifiableIndex.perform,
      VerifiableIndex.readTreeSize, VerifiableIndex.recorded, walBytes, sane, hnone, hgrow, hmany,
      hcheck, hrecord]

/-- Any other call fails or finds its entry indexed, and writes nothing. -/
theorem Indexed.kept (h : Indexed c entries n s) {idx : ℕ} (hother : idx = n → ¬ Fits c entries n s)
    (wal : DurableFile UInt8) :
    ∃ result, indexOn c idx (entries idx) s wal = (result, s, wal.write []) ∧
      (result = .ok () → idx < n) := by
  have hsize := h.treeSize
  have hsane := h.sane
  rcases Nat.lt_trichotomy idx n with hlt | rfl | hgt
  · refine ⟨.ok (), ?_, fun _ => hlt⟩
    simp [indexOn, indexEntry, Prog.call, runAlone, opsAlone, VerifiableIndex.perform,
      VerifiableIndex.readTreeSize, walBytes, hsane, hsize, hlt]
  · have hfails := hother rfl
    by_cases hmany : maxKeysPerEntry < (sortedKeys (c.mapFn (entries idx))).length
    · let count := (sortedKeys (c.mapFn (entries idx))).length
      refine ⟨.error (.err (.invalidEntry
        s!"too many vindex keys for entry {idx}: {count} (max {maxKeysPerEntry})")), ?_,
        fun hok => by cases hok⟩
      simp [indexOn, indexEntry, Prog.call, runAlone, opsAlone, VerifiableIndex.perform,
        VerifiableIndex.readTreeSize, walBytes, hsane, hsize, hmany, count]
    · have hnone : sortedKeys (c.mapFn (entries idx)) ≠ [] :=
        fun hnil => hfails ⟨not_lt.mp hmany, .inl hnil⟩
      cases hcheck : s.checkLimits (sortedKeys (c.mapFn (entries idx))) with
      | ok u => exact absurd ⟨not_lt.mp hmany, .inr hcheck⟩ hfails
      | error e =>
        refine ⟨.error (.err e), ?_, fun hok => by cases hok⟩
        simp [indexOn, indexEntry, Prog.call, Prog.ofExcept, ofResult, Except.mapError, runAlone,
          opsAlone,
          VerifiableIndex.perform, VerifiableIndex.readTreeSize, walBytes, hsane, hsize, hmany,
          hnone, hcheck]
  · refine ⟨.error (.err (.invalidEntry "non-contiguous index entry")), ?_, fun hok => by cases hok⟩
    have hlow : ¬ idx < n := by omega
    have hne : idx ≠ n := by omega
    simp [indexOn, indexEntry, Prog.call, runAlone, opsAlone, VerifiableIndex.perform,
      VerifiableIndex.readTreeSize, walBytes, hsane, hsize, hlow, hne]

/-! ### The rebuild -/

/-- Index the entries of a bundle. -/
def indexBundle (c : Setup) : ℕ → List Bytes → VerifiableIndex × DurableFile UInt8 →
    Except (Fault Error) (VerifiableIndex × DurableFile UInt8)
  | _, [], s => .ok s
  | idx, data :: entries, (index, wal) =>
    match indexOn c idx data index wal with
    | (.ok (), next) => indexBundle c (idx + 1) entries next
    | (.error f, _) => .error f

/-- The loop over the bundles. `read` reads a bundle from storage. -/
def indexBundles (c : Setup) (read : ℕ → ℕ → Except (Fault Error) (Option EntryBundle))
    (expectedTreeSize : ℕ) :
    List ℕ → VerifiableIndex × DurableFile UInt8 →
    Except (Fault Error) (VerifiableIndex × DurableFile UInt8)
  | [], s => .ok s
  | bundleIdx :: bundles, s => do
    let part := partialTileSize 0 bundleIdx expectedTreeSize
    match ← read bundleIdx part with
    | none => .error (.err (.internal s!"missing entry bundle {bundleIdx} during vindex rebuild"))
    | some bundle =>
      let expectedEntries := min (expectedTreeSize - bundleIdx * tileWidth) tileWidth
      let found := bundle.entries.length
      if found ≠ expectedEntries then
        .error (.err
          (.internal s!"entry bundle {bundleIdx} has {found} entries, expected {expectedEntries}"))
      else do
        let s ← indexBundle c (bundleIdx * tileWidth) bundle.entries s
        indexBundles c read expectedTreeSize bundles s

/-- Rebuild the index from the log's entry bundles in tile storage, and the files that it
has then. `walk` is the order in which the map is walked. -/
def rebuildFromStorage (c : Setup) (walk : IndexMap → List KeyRecord)
    (read : ℕ → ℕ → Except (Fault Error) (Option EntryBundle)) (expectedTreeSize : ℕ) :
    Except (Fault Error) (VerifiableIndex × IndexFiles) := do
  -- Start from a clean slate.
  let (index, file) := withWal walk c.maxKeys c.maxIndicesPerKey none none 0
  let index ← index
  let wal := DurableFile.ofSynced (file.getD [])
  if expectedTreeSize = 0 then .ok (index, ⟨wal, none, none⟩)
  else do
    let lastBundle := (expectedTreeSize - 1) / tileWidth
    let (index, wal) ←
        indexBundles c read expectedTreeSize (List.range (lastBundle + 1)) (index, wal)
    let snapshot := some (writeSnapshot index.treeSize (walk index.index))
    .ok ({ index with entriesSinceSnapshot := 0 }, ⟨(wal.sync.setLen 0).sync, snapshot, snapshot⟩)

/-- Every entry below a size passes the checks when its turn comes. -/
def FitsBelow (c : Setup) (entries : ℕ → Bytes) (n : ℕ) : Prop :=
  ∀ i < n, ∀ s, Indexed c entries i s → Fits c entries i s

theorem indexBundle_entries {k : ℕ} (hfits : FitsBelow c entries (n + k)) (hn : n + k < 2 ^ 64)
    (h : Indexed c entries n s) (wal : DurableFile UInt8) :
    ∃ s' wal', indexBundle c n ((List.range' n k).map entries) (s, wal) = .ok (s', wal') ∧
      Indexed c entries (n + k) s' := by
  induction k generalizing n s wal with
  | zero => exact ⟨s, wal, rfl, h⟩
  | succ k ih =>
    obtain ⟨s₁, e, -, hrun, h₁, -⟩ := h.next (by omega) (hfits n (by omega) s h) wal
    have hsize : n + 1 + k = n + (k + 1) := by omega
    obtain ⟨s', wal', hrest, h'⟩ :=
      ih (n := n + 1) (by rwa [hsize]) (by omega) h₁ (wal.write (WalRecord.checked e).bytes)
    rw [hsize] at h'
    refine ⟨s', wal', ?_, h'⟩
    rw [List.range'_succ, List.map_cons, indexBundle, hrun]
    exact hrest

/-- The bundles of the first `n` entries can be read. -/
def ReadsBundles (entries : ℕ → Bytes) (n : ℕ)
    (read : ℕ → ℕ → Except (Fault Error) (Option EntryBundle)) : Prop :=
  ∀ bundleIdx, bundleIdx * tileWidth < n → read bundleIdx (partialTileSize 0 bundleIdx n) =
    .ok (some ⟨(List.range' (bundleIdx * tileWidth) (min (n - bundleIdx * tileWidth) tileWidth)).map
      entries⟩)

variable {read : ℕ → ℕ → Except (Fault Error) (Option EntryBundle)}

theorem indexBundles_entries {m i k : ℕ} (hread : ReadsBundles entries m read)
    (hfits : FitsBelow c entries m) (hm : m < 2 ^ 64)
    (hbundles : ∀ j, j < i + k → j * tileWidth < m)
    (h : Indexed c entries (min (i * tileWidth) m) s) (wal : DurableFile UInt8) :
    ∃ s' wal', indexBundles c read m (List.range' i k) (s, wal) = .ok (s', wal') ∧
      Indexed c entries (min ((i + k) * tileWidth) m) s' := by
  induction k generalizing i s wal with
  | zero => exact ⟨s, wal, rfl, h⟩
  | succ k ih =>
    have hlow : i * tileWidth < m := hbundles i (by omega)
    have hnext :
        i * tileWidth + min (m - i * tileWidth) tileWidth = min ((i + 1) * tileWidth) m := by
      rw [Nat.add_mul, one_mul]
      omega
    have hlast : i + 1 + k = i + (k + 1) := by omega
    rw [Nat.min_eq_left hlow.le] at h
    have hbelow : FitsBelow c entries (i * tileWidth + min (m - i * tileWidth) tileWidth) :=
      fun j hj => hfits j (by omega)
    obtain ⟨s₁, wal₁, hrun, h₁⟩ := indexBundle_entries hbelow (by omega) h wal
    rw [hnext] at h₁
    obtain ⟨s', wal', hrest, h'⟩ := ih (i := i + 1) (by rwa [hlast]) h₁ wal₁
    rw [hlast] at h'
    refine ⟨s', wal', ?_, h'⟩
    rw [List.range'_succ, indexBundles, hread i hlow]
    simp only [bind, Except.bind]
    rw [List.length_map, List.length_range', if_neg (not_not.mpr rfl), hrun]
    exact hrest

/-- A rebuild from the bundles of the first entries gives their index. -/
theorem rebuildFromStorage_indexed {walk : IndexMap → List KeyRecord}
    (hwalk : ∀ index, (walk index).Perm index.entries)
    (hread : ReadsBundles entries n read) (hfits : FitsBelow c entries n) (hn : n < 2 ^ 64) :
    ∃ s files, rebuildFromStorage c walk read n = .ok (s, files) ∧ Indexed c entries n s := by
  have hnone : Covers c.mapFn entries 0 none := covers_none
  have hempty : (none : Option Bytes).getD [] = [] ++ [] := rfl
  obtain ⟨s₀, left, hrun, hsize, hsane, hmax, hmaxIndices, hmirrors, -⟩ :=
    withWal_restores hwalk c.maxKeys c.maxIndicesPerKey
    hnone (logs_nil 0) stops_nil hempty le_rfl le_rfl (by decide)
  have h₀ : Indexed c entries 0 s₀ := ⟨hmirrors, hsize, hsane, hmax, hmaxIndices⟩
  rw [rebuildFromStorage, hrun]
  simp only [bind, Except.bind]
  split_ifs with hzero
  · subst hzero
    exact ⟨_, _, rfl, h₀⟩
  · have hlast : ∀ j, j < 0 + ((n - 1) / tileWidth + 1) → j * tileWidth < n := by
      intro j hj
      rw [tileWidth_eq]
      rw [tileWidth_eq] at hj
      omega
    have hall : min ((0 + ((n - 1) / tileWidth + 1)) * tileWidth) n = n := by
      rw [tileWidth_eq]
      omega
    obtain ⟨s, wal, hbundles, h⟩ :=
      indexBundles_entries hread hfits hn hlast (by rwa [Nat.zero_mul, Nat.zero_min])
      (DurableFile.ofSynced left)
    rw [hall] at h
    rw [List.range_eq_range']
    dsimp only [Option.getD_some]
    rw [hbundles]
    exact ⟨_, _, rfl, h.count 0⟩

end Siglog.Vindex

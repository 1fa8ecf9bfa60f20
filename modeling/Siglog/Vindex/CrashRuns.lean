import Siglog.Vindex.CrashProgress

/-! The index is restored whenever the process is down, in every run in which no snapshot is
taken while a key has too many indices for the field of their count. Where one is, the WAL
behind it is cut off and the index is lost. -/

namespace Siglog.Vindex

open Concurrent (DurableFile Processes Prog ProcSys)
open Merkle (EntryBundle Shuffle)

variable {H : Type} [Sha256Hash H]

/-! ### The invariant of a run -/

/-- What a step of the process or of the others adds to. -/
structure Grows (s s' : IndexedLog H) : Prop where
  log : s.log.log <+: s'.log.log
  snapshots : s.snapshots <+: s'.snapshots

theorem Small.of_grows {entries : ℕ → Bytes} {s s' : IndexedLog H} (h : Small entries s')
    (hgrows : Grows s s') : Small entries s := by
  obtain ⟨⟨more, hlog⟩, hsnapshots⟩ := hgrows
  refine ⟨fun i entry hi => h.log i entry ?_,
    fun index hindex => h.snapshots index (hsnapshots.subset hindex)⟩
  rw [← hlog, List.getElem?_append_left (List.getElem?_eq_some_iff.mp hi).1]
  exact hi

section

variable [Crc32] [Sha256] {c : Setup} {s s' : IndexedLog H}

theorem IndexExec.grows {o : IndexOp H} {r : o.Answer H} (h : IndexExec c s o r s') :
    Grows s s' := by
  cases h with
  | log _ h => exact ⟨exec_log h ▸ List.prefix_rfl, List.prefix_rfl⟩
  | renameSnapshot => exact ⟨List.prefix_rfl, List.prefix_append _ _⟩
  | _ => exact ⟨List.prefix_rfl, List.prefix_rfl⟩

variable [DecidableEq H]

theorem step_grows
    {p q : Processes Unit (IndexedLog H) Unit (IndexOp H) (IndexOp.Answer H) (Fault Error) Unit}
    (h : (crashSystem c).Step p q) : Grows p.shared q.shared := by
  cases h with
  | env h =>
    obtain ⟨log, henv, rfl⟩ := h
    cases henv with
    | append => exact ⟨List.prefix_append _ _, List.prefix_rfl⟩
    | insertMode => exact ⟨List.prefix_rfl, List.prefix_rfl⟩
    | publish => exact ⟨List.prefix_rfl, List.prefix_rfl⟩
  | start => exact ⟨List.prefix_rfl, List.prefix_rfl⟩
  | run _ h => exact h.grows
  | finish _ h =>
    obtain rfl : _ = _ := h
    exact ⟨List.prefix_rfl, List.prefix_rfl⟩
  | drop h =>
    cases h
    exact ⟨List.prefix_rfl, List.prefix_rfl⟩

/-- Every program of the process keeps what can be restored, and a crash does. -/
def crashProof (c : Setup) (entries : ℕ → Bytes) :
    ProcSys.Proof ((crashSystem (H := H) c).restrict (Small entries)) where
  Inv := Recoverable c entries
  rely _ := Rely
  Out _ _ _ _ := True
  refl _ := rely_refl
  trans _ _ _ _ := Rely.trans
  stable _ _ _ _ _ _ _ := trivial
  env := by
    rintro s _ hi ⟨⟨log, henv, rfl⟩, hsmall⟩
    obtain ⟨hlog, hsize, hgrow⟩ := hi.log.env henv
    exact ⟨hi.withLog hsmall hlog hsize hgrow, fun _ => ⟨rfl, rfl, hsize, hgrow⟩⟩
  start := by
    rintro _ _ _ s (rfl | ⟨order, rfl⟩) _
    · exact Prog.safe_weaken (fun _ _ _ => trivial) (boot_keeps s)
    · exact Prog.safe_weaken (fun _ _ _ => trivial) (cycle_keeps order s)
  finish := by
    rintro _ _ _ s _ hi _ ⟨rfl, _⟩
    exact ⟨hi, fun j hj => absurd rfl hj⟩
  drop := by
    rintro _ s s' hi ⟨hcrash, _⟩
    exact ⟨hi.crash hcrash, fun j hj => absurd rfl hj⟩

/-! ### The restored index -/

omit [Crc32] [Sha256] [DecidableEq H] in
/-- The data of the entries. -/
def IndexedLog.data (s : IndexedLog H) (i : ℕ) : Bytes := (s.log.log[i]?.map Entry.data).getD []

omit [Crc32] [Sha256] [DecidableEq H] in
/-- Whenever a snapshot was taken, the count of every key fitted in its field. -/
def IndexedLog.CountsFit (s : IndexedLog H) : Prop :=
  ∀ index ∈ s.snapshots, ∀ key, (indicesOf index.index key).length < 2 ^ 32

omit [Sha256Hash H] [Crc32] [DecidableEq H] in
/-- The index of the first `n` entries, with the root of any tree that is built from their map. -/
structure IndexOf (mapFn : Bytes → List IndexKey) (entries : ℕ → Bytes) (n : ℕ)
    (index : VerifiableIndex) : Prop where
  treeSize : index.treeSize = n
  map : ∀ key, index.index.lookup key = specMap mapFn entries n key
  root : ∀ records, Enumerates records (specMap mapFn entries n) →
    ∃ tree, PrefixTree.new.insertAll (treeOps records) = .ok tree ∧ index.rootHash = tree.rootHash

omit [Sha256Hash H] [Crc32] [DecidableEq H] in
theorem Indexed.indexOf {entries : ℕ → Bytes} {n : ℕ} {index : VerifiableIndex}
    (h : Indexed c entries n index) :
    IndexOf c.mapFn entries n index :=
  ⟨h.treeSize, h.mirrors.spells, fun _ hrecords => h.mirrors.rootHash_eq hrecords⟩

/-- The invariant of the runs in which all counts fit. -/
theorem reachable_recoverable
    {p : Processes Unit (IndexedLog H) Unit (IndexOp H) (IndexOp.Answer H) (Fault Error) Unit}
    (hp : (crashSystem c).Reachable IndexedLog.init p) (hcounts : p.shared.CountsFit) :
    Recoverable c p.shared.data p.shared := by
  have hsmall : Small p.shared.data p.shared := by
    refine ⟨fun i entry hi => ?_, hcounts⟩
    rw [IndexedLog.data, hi]
    rfl
  have hinit : Recoverable c p.shared.data (IndexedLog.init : IndexedLog H) :=
    recoverable_init logGood_init rfl (by rintro _ _ ⟨⟩)
  have hrestricted :=
    ProcSys.reachable_restrict (fun p q hstep hq => hq.of_grows (step_grows hstep)) hp hsmall
  exact (crashProof c p.shared.data).reachable_inv hinit hrestricted

variable (c s) in
omit [DecidableEq H] in
/-- The index of the integrated entries is restored from the files that are there. -/
def Restores : Prop :=
  ∀ (walk : Shuffle KeyRecord) (file : Option Bytes), file.getD [] = s.files.wal.contents →
  ∃ index left, withWal (fun index => walk.order index.entries) c.maxKeys c.maxIndicesPerKey
    s.files.snapshot file s.log.size =
    (.ok index, some left) ∧ IndexOf c.mapFn s.data s.log.size index

variable (c s) in
omit [DecidableEq H] in
/-- The same index is rebuilt from the bundles of the integrated entries. -/
def Rebuilds : Prop := ∀ (walk : Shuffle KeyRecord) read, ReadsBundles s.data s.log.size read →
  ∃ index files, rebuildFromStorage c (fun index => walk.order index.entries) read s.log.size =
    .ok (index, files) ∧
    IndexOf c.mapFn s.data s.log.size index

omit [DecidableEq H] in
theorem Recoverable.restores_rebuilds (h : Recoverable c s.data s) : Restores c s ∧
    Rebuilds c s := by
  refine ⟨fun walk file hfile => ?_, fun walk read hread => ?_⟩
  · obtain ⟨index, left, -, hrun, hindex, -⟩ :=
      h.restores (fun index => walk.perm index.entries) hfile
    exact ⟨index, left, hrun, hindex.indexOf⟩
  · have hfits := h.log.fits h.log.size_le
    obtain ⟨index, files, hrun, hindex⟩ :=
      rebuildFromStorage_indexed (fun index => walk.perm index.entries) hread h.fits (by omega)
    exact ⟨index, files, hrun, hindex.indexOf⟩

/-- In every run in which all counts fit, the index is restored whenever the process is down,
and a rebuild gives the same index. -/
theorem reachable_restores (c : Setup)
    {p : Processes Unit (IndexedLog H) Unit (IndexOp H) (IndexOp.Answer H) (Fault Error) Unit}
    (hp : (crashSystem c).Reachable IndexedLog.init p) (hcounts : p.shared.CountsFit)
    {s : IndexedLog H}
    (hs : s = p.shared ∧ s.running = none ∨ Crash p.shared s) : Restores c s ∧ Rebuilds c s := by
  have hinv := reachable_recoverable hp hcounts
  rcases hs with ⟨rfl, -⟩ | hcrash
  · exact hinv.restores_rebuilds
  · have hsame : s.data = p.shared.data := by
      cases hcrash
      rfl
    have hleft := hinv.crash hcrash
    rw [← hsame] at hleft
    exact hleft.restores_rebuilds

end

/-! ### One key with all indices -/

/-- All entries have the same key. They fill a batch, and a snapshot is due behind them. -/
def oneKeySetup (n : ℕ) : Setup := ⟨fun _ => [oneKey], 1, n, n, n⟩

theorem spec_oneKey (entries : ℕ → Bytes) (i : ℕ) (key : IndexKey) :
    spec (fun _ => [oneKey]) entries i key = if key = oneKey then List.range i else [] := by
  rw [spec]
  split_ifs with hkey
  · simp [hkey]
  · simp [hkey]

section

variable [Sha256] {n i : ℕ} {entries : ℕ → Bytes} {index : VerifiableIndex}

theorem Indexed.indices_oneKey (h : Indexed (oneKeySetup n) entries i index) (key : IndexKey) :
    indicesOf index.index key = if key = oneKey then List.range i else [] :=
  (h.mirrors.indices key).trans (spec_oneKey entries i key)

theorem Indexed.keys_oneKey (h : Indexed (oneKeySetup n) entries i index) {key : IndexKey}
    (hkey : key ∈ index.index) :
    key = oneKey := by
  by_contra hne
  have hlookup := h.mirrors.spells key
  have hnone : specMap (oneKeySetup n).mapFn entries i key = none := by
    rw [specMap, if_pos]
    exact (spec_oneKey entries i key).trans (if_neg hne)
  rw [hnone, AList.lookup_eq_none] at hlookup
  exact hlookup hkey

theorem Indexed.length_keys_le (h : Indexed (oneKeySetup n) entries i index) :
    index.index.keys.length ≤ 1 := by
  have hsubset : index.index.keys ⊆ [oneKey] :=
    fun key hkey => List.mem_singleton.mpr (h.keys_oneKey hkey)
  exact (List.subperm_of_subset index.index.keys_nodup hsubset).length_le

/-- Every entry is admitted up to the limit. -/
theorem fitsBelow_oneKey (n : ℕ) (entries : ℕ → Bytes) : FitsBelow (oneKeySetup n) entries n := by
  intro i hi index h
  have hkeys : sortedKeys ((oneKeySetup n).mapFn (entries i)) = [oneKey] := rfl
  have hnew : index.index.keys.length + ([oneKey].filter fun k => k ∉ index.index).length ≤ 1 := by
    by_cases hmem : oneKey ∈ index.index
    · simpa [hmem] using h.length_keys_le
    · have hnil : index.index.keys = [] := by
        rw [List.eq_nil_iff_forall_not_mem]
        intro key hkey
        exact hmem (h.keys_oneKey hkey ▸ hkey)
      simp [hmem, hnil]
  have hroom : (index.index.lookup oneKey).filter
      (fun indices => index.maxIndicesPerKey ≤ indices.length) = none := by
    have hindices := h.indices_oneKey oneKey
    rw [if_pos rfl, indicesOf] at hindices
    cases hlookup : index.index.lookup oneKey with
    | none => rfl
    | some indices =>
      rw [hlookup] at hindices
      obtain rfl : indices = List.range i := hindices
      have hlimit : index.maxIndicesPerKey = n := h.maxIndicesPerKey
      rw [Option.filter_some, if_neg]
      rw [decide_eq_true_eq, hlimit, List.length_range]
      omega
  rw [Fits, hkeys]
  refine ⟨by decide, .inr ?_⟩
  have hmax : index.maxKeys = 1 := h.maxKeys
  rw [VerifiableIndex.checkLimits, if_neg (by rw [hmax]; exact not_lt.mpr hnew),
    List.findSome?_singleton, hroom]

variable [Crc32]

/-- The entries can be indexed and snapshotted. -/
theorem firstBatch_oneKey {n : ℕ} (hpos : 0 < n) (hmax : n ≤ 2 ^ 40) :
    FirstBatch (oneKeySetup n) (fun _ => []) (List.replicate n (Entry.new [] : Entry H)) := by
  have hlength : (List.replicate n (Entry.new [] : Entry H)).length = n := List.length_replicate
  refine ⟨fun k entry hk => ?_, ?_, fun entry hentry => ?_, ?_, ?_, ?_, fun index hindex => ?_⟩
  · rw [List.eq_of_mem_replicate (List.mem_of_getElem? hk)]
    rfl
  · exact fun hnil => hpos.ne' (hlength ▸ congrArg List.length hnil)
  · rw [List.eq_of_mem_replicate hentry]
    exact Nat.zero_le _
  · rw [hlength]
    exact fitsBelow_oneKey n _
  · exact hlength.le
  · exact ⟨hpos.ne', hlength.ge⟩
  · rw [hlength] at hindex ⊢
    have hkeys := hindex.length_keys_le
    rw [AList.keys, List.keys, List.length_map] at hkeys
    have hindices : ∀ r ∈ index.index.entries, r.2.length ≤ n := by
      intro r hr
      have hr' : r.2 = indicesOf index.index r.1 := by
        rw [indicesOf, AList.mem_lookup_iff.mpr hr]
        rfl
      rw [hr', hindex.indices_oneKey]
      split_ifs
      · exact List.length_range.le
      · exact Nat.zero_le _
    have hwritten := length_writeSnapshot_le n n hindices
    have hrecords := Nat.mul_le_mul_right (36 + 8 * n) hkeys
    unfold i64Max
    omega

variable (H) in
/-- A process can get through these entries and crash behind the snapshot. -/
theorem oneKey_reachable [DecidableEq H] {n : ℕ} (hpos : 0 < n) (hmax : n ≤ 2 ^ 40) :
    ∃ s s' : IndexedLog H,
      (crashSystem (oneKeySetup n)).Reachable IndexedLog.init ⟨s, fun _ => none⟩ ∧ Crash s s' ∧
      Snapshotted (oneKeySetup n) (fun _ => []) (List.replicate n (Entry.new [])) s ∧
      Snapshotted (oneKeySetup n) (fun _ => []) (List.replicate n (Entry.new [])) s' := by
  have hlength : (List.replicate n (Entry.new [] : Entry H)).length ≤ i64Max := by
    rw [List.length_replicate]
    unfold i64Max
    omega
  obtain ⟨s, hreach, hsnapshotted⟩ := snapshotted_reachable (firstBatch_oneKey hpos hmax) hlength
    ⟨.id, fun _ => .id, .id, .id⟩
  obtain ⟨index, hindex, hsnapshots, hfiles⟩ := hsnapshotted.files
  have hcrash := Crash.mk (s := s) s.files.wal.survives_contents (.inl rfl)
  refine ⟨s, _, hreach, hcrash, hsnapshotted, hsnapshotted.size, hsnapshotted.log, index, hindex,
    hsnapshots, ?_⟩
  rw [hfiles]
  rfl

/-- When a snapshot cannot hold the indices, they are lost with the WAL. -/
theorem Snapshotted.lost {n : ℕ} (hn : 2 ^ 32 ≤ n) (hmax : n ≤ 2 ^ 40) {s : IndexedLog H}
    (h : Snapshotted (oneKeySetup n) (fun _ => []) (List.replicate n (Entry.new [])) s) :
    ¬ Restores (oneKeySetup n) s := by
  intro hrestores
  obtain ⟨written, hwritten, -, hfiles⟩ := h.files
  have hdata := (firstBatch_oneKey (H := H) (by omega) hmax).length written hwritten
  have hsize := h.size
  rw [List.length_replicate] at hsize
  obtain ⟨index, left, hrun, hindex⟩ := hrestores .id (some []) (by rw [hfiles]; rfl)
  rw [hfiles] at hrun
  have hcount := withWal_counts hdata rfl hrun oneKey
  have hmap := hindex.map oneKey
  rw [indicesOf, hmap, specMap, hsize] at hcount
  have hspec : spec (oneKeySetup n).mapFn s.data n oneKey = List.range n :=
    (spec_oneKey s.data n oneKey).trans (if_pos rfl)
  rw [hspec, if_neg (by rw [List.range_eq_nil]; omega), Option.getD_some,
    List.length_range] at hcount
  omega

end

/-! ### A run of one entry, and one of `2 ^ 32` -/

section

/-- CRC-32, one byte after the other. -/
def crcStep (crc : UInt32) (b : UInt8) : UInt32 :=
  (List.range 8).foldl (fun x _ => if x &&& 1 = 1 then (x >>> 1) ^^^ 0xEDB88320 else x >>> 1)
    (crc ^^^ b.toUInt32)

local instance crashCrc32 : Crc32 where
  Hasher := UInt32
  new := 0xFFFFFFFF
  update h b := b.foldl crcStep h
  finalize h := h ^^^ 0xFFFFFFFF
  update_update _ _ _ := List.foldl_append.symm

example : Crc32.hash "123456789".toUTF8.toList = 0xCBF43926 := by decide +kernel

attribute [local instance] endsSha256

theorem reachable_restores_one : ∃ s s' : IndexedLog StartHash,
    (crashSystem (oneKeySetup 1)).Reachable IndexedLog.init ⟨s, fun _ => none⟩ ∧ Crash s s' ∧
    s'.log.size = 1 ∧
      Restores (oneKeySetup 1) s' ∧ Rebuilds (oneKeySetup 1) s' := by
  obtain ⟨s, s', hreach, hcrash, h, h'⟩ := oneKey_reachable StartHash Nat.one_pos (by decide)
  obtain ⟨index, hindex, hsnapshots, -⟩ := h.files
  have hcounts : s.CountsFit := by
    intro written hwritten key
    rw [hsnapshots, List.mem_singleton] at hwritten
    rw [hwritten, hindex.indices_oneKey]
    split_ifs
    · simp
    · simp
  exact ⟨s, s', hreach, hcrash, h'.size,
    reachable_restores (oneKeySetup 1) hreach hcounts (.inr hcrash)⟩

theorem not_restores_wide : ∃ s s' : IndexedLog StartHash,
    (crashSystem (oneKeySetup (2 ^ 32))).Reachable IndexedLog.init ⟨s, fun _ => none⟩ ∧ Crash s s' ∧
      s'.log.log = List.replicate (2 ^ 32) (Entry.new []) ∧ s'.log.size = 2 ^ 32 ∧
      ¬ Restores (oneKeySetup (2 ^ 32)) s' := by
  obtain ⟨s, s', hreach, hcrash, -, h'⟩ :=
    oneKey_reachable StartHash (n := 2 ^ 32) (by decide) (by decide)
  exact ⟨s, s', hreach, hcrash, h'.log, h'.size.trans List.length_replicate,
    h'.lost le_rfl (by decide)⟩

end

end Siglog.Vindex

import Siglog.Vindex.Wal

/-! Snapshots of the index: what is written, and the parser. The parser walks over the
bytes by offsets. It ends, stays within the bytes, and reads exactly what is written for
lists of indices that are ordered and below the tree size. -/

namespace Siglog.Vindex

/-- A key and its indices in the order in which the map is walked. -/
abbrev KeyRecord := Σ _ : IndexKey, List ℕ

/-- "VSNP" -/
def snapshotMagic : Bytes := [0x56, 0x53, 0x4e, 0x50]

def snapshotVersion : UInt8 := 1

/-- The indices of one key, from the one with number `i` on. -/
def parseIndices (body : Bytes) (treeSize pos : ℕ) : ℕ → ℕ → List ℕ → Except (Fault Error) (List ℕ)
  | 0, _, indices => .ok indices
  | remaining + 1, i, indices => do
    let lo ← checkedAdd pos (← checkedMul i 8)
    let hi ← checkedAdd lo 8
    let v := beNat (← slice body lo hi)
    if treeSize ≤ v ∨ indices.getLast?.any fun last => v ≤ last then
      .error (.err (.internal "snapshot indices must be ordered and below tree size"))
    else parseIndices body treeSize pos remaining (i + 1) (indices ++ [v])

/-- The record of one key, and the offset behind it. -/
def parseRecord (body : Bytes) (treeSize pos : ℕ) : Except (Fault Error) (KeyRecord × ℕ) := do
  let keyEnd ← checkedAdd pos 32
  let countEnd ← checkedAdd pos 36
  if body.length < countEnd then .error (.err (.internal "snapshot truncated in key record"))
  else do
    let key ← array 32 (← slice body pos keyEnd)
    let idxCount := beNat (← slice body keyEnd countEnd)
    let pos := countEnd
    let listEnd ← checkedAdd pos (← checkedMul idxCount 8)
    if body.length < listEnd then .error (.err (.internal "snapshot truncated in index list"))
    else do
      let indices ← parseIndices body treeSize pos idxCount 0 []
      .ok (⟨key, indices⟩, listEnd)

/-- The loop over the keys. -/
def parseKeys (body : Bytes) (treeSize : ℕ) : ℕ → ℕ → IndexMap → Except (Fault Error) (ℕ × IndexMap)
  | 0, pos, index => .ok (pos, index)
  | keyCount + 1, pos, index => do
    let (⟨key, indices⟩, pos) ← parseRecord body treeSize pos
    if key ∈ index then .error (.err (.internal "duplicate snapshot key"))
    else parseKeys body treeSize keyCount pos (index.insert key indices)

/-- What is done with the tree size and the number of keys. -/
def parseContents (body : Bytes) (treeSize keyCount : ℕ) : Except (Fault Error) (ℕ × IndexMap) :=
  if keyCount > (body.length - 21) / 36 then
    .error (.err (.internal "snapshot key count exceeds available data"))
  else do
    let (pos, index) ← parseKeys body treeSize keyCount 21 ∅
    if pos ≠ body.length then .error (.err (.internal "snapshot has trailing bytes"))
    else .ok (treeSize, index)

/-- What is done once the checksum is right. -/
def parseBody (body : Bytes) : Except (Fault Error) (ℕ × IndexMap) := do
  let magic ← slice body 0 4
  if magic ≠ snapshotMagic then .error (.err (.internal "bad snapshot magic"))
  else do
    let version ← byteAt body 4
    if version ≠
      snapshotVersion then .error (.err (.internal s!"unsupported snapshot version {version}"))
    else do
      let treeSize := beNat (← slice body 5 13)
      let keyCount := beNat (← slice body 13 21)
      parseContents body treeSize keyCount

/-! ### Records -/

/-- The bytes of a record. -/
def KeyRecord.bytes (r : KeyRecord) : Bytes :=
  r.1.val ++ (u32BeBytes r.2.length ++ r.2.flatMap u64BeBytes)

/-- Indices in order and below the tree size. -/
structure OrderedBelow (treeSize : ℕ) (indices : List ℕ) : Prop where
  ordered : indices.Pairwise (· < ·)
  below : ∀ idx ∈ indices, idx < treeSize

/-- What the format has room for and the parser accepts. -/
structure KeyRecord.Fits (treeSize : ℕ) (r : KeyRecord) : Prop where
  indices : OrderedBelow treeSize r.2
  count : r.2.length < 2 ^ 32

theorem orderedBelow_nil (treeSize : ℕ) : OrderedBelow treeSize [] := ⟨.nil, by simp⟩

theorem orderedBelow_concat {treeSize v : ℕ} {indices : List ℕ}
    (h : OrderedBelow treeSize indices) :
    OrderedBelow treeSize (indices ++ [v]) ↔
    ¬ (treeSize ≤ v ∨ indices.getLast?.any (fun last => v ≤ last) = true) := by
  have hlast :
      (∀ idx ∈ indices, idx < v) ↔ ¬ indices.getLast?.any (fun last => v ≤ last) = true := by
    rcases List.eq_nil_or_concat indices with rfl | ⟨front, last, rfl⟩
    · simp
    · have hfront := h.ordered
      rw [List.concat_eq_append, List.pairwise_append] at hfront
      rw [List.concat_eq_append, List.getLast?_concat]
      simp only [List.mem_append, List.mem_singleton, Option.any_some, decide_eq_true_eq, not_le]
      constructor
      · exact fun hall => hall last (.inr rfl)
      · rintro hlt idx (hidx | rfl)
        · exact lt_trans (hfront.2.2 idx hidx last (by simp)) hlt
        · exact hlt
  rw [not_or, ← hlast, not_le]
  constructor
  · rintro ⟨hordered, hbelow⟩
    rw [List.pairwise_append] at hordered
    exact ⟨hbelow v (by simp), fun idx hidx => hordered.2.2 idx hidx v (by simp)⟩
  · rintro ⟨hv, hlt⟩
    refine ⟨?_, ?_⟩
    · rw [List.pairwise_append]
      exact ⟨h.ordered, List.pairwise_singleton _ _, by simpa using hlt⟩
    · intro idx hidx
      rcases List.mem_append.mp hidx with hidx | hidx
      · exact h.below idx hidx
      · rwa [List.mem_singleton.mp hidx]

variable {body rest : Bytes} {treeSize pos : ℕ}

/-- The indices that stand at an offset are read if they are in order and below the tree size. -/
theorem parseIndices_eq (hbody : body.length ≤ i64Max) {more : List ℕ}
    (hmore : ∀ v ∈ more, v < 2 ^ 64) {i : ℕ} {indices : List ℕ}
    (h : OrderedBelow treeSize indices)
    (hat : body.drop (pos + i * 8) = more.flatMap u64BeBytes ++ rest) :
    (parseIndices body treeSize pos more.length i indices = .ok (indices ++ more) ∧
      OrderedBelow treeSize (indices ++ more)) ∨
    ((∃ e, parseIndices body treeSize pos more.length i indices = .error (.err e)) ∧
      ¬ OrderedBelow treeSize (indices ++ more)) := by
  induction more generalizing i indices with
  | nil =>
    rw [List.append_nil]
    exact .inl ⟨rfl, h⟩
  | cons v more ih =>
    have hlen := congrArg List.length hat
    rw [List.length_drop, List.length_append, length_flatMap_u64BeBytes, List.length_cons] at hlen
    have hmax : i64Max < 2 ^ 63 := by decide
    rw [List.flatMap_cons, List.append_assoc] at hat
    have hslice : slice body (pos + i * 8) (pos + i * 8 + 8) =
        (.ok (u64BeBytes v) : Except (Fault Error) Bytes) :=
      slice_of_drop hat (by simp [u64BeBytes])
    rw [List.forall_mem_cons] at hmore
    have hnext : body.drop (pos + (i + 1) * 8) = more.flatMap u64BeBytes ++ rest := by
      rw [Nat.succ_mul, ← Nat.add_assoc, ← List.drop_drop, hat,
        List.drop_left' (length_u64BeBytes v)]
    rw [List.length_cons, parseIndices, checkedMul_ok (by omega)]
    simp only [bind, Except.bind]
    rw [checkedAdd_ok (by omega)]
    dsimp only
    rw [checkedAdd_ok (by omega)]
    dsimp only
    rw [hslice]
    dsimp only
    rw [beNat_u64BeBytes hmore.1]
    have hconcat := orderedBelow_concat (v := v) h
    split_ifs with hbad
    · refine .inr ⟨⟨_, rfl⟩, fun hall => hconcat.not.mpr (not_not.mpr hbad) ?_⟩
      have hpre : indices ++ [v] <+: indices ++ v :: more := ⟨more, by simp⟩
      exact ⟨hall.ordered.sublist hpre.sublist, fun idx hidx => hall.below idx (hpre.subset hidx)⟩
    · have := ih hmore.2 (hconcat.mpr hbad) hnext
      rwa [List.append_assoc, List.singleton_append] at this

theorem KeyRecord.length_bytes (r : KeyRecord) : r.bytes.length = 36 + r.2.length * 8 := by
  rw [KeyRecord.bytes, List.length_append, List.length_append, length_flatMap_u64BeBytes,
    r.1.property, length_u32BeBytes]
  omega

/-- What follows a key and a count. -/
theorem parseRecord_head (hbody : body.length ≤ i64Max) {key : IndexKey} {n : ℕ} (hn : n < 2 ^ 32)
    (hat : body.drop pos = key.val ++ (u32BeBytes n ++ rest)) :
    parseRecord body treeSize pos =
      if body.length < pos + 36 + n *
        8 then .error (.err (.internal "snapshot truncated in index list"))
      else (parseIndices body treeSize (pos + 36) n 0 []).map fun indices =>
        (⟨key, indices⟩, pos + 36 + n * 8) := by
  have hmax : i64Max < 2 ^ 63 := by decide
  have hlen := congrArg List.length hat
  rw [List.length_drop, List.length_append, List.length_append, key.property,
    length_u32BeBytes] at hlen
  have hkey : slice body pos (pos + 32) = (.ok key.val : Except (Fault Error) Bytes) := by
    have := slice_of_drop (ε := Error) hat (List.ne_nil_of_length_pos (by rw [key.property]; omega))
    rwa [key.property] at this
  have hrest : body.drop (pos + 32) = u32BeBytes n ++ rest := by
    rw [← List.drop_drop, hat, List.drop_left' key.property]
  have hcount :
      slice body (pos + 32) (pos + 36) = (.ok (u32BeBytes n) : Except (Fault Error) Bytes) :=
    slice_of_drop hrest (by simp [u32BeBytes])
  rw [parseRecord, checkedAdd_ok (by omega)]
  simp only [bind, Except.bind]
  rw [checkedAdd_ok (by omega)]
  dsimp only
  rw [if_neg (by omega), hkey]
  dsimp only
  rw [array_ok, hcount]
  dsimp only
  rw [beNat_u32BeBytes hn, checkedMul_ok (by omega)]
  dsimp only
  rw [checkedAdd_ok (by omega)]
  rfl

variable (treeSize) in
/-- A record that stands at an offset is read if its indices are in order and below the tree
size. -/
theorem parseRecord_bytes (hbody : body.length ≤ i64Max) {r : KeyRecord}
    (hat : body.drop pos = r.bytes ++ rest)
    (hcount : r.2.length < 2 ^ 32) (hidx : ∀ idx ∈ r.2, idx < 2 ^ 64) :
    (parseRecord body treeSize pos = .ok (r, pos + r.bytes.length) ∧ OrderedBelow treeSize r.2) ∨
    ((∃ e, parseRecord body treeSize pos = .error (.err e)) ∧ ¬ OrderedBelow treeSize r.2) := by
  have hlen := congrArg List.length hat
  rw [List.length_drop, List.length_append, r.length_bytes] at hlen
  rw [r.length_bytes, ← Nat.add_assoc]
  rw [KeyRecord.bytes, List.append_assoc, List.append_assoc] at hat
  have hlist : body.drop (pos + 36 + 0 * 8) = r.2.flatMap u64BeBytes ++ rest := by
    rw [Nat.zero_mul, Nat.add_zero, show pos + 36 = pos + 32 + 4 by
        omega, ← List.drop_drop, ← List.drop_drop, hat,
      List.drop_left' r.1.property, List.drop_left' (length_u32BeBytes _)]
  rw [parseRecord_head hbody hcount hat, if_neg (by omega)]
  rcases parseIndices_eq hbody hidx (orderedBelow_nil treeSize)
    hlist with ⟨hread, hfits⟩ | ⟨⟨e, hread⟩, hnot⟩
  · rw [hread]
    exact .inl ⟨rfl, hfits⟩
  · rw [hread]
    exact .inr ⟨⟨e, rfl⟩, hnot⟩

/-- There is a record at an offset, or the parser reports an error. -/
theorem parseRecord_cases (hbody : body.length ≤ i64Max) (hpos : pos ≤ body.length) (treeSize : ℕ) :
    (∃ (r : KeyRecord) (rest : Bytes), body.drop pos = r.bytes ++ rest ∧ r.2.length < 2 ^ 32 ∧
      ∀ idx ∈ r.2, idx < 2 ^ 64) ∨
    ∃ e, parseRecord body treeSize pos = .error (.err e) := by
  have hmax : i64Max < 2 ^ 63 := by decide
  by_cases hshort : body.length < pos + 36
  · refine .inr ⟨.internal "snapshot truncated in key record", ?_⟩
    rw [parseRecord, checkedAdd_ok (by omega)]
    simp only [bind, Except.bind]
    rw [checkedAdd_ok (by omega)]
    dsimp only
    rw [if_pos hshort]
  have hkeyLen : ((body.drop pos).take 32).length = 32 :=
    List.length_take_of_le (by rw [List.length_drop]; omega)
  have hcountLen : ((body.drop (pos + 32)).take 4).length = 4 :=
    List.length_take_of_le (by rw [List.length_drop]; omega)
  have hlt := beNat_lt ((body.drop (pos + 32)).take 4)
  rw [hcountLen] at hlt
  generalize hn : beNat ((body.drop (pos + 32)).take 4) = n at hlt
  have hcount : u32BeBytes n ++ body.drop (pos + 36) = body.drop (pos + 32) := by
    have hdrop : body.drop (pos + 36) = (body.drop (pos + 32)).drop 4 := by rw [List.drop_drop]
    rw [← hn, u32BeBytes_beNat hcountLen, hdrop, List.take_append_drop]
  let key : IndexKey := ⟨(body.drop pos).take 32, hkeyLen⟩
  have hat : body.drop pos = key.val ++ (u32BeBytes n ++ body.drop (pos + 36)) := by
    rw [hcount, ← List.drop_drop, List.take_append_drop]
  by_cases hlist : body.length < pos + 36 + n * 8
  · exact .inr ⟨_, (parseRecord_head hbody hlt hat).trans (if_pos hlist)⟩
  · have hvals : ((body.drop (pos + 36)).take (n * 8)).length = n * 8 :=
      List.length_take_of_le (by rw [List.length_drop]; omega)
    obtain ⟨indices, hindices, hidx, hbytes⟩ := exists_u64s hvals
    refine .inl ⟨⟨key, indices⟩, (body.drop (pos + 36)).drop (n * 8), ?_, by
        rw [hindices]; exact hlt, hidx⟩
    rw [KeyRecord.bytes, List.append_assoc, List.append_assoc, ← hbytes, List.take_append_drop,
      hindices]
    exact hat

/-! ### Keys -/

/-- Keep the records in a map. -/
def insertRecords (index : IndexMap) (records : List KeyRecord) : IndexMap :=
  records.foldl (fun index r => index.insert r.1 r.2) index

/-- Read the records of so many keys. -/
theorem parseKeys_ok (hbody : body.length ≤ i64Max) (hsize : treeSize < 2 ^ 64)
    {records : List KeyRecord} (hfits : ∀ r ∈ records, r.Fits treeSize) {index : IndexMap}
    (hkeys : (records.map Sigma.fst).Nodup) (hnew : ∀ r ∈ records, r.1 ∉ index)
    (hat : body.drop pos = records.flatMap KeyRecord.bytes ++ rest) :
    parseKeys body treeSize records.length pos index =
      .ok (pos + (records.flatMap KeyRecord.bytes).length, insertRecords index records) := by
  induction records generalizing pos index with
  | nil => rfl
  | cons r records ih =>
    rw [List.forall_mem_cons] at hfits hnew
    rw [List.map_cons, List.nodup_cons] at hkeys
    rw [List.flatMap_cons, List.append_assoc] at hat
    have hread := (parseRecord_bytes treeSize hbody hat hfits.1.count fun idx hidx =>
      lt_trans (hfits.1.indices.below idx hidx) hsize).resolve_right fun h => h.2 hfits.1.indices
    have hnext : body.drop (pos + r.bytes.length) = records.flatMap KeyRecord.bytes ++ rest := by
      rw [← List.drop_drop, hat, List.drop_left' rfl]
    rw [List.length_cons, parseKeys, hread.1]
    simp only [bind, Except.bind]
    rw [if_neg hnew.1, ih hfits.2 hkeys.2 ?_ hnext, List.flatMap_cons, List.length_append,
      Nat.add_assoc]
    · rfl
    · intro r' hr' hmem
      rw [AList.mem_insert] at hmem
      rcases hmem with hsame | hmem
      · exact hkeys.1 (hsame ▸ List.mem_map_of_mem hr')
      · exact hnew.2 r' hr' hmem

/-- The loop ends with an error of the parser or has read records. -/
theorem parseKeys_cases (hbody : body.length ≤ i64Max) (treeSize n pos : ℕ)
    (hpos : pos ≤ body.length) (index : IndexMap) :
    (∃ e, parseKeys body treeSize n pos index = .error (.err e)) ∨
    ∃ (records : List KeyRecord) (rest : Bytes), records.length = n ∧
      (∀ r ∈ records, r.Fits treeSize) ∧
      (records.map Sigma.fst).Nodup ∧ (∀ r ∈ records, r.1 ∉ index) ∧
      body.drop pos = records.flatMap KeyRecord.bytes ++ rest ∧
      parseKeys body treeSize n pos index =
        .ok (pos + (records.flatMap KeyRecord.bytes).length, insertRecords index records) := by
  induction n generalizing pos index with
  | zero => exact .inr ⟨[], body.drop pos, rfl, by simp, by simp, by simp, rfl, rfl⟩
  | succ n ih =>
    rw [parseKeys]
    rcases parseRecord_cases hbody hpos treeSize with ⟨r, rest, hat, hcount, hidx⟩ | ⟨e, herr⟩
    · rcases parseRecord_bytes treeSize hbody hat hcount
        hidx with ⟨hread, hordered⟩ | ⟨⟨e, herr⟩, -⟩
      · rw [hread]
        simp only [bind, Except.bind]
        split_ifs with hdup
        · exact .inl ⟨_, rfl⟩
        · have hlen := congrArg List.length hat
          rw [List.length_drop, List.length_append] at hlen
          have hnext : body.drop (pos + r.bytes.length) = rest := by
            rw [← List.drop_drop, hat, List.drop_left' rfl]
          rcases ih (pos + r.bytes.length) (by omega) (index.insert r.1 r.2) with
            ⟨e, herr⟩ | ⟨records, rest', hn, hfits, hkeys, hnew, hat', hrest⟩
          · exact .inl ⟨e, herr⟩
          · refine .inr ⟨r :: records, rest', by rw [List.length_cons, hn], ?_, ?_, ?_, ?_, ?_⟩
            · rw [List.forall_mem_cons]
              exact ⟨⟨hordered, hcount⟩, hfits⟩
            · rw [List.map_cons, List.nodup_cons]
              refine ⟨fun hmem => ?_, hkeys⟩
              obtain ⟨r', hr', hsame⟩ := List.mem_map.mp hmem
              exact hnew r' hr' ((AList.mem_insert _).mpr (.inl hsame))
            · rw [List.forall_mem_cons]
              exact ⟨hdup, fun r' hr' hmem => hnew r' hr' ((AList.mem_insert _).mpr (.inr hmem))⟩
            · rw [hat, List.flatMap_cons, List.append_assoc, ← hat', hnext]
            · rw [hrest, List.flatMap_cons, List.length_append, Nat.add_assoc]
              rfl
      · rw [herr]
        exact .inl ⟨e, rfl⟩
    · rw [herr]
      exact .inl ⟨e, rfl⟩

/-! ### Snapshots -/

variable [Crc32]

/-- The bytes of a snapshot. -/
def writeSnapshot (treeSize : ℕ) (index : List KeyRecord) : Bytes :=
  let buf := snapshotMagic
  let buf := buf ++ [snapshotVersion]
  let buf := buf ++ u64BeBytes treeSize
  let buf := buf ++ u64BeBytes index.length
  let buf := index.foldl (fun buf ⟨key, indices⟩ =>
    let buf := buf ++ key.val
    let buf := buf ++ u32BeBytes (indices.length % 2 ^ 32)
    indices.foldl (fun buf idx => buf ++ u64BeBytes idx) buf) buf
  let crc := Crc32.hash buf
  buf ++ u32LeBytes crc.toNat

def parseSnapshot (data : Bytes) : Except (Fault Error) (ℕ × IndexMap) :=
  -- magic(4) + version(1) + tree_size(8) + key_count(8) + crc(4)
  if data.length < 25 then .error (.err (.internal "snapshot too short"))
  else
    let body := data.take (data.length - 4)
    let crcBytes := data.drop (data.length - 4)
    let storedCrc := leNat crcBytes
    if (Crc32.hash body).toNat ≠
      storedCrc then .error (.err (.internal "snapshot checksum mismatch"))
    else parseBody body

/-- A snapshot without its checksum. -/
def snapshotBody (treeSize : ℕ) (records : List KeyRecord) : Bytes :=
  snapshotMagic ++ (snapshotVersion ::
    (u64BeBytes treeSize ++ (u64BeBytes records.length ++ records.flatMap KeyRecord.bytes)))

omit [Crc32] in
theorem length_snapshotBody (treeSize : ℕ) (records : List KeyRecord) :
    (snapshotBody treeSize records).length = 21 + (records.flatMap KeyRecord.bytes).length := by
  simp only [snapshotBody, snapshotMagic, List.length_append, List.length_cons, List.length_nil,
    length_u64BeBytes]
  omega

omit [Crc32] in
/-- The bytes that are written for a record. The count is cut to its field. -/
def KeyRecord.written (r : KeyRecord) : Bytes :=
  r.1.val ++ (u32BeBytes (r.2.length % 2 ^ 32) ++ r.2.flatMap u64BeBytes)

omit [Crc32] in
/-- What is written in front of the checksum. -/
def writtenBody (treeSize : ℕ) (records : List KeyRecord) : Bytes :=
  snapshotMagic ++ (snapshotVersion ::
    (u64BeBytes treeSize ++ (u64BeBytes records.length ++ records.flatMap KeyRecord.written)))

theorem writeSnapshot_written (treeSize : ℕ) (records : List KeyRecord) :
    writeSnapshot treeSize records = writtenBody treeSize records ++
      u32LeBytes (Crc32.hash (writtenBody treeSize records)).toNat := by
  have hrecords : ∀ buf : Bytes, records.foldl (fun buf ⟨key, indices⟩ =>
      indices.foldl (fun buf idx => buf ++ u64BeBytes idx)
        (buf ++ key.val ++ u32BeBytes (indices.length % 2 ^ 32))) buf =
      buf ++ records.flatMap KeyRecord.written := by
    induction records with
    | nil => simp
    | cons r records ih =>
      intro buf
      obtain ⟨key, indices⟩ := r
      rw [List.foldl_cons, ih]
      dsimp only
      rw [List.foldl_append_eq_append, ← List.flatMap_def]
      simp [KeyRecord.written]
  have hbody : writtenBody treeSize records = records.foldl (fun buf ⟨key, indices⟩ =>
      indices.foldl (fun buf idx => buf ++ u64BeBytes idx)
        (buf ++ key.val ++ u32BeBytes (indices.length % 2 ^ 32)))
      (snapshotMagic ++ [snapshotVersion] ++ u64BeBytes treeSize ++ u64BeBytes records.length) := by
    rw [hrecords]
    simp [writtenBody]
  rw [hbody]
  rfl

/-- Counts that fit in their field are written as they are. -/
theorem writeSnapshot_eq {treeSize : ℕ} {records : List KeyRecord}
    (h : ∀ r ∈ records, r.2.length < 2 ^ 32) :
    writeSnapshot treeSize records = snapshotBody treeSize records ++
      u32LeBytes (Crc32.hash (snapshotBody treeSize records)).toNat := by
  have hbody : writtenBody treeSize records = snapshotBody treeSize records := by
    rw [writtenBody, snapshotBody, List.flatMap_congr fun r hr => ?_]
    rw [KeyRecord.written, KeyRecord.bytes, Nat.mod_eq_of_lt (h r hr)]
  rw [writeSnapshot_written, hbody]

/-- The length of a snapshot in the number of its records and the most indices one has. -/
theorem length_writeSnapshot_le (treeSize n : ℕ) {records : List KeyRecord}
    (h : ∀ r ∈ records, r.2.length ≤ n) :
    (writeSnapshot treeSize records).length ≤ 25 + records.length * (36 + 8 * n) := by
  have hrecords : (records.flatMap KeyRecord.written).length ≤ records.length * (36 + 8 * n) := by
    induction records with
    | nil => simp
    | cons r records ih =>
      rw [List.forall_mem_cons] at h
      have hrest := ih h.2
      rw [List.flatMap_cons, List.length_append, KeyRecord.written, List.length_append,
        List.length_append,
        length_flatMap_u64BeBytes, r.1.property, length_u32BeBytes, List.length_cons, Nat.succ_mul]
      omega
  rw [writeSnapshot_written, writtenBody]
  simp only [snapshotMagic, List.length_append, List.length_cons, List.length_nil,
    length_u64BeBytes, length_u32LeBytes]
  omega

omit [Crc32] in
/-- What follows the magic and the version. -/
theorem parseBody_eq {treeSize n : ℕ} (hsize : treeSize < 2 ^ 64) (hn : n < 2 ^ 64)
    {body rest : Bytes} (hat : body = snapshotMagic ++
      (snapshotVersion :: (u64BeBytes treeSize ++ (u64BeBytes n ++ rest)))) :
    parseBody body = parseContents body treeSize n := by
  have hat₀ : body.drop 0 = snapshotMagic ++
      (snapshotVersion :: (u64BeBytes treeSize ++ (u64BeBytes n ++ rest))) := hat
  have hat₅ : body.drop 5 = u64BeBytes treeSize ++ (u64BeBytes n ++ rest) := by
    rw [hat]
    rfl
  have hat₁₃ : body.drop 13 = u64BeBytes n ++ rest := by
    rw [hat]
    rfl
  have hmagic : slice body 0 4 = (.ok snapshotMagic : Except (Fault Error) Bytes) :=
    slice_of_drop hat₀ (by decide)
  have hversion : byteAt body 4 = (.ok snapshotVersion : Except (Fault Error) UInt8) := by
    apply byteAt_ok
    rw [hat]
    rfl
  have hsizeBytes : slice body 5 13 = (.ok (u64BeBytes treeSize) : Except (Fault Error) Bytes) :=
    slice_of_drop hat₅ (by simp [u64BeBytes])
  have hcountBytes : slice body 13 21 = (.ok (u64BeBytes n) : Except (Fault Error) Bytes) :=
    slice_of_drop hat₁₃ (by simp [u64BeBytes])
  rw [parseBody, hmagic]
  simp only [bind, Except.bind]
  rw [if_neg (not_not.mpr rfl), hversion]
  dsimp only
  rw [if_neg (not_not.mpr rfl), hsizeBytes]
  dsimp only
  rw [hcountBytes]
  dsimp only
  rw [beNat_u64BeBytes hsize, beNat_u64BeBytes hn]

omit [Crc32] in
/-- The two checks fail, or the tree size and the number of keys are there. -/
theorem parseBody_cases {body : Bytes} (hlen : 21 ≤ body.length) :
    (∃ e, parseBody body = .error (.err e)) ∨
    ∃ treeSize n rest, treeSize < 2 ^ 64 ∧ n < 2 ^ 64 ∧
      body = snapshotMagic ++
        (snapshotVersion :: (u64BeBytes treeSize ++ (u64BeBytes n ++ rest))) := by
  have hmagic : slice body 0 4 = (.ok (body.take 4) : Except (Fault Error) Bytes) :=
    @slice_ok Error body 0 4 (by omega)
  obtain ⟨version, hversion⟩ : ∃ version, body.drop 4 = version :: body.drop 5 := by
    refine ⟨body[4], ?_⟩
    rw [List.drop_eq_getElem_cons (by omega)]
  rw [parseBody, hmagic, byteAt_ok hversion]
  simp only [bind, Except.bind]
  by_cases hm : body.take 4 = snapshotMagic
  · by_cases hv : version = snapshotVersion
    · have hsizeLen : ((body.drop 5).take 8).length = 8 :=
        List.length_take_of_le (by rw [List.length_drop]; omega)
      have hcountLen : ((body.drop 13).take 8).length = 8 :=
        List.length_take_of_le (by rw [List.length_drop]; omega)
      have hsize := beNat_lt ((body.drop 5).take 8)
      have hcount := beNat_lt ((body.drop 13).take 8)
      rw [hsizeLen] at hsize
      rw [hcountLen] at hcount
      refine .inr ⟨_, _, body.drop 21, hsize, hcount, ?_⟩
      have hdrop₁₃ : body.drop 13 = (body.drop 5).drop 8 := by rw [List.drop_drop]
      have hdrop₂₁ : body.drop 21 = (body.drop 13).drop 8 := by rw [List.drop_drop]
      rw [u64BeBytes_beNat hsizeLen, u64BeBytes_beNat hcountLen, hdrop₂₁, List.take_append_drop,
        hdrop₁₃, List.take_append_drop, ← hv, ← hversion, ← hm, List.take_append_drop]
    · rw [if_neg (not_not.mpr hm), if_pos hv]
      exact .inl ⟨_, rfl⟩
  · rw [if_pos hm]
    exact .inl ⟨_, rfl⟩

theorem parseSnapshot_append (body : Bytes) (hlen : 21 ≤ body.length) :
    parseSnapshot (body ++ u32LeBytes (Crc32.hash body).toNat) = parseBody body := by
  have hcut : (body ++ u32LeBytes (Crc32.hash body).toNat).length - 4 = body.length := by
    rw [List.length_append, length_u32LeBytes]
    omega
  rw [parseSnapshot, hcut, List.take_left' rfl, List.drop_left' rfl,
    if_neg (by rw [List.length_append, length_u32LeBytes]; omega)]
  dsimp only
  rw [leNat_u32LeBytes (Crc32.hash body).toNat_lt, if_neg (not_not.mpr rfl)]

/-- The checksum is wrong, or it stands behind what it is taken over. -/
theorem parseSnapshot_cases (data : Bytes) : (∃ e, parseSnapshot data = .error (.err e)) ∨
    ∃ body : Bytes, 21 ≤ body.length ∧ data = body ++ u32LeBytes (Crc32.hash body).toNat := by
  rw [parseSnapshot]
  dsimp only
  split_ifs with hshort hcrc
  · exact .inl ⟨_, rfl⟩
  · exact .inl ⟨_, rfl⟩
  · have hcrcLen : (data.drop (data.length - 4)).length = 4 := by
      rw [List.length_drop]
      omega
    refine .inr ⟨data.take (data.length - 4), ?_, ?_⟩
    · rw [List.length_take]
      omega
    · rw [not_not.mp hcrc, u32LeBytes_leNat hcrcLen, List.take_append_drop]

omit [Crc32] in
theorem length_records_le (records : List KeyRecord) :
    records.length * 36 ≤ (records.flatMap KeyRecord.bytes).length := by
  induction records with
  | nil => simp
  | cons r records ih =>
    rw [List.flatMap_cons, List.length_append, r.length_bytes, List.length_cons]
    omega

/-- What the parser accepts: ordered lists of indices below the tree size, each key once. -/
structure SnapshotOf (treeSize : ℕ) (records : List KeyRecord) : Prop where
  size : treeSize < 2 ^ 64
  fits : ∀ r ∈ records, r.Fits treeSize
  keys : (records.map Sigma.fst).Nodup

/-- What is written is read back. -/
theorem SnapshotOf.parse {treeSize : ℕ} {records : List KeyRecord} (h : SnapshotOf treeSize records)
    (hlen : (writeSnapshot treeSize records).length ≤ i64Max) :
    parseSnapshot (writeSnapshot treeSize records) = .ok (treeSize, insertRecords ∅ records) := by
  have hmax : i64Max < 2 ^ 63 := by decide
  have hbody := length_snapshotBody treeSize records
  have hrecords := length_records_le records
  rw [writeSnapshot_eq fun r hr => (h.fits r hr).count] at hlen ⊢
  rw [List.length_append] at hlen
  have hhead : parseBody (snapshotBody treeSize records) =
      parseContents (snapshotBody treeSize records) treeSize records.length :=
    parseBody_eq h.size (by omega) rfl
  rw [parseSnapshot_append _ (by omega), hhead, parseContents, if_neg (by omega)]
  have hat : (snapshotBody treeSize records).drop 21 = records.flatMap KeyRecord.bytes ++ [] := by
    rw [List.append_nil]
    rfl
  rw [parseKeys_ok (by omega) h.size h.fits h.keys (by simp) hat]
  simp only [bind, Except.bind]
  rw [if_neg (by omega)]

/-- What is read is what is written for it. The parser does not panic. -/
theorem parseSnapshot_written {data : Bytes} (hdata : data.length ≤ i64Max) :
    (∃ e, parseSnapshot data = .error (.err e)) ∨
    ∃ treeSize records, SnapshotOf treeSize records ∧
      parseSnapshot data = .ok (treeSize, insertRecords ∅ records) ∧
      writeSnapshot treeSize records = data := by
  rcases parseSnapshot_cases data with herr | ⟨body, hlen, rfl⟩
  · exact .inl herr
  rw [parseSnapshot_append body hlen]
  rcases parseBody_cases hlen with herr | ⟨treeSize, n, rest, hsize, hn, hat⟩
  · exact .inl herr
  rw [parseBody_eq hsize hn hat, parseContents]
  rw [List.length_append] at hdata
  split_ifs with hcount
  · exact .inl ⟨_, rfl⟩
  rcases parseKeys_cases (by omega) treeSize n 21 hlen
    ∅ with ⟨e, herr⟩ | ⟨records, rest', rfl, hfits, hkeys, -, hrest, hread⟩
  · rw [herr]
    exact .inl ⟨e, rfl⟩
  · rw [hread]
    simp only [bind, Except.bind]
    split_ifs with hend
    · exact .inl ⟨_, rfl⟩
    · refine .inr ⟨treeSize, records, ⟨hsize, hfits, hkeys⟩, rfl, ?_⟩
      have hrest' : rest = records.flatMap KeyRecord.bytes ++ rest' := by
        rw [← hrest, hat]
        rfl
      have hnil : rest' = [] := by
        have hlen' := congrArg List.length hrest
        rw [List.length_drop, List.length_append] at hlen'
        apply List.eq_nil_of_length_eq_zero
        omega
      have hbody : body = snapshotBody treeSize records := by
        rw [hat, hrest', hnil, List.append_nil]
        rfl
      rw [writeSnapshot_eq fun r hr => (hfits r hr).count, ← hbody]

end Siglog.Vindex

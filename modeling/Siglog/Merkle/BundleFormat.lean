import Siglog.Merkle.Tiles
import Siglog.Slice

/-! The format of entry bundles. The reader walks over the data by offsets; it ends, it
stays within the data, and it reads the concatenations of entries behind their lengths. -/

namespace Siglog.Merkle.EntryBundle

/-- One round of the loop of `fromBytes`: the entry at an offset, and the offset after it. -/
def readEntry (data : Bytes) (offset : ℕ) : Except (Fault Error) (Bytes × ℕ) :=
  if offset + 2 > data.length then
    .error (.err (.invalidEntry s!"truncated entry bundle at offset {offset}"))
  else do
    let hi ← byteAt data offset
    let lo ← byteAt data (offset + 1)
    let len := beNat [hi, lo]
    if offset + 2 + len > data.length then
      .error (.err (.invalidEntry
        (s!"entry at offset {offset} claims {len} bytes but only " ++
          s!"{data.length - (offset + 2)} available")))
    else do
      let entry ← slice data (offset + 2) (offset + 2 + len)
      .ok (entry, offset + 2 + len)

/-- The loop of `fromBytes` from an offset on, unless it takes more rounds. -/
def readEntries (data : Bytes) : ℕ → ℕ → Option (Except (Fault Error) (List Bytes))
  | 0, _ => none
  | rounds + 1, offset =>
    if offset < data.length then
      match readEntry data offset with
      | .error e => some (.error e)
      | .ok (entry, offset) =>
        (readEntries data rounds offset).map fun entries => entries.map (entry :: ·)
    else some (.ok [])

/-- The entries, each behind its length. -/
def records (entries : List Bytes) : Bytes :=
  entries.flatMap fun entry => u16BeBytes entry.length ++ entry

theorem beNat_pair (hi lo : UInt8) : beNat [hi, lo] = hi.toNat * 256 + lo.toNat := by simp [beNat]

/-- A round ends further on or with an error of the parser. No index is out of range. -/
theorem readEntry_eq {data : Bytes} {offset : ℕ} (h : offset < data.length) :
    (∃ e, readEntry data offset = .error (.err e) ∧
      parseEntries offset (data.drop offset) = .error (.err e)) ∨
    ∃ entry next, readEntry data offset = .ok (entry, next) ∧ offset < next ∧
      parseEntries offset (data.drop offset) =
        (parseEntries next (data.drop next)).map (entry :: ·) := by
  obtain ⟨hi, rest, hrest⟩ := List.exists_cons_of_ne_nil
    (List.ne_nil_of_length_pos (l := data.drop offset) (by simpa using h))
  have hlen : rest.length + 1 = data.length - offset := by
    simpa [hrest] using (List.length_drop (l := data) (i := offset))
  rw [readEntry, hrest]
  cases rest with
  | nil =>
    refine .inl ⟨_, if_pos (by simp at hlen; omega), ?_⟩
    rw [parseEntries]
  | cons lo rest =>
    have htail : data.drop (offset + 1) = lo :: rest := by
      rw [← List.drop_drop, hrest, List.drop_one, List.tail_cons]
    have htail₂ : data.drop (offset + 2) = rest := by rw [← List.drop_drop, hrest]; rfl
    simp only [List.length_cons] at hlen
    rw [if_neg (by omega), byteAt_ok hrest, byteAt_ok htail, parseEntries]
    simp only [bind, Except.bind, beNat_pair]
    generalize hi.toNat * 256 + lo.toNat = len
    by_cases hshort : rest.length < len
    · refine .inl ⟨_, if_pos (by omega), ?_⟩
      rw [if_pos hshort, show data.length - (offset + 2) = rest.length by omega]
      simp only [String.append_assoc]
    · refine .inr ⟨rest.take len, offset + 2 + len, ?_, by omega, ?_⟩
      · rw [if_neg (by omega), slice_ok (by omega), htail₂]
      · rw [if_neg hshort, ← List.drop_drop, htail₂]
        cases parseEntries (offset + 2 + len) (rest.drop len) <;> rfl

/-- The loop ends after at most one round for each byte and does what the parser does. -/
theorem readEntries_eq {data : Bytes} {rounds : ℕ} : ∀ {offset : ℕ}, data.length ≤ offset + rounds →
    readEntries data (rounds + 1) offset = some (parseEntries offset (data.drop offset)) ∧
      parseEntries offset (data.drop offset) ≠ .error .panic := by
  have hend : ∀ {rounds offset : ℕ}, data.length ≤ offset →
      readEntries data (rounds + 1) offset = some (parseEntries offset (data.drop offset)) ∧
        parseEntries offset (data.drop offset) ≠ .error .panic := by
    intro rounds offset h
    rw [readEntries, if_neg (by omega), List.drop_of_length_le h, parseEntries]
    simp
  induction rounds with
  | zero => exact fun h => hend h
  | succ rounds ih =>
    intro offset h
    by_cases hlt : offset < data.length
    · rw [readEntries, if_pos hlt]
      rcases readEntry_eq hlt with ⟨e, hread, hparse⟩ | ⟨entry, next, hread, hnext, hparse⟩
      · rw [hread, hparse]
        simp
      · obtain ⟨hrest, hpanic⟩ := @ih next (by omega)
        rw [hread, hparse]
        dsimp only
        rw [hrest]
        refine ⟨rfl, fun h => hpanic ?_⟩
        cases hp : parseEntries next (data.drop next) with
        | error e => simpa [hp, Except.map] using h
        | ok entries => simp [hp, Except.map] at h
    · exact hend (by omega)

theorem entriesToBytes_eq {entries : List Bytes} (h : ∀ entry ∈ entries, entry.length ≤ 65535) :
    entriesToBytes entries = .ok (records entries) := by
  induction entries with
  | nil => rfl
  | cons entry entries ih =>
    have hlen := h entry List.mem_cons_self
    rw [entriesToBytes, if_neg (by omega), ih fun e he => h e (List.mem_cons_of_mem entry he)]
    rfl

theorem length_le_of_toBytes {entries : List Bytes} :
    ∀ {data : Bytes}, entriesToBytes entries = .ok data →
    ∀ entry ∈ entries, entry.length ≤ 65535 := by
  induction entries with
  | nil => simp
  | cons entry entries ih =>
    intro data h
    rw [entriesToBytes] at h
    split_ifs at h with hlen
    cases hrest : entriesToBytes entries with
    | error e => simp [hrest, bind, Except.bind] at h
    | ok rest =>
      rw [List.forall_mem_cons]
      exact ⟨by omega, ih hrest⟩

/-- Entries of at most 65535 bytes are written and read back, what is read is written the
same, and exactly the concatenations of such records are read. The loop ends on all data
and does not leave it. -/
theorem bundle_format :
    (∀ entries : List Bytes, (∀ entry ∈ entries, entry.length ≤ 65535) →
      ∃ data, toBytes ⟨entries⟩ = .ok data ∧ fromBytes data = .ok ⟨entries⟩) ∧
    (∀ (data : Bytes) (bundle : EntryBundle), fromBytes data = .ok bundle →
      bundle.toBytes = .ok data) ∧
    (∀ data : Bytes, (∃ bundle, fromBytes data = .ok bundle) ↔
      ∃ entries : List Bytes, (∀ entry ∈ entries, entry.length ≤ 65535) ∧ data = records entries) ∧
    ∀ data : Bytes, readEntries data (data.length + 1) 0 = some ((fromBytes data).map entries) ∧
      fromBytes data ≠ .error .panic := by
  refine ⟨fun entries h => ?_, fun data bundle => toBytes_fromBytes, fun data => ⟨?_, ?_⟩,
    fun data => ?_⟩
  · obtain ⟨data, hdata⟩ := @toBytes_ok ⟨entries⟩ h
    exact ⟨data, hdata, fromBytes_toBytes hdata⟩
  · rintro ⟨⟨entries⟩, h⟩
    have hwritten := toBytes_fromBytes h
    have hlen := length_le_of_toBytes hwritten
    refine ⟨entries, hlen, ?_⟩
    rw [toBytes, entriesToBytes_eq hlen] at hwritten
    exact (Except.ok.inj hwritten).symm
  · rintro ⟨entries, hlen, rfl⟩
    exact ⟨⟨entries⟩, fromBytes_toBytes (entriesToBytes_eq hlen)⟩
  · obtain ⟨hloop, hpanic⟩ := @readEntries_eq data data.length 0 (by omega)
    rw [List.drop_zero] at hloop hpanic
    rw [hloop, fromBytes]
    cases hparse : parseEntries 0 data with
    | error e =>
      rw [hparse] at hpanic
      exact ⟨rfl, fun h => hpanic (congrArg Except.error (Except.error.inj h))⟩
    | ok entries => exact ⟨rfl, by simp [bind, Except.bind]⟩

end Siglog.Merkle.EntryBundle

import Siglog.Import.Bulk

/-! The lines of an input file. A line is read through a limit two bytes above the largest
entry, so that a line that is too long is recognised before it is in memory. What comes out
are the pieces between the line feeds. -/

namespace Siglog.Import

def lineFeed : UInt8 := 10

def carriageReturn : UInt8 := 13

/-- The JSON parser on a line: whether it is an object. -/
class LineJson where
  isObject : Bytes → Bool

/-- What is left of a file, and whether reading fails after that. -/
structure ByteStream where
  bytes : Bytes
  failure : Option String

/-- The bytes up to a line feed, at most `n` of them, and what comes after. -/
def takeLine : ℕ → Bytes → Bytes × Bytes
  | 0, bytes => ([], bytes)
  | _ + 1, [] => ([], [])
  | n + 1, b :: bytes =>
    if b = lineFeed then ([b], bytes)
    else ((b :: (takeLine n bytes).1), (takeLine n bytes).2)

/-- `read_until` through `take`: how many bytes were read, the buffer, and the stream after it. -/
def ByteStream.readUntil (limit : ℕ) (s : ByteStream) : Except String ℕ × Bytes × ByteStream :=
  let (line, rest) := takeLine limit s.bytes
  match s.failure with
  | some e =>
    if line.length < limit ∧ line.getLast? ≠ some lineFeed then (.error e, line, ⟨rest, some e⟩)
    else (.ok line.length, line, ⟨rest, some e⟩)
  | none => (.ok line.length, line, ⟨rest, none⟩)

/-- Remove a byte from the end. -/
def popIf (b : UInt8) (line : Bytes) : Bytes :=
  if line.getLast? = some b then line.dropLast else line

/-- The iterator over the lines. -/
structure Jsonl where
  reader : ByteStream
  done : Bool

section

variable [LineJson]

def ValidLine (line : Bytes) : Prop :=
  line ≠ [] ∧ line.length ≤ maxEntrySize ∧ LineJson.isObject line = true

instance (line : Bytes) : Decidable (ValidLine line) := inferInstanceAs (Decidable (_ ∧ _))

def invalidLine : Error :=
  .invalidEntry s!"JSONL requires one nonempty JSON object per line, at most {maxEntrySize} bytes"

def Jsonl.next (it : Jsonl) : Option (Except Error Bytes) × Jsonl :=
  if it.done then (none, it)
  else
    match it.reader.readUntil (maxEntrySize + 2) with
    | (.ok 0, _, reader) => (none, ⟨reader, true⟩)
    | (.error e, _, reader) => (some (.error (.io e)), ⟨reader, true⟩)
    | (.ok _, line, reader) =>
      let line := popIf carriageReturn (popIf lineFeed line)
      if ValidLine line then (some (.ok line), ⟨reader, false⟩)
      else (some (.error invalidLine), ⟨reader, true⟩)

/-- What the first `n` calls return. -/
def Jsonl.results : ℕ → Jsonl → List (Option (Except Error Bytes))
  | 0, _ => []
  | n + 1, it => it.next.1 :: it.next.2.results n

def jsonl (reader : ByteStream) : Jsonl := ⟨reader, false⟩

/-! ### The pieces of a stream -/

/-- The stream cut at its line feeds, without what is empty after the last one. -/
def pieces (bytes : Bytes) : List Bytes :=
  let cut := bytes.splitOn lineFeed
  if cut.getLast? = some [] then cut.dropLast else cut

/-- The lines as long as they are valid, and one error for the first that is not. -/
def yielded : List Bytes → List (Except Error Bytes)
  | [] => []
  | line :: lines => if ValidLine line then .ok line :: yielded lines else [.error invalidLine]

end

theorem pieces_nil : pieces [] = [] := by decide

theorem pieces_last {piece : Bytes} (h : lineFeed ∉ piece) (hne : piece ≠ []) :
    pieces piece = [piece] := by
  rw [pieces, List.splitOn_eq_singleton h]
  simp [hne]

theorem pieces_cons {piece : Bytes} (h : lineFeed ∉ piece) (rest : Bytes) :
    pieces (piece ++ lineFeed :: rest) = piece :: pieces rest := by
  have hcut := List.splitOn_ne_nil lineFeed rest
  rw [pieces, pieces, List.splitOn_append_cons_self_of_not_mem h, List.getLast?_cons_of_ne_nil hcut]
  split_ifs with hlast
  · exact List.dropLast_cons_of_ne_nil hcut
  · rfl

/-- Lines that are written one after the other. -/
theorem pieces_lines {lines : List Bytes} (h : ∀ line ∈ lines, lineFeed ∉ line) :
    pieces (lines.flatMap (· ++ [lineFeed])) = lines := by
  induction lines with
  | nil => exact pieces_nil
  | cons line lines ih =>
    rw [List.forall_mem_cons] at h
    rw [List.flatMap_cons, List.append_assoc, List.singleton_append, pieces_cons h.1, ih h.2]

/-! ### One line -/

theorem takeLine_feed {n : ℕ} {piece : Bytes} (h : lineFeed ∉ piece) (hn : piece.length < n)
    (rest : Bytes) :
    takeLine n (piece ++ lineFeed :: rest) = (piece ++ [lineFeed], rest) := by
  induction piece generalizing n with
  | nil =>
    obtain ⟨n, rfl⟩ := Nat.exists_eq_succ_of_ne_zero (Nat.ne_of_gt hn)
    exact if_pos rfl
  | cons b piece ih =>
    obtain ⟨n, rfl⟩ := Nat.exists_eq_succ_of_ne_zero (Nat.ne_of_gt (Nat.zero_lt_of_lt hn))
    obtain ⟨hb, hpiece⟩ := not_or.mp (mt List.mem_cons.mpr h)
    rw [List.cons_append, takeLine, if_neg (Ne.symm hb), ih hpiece (Nat.lt_of_succ_lt_succ hn)]
    rfl

theorem takeLine_last {n : ℕ} {piece : Bytes} (h : lineFeed ∉ piece) (hn : piece.length ≤ n) :
    takeLine n piece = (piece, []) := by
  induction piece generalizing n with
  | nil => cases n <;> rfl
  | cons b piece ih =>
    obtain ⟨n, rfl⟩ := Nat.exists_eq_succ_of_ne_zero (Nat.ne_of_gt (Nat.zero_lt_of_lt hn))
    obtain ⟨hb, hpiece⟩ := not_or.mp (mt List.mem_cons.mpr h)
    rw [takeLine, if_neg (Ne.symm hb), ih hpiece (Nat.le_of_succ_le_succ hn)]

/-- A piece that is too long is not read to its end. -/
theorem takeLine_long {n : ℕ} {piece : Bytes} (h : lineFeed ∉ piece) (hn : n ≤ piece.length)
    (rest : Bytes) :
    (takeLine n (piece ++ rest)).1 = piece.take n := by
  induction piece generalizing n with
  | nil =>
    obtain rfl := Nat.le_zero.mp hn
    rfl
  | cons b piece ih =>
    cases n with
    | zero => rfl
    | succ n =>
      obtain ⟨hb, hpiece⟩ := not_or.mp (mt List.mem_cons.mpr h)
      rw [List.cons_append, takeLine, if_neg (Ne.symm hb), ih hpiece (Nat.le_of_succ_le_succ hn),
        List.take_succ_cons]

/-- No more is read than the limit. -/
theorem length_takeLine (n : ℕ) (bytes : Bytes) : (takeLine n bytes).1.length ≤ n := by
  induction bytes generalizing n with
  | nil => cases n <;> simp [takeLine]
  | cons b bytes ih =>
    cases n with
    | zero => simp [takeLine]
    | succ n =>
      rw [takeLine]
      split_ifs with hb
      · simp
      · exact Nat.succ_le_succ (ih n)

theorem length_readUntil (limit : ℕ) (s : ByteStream) : (s.readUntil limit).2.1.length ≤ limit := by
  have hlen := length_takeLine limit s.bytes
  rw [ByteStream.readUntil]
  cases s.failure with
  | none => exact hlen
  | some e =>
    dsimp only
    split_ifs with hfail
    · exact hlen
    · exact hlen

theorem popIf_concat (b : UInt8) (line : Bytes) : popIf b (line ++ [b]) = line := by simp [popIf]

theorem popIf_of_not_mem {b : UInt8} {line : Bytes} (h : b ∉ line) : popIf b line = line :=
  if_neg fun hlast => h (List.mem_of_getLast? hlast)

theorem length_popIf (b : UInt8) (line : Bytes) : line.length ≤ (popIf b line).length + 1 := by
  rw [popIf]
  split_ifs with hlast
  · rw [List.length_dropLast]
    omega
  · omega

/-- A stream that begins with a piece. -/
def Begins (bytes piece rest : Bytes) : Prop :=
  lineFeed ∉ piece ∧ (bytes = piece ++ lineFeed :: rest ∨ bytes = piece ∧ piece ≠ [] ∧ rest = [])

theorem exists_begins {bytes : Bytes} (h : bytes ≠ []) : ∃ piece rest, Begins bytes piece rest := by
  by_cases hmem : lineFeed ∈ bytes
  · obtain ⟨piece, rest, rfl, hpiece⟩ := List.eq_append_cons_of_mem hmem
    exact ⟨piece, rest, hpiece, .inl rfl⟩
  · exact ⟨bytes, [], hmem, .inr ⟨rfl, h, rfl⟩⟩

theorem Begins.pieces {bytes piece rest : Bytes} (h : Begins bytes piece rest) :
    Import.pieces bytes = piece :: Import.pieces rest := by
  obtain ⟨hpiece, rfl | ⟨rfl, hne, rfl⟩⟩ := h
  · exact pieces_cons hpiece rest
  · rw [pieces_last hpiece hne, pieces_nil]

/-- A piece within the limit is read to its end. -/
theorem Begins.readUntil {bytes piece rest : Bytes} (h : Begins bytes piece rest) {n : ℕ}
    (hn : piece.length < n) :
    ∃ line, line ≠ [] ∧ popIf lineFeed line = piece ∧
      (⟨bytes, none⟩ : ByteStream).readUntil n = (.ok line.length, line, ⟨rest, none⟩) := by
  obtain ⟨hpiece, rfl | ⟨rfl, hne, rfl⟩⟩ := h
  · refine ⟨piece ++ [lineFeed], by simp, popIf_concat _ _, ?_⟩
    rw [ByteStream.readUntil, takeLine_feed hpiece hn]
  · refine ⟨bytes, hne, popIf_of_not_mem hpiece, ?_⟩
    rw [ByteStream.readUntil, takeLine_last hpiece hn.le]

/-- Of a longer one, as much is read as the limit allows. -/
theorem Begins.readUntil_long {bytes piece rest : Bytes} (h : Begins bytes piece rest) {n : ℕ}
    (hn : n ≤ piece.length) :
    ∃ rest', (⟨bytes, none⟩ : ByteStream).readUntil n =
      (.ok (piece.take n).length, piece.take n, ⟨rest', none⟩) := by
  obtain ⟨more, rfl⟩ : ∃ more, bytes = piece ++ more := by
    obtain ⟨-, rfl | ⟨rfl, -, -⟩⟩ := h
    · exact ⟨_, rfl⟩
    · exact ⟨[], (List.append_nil _).symm⟩
  refine ⟨(takeLine n (piece ++ more)).2, ?_⟩
  rw [ByteStream.readUntil, ← takeLine_long h.1 hn more]

/-! ### The iterator -/

variable [LineJson]

theorem next_of_readUntil {reader reader' : ByteStream} {line : Bytes} (hne : line ≠ [])
    (h : reader.readUntil (maxEntrySize + 2) = (.ok line.length, line, reader')) :
    (jsonl reader).next = if ValidLine (popIf carriageReturn (popIf lineFeed line))
      then (some (.ok (popIf carriageReturn (popIf lineFeed line))), ⟨reader', false⟩)
      else (some (.error invalidLine), ⟨reader', true⟩) := by
  obtain ⟨b, line, rfl⟩ := List.exists_cons_of_ne_nil hne
  rw [jsonl, Jsonl.next]
  simp only [Bool.false_eq_true, if_false, h, List.length_cons]

theorem results_done (n : ℕ) (reader : ByteStream) :
    Jsonl.results n ⟨reader, true⟩ = (List.range n).map fun _ => none := by
  induction n with
  | zero => rfl
  | succ n ih =>
    rw [List.range_succ_eq_map, List.map_cons, List.map_map]
    exact congrArg (none :: ·) ih

/-- A line that is longer than the largest entry by itself is invalid, also when it is cut off. -/
theorem not_validLine_of_length {line : Bytes} (h : maxEntrySize + 2 ≤ line.length) :
    ¬ ValidLine (popIf carriageReturn line) := by
  rintro ⟨-, hlen, -⟩
  have hpop := length_popIf carriageReturn line
  omega

/-- The call that reads a piece. -/
theorem Begins.next {bytes piece rest : Bytes} (h : Begins bytes piece rest) :
    (ValidLine (popIf carriageReturn piece) →
        (jsonl ⟨bytes, none⟩).next =
          (some (.ok (popIf carriageReturn piece)), jsonl ⟨rest, none⟩)) ∧
      (¬ ValidLine (popIf carriageReturn piece) →
        ∃ reader, (jsonl ⟨bytes, none⟩).next = (some (.error invalidLine), ⟨reader, true⟩)) := by
  rcases Nat.lt_or_ge piece.length (maxEntrySize + 2) with hshort | hlong
  · obtain ⟨line, hne, hpop, hread⟩ := h.readUntil hshort
    have hnext := next_of_readUntil hne hread
    rw [hpop] at hnext
    refine ⟨fun hvalid => ?_, fun hinvalid => ?_⟩
    · rw [hnext, if_pos hvalid]
      rfl
    · rw [hnext, if_neg hinvalid]
      exact ⟨_, rfl⟩
  · obtain ⟨rest', hread⟩ := h.readUntil_long hlong
    have hlen : (piece.take (maxEntrySize + 2)).length = maxEntrySize + 2 :=
      List.length_take_of_le hlong
    have hne : piece.take (maxEntrySize + 2) ≠ [] := by
      intro hnil
      rw [hnil] at hlen
      cases hlen
    have hnext := next_of_readUntil hne hread
    rw [popIf_of_not_mem fun hmem => h.1 (List.mem_of_mem_take hmem),
      if_neg (not_validLine_of_length hlen.ge)] at hnext
    exact ⟨fun hvalid => absurd hvalid (not_validLine_of_length hlong), fun _ => ⟨_, hnext⟩⟩

theorem next_nil : (jsonl ⟨[], none⟩).next = (none, ⟨⟨[], none⟩, true⟩) := by
  rw [jsonl, Jsonl.next]
  rfl

/-- What the calls return on a stream. -/
theorem results_jsonl (n : ℕ) (bytes : Bytes) : (jsonl ⟨bytes, none⟩).results n =
    (List.range n).map fun k => (yielded ((pieces bytes).map (popIf carriageReturn)))[k]? := by
  induction n generalizing bytes with
  | zero => rfl
  | succ n ih =>
    rw [Jsonl.results, List.range_succ_eq_map, List.map_cons, List.map_map]
    by_cases hnil : bytes = []
    · subst hnil
      rw [next_nil, results_done, pieces_nil]
      rfl
    · obtain ⟨piece, rest, h⟩ := exists_begins hnil
      rw [h.pieces, List.map_cons, yielded]
      split_ifs with hvalid
      · rw [h.next.1 hvalid, ih rest]
        rfl
      · obtain ⟨reader, hnext⟩ := h.next.2 hvalid
        rw [hnext, results_done]
        rfl

/-- What is accepted are lines of the stream, from the first one on. -/
theorem accepted_yielded (lines : List Bytes) :
    (yielded lines).filterMap Except.toOption = lines.takeWhile fun line => ValidLine line := by
  induction lines with
  | nil => rfl
  | cons line lines ih =>
    rw [yielded]
    split_ifs with hvalid
    · rw [List.takeWhile_cons_of_pos (by simpa using hvalid), ← ih]
      rfl
    · rw [List.takeWhile_cons_of_neg (by simpa using hvalid)]
      rfl

/-- Valid lines are all returned. -/
theorem yielded_of_valid {lines : List Bytes} (h : ∀ line ∈ lines, ValidLine line) :
    yielded lines = lines.map .ok := by
  induction lines with
  | nil => rfl
  | cons line lines ih =>
    rw [List.forall_mem_cons] at h
    rw [yielded, if_pos h.1, ih h.2, List.map_cons]

example : (pieces [65, 13, 10, 10, 66]).map (popIf carriageReturn) = [[65], [], [66]] := by decide

end Siglog.Import

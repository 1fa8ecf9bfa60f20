import Siglog.Api.Paths

/-! Tiles and entry bundles and their encodings. A tile is its hashes one after
the other; a bundle is its entries, each behind a length of two bytes. -/

namespace Siglog.Merkle

/-! ### Hash tiles -/

structure HashTile (H : Type) where
  nodes : List H
  deriving DecidableEq

/-- Cut into blocks of thirty-two bytes; a rest is dropped. -/
def chunks32 (data : Bytes) : List Bytes32 :=
  if h : 32 ≤ data.length then ⟨data.take 32, by simpa using h⟩ :: chunks32 (data.drop 32) else []
termination_by data.length
decreasing_by rw [List.length_drop]; omega

namespace HashTile

variable {H : Type} [Sha256Hash H]

def toBytes (tile : HashTile H) : Bytes :=
  tile.nodes.flatMap fun node => (Sha256Hash.asBytes node).1

def fromBytes (data : Bytes) : Except (Fault Error) (HashTile H) :=
  if data.length % 32 ≠ 0 then
    .error (.err (.invalidEntry s!"hash tile length {data.length} is not a multiple of 32"))
  else .ok ⟨(chunks32 data).map Sha256Hash.fromBytes⟩

theorem chunks32_cons (b : Bytes32) (data : Bytes) :
    chunks32 (b.1 ++ data) = b :: chunks32 data := by
  have h : 32 ≤ (b.1 ++ data).length := by rw [List.length_append, b.2]; omega
  rw [chunks32, dif_pos h]
  congr 1
  · apply Subtype.ext
    change (b.1 ++ data).take 32 = b.1
    rw [List.take_append_of_le_length b.2.ge, List.take_of_length_le b.2.le]
  · rw [List.drop_append_of_le_length b.2.ge, List.drop_of_length_le b.2.le, List.nil_append]

theorem fromBytes_toBytes [LawfulSha256Hash H] (tile : HashTile H) :
    fromBytes tile.toBytes = .ok tile := by
  have hlen : ∀ nodes : List H,
      (nodes.flatMap fun node => (Sha256Hash.asBytes node).1).length % 32 = 0 := by
    intro nodes
    induction nodes with
    | nil => rfl
    | cons node nodes ih =>
      rw [List.flatMap_cons, List.length_append, (Sha256Hash.asBytes node).2]
      omega
  have hchunks : ∀ nodes : List H,
      (chunks32 (nodes.flatMap fun node => (Sha256Hash.asBytes node).1)).map Sha256Hash.fromBytes =
        nodes := by
    intro nodes
    induction nodes with
    | nil => rw [List.flatMap_nil, chunks32, dif_neg (by simp), List.map_nil]
    | cons node nodes ih =>
      rw [List.flatMap_cons, chunks32_cons, List.map_cons, ih, LawfulSha256Hash.fromBytes_asBytes]
  obtain ⟨nodes⟩ := tile
  rw [fromBytes, toBytes, if_neg (not_not.mpr (hlen nodes)), hchunks]

/-- The first hashes of a tile are the first bytes. -/
theorem take_toBytes (tile : HashTile H) (count : ℕ) :
    tile.toBytes.take (count * 32) = toBytes ⟨tile.nodes.take count⟩ := by
  obtain ⟨nodes⟩ := tile
  induction nodes generalizing count with
  | nil => simp [toBytes]
  | cons node nodes ih =>
    cases count with
    | zero => simp [toBytes]
    | succ count =>
      have hlen := (Sha256Hash.asBytes node).2
      have hrest := ih count
      simp only [toBytes] at hrest ⊢
      rw [List.take_succ_cons, List.flatMap_cons, List.flatMap_cons, List.take_append, hlen,
        List.take_of_length_le (by omega), show (count + 1) * 32 - 32 = count * 32 by omega, hrest]

end HashTile

/-! ### Entry bundles -/

structure EntryBundle where
  entries : List Bytes
  deriving DecidableEq, Repr

namespace EntryBundle

/-- `u16::to_be_bytes`. -/
def u16BeBytes (n : ℕ) : Bytes := [UInt8.ofNat (n / 256), UInt8.ofNat (n % 256)]

def entriesToBytes : List Bytes → Except (Fault Error) Bytes
  | [] => .ok []
  | entry :: entries =>
    if entry.length > 65535 then
      .error (.err
        (.invalidEntry s!"entry bundle item too large: {entry.length} bytes (max 65535)"))
    else do .ok (u16BeBytes entry.length ++ entry ++ (← entriesToBytes entries))

def toBytes (bundle : EntryBundle) : Except (Fault Error) Bytes := entriesToBytes bundle.entries

/-- The loop of `fromBytes` from an offset on. -/
def parseEntries (offset : ℕ) : Bytes → Except (Fault Error) (List Bytes)
  | [] => .ok []
  | [_] => .error (.err (.invalidEntry s!"truncated entry bundle at offset {offset}"))
  | hi :: lo :: data =>
    let len := hi.toNat * 256 + lo.toNat
    if data.length < len then
      .error (.err (.invalidEntry
        s!"entry at offset {offset} claims {len} bytes but only {data.length} available"))
    else do .ok (data.take len :: (← parseEntries (offset + 2 + len) (data.drop len)))
termination_by data => data.length
decreasing_by
  rw [List.length_drop, List.length_cons, List.length_cons]
  omega

def fromBytes (data : Bytes) : Except (Fault Error) EntryBundle := do .ok ⟨← parseEntries 0 data⟩

theorem parseEntries_toBytes {entries : List Bytes} : ∀ {data : Bytes} (offset : ℕ),
    entriesToBytes entries = .ok data → parseEntries offset data = .ok entries := by
  induction entries with
  | nil =>
    intro data offset h
    cases h
    rw [parseEntries]
  | cons entry entries ih =>
    intro data offset h
    rw [entriesToBytes] at h
    split_ifs at h with hlen
    rcases hrest : entriesToBytes entries with e | rest
    · simp [hrest, bind, Except.bind] at h
    · simp only [hrest, bind, Except.bind, Except.ok.injEq] at h
      subst h
      have hhi : (UInt8.ofNat (entry.length / 256)).toNat = entry.length / 256 := by
        rw [UInt8.toNat_ofNat']
        omega
      have hlo : (UInt8.ofNat (entry.length % 256)).toNat = entry.length % 256 := by
        rw [UInt8.toNat_ofNat']
        omega
      have hsum : entry.length / 256 * 256 + entry.length % 256 = entry.length := by omega
      simp only [u16BeBytes, List.cons_append, List.nil_append]
      rw [parseEntries, hhi, hlo, hsum, if_neg (by rw [List.length_append]; omega), List.take_left,
        List.drop_left, ih _ hrest]
      rfl

/-- An entry takes at most its longest length and two bytes. -/
theorem length_entriesToBytes_le {entries : List Bytes} :
    ∀ {data : Bytes}, entriesToBytes entries = .ok data →
    data.length ≤ entries.length * (65535 + 2) := by
  induction entries with
  | nil =>
    intro data h
    cases h
    exact Nat.zero_le _
  | cons entry entries ih =>
    intro data h
    rw [entriesToBytes] at h
    split_ifs at h with hlen
    rcases hrest : entriesToBytes entries with e | rest
    · simp [hrest, bind, Except.bind] at h
    · simp only [hrest, bind, Except.bind, Except.ok.injEq] at h
      subst h
      have := ih hrest
      rw [List.length_append, List.length_append, List.length_cons]
      simp only [u16BeBytes, List.length_cons, List.length_nil]
      omega

/-- What is written is read back. -/
theorem fromBytes_toBytes {bundle : EntryBundle} {data : Bytes} (h : bundle.toBytes = .ok data) :
    fromBytes data = .ok bundle := by
  rw [fromBytes, parseEntries_toBytes 0 h]
  rfl

theorem toBytes_parseEntries (data : Bytes) : ∀ {offset : ℕ} {entries : List Bytes},
    parseEntries offset data = .ok entries → entriesToBytes entries = .ok data := by
  induction hlen : data.length using Nat.strong_induction_on generalizing data with
  | h n ih =>
    subst hlen
    intro offset entries h
    match data, h with
    | [], h =>
      rw [parseEntries] at h
      obtain rfl := Except.ok.inj h
      rfl
    | [_], h =>
      rw [parseEntries] at h
      cases h
    | hi :: lo :: data, h =>
      rw [parseEntries] at h
      split_ifs at h with hshort
      rw [not_lt] at hshort
      have hhi := hi.toNat_lt
      have hlo := lo.toNat_lt
      generalize hn : hi.toNat * 256 + lo.toNat = len at h hshort
      cases hrest : parseEntries (offset + 2 + len) (data.drop len) with
      | error e => simp [hrest, bind, Except.bind] at h
      | ok rest =>
        simp only [hrest, bind, Except.bind, Except.ok.injEq] at h
        subst h
        have hdrop := ih (data.drop len).length (by simp; omega) (data.drop len) rfl hrest
        have htake : (data.take len).length = len := by
          rw [List.length_take, Nat.min_eq_left hshort]
        have hbytes : u16BeBytes len = [hi, lo] := by
          have h₁ : len / 256 = hi.toNat := by omega
          have h₂ : len % 256 = lo.toNat := by omega
          rw [u16BeBytes, h₁, h₂, UInt8.ofNat_toNat, UInt8.ofNat_toNat]
        rw [entriesToBytes, if_neg (by omega), hdrop, htake, hbytes]
        simp [bind, Except.bind]

/-- What is read is written the same. -/
theorem toBytes_fromBytes {bundle : EntryBundle} {data : Bytes} (h : fromBytes data = .ok bundle) :
    bundle.toBytes = .ok data := by
  unfold fromBytes at h
  cases hentries : parseEntries 0 data with
  | error e => simp [hentries, bind, Except.bind] at h
  | ok entries =>
    simp only [hentries, bind, Except.bind, Except.ok.injEq] at h
    subst h
    exact toBytes_parseEntries data hentries

/-- Encoding fails only on an entry that is too long. -/
theorem toBytes_ok {bundle : EntryBundle} (h : ∀ entry ∈ bundle.entries, entry.length ≤ 65535) :
    ∃ data, bundle.toBytes = .ok data := by
  obtain ⟨entries⟩ := bundle
  unfold toBytes
  dsimp only at h ⊢
  induction entries with
  | nil => exact ⟨[], rfl⟩
  | cons entry entries ih =>
    obtain ⟨data, hdata⟩ := ih fun e he => h e (by simp [he])
    have := h entry (by simp)
    rw [entriesToBytes, if_neg (by omega), hdata]
    exact ⟨_, rfl⟩

end EntryBundle

end Siglog.Merkle

import Siglog.Vindex.Label
import Siglog.Slice
import Mathlib.Order.Bounds.Defs

/-! Labels as they are stored, with every index checked and the length a `u32`. What can
be built from a key and the empty label is always the packing of a bit string: the bytes
are as many as the bits need, and the rest of the last byte is clear. So no index is out of
range, and the operations are those of lists of bits. -/

namespace Siglog.Vindex

/-- A label with nothing known of its bytes. -/
structure RawLabel where
  bytes : Bytes
  bitLen : ℕ
  deriving DecidableEq

namespace RawLabel

def empty : RawLabel := ⟨[], 0⟩

def fromKey (key : Bytes32) : RawLabel := ⟨key.val, 256⟩

/-- Get a specific bit (0 or 1). Panics if out of range. -/
def bit (l : RawLabel) (idx : ℕ) : Except (Fault Error) UInt8 :=
  if idx < l.bitLen then do
    let byte ← byteAt l.bytes (idx / 8)
    .ok ((byte >>> UInt8.ofNat (7 - idx % 8)) &&& 1)
  else .error .panic

/-- Get the prefix of a given length. -/
def prefixTo (l : RawLabel) (len : ℕ) : Except (Fault Error) RawLabel :=
  if l.bitLen ≤ len then .ok l
  else if len = 0 then .ok empty
  else do
    let fullBytes := len / 8
    let remainingBits := len % 8
    let bytes ← slice l.bytes 0 fullBytes
    if 0 < remainingBits ∧ fullBytes < l.bytes.length then do
      let byte ← byteAt l.bytes fullBytes
      .ok ⟨bytes ++ [byte &&& maskOf remainingBits], len⟩
    else .ok ⟨bytes, len⟩

/-- Append a single bit (0 or 1). -/
def appendBit (l : RawLabel) (bit : UInt8) : Except (Fault Error) RawLabel :=
  if l.bitLen + 1 < 2 ^ 32 then do
    let byteIdx := l.bitLen / 8
    let bytes := if l.bytes.length ≤ byteIdx then l.bytes ++ [0] else l.bytes
    if bit = 1 then do
      let byte ← byteAt bytes byteIdx
      .ok ⟨bytes.set byteIdx (byte ||| (1 <<< UInt8.ofNat (7 - l.bitLen % 8))), l.bitLen + 1⟩
    else .ok ⟨bytes, l.bitLen + 1⟩
  else .error .panic -- overflow of `bit_len`

/-- Get the suffix starting at a given bit position. -/
def suffix (l : RawLabel) (start : ℕ) : Except (Fault Error) RawLabel :=
  if l.bitLen ≤ start then .ok empty
  else
    (List.range (l.bitLen - start)).foldlM (fun result i => do
      let bit ← l.bit (start + i)
      result.appendBit bit) empty

/-- Check if this label is a prefix of another. -/
def isPrefixOf (l other : RawLabel) : Except (Fault Error) Bool :=
  if other.bitLen < l.bitLen then .ok false
  else if l.bitLen = 0 then .ok true
  else do
    let fullBytes := l.bitLen / 8
    let selfFull ← slice l.bytes 0 fullBytes
    let otherFull ← slice other.bytes 0 fullBytes
    if selfFull ≠ otherFull then .ok false
    else
      let remainingBits := l.bitLen % 8
      if 0 < remainingBits then
        let selfLast := l.bytes.getD fullBytes 0 &&& maskOf remainingBits
        let otherLast := other.bytes.getD fullBytes 0 &&& maskOf remainingBits
        .ok (selfLast = otherLast)
      else .ok true

/-- Find the common prefix length with another label. -/
def commonPrefixLen (l other : RawLabel) : Except (Fault Error) ℕ :=
  let maxLen := min l.bitLen other.bitLen
  if maxLen = 0 then .ok 0
  else do
    let fullBytes := maxLen / 8
    let differing ← (List.range fullBytes).findM? fun i => do
      let selfByte ← byteAt l.bytes i
      let otherByte ← byteAt other.bytes i
      .ok (decide (selfByte ≠ otherByte))
    match differing with
    | some i => do
      let selfByte ← byteAt l.bytes i
      let otherByte ← byteAt other.bytes i
      .ok (i * 8 + leadingZeros8 (selfByte ^^^ otherByte))
    | none =>
      let remainingBits := maxLen % 8
      if 0 < remainingBits ∧ fullBytes < l.bytes.length ∧ fullBytes < other.bytes.length then do
        let selfByte ← byteAt l.bytes fullBytes
        let otherByte ← byteAt other.bytes fullBytes
        let selfByte := selfByte &&& maskOf remainingBits
        let otherByte := otherByte &&& maskOf remainingBits
        if selfByte ≠ otherByte then .ok (fullBytes * 8 + leadingZeros8 (selfByte ^^^ otherByte))
        else .ok maxLen
      else .ok maxLen

/-- What can be built with these operations. -/
inductive Reachable : RawLabel → Prop
  | empty : Reachable empty
  | fromKey (key : Bytes32) : Reachable (fromKey key)
  | prefixTo {l l' : RawLabel} (len : ℕ) : Reachable l → l.prefixTo len = .ok l' → Reachable l'
  | appendBit {l l' : RawLabel} (bit : UInt8) :
      Reachable l → l.appendBit bit = .ok l' → Reachable l'
  | suffix {l l' : RawLabel} (start : ℕ) : Reachable l → l.suffix start = .ok l' → Reachable l'

/-- The bits of a label. -/
def bits (l : RawLabel) : List Bool := (List.range l.bitLen).map (bitAt l.bytes)

@[simp] theorem length_bits (l : RawLabel) : l.bits.length = l.bitLen := by simp [bits]

theorem getElem?_bits (l : RawLabel) (i : ℕ) :
    l.bits[i]? = if i < l.bitLen then some (bitAt l.bytes i) else none := by
  rw [bits, List.getElem?_map]
  split_ifs with h
  · rw [List.getElem?_range h, Option.map_some]
  · rw [List.getElem?_eq_none (by rw [List.length_range]; omega), Option.map_none]

end RawLabel

/-! ### Labels that keep their invariant -/

theorem byteAt_getD {data : Bytes} {i : ℕ} (h : i < data.length) :
    byteAt data i = (.ok (data.getD i 0) : Except (Fault Error) UInt8) := by
  rw [byteAt, List.getElem?_eq_getElem h, List.getD_eq_getElem _ _ h]

theorem slice_zero {data : Bytes} {n : ℕ} (h : n ≤ data.length) :
    slice data 0 n = (.ok (data.take n) : Except (Fault Error) Bytes) := by
  rw [slice, if_pos ⟨Nat.zero_le n, h⟩, List.drop_zero]

theorem findM?_ok {ε α : Type} {p : α → Except ε Bool} {q : α → Bool} {xs : List α}
    (h : ∀ a ∈ xs, p a = .ok (q a)) :
    xs.findM? p = .ok (xs.find? q) := by
  induction xs with
  | nil => rfl
  | cons a xs ih =>
    rw [List.findM?, h a List.mem_cons_self]
    change (match q a with | true => _ | false => _) = _
    rw [List.find?_cons, ih fun b hb => h b (List.mem_cons_of_mem _ hb)]
    cases q a <;> rfl

namespace Label

/-- A label as it is stored. -/
def raw (l : Label) : RawLabel := ⟨l.bytes, l.bitLen⟩

@[simp] theorem raw_bytes (l : Label) : l.raw.bytes = l.bytes := rfl

@[simp] theorem raw_bitLen (l : Label) : l.raw.bitLen = l.bitLen := rfl

theorem raw_empty : empty.raw = RawLabel.empty := rfl

theorem raw_fromKey (key : Bytes32) : (fromKey key).raw = RawLabel.fromKey key := rfl

section Operations

variable (l other : Label)

theorem raw_bit (idx : ℕ) : l.raw.bit idx = l.bit idx := by
  have hlen := l.length_bytes
  rw [RawLabel.bit, bit, raw_bytes, raw_bitLen]
  split_ifs with h
  · rw [byteAt_getD (by omega)]
    rfl
  · rfl

theorem raw_prefixTo (len : ℕ) : l.raw.prefixTo len = .ok (l.prefixTo len).raw := by
  have hlen := l.length_bytes
  rw [RawLabel.prefixTo, prefixTo, raw_bytes, raw_bitLen]
  split_ifs with h h0
  · rfl
  · rfl
  · simp only [slice_zero (show len / 8 ≤ l.bytes.length by omega), raw, prefixBytes]
    split_ifs with hr
    · rw [byteAt_getD hr.2]
      rfl
    · rw [List.append_nil]
      rfl

theorem raw_appendBit (bit : UInt8) : l.raw.appendBit bit =
    if l.bitLen + 1 < 2 ^ 32 then .ok (l.appendBit bit).raw else .error .panic := by
  rw [RawLabel.appendBit, raw_bytes, raw_bitLen]
  split_ifs with h hbit
  · -- the byte of the new bit is there
    have hset := l.length_appendBytes 1
    simp only [appendBytes, if_true, List.length_set] at hset
    simp only [byteAt_getD (show l.bitLen / 8 < List.length _ by rw [hset]; omega)]
    simp [raw, appendBit, appendBytes, hbit, Bind.bind, Except.bind]
  · simp [raw, appendBit, appendBytes, hbit]
  · rfl

theorem raw_isPrefixOf : l.raw.isPrefixOf other.raw = .ok (l.isPrefixOf other) := by
  have hl := l.length_bytes
  have ho := other.length_bytes
  rw [RawLabel.isPrefixOf, isPrefixOf, raw_bitLen, raw_bitLen, raw_bytes, raw_bytes]
  split_ifs with hlt h0
  · rfl
  · rfl
  · simp only [slice_zero (show l.bitLen / 8 ≤ l.bytes.length by omega),
      slice_zero (show l.bitLen / 8 ≤ other.bytes.length by omega), Bind.bind, Except.bind]
    split_ifs <;> rfl

theorem raw_commonPrefixLen : l.raw.commonPrefixLen other.raw = .ok (l.commonPrefixLen other) := by
  have hl := l.length_bytes
  have ho := other.length_bytes
  rw [RawLabel.commonPrefixLen, commonPrefixLen, raw_bitLen, raw_bitLen, raw_bytes, raw_bytes]
  generalize hmax : min l.bitLen other.bitLen = maxLen
  dsimp only
  by_cases h0 : maxLen = 0
  · rw [if_pos h0, if_pos h0]
  rw [if_neg h0, if_neg h0]
  have hbytes :
      ∀ i < maxLen / 8, byteAt l.bytes i = (.ok (l.bytes.getD i 0) : Except (Fault Error) UInt8) ∧
      byteAt other.bytes i = (.ok (other.bytes.getD i 0) : Except (Fault Error) UInt8) :=
        fun i hi =>
    ⟨byteAt_getD (by omega), byteAt_getD (by omega)⟩
  rw [findM?_ok (q := fun i => decide (l.bytes.getD i 0 ≠ other.bytes.getD i 0)) fun i hi => by
    obtain ⟨hself, hother⟩ := hbytes i (List.mem_range.mp hi)
    rw [hself, hother]
    rfl]
  simp only [Bind.bind, Except.bind]
  cases hfind :
    (List.range (maxLen / 8)).find? fun i => decide (l.bytes.getD i 0 ≠ other.bytes.getD i 0) with
  | some i =>
    obtain ⟨hself, hother⟩ := hbytes i (List.mem_range.mp (List.mem_of_find?_eq_some hfind))
    simp only [hself, hother]
  | none =>
    dsimp only
    by_cases hr : 0 < maxLen % 8 ∧ maxLen / 8 < l.bytes.length ∧ maxLen / 8 < other.bytes.length
    · rw [if_pos hr, if_pos hr]
      simp only [byteAt_getD hr.2.1, byteAt_getD hr.2.2]
      split_ifs <;> rfl
    · rw [if_neg hr, if_neg hr]

end Operations

/-! ### Bits -/

open RawLabel (getElem?_bits)

theorem getElem?_raw_bits (l : Label) (i : ℕ) :
    l.raw.bits[i]? = if i < l.bitLen then some (bitAt l.bytes i) else none :=
  getElem?_bits _ _

theorem bits_empty : empty.raw.bits = [] := rfl

theorem bits_prefixTo (l : Label) (len : ℕ) : (l.prefixTo len).raw.bits = l.raw.bits.take len := by
  rcases Nat.lt_or_ge len l.bitLen with h | h
  · apply List.ext_getElem?
    intro i
    rw [getElem?_raw_bits, prefixTo_bitLen h.le, List.getElem?_take, getElem?_raw_bits]
    split_ifs with hi
    · rw [bitAt_prefixTo hi]
    · omega
    · rfl
  · rw [prefixTo, dif_pos h, List.take_of_length_le (by rwa [RawLabel.length_bits])]

theorem bits_appendBit (l : Label) (bit : UInt8) :
    (l.appendBit bit).raw.bits = l.raw.bits ++ [decide (bit = 1)] := by
  have hbit : ∀ i, bitAt (l.appendBit bit).bytes i =
      (decide (i = l.bitLen ∧ bit = 1) || bitAt l.bytes i) :=
    l.bitAt_appendBytes bit
  rw [RawLabel.bits, RawLabel.bits, raw_bitLen, appendBit_bitLen, List.range_succ, List.map_append,
    List.map_singleton, raw_bytes, hbit, l.spare _ le_rfl, Bool.or_false]
  congr 1
  · apply List.map_congr_left
    intro i hi
    have hlt := List.mem_range.mp hi
    rw [hbit, decide_eq_false (fun h => hlt.ne h.1), Bool.false_or]
    rfl
  · simp

/-- Labels are equal if their bits are. -/
theorem bits_injective {a b : Label} (h : a.raw.bits = b.raw.bits) : a = b := by
  have hlen : a.bitLen = b.bitLen := by simpa using congrArg List.length h
  apply ext_bits hlen
  intro i hi
  have hget := congrArg (·[i]?) h
  rw [getElem?_raw_bits, getElem?_raw_bits, if_pos hi, if_pos (hlen ▸ hi)] at hget
  exact Option.some.inj hget

/-- Labels agree on the bits that both lists begin with. -/
theorem agree_iff_take {a b : Label} {n : ℕ} (ha : n ≤ a.bitLen) (hb : n ≤ b.bitLen) :
    a.Agree n b ↔ a.raw.bits.take n = b.raw.bits.take n := by
  constructor
  · intro h
    apply List.ext_getElem?
    intro i
    rw [List.getElem?_take, List.getElem?_take, getElem?_raw_bits, getElem?_raw_bits]
    by_cases hi : i < n
    · rw [if_pos hi, if_pos hi, if_pos (by omega), if_pos (by omega), h i hi]
    · rw [if_neg hi, if_neg hi]
  · intro h i hi
    have hget := congrArg (·[i]?) h
    rw [List.getElem?_take, List.getElem?_take, if_pos hi, if_pos hi, getElem?_raw_bits,
      getElem?_raw_bits, if_pos (by omega), if_pos (by omega)] at hget
    exact Option.some.inj hget

theorem isPrefixOf_iff_bits {a b : Label} : a.isPrefixOf b = true ↔ a.raw.bits <+: b.raw.bits := by
  rw [isPrefixOf_iff, List.prefix_iff_eq_take, RawLabel.length_bits, raw_bitLen]
  constructor
  · rintro ⟨hle, hagree⟩
    rw [← (agree_iff_take le_rfl hle).mp hagree, List.take_of_length_le (by simp)]
  · intro h
    have hle : a.bitLen ≤ b.bitLen := by
      have hlen := congrArg List.length h
      rw [List.length_take, RawLabel.length_bits, RawLabel.length_bits, raw_bitLen,
        raw_bitLen] at hlen
      omega
    refine ⟨hle, (agree_iff_take le_rfl hle).mpr ?_⟩
    rw [← h, List.take_of_length_le (by simp)]

/-- The common prefix length is the length of the longest list that both lists of bits begin
with. -/
theorem commonPrefixLen_greatest (a b : Label) :
    IsGreatest {n | ∃ xs, xs <+: a.raw.bits ∧ xs <+: b.raw.bits ∧ xs.length = n}
      (a.commonPrefixLen b) := by
  obtain ⟨hle, hagree, hdiffer⟩ := commonPrefixLen_spec a b
  constructor
  · refine ⟨a.raw.bits.take (a.commonPrefixLen b), List.take_prefix _ _, ?_, ?_⟩
    · rw [(agree_iff_take (by omega) (by omega)).mp hagree]
      exact List.take_prefix _ _
    · rw [List.length_take, RawLabel.length_bits, raw_bitLen]
      omega
  · rintro n ⟨xs, hxa, hxb, rfl⟩
    have ha := hxa.length_le
    have hb := hxb.length_le
    rw [RawLabel.length_bits, raw_bitLen] at ha hb
    by_contra hlt
    -- the labels would agree on the bit in which they differ
    refine hdiffer (by omega) ((agree_iff_take ha hb).mpr ?_ _ (by omega))
    rw [← List.prefix_iff_eq_take.mp hxa, ← List.prefix_iff_eq_take.mp hxb]

/-- The bits that are appended one after the other. -/
theorem appendLoop_eq {l : Label} (hl : l.bitLen < 2 ^ 32) {start : ℕ} (count : ℕ)
    (h : start + count ≤ l.bitLen) :
    ∃ s : Label, (List.range count).foldlM (fun result i => do
        let bit ← l.raw.bit (start + i)
        result.appendBit bit) RawLabel.empty = .ok s.raw ∧
      s.bitLen = count ∧ s.raw.bits = (l.raw.bits.drop start).take count := by
  induction count with
  | zero => exact ⟨empty, rfl, rfl, rfl⟩
  | succ count ih =>
    obtain ⟨s, hs, hlen, hbits⟩ := ih (by omega)
    have hidx : start + count < l.bitLen := by omega
    have hbit := bit_ok hidx
    refine ⟨s.appendBit (if bitAt l.bytes (start + count) then 1 else 0), ?_, by
        rw [appendBit_bitLen, hlen], ?_⟩
    · rw [List.range_succ, List.foldlM_append, hs]
      simp only [Bind.bind, Except.bind, List.foldlM_cons, List.foldlM_nil, raw_bit, hbit,
        raw_appendBit]
      rw [if_pos (by omega)]
      rfl
    · have hget : (l.raw.bits.drop start)[count]? = some (bitAt l.bytes (start + count)) := by
        rw [List.getElem?_drop, getElem?_raw_bits, if_pos (by omega)]
      rw [bits_appendBit, hbits, List.take_add_one, hget]
      cases bitAt l.bytes (start + count) <;> rfl

theorem raw_suffix {l : Label} (hl : l.bitLen < 2 ^ 32) (start : ℕ) :
    ∃ s : Label, l.raw.suffix start = .ok s.raw ∧ s.bitLen ≤ l.bitLen ∧
      s.raw.bits = l.raw.bits.drop start := by
  rw [RawLabel.suffix, raw_bitLen]
  split_ifs with h
  · refine ⟨empty, rfl, Nat.zero_le _, ?_⟩
    rw [bits_empty, List.drop_eq_nil_of_le (by rwa [RawLabel.length_bits])]
  · have hcount : start + (l.bitLen - start) ≤ l.bitLen := by omega
    obtain ⟨s, hs, hlen, hbits⟩ := appendLoop_eq hl (l.bitLen - start) hcount
    refine ⟨s, hs, by omega, ?_⟩
    rw [hbits, List.take_of_length_le (by simp)]

end Label

namespace RawLabel

/-- What can be built is a packed bit string. -/
theorem Reachable.packed {l : RawLabel} (h : l.Reachable) : ∃ p : Label, p.raw = l ∧
    p.bitLen < 2 ^ 32 := by
  induction h with
  | empty => exact ⟨Label.empty, rfl, by decide⟩
  | fromKey key => exact ⟨Label.fromKey key, rfl, by rw [Label.bitLen_fromKey]; omega⟩
  | prefixTo len _ hstep ih =>
    obtain ⟨p, rfl, hp⟩ := ih
    rw [Label.raw_prefixTo] at hstep
    refine ⟨p.prefixTo len, Except.ok.inj hstep, ?_⟩
    rcases Nat.le_total len p.bitLen with hle | hge
    · rw [Label.prefixTo_bitLen hle]
      omega
    · rwa [Label.prefixTo, dif_pos hge]
  | appendBit bit _ hstep ih =>
    obtain ⟨p, rfl, hp⟩ := ih
    rw [Label.raw_appendBit] at hstep
    split_ifs at hstep with hlt
    exact ⟨p.appendBit bit, Except.ok.inj hstep, hlt⟩
  | suffix start _ hstep ih =>
    obtain ⟨p, rfl, hp⟩ := ih
    obtain ⟨s, hs, hle, -⟩ := Label.raw_suffix hp start
    rw [hs] at hstep
    exact ⟨s, Except.ok.inj hstep, by omega⟩

/-- What can be built refines its list of bits, as long as a `u32` counts them. -/
theorem reachable_refines {l other : RawLabel} (hl : l.Reachable) (hother : other.Reachable) :
    (l.bytes.length = (l.bitLen + 7) / 8 ∧ ∀ i, l.bitLen ≤ i → bitAt l.bytes i = false) ∧
      (l = other ↔ l.bits = other.bits) ∧
      (∀ i (hi : i < l.bits.length), l.bit i = .ok (if l.bits[i] then 1 else 0)) ∧
      (∀ len, ∃ l', l.prefixTo len = .ok l' ∧ l'.bits = l.bits.take len) ∧
      (∀ bit, if l.bits.length < 2 ^ 32 - 1 then ∃ l', l.appendBit bit = .ok l' ∧
        l'.bits = l.bits ++ [decide (bit = 1)]
        else l.appendBit bit = .error .panic) ∧
      (∀ start, ∃ l', l.suffix start = .ok l' ∧ l'.bits = l.bits.drop start) ∧
      (∃ answer, l.isPrefixOf other = .ok answer ∧ (answer = true ↔ l.bits <+: other.bits)) ∧
      ∃ n, l.commonPrefixLen other = .ok n ∧
        IsGreatest {n | ∃ xs, xs <+: l.bits ∧ xs <+: other.bits ∧ xs.length = n} n := by
  obtain ⟨p, rfl, hp⟩ := hl.packed
  obtain ⟨q, rfl, hq⟩ := hother.packed
  refine ⟨⟨p.length_bytes, p.spare⟩, ⟨fun h => by rw [h], fun h => by rw [Label.bits_injective h]⟩,
    fun i hi => ?_,
    fun len => ⟨_, p.raw_prefixTo len, p.bits_prefixTo len⟩, fun bit => ?_, fun start => ?_,
    ⟨_, p.raw_isPrefixOf q, Label.isPrefixOf_iff_bits⟩, _, p.raw_commonPrefixLen q,
    p.commonPrefixLen_greatest q⟩
  · rw [length_bits, Label.raw_bitLen] at hi
    rw [Label.raw_bit, Label.bit_ok hi]
    simp [bits]
  · rw [length_bits, Label.raw_bitLen, Label.raw_appendBit]
    split_ifs
    · exact ⟨_, rfl, p.bits_appendBit bit⟩
    all_goals first | omega | rfl
  · obtain ⟨s, hs, -, hbits⟩ := Label.raw_suffix hp start
    exact ⟨_, hs, hbits⟩

/-- Twelve bits of a key, and the key. -/
theorem reachable_refines_twelve :
    let key : Bytes32 := ⟨[0xab, 0xcd] ++ List.replicate 30 0, by simp⟩
    let l : RawLabel := ⟨[0xab, 0xc0], 12⟩
    (∃ answer, l.isPrefixOf (fromKey key) = .ok answer ∧
      (answer = true ↔ l.bits <+: (fromKey key).bits)) ∧
      ∃ n, l.commonPrefixLen (fromKey key) = .ok n ∧
        IsGreatest {n | ∃ xs, xs <+: l.bits ∧ xs <+: (fromKey key).bits ∧ xs.length = n} n := by
  intro key l
  have hl : l.Reachable := (Reachable.fromKey key).prefixTo 12 rfl
  exact (reachable_refines hl (.fromKey key)).2.2.2.2.2.2

/-- The label of `n` zero bits. -/
def zeros (n : ℕ) : RawLabel := ⟨List.replicate ((n + 7) / 8) 0, n⟩

theorem appendBit_zeros {n : ℕ} (hn : n + 1 < 2 ^ 32) :
    (zeros n).appendBit 0 = .ok (zeros (n + 1)) := by
  have hbytes : (if (n + 7) / 8 ≤ n / 8 then List.replicate ((n + 7) / 8) (0 : UInt8) ++ [0]
      else List.replicate ((n + 7) / 8) 0) =
      List.replicate ((n + 1 + 7) / 8) 0 := by
    split_ifs with h
    · rw [← List.replicate_succ', show (n + 7) / 8 + 1 = (n + 1 + 7) / 8 by omega]
    · rw [show (n + 7) / 8 = (n + 1 + 7) / 8 by omega]
  rw [appendBit, zeros, if_pos hn]
  dsimp only
  rw [if_neg (by decide), List.length_replicate, hbytes]
  rfl

theorem zeros_reachable {n : ℕ} (hn : n < 2 ^ 32) : (zeros n).Reachable := by
  induction n with
  | zero => exact .empty
  | succ n ih => exact (ih (by omega)).appendBit 0 (appendBit_zeros hn)

/-- The longest label that can be built cannot be extended. -/
theorem appendBit_longest : (zeros (2 ^ 32 - 1)).Reachable ∧ ∀ bit, bit = 0 ∨ bit = 1 →
    ¬ ∃ l', (zeros (2 ^ 32 - 1)).appendBit bit = .ok l' ∧
    l'.bits = (zeros (2 ^ 32 - 1)).bits ++ [decide (bit = 1)] := by
  refine ⟨zeros_reachable (by omega), ?_⟩
  rintro bit - ⟨l', hl', -⟩
  have hfull : ¬ (zeros (2 ^ 32 - 1)).bitLen + 1 < 2 ^ 32 := lt_irrefl (2 ^ 32)
  rw [appendBit, if_neg hfull] at hl'
  cases hl'

end RawLabel

end Siglog.Vindex

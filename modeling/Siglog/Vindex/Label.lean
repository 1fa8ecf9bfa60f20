import Siglog.Types
import Mathlib.Data.List.GetD

/-! Bit strings packed into bytes, first bit highest. A label keeps its length and
leaves the spare bits of its last byte zero, so it is determined by its bits. -/

namespace Siglog.Vindex

section Bits

/-- Bit `j` of a byte, from the highest. -/
def bitOf (b : UInt8) (j : ℕ) : Bool := b.toNat.testBit (7 - j)

/-- Bit `i` of a byte string. -/
def bitAt (bytes : Bytes) (i : ℕ) : Bool := bitOf (bytes.getD (i / 8) 0) (i % 8)

/-- The byte whose first `r` bits are set. -/
def maskOf (r : ℕ) : UInt8 := 0xFF <<< UInt8.ofNat (8 - r)

/-- The first `len` bits, the rest of the last byte cleared. -/
def prefixBytes (bytes : Bytes) (len : ℕ) : Bytes :=
  let fullBytes := len / 8
  let remainingBits := len % 8
  bytes.take fullBytes ++
    if 0 < remainingBits ∧
      fullBytes < bytes.length then [bytes.getD fullBytes 0 &&& maskOf remainingBits] else []

/-- `u8::leading_zeros`. -/
def leadingZeros8 (b : UInt8) : ℕ := if b = 0 then 8 else 7 - b.toNat.log2

@[simp] theorem bitOf_zero (j : ℕ) : bitOf 0 j = false := by simp [bitOf]

@[simp] theorem bitOf_xor (a b : UInt8) (j : ℕ) : bitOf (a ^^^ b) j = (bitOf a j ^^ bitOf b j) := by
  simp [bitOf]

@[simp] theorem bitOf_and (a b : UInt8) (j : ℕ) : bitOf (a &&& b) j = (bitOf a j && bitOf b j) := by
  simp [bitOf]

@[simp] theorem bitOf_or (a b : UInt8) (j : ℕ) : bitOf (a ||| b) j = (bitOf a j || bitOf b j) := by
  simp [bitOf]

theorem byte_ext {a b : UInt8} (h : ∀ j < 8, bitOf a j = bitOf b j) : a = b := by
  apply UInt8.toNat_inj.mp
  apply Nat.eq_of_testBit_eq
  intro k
  by_cases hk : k < 8
  · have := h (7 - k) (by omega)
    rwa [bitOf, bitOf, show 7 - (7 - k) = k by omega] at this
  · have hpow : 2 ^ 8 ≤ 2 ^ k := Nat.pow_le_pow_right (by omega) (by omega)
    have ha := a.toNat_lt
    have hb := b.toNat_lt
    rw [Nat.testBit_lt_two_pow (by omega), Nat.testBit_lt_two_pow (by omega)]

theorem bitOf_mask {r j : ℕ} (hr : 0 < r) (hr' : r < 8) (hj : j < 8) :
    bitOf (maskOf r) j = decide (j < r) := by
  have hall : ∀ r < 8, 0 < r → ∀ j < 8, bitOf (maskOf r) j = decide (j < r) := by decide
  exact hall r hr' hr j hj

/-- The byte with one set bit, at place `k`. -/
theorem bitOf_single {k j : ℕ} (hk : k < 8) (hj : j < 8) :
    bitOf (1 <<< UInt8.ofNat (7 - k)) j = decide (j = k) := by
  have hall : ∀ k < 8, ∀ j < 8, bitOf (1 <<< UInt8.ofNat (7 - k)) j = decide (j = k) := by decide
  exact hall k hk j hj

/-- The highest set bit of a byte. -/
theorem leadingZeros8_spec {d : UInt8} (hd : d ≠ 0) :
    leadingZeros8 d < 8 ∧ bitOf d (leadingZeros8 d) = true ∧
    ∀ j < leadingZeros8 d, bitOf d j = false := by
  have hne : d.toNat ≠ 0 := fun h => hd (UInt8.toNat_inj.mp h)
  have hlog : d.toNat.log2 < 8 := (Nat.log2_lt hne).mpr d.toNat_lt
  rw [leadingZeros8, if_neg hd]
  refine ⟨by omega, ?_, ?_⟩
  · rw [bitOf, show 7 - (7 - d.toNat.log2) = d.toNat.log2 by omega]
    exact Nat.testBit_log2 hne
  · intro j hj
    exact Nat.testBit_lt_two_pow ((Nat.log2_lt hne).mp (by omega))

theorem bitAt_of_length_le {bytes : Bytes} {i : ℕ} (h : 8 * bytes.length ≤ i) :
    bitAt bytes i = false := by
  rw [bitAt, List.getD_eq_default _ _ (by omega), bitOf_zero]

/-- Byte strings of one length are equal if their bits are. -/
theorem bytes_ext {a b : Bytes} (hl : a.length = b.length) (h : ∀ i, bitAt a i = bitAt b i) :
    a = b := by
  apply List.ext_getElem hl
  intro k ha hb
  apply byte_ext
  intro j hj
  have hk := h (8 * k + j)
  rwa [bitAt, bitAt, show (8 * k + j) / 8 = k by omega, show (8 * k + j) % 8 = j by omega,
    List.getD_eq_getElem _ _ ha, List.getD_eq_getElem _ _ hb] at hk

/-- Two bytes agree under a mask if their first bits are the same. -/
theorem and_mask_eq_iff {a b : UInt8} {r : ℕ} (hr : 0 < r) (hr' : r < 8) :
    a &&& maskOf r = b &&& maskOf r ↔ ∀ j < r, bitOf a j = bitOf b j := by
  constructor
  · intro h j hj
    have hbit := congrArg (bitOf · j) h
    simpa only [bitOf_and, bitOf_mask hr hr' (by omega : j < 8), decide_eq_true hj,
      Bool.and_true] using hbit
  · intro h
    apply byte_ext
    intro j hj
    rw [bitOf_and, bitOf_and, bitOf_mask hr hr' hj]
    by_cases hjr : j < r
    · rw [h j hjr]
    · rw [decide_eq_false hjr, Bool.and_false, Bool.and_false]

/-- The first bits of two byte strings, byte by byte. -/
theorem bits_eq_iff {a b : Bytes} {n : ℕ} : (∀ i < n, bitAt a i = bitAt b i) ↔
    (∀ k < n / 8, a.getD k 0 = b.getD k 0) ∧
    ∀ j < n % 8, bitOf (a.getD (n / 8) 0) j = bitOf (b.getD (n / 8) 0) j := by
  constructor
  · intro h
    constructor
    · intro k hk
      apply byte_ext
      intro j hj
      have hbit := h (8 * k + j) (by omega)
      rwa [bitAt, bitAt, show (8 * k + j) / 8 = k by omega, show (8 * k + j) % 8 = j by
          omega] at hbit
    · intro j hj
      have hbit := h (8 * (n / 8) + j) (by omega)
      rwa [bitAt, bitAt, show (8 * (n / 8) + j) / 8 = n / 8 by omega,
        show (8 * (n / 8) + j) % 8 = j by omega] at hbit
  · rintro ⟨hfull, hlast⟩ i hi
    rw [bitAt, bitAt]
    by_cases hk : i / 8 < n / 8
    · rw [hfull _ hk]
    · rw [show i / 8 = n / 8 by omega]
      exact hlast _ (by omega)

/-- Two bytes first differ where the leading zeros of their difference end. -/
theorem leadingZeros8_xor {a b : UInt8} (h : a ≠ b) : leadingZeros8 (a ^^^ b) < 8 ∧
    (∀ j < leadingZeros8 (a ^^^ b), bitOf a j = bitOf b j) ∧
    bitOf a (leadingZeros8 (a ^^^ b)) ≠ bitOf b (leadingZeros8 (a ^^^ b)) := by
  have hd : a ^^^ b ≠ 0 := by
    intro h0
    apply h
    apply byte_ext
    intro j _
    have hbit := congrArg (bitOf · j) h0
    simpa using hbit
  obtain ⟨hlt, hset, hclear⟩ := leadingZeros8_spec hd
  refine ⟨hlt, ?_, ?_⟩
  · intro j hj
    have hbit := hclear j hj
    simpa using hbit
  · rw [bitOf_xor] at hset
    simpa using hset

theorem length_prefixBytes {bytes : Bytes} {len : ℕ} (h : len ≤ 8 * bytes.length) :
    (prefixBytes bytes len).length = (len + 7) / 8 := by
  simp only [prefixBytes, List.length_append, List.length_take]
  split_ifs
  · simp only [List.length_singleton]
    omega
  · simp only [List.length_nil]
    omega

theorem bitAt_prefixBytes {bytes : Bytes} {len : ℕ} (h : len ≤ 8 * bytes.length) (i : ℕ) :
    bitAt (prefixBytes bytes len) i = (decide (i < len) && bitAt bytes i) := by
  have hlen : (bytes.take (len / 8)).length = len / 8 := by
    rw [List.length_take]
    omega
  simp only [bitAt, prefixBytes]
  rcases lt_trichotomy (i / 8) (len / 8) with hi | hi | hi
  · rw [List.getD_append _ _ _ _ (by omega), decide_eq_true (by omega), Bool.true_and]
    simp only [List.getD_eq_getElem?_getD, List.getElem?_take_of_lt hi]
  · rw [List.getD_append_right _ _ _ _ (by omega), hlen, hi, Nat.sub_self]
    split_ifs with hr
    · rw [List.getD_cons_zero, bitOf_and, bitOf_mask hr.1 (by omega) (by omega), Bool.and_comm,
        decide_eq_decide.mpr (by omega : i % 8 < len % 8 ↔ i < len)]
    · rw [List.getD_nil, bitOf_zero, decide_eq_false (by omega), Bool.false_and]
  · rw [List.getD_append_right _ _ _ _ (by omega), hlen, decide_eq_false (by omega), Bool.false_and,
      List.getD_eq_default, bitOf_zero]
    split_ifs
    · rw [List.length_singleton]
      omega
    · exact Nat.zero_le _

end Bits

/-- A label representing a bit path in the tree. -/
structure Label where
  bytes : Bytes
  bitLen : ℕ
  length_bytes : bytes.length = (bitLen + 7) / 8
  spare : ∀ i, bitLen ≤ i → bitAt bytes i = false

namespace Label

instance : DecidableEq Label := fun a b =>
  decidable_of_iff (a.bytes = b.bytes ∧ a.bitLen = b.bitLen) (by cases a; cases b; simp)

/-- Labels of one length are equal if their bits are. -/
theorem ext_bits {a b : Label} (hl : a.bitLen = b.bitLen)
    (h : ∀ i < a.bitLen, bitAt a.bytes i = bitAt b.bytes i) :
    a = b := by
  have hbytes : a.bytes = b.bytes := by
    apply bytes_ext
    · rw [a.length_bytes, b.length_bytes, hl]
    · intro i
      by_cases hi : i < a.bitLen
      · exact h i hi
      · rw [a.spare i (by omega), b.spare i (by omega)]
  obtain ⟨_, _, _, _⟩ := a
  obtain ⟨_, _, _, _⟩ := b
  cases hbytes
  cases hl
  rfl

theorem bitLen_le (l : Label) : l.bitLen ≤ 8 * l.bytes.length := by
  have := l.length_bytes
  omega

/-- Create an empty label. -/
def empty : Label := ⟨[], 0, rfl, fun _ _ => bitAt_of_length_le (Nat.zero_le _)⟩

/-- Create a label from a full 256-bit key. -/
def fromKey (key : Bytes32) : Label :=
  ⟨key.val, 256, key.property, fun i hi => bitAt_of_length_le (by rw [key.property]; exact hi)⟩

@[simp] theorem bitLen_fromKey (key : Bytes32) : (fromKey key).bitLen = 256 := rfl

theorem fromKey_injective : Function.Injective fromKey :=
  fun _ _ h => Subtype.ext (congrArg bytes h)

/-- A label of full length is a key. -/
theorem eq_fromKey {l : Label} (h : l.bitLen = 256) : ∃ key, l = fromKey key := by
  have hl : l.bytes.length = 32 := by rw [l.length_bytes, h]
  exact ⟨⟨l.bytes, hl⟩, ext_bits h fun _ _ => rfl⟩

/-- Get a specific bit (0 or 1). Panics if out of range. -/
def bit (l : Label) (idx : ℕ) : Except (Fault Error) UInt8 :=
  if idx < l.bitLen then .ok ((l.bytes.getD (idx / 8) 0 >>> UInt8.ofNat (7 - idx % 8)) &&& 1)
  else .error .panic

theorem bit_ok {l : Label} {idx : ℕ} (h : idx < l.bitLen) :
    l.bit idx = .ok (if bitAt l.bytes idx then 1 else 0) := by
  have hbyte : ∀ (b : UInt8), ∀ j < 8, (b >>> UInt8.ofNat (7 - j)) &&& 1 = if bitOf b j then 1
      else 0 := by
    intro b j hj
    apply UInt8.toNat_inj.mp
    have hsmall : (7 - j) % 256 % 8 = 7 - j := by omega
    rw [UInt8.toNat_and, UInt8.toNat_shiftRight, UInt8.toNat_ofNat', hsmall, UInt8.toNat_one,
      Nat.and_one_is_mod, bitOf, Nat.testBit_eq_decide_div_mod_eq, Nat.shiftRight_eq_div_pow]
    rcases Nat.mod_two_eq_zero_or_one (b.toNat / 2 ^ (7 - j)) with hmod | hmod
    · simp [hmod]
    · simp [hmod]
  rw [bit, if_pos h, hbyte _ _ (by omega), bitAt]

/-- Get the prefix of a given length. -/
def prefixTo (l : Label) (len : ℕ) : Label :=
  if h : l.bitLen ≤ len then l
  else if len = 0 then empty
  else
    have hlen : len ≤ 8 * l.bytes.length := by have := l.bitLen_le; omega
    ⟨prefixBytes l.bytes len, len, length_prefixBytes hlen, fun i hi => by
      rw [bitAt_prefixBytes hlen, decide_eq_false (by omega), Bool.false_and]⟩

theorem prefixTo_bitLen {l : Label} {len : ℕ} (h : len ≤ l.bitLen) :
    (l.prefixTo len).bitLen = len := by
  unfold prefixTo
  split_ifs with h₁ h₂
  · omega
  · exact h₂.symm
  · rfl

theorem bitAt_prefixTo {l : Label} {len i : ℕ} (h : i < len) :
    bitAt (l.prefixTo len).bytes i = bitAt l.bytes i := by
  unfold prefixTo
  split_ifs with h₁ h₂
  · rfl
  · omega
  · have := l.bitLen_le
    rw [bitAt_prefixBytes (by omega), decide_eq_true h, Bool.true_and]

/-- Append a single bit (0 or 1). -/
def appendBytes (l : Label) (bit : UInt8) : Bytes :=
  let byteIdx := l.bitLen / 8
  let bytes := if l.bytes.length ≤ byteIdx then l.bytes ++ [0] else l.bytes
  if bit = 1 then
    bytes.set byteIdx (bytes.getD byteIdx 0 ||| (1 <<< UInt8.ofNat (7 - l.bitLen % 8)))
  else bytes

theorem length_appendBytes (l : Label) (bit : UInt8) :
    (l.appendBytes bit).length = (l.bitLen + 8) / 8 := by
  have hlen := l.length_bytes
  simp only [appendBytes, apply_ite List.length, List.length_set, List.length_append,
    List.length_singleton, ite_self]
  split_ifs
  all_goals omega

/-- A zero byte at the end changes no bit. -/
theorem bitAt_append_zero (bytes : Bytes) (i : ℕ) : bitAt (bytes ++ [0]) i = bitAt bytes i := by
  have hbyte : (bytes ++ [0]).getD (i / 8) 0 = bytes.getD (i / 8) 0 := by
    rcases lt_or_ge (i / 8) bytes.length with h | h
    · exact List.getD_append _ _ _ _ h
    · rw [List.getD_append_right _ _ _ _ h, List.getD_eq_default _ _ h]
      cases i / 8 - bytes.length with
      | zero => rfl
      | succ n => rfl
  rw [bitAt, bitAt, hbyte]

/-- Setting one bit of a byte string. -/
theorem bitAt_set {bytes : Bytes} {n : ℕ} (h : n / 8 < bytes.length) (i : ℕ) :
    bitAt (bytes.set (n / 8) (bytes.getD (n / 8) 0 ||| (1 <<< UInt8.ofNat (7 - n % 8)))) i =
      (decide (i = n) || bitAt bytes i) := by
  by_cases hi : i / 8 = n / 8
  · have hget : (bytes.set (n / 8) (bytes.getD (n / 8) 0 ||| (1 <<< UInt8.ofNat (7 - n % 8)))).getD
        (n / 8) 0 =
        bytes.getD (n / 8) 0 ||| (1 <<< UInt8.ofNat (7 - n % 8)) := by
      simp [List.getD_eq_getElem?_getD, List.getElem?_set_self h]
    rw [bitAt, bitAt, hi, hget, bitOf_or, bitOf_single (by omega) (by omega), Bool.or_comm,
      decide_eq_decide.mpr (by omega : i % 8 = n % 8 ↔ i = n)]
  · have hget : ∀ b, (bytes.set (n / 8) b).getD (i / 8) 0 = bytes.getD (i / 8) 0 := by
      intro b
      simp [List.getD_eq_getElem?_getD, List.getElem?_set_ne (Ne.symm hi)]
    rw [bitAt, bitAt, hget, decide_eq_false (by omega), Bool.false_or]

theorem bitAt_appendBytes (l : Label) (bit : UInt8) (i : ℕ) :
    bitAt (l.appendBytes bit) i = (decide (i = l.bitLen ∧ bit = 1) || bitAt l.bytes i) := by
  have hlen := l.length_bytes
  have hgrown : ∀ k, bitAt (if l.bytes.length ≤ l.bitLen / 8 then l.bytes ++ [0] else l.bytes) k =
      bitAt l.bytes k := by
    intro k
    split_ifs
    · exact bitAt_append_zero _ _
    · rfl
  rw [appendBytes]
  by_cases hbit : bit = 1
  · rw [if_pos hbit, bitAt_set, hgrown]
    · simp [hbit]
    · rw [apply_ite List.length, List.length_append, List.length_singleton]
      split_ifs
      all_goals omega
  · rw [if_neg hbit, hgrown]
    simp [hbit]

def appendBit (l : Label) (bit : UInt8) : Label where
  bytes := l.appendBytes bit
  bitLen := l.bitLen + 1
  length_bytes := l.length_appendBytes bit
  spare i hi := by
    rw [bitAt_appendBytes, decide_eq_false (by omega), Bool.false_or]
    exact l.spare i (by omega)

@[simp] theorem appendBit_bitLen (l : Label) (bit : UInt8) :
    (l.appendBit bit).bitLen = l.bitLen + 1 := rfl

/-- Check if this label is a prefix of another. -/
def isPrefixOf (l other : Label) : Bool :=
  if other.bitLen < l.bitLen then false
  else if l.bitLen = 0 then true
  else
    let fullBytes := l.bitLen / 8
    if l.bytes.take fullBytes ≠ other.bytes.take fullBytes then false
    else
      let remainingBits := l.bitLen % 8
      if 0 < remainingBits then
        let selfLast := l.bytes.getD fullBytes 0 &&& maskOf remainingBits
        let otherLast := other.bytes.getD fullBytes 0 &&& maskOf remainingBits
        selfLast = otherLast
      else true

/-- Find the common prefix length with another label. -/
def commonPrefixLen (l other : Label) : ℕ :=
  let maxLen := min l.bitLen other.bitLen
  if maxLen = 0 then 0
  else
    let fullBytes := maxLen / 8
    -- Full bytes first.
    match (List.range fullBytes).find? fun i => l.bytes.getD i 0 ≠ other.bytes.getD i 0 with
    | some i => i * 8 + leadingZeros8 (l.bytes.getD i 0 ^^^ other.bytes.getD i 0)
    | none =>
      let remainingBits := maxLen % 8
      if 0 < remainingBits ∧ fullBytes < l.bytes.length ∧ fullBytes < other.bytes.length then
        let selfByte := l.bytes.getD fullBytes 0 &&& maskOf remainingBits
        let otherByte := other.bytes.getD fullBytes 0 &&& maskOf remainingBits
        if selfByte ≠ otherByte then fullBytes * 8 + leadingZeros8 (selfByte ^^^ otherByte)
        else maxLen
      else maxLen

/-- Two labels have the same first `n` bits. -/
def Agree (n : ℕ) (l other : Label) : Prop := ∀ i < n, bitAt l.bytes i = bitAt other.bytes i

theorem Agree.symm {n : ℕ} {a b : Label} (h : a.Agree n b) : b.Agree n a :=
  fun i hi => (h i hi).symm

theorem Agree.trans {n : ℕ} {a b c : Label} (h : a.Agree n b) (h' : b.Agree n c) : a.Agree n c :=
  fun i hi => (h i hi).trans (h' i hi)

theorem Agree.mono {m n : ℕ} {a b : Label} (h : a.Agree n b) (hm : m ≤ n) : a.Agree m b :=
  fun i hi => h i (by omega)

theorem agree_prefixTo {l : Label} {n : ℕ} : (l.prefixTo n).Agree n l :=
  fun _ hi => bitAt_prefixTo hi

theorem take_eq_iff {a b : Bytes} {n : ℕ} (ha : n ≤ a.length) (hb : n ≤ b.length) :
    a.take n = b.take n ↔ ∀ k < n, a.getD k 0 = b.getD k 0 := by
  constructor
  · intro h k hk
    have hget := congrArg (·.getD k 0) h
    simpa [List.getD_eq_getElem?_getD, List.getElem?_take_of_lt hk] using hget
  · intro h
    apply List.ext_getElem
    · rw [List.length_take, List.length_take]
      omega
    · intro k hk _
      rw [List.length_take] at hk
      have hget := h k (by omega)
      rw [List.getD_eq_getElem _ _ (by omega), List.getD_eq_getElem _ _ (by omega)] at hget
      rw [List.getElem_take, List.getElem_take, hget]

theorem isPrefixOf_iff {l other : Label} :
    l.isPrefixOf other = true ↔ l.bitLen ≤ other.bitLen ∧ Agree l.bitLen l other := by
  have hl := l.length_bytes
  have ho := other.length_bytes
  simp only [isPrefixOf]
  split_ifs with hlt hz htake hr
  · simp only [false_iff, not_and]
    omega
  · simp only [true_iff]
    exact ⟨by omega, fun i hi => by omega⟩
  · simp only [false_iff, not_and]
    intro _ hagree
    exact htake ((take_eq_iff (by omega) (by omega)).mpr (bits_eq_iff.mp hagree).1)
  · rw [decide_eq_true_eq, and_mask_eq_iff hr (by omega), Agree, bits_eq_iff]
    have hfull := (take_eq_iff (by omega) (by omega)).mp (not_not.mp htake)
    exact ⟨fun h => ⟨by omega, hfull, h⟩, fun h => h.2.2⟩
  · have hfull := (take_eq_iff (by omega) (by omega)).mp (not_not.mp htake)
    simp only [true_iff]
    exact ⟨by omega, bits_eq_iff.mpr ⟨hfull, fun j hj => by omega⟩⟩

/-- The labels agree below `n`, and differ at `n` unless one of them ends there. -/
structure CommonLen (l other : Label) (n : ℕ) : Prop where
  le : n ≤ min l.bitLen other.bitLen
  agree : Agree n l other
  differ : n < min l.bitLen other.bitLen → bitAt l.bytes n ≠ bitAt other.bytes n

/-- The first byte in which two labels differ gives their common length. -/
theorem commonLen_byte {l other : Label} {k r : ℕ} (hle : k * 8 + r ≤ min l.bitLen other.bitLen)
    (hfull : ∀ i < k, l.bytes.getD i 0 = other.bytes.getD i 0) (hr : r < 8)
    (hlast : ∀ j < r, bitOf (l.bytes.getD k 0) j = bitOf (other.bytes.getD k 0) j)
    (hne : bitOf (l.bytes.getD k 0) r ≠ bitOf (other.bytes.getD k 0) r) :
    CommonLen l other (k * 8 + r) := by
  have hdiv : (k * 8 + r) / 8 = k := by omega
  have hmod : (k * 8 + r) % 8 = r := by omega
  refine ⟨hle, ?_, ?_⟩
  · rw [Agree, bits_eq_iff, hdiv, hmod]
    exact ⟨hfull, hlast⟩
  · intro _
    rwa [bitAt, bitAt, hdiv, hmod]

theorem commonPrefixLen_spec (l other : Label) : CommonLen l other (l.commonPrefixLen other) := by
  have hl := l.length_bytes
  have ho := other.length_bytes
  simp only [commonPrefixLen]
  generalize hmax : min l.bitLen other.bitLen = maxLen
  have hle : maxLen ≤ l.bitLen ∧ maxLen ≤ other.bitLen := by omega
  have hend : Agree maxLen l other → CommonLen l other maxLen := fun h =>
    ⟨hmax.ge, h, fun hlt => absurd hlt (by omega)⟩
  by_cases hz : maxLen = 0
  · rw [if_pos hz]
    exact hz ▸ hend fun i hi => by omega
  rw [if_neg hz]
  split
  case h_1 i hfind =>
    obtain ⟨hne, hi, hsame⟩ := List.find?_range_eq_some.mp hfind
    have hi := List.mem_range.mp hi
    obtain ⟨hlt, hlow, hdiff⟩ := leadingZeros8_xor (of_decide_eq_true hne)
    exact commonLen_byte (by omega) (fun k hk => by simpa using hsame k hk) hlt hlow hdiff
  case h_2 hfind =>
    have hfull : ∀ k < maxLen / 8, l.bytes.getD k 0 = other.bytes.getD k 0 := by
      intro k hk
      simpa using List.find?_range_eq_none.mp hfind k hk
    split_ifs with hr hsame
    · obtain ⟨hlt, hlow, hdiff⟩ := leadingZeros8_xor hsame
      have hpast :
          ∀ j < 8, ¬ j < maxLen % 8 → ∀ b : UInt8, bitOf (b &&& maskOf (maxLen % 8)) j = false := by
        intro j hj hjr b
        rw [bitOf_and, bitOf_mask hr.1 (by omega) hj, decide_eq_false hjr, Bool.and_false]
      have hin : ∀ j < maxLen % 8, ∀ b : UInt8, bitOf (b &&& maskOf (maxLen % 8)) j =
          bitOf b j := by
        intro j hj b
        rw [bitOf_and, bitOf_mask hr.1 (by omega) (by omega), decide_eq_true hj, Bool.and_true]
      generalize leadingZeros8 _ = r at hlt hlow hdiff ⊢
      have hrlt : r < maxLen % 8 := by
        by_contra hge
        rw [hpast r hlt hge, hpast r hlt hge] at hdiff
        exact hdiff rfl
      rw [hin r hrlt, hin r hrlt] at hdiff
      refine commonLen_byte (by omega) hfull hlt (fun j hj => ?_) hdiff
      have hbit := hlow j hj
      rwa [hin j (by omega), hin j (by omega)] at hbit
    · exact hend (bits_eq_iff.mpr ⟨hfull, (and_mask_eq_iff hr.1 (by omega)).mp (not_not.mp hsame)⟩)
    · exact hend (bits_eq_iff.mpr ⟨hfull, fun j hj => absurd ⟨by omega, by omega, by omega⟩ hr⟩)

end Label

end Siglog.Vindex

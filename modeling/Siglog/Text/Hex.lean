import Siglog.Text.Utf8

/-! Hexadecimal. Encoding writes lower case; decoding reads both cases. -/

namespace Siglog.Text.Hex

def digit (v : ℕ) : Char := "0123456789abcdef".toList.getD v '0'

def encode (b : List UInt8) : Str := b.flatMap fun x => [digit (x.toNat / 16), digit (x.toNat % 16)]

theorem digit_injective {a b : ℕ} (ha : a < 16) (hb : b < 16) (h : digit a = digit b) : a = b := by
  have hall : ∀ a b : Fin 16, digit a = digit b → a = b := by decide
  exact congrArg Fin.val (hall ⟨a, ha⟩ ⟨b, hb⟩ h)

theorem encode_cons (x : UInt8) (b : List UInt8) :
    encode (x :: b) = digit (x.toNat / 16) :: digit (x.toNat % 16) :: encode b := rfl

theorem encode_injective : Function.Injective encode := by
  intro a
  induction a with
  | nil =>
    intro b h
    cases b with
    | nil => rfl
    | cons y b => simp [encode] at h
  | cons x a ih =>
    intro b h
    cases b with
    | nil => simp [encode] at h
    | cons y b =>
      rw [encode_cons, encode_cons, List.cons.injEq, List.cons.injEq] at h
      obtain ⟨hhigh, hlow, hrest⟩ := h
      have hx := x.toNat_lt
      have hy := y.toNat_lt
      have hdiv := digit_injective (by omega) (by omega) hhigh
      have hmod := digit_injective (by omega) (by omega) hlow
      rw [ih hrest, UInt8.toNat_inj.mp (show x.toNat = y.toNat by omega)]

/-! ### Numbers -/

/-- The last `k` digits of a number. -/
def fixed : ℕ → ℕ → Str
  | 0, _ => []
  | k + 1, n => digit (n / 16 ^ k % 16) :: fixed k n

/-- `{:08x}` of a number of 32 bits. -/
def format08x (n : ℕ) : Str := fixed 8 n

/-- `to_digit(16)`. -/
def toDigit (c : Char) : Option ℕ :=
  let n := c.toNat
  if 48 ≤ n ∧ n ≤ 57 then some (n - 48)
  else if 97 ≤ n ∧ n ≤ 102 then some (n - 97 + 10)
  else if 65 ≤ n ∧ n ≤ 70 then some (n - 65 + 10)
  else none

/-- The loop of `from_str_radix` for 32 bits. -/
def parseRadix : ℕ → Str → Option ℕ
  | acc, [] => some acc
  | acc, c :: t => do
    let d ← toDigit c
    if 2 ^ 32 ≤ acc * 16 + d then none else parseRadix (acc * 16 + d) t

/-- `u32::from_str_radix` with the radix 16. -/
def parseU32 : Str → Option ℕ
  | [] => none
  | c :: t => if c = '+' ∧ t ≠ [] then parseRadix 0 t else parseRadix 0 (c :: t)

theorem length_fixed (k n : ℕ) : (fixed k n).length = k := by
  induction k with
  | zero => rfl
  | succ k ih => rw [fixed, List.length_cons, ih]

theorem toDigit_iff {c : Char} {d : ℕ} : toDigit c = some d ↔ d < 16 ∧ c.toLower = digit d := by
  have hsmall : ∀ n : Fin 103, ∀ d : Fin 16,
      toDigit (Char.ofNat n.val) = some d.val ↔ (Char.ofNat n.val).toLower = digit d.val := by
        decide +kernel
  have hdigit : ∀ d : Fin 16, (digit d.val).toNat < 103 := by decide
  have hlt : ∀ {d}, toDigit c = some d → d < 16 := by
    intro d h
    simp only [toDigit] at h
    split_ifs at h
    all_goals
      have := Option.some.inj h
      omega
  by_cases hc : c.toNat < 103
  · have hofNat : Char.ofNat c.toNat = c := Char.ofNat_toNat c
    constructor
    · intro h
      have := (hsmall ⟨c.toNat, hc⟩ ⟨d, hlt h⟩).mp (by rw [hofNat]; exact h)
      exact ⟨hlt h, by rwa [hofNat] at this⟩
    · rintro ⟨hd, h⟩
      have := (hsmall ⟨c.toNat, hc⟩ ⟨d, hd⟩).mpr (by rw [hofNat]; exact h)
      rwa [hofNat] at this
  · -- later characters are no digits, and have no lower case among these
    refine iff_of_false (fun h => ?_) ?_
    · simp only [toDigit] at h
      split_ifs at h <;> omega
    · rintro ⟨hd, h⟩
      have hsame : c.toLower = c := by
        change dite _ _ _ = c
        rw [dif_neg]
        rintro ⟨-, hle⟩
        exact hc (lt_of_le_of_lt (UInt32.le_iff_toNat_le.mp hle) (by decide))
      exact hc (hsame ▸ h ▸ hdigit ⟨d, hd⟩)

theorem parseRadix_iff {t : Str} : ∀ {acc n : ℕ}, n < 2 ^ 32 →
    (parseRadix acc t = some n ↔ n / 16 ^ t.length = acc ∧
      t.map Char.toLower = fixed t.length n) := by
  induction t with
  | nil => intro acc n hn; simp [parseRadix, fixed, eq_comm]
  | cons c t ih =>
    intro acc n hn
    rw [parseRadix, List.length_cons, List.map_cons, fixed, List.cons.injEq, Option.bind_eq_bind,
      Option.bind_eq_some_iff]
    have hpow : n / 16 ^ (t.length + 1) = n / 16 ^ t.length / 16 := by
      rw [pow_succ, Nat.div_div_eq_div_mul]
    have hle := Nat.div_le_self n (16 ^ t.length)
    constructor
    · rintro ⟨d, hd, h⟩
      split_ifs at h with hlt
      obtain ⟨hacc, htail⟩ := (ih hn).mp h
      obtain ⟨hd16, hlower⟩ := toDigit_iff.mp hd
      refine ⟨by omega, ?_, htail⟩
      rw [hlower]
      congr 1
      omega
    · rintro ⟨hacc, hlower, htail⟩
      refine ⟨n / 16 ^ t.length % 16, toDigit_iff.mpr ⟨Nat.mod_lt _ (by decide), hlower⟩, ?_⟩
      rw [if_neg (by omega)]
      exact (ih hn).mpr ⟨by omega, htail⟩

/-! ### Digits are one byte each -/

theorem toNat_of_toDigit {c : Char} {d : ℕ} (h : toDigit c = some d) : c.toNat < 128 := by
  simp only [toDigit] at h
  split_ifs at h <;> omega

theorem parseRadix_ok {t : Str} : ∀ {acc n : ℕ}, acc < 2 ^ 32 → parseRadix acc t = some n →
    n < 2 ^ 32 ∧ ∀ c ∈ t, c.toNat < 128 := by
  induction t with
  | nil =>
    intro acc n hacc h
    obtain rfl := Option.some.inj h
    exact ⟨hacc, by simp⟩
  | cons c t ih =>
    intro acc n hacc h
    rw [parseRadix, Option.bind_eq_bind, Option.bind_eq_some_iff] at h
    obtain ⟨d, hd, h⟩ := h
    split_ifs at h with hlt
    obtain ⟨hn, hchars⟩ := ih (by omega) h
    exact ⟨hn, List.forall_mem_cons.mpr ⟨toNat_of_toDigit hd, hchars⟩⟩

/-- A number of eight digits without a sign is read if and only if it is the one that is
written, up to the case. -/
theorem parseU32_iff {t : Str} {n : ℕ} (ht : '+' ∉ t) :
    (utf8 t).length = 8 ∧ parseU32 t = some n ↔ n < 2 ^ 32 ∧ t.map Char.toLower = format08x n := by
  have hradix : t ≠ [] → parseU32 t = parseRadix 0 t := by
    intro hne
    obtain ⟨c, t, rfl⟩ := List.exists_cons_of_ne_nil hne
    rw [parseU32, if_neg]
    rintro ⟨rfl, -⟩
    exact ht List.mem_cons_self
  constructor
  · rintro ⟨hlen, h⟩
    have hne : t ≠ [] := by
      rintro rfl
      cases h
    rw [hradix hne] at h
    obtain ⟨hn, hchars⟩ := parseRadix_ok (by decide) h
    rw [length_utf8_ascii hchars] at hlen
    have := ((parseRadix_iff hn).mp h).2
    rw [hlen] at this
    exact ⟨hn, this⟩
  · rintro ⟨hn, hlower⟩
    have hlen : t.length = 8 := by
      rw [← List.length_map Char.toLower, hlower, format08x, length_fixed]
    have hne : t ≠ [] := by
      rintro rfl
      cases hlen
    have hparse : parseRadix 0 t = some n := by
      refine (parseRadix_iff hn).mpr ⟨?_, by rw [hlen]; exact hlower⟩
      rw [hlen]
      exact Nat.div_eq_of_lt hn
    refine ⟨?_, by rw [hradix hne, hparse]⟩
    rw [length_utf8_ascii (parseRadix_ok (by decide) hparse).2, hlen]

theorem mem_fixed {c : Char} {k n : ℕ} (h : c ∈ fixed k n) : ∃ d < 16, c = digit d := by
  induction k with
  | zero => cases h
  | succ k ih =>
    rcases List.mem_cons.mp h with rfl | h
    · exact ⟨_, Nat.mod_lt _ (by decide), rfl⟩
    · exact ih h

theorem map_toLower_fixed (k n : ℕ) : (fixed k n).map Char.toLower = fixed k n := by
  refine (List.map_congr_left fun c hc => ?_).trans (List.map_id _)
  obtain ⟨d, hd, rfl⟩ := mem_fixed hc
  have hall : ∀ d : Fin 16, (digit d.val).toLower = digit d.val := by decide
  exact hall ⟨d, hd⟩

theorem map_toLower_format08x (n : ℕ) : (format08x n).map Char.toLower = format08x n :=
  map_toLower_fixed 8 n

/-- A sign is no digit, in either case. -/
theorem plus_not_mem {t : Str} {n : ℕ} (h : t.map Char.toLower = format08x n) : '+' ∉ t := by
  intro hmem
  have hplus := List.mem_map_of_mem (f := Char.toLower) hmem
  rw [h, format08x] at hplus
  obtain ⟨d, hd, hdigit⟩ := mem_fixed hplus
  have hall : ∀ d : Fin 16, '+'.toLower ≠ digit d.val := by decide
  exact hall ⟨d, hd⟩ hdigit

/-! ### Bytes -/

/-- What the decoder says of a text that it rejects. -/
class HexErrors where
  oddLength : String
  invalidCharacter : UInt8 → ℕ → String

/-- Texts to run the model with. -/
@[reducible] def plainErrors : HexErrors := ⟨"Odd number of digits", fun _ _ => "Invalid character"⟩

variable [HexErrors]

def value (c : UInt8) (idx : ℕ) : Except String ℕ :=
  let n := c.toNat
  if 65 ≤ n ∧ n ≤ 70 then .ok (n - 65 + 10)
  else if 97 ≤ n ∧ n ≤ 102 then .ok (n - 97 + 10)
  else if 48 ≤ n ∧ n ≤ 57 then .ok (n - 48)
  else .error (HexErrors.invalidCharacter c idx)

/-- Decode pairs of digits, the first of them at `idx`. -/
def decodePairs : ℕ → List UInt8 → Except String (List UInt8)
  | idx, a :: b :: rest => do
    let hi ← value a idx
    let lo ← value b (idx + 1)
    .ok (UInt8.ofNat (hi * 16 + lo) :: (← decodePairs (idx + 2) rest))
  | _, _ => .ok []

def decode (text : Str) : Except String (List UInt8) :=
  let data := utf8 text
  if data.length % 2 = 1 then .error HexErrors.oddLength else decodePairs 0 data

theorem value_digit {d : ℕ} (hd : d < 16) (idx : ℕ) :
    value (UInt8.ofNat (digit d).toNat) idx = .ok d := by
  have hall : ∀ d : Fin 16, 97 ≤ (digit d.val).toNat ∧ (digit d.val).toNat ≤ 102 ∧
      (digit d.val).toNat - 97 + 10 = d.val ∨
      48 ≤ (digit d.val).toNat ∧ (digit d.val).toNat ≤ 57 ∧ (digit d.val).toNat - 48 = d.val := by
        decide
  have hdigit := hall ⟨d, hd⟩
  dsimp only at hdigit
  have hnat : (UInt8.ofNat (digit d).toNat).toNat = (digit d).toNat := Nat.mod_eq_of_lt (by omega)
  unfold value
  dsimp only
  rw [hnat]
  rcases hdigit with ⟨hlo, hhi, hval⟩ | ⟨hlo, hhi, hval⟩
  · rw [if_neg (by omega), if_pos ⟨hlo, hhi⟩, hval]
  · rw [if_neg (by omega), if_neg (by omega), if_pos ⟨hlo, hhi⟩, hval]

theorem decode_encode (b : List UInt8) : decode (encode b) = .ok b := by
  have hascii : ∀ c ∈ encode b, c.toNat < 128 := by
    intro c hc
    obtain ⟨x, -, hc⟩ := List.mem_flatMap.mp hc
    have hall : ∀ d : Fin 16, (digit d.val).toNat < 128 := by decide
    have hx := x.toNat_lt
    simp only [List.mem_cons, List.not_mem_nil, or_false] at hc
    rcases hc with rfl | rfl
    · exact hall ⟨x.toNat / 16, by omega⟩
    · exact hall ⟨x.toNat % 16, by omega⟩
  have hpairs : ∀ b : List UInt8, ∀ idx,
      decodePairs idx ((encode b).map fun c => UInt8.ofNat c.toNat) = .ok b := by
    intro b
    induction b with
    | nil => exact fun _ => rfl
    | cons x b ih =>
      intro idx
      have hx := x.toNat_lt
      rw [encode_cons, List.map_cons, List.map_cons, decodePairs, value_digit (by omega),
        value_digit (by omega), ih]
      simp only [bind, Except.bind]
      rw [Nat.mul_comm, Nat.div_add_mod, UInt8.ofNat_toNat]
  have hlen : (encode b).length % 2 = 0 := by
    induction b with
    | nil => rfl
    | cons x b ih =>
      rw [encode_cons, List.length_cons, List.length_cons]
      have := ih fun c hc =>
        hascii c (by rw [encode_cons]; exact List.mem_cons_of_mem _ (List.mem_cons_of_mem _ hc))
      omega
  rw [decode, utf8_ascii hascii, if_neg (by rw [List.length_map]; omega), hpairs]

end Siglog.Text.Hex

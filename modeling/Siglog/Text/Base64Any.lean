import Siglog.Text.Base64
import Mathlib.Data.List.Nodup

/-! Base 64 with either alphabet, and with all, some or none of its padding. The bytes
of a text do not depend on how it is spelled. -/

namespace Siglog.Text.Base64

/-- The symbols of the values below 64. -/
structure Alphabet where
  symbols : Str
  length_symbols : symbols.length = 64
  nodup : symbols.Nodup
  unpadded : '=' ∉ symbols

def standard : Alphabet := ⟨alphabet, by decide +kernel, by decide +kernel, by decide +kernel⟩

def urlSafe : Alphabet where
  symbols := "ABCDEFGHIJKLMNOPQRSTUVWXYZabcdefghijklmnopqrstuvwxyz0123456789-_".toList
  length_symbols := by decide +kernel
  nodup := by decide +kernel
  unpadded := by decide +kernel

namespace Alphabet

variable (a : Alphabet)

def symbol (v : ℕ) : Char := a.symbols.getD v '='

def value (c : Char) : Option ℕ := a.symbols.idxOf? c

theorem value_eq_some {c : Char} {v : ℕ} : a.value c = some v ↔ v < 64 ∧ a.symbol v = c := by
  rw [value, symbol, List.getD_eq_getElem?_getD, ← a.length_symbols, List.idxOf?_eq_some_iff]
  constructor
  · rintro ⟨hlt, hget, -⟩
    exact ⟨hlt, by rw [List.getElem?_eq_getElem hlt, Option.getD_some, hget]⟩
  · rintro ⟨hlt, hget⟩
    rw [List.getElem?_eq_getElem hlt, Option.getD_some] at hget
    refine ⟨hlt, hget, fun j hj heq => ?_⟩
    exact absurd ((List.Nodup.getElem_inj_iff a.nodup).mp (heq.trans hget.symm)) hj.ne

theorem value_symbol {v : ℕ} (h : v < 64) : a.value (a.symbol v) = some v :=
  a.value_eq_some.mpr ⟨h, rfl⟩

theorem symbol_mem {v : ℕ} (h : v < 64) : a.symbol v ∈ a.symbols := by
  rw [symbol, List.getD_eq_getElem?_getD,
    List.getElem?_eq_getElem (by rw [a.length_symbols]; exact h)]
  exact List.getElem_mem _

/-! ### Without padding -/

def encodeGroups : List UInt8 → Str
  | [] => []
  | [x] => [a.symbol (x.toNat / 4), a.symbol (x.toNat % 4 * 16)]
  | [x, y] =>
    [a.symbol (x.toNat / 4), a.symbol (x.toNat % 4 * 16 + y.toNat / 16),
      a.symbol (y.toNat % 16 * 4)]
  | x :: y :: z :: rest =>
    a.symbol (x.toNat / 4) :: a.symbol (x.toNat % 4 * 16 + y.toNat / 16) ::
      a.symbol (y.toNat % 16 * 4 + z.toNat / 64) :: a.symbol (z.toNat % 64) :: encodeGroups rest

/-- The bits that are left over in the last symbol must be zero. -/
def decodeGroups : Str → Option (List UInt8)
  | [] => some []
  | [b, c] => do
    let x ← a.value b
    let y ← a.value c
    if y % 16 = 0 then some [UInt8.ofNat (x * 4 + y / 16)] else none
  | [b, c, d] => do
    let x ← a.value b
    let y ← a.value c
    let z ← a.value d
    if z % 4 = 0 then some [UInt8.ofNat (x * 4 + y / 16), UInt8.ofNat (y % 16 * 16 + z / 4)]
    else none
  | b :: c :: d :: e :: rest => do
    let x ← a.value b
    let y ← a.value c
    let z ← a.value d
    let w ← a.value e
    let rest ← decodeGroups rest
    some (UInt8.ofNat (x * 4 + y / 16) :: UInt8.ofNat (y % 16 * 16 + z / 4) ::
      UInt8.ofNat (z % 4 * 64 + w) :: rest)
  | [_] => none

theorem decodeGroups_encodeGroups (b : List UInt8) :
    a.decodeGroups (a.encodeGroups b) = some b := by
  induction b using encode.induct with
  | case1 => rfl
  | case2 x =>
    have hx := x.toNat_lt
    have h₁ : UInt8.ofNat (x.toNat / 4 * 4 + x.toNat % 4 * 16 / 16) = x := ofNat_eq (by omega)
    rw [encodeGroups, decodeGroups, a.value_symbol (by omega), a.value_symbol (by omega)]
    simp only [Option.bind_eq_bind, Option.bind_some, h₁]
    rw [if_pos (by omega)]
  | case3 x y =>
    have hx := x.toNat_lt
    have hy := y.toNat_lt
    have h₁ : UInt8.ofNat (x.toNat / 4 * 4 + (x.toNat % 4 * 16 + y.toNat / 16) / 16) = x :=
      ofNat_eq (by omega)
    have h₂ : UInt8.ofNat ((x.toNat % 4 * 16 + y.toNat / 16) % 16 * 16 + y.toNat % 16 * 4 / 4) =
        y := ofNat_eq (by omega)
    rw [encodeGroups, decodeGroups, a.value_symbol (by omega), a.value_symbol (by omega),
      a.value_symbol (by omega)]
    simp only [Option.bind_eq_bind, Option.bind_some, h₁, h₂]
    rw [if_pos (by omega)]
  | case4 x y z rest ih =>
    have hx := x.toNat_lt
    have hy := y.toNat_lt
    have hz := z.toNat_lt
    have h₁ : UInt8.ofNat (x.toNat / 4 * 4 + (x.toNat % 4 * 16 + y.toNat / 16) / 16) = x :=
      ofNat_eq (by omega)
    have h₂ : UInt8.ofNat
        ((x.toNat % 4 * 16 + y.toNat / 16) % 16 * 16 + (y.toNat % 16 * 4 + z.toNat / 64) / 4) = y :=
      ofNat_eq (by omega)
    have h₃ : UInt8.ofNat ((y.toNat % 16 * 4 + z.toNat / 64) % 4 * 64 + z.toNat % 64) = z :=
      ofNat_eq (by omega)
    rw [encodeGroups, decodeGroups, a.value_symbol (by omega), a.value_symbol (by omega),
      a.value_symbol (by omega), a.value_symbol (by omega), ih]
    simp only [Option.bind_eq_bind, Option.bind_some, h₁, h₂, h₃]

/-- The bytes of a text have no other text. -/
theorem encodeGroups_decodeGroups {t : Str} {b : List UInt8} (h : a.decodeGroups t = some b) :
    a.encodeGroups b = t := by
  induction t using decodeGroups.induct generalizing b with
  | case1 =>
    obtain rfl := Option.some.inj h
    rfl
  | case2 c d =>
    simp only [decodeGroups, Option.bind_eq_bind, Option.bind_eq_some_iff,
      Option.ite_none_right_eq_some] at h
    obtain ⟨x, hx, y, hy, hzero, hbytes⟩ := h
    obtain rfl := Option.some.inj hbytes
    obtain ⟨hx, rfl⟩ := a.value_eq_some.mp hx
    obtain ⟨hy, rfl⟩ := a.value_eq_some.mp hy
    have h₁ : (x * 4 + y / 16) / 4 = x := by omega
    have h₂ : (x * 4 + y / 16) % 4 * 16 = y := by omega
    rw [encodeGroups, toNat_ofNat (by omega), h₁, h₂]
  | case3 c d e =>
    simp only [decodeGroups, Option.bind_eq_bind, Option.bind_eq_some_iff,
      Option.ite_none_right_eq_some] at h
    obtain ⟨x, hx, y, hy, z, hz, hzero, hbytes⟩ := h
    obtain rfl := Option.some.inj hbytes
    obtain ⟨hx, rfl⟩ := a.value_eq_some.mp hx
    obtain ⟨hy, rfl⟩ := a.value_eq_some.mp hy
    obtain ⟨hz, rfl⟩ := a.value_eq_some.mp hz
    have h₁ : (x * 4 + y / 16) / 4 = x := by omega
    have h₂ : (x * 4 + y / 16) % 4 * 16 + (y % 16 * 16 + z / 4) / 16 = y := by omega
    have h₃ : (y % 16 * 16 + z / 4) % 16 * 4 = z := by omega
    rw [encodeGroups, toNat_ofNat (by omega), toNat_ofNat (by omega), h₁, h₂, h₃]
  | case4 c d e f rest ih =>
    simp only [decodeGroups, Option.bind_eq_bind, Option.bind_eq_some_iff] at h
    obtain ⟨x, hx, y, hy, z, hz, w, hw, bytes', hrest, hbytes⟩ := h
    obtain rfl := Option.some.inj hbytes
    obtain ⟨hx, rfl⟩ := a.value_eq_some.mp hx
    obtain ⟨hy, rfl⟩ := a.value_eq_some.mp hy
    obtain ⟨hz, rfl⟩ := a.value_eq_some.mp hz
    obtain ⟨hw, rfl⟩ := a.value_eq_some.mp hw
    have h₁ : (x * 4 + y / 16) / 4 = x := by omega
    have h₂ : (x * 4 + y / 16) % 4 * 16 + (y % 16 * 16 + z / 4) / 16 = y := by omega
    have h₃ : (y % 16 * 16 + z / 4) % 16 * 4 + (z % 4 * 64 + w) / 64 = z := by omega
    have h₄ : (z % 4 * 64 + w) % 64 = w := by omega
    rw [encodeGroups, toNat_ofNat (by omega), toNat_ofNat (by omega), toNat_ofNat (by omega),
      ih hrest, h₁, h₂, h₃, h₄]
  | case5 => cases h

theorem decodeGroups_iff {t : Str} {b : List UInt8} :
    a.decodeGroups t = some b ↔ t = a.encodeGroups b := by
  constructor
  · intro h
    exact (a.encodeGroups_decodeGroups h).symm
  · rintro rfl
    exact a.decodeGroups_encodeGroups b

/-- Alphabets that agree on the symbols they share read one text as the same bytes. -/
theorem decodeGroups_agree {a a' : Alphabet}
    (hagree : ∀ c x y, a.value c = some x → a'.value c = some y → x = y) {t : Str}
    {b b' : List UInt8} (h : a.decodeGroups t = some b) (h' : a'.decodeGroups t = some b') :
    b = b' := by
  induction t using decodeGroups.induct generalizing b b' with
  | case1 => exact Option.some.inj (h.symm.trans h')
  | case2 c d =>
    simp only [decodeGroups, Option.bind_eq_bind, Option.bind_eq_some_iff,
      Option.ite_none_right_eq_some] at h h'
    obtain ⟨x, hx, y, hy, -, hbytes⟩ := h
    obtain ⟨x', hx', y', hy', -, hbytes'⟩ := h'
    obtain rfl := hagree c x x' hx hx'
    obtain rfl := hagree d y y' hy hy'
    exact Option.some.inj (hbytes.symm.trans hbytes')
  | case3 c d e =>
    simp only [decodeGroups, Option.bind_eq_bind, Option.bind_eq_some_iff,
      Option.ite_none_right_eq_some] at h h'
    obtain ⟨x, hx, y, hy, z, hz, -, hbytes⟩ := h
    obtain ⟨x', hx', y', hy', z', hz', -, hbytes'⟩ := h'
    obtain rfl := hagree c x x' hx hx'
    obtain rfl := hagree d y y' hy hy'
    obtain rfl := hagree e z z' hz hz'
    exact Option.some.inj (hbytes.symm.trans hbytes')
  | case4 c d e f rest ih =>
    simp only [decodeGroups, Option.bind_eq_bind, Option.bind_eq_some_iff] at h h'
    obtain ⟨x, hx, y, hy, z, hz, w, hw, r, hr, hbytes⟩ := h
    obtain ⟨x', hx', y', hy', z', hz', w', hw', r', hr', hbytes'⟩ := h'
    obtain rfl := hagree c x x' hx hx'
    obtain rfl := hagree d y y' hy hy'
    obtain rfl := hagree e z z' hz hz'
    obtain rfl := hagree f w w' hw hw'
    obtain rfl := ih hr hr'
    exact Option.some.inj (hbytes.symm.trans hbytes')
  | case5 => cases h

/-! ### Padding -/

/-- The padding of the last group of a text of symbols. -/
def padding (symbols : ℕ) : ℕ := (4 - symbols % 4) % 4

theorem encodeGroups_mem {b : List UInt8} {c : Char} (h : c ∈ a.encodeGroups b) :
    c ∈ a.symbols := by
  induction b using encode.induct with
  | case1 => exact absurd h List.not_mem_nil
  | case2 x =>
    have hx := x.toNat_lt
    simp only [encodeGroups, List.mem_cons, List.not_mem_nil, or_false] at h
    rcases h with rfl | rfl <;> exact a.symbol_mem (by omega)
  | case3 x y =>
    have hx := x.toNat_lt
    have hy := y.toNat_lt
    simp only [encodeGroups, List.mem_cons, List.not_mem_nil, or_false] at h
    rcases h with rfl | rfl | rfl <;> exact a.symbol_mem (by omega)
  | case4 x y z rest ih =>
    have hx := x.toNat_lt
    have hy := y.toNat_lt
    have hz := z.toNat_lt
    simp only [encodeGroups, List.mem_cons] at h
    rcases h with rfl | rfl | rfl | rfl | h
    · exact a.symbol_mem (by omega)
    · exact a.symbol_mem (by omega)
    · exact a.symbol_mem (by omega)
    · exact a.symbol_mem (by omega)
    · exact ih h

/-- Padding is allowed, and any part of it may be missing. -/
def decodeIndifferent (t : Str) : Option (List UInt8) :=
  let body := t.takeWhile (· != '=')
  let pad := t.dropWhile (· != '=')
  if pad.all (· == '=') ∧ pad.length ≤ padding body.length then a.decodeGroups body else none

/-- The spellings of some bytes in an alphabet. -/
def Spells (b : List UInt8) (t : Str) : Prop :=
  ∃ k, k ≤ padding (a.encodeGroups b).length ∧ t = a.encodeGroups b ++ List.replicate k '='

theorem decodeIndifferent_iff {t : Str} {b : List UInt8} :
    a.decodeIndifferent t = some b ↔ a.Spells b t := by
  rw [decodeIndifferent]
  constructor
  · intro h
    rw [Option.ite_none_right_eq_some] at h
    obtain ⟨⟨hall, hlen⟩, hdecode⟩ := h
    have hbody := a.decodeGroups_iff.mp hdecode
    refine ⟨(t.dropWhile (· != '=')).length, by rwa [← hbody], ?_⟩
    rw [← hbody, ← List.eq_replicate_of_mem (l := t.dropWhile (· != '=')) (a := '='),
      List.takeWhile_append_dropWhile]
    intro c hc
    exact eq_of_beq (List.all_eq_true.mp hall c hc)
  · rintro ⟨k, hk, rfl⟩
    have hne : ∀ c ∈ a.encodeGroups b, (c != '=') = true := by
      intro c hc
      have hmem := a.encodeGroups_mem hc
      have hpad : c ≠ '=' := fun heq => a.unpadded (heq ▸ hmem)
      simpa using hpad
    have hpad : (List.replicate k '=').takeWhile (· != '=') = [] := by
      cases k with
      | zero => rfl
      | succ k => rw [List.replicate_succ, List.takeWhile_cons_of_neg (by simp)]
    have hbody :
        (a.encodeGroups b ++ List.replicate k '=').takeWhile (· != '=') = a.encodeGroups b := by
      rw [List.takeWhile_append_of_pos hne, hpad, List.append_nil]
    have hrest :
        (a.encodeGroups b ++ List.replicate k '=').dropWhile (· != '=') = List.replicate k '=' := by
      have hall := List.takeWhile_append_dropWhile (p := (· != '='))
        (l := a.encodeGroups b ++ List.replicate k '=')
      rw [hbody] at hall
      exact List.append_cancel_left hall
    rw [hbody, hrest, if_pos]
    · exact a.decodeGroups_encodeGroups b
    · exact ⟨by simp, by simpa using hk⟩

end Alphabet

/-! ### Two alphabets -/

/-- The alphabets share the letters and the digits. -/
theorem standard_urlSafe (c : Char) (x y : ℕ) (hx : standard.value c = some x)
    (hy : urlSafe.value c = some y) : x = y := by
  obtain ⟨hlt, rfl⟩ := standard.value_eq_some.mp hx
  have hall : ∀ v < 64, urlSafe.value (standard.symbol v) = none ∨
      urlSafe.value (standard.symbol v) = some v := by
    decide +kernel
  rcases hall x hlt with hnone | hsome
  · rw [hnone] at hy
    cases hy
  · rw [hsome] at hy
    exact Option.some.inj hy

/-- Try the standard alphabet first. -/
def decodeAny (t : Str) : Option (List UInt8) :=
  (standard.decodeIndifferent t).or (urlSafe.decodeIndifferent t)

/-- The texts that are read as some bytes are their spellings in one of the alphabets. -/
theorem decodeAny_iff {t : Str} {b : List UInt8} : decodeAny t = some b ↔ standard.Spells b t ∨
    urlSafe.Spells b t := by
  rw [← Alphabet.decodeIndifferent_iff, ← Alphabet.decodeIndifferent_iff, decodeAny]
  cases hstandard : standard.decodeIndifferent t with
  | none => simp
  | some b' =>
    simp only [Option.some_or, Option.some.injEq]
    refine ⟨.inl, fun h => h.elim id fun hurl => ?_⟩
    simp only [Alphabet.decodeIndifferent, Option.ite_none_right_eq_some] at hstandard hurl
    exact Alphabet.decodeGroups_agree standard_urlSafe hstandard.2 hurl.2

end Siglog.Text.Base64

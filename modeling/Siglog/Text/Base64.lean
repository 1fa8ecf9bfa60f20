import Siglog.Text.Lines

/-! Base 64 with the standard alphabet and canonical padding. -/

namespace Siglog.Text.Base64

def alphabet : Str := "ABCDEFGHIJKLMNOPQRSTUVWXYZabcdefghijklmnopqrstuvwxyz0123456789+/".toList

def symbol (v : ℕ) : Char := alphabet.getD v '='

def value (c : Char) : Option ℕ := alphabet.idxOf? c

def encode : List UInt8 → Str
  | [] => []
  | [x] => [symbol (x.toNat / 4), symbol (x.toNat % 4 * 16), '=', '=']
  | [x, y] =>
    [symbol (x.toNat / 4), symbol (x.toNat % 4 * 16 + y.toNat / 16), symbol (y.toNat % 16 * 4), '=']
  | x :: y :: z :: rest =>
    symbol (x.toNat / 4) :: symbol (x.toNat % 4 * 16 + y.toNat / 16) ::
      symbol (y.toNat % 16 * 4 + z.toNat / 64) :: symbol (z.toNat % 64) :: encode rest

/-- The last group may be padded; the bits its padding cuts off must be zero. -/
def decode : Str → Option (List UInt8)
  | [] => some []
  | [a, b, '=', '='] => do
    let a ← value a
    let b ← value b
    if b % 16 = 0 then some [UInt8.ofNat (a * 4 + b / 16)] else none
  | [a, b, c, '='] => do
    let a ← value a
    let b ← value b
    let c ← value c
    if c % 4 = 0 then some [UInt8.ofNat (a * 4 + b / 16), UInt8.ofNat (b % 16 * 16 + c / 4)]
    else none
  | a :: b :: c :: d :: rest => do
    let a ← value a
    let b ← value b
    let c ← value c
    let d ← value d
    let rest ← decode rest
    some (UInt8.ofNat (a * 4 + b / 16) :: UInt8.ofNat (b % 16 * 16 + c / 4) ::
      UInt8.ofNat (c % 4 * 64 + d) :: rest)
  | _ => none

/-- What the decoder says of a text that it rejects. -/
class DecodeErrors where
  display : Str → String

/-- One text for all. It is there to run the model. -/
@[reducible] def plainErrors : DecodeErrors := ⟨fun _ => "Invalid input"⟩

theorem value_symbol {v : ℕ} (h : v < 64) : value (symbol v) = some v := by
  have hall : ∀ v < 64, value (symbol v) = some v := by decide +kernel
  exact hall v h

theorem symbol_ne_pad {v : ℕ} (h : v < 64) : symbol v ≠ '=' := by
  have hall : ∀ v < 64, symbol v ≠ '=' := by decide +kernel
  exact hall v h

theorem solid_symbol {v : ℕ} (h : v < 64) : isWhitespace (symbol v) = false := by
  have hall : ∀ v < 64, isWhitespace (symbol v) = false := by decide +kernel
  exact hall v h

/-- What holds of the symbols and of the padding holds of a text. -/
theorem encode_forall {P : Char → Prop} (hsymbol : ∀ v < 64, P (symbol v)) (hpad : P '=')
    (b : List UInt8) :
    ∀ c ∈ encode b, P c := by
  induction b using encode.induct with
  | case1 => simp [encode]
  | case2 x =>
    have := x.toNat_lt
    simp only [encode, List.forall_mem_cons]
    exact ⟨hsymbol _ (by omega), hsymbol _ (by omega), hpad, hpad, by simp⟩
  | case3 x y =>
    have := x.toNat_lt
    have := y.toNat_lt
    simp only [encode, List.forall_mem_cons]
    exact ⟨hsymbol _ (by omega), hsymbol _ (by omega), hsymbol _ (by omega), hpad, by simp⟩
  | case4 x y z rest ih =>
    have := x.toNat_lt
    have := y.toNat_lt
    have := z.toNat_lt
    simp only [encode, List.forall_mem_cons]
    exact ⟨hsymbol _ (by omega), hsymbol _ (by omega), hsymbol _ (by omega), hsymbol _ (by omega),
      ih⟩

theorem solid_encode (b : List UInt8) : Solid (encode b) :=
  encode_forall (P := fun c => isWhitespace c = false) (fun _ h => solid_symbol h) rfl b

theorem length_encode (b : List UInt8) : (encode b).length = 4 * ((b.length + 2) / 3) := by
  induction b using encode.induct with
  | case1 => rfl
  | case2 => simp [encode]
  | case3 => simp [encode]
  | case4 x y z rest ih =>
    simp only [encode, List.length_cons, ih]
    omega

theorem encode_ne_nil {b : List UInt8} (h : b ≠ []) : encode b ≠ [] := by
  match b, h with
  | [_], _ => simp [encode]
  | [_, _], _ => simp [encode]
  | _ :: _ :: _ :: _, _ => simp [encode]

/-- Whole groups of three bytes are not padded. -/
theorem pad_not_mem_encode {b : List UInt8} (h : b.length % 3 = 0) : '=' ∉ encode b := by
  have hsymbol : ∀ v < 64, '=' ≠ symbol v := fun v hv => (symbol_ne_pad hv).symm
  induction b using encode.induct with
  | case1 => exact List.not_mem_nil
  | case2 x => simp at h
  | case3 x y => simp at h
  | case4 x y z rest ih =>
    have := x.toNat_lt
    have := y.toNat_lt
    have := z.toNat_lt
    simp only [encode, List.mem_cons, not_or]
    refine ⟨hsymbol _ (by omega), hsymbol _ (by omega), hsymbol _ (by omega), hsymbol _ (by omega),
      ih ?_⟩
    simp only [List.length_cons] at h
    omega

theorem ofNat_eq {x : UInt8} {n : ℕ} (h : n = x.toNat) : UInt8.ofNat n = x := by
  rw [h]
  exact UInt8.ofNat_toNat

/-- Bytes are read back from their text. -/
theorem decode_encode (b : List UInt8) : decode (encode b) = some b := by
  induction b using encode.induct with
  | case1 => rfl
  | case2 x =>
    have hx := x.toNat_lt
    rw [encode, decode, value_symbol (by omega), value_symbol (by omega)]
    have h₁ : UInt8.ofNat (x.toNat / 4 * 4 + x.toNat % 4 * 16 / 16) = x := ofNat_eq (by omega)
    simp only [Option.bind_eq_bind, Option.bind_some, h₁]
    rw [if_pos (by omega)]
  | case3 x y =>
    have hx := x.toNat_lt
    have hy := y.toNat_lt
    rw [encode, decode, value_symbol (by omega), value_symbol (by omega), value_symbol (by omega)]
    · have h₁ : UInt8.ofNat (x.toNat / 4 * 4 + (x.toNat % 4 * 16 + y.toNat / 16) / 16) = x :=
        ofNat_eq (by omega)
      have h₂ : UInt8.ofNat ((x.toNat % 4 * 16 + y.toNat / 16) % 16 * 16 + y.toNat % 16 * 4 / 4) =
          y := ofNat_eq (by omega)
      simp only [Option.bind_eq_bind, Option.bind_some, h₁, h₂]
      rw [if_pos (by omega)]
    · exact symbol_ne_pad (by omega)
  | case4 x y z rest ih =>
    have hx := x.toNat_lt
    have hy := y.toNat_lt
    have hz := z.toNat_lt
    rw [encode, decode, value_symbol (by omega), value_symbol (by omega), value_symbol (by omega),
      value_symbol (by omega), ih]
    · have h₁ : UInt8.ofNat (x.toNat / 4 * 4 + (x.toNat % 4 * 16 + y.toNat / 16) / 16) = x :=
        ofNat_eq (by omega)
      have h₂ : UInt8.ofNat
          ((x.toNat % 4 * 16 + y.toNat / 16) % 16 * 16 + (y.toNat % 16 * 4 + z.toNat / 64) / 4) =
            y :=
        ofNat_eq (by omega)
      have h₃ : UInt8.ofNat ((y.toNat % 16 * 4 + z.toNat / 64) % 4 * 64 + z.toNat % 64) = z :=
        ofNat_eq (by omega)
      simp only [Option.bind_eq_bind, Option.bind_some, h₁, h₂, h₃]
    · intro _ hpad
      exact absurd hpad (symbol_ne_pad (by omega))
    · intro hpad
      exact absurd hpad (symbol_ne_pad (by omega))

theorem symbol_of_value {c : Char} {v : ℕ} (h : value c = some v) : v < 64 ∧ symbol v = c := by
  obtain ⟨hlt, hget, -⟩ := List.idxOf?_eq_some_iff.mp h
  refine ⟨hlt, ?_⟩
  rw [symbol, List.getD_eq_getElem?_getD, List.getElem?_eq_getElem hlt, Option.getD_some, hget]

theorem toNat_ofNat {n : ℕ} (h : n < 256) : (UInt8.ofNat n).toNat = n := by
  rw [UInt8.toNat_ofNat', Nat.mod_eq_of_lt h]

/-- A text is that of the bytes it stands for. -/
theorem encode_decode {t : Str} : ∀ {b : List UInt8}, decode t = some b → encode b = t := by
  induction t using decode.induct with
  | case1 =>
    intro b h
    obtain rfl := Option.some.inj h
    rfl
  | case2 a b =>
    intro bytes h
    simp only [decode, Option.bind_eq_bind, Option.bind_eq_some_iff,
      Option.ite_none_right_eq_some] at h
    obtain ⟨x, hx, y, hy, hzero, hbytes⟩ := h
    obtain rfl := Option.some.inj hbytes
    obtain ⟨hx, rfl⟩ := symbol_of_value hx
    obtain ⟨hy, rfl⟩ := symbol_of_value hy
    have h₁ : (x * 4 + y / 16) / 4 = x := by omega
    have h₂ : (x * 4 + y / 16) % 4 * 16 = y := by omega
    rw [encode, toNat_ofNat (by omega), h₁, h₂]
  | case3 a b c hc =>
    intro bytes h
    rw [decode] at h
    simp only [Option.bind_eq_bind, Option.bind_eq_some_iff, Option.ite_none_right_eq_some] at h
    · obtain ⟨x, hx, y, hy, z, hz, hzero, hbytes⟩ := h
      obtain rfl := Option.some.inj hbytes
      obtain ⟨hx, rfl⟩ := symbol_of_value hx
      obtain ⟨hy, rfl⟩ := symbol_of_value hy
      obtain ⟨hz, rfl⟩ := symbol_of_value hz
      have h₁ : (x * 4 + y / 16) / 4 = x := by omega
      have h₂ : (x * 4 + y / 16) % 4 * 16 + (y % 16 * 16 + z / 4) / 16 = y := by omega
      have h₃ : (y % 16 * 16 + z / 4) % 16 * 4 = z := by omega
      rw [encode, toNat_ofNat (by omega), toNat_ofNat (by omega), h₁, h₂, h₃]
    · exact hc
  | case4 a b c d rest h₁ h₂ ih =>
    intro bytes h
    rw [decode] at h
    simp only [Option.bind_eq_bind, Option.bind_eq_some_iff] at h
    · obtain ⟨x, hx, y, hy, z, hz, w, hw, bytes', hrest, hbytes⟩ := h
      obtain rfl := Option.some.inj hbytes
      obtain ⟨hx, rfl⟩ := symbol_of_value hx
      obtain ⟨hy, rfl⟩ := symbol_of_value hy
      obtain ⟨hz, rfl⟩ := symbol_of_value hz
      obtain ⟨hw, rfl⟩ := symbol_of_value hw
      have h₁ : (x * 4 + y / 16) / 4 = x := by omega
      have h₂ : (x * 4 + y / 16) % 4 * 16 + (y % 16 * 16 + z / 4) / 16 = y := by omega
      have h₃ : (y % 16 * 16 + z / 4) % 16 * 4 + (z % 4 * 64 + w) / 64 = z := by omega
      have h₄ : (z % 4 * 64 + w) % 64 = w := by omega
      rw [encode, toNat_ofNat (by omega), toNat_ofNat (by omega), toNat_ofNat (by omega), ih hrest,
        h₁, h₂, h₃, h₄]
    · exact h₁
    · exact h₂
  | case5 t h₁ h₂ h₃ h₄ =>
    intro bytes h
    rw [decode] at h
    · cases h
    · exact h₁
    · exact h₂
    · exact h₃
    · exact h₄

end Siglog.Text.Base64

import Siglog.Text.Lines

/-! Texts as bytes in UTF-8. -/

namespace Siglog.Text

/-- `as_bytes` of a string. -/
def utf8 (t : Str) : List UInt8 := t.flatMap String.utf8EncodeChar

theorem length_utf8_le (t : Str) : (utf8 t).length ≤ 4 * t.length := by
  induction t with
  | nil => exact Nat.zero_le _
  | cons c t ih =>
    have hc := c.utf8Size_le_four
    rw [utf8, List.flatMap_cons, List.length_append, String.length_utf8EncodeChar, List.length_cons]
    change _ + (utf8 t).length ≤ _
    omega

/-- A character of ASCII is one byte. -/
theorem length_utf8_ascii {t : Str} (h : ∀ c ∈ t, c.toNat < 128) : (utf8 t).length = t.length := by
  induction t with
  | nil => rfl
  | cons c t ih =>
    obtain ⟨hc, ht⟩ := List.forall_mem_cons.mp h
    have hsize : c.utf8Size = 1 :=
      Char.utf8Size_eq_one_iff.mpr (UInt32.le_iff_toNat_le.mpr (Nat.le_of_lt_succ hc))
    rw [utf8, List.flatMap_cons, List.length_append, String.length_utf8EncodeChar, hsize,
      List.length_cons]
    change 1 + (utf8 t).length = _
    rw [ih ht, Nat.add_comm]

theorem utf8_ascii {t : Str} (h : ∀ c ∈ t, c.toNat < 128) :
    utf8 t = t.map fun c => UInt8.ofNat c.toNat := by
  induction t with
  | nil => rfl
  | cons c t ih =>
    obtain ⟨hc, ht⟩ := List.forall_mem_cons.mp h
    have hsize : c.utf8Size = 1 :=
      Char.utf8Size_eq_one_iff.mpr (UInt32.le_iff_toNat_le.mpr (Nat.le_of_lt_succ hc))
    have hbyte : c.val.toUInt8 = UInt8.ofNat c.toNat := by
      rw [← UInt8.ofNat_uInt32ToNat]
      rfl
    rw [utf8, List.flatMap_cons, String.utf8EncodeChar_eq_singleton hsize, hbyte, List.map_cons]
    exact congrArg _ (ih ht)

/-- The text of bytes, of which there are at most `fuel`. -/
def decodeUtf8 : ℕ → List UInt8 → Option Str
  | _, [] => some []
  | 0, _ => none
  | fuel + 1, b =>
    -- a character takes at most four bytes
    match (b.take 4).toByteArray.utf8DecodeChar? 0 with
    | none => none
    | some c => (decodeUtf8 fuel (b.drop c.utf8Size)).map (c :: ·)

/-- `from_utf8`. -/
def fromUtf8 (b : List UInt8) : Option Str := decodeUtf8 b.length b

theorem decodeUtf8_utf8 {t : Str} {fuel : ℕ} (h : t.length ≤ fuel) :
    decodeUtf8 fuel (utf8 t) = some t := by
  induction t generalizing fuel with
  | nil => cases fuel with
    | zero => rfl
    | succ _ => rfl
  | cons c t ih =>
    obtain ⟨fuel, rfl⟩ : ∃ k, fuel = k + 1 := ⟨fuel - 1, by rw [List.length_cons] at h; omega⟩
    have hsize := String.length_utf8EncodeChar c
    have htake :
        (utf8 (c :: t)).take 4 = String.utf8EncodeChar c ++ (utf8 t).take (4 - c.utf8Size) := by
      have := c.utf8Size_le_four
      rw [utf8, List.flatMap_cons, List.take_append, List.take_of_length_le (by omega), hsize]
      rfl
    have hdecode : ((utf8 (c :: t)).take 4).toByteArray.utf8DecodeChar? 0 = some c := by
      rw [htake, List.toByteArray_append, ← List.utf8Encode_singleton]
      exact List.utf8DecodeChar?_utf8Encode_singleton_append
    have hdrop : (utf8 (c :: t)).drop c.utf8Size = utf8 t := by
      rw [utf8, List.flatMap_cons, ← hsize, List.drop_left]
      rfl
    have hne : utf8 (c :: t) ≠ [] := by
      rw [utf8, List.flatMap_cons]
      intro hnil
      exact String.utf8EncodeChar_ne_nil (List.append_eq_nil_iff.mp hnil).1
    rw [decodeUtf8, hdecode]
    · dsimp only
      rw [hdrop, ih (by rw [List.length_cons] at h; omega)]
      rfl
    · exact hne

theorem length_le_utf8 (t : Str) : t.length ≤ (utf8 t).length := by
  induction t with
  | nil => exact Nat.zero_le _
  | cons c t ih =>
    have hc := c.utf8Size_pos
    rw [utf8, List.flatMap_cons, List.length_append, String.length_utf8EncodeChar, List.length_cons]
    change _ ≤ _ + (utf8 t).length
    omega

theorem fromUtf8_utf8 (t : Str) : fromUtf8 (utf8 t) = some t := decodeUtf8_utf8 (length_le_utf8 t)

theorem utf8_injective : Function.Injective utf8 := by
  intro a b h
  have := congrArg fromUtf8 h
  rwa [fromUtf8_utf8, fromUtf8_utf8, Option.some.injEq] at this

/-- A byte below 128 is a character of its own. -/
theorem mem_of_mem_utf8 {t : Str} {b : UInt8} (h : b ∈ utf8 t) (hb : b.toNat < 128) :
    ∃ c ∈ t, c.toNat = b.toNat := by
  obtain ⟨c, hc, hmem⟩ := List.mem_flatMap.mp h
  refine ⟨c, hc, ?_⟩
  have hsmall : ∀ n : ℕ, b = UInt8.ofNat n → b.toNat = n % 2 ^ 8 := fun n hn => by
    rw [hn]; exact UInt8.toNat_ofNat
  change c.val.toNat = _
  rw [String.utf8EncodeChar] at hmem
  generalize c.val.toNat = v at hmem ⊢
  split_ifs at hmem with h₁ h₂ h₃
  · have := hsmall _ (List.mem_singleton.mp hmem)
    omega
  -- the bytes of a longer character are at least 128
  all_goals
    simp only [List.mem_cons, List.not_mem_nil, or_false] at hmem
    replace hmem := hmem.imp_left (hsmall _)
  · have := hmem.imp_right (hsmall _)
    omega
  · have := hmem.imp_right fun h => h.imp (hsmall _) (hsmall _)
    omega
  · have := hmem.imp_right fun h => h.imp (hsmall _) fun h => h.imp (hsmall _) (hsmall _)
    omega

end Siglog.Text

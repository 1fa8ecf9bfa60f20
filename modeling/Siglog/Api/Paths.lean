import Siglog.Types
import Siglog.Text.Lines

/-! The names of the stored objects. An index is written in groups of three
digits; a partial tile or bundle has its width as a suffix. Distinct objects
have distinct names. -/

namespace Siglog.Api

open Text (Str decimal decimal_injective isDigit_of_mem_decimal)

def tileHeight : ℕ := 8

def tileWidth : ℕ := 2 ^ tileHeight

theorem tileWidth_eq : tileWidth = 256 := rfl

abbrev Path := Str

def checkpointPath : Path := "checkpoint".toList

/-- Three decimal digits. -/
def digits3 (n : ℕ) : Str :=
  [Nat.digitChar (n / 100 % 10), Nat.digitChar (n / 10 % 10), Nat.digitChar (n % 10)]

/-- The loop of `formatN`: groups of three digits are put in front. -/
def formatGroups (n : ℕ) (result : Str) : Str :=
  if n = 0 then result else formatGroups (n / 1000) ('x' :: digits3 (n % 1000) ++ '/' :: result)
termination_by n
decreasing_by omega

def formatN (n : ℕ) : Str := formatGroups (n / 1000) (digits3 (n % 1000))

def formatNWithSuffix (n part : ℕ) : Str :=
  if 0 < part then formatN n ++ '.' :: 'p' :: '/' :: decimal part else formatN n

def tilePath (level index part : ℕ) : Path :=
  "tile/".toList ++ decimal level ++ '/' :: formatNWithSuffix index part

def entriesPath (index part : ℕ) : Path := "tile/entries/".toList ++ formatNWithSuffix index part

/-- The number of leaves of a partial tile, and zero for a full one. -/
def partialTileSize (level index logSize : ℕ) : ℕ :=
  let shift := min (level * tileHeight) (2 ^ 64 - 1)
  if shift ≥ 64 then 0
  else
    let sizeAtLevel := logSize / 2 ^ shift
    if index < sizeAtLevel / tileWidth then 0 else sizeAtLevel % tileWidth

/-! ### Names are unique -/

/-- Read the digits of a name and skip all else. -/
def readDigits (acc : ℕ) (c : Char) : ℕ :=
  if c.isDigit then 10 * acc + (c.toNat - '0'.toNat) else acc

theorem readDigits_digitChar {d : ℕ} (h : d < 10) (acc : ℕ) :
    readDigits acc (Nat.digitChar d) = 10 * acc + d := by
  unfold readDigits
  interval_cases d <;> rfl

theorem foldl_digits3 {m : ℕ} (h : m < 1000) (acc : ℕ) :
    (digits3 m).foldl readDigits acc = acc * 1000 + m := by
  simp only [digits3, List.foldl_cons, List.foldl_nil]
  rw [readDigits_digitChar (by omega), readDigits_digitChar (by omega),
    readDigits_digitChar (by omega)]
  omega

theorem foldl_formatGroups (n : ℕ) (result : Str) :
    (formatGroups n result).foldl readDigits 0 = result.foldl readDigits n := by
  induction n using Nat.strong_induction_on generalizing result with
  | h n ih =>
    rw [formatGroups]
    split_ifs with h0
    · rw [h0]
    · rw [ih _ (by omega), List.cons_append, List.foldl_cons, List.foldl_append, List.foldl_cons,
        show readDigits (n / 1000) 'x' = n / 1000 from rfl, foldl_digits3 (Nat.mod_lt _ (by omega)),
        show n / 1000 * 1000 + n % 1000 = n by omega]
      rfl

theorem foldl_formatN (n : ℕ) : (formatN n).foldl readDigits 0 = n := by
  rw [formatN, foldl_formatGroups, foldl_digits3 (Nat.mod_lt _ (by omega))]
  omega

theorem formatN_injective : Function.Injective formatN := by
  intro a b h
  rw [← foldl_formatN a, ← foldl_formatN b, h]

theorem digitChar_ne_dot {d : ℕ} (h : d < 10) : Nat.digitChar d ≠ '.' := by
  interval_cases d <;> decide

theorem dot_not_mem_digits3 (n : ℕ) : '.' ∉ digits3 n := by
  simp only [digits3, List.mem_cons, List.not_mem_nil, or_false, not_or]
  exact ⟨(digitChar_ne_dot (by omega)).symm, (digitChar_ne_dot (by omega)).symm,
    (digitChar_ne_dot (by omega)).symm⟩

theorem dot_not_mem_formatGroups (n : ℕ) {result : Str} (h : '.' ∉ result) :
    '.' ∉ formatGroups n result := by
  induction n using Nat.strong_induction_on generalizing result with
  | h n ih =>
    rw [formatGroups]
    split_ifs with h0
    · exact h
    · apply ih _ (by omega)
      have := dot_not_mem_digits3 (n % 1000)
      simp [h, this]

theorem dot_not_mem_formatN (n : ℕ) : '.' ∉ formatN n :=
  dot_not_mem_formatGroups _ (dot_not_mem_digits3 _)

theorem formatNWithSuffix_injective {n p n' p' : ℕ}
    (h : formatNWithSuffix n p = formatNWithSuffix n' p') :
    n = n' ∧ p = p' := by
  -- the part before the first dot is the index
  have hcut : ∀ (n : ℕ) (s : Str), (formatN n ++ '.' :: s).takeWhile (· != '.') = formatN n := by
    intro n s
    rw [List.takeWhile_append_of_pos]
    · simp
    · intro c hc
      have : c ≠ '.' := by rintro rfl; exact dot_not_mem_formatN n hc
      simpa using this
  have hfull : ∀ n : ℕ, (formatN n).takeWhile (· != '.') = formatN n := by
    intro n
    rw [List.takeWhile_eq_self_iff]
    intro c hc
    have : c ≠ '.' := by rintro rfl; exact dot_not_mem_formatN n hc
    simpa using this
  have hindex : ∀ n p : ℕ, (formatNWithSuffix n p).takeWhile (· != '.') = formatN n := by
    intro n p
    unfold formatNWithSuffix
    split_ifs
    · exact hcut n _
    · exact hfull n
  have hn : n = n' := formatN_injective (by rw [← hindex n p, ← hindex n' p', h])
  subst hn
  refine ⟨rfl, ?_⟩
  unfold formatNWithSuffix at h
  split_ifs at h with hp hp' hp'
  · simp only [List.append_cancel_left_eq, List.cons.injEq, true_and] at h
    exact decimal_injective h
  · exact absurd (h ▸ by simp : '.' ∈ formatN n) (dot_not_mem_formatN n)
  · exact absurd (h ▸ by simp : '.' ∈ formatN n) (dot_not_mem_formatN n)
  · omega

theorem tilePath_injective {l i p l' i' p' : ℕ} (h : tilePath l i p = tilePath l' i' p') :
    l = l' ∧ i = i' ∧ p = p' := by
  unfold tilePath at h
  rw [List.append_assoc, List.append_assoc, List.append_cancel_left_eq] at h
  have hcut : ∀ (l : ℕ) (s : Str), (decimal l ++ '/' :: s).takeWhile Char.isDigit = decimal l := by
    intro l s
    rw [List.takeWhile_append_of_pos fun c hc => isDigit_of_mem_decimal hc]
    simp
  have hl : l = l' := decimal_injective (by rw [← hcut l, ← hcut l', h])
  subst hl
  rw [List.append_cancel_left_eq, List.cons.injEq] at h
  exact ⟨rfl, formatNWithSuffix_injective h.2⟩

theorem entriesPath_injective {i p i' p' : ℕ} (h : entriesPath i p = entriesPath i' p') : i = i' ∧
    p = p' := by
  unfold entriesPath at h
  rw [List.append_cancel_left_eq] at h
  exact formatNWithSuffix_injective h

theorem tilePath_ne_entriesPath (l i p i' p' : ℕ) : tilePath l i p ≠ entriesPath i' p' := by
  intro h
  have hsplit : "tile/entries/".toList = "tile/".toList ++ "entries/".toList := by decide
  unfold tilePath entriesPath at h
  rw [hsplit, List.append_assoc, List.append_assoc, List.append_cancel_left_eq] at h
  obtain ⟨c, s, hs⟩ := List.exists_cons_of_ne_nil (Nat.toDigits_ne_nil (n := l) (b := 10))
  have hdigit := isDigit_of_mem_decimal (n := l) (c := c) (by rw [decimal, hs]; simp)
  rw [decimal, hs, List.cons_append] at h
  obtain rfl := (List.cons.inj h).1
  exact absurd hdigit (by decide)

theorem checkpointPath_ne_tilePath (l i p : ℕ) : checkpointPath ≠ tilePath l i p := by
  intro h
  have hhead : some 'c' = some 't' := congrArg List.head? h
  exact absurd hhead (by decide)

theorem checkpointPath_ne_entriesPath (i p : ℕ) : checkpointPath ≠ entriesPath i p := by
  intro h
  have hhead : some 'c' = some 't' := congrArg List.head? h
  exact absurd hhead (by decide)

end Siglog.Api

import Mathlib.Data.List.DropRight
import Mathlib.Data.List.TakeWhile
import Mathlib.Data.List.Infix
import Mathlib.Tactic.IntervalCases

/-! Str and its parts: lines, white space, prefixes and decimal numbers. A text is
the list of its characters. -/

namespace Siglog.Text

abbrev Str := List Char

/-- What is said of all characters of a text is decided on the text, not on all characters. -/
instance (priority := high) decidableForallMem {α : Type} (p : α → Prop) [DecidablePred p]
    (l : List α) :
    Decidable (∀ x ∈ l, p x) := List.decidableBAll p l

def newline : Char := '\n'

/-! ### White space -/

/-- The characters that Unicode calls white space. -/
def isWhitespace (c : Char) : Bool :=
  (9 ≤ c.toNat && c.toNat ≤ 13) || c.toNat == 0x20 || c.toNat == 0x85 || c.toNat == 0xa0 ||
    c.toNat == 0x1680 ||
    (0x2000 ≤ c.toNat && c.toNat ≤ 0x200a) || c.toNat == 0x2028 || c.toNat == 0x2029 || c.toNat ==
      0x202f ||
    c.toNat == 0x205f || c.toNat == 0x3000

def trimStart (t : Str) : Str := t.dropWhile isWhitespace

def trimEnd (t : Str) : Str := (t.reverse.dropWhile isWhitespace).reverse

def trim (t : Str) : Str := trimEnd (trimStart t)

/-- No character is white space. -/
def Solid (t : Str) : Prop := ∀ c ∈ t, isWhitespace c = false

instance (t : Str) : Decidable (Solid t) :=
  inferInstanceAs (Decidable (∀ c ∈ t, isWhitespace c = false))

theorem trimEnd_append {t w : Str} (hw : ∀ c ∈ w, isWhitespace c = true) :
    trimEnd (t ++ w) = trimEnd t := by
  rw [trimEnd, trimEnd, List.reverse_append, List.dropWhile_append, if_pos]
  rw [List.dropWhile_eq_nil_iff.mpr]
  · rfl
  · exact fun c hc => hw c (List.mem_reverse.mp hc)

theorem trimEnd_concat {t : Str} {c : Char} (hc : isWhitespace c = false) :
    trimEnd (t ++ [c]) = t ++ [c] := by
  rw [trimEnd, List.reverse_append, List.reverse_singleton, List.singleton_append,
    List.dropWhile_cons_of_neg (by simp [hc]), List.reverse_cons, List.reverse_reverse]

theorem trimStart_cons {t : Str} {c : Char} (hc : isWhitespace c = false) :
    trimStart (c :: t) = c :: t :=
  List.dropWhile_cons_of_neg (by simp [hc])

/-- Solid text at the end stays. -/
theorem trimEnd_append_solid {t s : Str} (hs : Solid s) (hne : s ≠ []) :
    trimEnd (t ++ s) = t ++ s := by
  rw [← List.dropLast_concat_getLast hne, ← List.append_assoc]
  exact trimEnd_concat (hs _ (List.getLast_mem hne))

theorem trimStart_solid_append {t s : Str} (hs : Solid s) (hne : s ≠ []) :
    trimStart (s ++ t) = s ++ t := by
  obtain ⟨c, s, rfl⟩ := List.exists_cons_of_ne_nil hne
  exact trimStart_cons (hs c List.mem_cons_self)

theorem first_of_trimStart {c : Char} {t : Str} (h : trimStart (c :: t) = c :: t) :
    isWhitespace c = false := by
  rw [Bool.eq_false_iff]
  intro hspace
  have hlen := congrArg List.length h
  have hle := List.length_dropWhile_le isWhitespace t
  rw [trimStart, List.dropWhile_cons_of_pos hspace, List.length_cons] at hlen
  omega

/-- Trimming the end keeps the start. -/
theorem trimStart_trimEnd {t : Str} (h : trimStart t = t) : trimStart (trimEnd t) = trimEnd t := by
  cases t with
  | nil => rfl
  | cons c t =>
    have hc := first_of_trimStart h
    rw [trimEnd, List.reverse_cons, List.dropWhile_append]
    split
    · simp [trimStart, hc]
    · simp [trimStart, hc]

theorem trimStart_trim (t : Str) : trimStart (trim t) = trim t :=
  trimStart_trimEnd (List.dropWhile_idempotent _ _)

theorem trim_trim (t : Str) : trim (trim t) = trim t := by
  have hend : trimEnd (trimEnd (trimStart t)) = trimEnd (trimStart t) := by
    simp [trimEnd, List.dropWhile_idempotent]
  rw [trim, trimStart_trim, trim, hend]

theorem trim_solid {s : Str} (hs : Solid s) : trim s = s := by
  by_cases hne : s = []
  · subst hne
    rfl
  · have h₁ := trimStart_solid_append (t := []) hs hne
    have h₂ := trimEnd_append_solid (t := []) hs hne
    rw [List.append_nil] at h₁
    rw [trim, h₁]
    exact h₂

theorem trim_terminated {s : Str} (hs : Solid s) : trim (s ++ [newline]) = s := by
  by_cases hne : s = []
  · subst hne
    rfl
  · rw [trim, trimStart_solid_append hs hne, trimEnd_append (by decide)]
    exact trimEnd_append_solid (t := []) hs hne

/-- Nothing is trimmed if the length stays. -/
theorem trimStart_of_length {t : Str} (h : (trim t).length = t.length) : trimStart t = t := by
  have hend : (trim t).length ≤ (trimStart t).length := by
    rw [trim, trimEnd, List.length_reverse]
    exact (List.length_dropWhile_le _ _).trans_eq (List.length_reverse ..)
  exact (List.dropWhile_suffix _).eq_of_length
    (le_antisymm (List.length_dropWhile_le _ _) (h ▸ hend))

theorem solid_append {s t : Str} (hs : Solid s) (ht : Solid t) : Solid (s ++ t) := by
  intro c hc
  rcases List.mem_append.mp hc with hc | hc
  · exact hs c hc
  · exact ht c hc

theorem not_mem_of_solid {t : Str} (h : Solid t) {c : Char} (hc : isWhitespace c = true) :
    c ∉ t := by
  intro hmem
  rw [h c hmem] at hc
  cases hc

/-! ### Lines -/

/-- A line without the carriage return of its end. -/
def stripReturn (line : Str) : Str := if line.getLast? = some '\r' then line.dropLast else line

/-- The lines of a text, of which `acc` is the beginning of the first one in reverse.
The last line need not end with a newline. -/
def linesFrom (acc : Str) : Str → List Str
  | [] => if acc = [] then [] else [acc.reverse]
  | c :: t =>
    if c = newline then stripReturn acc.reverse :: linesFrom [] t else linesFrom (c :: acc) t

def lines (t : Str) : List Str := linesFrom [] t

/-- Lines with a newline between each two. -/
def joinLines (ls : List Str) : Str := List.intercalate [newline] ls

/-- A line can be told from its neighbours. -/
structure Line (l : Str) : Prop where
  newline : newline ∉ l
  carriageReturn : '\r' ∉ l

theorem line_of_solid {l : Str} (h : Solid l) : Line l :=
  ⟨not_mem_of_solid h (by decide), not_mem_of_solid h (by decide)⟩

theorem line_append {l m : Str} (hl : Line l) (hm : Line m) : Line (l ++ m) := by
  constructor
  · rw [List.mem_append, not_or]
    exact ⟨hl.newline, hm.newline⟩
  · rw [List.mem_append, not_or]
    exact ⟨hl.carriageReturn, hm.carriageReturn⟩

theorem stripReturn_line {l : Str} (h : Line l) : stripReturn l = l := by
  rw [stripReturn, if_neg]
  intro hlast
  exact h.carriageReturn (List.mem_of_getLast? hlast)

theorem linesFrom_append {l : Str} (hl : newline ∉ l) (acc t : Str) :
    linesFrom acc (l ++ t) = linesFrom (l.reverse ++ acc) t := by
  induction l generalizing acc with
  | nil => rfl
  | cons c l ih =>
    rw [List.mem_cons, not_or] at hl
    rw [List.cons_append, linesFrom, if_neg (Ne.symm hl.1), ih hl.2]
    simp

/-- A line and what follows it. -/
theorem lines_cons {l : Str} (h : Line l) (t : Str) : lines (l ++ newline :: t) = l :: lines t := by
  rw [lines, linesFrom_append h.newline, linesFrom, if_pos rfl]
  simp [stripReturn_line h, lines]

/-- The last line. -/
theorem lines_last {l : Str} (h : Line l) (hne : l ≠ []) : lines l = [l] := by
  have := linesFrom_append h.newline [] []
  rw [List.append_nil] at this
  rw [lines, this, linesFrom, if_neg (by simpa using hne)]
  simp

theorem joinLines_singleton (l : Str) : joinLines [l] = l := by simp [joinLines, List.intercalate]

theorem joinLines_cons {l : Str} {ls : List Str} (h : ls ≠ []) :
    joinLines (l :: ls) = l ++ newline :: joinLines ls := by
  obtain ⟨m, ls, rfl⟩ := List.exists_cons_of_ne_nil h
  rfl

theorem joinLines_append {ls ms : List Str} (hl : ls ≠ []) (hm : ms ≠ []) :
    joinLines (ls ++ ms) = joinLines ls ++ newline :: joinLines ms := by
  induction ls with
  | nil => exact absurd rfl hl
  | cons l ls ih =>
    by_cases hne : ls = []
    · subst hne
      rw [List.singleton_append, joinLines_cons hm, joinLines_singleton]
    · rw [List.cons_append, joinLines_cons (by simp [hne]), ih hne, joinLines_cons hne,
        List.append_assoc]
      rfl

/-- Joined lines are read back, if the last one is not empty. -/
theorem lines_joinLines {ls : List Str} (h : ∀ l ∈ ls, Line l)
    (hlast : ∀ l, ls.getLast? = some l → l ≠ []) :
    lines (joinLines ls) = ls := by
  induction ls with
  | nil => rfl
  | cons l ls ih =>
    by_cases hne : ls = []
    · subst hne
      rw [joinLines_singleton]
      exact lines_last (h l List.mem_cons_self) (hlast l rfl)
    · rw [joinLines_cons hne, lines_cons (h l List.mem_cons_self),
        ih fun m hm => h m (List.mem_cons_of_mem l hm)]
      intro m hm
      apply hlast
      rw [List.getLast?_cons, hm]
      rfl

/-- Lines that each end with a newline. -/
theorem lines_terminated {ls : List Str} (h : ∀ l ∈ ls, Line l) (hne : ls ≠ []) :
    lines (joinLines ls ++ [newline]) = ls := by
  induction ls with
  | nil => exact absurd rfl hne
  | cons l ls ih =>
    have hl := h l List.mem_cons_self
    by_cases hls : ls = []
    · subst hls
      rw [joinLines_singleton, lines_cons hl]
      rfl
    · rw [joinLines_cons hls, List.append_assoc, List.cons_append, lines_cons hl,
        ih (fun m hm => h m (List.mem_cons_of_mem l hm)) hls]

theorem flatMap_terminated {α : Type} (f : α → Str) {as : List α} (h : as ≠ []) :
    (as.flatMap fun a => f a ++ [newline]) = joinLines (as.map f) ++ [newline] := by
  induction as with
  | nil => exact absurd rfl h
  | cons a as ih =>
    by_cases has : as = []
    · subst has
      simp [joinLines_singleton]
    · rw [List.flatMap_cons, ih has, List.map_cons, joinLines_cons (by simpa using has)]
      simp

theorem head_stripReturn {l : Str} (h : stripReturn l ≠ []) : (stripReturn l).head? = l.head? := by
  unfold stripReturn at h ⊢
  split_ifs at h ⊢
  · cases l with
    | nil => rfl
    | cons c l =>
      cases l with
      | nil => simp at h
      | cons d l => rfl
  · rfl

theorem head_linesFrom {t l : Str} {ls : List Str} (hne : l ≠ []) : ∀ {acc : Str}, acc ≠ [] →
    linesFrom acc t = l :: ls → l.head? = acc.getLast? := by
  induction t with
  | nil =>
    intro acc hacc h
    rw [linesFrom, if_neg hacc] at h
    obtain rfl := (List.cons.inj h).1
    rw [List.head?_reverse]
  | cons c t ih =>
    intro acc hacc h
    rw [linesFrom] at h
    split_ifs at h
    · obtain rfl := (List.cons.inj h).1
      rw [head_stripReturn hne, List.head?_reverse]
    · rw [ih (by simp) h, List.getLast?_cons, List.getLast?_eq_some_getLast hacc]
      simp

/-- A text begins with its first line. -/
theorem head_lines {t l : Str} {ls : List Str} (h : lines t = l :: ls) (hne : l ≠ []) :
    l.head? = t.head? := by
  cases t with
  | nil => cases h
  | cons c t =>
    rw [lines, linesFrom] at h
    split_ifs at h
    · exact absurd (List.cons.inj h).1.symm hne
    · simpa using head_linesFrom hne (by simp) h

/-! ### Prefixes and splitting -/

def stripPrefix (pat t : Str) : Option Str :=
  if pat.isPrefixOf t then some (t.drop pat.length) else none

/-- `splitn(2, pat)`: the parts before and after the first occurrence, if there is one. -/
def splitOnce (pat : Str) : Str → Option (Str × Str)
  | [] => if pat.isPrefixOf [] then some ([], []) else none
  | c :: t =>
    if pat.isPrefixOf (c :: t) then some ([], (c :: t).drop pat.length)
    else (splitOnce pat t).map fun (a, b) => (c :: a, b)

theorem stripPrefix_append (pat t : Str) : stripPrefix pat (pat ++ t) = some t := by
  rw [stripPrefix, if_pos, List.drop_left]
  exact List.isPrefixOf_iff_prefix.mpr (List.prefix_append pat t)

/-- The parts are those of the text. -/
theorem splitOnce_eq {pat t a b : Str} (h : splitOnce pat t = some (a, b)) :
    t = a ++ (pat ++ b) := by
  induction t generalizing a with
  | nil =>
    rw [splitOnce] at h
    split_ifs at h with hpat
    obtain ⟨rfl, rfl⟩ := Prod.mk.inj (Option.some.inj h)
    simpa using hpat
  | cons c t ih =>
    rw [splitOnce] at h
    split_ifs at h with hpat
    · obtain ⟨rfl, rfl⟩ := Prod.mk.inj (Option.some.inj h)
      exact (List.prefix_iff_eq_append.mp (List.isPrefixOf_iff_prefix.mp hpat)).symm
    · obtain ⟨⟨a', b'⟩, hrest, hab⟩ := Option.map_eq_some_iff.mp h
      obtain ⟨rfl, rfl⟩ := Prod.mk.inj hab
      rw [ih hrest]
      rfl

theorem splitOnce_eq_none {pat t : Str} (h : ¬ pat <:+: t) : splitOnce pat t = none := by
  cases hsplit : splitOnce pat t with
  | none => rfl
  | some parts =>
    obtain ⟨a, b⟩ := parts
    exact absurd ⟨a, b, by rw [splitOnce_eq hsplit, List.append_assoc]⟩ h

/-- Between lines that are not empty there is no blank line. -/
theorem splitOnce_joinLines {ls : List Str} (h : ∀ l ∈ ls, newline ∉ l ∧ l ≠ []) (hne : ls ≠ []) :
    splitOnce [newline, newline] (joinLines ls) = none := by
  apply splitOnce_eq_none
  rintro ⟨a, b, hjoin⟩
  have hlines : (joinLines ls).splitOn newline = ls :=
    List.splitOn_intercalate newline (fun l hl => (h l hl).1) hne
  rw [← hjoin, List.append_assoc, List.cons_append, List.singleton_append,
    List.splitOn_append_cons_self] at hlines
  have hblank : [] ∈ (newline :: b).splitOn newline := by simp [List.splitOn_cons_eq_if_modifyHead]
  exact (h [] (hlines ▸ List.mem_append_right _ hblank)).2 rfl

/-- The first occurrence of one character. -/
theorem splitOnce_char {c : Char} {a : Str} (h : c ∉ a) (b : Str) :
    splitOnce [c] (a ++ c :: b) = some (a, b) := by
  induction a with
  | nil => simp [splitOnce, List.isPrefixOf]
  | cons d a ih =>
    rw [List.mem_cons, not_or] at h
    rw [List.cons_append, splitOnce, if_neg, ih h.2]
    · rfl
    · simp [List.isPrefixOf, h.1]

/-- The character is split off at its first occurrence. -/
theorem splitOnce_char_iff {c : Char} {t a b : Str} :
    splitOnce [c] t = some (a, b) ↔ t = a ++ c :: b ∧ c ∉ a := by
  constructor
  · intro h
    refine ⟨splitOnce_eq h, ?_⟩
    induction t generalizing a with
    | nil => simp [splitOnce, List.isPrefixOf] at h
    | cons d t ih =>
      rw [splitOnce] at h
      split_ifs at h with hd
      · obtain ⟨rfl, -⟩ := Prod.mk.inj (Option.some.inj h)
        simp
      · obtain ⟨⟨a', b'⟩, hrest, hab⟩ := Option.map_eq_some_iff.mp h
        obtain ⟨rfl, rfl⟩ := Prod.mk.inj hab
        rw [List.mem_cons, not_or]
        exact ⟨fun hc => hd (by simp [List.isPrefixOf, hc]), ih hrest⟩
  · rintro ⟨rfl, ha⟩
    exact splitOnce_char ha b

/-- `splitn`: at most `n` parts, of which the last one is not split. -/
def splitN (c : Char) : ℕ → Str → List Str
  | 0, _ => []
  | 1, t => [t]
  | n + 2, t =>
    match splitOnce [c] t with
    | none => [t]
    | some (a, b) => a :: splitN c (n + 1) b

/-- There are as many parts as are asked for if and only if only the last one may have the
character. -/
theorem splitN_iff {c : Char} {parts : List Str} : ∀ {t : Str} {last : Str},
    splitN c (parts.length + 1) t = parts ++ [last] ↔
      (∀ p ∈ parts, c ∉ p) ∧ t = parts.flatMap (fun p => p ++ [c]) ++ last := by
  induction parts with
  | nil => intro t last; simp [splitN]
  | cons p parts ih =>
    intro t last
    have hflat : (p :: parts).flatMap (fun p => p ++ [c]) ++ last =
        p ++ c :: (parts.flatMap (fun p => p ++ [c]) ++ last) := by simp
    rw [List.length_cons, splitN, hflat, List.forall_mem_cons]
    constructor
    · intro h
      cases hsplit : splitOnce [c] t with
      | none =>
        rw [hsplit] at h
        have := congrArg List.length h
        simp at this
      | some ab =>
        obtain ⟨a, b⟩ := ab
        rw [hsplit] at h
        obtain ⟨rfl, hrest⟩ := List.cons.inj h
        obtain ⟨hparts, rfl⟩ := ih.mp hrest
        obtain ⟨rfl, ha⟩ := splitOnce_char_iff.mp hsplit
        exact ⟨⟨ha, hparts⟩, rfl⟩
    · rintro ⟨⟨hp, hparts⟩, rfl⟩
      rw [splitOnce_char hp]
      exact congrArg (p :: ·) (ih.mpr ⟨hparts, rfl⟩)

/-- The first blank line, after lines that are not empty. -/
theorem splitOnce_blank (ls : List Str) (h : ∀ l ∈ ls, newline ∉ l ∧ l ≠ []) (hne : ls ≠ [])
    (b : Str) :
    splitOnce [newline, newline] (joinLines ls ++ newline :: newline :: b) =
      some (joinLines ls, b) := by
  have hskip : ∀ (l t : Str), newline ∉ l → t.head? = some newline →
      splitOnce [newline, newline] (l ++ t) = (splitOnce [newline, newline] t).map fun (a, b) =>
        (l ++ a, b) := by
    intro l t hl ht
    induction l with
    | nil => simp
    | cons c l ih =>
      rw [List.mem_cons, not_or] at hl
      rw [List.cons_append, splitOnce, if_neg, ih hl.2, Option.map_map]
      · rfl
      · simp [List.isPrefixOf, hl.1]
  induction ls with
  | nil => exact absurd rfl hne
  | cons l ls ih =>
    obtain ⟨hl, -⟩ := h l List.mem_cons_self
    by_cases hls : ls = []
    · subst hls
      rw [joinLines_singleton, hskip l _ hl rfl, splitOnce, if_pos (by simp [List.isPrefixOf])]
      simp
    · have ih' := ih (fun m hm => h m (List.mem_cons_of_mem l hm)) hls
      rw [joinLines_cons hls, List.append_assoc, List.cons_append, hskip l _ hl rfl, splitOnce,
        if_neg, ih']
      · rfl
      · -- the next line does not begin with a newline
        obtain ⟨m, ls, rfl⟩ := List.exists_cons_of_ne_nil hls
        obtain ⟨hm, hmne⟩ := h m (by simp)
        obtain ⟨c, m, rfl⟩ := List.exists_cons_of_ne_nil hmne
        rw [List.mem_cons, not_or] at hm
        have hhead : (joinLines ((c :: m) :: ls)).head? = some c := by
          cases ls with
          | nil => rfl
          | cons _ _ => rfl
        obtain ⟨rest, hrest⟩ : ∃ rest, joinLines ((c :: m) :: ls) = c :: rest := by
          cases hj : joinLines ((c :: m) :: ls) with
          | nil => simp [hj] at hhead
          | cons d rest =>
            rw [hj] at hhead
            obtain rfl := Option.some.inj hhead
            exact ⟨rest, rfl⟩
        rw [hrest]
        simp [List.isPrefixOf, hm.1]

/-! ### Decimal numbers -/

def decimal (n : ℕ) : Str := Nat.toDigits 10 n

theorem decimal_injective : Function.Injective decimal := by
  intro a b h
  rw [← Nat.ofDigitChars_ten_toDigits (n := a), ← Nat.ofDigitChars_ten_toDigits (n := b)]
  exact congrArg (Nat.ofDigitChars 10 · 0) h

theorem isDigit_of_mem_decimal {n : ℕ} {c : Char} (h : c ∈ decimal n) : c.isDigit :=
  Nat.isDigit_of_mem_toDigits (by decide) (by decide) h

theorem decimal_ne_nil (n : ℕ) : decimal n ≠ [] := Nat.toDigits_ne_nil

inductive ParseIntError where
  | empty
  | invalidDigit
  | posOverflow
  deriving DecidableEq, Repr

def ParseIntError.display : ParseIntError → String
  | .empty => "cannot parse integer from empty string"
  | .invalidDigit => "invalid digit found in string"
  | .posOverflow => "number too large to fit in target type"

def digitValue (c : Char) : ℕ := c.toNat - '0'.toNat

/-- The digits of a number of 64 bits. -/
def parseDigits : ℕ → Str → Except ParseIntError ℕ
  | acc, [] => .ok acc
  | acc, c :: t =>
    if ¬ c.isDigit then .error .invalidDigit
    else if 10 * acc + digitValue c < 2 ^ 64 then parseDigits (10 * acc + digitValue c) t
    else .error .posOverflow

/-- `parse::<u64>`. -/
def parseU64 : Str → Except ParseIntError ℕ
  | [] => .error .empty
  | '+' :: t => if t = [] then .error .invalidDigit else parseDigits 0 t
  | t => parseDigits 0 t

theorem parseDigits_eq {t : Str} (h : ∀ c ∈ t, c.isDigit) {acc : ℕ}
    (hlt : Nat.ofDigitChars 10 t acc < 2 ^ 64) :
    parseDigits acc t = .ok (Nat.ofDigitChars 10 t acc) := by
  induction t generalizing acc with
  | nil => rfl
  | cons c t ih =>
    have hge : ∀ (t : Str) (a : ℕ), a ≤ Nat.ofDigitChars 10 t a := by
      intro t
      induction t with
      | nil => exact fun a => le_rfl
      | cons d t ih =>
        intro a
        rw [Nat.ofDigitChars_cons]
        exact le_trans (by omega) (ih _)
    rw [Nat.ofDigitChars_cons] at hlt ⊢
    have hstep := hge t (10 * acc + (c.toNat - '0'.toNat))
    rw [parseDigits, if_neg (by simpa using h c List.mem_cons_self),
      if_pos (by unfold digitValue; omega), digitValue]
    exact ih (fun d hd => h d (List.mem_cons_of_mem c hd)) hlt

theorem parseU64_cons {c : Char} (hc : c ≠ '+') (t : Str) :
    parseU64 (c :: t) = parseDigits 0 (c :: t) := by
  rw [parseU64]
  · exact fun h => by cases h
  · intro t' h
    exact hc (List.cons.inj h).1

theorem parseU64_eq {t : Str} (h : ∀ c ∈ t, c.isDigit) (hne : t ≠ [])
    (hlt : Nat.ofDigitChars 10 t 0 < 2 ^ 64) :
    parseU64 t = .ok (Nat.ofDigitChars 10 t 0) := by
  obtain ⟨c, t, rfl⟩ := List.exists_cons_of_ne_nil hne
  have hc : c ≠ '+' := by
    rintro rfl
    exact absurd (h '+' List.mem_cons_self) (by decide)
  rw [parseU64_cons hc, parseDigits_eq h hlt]

/-- A number is read back from its decimal text. -/
theorem parseU64_decimal {n : ℕ} (h : n < 2 ^ 64) : parseU64 (decimal n) = .ok n := by
  have hvalue : Nat.ofDigitChars 10 (decimal n) 0 = n := Nat.ofDigitChars_ten_toDigits
  rw [parseU64_eq (fun c hc => isDigit_of_mem_decimal hc) (decimal_ne_nil n) (by rwa [hvalue]),
    hvalue]

theorem length_decimal_le {n : ℕ} (h : n < 2 ^ 64) : (decimal n).length ≤ 20 :=
  (Nat.length_toDigits_le_iff (by decide) (by decide)).mpr (by omega)

theorem isWhitespace_of_isDigit {c : Char} (h : c.isDigit) : isWhitespace c = false := by
  simp only [Char.isDigit, ge_iff_le, Bool.and_eq_true, decide_eq_true_eq] at h
  obtain ⟨h₁, h₂⟩ := h
  have h₁' : 48 ≤ c.toNat := by exact_mod_cast UInt32.le_iff_toNat_le.mp h₁
  have h₂' : c.toNat ≤ 57 := by exact_mod_cast UInt32.le_iff_toNat_le.mp h₂
  unfold isWhitespace
  generalize c.toNat = k at *
  interval_cases k <;> rfl

theorem solid_decimal (n : ℕ) : Solid (decimal n) :=
  fun _ hc => isWhitespace_of_isDigit (isDigit_of_mem_decimal hc)

theorem parseDigits_ok {t : Str} : ∀ {acc n : ℕ}, parseDigits acc t = .ok n →
    (∀ c ∈ t, c.isDigit) ∧ n = Nat.ofDigitChars 10 t acc := by
  induction t with
  | nil =>
    intro acc n h
    obtain rfl := Except.ok.inj h
    exact ⟨by simp, by simp⟩
  | cons c t ih =>
    intro acc n h
    rw [parseDigits] at h
    split_ifs at h with hc hlt
    obtain ⟨hdigits, hn⟩ := ih h
    rw [Nat.ofDigitChars_cons]
    exact ⟨List.forall_mem_cons.mpr ⟨hc, hdigits⟩, hn⟩

theorem digitChar_digitValue {c : Char} (h : c.isDigit) : digitValue c < 10 ∧
    Nat.digitChar (digitValue c) = c := by
  simp only [Char.isDigit, ge_iff_le, Bool.and_eq_true, decide_eq_true_eq] at h
  obtain ⟨h₁, h₂⟩ := h
  have h₁' : 48 ≤ c.toNat := by exact_mod_cast UInt32.le_iff_toNat_le.mp h₁
  have h₂' : c.toNat ≤ 57 := by exact_mod_cast UInt32.le_iff_toNat_le.mp h₂
  have hzero : '0'.toNat = 48 := rfl
  have hlt : digitValue c < 10 := by
    unfold digitValue
    omega
  refine ⟨hlt, Char.toNat_inj.mp ?_⟩
  rw [Nat.toNat_digitChar_of_lt_ten hlt]
  unfold digitValue
  omega

/-- Digits are appended to a number that is not zero. -/
theorem decimal_ofDigitChars {t : Str} (h : ∀ c ∈ t, c.isDigit) : ∀ {acc : ℕ}, 0 < acc →
    decimal (Nat.ofDigitChars 10 t acc) = decimal acc ++ t := by
  induction t with
  | nil => simp
  | cons c t ih =>
    intro acc hacc
    obtain ⟨hlt, hchar⟩ := digitChar_digitValue (h c List.mem_cons_self)
    have hpush : decimal (10 * acc + digitValue c) = decimal acc ++ [c] := by
      rw [decimal, ← Nat.toDigits_append_toDigits (by decide) hacc hlt, Nat.toDigits_of_lt_base hlt,
        hchar]
      rfl
    rw [Nat.ofDigitChars_cons]
    change decimal (Nat.ofDigitChars 10 t (10 * acc + digitValue c)) = _
    rw [ih (fun d hd => h d (List.mem_cons_of_mem c hd)) (by omega), hpush]
    simp

theorem head_decimal {n : ℕ} (h : 0 < n) : (decimal n).head? ≠ some '0' := by
  induction n using Nat.strongRecOn with
  | ind n ih =>
    rw [decimal, Nat.toDigits_eq_if (by decide)]
    split_ifs with hlt
    · simp
      omega
    · have := ih (n / 10) (by omega) (by omega)
      obtain ⟨c, t, ht⟩ := List.exists_cons_of_ne_nil (decimal_ne_nil (n / 10))
      rw [decimal] at ht this
      rw [ht] at this ⊢
      simpa using this

/-- A number without a sign or a zero in front. -/
def Unpadded (t : Str) : Prop := t = ['0'] ∨ t.head? ≠ some '0' ∧ t.head? ≠ some '+'

instance (t : Str) : Decidable (Unpadded t) := inferInstanceAs (Decidable (_ ∨ _))

theorem unpadded_decimal (n : ℕ) : Unpadded (decimal n) := by
  rcases Nat.eq_zero_or_pos n with rfl | hn
  · exact .inl rfl
  · refine .inr ⟨head_decimal hn, fun hplus => ?_⟩
    have := isDigit_of_mem_decimal (List.mem_of_head? hplus)
    cases this

/-- A number is written in one way without a sign or zeros in front. -/
theorem decimal_parseU64 {t : Str} {n : ℕ} (h : parseU64 t = .ok n) (ht : Unpadded t) :
    decimal n = t := by
  rcases ht with rfl | ⟨hzero, hplus⟩
  · obtain rfl : 0 = n := Except.ok.inj h
    rfl
  · cases t with
    | nil => cases h
    | cons c t =>
      have hc : c ≠ '+' := fun heq => hplus (by rw [heq]; rfl)
      rw [parseU64_cons hc] at h
      obtain ⟨hdigits, rfl⟩ := parseDigits_ok h
      obtain ⟨hlt, hchar⟩ := digitChar_digitValue (hdigits c List.mem_cons_self)
      have hpos : 0 < digitValue c := by
        rw [Nat.pos_iff_ne_zero]
        intro h0
        rw [h0] at hchar
        exact hzero (by rw [← hchar]; rfl)
      rw [Nat.ofDigitChars_cons]
      change decimal (Nat.ofDigitChars 10 t (10 * 0 + digitValue c)) = _
      rw [Nat.mul_zero, Nat.zero_add,
        decimal_ofDigitChars (fun d hd => hdigits d (List.mem_cons_of_mem c hd)) hpos,
        decimal, Nat.toDigits_of_lt_base hlt, hchar]
      rfl

end Siglog.Text

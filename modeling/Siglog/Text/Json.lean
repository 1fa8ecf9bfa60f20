import Siglog.Text.Hex

/-! JSON values, and the compact texts in which they are written. A text can be read in
one way only, also when more text follows it, and it is one line. -/

namespace Siglog.Text.Json

/-- A number of 64 bits without a sign, or the text of any other number. -/
inductive Number where
  | pos (n : UInt64)
  | other (text : Str)

inductive Value where
  | null
  | bool (b : Bool)
  | number (n : Number)
  | string (s : Str)
  | array (items : List Value)
  | object (fields : List (Str × Value))

namespace Value

def asStr : Value → Option Str
  | .string s => some s
  | _ => none

def asU64 : Value → Option UInt64
  | .number (.pos n) => some n
  | _ => none

def asArray : Value → Option (List Value)
  | .array items => some items
  | _ => none

def asObject : Value → Option (List (Str × Value))
  | .object fields => some fields
  | _ => none

/-- A field of an object. -/
def get (v : Value) (name : Str) : Option Value := v.asObject.bind fun fields => fields.lookup name

end Value

/-! ### Writing -/

/-- What comes after the backslash for the character of a code. -/
def escapeBody : ℕ → Str
  | 8 => ['b']
  | 9 => ['t']
  | 10 => ['n']
  | 12 => ['f']
  | 13 => ['r']
  | 34 => ['"']
  | 92 => ['\\']
  | n => ['u', '0', '0', Hex.digit (n / 16), Hex.digit (n % 16)]

/-- The characters that a string does not have as they are. -/
def Special (c : Char) : Prop := c.toNat < 32 ∨ c.toNat = 34 ∨ c.toNat = 92

instance (c : Char) : Decidable (Special c) := inferInstanceAs (Decidable (_ ∨ _))

def escapeChar (c : Char) : Str := if Special c then '\\' :: escapeBody c.toNat else [c]

/-- A string up to its second quote. -/
def escape (s : Str) : Str := s.flatMap escapeChar ++ ['"']

namespace Value

mutual

/-- `serde_json::to_vec`, before its characters are bytes. -/
def write : Value → Str
  | .null => ['n', 'u', 'l', 'l']
  | .bool true => ['t', 'r', 'u', 'e']
  | .bool false => ['f', 'a', 'l', 's', 'e']
  | .number (.pos n) => decimal n.toNat
  | .number (.other text) => text
  | .string s => '"' :: escape s
  | .array [] => ['[', ']']
  | .array (v :: items) => '[' :: v.write ++ writeItems items
  | .object [] => ['{', '}']
  | .object ((name, v) :: fields) =>
    '{' :: '"' :: escape name ++ ':' :: v.write ++ writeFields fields

/-- The items after the first, and the end of the array. -/
def writeItems : List Value → Str
  | [] => [']']
  | v :: items => ',' :: v.write ++ writeItems items

/-- The fields after the first, and the end of the object. -/
def writeFields : List (Str × Value) → Str
  | [] => ['}']
  | (name, v) :: fields => ',' :: '"' :: escape name ++ ':' :: v.write ++ writeFields fields

end

mutual

/-- All numbers are numbers of 64 bits without a sign. -/
def Plain : Value → Prop
  | .number (.other _) => False
  | .array items => PlainItems items
  | .object fields => PlainFields fields
  | _ => True

def PlainItems : List Value → Prop
  | [] => True
  | v :: items => v.Plain ∧ PlainItems items

def PlainFields : List (Str × Value) → Prop
  | [] => True
  | (_, v) :: fields => v.Plain ∧ PlainFields fields

end

end Value

namespace Value

theorem plainItems_iff {items : List Value} : PlainItems items ↔ ∀ v ∈ items, v.Plain := by
  induction items with
  | nil => simp [PlainItems]
  | cons v items ih => rw [PlainItems, ih, List.forall_mem_cons]

theorem plainFields_iff {fields : List (Str × Value)} :
    PlainFields fields ↔ ∀ field ∈ fields, field.2.Plain := by
  induction fields with
  | nil => simp [PlainFields]
  | cons field fields ih => rw [PlainFields, ih, List.forall_mem_cons]

/-- A string, a number of 64 bits, or a list of strings. -/
inductive Flat : Value → Prop where
  | string (s : Str) : Flat (.string s)
  | number (n : UInt64) : Flat (.number (.pos n))
  | strings (l : List Str) : Flat (.array (l.map .string))

theorem Flat.plain {v : Value} (h : v.Flat) : v.Plain := by
  cases h with
  | string s => trivial
  | number n => trivial
  | strings l =>
    rw [Plain, plainItems_iff]
    intro v hv
    obtain ⟨s, -, rfl⟩ := List.mem_map.mp hv
    trivial

end Value

/-! ### Strings -/

/-- No escape is the beginning of another one. -/
theorem escapeBody_apart {n m : ℕ} (hn : n < 32 ∨ n = 34 ∨ n = 92) (hm : m < 32 ∨ m = 34 ∨ m = 92)
    (h : escapeBody n <+: escapeBody m) : n = m := by
  have hall : ∀ n m : Fin 93, (n.val < 32 ∨ n.val = 34 ∨ n.val = 92) ∧
      (m.val < 32 ∨ m.val = 34 ∨ m.val = 92) ∧
      (escapeBody n.val).isPrefixOf (escapeBody m.val) = true → n.val = m.val := by decide +kernel
  exact hall ⟨n, by omega⟩ ⟨m, by omega⟩ ⟨hn, hm, List.isPrefixOf_iff_prefix.mpr h⟩

theorem escapeChar_cancel {c d : Char} {s t : Str} (h : escapeChar c ++ s = escapeChar d ++ t) :
    c = d ∧ s = t := by
  have hback : Special '\\' := by decide
  by_cases hc : Special c
  · by_cases hd : Special d
    · simp only [escapeChar, if_pos hc, if_pos hd, List.cons_append, List.cons.injEq, true_and] at h
      have hsame : c.toNat = d.toNat := by
        have hprefix : escapeBody c.toNat <+: escapeBody d.toNat ++ t := ⟨s, h⟩
        rcases List.prefix_or_prefix_of_prefix hprefix (List.prefix_append _ _) with hp | hp
        · exact escapeBody_apart hc hd hp
        · exact (escapeBody_apart hd hc hp).symm
      rw [hsame] at h
      exact ⟨Char.toNat_inj.mp hsame, List.append_cancel_left h⟩
    · simp only [escapeChar, if_pos hc, if_neg hd, List.cons_append, List.cons.injEq] at h
      exact absurd (h.1 ▸ hback) hd
  · by_cases hd : Special d
    · simp only [escapeChar, if_neg hc, if_pos hd, List.cons_append, List.cons.injEq] at h
      exact absurd (h.1 ▸ hback) hc
    · simp only [escapeChar, if_neg hc, if_neg hd, List.cons_append, List.nil_append,
        List.cons.injEq] at h
      exact h

/-- An escape does not begin with a quote. -/
theorem escapeChar_ne_quote {c : Char} {s t : Str} : escapeChar c ++ s ≠ '"' :: t := by
  intro h
  rw [escapeChar] at h
  split_ifs at h with hc
  · have hne : '\\' ≠ '"' := by decide
    exact hne (List.cons.inj h).1
  · obtain rfl := (List.cons.inj h).1
    exact hc (by decide)

theorem escape_cancel {a b s t : Str} (h : escape a ++ s = escape b ++ t) : a = b ∧ s = t := by
  simp only [escape, List.append_assoc, List.cons_append, List.nil_append] at h
  induction a generalizing b with
  | nil =>
    cases b with
    | nil => exact ⟨rfl, (List.cons.inj h).2⟩
    | cons d b =>
      rw [List.flatMap_cons, List.append_assoc] at h
      exact absurd h.symm escapeChar_ne_quote
  | cons c a ih =>
    cases b with
    | nil =>
      rw [List.flatMap_cons, List.append_assoc] at h
      exact absurd h escapeChar_ne_quote
    | cons d b =>
      rw [List.flatMap_cons, List.flatMap_cons, List.append_assoc, List.append_assoc] at h
      obtain ⟨rfl, hrest⟩ := escapeChar_cancel h
      obtain ⟨rfl, hs⟩ := ih hrest
      exact ⟨rfl, hs⟩

/-! ### Values -/

/-- A text that does not go on with a digit. -/
def Clear (s : Str) : Prop := ∀ c, s.head? = some c → c.isDigit = false

theorem clear_cons {c : Char} (h : c.isDigit = false) (s : Str) : Clear (c :: s) := by
  rintro _ ⟨⟩
  exact h

theorem takeWhile_decimal {n : ℕ} {s : Str} (hs : Clear s) :
    (decimal n ++ s).takeWhile Char.isDigit = decimal n := by
  rw [List.takeWhile_append_of_pos fun c hc => isDigit_of_mem_decimal hc]
  cases s with
  | nil => simp
  | cons c s => rw [List.takeWhile_cons_of_neg (by rw [hs c rfl]; decide), List.append_nil]

theorem decimal_cancel {n m : ℕ} {s t : Str} (hs : Clear s) (ht : Clear t)
    (h : decimal n ++ s = decimal m ++ t) :
    n = m ∧ s = t := by
  have hn := takeWhile_decimal (n := n) hs
  rw [h, takeWhile_decimal ht] at hn
  obtain rfl := decimal_injective hn
  exact ⟨rfl, List.append_cancel_left h⟩

/-- What the first character of a text tells of the value. -/
def leads (c : Char) : ℕ := if c.isDigit then 0 else c.toNat

def Value.kind : Value → ℕ
  | .null => 110
  | .bool true => 116
  | .bool false => 102
  | .number _ => 0
  | .string _ => 34
  | .array _ => 91
  | .object _ => 123

namespace Value

theorem write_leads {v : Value} (h : v.Plain) : ∃ c rest, v.write = c :: rest ∧
    leads c = v.kind := by
  cases v with
  | null => exact ⟨_, _, by rw [write], rfl⟩
  | bool b =>
    cases b with
    | true => exact ⟨_, _, by rw [write], rfl⟩
    | false => exact ⟨_, _, by rw [write], rfl⟩
  | number n =>
    cases n with
    | pos n =>
      obtain ⟨c, rest, heq⟩ := List.exists_cons_of_ne_nil (decimal_ne_nil n.toNat)
      refine ⟨c, rest, by rw [write, heq], if_pos ?_⟩
      exact isDigit_of_mem_decimal (heq ▸ List.mem_cons_self)
    | other text => exact absurd h (by simp [Plain])
  | string s => exact ⟨_, _, by rw [write], rfl⟩
  | array items =>
    cases items with
    | nil => exact ⟨_, _, by rw [write], rfl⟩
    | cons v items => exact ⟨_, _, by rw [write]; rfl, rfl⟩
  | object fields =>
    cases fields with
    | nil => exact ⟨_, _, by rw [write], rfl⟩
    | cons field fields => exact ⟨_, _, by rw [write]; rfl, rfl⟩

theorem kind_eq {v w : Value} (hv : v.Plain) (hw : w.Plain) {s t : Str}
    (h : v.write ++ s = w.write ++ t) : v.kind = w.kind := by
  obtain ⟨c, rest, hc, hk⟩ := write_leads hv
  obtain ⟨d, rest', hd, hk'⟩ := write_leads hw
  rw [hc, hd] at h
  rw [← hk, ← hk', (List.cons.inj h).1]

/-- No value begins like the end of an array. -/
theorem write_ne_bracket {v : Value} (hv : v.Plain) {s t : Str} : v.write ++ s ≠ ']' :: t := by
  intro h
  obtain ⟨c, rest, hc, hk⟩ := write_leads hv
  rw [hc] at h
  obtain rfl := (List.cons.inj h).1
  have hne : ∀ v : Value, leads ']' ≠ v.kind := by
    intro v
    cases v with
    | bool b => cases b <;> decide
    | null => decide
    | number n => exact (by decide : leads ']' ≠ 0)
    | string s => exact (by decide : leads ']' ≠ 34)
    | array items => exact (by decide : leads ']' ≠ 91)
    | object fields => exact (by decide : leads ']' ≠ 123)
  exact hne v hk

theorem clear_writeItems (items : List Value) (s : Str) : Clear (writeItems items ++ s) := by
  cases items with
  | nil => rw [writeItems]; exact clear_cons (by decide) _
  | cons v items => rw [writeItems]; exact clear_cons (by decide) _

theorem clear_writeFields (fields : List (Str × Value)) (s : Str) :
    Clear (writeFields fields ++ s) := by
  cases fields with
  | nil => rw [writeFields]; exact clear_cons (by decide) _
  | cons field fields => rw [writeFields]; exact clear_cons (by decide) _

mutual

/-- The text of a value ends where the value does. -/
theorem write_cancel (v w : Value) {s t : Str} (hv : v.Plain) (hw : w.Plain) (hs : Clear s)
    (ht : Clear t) (h : v.write ++ s = w.write ++ t) : v = w ∧ s = t := by
  have hkind := kind_eq hv hw h
  match v, w with
  | .null, .null => exact ⟨rfl, List.append_cancel_left h⟩
  | .bool true, .bool true => exact ⟨rfl, List.append_cancel_left h⟩
  | .bool false, .bool false => exact ⟨rfl, List.append_cancel_left h⟩
  | .number (.pos n), .number (.pos m) =>
    rw [write, write] at h
    obtain ⟨hnm, hst⟩ := decimal_cancel hs ht h
    obtain rfl := UInt64.toNat_inj.mp hnm
    exact ⟨rfl, hst⟩
  | .string a, .string b =>
    rw [write, write] at h
    obtain ⟨rfl, hst⟩ := escape_cancel (List.cons.inj h).2
    exact ⟨rfl, hst⟩
  | .array [], .array [] => exact ⟨rfl, List.append_cancel_left h⟩
  | .array [], .array (y :: ys) =>
    simp only [write, List.cons_append, List.nil_append, List.append_assoc, List.cons.injEq,
      true_and] at h
    rw [Plain, PlainItems] at hw
    exact absurd h.symm (write_ne_bracket hw.1)
  | .array (x :: xs), .array [] =>
    simp only [write, List.cons_append, List.nil_append, List.append_assoc, List.cons.injEq,
      true_and] at h
    rw [Plain, PlainItems] at hv
    exact absurd h (write_ne_bracket hv.1)
  | .array (x :: xs), .array (y :: ys) =>
    simp only [write, List.cons_append, List.append_assoc, List.cons.injEq, true_and] at h
    rw [Plain, PlainItems] at hv hw
    obtain ⟨rfl, hrest⟩ :=
      write_cancel x y hv.1 hw.1 (clear_writeItems xs s) (clear_writeItems ys t) h
    obtain ⟨rfl, hst⟩ := writeItems_cancel xs ys hv.2 hw.2 hrest
    exact ⟨rfl, hst⟩
  | .object [], .object [] => exact ⟨rfl, List.append_cancel_left h⟩
  | .object [], .object ((b, y) :: gs) =>
    simp only [write, List.cons_append, List.nil_append, List.cons.injEq, true_and] at h
    exact absurd h.1 (by decide)
  | .object ((a, x) :: fs), .object [] =>
    simp only [write, List.cons_append, List.nil_append, List.cons.injEq, true_and] at h
    exact absurd h.1 (by decide)
  | .object ((a, x) :: fs), .object ((b, y) :: gs) =>
    simp only [write, List.cons_append, List.append_assoc, List.cons.injEq, true_and] at h
    rw [Plain, PlainFields] at hv hw
    obtain ⟨rfl, hvalue⟩ := escape_cancel h
    obtain ⟨rfl, hrest⟩ := write_cancel x y hv.1 hw.1 (clear_writeFields fs s)
      (clear_writeFields gs t) (List.cons.inj hvalue).2
    obtain ⟨rfl, hst⟩ := writeFields_cancel fs gs hv.2 hw.2 hrest
    exact ⟨rfl, hst⟩

theorem writeItems_cancel (xs ys : List Value) {s t : Str} (hxs : PlainItems xs)
    (hys : PlainItems ys) (h : writeItems xs ++ s = writeItems ys ++ t) : xs = ys ∧ s = t := by
  match xs, ys with
  | [], [] => exact ⟨rfl, List.append_cancel_left h⟩
  | x :: xs, y :: ys =>
    simp only [writeItems, List.cons_append, List.append_assoc, List.cons.injEq, true_and] at h
    rw [PlainItems] at hxs hys
    obtain ⟨rfl, hrest⟩ :=
      write_cancel x y hxs.1 hys.1 (clear_writeItems xs s) (clear_writeItems ys t) h
    obtain ⟨rfl, hst⟩ := writeItems_cancel xs ys hxs.2 hys.2 hrest
    exact ⟨rfl, hst⟩

theorem writeFields_cancel (fs gs : List (Str × Value)) {s t : Str} (hfs : PlainFields fs)
    (hgs : PlainFields gs) (h : writeFields fs ++ s = writeFields gs ++ t) : fs = gs ∧ s = t := by
  match fs, gs with
  | [], [] => exact ⟨rfl, List.append_cancel_left h⟩
  | (a, x) :: fs, (b, y) :: gs =>
    simp only [writeFields, List.cons_append, List.append_assoc, List.cons.injEq, true_and] at h
    rw [PlainFields] at hfs hgs
    obtain ⟨rfl, hvalue⟩ := escape_cancel h
    obtain ⟨rfl, hrest⟩ := write_cancel x y hfs.1 hgs.1 (clear_writeFields fs s)
      (clear_writeFields gs t) (List.cons.inj hvalue).2
    obtain ⟨rfl, hst⟩ := writeFields_cancel fs gs hfs.2 hgs.2 hrest
    exact ⟨rfl, hst⟩

end

/-- A value is told by its text. -/
theorem write_injective {v w : Value} (hv : v.Plain) (hw : w.Plain) (h : v.write = w.write) :
    v = w := by
  have hclear : Clear [] := fun c hc => by cases hc
  exact (write_cancel v w hv hw hclear hclear (congrArg (· ++ []) h)).1

end Value

/-! ### Lines -/

/-- All characters of a text are printed. -/
def Printed (s : Str) : Prop := ∀ c ∈ s, 32 ≤ c.toNat

instance (s : Str) : Decidable (Printed s) := inferInstanceAs (Decidable (∀ _ ∈ s, _))

theorem printed_append {s t : Str} (hs : Printed s) (ht : Printed t) : Printed (s ++ t) :=
  List.forall_mem_append.mpr ⟨hs, ht⟩

theorem printed_cons {c : Char} {s : Str} (hc : 32 ≤ c.toNat) (hs : Printed s) : Printed (c :: s) :=
  List.forall_mem_cons.mpr ⟨hc, hs⟩

theorem printed_escape (s : Str) : Printed (escape s) := by
  have hbody : ∀ n : Fin 93, Printed (escapeBody n.val) := by decide +kernel
  refine printed_append (fun c hc => ?_) (by decide)
  obtain ⟨d, -, hd⟩ := List.mem_flatMap.mp hc
  rw [escapeChar] at hd
  split_ifs at hd with hspecial
  · have hlt : d.toNat < 93 := by unfold Special at hspecial; omega
    exact printed_cons (by decide) (hbody ⟨d.toNat, hlt⟩) c hd
  · obtain rfl := List.mem_singleton.mp hd
    exact not_lt.mp (not_or.mp hspecial).1

theorem printed_decimal (n : ℕ) : Printed (decimal n) := by
  intro c hc
  have hdigit := isDigit_of_mem_decimal hc
  simp only [Char.isDigit, ge_iff_le, Bool.and_eq_true, decide_eq_true_eq] at hdigit
  exact le_trans (by decide) hdigit.1

theorem printed_field {c : Char} (hc : 32 ≤ c.toNat) (name : Str) {s : Str} (hs : Printed s) :
    Printed (c :: '"' :: escape name ++ ':' :: s) :=
  printed_append (printed_cons hc (printed_cons (by decide) (printed_escape name)))
    (printed_cons (by decide) hs)

namespace Value

mutual

theorem printed_write (v : Value) (h : v.Plain) : Printed v.write := by
  match v with
  | .null => rw [write]; decide
  | .bool true => rw [write]; decide
  | .bool false => rw [write]; decide
  | .number (.pos n) => rw [write]; exact printed_decimal n.toNat
  | .string s => rw [write]; exact printed_cons (by decide) (printed_escape s)
  | .array [] => rw [write]; decide
  | .array (v :: items) =>
    rw [Plain, PlainItems] at h
    rw [write]
    exact printed_append (printed_cons (by decide) (printed_write v h.1))
      (printed_writeItems items h.2)
  | .object [] => rw [write]; decide
  | .object ((name, v) :: fields) =>
    rw [Plain, PlainFields] at h
    rw [write]
    exact printed_append (printed_field (by decide) name (printed_write v h.1))
      (printed_writeFields fields h.2)

theorem printed_writeItems (items : List Value) (h : PlainItems items) :
    Printed (writeItems items) := by
  match items with
  | [] => rw [writeItems]; decide
  | v :: items =>
    rw [PlainItems] at h
    rw [writeItems]
    exact printed_append (printed_cons (by decide) (printed_write v h.1))
      (printed_writeItems items h.2)

theorem printed_writeFields (fields : List (Str × Value)) (h : PlainFields fields) :
    Printed (writeFields fields) := by
  match fields with
  | [] => rw [writeFields]; decide
  | (name, v) :: fields =>
    rw [PlainFields] at h
    rw [writeFields]
    exact printed_append (printed_field (by decide) name (printed_write v h.1))
      (printed_writeFields fields h.2)

end

/-- The text of a value is not empty, and has no line feed and no carriage return. -/
theorem utf8_write_line {v : Value} (h : v.Plain) : utf8 v.write ≠ [] ∧
    ∀ b ∈ utf8 v.write, 32 ≤ b.toNat := by
  refine ⟨fun hnil => ?_, fun b hb => ?_⟩
  · obtain ⟨c, rest, hc, -⟩ := write_leads h
    rw [hc, utf8, List.flatMap_cons] at hnil
    exact String.utf8EncodeChar_ne_nil (List.append_eq_nil_iff.mp hnil).1
  · by_contra hlow
    obtain ⟨c, hc, heq⟩ := mem_of_mem_utf8 hb (by omega)
    exact hlow (heq ▸ printed_write v h c hc)

end Value

end Siglog.Text.Json

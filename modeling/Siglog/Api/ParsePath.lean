import Siglog.Api.Paths

/-! Parsing of the names of stored objects. What the formatter writes is read back as what
it was, up to the largest index. The parser also reads other spellings: zeros in front of a
level or a width, and a first group of zeros. -/

namespace Siglog.Api

open Text (Str decimal parseU64 parseU64_eq stripPrefix splitOnce digitValue digitChar_digitValue
  Unpadded unpadded_decimal decimal_parseU64 isDigit_of_mem_decimal)

def invalidPath {α : Type} (e : String) : Except (Fault Error) α := .error (.err (.invalidPath e))

/-- A level, from 0 to 63. -/
def parseTileLevel (level : Str) : Except (Fault Error) ℕ :=
  if level = [] ∨ ¬ level.all Char.isDigit then invalidPath "invalid tile level"
  else
    match parseU64 level with
    | .error _ => invalidPath "invalid tile level"
    | .ok l => if l > 63 then invalidPath "tile level must be 0-63" else .ok l

/-- The width of a partial tile, from 1 to 255. -/
def parsePartial (partialStr : Str) : Except (Fault Error) ℕ :=
  if partialStr = [] ∨ ¬ partialStr.all Char.isDigit then invalidPath "invalid partial size"
  else
    match parseU64 partialStr with
    | .error _ => invalidPath "invalid partial size"
    | .ok part =>
      if 1 ≤ part ∧ part < tileWidth then .ok part else invalidPath "partial size must be 1-255"

/-- The index part and the width. -/
def splitPartial (indexStr : Str) : Except (Fault Error) (Str × ℕ) :=
  match splitOnce ".p/".toList indexStr with
  | some (indexPart, partialStr) => do .ok (indexPart, ← parsePartial partialStr)
  | none => .ok (indexStr, 0)

/-- All components but the last start with an x. -/
def checkPrefixes : List Str → Except (Fault Error) Unit
  | [] => .ok ()
  | [part] =>
    if part.head? = some 'x' then invalidPath "last index component should not have x prefix"
    else .ok ()
  | part :: parts =>
    if part.head? = some 'x' then checkPrefixes parts else invalidPath "invalid index format"

/-- One round of the loop over the components. A component of another length in bytes than in
characters is refused by the same check for its digits. -/
def pushGroup (index : ℕ) (part : Str) : Except (Fault Error) ℕ :=
  let digits := (stripPrefix ['x'] part).getD part
  if digits.length ≠ 3 ∨
    ¬ digits.all Char.isDigit then invalidPath "each index component must be 3 digits"
  else
    match parseU64 digits with
    | .error _ => invalidPath "invalid index digits"
    | .ok n =>
      if n ≥ 1000 then invalidPath "index component must be < 1000"
      else do
        if index > (← checkedSub (2 ^ 64 - 1) n) / 1000 then invalidPath "index overflow"
        else checkedAdd (← checkedMul index 1000) n

/-- An index with the width of a partial tile, which is 0 for a full one. -/
def parseTileIndex (indexStr : Str) : Except (Fault Error) (ℕ × ℕ) := do
  let (indexPart, part) ← splitPartial indexStr
  let parts := indexPart.splitOn '/'
  checkPrefixes parts
  let index ← parts.foldlM pushGroup 0
  .ok (index, part)

def parseTilePath (level index : Str) : Except (Fault Error) (ℕ × ℕ × ℕ) := do
  let l ← parseTileLevel level
  let (i, p) ← parseTileIndex index
  .ok (l, i, p)

/-! ### Groups -/

/-- The number that groups of three digits stand for, from the most significant one on. -/
def groupsValue (acc : ℕ) (groups : List ℕ) : ℕ := groups.foldl (fun acc g => acc * 1000 + g) acc

/-- Groups as they are written, the last one on its own. -/
def groupPath (groups : List ℕ) (last : ℕ) : Str :=
  groups.flatMap (fun g => 'x' :: digits3 g ++ ['/']) ++ digits3 last

/-- The components of a path of groups. -/
def components (groups : List ℕ) (last : ℕ) : List Str :=
  groups.map (fun g => 'x' :: digits3 g) ++ [digits3 last]

theorem isDigit_digitChar {d : ℕ} (h : d < 10) : (Nat.digitChar d).isDigit := by
  interval_cases d <;> rfl

theorem isDigit_digits3 {n : ℕ} {c : Char} (h : c ∈ digits3 n) : c.isDigit := by
  simp only [digits3, List.mem_cons, List.not_mem_nil, or_false] at h
  rcases h with rfl | rfl | rfl <;> exact isDigit_digitChar (by omega)

theorem not_mem_digits3 {c : Char} (hc : c.isDigit = false) (n : ℕ) : c ∉ digits3 n := by
  intro h
  rw [isDigit_digits3 h] at hc
  cases hc

theorem ofDigitChars_digits3 {n : ℕ} (h : n < 1000) : Nat.ofDigitChars 10 (digits3 n) 0 = n := by
  have hzero : '0'.toNat = 48 := rfl
  simp only [digits3, Nat.ofDigitChars_cons, Nat.ofDigitChars_nil]
  rw [Nat.toNat_digitChar_of_lt_ten (by omega), Nat.toNat_digitChar_of_lt_ten (by omega),
    Nat.toNat_digitChar_of_lt_ten (by omega)]
  omega

/-- Three digits are a number below a thousand. -/
theorem exists_digits3 {t : Str} (hlen : t.length = 3) (h : ∀ c ∈ t, c.isDigit) : ∃ n, n < 1000 ∧
    t = digits3 n := by
  obtain ⟨a, b, c, rfl⟩ := List.length_eq_three.mp hlen
  obtain ⟨ha, hca⟩ := digitChar_digitValue (h a (by simp))
  obtain ⟨hb, hcb⟩ := digitChar_digitValue (h b (by simp))
  obtain ⟨hc, hcc⟩ := digitChar_digitValue (h c (by simp))
  refine ⟨100 * digitValue a + 10 * digitValue b + digitValue c, by omega, ?_⟩
  rw [digits3,
    show (100 * digitValue a + 10 * digitValue b + digitValue c) / 100 % 10 = digitValue a by omega,
    show (100 * digitValue a + 10 * digitValue b + digitValue c) / 10 % 10 = digitValue b by omega,
    show (100 * digitValue a + 10 * digitValue b + digitValue c) % 10 = digitValue c by
      omega, hca, hcb, hcc]

theorem splitOn_groupPath (groups : List ℕ) (last : ℕ) :
    (groupPath groups last).splitOn '/' = components groups last := by
  have hjoin : ∀ groups, ['/'].intercalate (components groups last) = groupPath groups last := by
    intro groups
    induction groups with
    | nil => simp [components, groupPath]
    | cons g groups ih =>
      rw [components, List.map_cons, List.cons_append, List.intercalate_cons_of_ne_nil (by simp),
        ← components, ih]
      simp [groupPath]
  rw [← hjoin, List.splitOn_intercalate]
  · intro part hpart
    rcases List.mem_append.mp hpart with h | h
    · obtain ⟨g, -, rfl⟩ := List.mem_map.mp h
      simp [not_mem_digits3 (c := '/') rfl g]
    · obtain rfl := List.mem_singleton.mp h
      exact not_mem_digits3 rfl last
  · simp [components]

theorem groupPath_splitOn {t : Str} {groups : List ℕ} {last : ℕ}
    (h : t.splitOn '/' = components groups last) :
    t = groupPath groups last := by
  have hjoin : ['/'].intercalate (t.splitOn '/') = t := List.intercalate_splitOn '/'
  rw [← hjoin, h, ← splitOn_groupPath, List.intercalate_splitOn]

theorem dot_not_mem_groupPath (groups : List ℕ) (last : ℕ) : '.' ∉ groupPath groups last := by
  rw [groupPath, List.mem_append, List.mem_flatMap]
  rintro (⟨g, -, h⟩ | h)
  · simp [not_mem_digits3 (c := '.') rfl g] at h
  · exact not_mem_digits3 rfl last h

/-! ### The loop -/

theorem le_groupsValue (acc : ℕ) (groups : List ℕ) : acc ≤ groupsValue acc groups := by
  induction groups generalizing acc with
  | nil => exact le_rfl
  | cons g groups ih => exact le_trans (by omega) (ih (acc * 1000 + g))

/-- A round adds a group, exactly when the number stays in its range. -/
theorem pushGroup_eq {acc g : ℕ} (hg : g < 1000) {part : Str}
    (hpart : part = digits3 g ∨ part = 'x' :: digits3 g) :
    pushGroup acc part =
      if acc * 1000 + g < 2 ^ 64 then .ok (acc * 1000 + g) else invalidPath "index overflow" := by
  have hdigits : (stripPrefix ['x'] part).getD part = digits3 g := by
    rcases hpart with rfl | rfl
    · have hx : ¬ (['x'].isPrefixOf (digits3 g) = true) := by
        rw [List.isPrefixOf_iff_prefix]
        intro h
        exact not_mem_digits3 rfl g (h.subset List.mem_cons_self)
      rw [stripPrefix, if_neg hx, Option.getD_none]
    · exact congrArg (Option.getD · _) (Text.stripPrefix_append ['x'] (digits3 g))
  have hall : (digits3 g).all Char.isDigit = true :=
    List.all_eq_true.mpr fun c hc => isDigit_digits3 hc
  have hparse : parseU64 (digits3 g) = .ok g := by
    rw [parseU64_eq (fun c hc => isDigit_digits3 hc) (by simp [digits3])
      (by rw [ofDigitChars_digits3 hg]; omega),
      ofDigitChars_digits3 hg]
  have hsub : checkedSub (2 ^ 64 - 1) g = (.ok (2 ^ 64 - 1 - g) : Except (Fault Error) ℕ) :=
    checkedSub_ok (by omega)
  rw [pushGroup]
  simp only [hdigits, hall, hparse, hsub]
  rw [if_neg (by simp [digits3]), if_neg (by omega)]
  change (if acc > (2 ^ 64 - 1 - g) / 1000 then _ else _) = _
  by_cases h : acc * 1000 + g < 2 ^ 64
  · have hlt : acc * 1000 < 2 ^ 64 := lt_of_le_of_lt (Nat.le_add_right _ g) h
    have hmul : checkedMul acc 1000 = (.ok (acc * 1000) : Except (Fault Error) ℕ) :=
      checkedMul_ok hlt
    rw [if_neg (by omega), if_pos h, hmul]
    exact checkedAdd_ok h
  · rw [if_pos (by omega), if_neg h]

/-- A component whose digits pass the check is a group. -/
theorem exists_group {part : Str} (hlen : ((stripPrefix ['x'] part).getD part).length = 3)
    (h : ∀ c ∈ (stripPrefix ['x'] part).getD part, c.isDigit) :
    ∃ g, g < 1000 ∧ (part = digits3 g ∨ part = 'x' :: digits3 g) := by
  obtain ⟨g, hg, heq⟩ := exists_digits3 hlen h
  refine ⟨g, hg, ?_⟩
  rw [stripPrefix] at heq
  split_ifs at heq with hx
  · obtain ⟨t, rfl⟩ := List.isPrefixOf_iff_prefix.mp hx
    exact .inr (congrArg ('x' :: ·) heq)
  · exact .inl heq

/-- What a round accepts is a group. -/
theorem pushGroup_ok {acc n : ℕ} {part : Str} (h : pushGroup acc part = .ok n) :
    ∃ g, g < 1000 ∧ (part = digits3 g ∨ part = 'x' :: digits3 g) := by
  rw [pushGroup] at h
  split_ifs at h with hdigits
  · cases h
  simp only [not_or, not_not, List.all_eq_true] at hdigits
  exact exists_group hdigits.1 hdigits.2

theorem foldlM_components {groups : List ℕ} {last : ℕ} (hgroups : ∀ g ∈ groups, g < 1000)
    (hlast : last < 1000) (acc : ℕ) : (components groups last).foldlM pushGroup acc =
      if groupsValue acc (groups ++ [last]) < 2 ^ 64 then .ok (groupsValue acc (groups ++ [last]))
      else invalidPath "index overflow" := by
  induction groups generalizing acc with
  | nil =>
    change pushGroup acc (digits3 last) >>= _ = _
    rw [pushGroup_eq hlast (.inl rfl)]
    change _ = if acc * 1000 + last < 2 ^ 64 then _ else _
    split_ifs <;> rfl
  | cons g groups ih =>
    change pushGroup acc ('x' :: digits3 g) >>=
      (fun acc => (components groups last).foldlM pushGroup acc) = _
    rw [pushGroup_eq (hgroups g List.mem_cons_self) (.inr rfl)]
    have hle := le_groupsValue (acc * 1000 + g) (groups ++ [last])
    change _ = if groupsValue (acc * 1000 + g) (groups ++ [last]) < 2 ^ 64 then _ else _
    split_ifs with hacc hvalue hvalue
    · exact (ih (fun g hg => hgroups g (List.mem_cons_of_mem _ hg)) _).trans (if_pos hvalue)
    · exact (ih (fun g hg => hgroups g (List.mem_cons_of_mem _ hg)) _).trans (if_neg hvalue)
    · omega
    · rfl

theorem checkPrefixes_components (groups : List ℕ) (last : ℕ) :
    checkPrefixes (components groups last) = .ok () := by
  induction groups with
  | nil =>
    have hx : (digits3 last).head? ≠ some 'x' :=
      fun h => not_mem_digits3 rfl last (List.mem_of_head? h)
    exact if_neg hx
  | cons g groups ih =>
    rw [components, List.map_cons, List.cons_append, checkPrefixes]
    · exact (if_pos rfl).trans ih
    · intro h
      simp at h

/-- What the two loops accept are groups. -/
theorem exists_components {parts : List Str} {acc n : ℕ} (hne : parts ≠ [])
    (hcheck : checkPrefixes parts = .ok ()) (h : parts.foldlM pushGroup acc = .ok n) :
    ∃ groups last, (∀ g ∈ groups, g < 1000) ∧ last < 1000 ∧ parts = components groups last := by
  induction parts generalizing acc with
  | nil => exact absurd rfl hne
  | cons part parts ih =>
    rw [List.foldlM_cons] at h
    cases hpush : pushGroup acc part with
    | error e =>
      rw [hpush] at h
      cases h
    | ok acc' =>
      rw [hpush] at h
      obtain ⟨g, hg, hpart⟩ := pushGroup_ok hpush
      by_cases hnil : parts = []
      · subst hnil
        rw [checkPrefixes] at hcheck
        split_ifs at hcheck with hx
        · cases hcheck
        · refine ⟨[], g, by simp, hg, ?_⟩
          rcases hpart with rfl | rfl
          · rfl
          · exact absurd rfl hx
      · rw [checkPrefixes] at hcheck
        · split_ifs at hcheck with hx
          · obtain ⟨groups, last, hgroups, hlast, rfl⟩ := ih hnil hcheck h
            refine ⟨g :: groups, last, List.forall_mem_cons.mpr ⟨hg, hgroups⟩, hlast, ?_⟩
            rcases hpart with rfl | rfl
            · exact absurd (List.mem_of_head? hx) (not_mem_digits3 rfl g)
            · rfl
          · cases hcheck
        · exact hnil

/-! ### Partial widths -/

theorem parsePartial_ok {t : Str} {p : ℕ} (h : parsePartial t = .ok p) :
    parseU64 t = .ok p ∧ (∀ c ∈ t, c.isDigit) ∧ 0 < p ∧ p < tileWidth := by
  rw [parsePartial] at h
  split_ifs at h with hdigits
  · cases h
  simp only [not_or, not_not, List.all_eq_true] at hdigits
  split at h
  · cases h
  · rename_i part hpart
    split_ifs at h with hrange
    · obtain rfl := Except.ok.inj h
      exact ⟨hpart, hdigits.2, hrange.1, hrange.2⟩
    · cases h

theorem parsePartial_decimal {p : ℕ} (hpos : 0 < p) (h : p < tileWidth) :
    parsePartial (decimal p) = .ok p := by
  have hall : (decimal p).all Char.isDigit = true :=
    List.all_eq_true.mpr fun c hc => isDigit_of_mem_decimal hc
  rw [tileWidth_eq] at h
  rw [parsePartial, if_neg (by simp [Text.decimal_ne_nil, hall]), Text.parseU64_decimal (by omega)]
  exact if_pos ⟨hpos, by rwa [tileWidth_eq]⟩

theorem splitOnce_none {s : Str} (h : '.' ∉ s) : splitOnce ".p/".toList s = none := by
  induction s with
  | nil => rfl
  | cons c s ih =>
    simp only [List.mem_cons, not_or] at h
    obtain ⟨hc, hs⟩ := h
    rw [splitOnce, ih hs, if_neg]
    · rfl
    · rw [List.isPrefixOf_iff_prefix]
      rintro ⟨t, ht⟩
      exact hc (List.cons.inj ht).1

theorem splitOnce_suffix {a : Str} (h : '.' ∉ a) (t : Str) :
    splitOnce ".p/".toList (a ++ ".p/".toList ++ t) = some (a, t) := by
  induction a with
  | nil => simp [splitOnce]
  | cons c a ih =>
    simp only [List.mem_cons, not_or] at h
    obtain ⟨hc, ha⟩ := h
    rw [List.cons_append, List.cons_append, splitOnce, ih ha, if_neg]
    · rfl
    · rw [List.isPrefixOf_iff_prefix]
      rintro ⟨t, ht⟩
      exact hc (List.cons.inj ht).1

/-- The texts of an index and a width, with the value they are read as. -/
inductive Spells (groups : List ℕ) (last : ℕ) : Str → ℕ → Prop where
  | full : Spells groups last (groupPath groups last) 0
  | part (t : Str) (p : ℕ) (h : parsePartial t = .ok p) :
      Spells groups last (groupPath groups last ++ ".p/".toList ++ t) p

theorem Spells.split {groups : List ℕ} {last : ℕ} {s : Str} {p : ℕ} (h : Spells groups last s p) :
    splitPartial s = .ok (groupPath groups last, p) := by
  have hdot := dot_not_mem_groupPath groups last
  cases h with
  | full => rw [splitPartial, splitOnce_none hdot]
  | part t p h =>
    rw [splitPartial, splitOnce_suffix hdot]
    dsimp only
    rw [h]
    rfl

/-- The parser reads the number that the groups stand for, and refuses one that is too large. -/
theorem parseTileIndex_eq {groups : List ℕ} {last : ℕ} (hgroups : ∀ g ∈ groups, g < 1000)
    (hlast : last < 1000) {s : Str} {p : ℕ} (h : Spells groups last s p) : parseTileIndex s =
      if groupsValue 0 (groups ++ [last]) < 2 ^ 64 then .ok (groupsValue 0 (groups ++ [last]), p)
      else invalidPath "index overflow" := by
  rw [parseTileIndex, h.split]
  change (do
    checkPrefixes ((groupPath groups last).splitOn '/')
    let index ← ((groupPath groups last).splitOn '/').foldlM pushGroup 0
    Except.ok (index, p)) = _
  rw [splitOn_groupPath, checkPrefixes_components, foldlM_components hgroups hlast]
  split_ifs <;> rfl

/-- What the parser accepts are groups and a width. -/
theorem exists_spells {s : Str} {n p : ℕ} (h : parseTileIndex s = .ok (n, p)) :
    ∃ groups last, (∀ g ∈ groups, g < 1000) ∧ last < 1000 ∧ Spells groups last s p ∧
      n = groupsValue 0 (groups ++ [last]) ∧ n < 2 ^ 64 := by
  have hparse := h
  rw [parseTileIndex] at h
  cases hsplit : splitPartial s with
  | error e =>
    rw [hsplit] at h
    cases h
  | ok r =>
    obtain ⟨indexPart, part⟩ := r
    rw [hsplit] at h
    change (checkPrefixes (indexPart.splitOn '/') >>= fun _ =>
      (indexPart.splitOn '/').foldlM pushGroup 0 >>= fun index => Except.ok (index, part)) = _ at h
    cases hcheck : checkPrefixes (indexPart.splitOn '/') with
    | error e =>
      rw [hcheck] at h
      cases h
    | ok u =>
      cases hfold : (indexPart.splitOn '/').foldlM pushGroup 0 with
      | error e =>
        rw [hcheck, hfold] at h
        cases h
      | ok index =>
        rw [hcheck, hfold] at h
        obtain ⟨-, rfl⟩ := Prod.mk.inj (Except.ok.inj h)
        obtain ⟨groups, last, hgroups, hlast, hparts⟩ := exists_components (by simp) hcheck hfold
        obtain rfl := groupPath_splitOn hparts
        have hspells : Spells groups last s part := by
          rw [splitPartial] at hsplit
          split at hsplit
          · rename_i a t hs
            cases hpart : parsePartial t with
            | error e =>
              rw [hpart] at hsplit
              cases hsplit
            | ok p =>
              rw [hpart] at hsplit
              obtain ⟨rfl, rfl⟩ := Prod.mk.inj (Except.ok.inj hsplit)
              rw [Text.splitOnce_eq hs, ← List.append_assoc]
              exact .part t p hpart
          · obtain ⟨rfl, rfl⟩ := Prod.mk.inj (Except.ok.inj hsplit)
            exact .full
        refine ⟨groups, last, hgroups, hlast, hspells, ?_⟩
        rw [parseTileIndex_eq hgroups hlast hspells] at hparse
        split_ifs at hparse with hlt
        · obtain ⟨rfl, -⟩ := Prod.mk.inj (Except.ok.inj hparse)
          exact ⟨rfl, hlt⟩
        · cases hparse

/-! ### What is formatted -/

theorem groupsValue_concat (acc : ℕ) (groups : List ℕ) (last : ℕ) :
    groupsValue acc (groups ++ [last]) = groupsValue acc groups * 1000 + last := by
  rw [groupsValue, List.foldl_append]
  rfl

theorem groupsValue_pos {groups : List ℕ} (hne : groups ≠ []) (h : groups.head? ≠ some 0) :
    0 < groupsValue 0 groups := by
  obtain ⟨g, groups, rfl⟩ := List.exists_cons_of_ne_nil hne
  have hg : g ≠ 0 := fun h0 => h (by rw [h0]; rfl)
  exact lt_of_lt_of_le (by omega) (le_groupsValue (0 * 1000 + g) groups)

theorem head_of_concat {groups : List ℕ} {g : ℕ} (h : (groups ++ [g]).head? ≠ some 0) :
    groups.head? ≠ some 0 := by
  cases groups with
  | nil => simp
  | cons g' groups => exact h

theorem formatGroups_eq {groups : List ℕ} (hgroups : ∀ g ∈ groups, g < 1000)
    (h : groups.head? ≠ some 0) (result : Str) :
    formatGroups (groupsValue 0 groups) result =
      groups.flatMap (fun g => 'x' :: digits3 g ++ ['/']) ++ result := by
  induction groups using List.reverseRecOn generalizing result with
  | nil =>
    rw [formatGroups]
    exact if_pos rfl
  | append_singleton groups g ih =>
    have hpos := groupsValue_pos (by simp) h
    have hg := hgroups g (by simp)
    rw [formatGroups, if_neg hpos.ne', groupsValue_concat,
      show (groupsValue 0 groups * 1000 + g) / 1000 = groupsValue 0 groups by omega,
      show (groupsValue 0 groups * 1000 + g) % 1000 = g by omega,
      ih (fun g' hg' => hgroups g' (List.mem_append_left _ hg')) (head_of_concat h)]
    simp

/-- Without a first group of zeros the text is the one that the formatter writes. -/
theorem formatN_groupsValue {groups : List ℕ} {last : ℕ} (hgroups : ∀ g ∈ groups, g < 1000)
    (hlast : last < 1000) (h : groups.head? ≠ some 0) :
    formatN (groupsValue 0 (groups ++ [last])) = groupPath groups last := by
  rw [formatN, groupsValue_concat,
    show (groupsValue 0 groups * 1000 + last) / 1000 = groupsValue 0 groups by omega,
    show (groupsValue 0 groups * 1000 + last) % 1000 = last by
      omega, formatGroups_eq hgroups h, groupPath]

theorem exists_groups (n : ℕ) : ∃ groups, (∀ g ∈ groups, g < 1000) ∧ groups.head? ≠ some 0 ∧
    groupsValue 0 groups = n := by
  induction n using Nat.strong_induction_on with
  | h n ih =>
    rcases Nat.eq_zero_or_pos n with rfl | hpos
    · exact ⟨[], by simp, by simp, rfl⟩
    · obtain ⟨groups, hgroups, hhead, hvalue⟩ := ih (n / 1000) (by omega)
      refine ⟨groups ++ [n % 1000], ?_, ?_, ?_⟩
      · intro g hg
        rcases List.mem_append.mp hg with hg | hg
        · exact hgroups g hg
        · obtain rfl := List.mem_singleton.mp hg
          exact Nat.mod_lt n (by omega)
      · cases groups with
        | nil =>
          have hzero : n / 1000 = 0 := hvalue.symm
          simp
          omega
        | cons g groups => exact hhead
      · rw [groupsValue_concat, hvalue]
        omega

/-- The formatter writes groups of which the first is not zero. -/
theorem exists_formatN (n : ℕ) : ∃ groups last, (∀ g ∈ groups, g < 1000) ∧ last < 1000 ∧
    groups.head? ≠ some 0 ∧
    groupsValue 0 (groups ++ [last]) = n ∧ formatN n = groupPath groups last := by
  obtain ⟨groups, hgroups, hhead, hvalue⟩ := exists_groups (n / 1000)
  have hn : groupsValue 0 (groups ++ [n % 1000]) = n := by
    rw [groupsValue_concat, hvalue]
    omega
  have hformat := formatN_groupsValue hgroups (Nat.mod_lt n (show 0 < 1000 by omega)) hhead
  rw [hn] at hformat
  exact ⟨groups, n % 1000, hgroups, Nat.mod_lt n (by omega), hhead, hn, hformat⟩

/-- What is formatted is read back. -/
theorem parseTileIndex_formatNWithSuffix {n p : ℕ} (hn : n < 2 ^ 64) (hp : p < tileWidth) :
    parseTileIndex (formatNWithSuffix n p) = .ok (n, p) := by
  obtain ⟨groups, last, hgroups, hlast, -, hvalue, hformat⟩ := exists_formatN n
  have hspells : Spells groups last (formatNWithSuffix n p) p := by
    rw [formatNWithSuffix, hformat]
    split_ifs with hpos
    · have hpart : Spells groups last _ p := .part _ _ (parsePartial_decimal hpos hp)
      rw [List.append_assoc] at hpart
      exact hpart
    · obtain rfl : p = 0 := by omega
      exact .full
  rw [parseTileIndex_eq hgroups hlast hspells, hvalue, if_pos hn]

theorem parseTileLevel_decimal {l : ℕ} (hl : l ≤ 63) : parseTileLevel (decimal l) = .ok l := by
  have hall : (decimal l).all Char.isDigit = true :=
    List.all_eq_true.mpr fun c hc => isDigit_of_mem_decimal hc
  rw [parseTileLevel, if_neg (by simp [Text.decimal_ne_nil, hall]),
    Text.parseU64_decimal (by omega)]
  exact if_neg (by omega)

/-- The two parts of the name of a tile are read back. -/
theorem parseTilePath_format {l n p : ℕ} (hl : l ≤ 63) (hn : n < 2 ^ 64) (hp : p < tileWidth) :
    parseTilePath (decimal l) (formatNWithSuffix n p) = .ok (l, n, p) := by
  rw [parseTilePath, parseTileLevel_decimal hl, parseTileIndex_formatNWithSuffix hn hp]
  rfl

/-! ### Errors -/

theorem invalidPath_ne_panic {α : Type} (e : String) :
    (invalidPath e : Except (Fault Error) α) ≠ .error .panic := by
  intro h
  cases h

theorem parsePartial_ne_panic (t : Str) : parsePartial t ≠ .error .panic := by
  rw [parsePartial]
  split_ifs
  · exact invalidPath_ne_panic _
  · split
    · exact invalidPath_ne_panic _
    · split_ifs
      · exact fun h => by cases h
      · exact invalidPath_ne_panic _

theorem checkPrefixes_ne_panic (parts : List Str) : checkPrefixes parts ≠ .error .panic := by
  fun_induction checkPrefixes parts with
  | case1 => exact fun h => by cases h
  | case2 => exact invalidPath_ne_panic _
  | case3 => exact fun h => by cases h
  | case4 _ _ _ _ ih => exact ih
  | case5 => exact invalidPath_ne_panic _

theorem pushGroup_ne_panic (acc : ℕ) (part : Str) : pushGroup acc part ≠ .error .panic := by
  by_cases hgroup : ∃ g, g < 1000 ∧ (part = digits3 g ∨ part = 'x' :: digits3 g)
  · obtain ⟨g, hg, hpart⟩ := hgroup
    rw [pushGroup_eq hg hpart]
    split_ifs
    · exact fun h => by cases h
    · exact invalidPath_ne_panic _
  · rw [pushGroup, if_pos]
    · exact invalidPath_ne_panic _
    · by_contra hdigits
      simp only [not_or, not_not, List.all_eq_true] at hdigits
      exact hgroup (exists_group hdigits.1 hdigits.2)

/-- No text makes the parser leave the range of its numbers. -/
theorem parseTileIndex_ne_panic (s : Str) : parseTileIndex s ≠ .error .panic := by
  have hsplit : splitPartial s ≠ .error .panic := by
    rw [splitPartial]
    split
    · exact bind_ne_panic (parsePartial_ne_panic _) fun p h => by cases h
    · exact fun h => by cases h
  have hfold : ∀ (parts : List Str) (acc : ℕ), parts.foldlM pushGroup acc ≠ .error .panic := by
    intro parts
    induction parts with
    | nil => exact fun acc h => by cases h
    | cons part parts ih =>
      intro acc
      rw [List.foldlM_cons]
      exact bind_ne_panic (pushGroup_ne_panic acc part) ih
  refine bind_ne_panic hsplit fun r => bind_ne_panic (checkPrefixes_ne_panic _) fun _ => ?_
  exact bind_ne_panic (hfold _ 0) fun index h => by cases h

/-- The largest index is read back, the next one is refused, and no text makes the arithmetic
overflow. So distinct objects have distinct names. -/
theorem tile_names_round_trip :
    (∀ n p, n < 2 ^ 64 → p < 2 ^ 8 → parseTileIndex (formatNWithSuffix n p) = .ok (n, p)) ∧
      (∀ groups last, (∀ g ∈ groups, g < 1000) → last < 1000 →
        2 ^ 64 ≤ groupsValue 0 (groups ++ [last]) →
        ∀ s p, Spells groups last s p → ∃ e, parseTileIndex s = .error (.err e)) ∧
      (∀ s, parseTileIndex s ≠ .error .panic) ∧
      (∀ l i p l' i' p', tilePath l i p = tilePath l' i' p' → l = l' ∧ i = i' ∧ p = p') ∧
      ∀ i p i' p', entriesPath i p = entriesPath i' p' → i = i' ∧ p = p' := by
  refine ⟨fun n p hn hp => parseTileIndex_formatNWithSuffix hn hp, ?_, parseTileIndex_ne_panic,
    fun _ _ _ _ _ _ => tilePath_injective, fun _ _ _ _ => entriesPath_injective⟩
  intro groups last hgroups hlast hvalue s p hs
  rw [parseTileIndex_eq hgroups hlast hs, if_neg (not_lt.mpr hvalue)]
  exact ⟨_, rfl⟩

/-- The last index with all digits of its width. -/
theorem tile_names_round_trip_last :
    parseTileIndex (formatNWithSuffix 18446744073709551615 255) = .ok (18446744073709551615, 255) :=
  tile_names_round_trip.1 _ _ (by decide) (by decide)

/-! ### Other spellings -/

theorem not_prefix_groupPath {groups : List ℕ} (hgroups : ∀ g ∈ groups, g < 1000) (last : ℕ)
    (t : Str) :
    ¬ "x000/".toList <+: groupPath groups last ++ t ↔ groups.head? ≠ some 0 := by
  cases groups with
  | nil =>
    refine iff_of_true (fun h => ?_) (by simp)
    obtain ⟨t', ht⟩ := h
    have hhead : some 'x' = (digits3 last).head? := congrArg List.head? ht
    exact not_mem_digits3 (c := 'x') rfl last (List.mem_of_head? hhead.symm)
  | cons g groups =>
    rw [not_iff_not]
    constructor
    · rintro ⟨t', ht⟩
      have htake := congrArg (List.take 4) ht
      have hdigits : digits3 0 = digits3 g := (List.cons.inj htake).2
      have hvalue := ofDigitChars_digits3 (hgroups g List.mem_cons_self)
      rw [← hdigits] at hvalue
      rw [← hvalue]
      rfl
    · intro h
      obtain rfl : g = 0 := Option.some.inj h
      exact ⟨groupPath groups last ++ t, by simp [groupPath, digits3]⟩

/-- A text with one dot has one place for the suffix. -/
theorem suffix_unique {a t : Str} (ha : '.' ∉ a) (ht : ∀ c ∈ t, c.isDigit) :
    ".p/0".toList <:+: a ++ ".p/".toList ++ t ↔ t.head? = some '0' := by
  have hdot : '.' ∉ 'p' :: '/' :: t := by
    simp only [List.mem_cons, not_or]
    exact ⟨by decide, by decide, fun h => absurd (ht '.' h) (by decide)⟩
  constructor
  · rintro ⟨l, r, h⟩
    have hcut : l ++ '.' :: ('p' :: '/' :: '0' :: r) = a ++ '.' :: ('p' :: '/' :: t) := by
      simpa using h
    obtain ⟨-, -, htail⟩ := (List.append_cons_inj_of_notMem ha hdot).mp hcut.symm
    rw [(List.cons.inj (List.cons.inj htail).2).2]
    rfl
  · intro h
    cases t with
    | nil => cases h
    | cons c t =>
      obtain rfl : c = '0' := Option.some.inj h
      exact ⟨a, t, by simp⟩

theorem not_infix_of_dot {a : Str} (ha : '.' ∉ a) : ¬ ".p/0".toList <:+: a :=
  fun h => ha (h.subset List.mem_cons_self)

/-- An accepted index is spelled as the formatter does, unless it starts with a group of zeros
or has a width with a zero in front. -/
theorem formatNWithSuffix_parse {s : Str} {n p : ℕ} (h : parseTileIndex s = .ok (n, p)) :
    formatNWithSuffix n p = s ↔ ¬ "x000/".toList <+: s ∧ ¬ ".p/0".toList <:+: s := by
  obtain ⟨groups, last, hgroups, hlast, hspells, rfl, -⟩ := exists_spells h
  have hformat :
      formatN (groupsValue 0 (groups ++ [last])) = groupPath groups last ↔
      groups.head? ≠ some 0 := by
    constructor
    · intro heq
      obtain ⟨groups', last', hgroups', -, hhead, -, hformat⟩ :=
        exists_formatN (groupsValue 0 (groups ++ [last]))
      rw [heq] at hformat
      rw [← not_prefix_groupPath hgroups last [], hformat, not_prefix_groupPath hgroups' last' []]
      exact hhead
    · exact formatN_groupsValue hgroups hlast
  have hdot := dot_not_mem_groupPath groups last
  cases hspells with
  | full =>
    have hprefix := not_prefix_groupPath hgroups last []
    rw [List.append_nil] at hprefix
    rw [formatNWithSuffix, if_neg (lt_irrefl 0), hformat, hprefix]
    exact (and_iff_left (not_infix_of_dot hdot)).symm
  | part t p hpart =>
    obtain ⟨hparse, hdigits, hpos, -⟩ := parsePartial_ok hpart
    rw [List.append_assoc, not_prefix_groupPath hgroups last, ← List.append_assoc,
      suffix_unique hdot hdigits, formatNWithSuffix, if_pos hpos, ← hformat]
    have hwidth : decimal p = t ↔ ¬ t.head? = some '0' := by
      constructor
      · rintro rfl
        exact Text.head_decimal hpos
      · intro hzero
        refine decimal_parseU64 hparse (.inr ⟨hzero, fun hplus => ?_⟩)
        exact absurd (hdigits '+' (List.mem_of_head? hplus)) (by decide)
    have hnotdot : '.' ∉ 'p' :: '/' :: decimal p := by
      simp only [List.mem_cons, not_or]
      exact ⟨by decide, by decide, fun h => absurd (isDigit_of_mem_decimal h) (by decide)⟩
    have hcut : formatN (groupsValue 0 (groups ++ [last])) ++ '.' :: ('p' :: '/' :: decimal p) =
        groupPath groups last ++ '.' :: ('p' :: '/' :: t) ↔ _ :=
      List.append_cons_inj_of_notMem (dot_not_mem_formatN (groupsValue 0 (groups ++ [last])))
        hnotdot
    rw [← hwidth, List.append_assoc]
    refine hcut.trans (and_congr_right fun _ => ?_)
    simp

/-- An accepted level is spelled in decimal, unless it has a zero in front. -/
theorem decimal_parse {level : Str} {l : ℕ} (h : parseTileLevel level = .ok l) :
    decimal l = level ↔ level = "0".toList ∨ ¬ "0".toList <+: level := by
  rw [parseTileLevel] at h
  split_ifs at h with hdigits
  · cases h
  simp only [not_or, not_not, List.all_eq_true] at hdigits
  split at h
  · cases h
  rename_i l' hparse
  split_ifs at h
  · cases h
  obtain rfl := Except.ok.inj h
  have hhead : ¬ "0".toList <+: level ↔ level.head? ≠ some '0' := by
    cases level with
    | nil => exact absurd rfl hdigits.1
    | cons c t => simp [List.cons_prefix_cons, eq_comm]
  rw [hhead]
  constructor
  · rintro rfl
    exact (unpadded_decimal l').imp_right And.left
  · intro hcanonical
    refine decimal_parseU64 hparse (hcanonical.imp_right fun hzero => ⟨hzero, fun hplus => ?_⟩)
    exact absurd (hdigits.2 '+' (List.mem_of_head? hplus)) (by decide)

/-- The accepted spellings that are not the formatter's own are those with zeros to spare: a
level with a zero in front, an index with a first group of zeros, a width with a zero in front. -/
theorem tile_names_canonical {level index : Str} {l n p : ℕ} (hlevel : parseTileLevel level = .ok l)
    (hindex : parseTileIndex index = .ok (n, p)) :
    (decimal l = level ↔ level = "0".toList ∨ ¬ "0".toList <+: level) ∧
      (formatNWithSuffix n p = index ↔ ¬ "x000/".toList <+: index ∧ ¬ ".p/0".toList <:+: index) :=
  ⟨decimal_parse hlevel, formatNWithSuffix_parse hindex⟩

theorem tile_names_canonical_five :
    (decimal 5 = "5".toList ↔ "5".toList = "0".toList ∨ ¬ "0".toList <+: "5".toList) ∧
      (formatNWithSuffix 1234 8 = "x001/234.p/8".toList ↔
        ¬ "x000/".toList <+: "x001/234.p/8".toList ∧ ¬ ".p/0".toList <:+: "x001/234.p/8".toList) :=
  tile_names_canonical (by decide +kernel) (by decide +kernel)

/-- One bundle has two names, and so has a level. -/
theorem tile_names_aliases :
    ¬ ((∀ s n p, parseTileIndex s = .ok (n, p) → s = formatNWithSuffix n p) ∧
    ∀ s l, parseTileLevel s = .ok l → s = decimal l) := by
  rintro ⟨hindex, -⟩
  have hparse : parseTileIndex "x000/001".toList = .ok (1, 0) := by decide +kernel
  exact absurd (hindex _ 1 0 hparse) (by decide +kernel)

end Siglog.Api

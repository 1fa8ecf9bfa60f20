import Siglog.Rfc.TreeHash
import Mathlib.Logic.Function.Basic

/-! Audit paths. `path` is the recursive definition; `inclusionRoot` is the
iterative check, which walks from the leaf to the root and decides by the bits
of the leaf index on which side each sibling goes. Between them stands
`rootDown`, which consumes the same path from the root downwards and therefore
follows the recursion of the tree hash. The check accepts exactly what
`rootDown` accepts, accepts every audit path, and, for an injective combining
function, accepts all leaves of a tree only for the root of that tree. -/

namespace Siglog.Rfc

variable {H : Type} [NodeHash H]

/-- `PATH(m, D)`: the siblings of leaf `m`, from the leaf to the root. -/
def path (m : ℕ) : List H → List H
  | [] => []
  | [_] => []
  | x :: y :: D =>
    let k := split (D.length + 2)
    if m < k then path m ((x :: y :: D).take k) ++ [mth ((x :: y :: D).drop k)]
    else path (m - k) ((x :: y :: D).drop k) ++ [mth ((x :: y :: D).take k)]
termination_by D => D.length
decreasing_by
  all_goals
    have h := split_lt (n := D.length + 2) (by omega)
    have h' := split_pos (D.length + 2)
    simp only [List.length_take, List.length_drop, List.length_cons]
    omega

@[simp] theorem path_singleton (m : ℕ) (x : H) : path m [x] = [] := by rw [path]

theorem path_split (m : ℕ) {D : List H} (h : 2 ≤ D.length) :
    path m D = if m < split D.length
      then path m (D.take (split D.length)) ++ [mth (D.drop (split D.length))]
      else path (m - split D.length) (D.drop (split D.length)) ++
        [mth (D.take (split D.length))] := by
  match D, h with
  | x :: y :: D, _ => rw [path]; rfl

/-- Shift both numbers right until the first is odd or zero. -/
def shiftOut (fn sn : ℕ) : ℕ × ℕ :=
  if fn % 2 = 1 ∨ fn = 0 then (fn, sn) else shiftOut (fn / 2) (sn / 2)
termination_by fn
decreasing_by omega

/-- The root computed by the iterative check for the leaf hash `r` at index `fn`
of a tree whose last index is `sn`, or nothing when the path has the wrong length. -/
def inclusionRoot (fn sn : ℕ) (r : H) : List H → Option H
  | [] => if sn = 0 then some r else none
  | p :: ps =>
    if sn = 0 then none
    else if fn % 2 = 1 ∨ fn = sn then
      let shifted := if fn % 2 = 1 then (fn, sn) else shiftOut fn sn
      inclusionRoot (shifted.1 / 2) (shifted.2 / 2) (combine p r) ps
    else inclusionRoot (fn / 2) (sn / 2) (combine r p) ps

/-- The inclusion check. -/
def VerifyInclusion (leaf : H) (index size : ℕ) (proof : List H) (root : H) : Prop :=
  index < size ∧ inclusionRoot index (size - 1) leaf proof = some root

instance [DecidableEq H] (leaf : H) (index size : ℕ) (proof : List H) (root : H) :
    Decidable (VerifyInclusion leaf index size proof root) :=
  inferInstanceAs (Decidable (_ ∧ _))

/-- The root of a tree of `n` leaves with leaf `r` at index `i`, given the
siblings from the root to the leaf. -/
def rootDown (i n : ℕ) (r : H) : List H → Option H
  | [] => if n = 1 then some r else none
  | x :: q =>
    if n ≤ 1 then none
    else if i < split n then (rootDown i (split n) r q).map (combine · x)
    else (rootDown (i - split n) (n - split n) r q).map (combine x ·)

theorem split_half {n : ℕ} (h : 3 ≤ n) : split n = 2 * split ((n + 1) / 2) := by
  have h₁ := split_lt (n := (n + 1) / 2) (by omega)
  have h₂ := le_two_mul_split (n := (n + 1) / 2) (by omega)
  rw [split] at h₁ h₂
  rw [split_eq (n := n) (a := ((n + 1) / 2 - 1).log2 + 1) (by rw [pow_succ]; omega)
    (by rw [pow_succ, pow_succ]; omega), split, pow_succ, mul_comm]

/-- One level up from a left child that has a right sibling, or from a right child. -/
theorem rootDown_concat {i n : ℕ} (r p : H) (hi : i < n) (hs : i % 2 = 1 ∨ i + 1 < n) (q : List H) :
    rootDown i n r (q ++ [p]) =
      rootDown (i / 2) ((n + 1) / 2) (if i % 2 = 1 then combine p r else combine r p) q := by
  induction q generalizing i n with
  | nil =>
    by_cases hn : n = 2
    · subst hn
      obtain rfl | rfl : i = 0 ∨ i = 1 := by omega
      · simp [rootDown, show split 2 = 1 from rfl]
      · simp [rootDown, show split 2 = 1 from rfl]
    · -- a tree of at least three leaves is deeper than one level
      have hk := split_half (n := n) (by omega)
      have hk' := split_pos ((n + 1) / 2)
      have hlt := split_lt (n := n) (by omega)
      have h₁ : split n ≠ 1 := by omega
      have h₂ : ¬ n ≤ 1 := by omega
      have h₃ : ¬ (n + 1) / 2 = 1 := by omega
      simp only [List.nil_append, rootDown, h₁, h₂, h₃, ↓reduceIte, Option.map_none]
      split_ifs with h h'
      · rfl
      · omega
      · rfl
  | cons x q ih =>
    simp only [List.cons_append, rootDown]
    by_cases hn : n = 2
    · subst hn
      obtain rfl | rfl : i = 0 ∨ i = 1 := by omega
      · cases q <;> simp [rootDown, show split 2 = 1 from rfl]
      · cases q <;> simp [rootDown, show split 2 = 1 from rfl]
    · have hk := split_half (n := n) (by omega)
      have hlt := split_lt (n := n) (by omega)
      have hlt' := split_lt (n := (n + 1) / 2) (by omega)
      by_cases h : i < split n
      · rw [if_neg (by omega), if_pos h, if_neg (by omega), if_pos (by omega), ih h (by omega),
          show (split n + 1) / 2 = split ((n + 1) / 2) by omega]
      · rw [if_neg (by omega), if_neg h, if_neg (by omega), if_neg (by omega),
          ih (by omega) (by omega), show (i - split n) / 2 = i / 2 - split ((n + 1) / 2) by omega,
          show (n - split n + 1) / 2 = (n + 1) / 2 - split ((n + 1) / 2) by omega,
          show (i - split n) % 2 = i % 2 by omega]

/-- One level up from a last leaf without a sibling: nothing is consumed. -/
theorem rootDown_last {n : ℕ} (r : H) (hn : 1 < n) (he : n % 2 = 1) (q : List H) :
    rootDown (n - 1) n r q = rootDown ((n - 1) / 2) ((n + 1) / 2) r q := by
  induction q generalizing n with
  | nil => simp only [rootDown]; rw [if_neg (by omega), if_neg (by omega)]
  | cons x q ih =>
    have hk := split_half (n := n) (by omega)
    have hlt := split_lt (n := n) (by omega)
    have hlt' := split_lt (n := (n + 1) / 2) (by omega)
    simp only [rootDown]
    rw [if_neg (by omega), if_neg (by omega), if_neg (by omega), if_neg (by omega)]
    congr 1
    by_cases h1 : n - split n = 1
    · rw [show n - 1 - split n = 0 by omega, h1,
        show (n - 1) / 2 - split ((n + 1) / 2) = 0 by omega,
        show (n + 1) / 2 - split ((n + 1) / 2) = 1 by omega]
    · rw [show n - 1 - split n = (n - split n) - 1 by omega, ih (by omega) (by omega)]
      congr 1 <;> omega

/-- Dropping the levels at which the last leaf has no sibling. -/
theorem rootDown_shiftOut (r : H) (q : List H) :
    ∀ fn : ℕ, 0 < fn → rootDown fn (fn + 1) r q =
      rootDown (shiftOut fn fn).1 ((shiftOut fn fn).2 + 1) r q ∧
        (shiftOut fn fn).1 = (shiftOut fn fn).2 ∧ (shiftOut fn fn).1 % 2 = 1 := by
  intro fn
  induction fn using Nat.strong_induction_on with
  | h fn ih =>
    intro hpos
    rw [shiftOut]
    by_cases h : fn % 2 = 1 ∨ fn = 0
    · rw [if_pos h]
      exact ⟨rfl, rfl, by omega⟩
    · rw [if_neg h]
      obtain ⟨h₁, h₂, h₃⟩ := ih (fn / 2) (by omega) (by omega)
      refine ⟨?_, h₂, h₃⟩
      rw [← h₁, show rootDown fn (fn + 1) r q = rootDown (fn + 1 - 1) (fn + 1) r q from rfl,
        rootDown_last r (by omega) (by omega)]
      congr 1
      omega

/-- The iterative check computes the root that the tree recursion computes. -/
theorem inclusionRoot_eq (q : List H) : ∀ {fn sn : ℕ} (r : H), fn ≤ sn →
    inclusionRoot fn sn r q = rootDown fn (sn + 1) r q.reverse := by
  induction q with
  | nil =>
    intro fn sn r h
    simp [inclusionRoot, rootDown]
  | cons p q ih =>
    intro fn sn r h
    rw [inclusionRoot, List.reverse_cons]
    by_cases h0 : sn = 0
    · subst h0
      rw [if_pos rfl]
      cases q.reverse <;> simp [rootDown]
    rw [if_neg h0]
    by_cases hodd : fn % 2 = 1
    · rw [if_pos (.inl hodd), rootDown_concat r p (by omega) (.inl hodd)]
      simp only [hodd, if_true]
      rw [ih _ (by omega)]
      congr 1
      omega
    by_cases hlast : fn = sn
    · subst hlast
      obtain ⟨h₁, h₂, h₃⟩ := rootDown_shiftOut r (q.reverse ++ [p]) fn (by omega)
      rw [if_pos (.inr rfl), h₁, rootDown_concat r p (by omega) (.inl h₃)]
      simp only [hodd, h₃, if_true, if_false]
      rw [ih _ (by omega)]
      congr 1
      omega
    · rw [if_neg (by omega), rootDown_concat r p (by omega) (.inr (by omega))]
      simp only [hodd, if_false]
      rw [ih _ (by omega)]
      congr 1
      omega

theorem verifyInclusion_iff {leaf : H} {index size : ℕ} {proof : List H} {root : H} :
    VerifyInclusion leaf index size proof root ↔
      index < size ∧ rootDown index size leaf proof.reverse = some root := by
  refine and_congr_right fun h => ?_
  rw [inclusionRoot_eq proof leaf (by omega), show size - 1 + 1 = size by omega]

/-! ### Completeness -/

theorem rootDown_path {n : ℕ} : ∀ {D : List H} {m : ℕ} {x : H}, D.length = n → D[m]? = some x →
    rootDown m n x (path m D).reverse = some (mth D) := by
  induction n using Nat.strong_induction_on with
  | h n ih =>
    intro D m x hn hx
    have hm : m < D.length := (List.getElem?_eq_some_iff.mp hx).1
    by_cases h1 : n = 1
    · subst h1
      obtain ⟨y, rfl⟩ := List.length_eq_one_iff.mp hn
      obtain rfl : m = 0 := by simpa using hm
      simp only [List.getElem?_cons_zero, Option.some.injEq] at hx
      simp [rootDown, hx]
    · have h2 : 2 ≤ n := by omega
      have hk := split_lt h2
      have hkpos := split_pos n
      rw [path_split m (hn ▸ h2), mth_split (D := D) (hn ▸ h2), hn]
      by_cases h : m < split n
      · have := @ih _ hk (D.take (split n)) m x
          (by rw [List.length_take]; omega) (by rw [List.getElem?_take, if_pos h, hx])
        rw [if_pos h, List.reverse_append, List.reverse_singleton, List.singleton_append, rootDown,
          if_neg (by omega), if_pos h, this, Option.map_some]
      · have := @ih _ (show n - split n < n by omega) (D.drop (split n)) (m - split n) x
          (by rw [List.length_drop]; omega)
          (by rw [List.getElem?_drop, show split n + (m - split n) = m by omega, hx])
        rw [if_neg h, List.reverse_append, List.reverse_singleton, List.singleton_append, rootDown,
          if_neg (by omega), if_neg h, this, Option.map_some]

/-- Every audit path is accepted for the root of its tree. -/
theorem verifyInclusion_path {D : List H} {m : ℕ} {x : H} (h : D[m]? = some x) :
    VerifyInclusion x m D.length (path m D) (mth D) :=
  verifyInclusion_iff.mpr ⟨(List.getElem?_eq_some_iff.mp h).1, rootDown_path rfl h⟩

/-! ### Soundness -/

/-- For an injective combining function a leaf opens to the root of a tree only at its place. -/
theorem getElem?_of_rootDown (hinj : Function.Injective2 (combine (H := H))) {leaf : H}
    (q : List H) : ∀ {D : List H} {i : ℕ},
    i < D.length → rootDown i D.length leaf q = some (mth D) → D[i]? = some leaf := by
  induction q with
  | nil =>
    intro D i hi h
    simp only [rootDown, Option.ite_none_right_eq_some, Option.some.injEq] at h
    obtain ⟨x, rfl⟩ := List.length_eq_one_iff.mp h.1
    obtain rfl : i = 0 := by simpa using hi
    rw [h.2, mth_singleton]
    rfl
  | cons y q ih =>
    intro D i hi h
    rw [rootDown] at h
    split_ifs at h with h1 hleft
    · -- the leaf is on the left
      have hk := split_lt (n := D.length) (by omega)
      rw [mth_split (D := D) (by omega)] at h
      obtain ⟨r, hr, hcombine⟩ := Option.map_eq_some_iff.mp h
      obtain ⟨rfl, -⟩ := hinj hcombine
      have hlen : (D.take (split D.length)).length = split D.length := by
        rw [List.length_take]
        omega
      rw [← List.getElem?_take_of_lt hleft]
      exact ih (hlen.symm ▸ hleft) (hlen.symm ▸ hr)
    · have hk := split_lt (n := D.length) (by omega)
      rw [mth_split (D := D) (by omega)] at h
      obtain ⟨r, hr, hcombine⟩ := Option.map_eq_some_iff.mp h
      obtain ⟨-, rfl⟩ := hinj hcombine
      have hlen : (D.drop (split D.length)).length = D.length - split D.length := List.length_drop
      have hget := ih (D := D.drop (split D.length)) (i := i - split D.length) (by rw [hlen]; omega)
        (by rw [hlen]; exact hr)
      rwa [List.getElem?_drop, Nat.add_sub_cancel' (not_lt.mp hleft)] at hget

/-- What is accepted for the root of a tree is a leaf of it. -/
theorem leaf_of_verifyInclusion (hinj : Function.Injective2 (combine (H := H))) {D : List H}
    {leaf : H} {index : ℕ}
    {proof : List H} (h : VerifyInclusion leaf index D.length proof (mth D)) :
    D[index]? = some leaf := by
  obtain ⟨hi, hroot⟩ := verifyInclusion_iff.mp h
  exact getElem?_of_rootDown hinj _ hi hroot

/-- The leaves of the range `a`, `c` of `D` from the `b`-th on open to `r`. -/
def Opens (D : List H) (a b c : ℕ) (r : H) : Prop :=
  ∀ i x, b ≤ i → i < c → D[a + i]? = some x → ∃ q, rootDown i c x q = some r

theorem opens_left {D : List H} {a b c : ℕ} {r s : H}
    (hinj : Function.Injective2 (combine (H := H)))
    (hc : 2 ≤ c) (h : Opens D a b c (combine r s)) : Opens D a b (split c) r := by
  intro i x hb hi hx
  obtain ⟨q, hq⟩ := h i x hb (by have := split_lt hc; omega) hx
  cases q with
  | nil => simp only [rootDown] at hq; rw [if_neg (by omega)] at hq; cases hq
  | cons y q =>
    rw [rootDown, if_neg (by omega), if_pos hi] at hq
    obtain ⟨t, ht, he⟩ := Option.map_eq_some_iff.mp hq
    obtain ⟨rfl, -⟩ := hinj he
    exact ⟨q, ht⟩

theorem opens_right {D : List H} {a b c : ℕ} {r s : H}
    (hinj : Function.Injective2 (combine (H := H)))
    (hc : 2 ≤ c) (h : Opens D a b c (combine r s)) :
    Opens D (a + split c) (b - split c) (c - split c) s := by
  intro i x hb hi hx
  obtain ⟨q, hq⟩ := h (split c + i) x (by omega) (by omega) (by rw [← hx]; congr 1; omega)
  cases q with
  | nil => simp only [rootDown] at hq; rw [if_neg (by omega)] at hq; cases hq
  | cons y q =>
    rw [rootDown, if_neg (by omega), if_neg (by omega), Nat.add_sub_cancel_left] at hq
    obtain ⟨t, ht, he⟩ := Option.map_eq_some_iff.mp hq
    obtain ⟨-, rfl⟩ := hinj he
    exact ⟨q, ht⟩

/-- A hash that some leaf of a range of at least two leaves opens to is a combination. -/
theorem opens_combine {D : List H} {a b c : ℕ} {r : H} (hc : 2 ≤ c) (hb : b < c)
    (hlen : a + b < D.length) (h : Opens D a b c r) : ∃ s t, r = combine s t := by
  obtain ⟨q, hq⟩ := h b _ le_rfl hb (List.getElem?_eq_getElem hlen)
  cases q with
  | nil => simp only [rootDown] at hq; rw [if_neg (by omega)] at hq; cases hq
  | cons y q =>
    rw [rootDown, if_neg (by omega)] at hq
    split_ifs at hq
    all_goals
      obtain ⟨t, -, rfl⟩ := Option.map_eq_some_iff.mp hq
      exact ⟨_, _, rfl⟩

/-- If every leaf of a range opens to one hash, that hash is the tree hash of the range. -/
theorem rangeHash_of_opens (hinj : Function.Injective2 (combine (H := H))) {D : List H} {c : ℕ} :
    ∀ {a : ℕ} {r : H}, 0 < c → a + c ≤ D.length → Opens D a 0 c r → r = rangeHash D a c := by
  induction c using Nat.strong_induction_on with
  | h c ih =>
    intro a r hc hlen h
    by_cases h1 : c = 1
    · subst h1
      have hx := List.getElem?_eq_getElem (show a < D.length by omega)
      obtain ⟨q, hq⟩ := h 0 _ le_rfl (by omega) hx
      cases q with
      | nil =>
        simp only [rootDown, if_true, Option.some.injEq] at hq
        rw [rangeHash_one hx, hq]
      | cons y q => simp [rootDown] at hq
    · have h2 : 2 ≤ c := by omega
      have hk := split_lt h2
      have hkpos := split_pos c
      obtain ⟨s, t, rfl⟩ := opens_combine h2 hc (by omega) h
      rw [rangeHash_split h2 hlen,
        ← ih _ hk hkpos (by omega) (opens_left hinj h2 h),
        ← ih _ (by omega) (by omega) (by omega) (by simpa using opens_right hinj h2 h)]

end Siglog.Rfc

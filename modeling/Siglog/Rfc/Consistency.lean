import Siglog.Rfc.Inclusion

/-! Consistency proofs. `subproof` is the recursive definition on lists; its
equations are also given on ranges. When the old size is a power of two the old
tree is a complete subtree on the left spine, the proof is the list of right
siblings on the way up, and folding them onto the old root gives the new root. -/

namespace Siglog.Rfc

variable {H : Type} [NodeHash H]

/-- `SUBPROOF(m, D, b)`, for `0 < m ≤ D.length`. -/
def subproof (m : ℕ) (D : List H) (b : Bool) : List H :=
  if m = D.length then (if b then [] else [mth D])
  else if D.length < 2 then []
  else
    let k := split D.length
    if m ≤ k then subproof m (D.take k) b ++ [mth (D.drop k)]
    else subproof (m - k) (D.drop k) false ++ [mth (D.take k)]
termination_by D.length
decreasing_by
  all_goals
    have h := split_lt (n := D.length) (by omega)
    have h' := split_pos D.length
    simp only [List.length_take, List.length_drop]
    omega

/-- `PROOF(m, D)`. -/
def proof (m : ℕ) (D : List H) : List H := subproof m D true

theorem subproof_self (D : List H) (b : Bool) :
    subproof D.length D b = if b then [] else [mth D] := by rw [subproof, if_pos rfl]

@[simp] theorem proof_self (D : List H) : proof D.length D = [] := by
  rw [proof, subproof_self, if_pos rfl]

section Range

variable {D : List H} {a m n : ℕ}

theorem subproof_seg_self (h : a + n ≤ D.length) (b : Bool) :
    subproof n (seg D a n) b = if b then [] else [rangeHash D a n] := by
  have := subproof_self (seg D a n) b
  rwa [seg_length h] at this

theorem subproof_seg_left (h : a + n ≤ D.length) (hn : 2 ≤ n) (hm : m ≤ split n) (b : Bool) :
    subproof m (seg D a n) b =
      subproof m (seg D a (split n)) b ++ [rangeHash D (a + split n) (n - split n)] := by
  have hk := split_lt hn
  rw [subproof, seg_length h, if_neg (by omega), if_neg (by omega), if_pos hm, seg_take hk.le,
    seg_drop]
  rfl

theorem subproof_seg_right (h : a + n ≤ D.length) (hmn : m < n) (hm : split n < m) (b : Bool) :
    subproof m (seg D a n) b =
      subproof (m - split n) (seg D (a + split n) (n - split n)) false ++
        [rangeHash D a (split n)] := by
  have hk := split_pos n
  rw [subproof, seg_length h, if_neg (by omega), if_neg (by omega), if_neg (by omega),
    seg_take (by omega), seg_drop]
  rfl

/-- A proof has at most one hash for each level, and one more. -/
theorem subproof_length_le {d : ℕ} (h : a + n ≤ D.length) (hm : 0 < m) (hmn : m ≤ n)
    (hn : n ≤ 2 ^ d) (b : Bool) : (subproof m (seg D a n) b).length ≤ d + 1 := by
  induction n using Nat.strong_induction_on generalizing a m d b with
  | h n ih =>
    by_cases he : m = n
    · subst he
      rw [subproof_seg_self h]
      split_ifs <;> simp
    · have hk := split_lt (n := n) (by omega)
      have hk' := le_two_mul_split (n := n) (by omega)
      have hd : split n ≤ 2 ^ (d - 1) := by
        rw [split] at hk ⊢
        have hlt := (Nat.pow_lt_pow_iff_right (a := 2) (by omega)).mp (hk.trans_le hn)
        exact Nat.pow_le_pow_right (by omega) (by omega)
      have hd1 : 1 ≤ d := by
        by_contra hd0
        have : d = 0 := by omega
        subst this
        simp at hn
        omega
      by_cases hmk : m ≤ split n
      · have := ih _ hk (a := a) (by omega) hm hmk hd b
        rw [subproof_seg_left h (by omega) hmk, List.length_append, List.length_singleton]
        omega
      · have hpos := split_pos n
        have := @ih _ (show n - split n < n by omega) (a + split n) (m - split n) (d - 1) (by omega)
          (by omega) (by omega) (by omega) false
        rw [subproof_seg_right h (by omega) (by omega), List.length_append, List.length_singleton]
        omega

end Range

theorem proof_length_le {D : List H} {m d : ℕ} (hm : 0 < m) (hmn : m ≤ D.length)
    (hd : D.length ≤ 2 ^ d) :
    (proof m D).length ≤ d + 1 := by
  have := subproof_length_le (D := D) (a := 0) (n := D.length) (by omega) hm hmn hd true
  rwa [seg_zero_length] at this

/-! ### A power of two as the old size -/

section PowerOfTwo

variable {D : List H} {l n : ℕ}

theorem split_spine (h : 2 ^ l < n) : 2 ^ l ≤ split n := by
  have h₁ := le_two_mul_split (n := n) (by have := Nat.two_pow_pos l; omega)
  rw [split, mul_comm, ← pow_succ] at h₁
  have h₂ := (Nat.pow_lt_pow_iff_right (a := 2) (by omega)).mp (h.trans_le h₁)
  exact Nat.pow_le_pow_right (by omega) (by omega)

theorem subproof_spine (hn : n ≤ D.length) (h : 2 ^ l < n) :
    subproof (2 ^ l) (seg D 0 n) true =
      subproof (2 ^ l) (seg D 0 (split n)) true ++ [rangeHash D (split n) (n - split n)] := by
  have := subproof_seg_left (D := D) (a := 0) (by omega) (by have := Nat.two_pow_pos l; omega)
    (split_spine h) true
  rwa [Nat.zero_add] at this

theorem rangeHash_spine (hn : n ≤ D.length) (h : 2 ^ l < n) :
    rangeHash D 0 n = combine (rangeHash D 0 (split n)) (rangeHash D (split n) (n - split n)) := by
  have := rangeHash_split (D := D) (a := 0) (c := n) (by have := Nat.two_pow_pos l; omega)
    (by omega)
  rwa [Nat.zero_add] at this

/-- Folding the proof onto the old root gives the new root. -/
theorem foldl_subproof (hn : n ≤ D.length) (h : 2 ^ l ≤ n) :
    (subproof (2 ^ l) (seg D 0 n) true).foldl combine (rangeHash D 0 (2 ^ l)) =
      rangeHash D 0 n := by
  induction n using Nat.strong_induction_on with
  | h n ih =>
    rcases h.eq_or_lt with rfl | h
    · rw [subproof_seg_self (by omega), if_pos rfl, List.foldl_nil]
    · have hk := split_lt (n := n) (by have := Nat.two_pow_pos l; omega)
      rw [subproof_spine hn h, List.foldl_concat, ih _ hk (by omega) (split_spine h),
        rangeHash_spine hn h]

/-- The number of siblings on the way up. -/
theorem length_subproof_pow (hn : n ≤ D.length) (h : 2 ^ l ≤ n) :
    (subproof (2 ^ l) (seg D 0 n) true).length = if 2 ^ l = n then 0 else (n - 1).log2 + 1 - l := by
  induction n using Nat.strong_induction_on with
  | h n ih =>
    rcases h.eq_or_lt with rfl | h
    · rw [subproof_seg_self (by omega), if_pos rfl, if_pos rfl, List.length_nil]
    · have hpos := Nat.two_pow_pos l
      have hk := split_lt (n := n) (by omega)
      have hle := split_spine h
      have hl : l ≤ (n - 1).log2 := (Nat.pow_le_pow_iff_right (a := 2) (by omega)).mp hle
      rw [subproof_spine hn h, List.length_append, List.length_singleton, ih _ hk (by omega) hle,
        if_neg (show ¬ 2 ^ l = n by omega)]
      split_ifs with he
      · have : l = (n - 1).log2 := Nat.pow_right_injective (le_refl 2) he
        omega
      · -- the next power of two down the spine
        have hlt : l < (n - 1).log2 :=
          (Nat.pow_lt_pow_iff_right (a := 2) (by omega)).mp (lt_of_le_of_ne hle he)
        have hlog : (split n - 1).log2 = (n - 1).log2 - 1 := by
          have hs : split n = 2 ^ ((n - 1).log2 - 1 + 1) := by
            rw [split]; congr 1; omega
          have hp := Nat.two_pow_pos ((n - 1).log2 - 1)
          rw [Nat.log2_eq_iff (by rw [hs, pow_succ]; omega), hs, pow_succ]
          omega
        rw [hlog]
        omega

/-- The siblings listed from the bottom. -/
theorem subproof_pow_cons (hn : n ≤ D.length) (h : 2 ^ l < n) :
    subproof (2 ^ l) (seg D 0 n) true =
      rangeHash D (2 ^ l) (min (2 ^ (l + 1)) n - 2 ^ l) ::
        if 2 ^ (l + 1) ≤ n then subproof (2 ^ (l + 1)) (seg D 0 n) true else [] := by
  induction n using Nat.strong_induction_on with
  | h n ih =>
    have hpos := Nat.two_pow_pos l
    have hk := split_lt (n := n) (by omega)
    have hle := le_two_mul_split (n := n) (by omega)
    have hsucc : 2 ^ (l + 1) = 2 * 2 ^ l := pow_succ' 2 l
    rw [subproof_spine hn h]
    by_cases he : 2 ^ l = split n
    · -- the last sibling
      have hself := subproof_seg_self (D := D) (a := 0) (n := 2 ^ l) (by omega) true
      rw [← he, hself, if_pos rfl, List.nil_append]
      by_cases hn' : 2 ^ (l + 1) ≤ n
      · obtain rfl : n = 2 ^ (l + 1) := by omega
        rw [if_pos le_rfl, subproof_seg_self (by omega), if_pos rfl, Nat.min_self]
      · rw [if_neg hn', Nat.min_eq_right (by omega)]
    · have hlt : 2 ^ l < split n := lt_of_le_of_ne (split_spine h) he
      have hle' : 2 ^ (l + 1) ≤ split n := by
        rw [split] at hlt ⊢
        exact Nat.pow_le_pow_right (by omega)
          ((Nat.pow_lt_pow_iff_right (a := 2) (by omega)).mp hlt)
      rw [ih _ hk (by omega) hlt, if_pos hle', if_pos (by omega), Nat.min_eq_left hle',
        Nat.min_eq_left (by omega), List.cons_append, ← subproof_spine hn (by omega)]

/-- The only list of siblings that leads to the new root is the proof, and it
does so from the old root only. -/
theorem foldl_eq_rangeHash (hinj : Function.Injective2 (combine (H := H))) (hn : n ≤ D.length)
    (h : 2 ^ l ≤ n) {r : H} {p : List H}
    (hlen : p.length = (subproof (2 ^ l) (seg D 0 n) true).length)
    (hp : p.foldl combine r = rangeHash D 0 n) :
    r = rangeHash D 0 (2 ^ l) ∧ p = subproof (2 ^ l) (seg D 0 n) true := by
  induction n using Nat.strong_induction_on generalizing p with
  | h n ih =>
    rcases h.eq_or_lt with rfl | h
    · rw [subproof_seg_self (by omega), if_pos rfl] at hlen ⊢
      obtain rfl := List.length_eq_zero_iff.mp hlen
      exact ⟨hp, rfl⟩
    · have hk := split_lt (n := n) (by have := Nat.two_pow_pos l; omega)
      rw [subproof_spine hn h] at hlen ⊢
      have hne : p ≠ [] := by
        rintro rfl
        rw [List.length_append, List.length_singleton, List.length_nil] at hlen
        omega
      obtain ⟨q, x, rfl⟩ : ∃ q x, p = q ++ [x] :=
        ⟨p.dropLast, p.getLast hne, (List.dropLast_append_getLast hne).symm⟩
      rw [rangeHash_spine hn h, List.foldl_concat] at hp
      obtain ⟨hq, rfl⟩ := hinj hp
      simp only [List.length_append, List.length_singleton, Nat.add_right_cancel_iff] at hlen
      obtain ⟨hr, rfl⟩ := ih _ hk (by omega) (split_spine h) hlen hq
      exact ⟨hr, rfl⟩

/-- If the old root is that of the first leaves, and the leaves after them open to what the
siblings lead to, then that is the tree hash. -/
theorem foldl_eq_of_opens (hinj : Function.Injective2 (combine (H := H))) (hn : n ≤ D.length)
    (h : 2 ^ l ≤ n) {p : List H} (hlen : p.length = (subproof (2 ^ l) (seg D 0 n) true).length)
    (hopens : Opens D 0 (2 ^ l) n (p.foldl combine (rangeHash D 0 (2 ^ l)))) :
    p.foldl combine (rangeHash D 0 (2 ^ l)) = rangeHash D 0 n := by
  induction n using Nat.strong_induction_on generalizing p with
  | h n ih =>
    have hpos := Nat.two_pow_pos l
    rcases h.eq_or_lt with rfl | h
    · rw [subproof_seg_self (by omega), if_pos rfl] at hlen
      rw [List.length_eq_zero_iff.mp hlen, List.foldl_nil]
    · have hk := split_lt (n := n) (by omega)
      have hspine := split_spine h
      rw [subproof_spine hn h, List.length_append, List.length_singleton] at hlen
      have hne : p ≠ [] := List.ne_nil_of_length_pos (by omega)
      obtain ⟨q, x, rfl⟩ : ∃ q x, p = q ++ [x] :=
        ⟨p.dropLast, p.getLast hne, (List.dropLast_append_getLast hne).symm⟩
      rw [List.foldl_concat] at hopens ⊢
      rw [List.length_append, List.length_singleton, Nat.add_right_cancel_iff] at hlen
      have hleft := ih _ hk (by omega) hspine hlen (opens_left hinj (by omega) hopens)
      have hopens' := opens_right hinj (by omega) hopens
      rw [Nat.zero_add, Nat.sub_eq_zero_of_le hspine] at hopens'
      have hright := rangeHash_of_opens hinj (by omega) (by omega) hopens'
      rw [rangeHash_spine hn h, hleft, hright]

end PowerOfTwo

end Siglog.Rfc

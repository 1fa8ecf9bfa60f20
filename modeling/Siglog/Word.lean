import Siglog.Rfc.TreeHash
import Mathlib.Algebra.Order.Ring.Nat

/-! Machine words. Overflow checks are on in every build profile, so arithmetic
on `u64` and `usize` either stays in range or panics. Words are natural numbers
here, and each operation that can leave the range says so in its type. -/

namespace Siglog

/-- How a computation ends when it does not return a value. -/
inductive Fault (ε : Type) where
  | err (e : ε)
  | panic
  deriving DecidableEq, Repr

def i64Max : ℕ := 2 ^ 63 - 1

variable {ε : Type}

/-- A sequence that succeeds does so in both parts. -/
theorem bind_eq_ok {ε α β : Type} {x : Except ε α} {f : α → Except ε β} {b : β}
    (h : x >>= f = .ok b) :
    ∃ a, x = .ok a ∧ f a = .ok b := by
  cases x with
  | error e => cases h
  | ok a => exact ⟨a, rfl, h⟩

/-- What holds of every result holds of all results of a list. -/
theorem forall_of_mapM {α β ε : Type} {f : α → Except ε β} {P : β → Prop}
    (hf : ∀ a b, f a = .ok b → P b) {l : List α} :
    ∀ {r : List β}, l.mapM f = .ok r → ∀ b ∈ r, P b := by
  induction l with
  | nil =>
    intro r h
    obtain rfl := Except.ok.inj h
    simp
  | cons a l ih =>
    intro r h
    rw [List.mapM_cons] at h
    obtain ⟨b, hb, h⟩ := bind_eq_ok h
    obtain ⟨rest, hrest, h⟩ := bind_eq_ok h
    obtain rfl := Except.ok.inj h
    exact List.forall_mem_cons.mpr ⟨hf a b hb, ih hrest⟩

theorem mapM_map {α β γ ε : Type} {f : β → Except ε γ} {g : α → β} {h : α → γ} {l : List α}
    (hf : ∀ a ∈ l, f (g a) = .ok (h a)) : (l.map g).mapM f = .ok (l.map h) := by
  induction l with
  | nil => rfl
  | cons a l ih =>
    obtain ⟨ha, hl⟩ := List.forall_mem_cons.mp hf
    rw [List.map_cons, List.mapM_cons, ha, ih hl]
    rfl

/-- The only element with its key is the one that is found. -/
theorem find_of_nodup {α β : Type} [DecidableEq β] {key : α → β} {l : List α}
    (h : (l.map key).Nodup) {a : α} (ha : a ∈ l) :
    l.find? (fun b => key b = key a) = some a := by
  induction l with
  | nil => cases ha
  | cons b l ih =>
    rw [List.map_cons, List.nodup_cons] at h
    rcases List.mem_cons.mp ha with rfl | hmem
    · simp
    · have hother : key b ≠ key a := fun heq => h.1 (heq ▸ List.mem_map_of_mem hmem)
      rw [List.find?_cons_of_neg (by simpa using hother)]
      exact ih h.2 hmem

theorem mapError_ok {ε ε' α : Type} {x : Except ε α} {f : ε → ε'} {a : α}
    (h : x.mapError f = .ok a) : x = .ok a := by
  cases x with
  | ok b => exact congrArg Except.ok (Except.ok.inj h)
  | error e => cases h

theorem bind_ne_panic {α β : Type} {x : Except (Fault ε) α} {f : α → Except (Fault ε) β}
    (hx : x ≠ .error .panic) (hf : ∀ a, f a ≠ .error .panic) : x >>= f ≠ .error .panic := by
  cases x with
  | ok a => exact hf a
  | error e =>
    intro h
    cases h
    exact hx rfl

def checkedAdd (a b : ℕ) : Except (Fault ε) ℕ :=
  if a + b < 2 ^ 64 then .ok (a + b) else .error .panic

def checkedSub (a b : ℕ) : Except (Fault ε) ℕ :=
  if b ≤ a then .ok (a - b) else .error .panic

def checkedMul (a b : ℕ) : Except (Fault ε) ℕ :=
  if a * b < 2 ^ 64 then .ok (a * b) else .error .panic

/-- Bits shifted out are lost; only the shift amount is checked. -/
def checkedShl (a s : ℕ) : Except (Fault ε) ℕ :=
  if s < 64 then .ok (a * 2 ^ s % 2 ^ 64) else .error .panic

theorem checkedAdd_ok {a b : ℕ} (h : a + b < 2 ^ 64) :
    checkedAdd a b = (.ok (a + b) : Except (Fault ε) ℕ) := if_pos h

theorem checkedSub_ok {a b : ℕ} (h : b ≤ a) :
    checkedSub a b = (.ok (a - b) : Except (Fault ε) ℕ) := if_pos h

theorem checkedMul_ok {a b : ℕ} (h : a * b < 2 ^ 64) :
    checkedMul a b = (.ok (a * b) : Except (Fault ε) ℕ) := if_pos h

theorem checkedShl_ok {a s : ℕ} (h : s < 64) (h' : a * 2 ^ s < 2 ^ 64) :
    checkedShl a s = (.ok (a * 2 ^ s) : Except (Fault ε) ℕ) := by
  rw [checkedShl, if_pos h, Nat.mod_eq_of_lt h']

def leadingZeros (n : ℕ) : ℕ := if n = 0 then 64 else 63 - n.log2

def trailingZeros (n : ℕ) : ℕ :=
  if n = 0 then 64 else if n % 2 = 1 then 0 else trailingZeros (n / 2) + 1
termination_by n
decreasing_by omega

def IsPowerOfTwo (n : ℕ) : Prop := n = 2 ^ n.log2

instance (n : ℕ) : Decidable (IsPowerOfTwo n) := inferInstanceAs (Decidable (_ = _))

theorem isPowerOfTwo_iff {n : ℕ} : IsPowerOfTwo n ↔ ∃ l, n = 2 ^ l := by
  refine ⟨fun h => ⟨_, h⟩, ?_⟩
  rintro ⟨l, rfl⟩
  rw [IsPowerOfTwo, Nat.log2_two_pow]

theorem isPowerOfTwo_pow (l : ℕ) : IsPowerOfTwo (2 ^ l) := isPowerOfTwo_iff.mpr ⟨l, rfl⟩

@[simp] theorem trailingZeros_pow (l : ℕ) : trailingZeros (2 ^ l) = l := by
  induction l with
  | zero => rw [pow_zero, trailingZeros, if_neg (by omega), if_pos (by omega)]
  | succ l ih =>
    have hpos := Nat.two_pow_pos l
    rw [trailingZeros, pow_succ, if_neg (by omega), if_neg (by omega),
      Nat.mul_div_cancel _ (by omega), ih]

theorem leadingZeros_eq {n : ℕ} (h : n ≠ 0) (hn : n < 2 ^ 64) : leadingZeros n + n.log2 = 63 := by
  have := (Nat.log2_lt h).mpr hn
  rw [leadingZeros, if_neg h]
  omega

/-! ### The largest power of two below a number -/

def largestPowerOf2LessThan (n : ℕ) : Except (Fault ε) ℕ :=
  if n ≤ 1 then .ok 0
  else do
    let s ← checkedSub 63 (leadingZeros (n - 1))
    checkedShl 1 s

theorem largestPowerOf2LessThan_eq {n : ℕ} (h : 2 ≤ n) (hn : n ≤ 2 ^ 64) :
    largestPowerOf2LessThan n = (.ok (Rfc.split n) : Except (Fault ε) ℕ) := by
  have hlz := leadingZeros_eq (n := n - 1) (by omega) (by omega)
  have hpow : 1 * 2 ^ (n - 1).log2 < 2 ^ 64 := by
    rw [one_mul]
    exact Nat.pow_lt_pow_right (by omega) (by omega)
  rw [largestPowerOf2LessThan, if_neg (by omega), checkedSub_ok (by omega),
    show 63 - leadingZeros (n - 1) = (n - 1).log2 by omega]
  change checkedShl 1 (n - 1).log2 = _
  rw [checkedShl_ok (by omega) hpow, one_mul, Rfc.split]

theorem largestPowerOf2LessThan_pos {n k : ℕ}
    (h : largestPowerOf2LessThan n = (.ok k : Except (Fault ε) ℕ))
    (hn : 2 ≤ n) : 0 < k := by
  rw [largestPowerOf2LessThan, if_neg (by omega)] at h
  simp only [checkedSub, checkedShl, one_mul] at h
  split_ifs at h
  · change (if 63 - leadingZeros (n - 1) < 64 then _ else _) = _ at h
    rw [if_pos (by omega)] at h
    cases h
    have hlt : 2 ^ (63 - leadingZeros (n - 1)) < 2 ^ 64 :=
      Nat.pow_lt_pow_right (by omega) (by omega)
    rw [Nat.mod_eq_of_lt hlt]
    exact Nat.two_pow_pos _
  · cases h

theorem largestPowerOf2LessThan_lt {n k : ℕ}
    (h : largestPowerOf2LessThan n = (.ok k : Except (Fault ε) ℕ))
    (hn : 0 < n) : k < n := by
  by_cases h1 : n ≤ 1
  · rw [largestPowerOf2LessThan, if_pos h1] at h
    cases h
    exact hn
  · rw [largestPowerOf2LessThan, if_neg h1] at h
    have hle : 63 - leadingZeros (n - 1) ≤ (n - 1).log2 := by
      rw [leadingZeros, if_neg (by omega)]
      omega
    have hpow := Nat.pow_le_pow_right (n := 2) (by omega) hle
    have hlog := Nat.log2_self_le (n := n - 1) (by omega)
    simp only [checkedSub, checkedShl, one_mul] at h
    split_ifs at h
    · change (if 63 - leadingZeros (n - 1) < 64 then _ else _) = _ at h
      rw [if_pos (by omega)] at h
      cases h
      have := Nat.mod_le (2 ^ (63 - leadingZeros (n - 1))) (2 ^ 64)
      omega
    · cases h

end Siglog

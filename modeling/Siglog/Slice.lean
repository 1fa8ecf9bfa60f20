import Siglog.Types
import Mathlib.Data.List.Induction

/-! Byte slices and numbers in bytes. An index outside of its slice panics. -/

namespace Siglog

variable {ε : Type}

/-- `data[lo..hi]` -/
def slice (data : Bytes) (lo hi : ℕ) : Except (Fault ε) Bytes :=
  if lo ≤ hi ∧ hi ≤ data.length then .ok ((data.take hi).drop lo) else .error .panic

/-- `data[i]` -/
def byteAt (data : Bytes) (i : ℕ) : Except (Fault ε) UInt8 :=
  match data[i]? with
  | some b => .ok b
  | none => .error .panic

/-- `try_into().unwrap()`, to an array of `n` bytes. -/
def array (n : ℕ) (b : Bytes) : Except (Fault ε) { b : Bytes // b.length = n } :=
  if h : b.length = n then .ok ⟨b, h⟩ else .error .panic

theorem slice_ok {data : Bytes} {lo n : ℕ} (h : lo + n ≤ data.length) :
    slice data lo (lo + n) = (.ok ((data.drop lo).take n) : Except (Fault ε) Bytes) := by
  rw [slice, if_pos ⟨by omega, h⟩, List.drop_take]
  simp

/-- The slice of what stands at an offset. -/
theorem slice_of_drop {data part rest : Bytes} {lo : ℕ} (h : data.drop lo = part ++ rest)
    (hpart : part ≠ []) :
    slice data lo (lo + part.length) = (.ok part : Except (Fault ε) Bytes) := by
  have hlen := congrArg List.length h
  have hpos := List.length_pos_of_ne_nil hpart
  rw [List.length_drop, List.length_append] at hlen
  rw [slice_ok (by omega), h, List.take_left' rfl]

theorem array_ok {n : ℕ} (b : { b : Bytes // b.length = n }) :
    array n b.val = (.ok b : Except (Fault ε) _) := dif_pos b.property

theorem byteAt_ok {data rest : Bytes} {i : ℕ} {b : UInt8} (h : data.drop i = b :: rest) :
    byteAt data i = (.ok b : Except (Fault ε) UInt8) := by
  have hget : data[i]? = some b := by simpa [h] using (@List.getElem?_drop _ data i 0).symm
  simp [byteAt, hget]

/-! ### Highest byte first -/

/-- `from_be_bytes` -/
def beNat (b : Bytes) : ℕ := b.foldl (fun acc x => acc * 256 + x.toNat) 0

@[simp] theorem beNat_concat (b : Bytes) (x : UInt8) :
    beNat (b ++ [x]) = beNat b * 256 + x.toNat := by
  simp [beNat]

theorem beNat_lt (b : Bytes) : beNat b < 256 ^ b.length := by
  induction b using List.reverseRecOn with
  | nil => simp [beNat]
  | append_singleton b x ih =>
    have hx := x.toNat_lt
    simp only [beNat_concat, List.length_append, List.length_singleton, pow_succ]
    omega

/-- Bytes of one length are determined by their number. -/
theorem beNat_injective {a b : Bytes} (hl : a.length = b.length) (h : beNat a = beNat b) :
    a = b := by
  induction a using List.reverseRecOn generalizing b with
  | nil => exact (List.length_eq_zero_iff.mp hl.symm).symm
  | append_singleton a x ih =>
    cases b using List.reverseRecOn with
    | nil => simp at hl
    | append_singleton b y =>
      have hx := x.toNat_lt
      have hy := y.toNat_lt
      simp only [beNat_concat] at h
      simp only [List.length_append, List.length_singleton, Nat.add_right_cancel_iff] at hl
      have hxy : x = y := UInt8.toNat_inj.mp (by omega)
      rw [ih hl (by omega), hxy]

@[simp] theorem length_u32BeBytes (n : ℕ) : (u32BeBytes n).length = 4 := rfl

@[simp] theorem length_u64BeBytes (n : ℕ) : (u64BeBytes n).length = 8 := rfl

theorem push_byte (n s : ℕ) :
    n / 2 ^ (s + 8) * 256 + (UInt8.ofNat (n / 2 ^ s)).toNat = n / 2 ^ s := by
  rw [UInt8.toNat_ofNat', pow_add, ← Nat.div_div_eq_div_mul]
  omega

theorem first_byte {n s : ℕ} (h : n < 2 ^ s * 256) :
    0 * 256 + (UInt8.ofNat (n / 2 ^ s)).toNat = n / 2 ^ s := by
  rw [UInt8.toNat_ofNat', Nat.mod_eq_of_lt (Nat.div_lt_of_lt_mul h), Nat.zero_mul, Nat.zero_add]

theorem beNat_u32BeBytes {n : ℕ} (h : n < 2 ^ 32) : beNat (u32BeBytes n) = n := by
  simp only [beNat, u32BeBytes, List.map_cons, List.map_nil, List.foldl_cons, List.foldl_nil]
  rw [first_byte h, push_byte n 16, push_byte n 8, push_byte n 0, pow_zero, Nat.div_one]

theorem beNat_u64BeBytes {n : ℕ} (h : n < 2 ^ 64) : beNat (u64BeBytes n) = n := by
  simp only [beNat, u64BeBytes, List.map_cons, List.map_nil, List.foldl_cons, List.foldl_nil]
  rw [first_byte h, push_byte n 48, push_byte n 40, push_byte n 32, push_byte n 24, push_byte n 16,
    push_byte n 8, push_byte n 0, pow_zero, Nat.div_one]

theorem u32BeBytes_beNat {b : Bytes} (h : b.length = 4) : u32BeBytes (beNat b) = b := by
  have hlt := beNat_lt b
  rw [h] at hlt
  apply beNat_injective
  · rw [length_u32BeBytes, h]
  · exact beNat_u32BeBytes (by omega)

theorem u64BeBytes_beNat {b : Bytes} (h : b.length = 8) : u64BeBytes (beNat b) = b := by
  have hlt := beNat_lt b
  rw [h] at hlt
  apply beNat_injective
  · rw [length_u64BeBytes, h]
  · exact beNat_u64BeBytes (by omega)

/-- Bytes in groups of eight are the bytes of numbers. -/
theorem exists_u64s {n : ℕ} : ∀ {b : Bytes}, b.length = n * 8 →
    ∃ vs : List ℕ, vs.length = n ∧ (∀ v ∈ vs, v < 2 ^ 64) ∧ b = vs.flatMap u64BeBytes := by
  induction n with
  | zero =>
    intro b h
    exact ⟨[], rfl, by simp, List.eq_nil_of_length_eq_zero (by omega)⟩
  | succ n ih =>
    intro b h
    have hfirst : (b.take 8).length = 8 := List.length_take_of_le (by omega)
    obtain ⟨vs, hlen, hlt, hb⟩ := ih (b := b.drop 8) (by rw [List.length_drop]; omega)
    have hv := beNat_lt (b.take 8)
    rw [hfirst] at hv
    refine ⟨beNat (b.take 8) :: vs, by rw [List.length_cons, hlen], ?_, ?_⟩
    · rw [List.forall_mem_cons]
      exact ⟨by omega, hlt⟩
    · rw [List.flatMap_cons, u64BeBytes_beNat hfirst, ← hb, List.take_append_drop]

theorem length_flatMap_u64BeBytes (vs : List ℕ) :
    (vs.flatMap u64BeBytes).length = vs.length * 8 := by
  induction vs with
  | nil => rfl
  | cons v vs ih =>
    rw [List.flatMap_cons, List.length_append, ih, length_u64BeBytes, List.length_cons]
    omega

/-! ### Lowest byte first -/

/-- `u32::to_le_bytes`. -/
def u32LeBytes (n : ℕ) : Bytes := [0, 8, 16, 24].map fun s => UInt8.ofNat (n / 2 ^ s)

/-- `from_le_bytes` -/
def leNat (b : Bytes) : ℕ := beNat b.reverse

@[simp] theorem length_u32LeBytes (n : ℕ) : (u32LeBytes n).length = 4 := rfl

theorem leNat_u32LeBytes {n : ℕ} (h : n < 2 ^ 32) : leNat (u32LeBytes n) = n := beNat_u32BeBytes h

theorem u32LeBytes_leNat {b : Bytes} (h : b.length = 4) : u32LeBytes (leNat b) = b :=
  List.reverse_injective (u32BeBytes_beNat (by simpa using h))

end Siglog

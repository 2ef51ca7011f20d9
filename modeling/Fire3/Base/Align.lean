import Mathlib.Data.Nat.Bitwise

/-!
Words of 64 bits: sums and differences that wrap, rounding up or down to a multiple of a power of
two with a mask, and fields that are put side by side.
-/

namespace Align

def add64 (a b : Nat) : Nat := (a + b) % 2 ^ 64

@[irreducible] def sub64 (a b : Nat) : Nat := (a + 2 ^ 64 - b) % 2 ^ 64

theorem add64_of_lt {a b : Nat} (h : a + b < 2 ^ 64) : add64 a b = a + b := Nat.mod_eq_of_lt h

theorem sub64_of_le {a b : Nat} (h : b ≤ a) (ha : a < 2 ^ 64) : sub64 a b = a - b := by
  unfold sub64
  omega

theorem sub64_lt (a b : Nat) : sub64 a b < 2 ^ 64 := by
  unfold sub64
  omega

theorem sub64_of_lt {a b : Nat} (h : a < b) (hb : b < 2 ^ 64) : sub64 a b = a + 2 ^ 64 - b := by
  unfold sub64
  omega

/-- The macro `ALIGN` on words of 64 bits. -/
def align (x a : Nat) : Nat := (x + (a - 1)) % 2 ^ 64 &&& (2 ^ 64 - 1 - (a - 1))

variable {x a c : Nat}

theorem and_mask (y : Nat) {k : Nat} (hk : k ≤ 64) (hy : y < 2 ^ 64) :
    y &&& (2 ^ 64 - 1 - (2 ^ k - 1)) = y / 2 ^ k * 2 ^ k := by
  have hPow : 2 ^ k ≤ 2 ^ 64 := Nat.pow_le_pow_right (by decide) hk
  have hMask : 2 ^ 64 - 1 - (2 ^ k - 1) = 2 ^ 64 - (2 ^ k - 1 + 1) := by omega
  have hLt : 2 ^ k - 1 < 2 ^ 64 := by omega
  refine Nat.eq_of_testBit_eq fun i => ?_
  rw [Nat.testBit_and, hMask, Nat.testBit_two_pow_sub_succ hLt, Nat.testBit_two_pow_sub_one,
    Nat.testBit_mul_two_pow, Nat.testBit_div_two_pow]
  by_cases hi : k ≤ i
  · by_cases hHigh : i < 64
    · simp [hi, hHigh, Nat.not_lt.mpr hi]
    · have hZero : y.testBit i = false :=
        Nat.testBit_lt_two_pow (hy.trans_le (Nat.pow_le_pow_right (by decide) (by omega)))
      simp [hZero, hi]
  · simp [hi, Nat.lt_of_not_le hi]

theorem shift_or (a : Nat) {b k : Nat} (h : b < 2 ^ k) : a <<< k ||| b = a * 2 ^ k + b := by
  rw [← Nat.shiftLeft_add_eq_or_of_lt h, Nat.shiftLeft_eq]

theorem two_pow_pos (ha : ∃ k ≤ 64, a = 2 ^ k) : 0 < a := by
  obtain ⟨k, -, rfl⟩ := ha
  exact Nat.two_pow_pos k

section
variable (ha : ∃ k ≤ 64, a = 2 ^ k) (hx : x + a ≤ 2 ^ 64)
include ha hx

theorem align_eq : align x a = (x + (a - 1)) / a * a := by
  have hPos := two_pow_pos ha
  obtain ⟨k, hk, rfl⟩ := ha
  rw [align, Nat.mod_eq_of_lt (by omega), and_mask _ hk (by omega)]

theorem dvd_align : a ∣ align x a := by
  rw [align_eq ha hx]
  exact Nat.dvd_mul_left ..

theorem le_align : x ≤ align x a := by
  have hPos := two_pow_pos ha
  have hMod := Nat.mod_lt (x + (a - 1)) hPos
  grind [Nat.div_add_mod', align_eq]

theorem align_le (hc : a ∣ c) (h : x ≤ c) : align x a ≤ c := by
  have hPos := two_pow_pos ha
  obtain ⟨n, rfl⟩ := hc
  rw [align_eq ha hx, Nat.mul_comm a n]
  refine Nat.mul_le_mul_right a (Nat.lt_succ_iff.mp ?_)
  rw [Nat.div_lt_iff_lt_mul hPos, Nat.succ_mul, Nat.mul_comm n a]
  omega

theorem align_of_dvd (h : a ∣ x) : align x a = x :=
  Nat.le_antisymm (align_le ha hx h (le_refl x)) (le_align ha hx)

end

def alignDown (x a : Nat) : Nat := x &&& (2 ^ 64 - 1 - (a - 1))

theorem alignDown_le (x a : Nat) : alignDown x a ≤ x := Nat.and_le_left

theorem dvd_alignDown (ha : ∃ k ≤ 64, a = 2 ^ k) (hx : x < 2 ^ 64) : a ∣ alignDown x a := by
  obtain ⟨k, hk, rfl⟩ := ha
  rw [alignDown, and_mask x hk hx]
  exact Nat.dvd_mul_left ..

theorem le_alignDown (ha : ∃ k ≤ 64, a = 2 ^ k) (hx : x < 2 ^ 64) (hc : a ∣ c) (h : c ≤ x) :
    c ≤ alignDown x a := by
  obtain ⟨k, hk, rfl⟩ := ha
  obtain ⟨n, rfl⟩ := hc
  rw [alignDown, and_mask x hk hx, Nat.mul_comm]
  exact Nat.mul_le_mul_right _ ((Nat.le_div_iff_mul_le (Nat.two_pow_pos k)).mpr (by rwa [Nat.mul_comm]))

end Align

import Mathlib.Data.Finset.Card
import Mathlib.Data.Nat.Bitwise
import Mathlib.Order.Nat

/-!
Bitmaps in memory: bit `k` is bit `k % 8` of byte `k / 8`.
-/

namespace Bitmap

/-- The byte `1 << i`. -/
def mask (i : Nat) : UInt8 := UInt8.ofNat (2 ^ i)

def bit (f : Nat → UInt8) (k : Nat) : Bool := (f (k / 8)).toNat.testBit (k % 8)

def setBit (f : Nat → UInt8) (k : Nat) : Nat → UInt8 :=
  Function.update f (k / 8) (f (k / 8) ||| mask (k % 8))

/-- The bits below `n` that are clear. -/
def clear (f : Nat → UInt8) (n : Nat) : Finset Nat := (Finset.range n).filter fun k => bit f k = false

variable {f : Nat → UInt8} {k j n : Nat}

theorem toNat_mask {i : Nat} (hi : i < 8) : (mask i).toNat = 2 ^ i := by
  rw [mask, UInt8.toNat_ofNat']
  exact Nat.mod_eq_of_lt (Nat.pow_lt_pow_right (by decide) hi)

theorem and_mask_eq_zero_iff {b : UInt8} {i : Nat} (hi : i < 8) :
    b &&& mask i = 0 ↔ b.toNat.testBit i = false := by
  rw [← UInt8.toNat_inj, UInt8.toNat_and, toNat_mask hi, Nat.and_two_pow]
  cases b.toNat.testBit i
  · simp
  · simp

theorem testBit_or_mask {b : UInt8} {i : Nat} (hi : i < 8) (j : Nat) :
    (b ||| mask i).toNat.testBit j = (b.toNat.testBit j || decide (i = j)) := by
  rw [UInt8.toNat_or, toNat_mask hi, Nat.testBit_or, Nat.testBit_two_pow]

@[simp] theorem bit_setBit_self (f : Nat → UInt8) (k : Nat) : bit (setBit f k) k = true := by
  rw [bit, setBit, Function.update_self, testBit_or_mask (Nat.mod_lt _ (by decide))]
  simp

theorem bit_setBit_of_ne (h : j ≠ k) : bit (setBit f k) j = bit f j := by
  rw [bit, setBit]
  by_cases hByte : j / 8 = k / 8
  · rw [hByte, Function.update_self, testBit_or_mask (Nat.mod_lt _ (by decide)), bit, hByte]
    grind
  · rw [Function.update_of_ne hByte, bit]

theorem mem_clear : k ∈ clear f n ↔ k < n ∧ bit f k = false := by
  rw [clear, Finset.mem_filter, Finset.mem_range]

theorem clear_setBit (f : Nat → UInt8) (k n : Nat) : clear (setBit f k) n = (clear f n).erase k := by
  ext j
  rw [Finset.mem_erase, mem_clear, mem_clear]
  by_cases h : j = k
  · subst h
    simp
  · grind [bit_setBit_of_ne]

theorem card_clear_setBit (hk : k < n) (hClear : bit f k = false) :
    (clear (setBit f k) n).card = (clear f n).card - 1 := by
  rw [clear_setBit, Finset.card_erase_of_mem (mem_clear.mpr ⟨hk, hClear⟩)]

theorem card_clear_eq_zero_iff : (clear f n).card = 0 ↔ ∀ k < n, bit f k = true := by
  rw [Finset.card_eq_zero, Finset.eq_empty_iff_forall_notMem]
  refine forall_congr' fun k => ?_
  rw [mem_clear, not_and, Bool.not_eq_false]

theorem eq_255_iff (f : Nat → UInt8) (i : Nat) : f i = 255 ↔ ∀ j < 8, bit f (8 * i + j) = true := by
  have hBit : ∀ j < 8, bit f (8 * i + j) = (f i).toNat.testBit j := by
    intro j hj
    rw [bit, show (8 * i + j) / 8 = i by omega, show (8 * i + j) % 8 = j by omega]
  have hFull : ∀ j, (255 : UInt8).toNat.testBit j = decide (j < 8) := fun j =>
    Nat.testBit_two_pow_sub_one 8 j
  constructor
  · intro hAll j hj
    rw [hBit j hj, hAll, hFull]
    exact decide_eq_true hj
  · intro hAll
    rw [← UInt8.toNat_inj]
    apply Nat.eq_of_testBit_eq
    intro j
    rw [hFull]
    by_cases hj : j < 8
    · grind
    · rw [decide_eq_false hj]
      exact Nat.testBit_lt_two_pow ((f i).toNat_lt.trans_le
        (Nat.pow_le_pow_right (by decide) (Nat.le_of_not_lt hj)))

theorem card_clear_eq_one (hk : k < n) (hClear : bit f k = false) (hFull : ∀ i, setBit f k i = 255) :
    (clear f n).card = 1 := by
  have hNone : (clear (setBit f k) n).card = 0 := by
    rw [card_clear_eq_zero_iff]
    intro j _
    rw [bit, hFull]
    have hBit : ∀ i < 8, (255 : UInt8).toNat.testBit i = true := by decide
    exact hBit _ (Nat.mod_lt _ (by decide))
  have hSome : 0 < (clear f n).card := Finset.card_pos.mpr ⟨k, mem_clear.mpr ⟨hk, hClear⟩⟩
  rw [card_clear_setBit hk hClear] at hNone
  omega

end Bitmap

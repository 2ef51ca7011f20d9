import Fire3.Base.ByteMemory
import Mathlib.Data.Nat.ModEq

/-!
Sums of 16-bit words with end-around carry, and of the bytes such words are made of.

A sum stands for its residue modulo 65535. Zero has two words, and only a sum of
zeros is the word 0.
-/

namespace OnesComplement
open ByteMemory

/-- Addition of two words; a carry is added at the other end. -/
def add (a b : Nat) : Nat := if 0xffff < a + b then a + b - 0xffff else a + b

def sum (ws : List Nat) : Nat := ws.foldl add 0

def norm (n : Nat) : Nat := if n = 0 then 0 else (n - 1) % 0xffff + 1

theorem norm_le (n : Nat) : norm n ≤ 0xffff := by
  unfold norm
  split <;> omega

theorem norm_eq_zero_iff {n : Nat} : norm n = 0 ↔ n = 0 := by
  unfold norm
  split <;> omega

theorem norm_mod (n : Nat) : norm n % 0xffff = n % 0xffff := by
  unfold norm
  split <;> omega

theorem norm_of_le {n : Nat} (h : n ≤ 0xffff) : norm n = n := by
  unfold norm
  split <;> omega

theorem norm_eq_iff {a b : Nat} :
    norm a = norm b ↔ (a = 0 ↔ b = 0) ∧ a ≡ b [MOD 0xffff] := by
  unfold norm Nat.ModEq
  split <;> split <;> omega

theorem add_eq_norm {a b : Nat} (ha : a ≤ 0xffff) (hb : b ≤ 0xffff) : add a b = norm (a + b) := by
  unfold add norm
  split <;> split <;> omega

theorem norm_norm_add (a b : Nat) : norm (norm a + b) = norm (a + b) := by
  rw [norm_eq_iff]
  have hZero := @norm_eq_zero_iff a
  exact ⟨by omega, Nat.ModEq.add_right b (norm_mod a)⟩

theorem norm_add_congr {a b : Nat} (x : Nat) (h : norm a = norm b) : norm (x + a) = norm (x + b) := by
  rw [Nat.add_comm, ← norm_norm_add, h, norm_norm_add, Nat.add_comm]

theorem foldl_add {ws : List Nat} (h : ∀ w ∈ ws, w ≤ 0xffff) {acc : Nat} (hAcc : acc ≤ 0xffff) :
    ws.foldl add acc = norm (acc + ws.sum) := by
  induction ws generalizing acc with
  | nil => rw [List.foldl_nil, List.sum_nil, Nat.add_zero, norm_of_le hAcc]
  | cons w ws ih =>
      rw [List.forall_mem_cons] at h
      rw [List.foldl_cons, add_eq_norm hAcc h.1, ih h.2 (norm_le _), norm_norm_add, List.sum_cons,
        Nat.add_assoc]

theorem sum_eq_norm {ws : List Nat} (h : ∀ w ∈ ws, w ≤ 0xffff) : sum ws = norm ws.sum := by
  rw [sum, foldl_add h (Nat.zero_le _), Nat.zero_add]

theorem norm_of_folds {n : Nat} (h : n < 2 ^ 32) :
    (n / 2 ^ 16 + n % 2 ^ 16 + (n / 2 ^ 16 + n % 2 ^ 16) / 2 ^ 16) % 2 ^ 16 = norm n := by
  have hOnce : norm (n / 2 ^ 16 + n % 2 ^ 16) = norm n := by
    rw [norm_eq_iff, Nat.ModEq]
    omega
  have hSmall : n / 2 ^ 16 + n % 2 ^ 16 ≤ 0x1fffe := by omega
  rw [← hOnce]
  generalize n / 2 ^ 16 + n % 2 ^ 16 = m at hSmall
  rcases Nat.lt_or_ge m (2 ^ 16) with hLow | hHigh
  · rw [Nat.div_eq_of_lt hLow, Nat.add_zero, Nat.mod_eq_of_lt hLow, norm_of_le (by omega)]
  · have hCarry : m / 2 ^ 16 = 1 := by omega
    rw [hCarry, norm, if_neg (by omega)]
    omega

def swap (v : Nat) : Nat := v / 256 % 256 + 256 * (v % 256)

theorem norm_swap {v : Nat} (h : v ≤ 0xffff) : norm (swap v) = norm (256 * v) := by
  obtain ⟨hi, lo, hHi, hLo, rfl⟩ : ∃ hi lo, hi < 256 ∧ lo < 256 ∧ v = 256 * hi + lo :=
    ⟨v / 256, v % 256, by omega, by omega, by omega⟩
  have hSwap : swap (256 * hi + lo) = hi + 256 * lo := by
    unfold swap
    omega
  rw [hSwap, norm_eq_iff, Nat.ModEq]
  omega

theorem swap_le (v : Nat) : swap v ≤ 0xffff := by
  unfold swap
  omega

/-- The sum of bytes that are the lower and the upper byte of a word in turn; `upper` tells
which the first one is. -/
def byteSum : Bool → List UInt8 → Nat
  | _, [] => 0
  | upper, b :: bs => (if upper then 256 * b.toNat else b.toNat) + byteSum (!upper) bs

theorem byteSum_append (upper : Bool) (xs ys : List UInt8) :
    byteSum upper (xs ++ ys) =
      byteSum upper xs + byteSum (upper ^^ decide (xs.length % 2 = 1)) ys := by
  induction xs generalizing upper with
  | nil => simp [byteSum]
  | cons x xs ih =>
      have hSide : ((!upper) ^^ decide (xs.length % 2 = 1)) =
          (upper ^^ decide ((xs.length + 1) % 2 = 1)) := by
        rcases Nat.mod_two_eq_zero_or_one xs.length with hEven | hOdd
        · grind
        · grind
      rw [List.cons_append, byteSum, byteSum, ih, hSide, List.length_cons, Nat.add_assoc]

theorem byteSum_shift (upper : Bool) (bs : List UInt8) :
    256 * byteSum upper bs ≡ byteSum (!upper) bs [MOD 0xffff] := by
  induction bs generalizing upper with
  | nil => rfl
  | cons b bs ih =>
      rw [byteSum, byteSum, Nat.mul_add]
      refine Nat.ModEq.add ?_ (ih (!upper))
      cases upper with
      | false => rfl
      | true =>
          simp only [if_true, Bool.not_true, Bool.false_eq_true, if_false, Nat.ModEq]
          omega

theorem byteSum_eq_zero_iff (upper : Bool) (bs : List UInt8) :
    byteSum upper bs = 0 ↔ byteSum (!upper) bs = 0 := by
  induction bs generalizing upper with
  | nil => rfl
  | cons b bs ih =>
      have hRest := ih (!upper)
      rw [byteSum, byteSum]
      grind

theorem norm_byteSum_shift (bs : List UInt8) :
    norm (256 * byteSum false bs) = norm (byteSum true bs) := by
  have hZero := byteSum_eq_zero_iff false bs
  rw [norm_eq_iff]
  exact ⟨by rw [Bool.not_false] at hZero; omega, byteSum_shift false bs⟩

theorem byteSum_le (upper : Bool) (bs : List UInt8) :
    byteSum upper bs ≤
      65535 * (bs.length / 2) + bs.length % 2 * (if upper then 65280 else 255) := by
  induction bs generalizing upper with
  | nil => simp [byteSum]
  | cons b bs ih =>
      have hb : b.toNat < 256 := b.toNat_lt
      have hRest := ih (!upper)
      rw [byteSum, List.length_cons]
      grind

theorem sum_words (m : Mem) (a k : Nat) :
    ((List.range k).map fun i => readLE m (a + 2 * i) 2).sum = byteSum false (load m a (2 * k)) := by
  induction k with
  | zero => rfl
  | succ k ih =>
      have hWord : load m (a + 2 * k) 2 = [m (a + 2 * k), m (a + 2 * k + 1)] := rfl
      have hEven : (load m a (2 * k)).length % 2 = 0 := by
        rw [length_load]
        omega
      rw [List.range_succ, List.map_append, List.sum_append, ih, Nat.mul_succ, load_add,
        byteSum_append, hEven, hWord]
      simp [readLE, hWord, leValue, byteSum]

end OnesComplement

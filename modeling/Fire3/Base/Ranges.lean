import Mathlib.Order.Nat
import Mathlib.Tactic.Common

/-!
Sorted tables of ranges, kept in an array with a count.

Only the entries below the count matter; what lies behind them may be anything. A table covers the
addresses of its ranges.
-/

namespace Ranges

/-- The addresses from `base` on, `size` of them. -/
@[ext]
structure Range where
  base : Nat
  size : Nat
  deriving DecidableEq, Repr

def Range.stop (x : Range) : Nat := x.base + x.size

instance memRange : Membership Nat Range where
  mem x a := x.base ≤ a ∧ a < x.stop

theorem mem_def {a : Nat} {x : Range} : a ∈ x ↔ x.base ≤ a ∧ a < x.base + x.size := Iff.rfl

instance decidableMemRange (a : Nat) (x : Range) : Decidable (a ∈ x) :=
  inferInstanceAs (Decidable (_ ∧ _))

def Covers (n : Nat) (f : Nat → Range) (a : Nat) : Prop := ∃ i < n, a ∈ f i

/-- The ranges are not empty, and each ends before the next begins. -/
structure Sorted (n : Nat) (f : Nat → Range) : Prop where
  pos : ∀ i < n, 0 < (f i).size
  apart : ∀ i j, i < j → j < n → (f i).stop ≤ (f j).base

/-- The range has no address in common with the table. -/
def Outside (n : Nat) (f : Nat → Range) (x : Range) : Prop := ∀ a ∈ x, ¬Covers n f a

section
variable {n : Nat} {f g : Nat → Range} (h : ∀ i < n, g i = f i)
include h

theorem covers_congr (a : Nat) : Covers n g a ↔ Covers n f a := by
  constructor
  · rintro ⟨i, hi, ha⟩
    exact ⟨i, hi, h i hi ▸ ha⟩
  · rintro ⟨i, hi, ha⟩
    exact ⟨i, hi, (h i hi).symm ▸ ha⟩

theorem Sorted.congr (hf : Sorted n f) : Sorted n g := by
  refine ⟨fun i hi => ?_, fun i j hij hj => ?_⟩
  · rw [h i hi]
    exact hf.pos i hi
  · rw [h i (hij.trans hj), h j hj]
    exact hf.apart i j hij hj

end

section
variable {n : Nat} {f : Nat → Range} (hf : Sorted n f)
include hf

theorem Sorted.lt {i j : Nat} (hij : i < j) (hj : j < n) : (f i).base < (f j).base := by
  have hPos := hf.pos i (hij.trans hj)
  have hApart := hf.apart i j hij hj
  rw [Range.stop] at hApart
  omega

theorem Sorted.unique {a i j : Nat} (hi : i < n) (hj : j < n) (hai : a ∈ f i) (haj : a ∈ f j) :
    i = j := by
  rcases Nat.lt_trichotomy i j with hij | hij | hij
  · have hApart := hf.apart i j hij hj
    exact absurd (hai.2.trans_le (hApart.trans haj.1)) (Nat.lt_irrefl a)
  · exact hij
  · have hApart := hf.apart j i hij hi
    exact absurd (haj.2.trans_le (hApart.trans hai.1)) (Nat.lt_irrefl a)

theorem Sorted.side {x : Range} (hx : Outside n f x) (hPos : 0 < x.size) {i : Nat} (hi : i < n) :
    x.stop ≤ (f i).base ∨ (f i).stop ≤ x.base := by
  by_contra hNot
  rw [not_or, Nat.not_le, Nat.not_le] at hNot
  have hSize := hf.pos i hi
  have hx' : x.base < x.stop := Nat.lt_add_of_pos_right hPos
  have hi' : (f i).base < (f i).stop := Nat.lt_add_of_pos_right hSize
  rcases Nat.le_total x.base (f i).base with hLe | hLe
  · exact hx (f i).base ⟨hLe, hNot.1⟩ ⟨i, hi, Nat.le_refl _, hi'⟩
  · exact hx x.base ⟨Nat.le_refl _, hx'⟩ ⟨i, hi, hLe, hNot.2⟩

theorem covers_update {i : Nat} (hi : i < n) (x : Range) (a : Nat) :
    Covers n (Function.update f i x) a ↔ a ∈ x ∨ (Covers n f a ∧ a ∉ f i) := by
  constructor
  · rintro ⟨j, hj, ha⟩
    by_cases hji : j = i
    · grind
    · rw [Function.update_of_ne hji] at ha
      exact .inr ⟨⟨j, hj, ha⟩, fun hai => hji (hf.unique hj hi ha hai)⟩
  · rintro (ha | ⟨⟨j, hj, ha⟩, hNot⟩)
    · exact ⟨i, hi, by rwa [Function.update_self]⟩
    · have hji : j ≠ i := fun hEq => hNot (hEq ▸ ha)
      exact ⟨j, hj, by rwa [Function.update_of_ne hji]⟩

theorem Sorted.update {i : Nat} {x : Range} (hPos : 0 < x.size)
    (hBelow : ∀ j < i, (f j).stop ≤ x.base) (hAbove : ∀ j, i < j → j < n → x.stop ≤ (f j).base) :
    Sorted n (Function.update f i x) := by
  refine ⟨fun j hj => ?_, fun j k hjk hk => ?_⟩
  · by_cases hji : j = i
    · rw [hji, Function.update_self]
      exact hPos
    · rw [Function.update_of_ne hji]
      exact hf.pos j hj
  · by_cases hji : j = i
    · grind
    · rw [Function.update_of_ne hji]
      by_cases hki : k = i
      · grind
      · rw [Function.update_of_ne hki]
        exact hf.apart j k hjk hk

end

def removeAt (r : Nat) (f : Nat → Range) (i : Nat) : Range := if i < r then f i else f (i + 1)

def insertAt (p : Nat) (x : Range) (f : Nat → Range) (i : Nat) : Range :=
  if i < p then f i else if i = p then x else f (i - 1)

section
variable {n r : Nat} {f : Nat → Range} (hf : Sorted (n + 1) f)
include hf

theorem covers_removeAt (hr : r ≤ n) (a : Nat) :
    Covers n (removeAt r f) a ↔ Covers (n + 1) f a ∧ a ∉ f r := by
  constructor
  · rintro ⟨i, hi, ha⟩
    rw [removeAt] at ha
    split at ha
    · rename_i hLt
      exact ⟨⟨i, by omega, ha⟩, fun har => by
        have hEq := hf.unique (by omega) (by omega) ha har
        omega⟩
    · exact ⟨⟨i + 1, by omega, ha⟩, fun har => by
        have hEq := hf.unique (by omega) (by omega) ha har
        omega⟩
  · rintro ⟨⟨i, hi, ha⟩, hNot⟩
    have hne : i ≠ r := fun hEq => hNot (hEq ▸ ha)
    rcases Nat.lt_or_gt_of_ne hne with hLt | hGt
    · exact ⟨i, by omega, by rwa [removeAt, if_pos hLt]⟩
    · refine ⟨i - 1, by omega, ?_⟩
      rw [removeAt, if_neg (by omega), Nat.sub_add_cancel (by omega)]
      exact ha

theorem Sorted.removeAt : Sorted n (removeAt r f) := by
  refine ⟨fun i hi => ?_, fun i j hij hj => ?_⟩
  · rw [Ranges.removeAt]
    split
    · exact hf.pos i (by omega)
    · exact hf.pos (i + 1) (by omega)
  · rw [Ranges.removeAt, Ranges.removeAt]
    split <;> split <;> exact hf.apart _ _ (by omega) (by omega)

end

section
variable {n p : Nat} {f : Nat → Range} {x : Range}

theorem covers_insertAt (hp : p ≤ n) (a : Nat) :
    Covers (n + 1) (insertAt p x f) a ↔ Covers n f a ∨ a ∈ x := by
  constructor
  · rintro ⟨i, hi, ha⟩
    rw [insertAt] at ha
    split at ha
    · exact .inl ⟨i, by omega, ha⟩
    · split at ha
      · exact .inr ha
      · exact .inl ⟨i - 1, by omega, ha⟩
  · rintro (⟨i, hi, ha⟩ | ha)
    · by_cases hLt : i < p
      · exact ⟨i, by omega, by rwa [insertAt, if_pos hLt]⟩
      · refine ⟨i + 1, by omega, ?_⟩
        rw [insertAt, if_neg (by omega), if_neg (by omega)]
        exact ha
    · exact ⟨p, by omega, by rwa [insertAt, if_neg (Nat.lt_irrefl p), if_pos rfl]⟩

theorem Sorted.insertAt (hf : Sorted n f) (hp : p ≤ n) (hPos : 0 < x.size)
    (hBelow : ∀ j < p, (f j).stop ≤ x.base) (hAbove : ∀ j, p ≤ j → j < n → x.stop ≤ (f j).base) :
    Sorted (n + 1) (insertAt p x f) := by
  refine ⟨fun i hi => ?_, fun i j hij hj => ?_⟩
  · rw [Ranges.insertAt]
    split
    · exact hf.pos i (by omega)
    · split
      · exact hPos
      · exact hf.pos (i - 1) (by omega)
  · rw [Ranges.insertAt, Ranges.insertAt]
    rcases Nat.lt_trichotomy i p with hi | hi | hi
    · rw [if_pos hi]
      rcases Nat.lt_trichotomy j p with hj' | hj' | hj'
      · rw [if_pos hj']
        exact hf.apart i j hij (by omega)
      · grind
      · rw [if_neg (by omega), if_neg (by omega)]
        exact hf.apart i (j - 1) (by omega) (by omega)
    · grind
    · rw [if_neg (by omega), if_neg (by omega), if_neg (by omega), if_neg (by omega)]
      exact hf.apart (i - 1) (j - 1) (by omega) (by omega)

end

end Ranges

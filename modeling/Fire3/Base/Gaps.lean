import Mathlib.Data.List.Basic

/-!
What is missing of the positions below `n`, as an ordered list of gaps with at least
one position between two of them.
-/

namespace Gaps

/-- The gaps are not empty, do not touch, and lie from `lo` on below `n`. -/
def Ordered (n : Nat) : Nat → List (Nat × Nat) → Prop
  | _, [] => True
  | lo, g :: gs => lo ≤ g.1 ∧ g.1 < g.2 ∧ g.2 ≤ n ∧ Ordered n (g.2 + 1) gs

def Missing (gs : List (Nat × Nat)) (f : Nat) : Prop := ∃ g ∈ gs, g.1 ≤ f ∧ f < g.2

/-- What is left of a gap without one position. -/
def without (g : Nat × Nat) (f : Nat) : List (Nat × Nat) :=
  (if g.1 < f then [(g.1, f)] else []) ++ if f + 1 < g.2 then [(f + 1, g.2)] else []

variable {n lo f : Nat} {g : Nat × Nat} {xs ys : List (Nat × Nat)}

theorem Ordered.mono {lo' : Nat} (h : Ordered n lo xs) (hLo : lo' ≤ lo) : Ordered n lo' xs := by
  cases xs with
  | nil => trivial
  | cons e es => exact ⟨Nat.le_trans hLo h.1, h.2⟩

theorem Ordered.bounds (h : Ordered n lo xs) (hg : g ∈ xs) : lo ≤ g.1 ∧ g.1 < g.2 ∧ g.2 ≤ n := by
  induction xs generalizing lo with
  | nil => simp at hg
  | cons e es ih =>
      rcases List.mem_cons.mp hg with rfl | hg
      · exact ⟨h.1, h.2.1, h.2.2.1⟩
      · obtain ⟨hLow, hRest⟩ := ih h.2.2.2 hg
        have := h.1
        have := h.2.1
        exact ⟨by omega, hRest⟩

theorem ordered_append :
    Ordered n lo (xs ++ g :: ys) ↔
      Ordered n lo xs ∧ (∀ e ∈ xs, e.2 < g.1) ∧ lo ≤ g.1 ∧ g.1 < g.2 ∧ g.2 ≤ n ∧
        Ordered n (g.2 + 1) ys := by
  induction xs generalizing lo with
  | nil => simp [Ordered]
  | cons e es ih =>
      simp only [List.cons_append, Ordered, ih, List.forall_mem_cons]
      constructor
      · grind
      · grind

theorem ordered_without (h : Ordered n lo (xs ++ g :: ys)) (hLow : g.1 ≤ f) (hHigh : f < g.2) :
    Ordered n lo (xs ++ without g f ++ ys) := by
  obtain ⟨hBefore, hAll, hLo, hLt, hLe, hBehind⟩ := ordered_append.mp h
  unfold without
  by_cases hLeft : g.1 < f <;> by_cases hRight : f + 1 < g.2
  · simp only [hLeft, hRight, if_true, List.append_assoc, List.cons_append, List.nil_append]
    exact ordered_append.mpr ⟨hBefore, hAll, hLo, hLeft, by omega, Nat.le_refl _, hRight, hLe, hBehind⟩
  · simp only [hLeft, hRight, if_true, if_false, List.append_assoc, List.cons_append, List.nil_append]
    exact ordered_append.mpr ⟨hBefore, hAll, hLo, hLeft, by omega, hBehind.mono (by omega)⟩
  · simp only [hLeft, hRight, if_true, if_false, List.append_assoc, List.cons_append, List.nil_append]
    grind [ordered_append]
  · simp only [hLeft, hRight, if_false, List.append_nil]
    cases ys with
    | nil => simpa using hBefore
    | cons e es =>
        obtain ⟨hNext, hRest⟩ := hBehind
        grind [ordered_append]

theorem missing_append : Missing (xs ++ ys) f ↔ Missing xs f ∨ Missing ys f := by
  simp [Missing, or_and_right, exists_or]

theorem missing_cons : Missing (g :: ys) f ↔ (g.1 ≤ f ∧ f < g.2) ∨ Missing ys f := by
  simp [Missing]

theorem missing_between (a b k : Nat) : Missing (if a < b then [(a, b)] else []) k ↔ a ≤ k ∧ k < b := by
  split_ifs
  · simp [Missing]
  · simp only [Missing, List.not_mem_nil, false_and, exists_false, false_iff]
    omega

theorem missing_without (h : Ordered n lo (xs ++ g :: ys)) (hLow : g.1 ≤ f) (hHigh : f < g.2) (k : Nat) :
    Missing (xs ++ without g f ++ ys) k ↔ Missing (xs ++ g :: ys) k ∧ k ≠ f := by
  obtain ⟨-, hAll, -, -, -, hBehind⟩ := ordered_append.mp h
  have hPart : Missing (without g f) k ↔ (g.1 ≤ k ∧ k < g.2) ∧ k ≠ f := by
    rw [without, missing_append, missing_between, missing_between]
    omega
  have hBefore : Missing xs k → k ≠ f := by
    rintro ⟨e, he, -, hk⟩ rfl
    have := hAll e he
    omega
  have hAfter : Missing ys k → k ≠ f := by
    rintro ⟨e, he, hk, -⟩ rfl
    have := (hBehind.bounds he).1
    omega
  rw [missing_append, missing_append, missing_append, missing_cons, hPart, or_assoc, or_and_right,
    or_and_right, and_iff_left_of_imp hBefore, and_iff_left_of_imp hAfter]

end Gaps

import Mathlib.Data.List.Basic
import Mathlib.Data.List.Induction

/-!
Lists cut at the last element with a property, chains, and the entries of an extended list.
-/

namespace Lists

theorem exists_last {α : Type} {P : α → Prop} {xs : List α} (h : ∃ x ∈ xs, P x) :
    ∃ pre x post, xs = pre ++ x :: post ∧ P x ∧ ∀ y ∈ post, ¬P y := by
  induction xs with
  | nil => simp at h
  | cons x xs ih =>
      by_cases hRest : ∃ y ∈ xs, P y
      · grind
      · obtain ⟨y, hy, hP⟩ := h
        have hLast : ∀ z ∈ xs, ¬P z := fun z hz hPz => hRest ⟨z, hz, hPz⟩
        cases List.mem_cons.mp hy with
        | inl hHead => exact ⟨[], x, xs, rfl, hHead ▸ hP, hLast⟩
        | inr hTail => exact absurd hP (hLast y hTail)

theorem exists_before_of_isChain {α : Type} {R : α → α → Prop} {x : α} {xs : List α}
    (h : (x :: xs).IsChain R) {y : α} (hy : y ∈ xs) : ∃ z ∈ x :: xs, R z y := by
  induction xs generalizing x with
  | nil => simp at hy
  | cons x' xs ih =>
      rw [List.isChain_cons_cons] at h
      cases List.mem_cons.mp hy with
      | inl hHead => exact ⟨x, List.mem_cons_self, hHead ▸ h.1⟩
      | inr hTail =>
          grind

theorem getElem?_concat_eq_some {α : Type} {l : List α} {x y : α} {j : Nat} :
    (l ++ [x])[j]? = some y ↔ l[j]? = some y ∨ j = l.length ∧ x = y := by
  rcases Nat.lt_trichotomy j l.length with hLt | rfl | hGt
  · grind
  · simp
  · grind

theorem foldlM_of_ite {α β : Type} {f : β → α → Option β} {g : β → α → β} {P : α → Prop}
    [DecidablePred P] {l : List α} (h : ∀ a ∈ l, ∀ b, f b a = if P a then some (g b a) else none)
    (b : β) : l.foldlM f b = if ∀ a ∈ l, P a then some (l.foldl g b) else none := by
  induction l generalizing b with
  | nil => simp
  | cons a l ih =>
      rw [List.forall_mem_cons] at h
      rw [List.foldlM_cons, h.1 b]
      grind

theorem foldl_last {α β : Type} (p : α → Bool) (v : α → β) (l : List α) (b : β) :
    l.foldl (fun b a => if p a then v a else b) b =
      match (l.filter p).getLast? with
      | some a => v a
      | none => b := by
  induction l using List.reverseRecOn with
  | nil => rfl
  | append_singleton l a ih =>
      rw [List.foldl_concat, ih, List.filter_append]
      cases ha : p a <;> simp [ha]

end Lists

import Mathlib.Data.List.Basic

/-!
Doubly linked lists whose records are found by a key.

A segment is a stretch of such a list between the key its first record has as
predecessor and the key its last record has as successor. Segments are put together
by appending, and a record outside a segment may change.
-/

namespace LinkedList

variable {α : Type}

structure Node (α : Type) where
  value : α
  next : Nat
  prev : Nat

def firstKey (q : Nat) : List (Nat × α) → Nat
  | [] => q
  | e :: _ => e.1

def lastKey (p : Nat) : List (Nat × α) → Nat
  | [] => p
  | e :: es => lastKey e.1 es

/-- The entries are linked in `r`, from `p` before the first to `q` behind the last. -/
def Segment (r : Nat → Node α) (q : Nat) : Nat → List (Nat × α) → Prop
  | _, [] => True
  | p, e :: es => r e.1 = ⟨e.2, firstKey q es, p⟩ ∧ Segment r q e.1 es

variable {r : Nat → Node α} {p q : Nat} {xs ys : List (Nat × α)}

@[simp] theorem firstKey_append : firstKey q (xs ++ ys) = firstKey (firstKey q ys) xs := by
  cases xs <;> rfl

@[simp] theorem lastKey_append : lastKey p (xs ++ ys) = lastKey (lastKey p xs) ys := by
  induction xs generalizing p with
  | nil => rfl
  | cons e es ih => exact ih

theorem firstKey_mem (h : xs ≠ []) : firstKey q xs ∈ xs.map Prod.fst := by
  cases xs with
  | nil => exact absurd rfl h
  | cons e es => exact List.mem_cons_self

theorem lastKey_mem (h : xs ≠ []) : lastKey p xs ∈ xs.map Prod.fst := by
  induction xs generalizing p with
  | nil => exact absurd rfl h
  | cons e es ih =>
      cases es with
      | nil => exact List.mem_cons_self
      | cons e' es => exact List.mem_cons_of_mem _ (@ih e.1 (by simp))

theorem segment_append :
    Segment r q p (xs ++ ys) ↔ Segment r (firstKey q ys) p xs ∧ Segment r q (lastKey p xs) ys := by
  induction xs generalizing p with
  | nil => simp [Segment, lastKey]
  | cons e es ih => simp [Segment, lastKey, ih, and_assoc]

theorem Segment.update {k : Nat} {n : Node α} (h : Segment r q p xs) (hk : k ∉ xs.map Prod.fst) :
    Segment (Function.update r k n) q p xs := by
  induction xs generalizing p with
  | nil => trivial
  | cons e es ih =>
      rw [List.map_cons, List.mem_cons, not_or] at hk
      exact ⟨by rw [Function.update_of_ne (Ne.symm hk.1)]; exact h.1, ih h.2 hk.2⟩

theorem Segment.congr {r' : Nat → Node α} (h : Segment r q p xs)
    (hSame : ∀ k ∈ xs.map Prod.fst, r' k = r k) : Segment r' q p xs := by
  induction xs generalizing p with
  | nil => trivial
  | cons e es ih =>
      rw [List.map_cons, List.forall_mem_cons] at hSame
      exact ⟨hSame.1.trans h.1, ih h.2 hSame.2⟩

theorem Segment.setPrev {p' : Nat} (h : Segment r q p xs) (hxs : xs ≠ [])
    (hKeys : (xs.map Prod.fst).Nodup) :
    Segment (Function.update r (firstKey q xs) { r (firstKey q xs) with prev := p' }) q p' xs := by
  cases xs with
  | nil => exact absurd rfl hxs
  | cons e es =>
      rw [List.map_cons, List.nodup_cons] at hKeys
      refine ⟨?_, h.2.update hKeys.1⟩
      rw [firstKey, Function.update_self, h.1]

theorem Segment.setNext {q' : Nat} (h : Segment r q p xs) (hxs : xs ≠ [])
    (hKeys : (xs.map Prod.fst).Nodup) :
    Segment (Function.update r (lastKey p xs) { r (lastKey p xs) with next := q' }) q' p xs := by
  induction xs generalizing p with
  | nil => exact absurd rfl hxs
  | cons e es ih =>
      rw [List.map_cons, List.nodup_cons] at hKeys
      cases es with
      | nil =>
          refine ⟨?_, trivial⟩
          rw [lastKey, lastKey, Function.update_self, h.1]
          rfl
      | cons e' es =>
          have hLast : lastKey e.1 (e' :: es) ∈ (e' :: es).map Prod.fst := lastKey_mem (by simp)
          have hOther : e.1 ≠ lastKey e.1 (e' :: es) := by
            grind
          refine ⟨?_, ih h.2 (by simp) hKeys.2⟩
          rw [lastKey, Function.update_of_ne hOther, h.1]
          rfl

/-- A list with the record of one entry set apart; its value is open. -/
structure Opened (r : Nat → Node α) (xs : List (Nat × α)) (k : Nat) (ys : List (Nat × α)) : Prop where
  before : Segment r k 0 xs
  next : (r k).next = firstKey 0 ys
  prev : (r k).prev = lastKey 0 xs
  behind : Segment r 0 k ys

theorem segment_iff_opened {k : Nat} {v : α} :
    Segment r 0 0 (xs ++ (k, v) :: ys) ↔ Opened r xs k ys ∧ (r k).value = v := by
  rw [segment_append]
  constructor
  · rintro ⟨hBefore, hNode, hBehind⟩
    exact ⟨⟨hBefore, by rw [hNode], by rw [hNode], hBehind⟩, by rw [hNode]⟩
  · rintro ⟨h, hValue⟩
    refine ⟨h.before, ?_, h.behind⟩
    rw [← hValue, ← h.next, ← h.prev]

end LinkedList

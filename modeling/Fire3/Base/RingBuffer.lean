import Mathlib.Data.Nat.ModEq

/-!
Ring buffers: positions that count without end over a fixed number of slots.

A window says which positions the consumer still has to take and which ones the
producer may use; the slots of a window are distinct as long as it is not longer
than the ring.
-/

namespace RingBuffer

variable {N : Nat} [NeZero N]

def slot (N : Nat) [NeZero N] (k : Nat) : Fin N := ⟨k % N, Nat.mod_lt k (Nat.pos_of_neZero N)⟩

/-- The slot behind a slot, with the test for the end of the ring. -/
def next (i : Fin N) : Fin N := if h : i.val + 1 < N then ⟨i.val + 1, h⟩ else ⟨0, Nat.pos_of_neZero N⟩

theorem next_slot (k : Nat) : next (slot N k) = slot N (k + 1) := by
  have hBound := Nat.mod_lt k (Nat.pos_of_neZero N)
  apply Fin.ext
  unfold next slot
  by_cases hEnd : k % N + 1 < N
  · rw [dif_pos hEnd]
    exact (Nat.mod_eq_of_modEq ((Nat.mod_modEq k N).add_right 1).symm hEnd).symm
  · have hLast : k % N + 1 = N := by omega
    have hWrap : (k + 1) % N = 0 := by rw [← Nat.mod_add_mod, hLast, Nat.mod_self]
    rw [dif_neg hEnd]
    exact hWrap.symm

theorem slot_inj {d j k : Nat} (hj : d ≤ j) (hj' : j < d + N) (hk : d ≤ k) (hk' : k < d + N)
    (h : slot N j = slot N k) : j = k := by
  have hMod : j ≡ k [MOD N] := congrArg Fin.val h
  rcases Nat.le_total j k with hLe | hLe
  · have hZero := Nat.eq_zero_of_dvd_of_lt ((Nat.modEq_iff_dvd' hLe).mp hMod) (by omega)
    omega
  · have hZero := Nat.eq_zero_of_dvd_of_lt ((Nat.modEq_iff_dvd' hLe).mp hMod.symm) (by omega)
    omega

variable {α : Type} {busy : Nat → α → Prop} {free : α → Prop} {cells : Fin N → α}
  {tail head : Nat}

/-- The positions from `tail` up to `head` are to be taken, the others of the ring are free. -/
structure Window (busy : Nat → α → Prop) (free : α → Prop) (cells : Fin N → α)
    (tail head : Nat) : Prop where
  le : tail ≤ head
  room : head ≤ tail + N
  taken : ∀ k, tail ≤ k → k < head → busy k (cells (slot N k))
  spare : ∀ k, head ≤ k → k < tail + N → free (cells (slot N k))

theorem Window.push {busy' : Nat → α → Prop} {c : α} (h : Window busy free cells tail head)
    (hRoom : head < tail + N) (hNew : busy' head c)
    (hKeep : ∀ k, tail ≤ k → k < head → busy' k (cells (slot N k))) :
    Window busy' free (Function.update cells (slot N head) c) tail (head + 1) := by
  have hLe := h.le
  have hOther : ∀ k, tail ≤ k → k < tail + N → k ≠ head → slot N k ≠ slot N head :=
    fun k hLow hHigh hNe hSame => hNe (slot_inj hLow hHigh hLe hRoom hSame)
  refine ⟨by omega, by omega, fun k hLow hHigh => ?_, fun k hLow hHigh => ?_⟩
  · by_cases hLast : k = head
    · rw [hLast, Function.update_self]
      exact hNew
    · grind
  · rw [Function.update_of_ne (hOther k (by omega) hHigh (by omega))]
    exact h.spare k (by omega) hHigh

theorem Window.pop {c : α} (h : Window busy free cells tail head) (hSome : tail < head)
    (hFree : free c) :
    Window busy free (Function.update cells (slot N tail) c) (tail + 1) head := by
  have hRoom := h.room
  have hOther : ∀ k, tail < k → k < tail + N → slot N k ≠ slot N tail :=
    fun k hLow hHigh hSame => absurd
      (@slot_inj N _ tail k tail hLow.le hHigh le_rfl
        (Nat.lt_add_of_pos_right (Nat.pos_of_neZero N)) hSame)
      hLow.ne'
  refine ⟨hSome, by omega, fun k hLow hHigh => ?_, fun k hLow hHigh => ?_⟩
  · rw [Function.update_of_ne (hOther k (by omega) (by omega))]
    exact h.taken k (by omega) hHigh
  · by_cases hLast : k = tail + N
    · have hSlot : slot N k = slot N tail := by
        apply Fin.ext
        simp [slot, hLast]
      rw [hSlot, Function.update_self]
      exact hFree
    · rw [Function.update_of_ne (hOther k (by omega) (by omega))]
      exact h.spare k hLow (by omega)

end RingBuffer

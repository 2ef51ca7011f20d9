import Mathlib.Data.Int.ModEq
import Mathlib.Order.Interval.Finset.Nat
import Mathlib.Tactic.Ring

/-!
Double-hash probing over the slots `1 .. size`: the index moves down by a fixed
step and wraps from the bottom to the top. With a step coprime to the size the
first `size` indices are all slots, each once, and the next one is the start.
-/

namespace Probing

def next (size step idx : Nat) : Nat :=
  if idx ≤ step then size + idx - step else idx - step

def probe (size step start : Nat) : Nat → Nat
  | 0 => start
  | t + 1 => next size step (probe size step start t)

section
variable {size step start : Nat} (hStep : 1 ≤ step) (hLt : step < size) (hStart : 1 ≤ start)
  (hStart' : start ≤ size)
include hStep hLt hStart hStart'

theorem probe_range (t : Nat) : 1 ≤ probe size step start t ∧ probe size step start t ≤ size := by
  induction t with
  | zero => exact ⟨hStart, hStart'⟩
  | succ t ih =>
      simp only [probe, next]
      split <;> omega

theorem probe_modEq (t : Nat) : probe size step start t + t * step ≡ start [MOD size] := by
  induction t with
  | zero => simp [probe, Nat.ModEq.refl]
  | succ t ih =>
      obtain ⟨hLow, hHigh⟩ := probe_range hStep hLt hStart hStart' t
      simp only [probe, next]
      split
      · have hWrap : size + probe size step start t - step + (t + 1) * step =
            probe size step start t + t * step + size := by
          rw [Nat.add_mul]
          omega
        rw [hWrap]
        exact (Nat.add_modEq_right).trans ih
      · have hDown : probe size step start t - step + (t + 1) * step =
            probe size step start t + t * step := by
          rw [Nat.add_mul]
          omega
        rwa [hDown]

variable (hCoprime : Nat.Coprime step size)
include hCoprime

theorem probe_inj {t u : Nat} (ht : t < size) (hu : u < size)
    (h : probe size step start t = probe size step start u) : t = u := by
  have hBoth : probe size step start t + t * step ≡ probe size step start t + u * step [MOD size] :=
    (probe_modEq hStep hLt hStart hStart' t).trans
      (h ▸ (probe_modEq hStep hLt hStart hStart' u).symm)
  have hSteps : t * step ≡ u * step [MOD size] := Nat.ModEq.add_left_cancel' _ hBoth
  have hTimes : t ≡ u [MOD size] :=
    Nat.ModEq.cancel_right_of_coprime (Nat.coprime_comm.mp hCoprime) hSteps
  exact Nat.ModEq.eq_of_lt_of_lt hTimes ht hu

theorem exists_probe_eq {i : Nat} (hi : 1 ≤ i) (hi' : i ≤ size) :
    ∃ t < size, probe size step start t = i := by
  have hImage : (Finset.range size).image (probe size step start) = Finset.Icc 1 size := by
    apply Finset.eq_of_subset_of_card_le
    · intro j hj
      obtain ⟨t, -, rfl⟩ := Finset.mem_image.mp hj
      exact Finset.mem_Icc.mpr (probe_range hStep hLt hStart hStart' t)
    · rw [Finset.card_image_of_injOn]
      · simp
      · intro t ht u hu h
        exact probe_inj hStep hLt hStart hStart' hCoprime (Finset.mem_range.mp ht)
          (Finset.mem_range.mp hu) h
  have hMem : i ∈ (Finset.range size).image (probe size step start) := by
    rw [hImage]
    exact Finset.mem_Icc.mpr ⟨hi, hi'⟩
  grind

theorem probe_ne_start {t : Nat} (hPos : 0 < t) (ht : t < size) :
    probe size step start t ≠ start := by
  intro h
  have hZero : t = 0 :=
    probe_inj hStep hLt hStart hStart' hCoprime ht (by omega) (h.trans rfl)
  omega

end

end Probing

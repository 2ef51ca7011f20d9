import Mathlib.Tactic.Ring

/-!
Lock-step transfer of numbered blocks when only the numbers modulo `M` travel.

The sender has one block outstanding and sends the next one after an acknowledgement
with the number of that block. The receiver knows the position of the block it took
last and reads a number relative to it: a number other than 0 as one of the same
round, 0 as the first of the next one. As long as that reading is right, an
acknowledgement that the sender takes for its block is one of that block.
-/

namespace LockStep

structure State where
  /-- The block outstanding at the sender. -/
  sent : Nat
  /-- An acknowledgement with its number was emitted since it was first sent. -/
  acked : Bool
  /-- The block the receiver took last. -/
  pos : Nat
  stored : Nat → Prop

/-- A receiver at `pos` reads the number of block `k` as `k`. -/
def ReadAs (M pos k : Nat) : Prop :=
  (k % M ≠ 0 ∧ k / M = pos / M) ∨ (k % M = 0 ∧ pos % M ≠ 0 ∧ k / M = pos / M + 1)

def State.ack (M : Nat) (s : State) : State :=
  { s with acked := s.acked || s.pos % M == s.sent % M }

def State.take (s : State) (k : Nat) : State :=
  { s with pos := k, stored := fun j => j = k ∨ s.stored j }

def State.send (s : State) : State := { s with sent := s.sent + 1, acked := false }

structure Inv (M : Nat) (s : State) : Prop where
  pos_pos : 1 ≤ s.pos
  pos_le : s.pos ≤ s.sent
  before : ∀ j, 1 ≤ j → j < s.sent → s.stored j
  last : s.stored s.pos
  outstanding : s.acked = true → s.stored s.sent
  /-- The sender is at most one block behind the round of the receiver. -/
  round : s.sent ≤ M * (s.pos / M) + M
  settled : s.acked = true → s.sent / M ≤ s.pos / M
  /-- The receiver does not stay on number 0 while the sender moves on. -/
  boundary : s.pos % M = 0 → s.sent ≤ s.pos + 1 ∧ (s.acked = true → s.sent = s.pos)

variable {M : Nat} {s : State}

/-- The number of the block taken last is the number of the outstanding block only if it is
that block. -/
theorem Inv.pos_eq_sent (h : Inv M s) (hM : 1 < M) (hSame : s.pos % M = s.sent % M) :
    s.pos = s.sent := by
  have hPos := Nat.div_add_mod s.pos M
  have hSent := Nat.div_add_mod s.sent M
  have hLe := h.pos_le
  have hRound := h.round
  by_cases hZero : s.pos % M = 0
  · obtain ⟨hNear, -⟩ := h.boundary hZero
    by_contra hne
    have hNext : s.sent = s.pos + 1 := by omega
    rw [hNext, Nat.add_mod, hZero, Nat.zero_add, Nat.mod_mod, Nat.mod_eq_of_lt hM] at hSame
    omega
  · -- in the round of the receiver, or the first of the next one, which has number 0
    have hUpper : s.sent / M < s.pos / M + 1 := by
      rw [Nat.div_lt_iff_lt_mul (by omega), Nat.mul_comm, Nat.mul_add, Nat.mul_one]
      refine lt_of_le_of_ne hRound fun hEdge => hZero ?_
      rw [hSame, hEdge]
      simp
    have hLower : s.pos / M ≤ s.sent / M := Nat.div_le_div_right hLe
    grind

theorem Inv.ack (h : Inv M s) (hM : 1 < M) : Inv M (s.ack M) := by
  refine { h with outstanding := fun hAcked => ?_, settled := fun hAcked => ?_,
                  boundary := fun hZero => ⟨(h.boundary hZero).1, fun hAcked => ?_⟩ }
  all_goals
    simp only [State.ack, Bool.or_eq_true, beq_iff_eq] at hAcked
  · rcases hAcked with hOld | hNew
    · exact h.outstanding hOld
    · exact h.pos_eq_sent hM hNew ▸ h.last
  · rcases hAcked with hOld | hNew
    · exact h.settled hOld
    · exact (congrArg (· / M) (h.pos_eq_sent hM hNew)).ge
  · rcases hAcked with hOld | hNew
    · exact (h.boundary hZero).2 hOld
    · exact (h.pos_eq_sent hM hNew).symm

theorem Inv.take (h : Inv M s) {k : Nat} (hRead : ReadAs M s.pos k) (hk : 1 ≤ k)
    (hk' : k ≤ s.sent) : Inv M (s.take k) := by
  have hRound := h.round
  have hNumber := Nat.div_add_mod k M
  have hForward : s.pos / M ≤ k / M := by
    rcases hRead with ⟨-, hSame⟩ | ⟨-, -, hNext⟩ <;> omega
  refine ⟨hk, hk', fun j hj hj' => .inr (h.before j hj hj'), .inl rfl,
    fun hAcked => .inr (h.outstanding hAcked), ?_,
    fun hAcked => (h.settled hAcked).trans hForward, fun hZero => ?_⟩
  · have hMul := Nat.mul_le_mul_left M hForward
    simp only [State.take]
    omega
  · -- block k is the first of the next round, so the sender has just reached it
    rcases hRead with ⟨hOther, -⟩ | ⟨-, -, hNext⟩
    · exact absurd hZero hOther
    · have hEdge : k = M * (s.pos / M) + M := by
        grind [State.take, Nat.mul_add]
      have hSame : s.sent = k := by omega
      grind [State.take]

theorem Inv.takeFirst (h : Inv M s) (hFirst : s.sent ≤ M) (hAcked : s.acked = true → s.sent < M)
    (hM : 1 < M) : Inv M (s.take 1) := by
  have hSent := h.pos_pos.trans h.pos_le
  have hDiv : 1 / M = 0 := Nat.div_eq_of_lt hM
  refine ⟨le_rfl, hSent, fun j hj hj' => .inr (h.before j hj hj'), .inl rfl,
    fun hA => .inr (h.outstanding hA), ?_, fun hA => ?_, fun hZero => ?_⟩
  · simp only [State.take, hDiv]
    omega
  · grind [State.take, Nat.div_eq_of_lt, le_rfl]
  · grind [State.take, Nat.mod_eq_of_lt]

theorem Inv.send (h : Inv M s) (hAcked : s.acked = true) (hM : 0 < M) : Inv M s.send := by
  have hSettled := h.settled hAcked
  refine ⟨h.pos_pos, h.pos_le.trans (Nat.le_succ _), fun j hj hj' => ?_, h.last, by simp [State.send],
    ?_, by simp [State.send], fun hZero => ⟨?_, by simp [State.send]⟩⟩
  · by_cases hLast : j = s.sent
    · exact hLast ▸ h.outstanding hAcked
    · simp only [State.send] at hj'
      exact h.before j hj (by omega)
  · have hMod := Nat.mod_lt s.sent hM
    have hNumber := Nat.div_add_mod s.sent M
    have hMul := Nat.mul_le_mul_left M hSettled
    simp only [State.send]
    omega
  · simp only [State.send]
    have := (h.boundary hZero).2 hAcked
    omega

theorem Inv.mono (h : Inv M s) {stored : Nat → Prop} (hStored : ∀ j, s.stored j → stored j) :
    Inv M { s with stored := stored } :=
  { h with before := fun j hj hj' => hStored j (h.before j hj hj'), last := hStored _ h.last,
           outstanding := fun hAcked => hStored _ (h.outstanding hAcked) }

theorem inv_first (stored : Nat → Prop) (hM : 1 < M) :
    Inv M { sent := 1, acked := false, pos := 1, stored := fun j => j = 1 ∨ stored j } := by
  have hMod : 1 % M = 1 := Nat.mod_eq_of_lt hM
  refine ⟨le_rfl, le_rfl, fun j hj hj' => ?_, .inl rfl, by simp, ?_, by simp, fun hZero => ?_⟩
  · simp only at hj'
    omega
  · simp only [Nat.div_eq_of_lt hM]
    omega
  · simp only [hMod] at hZero
    omega

end LockStep

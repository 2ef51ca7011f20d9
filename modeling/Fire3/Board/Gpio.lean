import Mathlib.Data.List.Infix

/-!
The output latches and directions of `nx_gpio.c`, on an ordinary bank and on the alive bank.

On the alive bank `nx_alive_gpio_set_value` clears a bit of the value that it writes to the reset
register, where a 1 would clear the latch.
-/

namespace Fire3.Gpio

inductive Call where
  | directionInput (pin : Fin 32)
  | directionOutput (pin : Fin 32) (val : Bool)
  | setValue (pin : Fin 32) (val : Bool)
deriving DecidableEq, Repr

structure Bank where
  latch : BitVec 32
  output : BitVec 32

/-- What the set and reset registers of the alive bank read as: bits that may be written back. -/
structure ReadBack where
  data : Bank → BitVec 32
  padReset : Bank → BitVec 32
  outputenb : Bank → BitVec 32
  outputenbReset : Bank → BitVec 32
  data_set : ∀ b, data b &&& ~~~b.latch = 0
  padReset_clear : ∀ b, padReset b &&& b.latch = 0
  outputenb_set : ∀ b, outputenb b &&& ~~~b.output = 0
  outputenbReset_clear : ∀ b, outputenbReset b &&& b.output = 0

def bit (pin : Fin 32) : BitVec 32 := 1 <<< pin.val

/-- The calls on an ordinary bank, with `setbits_le32` and `clrbits_le32` on its registers. -/
def ordinary (b : Bank) : Call → Bank
  | .directionInput pin => { b with output := b.output &&& ~~~bit pin }
  | .directionOutput pin val =>
      ⟨if val then b.latch ||| bit pin else b.latch &&& ~~~bit pin, b.output ||| bit pin⟩
  | .setValue pin val =>
      { b with latch := if val then b.latch ||| bit pin else b.latch &&& ~~~bit pin }

/-- The calls on the alive bank; a bit written as 1 sets or resets, a bit written as 0 does nothing. -/
def alive (rb : ReadBack) (b : Bank) : Call → Bank
  | .directionInput pin =>
      { b with output := b.output &&& ~~~(rb.outputenbReset b ||| bit pin) }
  | .directionOutput pin val =>
      let b : Bank := { b with latch :=
        if val then b.latch ||| (rb.data b ||| bit pin)
        else b.latch &&& ~~~(rb.padReset b ||| bit pin) }
      { b with output := b.output ||| (rb.outputenb b ||| bit pin) }
  | .setValue pin val =>
      { b with latch :=
        if val then b.latch ||| (rb.data b ||| bit pin)
        else b.latch &&& ~~~(rb.padReset b &&& ~~~bit pin) }

structure Pins where
  value : Fin 32 → Bool
  output : Fin 32 → Bool

def Pins.call (p : Pins) : Call → Pins
  | .directionInput pin => { p with output := Function.update p.output pin false }
  | .directionOutput pin val =>
      ⟨Function.update p.value pin val, Function.update p.output pin true⟩
  | .setValue pin val => { p with value := Function.update p.value pin val }

def Bank.pins (b : Bank) : Pins := ⟨fun i => b.latch.getLsbD i, fun i => b.output.getLsbD i⟩

def HoldsLast (step : Bank → Call → Bank) (b : Bank) (calls : List Call) : Prop :=
  ∀ done, done <+: calls → (done.foldl step b).pins = done.foldl Pins.call b.pins

theorem getLsbD_bit (pin i : Fin 32) : (bit pin).getLsbD i = decide (i = pin) := by
  revert pin i
  decide

theorem getLsbD_setbits (x : BitVec 32) (pin : Fin 32) : (fun i : Fin 32 =>
    (x ||| bit pin).getLsbD i) = Function.update (fun i : Fin 32 => x.getLsbD i) pin true := by
  funext i
  rw [BitVec.getLsbD_or, getLsbD_bit, Function.update_apply]
  split <;> simp_all

theorem getLsbD_clrbits (x : BitVec 32) (pin : Fin 32) : (fun i : Fin 32 =>
    (x &&& ~~~bit pin).getLsbD i) = Function.update (fun i : Fin 32 => x.getLsbD i) pin false := by
  funext i
  rw [BitVec.getLsbD_and, BitVec.getLsbD_not, getLsbD_bit, Function.update_apply]
  split <;> simp_all

theorem pins_ordinary (b : Bank) (c : Call) : (ordinary b c).pins = b.pins.call c := by
  unfold Bank.pins
  cases c with
  | directionInput pin => simp only [ordinary, Pins.call, getLsbD_clrbits]
  | directionOutput pin val =>
      cases val <;> simp only [ordinary, Pins.call, getLsbD_setbits, getLsbD_clrbits, if_true,
        Bool.false_eq_true, if_false]
  | setValue pin val =>
      cases val <;> simp only [ordinary, Pins.call, getLsbD_setbits, getLsbD_clrbits, if_true,
        Bool.false_eq_true, if_false]

section
variable {x m : BitVec 32}

theorem or_absorb (h : m &&& ~~~x = 0) (y : BitVec 32) : x ||| (m ||| y) = x ||| y := by
  have hIn : x ||| m = x := by
    ext i hi
    have hBit := congrArg (·.getLsbD i) h
    simp [hi] at hBit ⊢
    exact hBit
  rw [← BitVec.or_assoc, hIn]

theorem and_not_absorb (h : m &&& x = 0) (y : BitVec 32) :
    x &&& ~~~(m ||| y) = x &&& ~~~y ∧ x &&& ~~~(m &&& y) = x := by
  have hOut : x &&& ~~~m = x := by
    ext i hi
    have hBit := congrArg (·.getLsbD i) h
    simp [hi] at hBit ⊢
    grind
  constructor
  · rw [BitVec.not_or, ← BitVec.and_assoc, hOut]
  · ext i hi
    have hBit := congrArg (·.getLsbD i) hOut
    simp [hi] at hBit ⊢
    grind

end

/-- The alive bank differs from an ordinary one where a latch is to be cleared by `set_value`. -/
theorem alive_eq (rb : ReadBack) (b : Bank) (c : Call) :
    alive rb b c = if ∃ pin, c = .setValue pin false then b else ordinary b c := by
  have hLatch (y : BitVec 32) := and_not_absorb (rb.padReset_clear b) y
  cases c with
  | directionInput pin =>
      rw [if_neg (by simp), alive, (and_not_absorb (rb.outputenbReset_clear b) _).1]
      rfl
  | directionOutput pin val =>
      have hOutput (l : BitVec 32) := or_absorb (rb.outputenb_set { b with latch := l }) (bit pin)
      rw [if_neg (by simp), alive, or_absorb (rb.data_set b), (hLatch _).1, hOutput]
      rfl
  | setValue pin val =>
      cases val with
      | true =>
          rw [if_neg (show ¬∃ p, Call.setValue pin true = .setValue p false by simp)]
          exact congrArg (Bank.mk · b.output) (or_absorb (rb.data_set b) _)
      | false =>
          rw [if_pos (show ∃ p, Call.setValue pin false = .setValue p false from ⟨pin, rfl⟩)]
          exact congrArg (Bank.mk · b.output) (hLatch _).2

theorem pins_alive_iff (rb : ReadBack) (b : Bank) (c : Call) :
    (alive rb b c).pins = b.pins.call c ↔
      ∀ pin, c = .setValue pin false → b.pins.value pin = false := by
  rw [alive_eq]
  split
  · next h =>
    obtain ⟨pin, rfl⟩ := h
    constructor
    · intro hPins pin' hSame
      cases hSame
      rw [hPins]
      exact Function.update_self ..
    · intro hClear
      have hValue := hClear pin rfl
      unfold Pins.call
      dsimp only
      rw [← hValue, Function.update_eq_self]
  · next h => exact iff_of_true (pins_ordinary b c) fun pin hc => absurd ⟨pin, hc⟩ h

/-- A run holds what was set exactly if each of its steps does. -/
theorem holdsLast_iff {step : Bank → Call → Bank} {good : Pins → Call → Prop}
    (hStep : ∀ b c, (step b c).pins = b.pins.call c ↔ good b.pins c) (b : Bank)
    (calls : List Call) : HoldsLast step b calls ↔
      ∀ pre c post, calls = pre ++ c :: post → good (pre.foldl Pins.call b.pins) c := by
  constructor
  · rintro h pre c post rfl
    have hBefore := h pre (List.prefix_append _ _)
    have hAfter := h (pre ++ [c]) (by simp)
    rw [List.foldl_append, List.foldl_append, ← hBefore] at hAfter
    rw [← hBefore, ← hStep]
    exact hAfter
  · intro h done hDone
    induction done using List.reverseRecOn with
    | nil => rfl
    | append_singleton done c ih =>
        have hBefore := ih ((List.prefix_append _ _).trans hDone)
        obtain ⟨post, hPost⟩ := hDone
        have hGood := h done c post (by simpa using hPost.symm)
        rw [List.foldl_append, List.foldl_append, ← hBefore]
        rw [← hBefore, ← hStep] at hGood
        exact hGood

/-- Every run on an ordinary bank holds what was set; a run on the alive bank does exactly if
`set_value` clears no latch that is set. -/
theorem gpio_holds_last_iff (rb : ReadBack) (b : Bank) (calls : List Call) :
    HoldsLast ordinary b calls ∧ (HoldsLast (alive rb) b calls ↔
      ∀ pre pin post, calls = pre ++ .setValue pin false :: post →
        (pre.foldl Pins.call b.pins).value pin = false) := by
  have hOrdinary (b : Bank) (c : Call) : (ordinary b c).pins = b.pins.call c ↔ True :=
    iff_of_true (pins_ordinary b c) trivial
  constructor
  · exact (@holdsLast_iff ordinary (fun _ _ => True) hOrdinary b calls).mpr fun _ _ _ _ => trivial
  · rw [@holdsLast_iff (alive rb) (fun p c => ∀ pin, c = .setValue pin false → p.value pin = false)
      (pins_alive_iff rb)]
    constructor
    · intro h pre pin post hCalls
      exact h pre _ post hCalls pin rfl
    · rintro h pre c post hCalls pin rfl
      exact h pre pin post hCalls

def zeros : ReadBack :=
  ⟨fun _ => 0, fun _ => 0, fun _ => 0, fun _ => 0, fun _ => BitVec.zero_and, fun _ => BitVec.zero_and,
    fun _ => BitVec.zero_and, fun _ => BitVec.zero_and⟩

/-- Pin 3 stays high. -/
theorem alive_value_kept : (([.directionOutput 3 true, .setValue 3 false] : List Call).foldl
    (alive zeros) ⟨0, 0⟩).latch = 8 := by
  decide

end Fire3.Gpio

import Mathlib.Data.Nat.Bitwise

/-!
The bit fields of the tie-off registers in `tieoff.c`.

A field that ends on a register boundary needs a shift by 32, which is undefined; of a field that
crosses a boundary the upper part is made from the wrong register.
-/

namespace Fire3.Tieoff

abbrev Regs := Nat → BitVec 32

def onesShl (n : Nat) : Option (BitVec 32) := if n < 32 then some (0xffffffff#32 <<< n) else none

def position (index : Nat) : Nat := index % 2 ^ 16

def bitwidth (index : Nat) : Nat := index / 2 ^ 16 % 2 ^ 16

def fieldValue (index : Nat) (value : BitVec 32) : Nat := value.toNat % 2 ^ bitwidth index

def nxTieoffSet (r : Regs) (index : Nat) (value : BitVec 32) : Option Regs :=
  let i := position index / 32
  let lsb := position index % 32
  let msb := lsb + bitwidth index
  let field := fieldValue index value
  if 32 < msb then do
    let msb := msb % 32
    let low ← onesShl lsb
    let r := Function.update r i (r i &&& ~~~low ||| BitVec.ofNat 32 (field <<< lsb))
    let high ← onesShl msb
    -- the register in front of the one that is written
    return Function.update r (i + 1) (r i &&& high ||| BitVec.ofNat 32 (field >>> msb))
  else do
    let high ← onesShl msb
    let low ← onesShl lsb
    return Function.update r i (r i &&& (high ||| ~~~low) ||| BitVec.ofNat 32 (field <<< lsb))

def nxTieoffGet (r : Regs) (index : Nat) : Option (BitVec 32) :=
  let i := position index / 32
  let lsb := position index % 32
  let msb := lsb + bitwidth index
  if 32 < msb then do
    let msb := msb % 32
    let low ← onesShl lsb
    let high ← onesShl msb
    return (r i &&& low) >>> lsb ||| (r (i + 1) &&& ~~~high) <<< (32 - lsb)
  else do
    let high ← onesShl msb
    let low ← onesShl lsb
    return (r i &&& (~~~high &&& low)) >>> lsb

def bitAt (r : Regs) (k : Nat) : Bool := (r (k / 32)).getLsbD (k % 32)

/-- The field is read back as it was set, and nothing else changes. -/
def FieldLaws (index : Nat) : Prop :=
  ∀ r value, ∃ r', nxTieoffSet r index value = some r' ∧
    nxTieoffGet r' index = some (BitVec.ofNat 32 (fieldValue index value)) ∧
    ∀ k, k < 33 * 32 → k < position index ∨ position index + bitwidth index ≤ k →
      bitAt r' k = bitAt r k

theorem getLsbD_ones_shl (n j : Nat) :
    (0xffffffff#32 <<< n).getLsbD j = (decide (j < 32) && decide (n ≤ j)) := by
  have hOnes : (0xffffffff#32).getLsbD (j - n) = decide (j - n < 32) :=
    BitVec.getLsbD_allOnes
  rw [BitVec.getLsbD_shiftLeft, hOnes]
  grind

theorem getLsbD_field_shl (index : Nat) (value : BitVec 32) (lsb j : Nat) :
    (BitVec.ofNat 32 (fieldValue index value <<< lsb)).getLsbD j = (decide (j < 32) &&
      decide (lsb ≤ j) && decide (j - lsb < bitwidth index) && value.getLsbD (j - lsb)) := by
  rw [BitVec.getLsbD_ofNat, Nat.testBit_shiftLeft, fieldValue, Nat.testBit_mod_two_pow]
  simp [BitVec.getLsbD, Bool.and_assoc]

theorem fieldLaws_of_inside {index : Nat} (h : position index % 32 + bitwidth index < 32) :
    FieldLaws index := by
  intro r value
  have hSet : nxTieoffSet r index value = some (Function.update r (position index / 32)
      (r (position index / 32) &&& (0xffffffff#32 <<< (position index % 32 + bitwidth index) |||
        ~~~(0xffffffff#32 <<< (position index % 32))) |||
          BitVec.ofNat 32 (fieldValue index value <<< (position index % 32)))) := by
    rw [nxTieoffSet]
    simp [onesShl, h, Nat.mod_lt, show ¬32 < position index % 32 + bitwidth index by omega]
  refine ⟨_, hSet, ?_, ?_⟩
  · rw [nxTieoffGet]
    simp only [show ¬32 < position index % 32 + bitwidth index by omega, if_false, onesShl, h,
      if_true, Nat.mod_lt _ (show 32 > 0 by decide), Function.update_self]
    refine congrArg some (BitVec.eq_of_getLsbD_eq fun j hj => ?_)
    have hField := getLsbD_field_shl index value 0 j
    rw [Nat.shiftLeft_zero] at hField
    simp only [BitVec.getLsbD_ushiftRight, BitVec.getLsbD_and, BitVec.getLsbD_or, BitVec.getLsbD_not,
      getLsbD_ones_shl, getLsbD_field_shl, hField]
    grind
  · intro k _ hk
    unfold bitAt
    rw [Function.update_apply]
    split
    · next hi =>
      simp only [BitVec.getLsbD_and, BitVec.getLsbD_or, BitVec.getLsbD_not, getLsbD_ones_shl,
        getLsbD_field_shl, hi]
      grind
    · rfl

theorem nxTieoffSet_crossing (r : Regs) {index : Nat} (value : BitVec 32)
    (h : 32 < position index % 32 + bitwidth index) :
    ∃ r', nxTieoffSet r index value = some r' ∧ r' (position index / 32 + 1) =
      (r (position index / 32) &&& ~~~(0xffffffff#32 <<< (position index % 32)) |||
          BitVec.ofNat 32 (fieldValue index value <<< (position index % 32))) &&&
        0xffffffff#32 <<< ((position index % 32 + bitwidth index) % 32) |||
      BitVec.ofNat 32 (fieldValue index value >>> ((position index % 32 + bitwidth index) % 32)) := by
  rw [nxTieoffSet]
  simp [onesShl, h, Nat.mod_lt]

/-- All bits set in front of a zero: the last bit of the next register is lost. -/
theorem crossing_loses_bit {index : Nat}
    (h : 32 < position index % 32 + bitwidth index) {r' : Regs}
    (hSet : nxTieoffSet (fun _ => 0xffffffff#32) index 0 = some r') :
    bitAt r' (32 * (position index / 32 + 1) + 31) = false := by
  obtain ⟨r'', hSet', hNext⟩ := nxTieoffSet_crossing (fun _ => 0xffffffff#32) 0 h
  obtain rfl : r' = r'' := Option.some.inj (hSet.symm.trans hSet')
  have hZero : fieldValue index 0 = 0 := by simp [fieldValue]
  have hReg : (32 * (position index / 32 + 1) + 31) / 32 = position index / 32 + 1 := by omega
  have hBit : (32 * (position index / 32 + 1) + 31) % 32 = 31 := by omega
  rw [bitAt, hReg, hBit, hNext, hZero]
  simp only [BitVec.getLsbD_or, BitVec.getLsbD_and, BitVec.getLsbD_not, getLsbD_ones_shl,
    Nat.zero_shiftLeft, Nat.zero_shiftRight]
  have hLow : position index % 32 ≤ 31 := Nat.le_of_lt_succ (Nat.mod_lt _ (by decide))
  simp [hLow]

/-- A field of up to 31 bits in the register file obeys the laws exactly if it ends before the
last bit of the register it begins in. -/
theorem field_laws_iff {index : Nat} (hWidth : 1 ≤ bitwidth index ∧ bitwidth index ≤ 31)
    (hFile : position index + bitwidth index ≤ 33 * 32) :
    FieldLaws index ↔ position index % 32 + bitwidth index < 32 := by
  refine ⟨fun h => ?_, fieldLaws_of_inside⟩
  obtain ⟨r', hSet, -, hRest⟩ := h (fun _ => 0xffffffff#32) 0
  by_contra hNot
  rcases Nat.lt_or_eq_of_le (Nat.le_of_not_lt hNot) with hCross | hEnd
  · have hKept := hRest (32 * (position index / 32 + 1) + 31) (by omega) (by omega)
    rw [crossing_loses_bit hCross hSet, bitAt] at hKept
    simp [Nat.add_mod] at hKept
  · rw [nxTieoffSet] at hSet
    simp [onesShl, ← hEnd] at hSet

theorem field_laws_four : FieldLaws (4 * 2 ^ 16 + 40) :=
  (field_laws_iff (by decide) (by decide)).2 (by decide)

/-- Four bits at 30 are set to zero, and bit 63 goes with them. -/
theorem next_register_damaged :
    ((nxTieoffSet (fun _ => 0xffffffff#32) (4 * 2 ^ 16 + 30) 0).map fun r => bitAt r 63) =
      some false := by
  decide

end Fire3.Tieoff

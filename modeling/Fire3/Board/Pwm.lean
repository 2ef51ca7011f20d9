import Mathlib.Order.Interval.Finset.Nat

/-!
`pwm_config` of `pwm-nexell.c`: the counts of a period and of its low part.

If the duty takes as many whole ticks as the period, `tcnt - tcmp` is -1 in an `unsigned long`.
-/

namespace Fire3.Pwm

inductive Outcome where
  | erange
  | einval
  | divideByZero
  | written (tcnt tcmp : Nat)
deriving DecidableEq, Repr

def pwmCalcTin (parentRate : Nat) : Nat := parentRate / (0 % 256 + 1) / 2 ^ (0 % 16)

def tinNs (parentRate : Nat) : Nat := 1000000000 / pwmCalcTin parentRate

/-- `pwm_config`. A negative `int` is larger than a second as an `unsigned long`, and the registers
take the low 32 bits of the counts. -/
def pwmConfig (parentRate : Nat) (dutyNs periodNs : Int) : Outcome :=
  if periodNs % 2 ^ 64 > 1000000000 ∨ dutyNs % 2 ^ 64 > 1000000000 ∨ periodNs = 0 then .erange
  else if dutyNs > periodNs then .einval
  else if pwmCalcTin parentRate = 0 ∨ tinNs parentRate = 0 then .divideByZero
  else
    let tcnt := (periodNs / tinNs parentRate - 1) % 2 ^ 64
    let tcmp := (tcnt - dutyNs / tinNs parentRate) % 2 ^ 64
    .written (tcnt % 2 ^ 32).toNat (tcmp % 2 ^ 32).toNat

/-- The counts of a period at which the output is high: the counter runs from `tcnt` down to 0. -/
def high (tcnt tcmp : Nat) : Finset Nat := (Finset.range (tcnt + 1)).filter (tcmp < ·)

/-- The counts are those of the period and the duty in whole ticks. -/
def Realised (parentRate : Nat) (dutyNs periodNs : Int) : Prop :=
  ∃ tcnt tcmp, pwmConfig parentRate dutyNs periodNs = .written tcnt tcmp ∧
    tcmp ≤ tcnt ∧ tcnt < 2 ^ 32 ∧ (tcnt + 1 : Int) = periodNs / tinNs parentRate ∧
    (0 < dutyNs → dutyNs < periodNs → ((high tcnt tcmp).card : Int) = dutyNs / tinNs parentRate) ∧
    (dutyNs = 0 ∨ dutyNs = periodNs →
      high tcnt tcmp = ∅ ∨ high tcnt tcmp = Finset.range (tcnt + 1))

theorem card_high (tcnt tcmp : Nat) : (high tcnt tcmp).card = tcnt - tcmp := by
  have hIoc : high tcnt tcmp = Finset.Ioc tcmp tcnt := by
    ext c
    simp only [high, Finset.mem_filter, Finset.mem_range, Finset.mem_Ioc]
    omega
  rw [hIoc, Nat.card_Ioc]

theorem tinNs_pos {parentRate : Nat} (hRate : 0 < parentRate) (hMax : parentRate ≤ 1000000000) :
    0 < tinNs parentRate := by
  unfold tinNs pwmCalcTin
  exact Nat.div_pos (by simpa using hMax) (by simpa using hRate)

theorem pwmConfig_eq {parentRate : Nat} (hRate : 0 < parentRate) (hMax : parentRate ≤ 1000000000)
    {dutyNs periodNs : Int} (hDuty : 0 ≤ dutyNs) (hLe : dutyNs ≤ periodNs) (hPos : 0 < periodNs)
    (hSecond : periodNs ≤ 1000000000) (hTick : (tinNs parentRate : Int) ≤ periodNs) :
    pwmConfig parentRate dutyNs periodNs = .written (periodNs / tinNs parentRate - 1).toNat
      ((periodNs / tinNs parentRate - 1 - dutyNs / tinNs parentRate) % 2 ^ 32).toNat := by
  have hTin := tinNs_pos hRate hMax
  have hZero : ¬(pwmCalcTin parentRate = 0 ∨ tinNs parentRate = 0) := by
    simp [pwmCalcTin, hRate.ne', hTin.ne']
  have hOne : 1 ≤ periodNs / tinNs parentRate := by
    rw [Int.le_ediv_iff_mul_le (by exact_mod_cast hTin), Int.one_mul]
    exact hTick
  have hSmall : periodNs / tinNs parentRate ≤ periodNs := Int.ediv_le_self _ hPos.le
  rw [pwmConfig, if_neg (by omega), if_neg (by omega), if_neg hZero]
  simp only [Outcome.written.injEq]
  generalize periodNs / (tinNs parentRate : Int) = p at hOne hSmall ⊢
  generalize dutyNs / (tinNs parentRate : Int) = d
  omega

/-- The settings of a clock up to 1 GHz and a period of at least one tick are realised exactly if
the duty has fewer whole ticks than the period. -/
theorem pwm_realised_iff {parentRate : Nat} (hRate : 0 < parentRate)
    (hMax : parentRate ≤ 1000000000) {dutyNs periodNs : Int}
    (hDutyInt : -2 ^ 31 ≤ dutyNs ∧ dutyNs < 2 ^ 31)
    (hPeriodInt : -2 ^ 31 ≤ periodNs ∧ periodNs < 2 ^ 31)
    (hRange : pwmConfig parentRate dutyNs periodNs ≠ .erange)
    (hValid : pwmConfig parentRate dutyNs periodNs ≠ .einval)
    (hTick : (tinNs parentRate : Int) ≤ periodNs) :
    Realised parentRate dutyNs periodNs ↔
      dutyNs / tinNs parentRate < periodNs / tinNs parentRate := by
  have hAccepted : 0 ≤ dutyNs ∧ dutyNs ≤ periodNs ∧ 0 < periodNs ∧ periodNs ≤ 1000000000 := by
    by_contra hNot
    unfold pwmConfig at hRange hValid
    split_ifs at hRange hValid <;> first | contradiction | omega
  obtain ⟨hDuty, hLe, hPos, hSecond⟩ := hAccepted
  have hConfig := pwmConfig_eq hRate hMax hDuty hLe hPos hSecond hTick
  have hTicks : dutyNs / tinNs parentRate ≤ periodNs / tinNs parentRate :=
    Int.ediv_le_ediv (by exact_mod_cast tinNs_pos hRate hMax) hLe
  have hNonneg : 0 ≤ dutyNs / tinNs parentRate := Int.ediv_nonneg hDuty (by omega)
  have hSmall : periodNs / tinNs parentRate ≤ periodNs := Int.ediv_le_self _ hPos.le
  unfold Realised
  generalize hp : periodNs / (tinNs parentRate : Int) = p at *
  generalize hd : dutyNs / (tinNs parentRate : Int) = d at *
  constructor
  · rintro ⟨tcnt, tcmp, hWritten, hCmp, -, hPeriod, -⟩
    rw [hConfig, Outcome.written.injEq] at hWritten
    omega
  · intro hLess
    refine ⟨_, _, hConfig, by omega, by omega, by omega, fun _ _ => ?_, ?_⟩
    · rw [card_high]
      omega
    · rintro (rfl | rfl)
      · refine .inl (Finset.card_eq_zero.mp ?_)
        rw [Int.zero_ediv] at hd
        rw [card_high]
        omega
      · omega

theorem pwm_realised_half : Realised 100000000 500 1000 :=
  (pwm_realised_iff (by decide) (by decide) (by decide) (by decide) (by decide) (by decide)
    (by decide)).mpr (by decide)

/-- The whole period as duty. -/
theorem pwm_full_duty : pwmConfig 100000000 1000 1000 = .written 99 0xFFFFFFFF := by
  decide

end Fire3.Pwm

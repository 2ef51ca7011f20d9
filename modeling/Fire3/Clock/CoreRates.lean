import Fire3.Base.Align
import Mathlib.Tactic.NormNum

/-!
The rates of the core clocks, which `core_rate_init` computes from the registers of the
PLLs and dividers.

A divider field holds the divisor minus one. The code adds one, packs the divisors into
bytes and takes six bits of a byte, in which the divisor 64 is 0.
-/

namespace Fire3.CoreClock
open Align

abbrev Regs := Nat → UInt32

def pllsetreg (regs : Regs) (n : Nat) : Nat := (regs (2 + n)).toNat
def dvoreg (regs : Regs) (n : Nat) : Nat := (regs (8 + n)).toNat
def pllsetregSscg (regs : Regs) (n : Nat) : Nat := (regs (18 + n)).toNat

def preDivider (regs : Regs) (n : Nat) : Nat := (pllsetreg regs n >>> 18) &&& 0x3F

def pllfin : Nat := 24000000

def quotient (v d : Nat) : Option Nat := if d = 0 then none else some (v / d)

/-- `pll_rate`; of a shift of 32 places or more the machine takes the low five bits. -/
def pllRate (regs : Regs) (plln xtal : Nat) : Option Nat := do
  let val := pllsetreg regs plln
  let val1 := pllsetregSscg regs plln
  let xtal := xtal / 1000
  let nP := preDivider regs plln
  let nM := (val >>> 8) &&& 0x3FF
  let nS := val &&& 0xFF
  let nK := (val1 >>> 16) &&& 0xFFFF
  let fraction ← if plln > 1 ∧ nK ≠ 0 then quotient (nK * 1000 / 65536 * xtal) nP else some 0
  let whole ← quotient (nM * xtal) nP
  return ((whole >>> (nS % 32)) * 1000 % 2 ^ 32 + fraction >>> (nS % 32)) % 2 ^ 32

def pllDvo (regs : Regs) (dvo : Nat) : Nat := dvoreg regs dvo &&& 0x7

def dvoField (regs : Regs) (dvo i : Nat) : Nat := (dvoreg regs dvo >>> (3 + 6 * i)) &&& 0x3F

def pllDiv (regs : Regs) (dvo : Nat) : Nat :=
  ((dvoField regs dvo 3 + 1) <<< 24) ||| ((dvoField regs dvo 2 + 1) <<< 16) |||
    ((dvoField regs dvo 1 + 1) <<< 8) ||| ((dvoField regs dvo 0 + 1) <<< 0)

def dividedRate (regs : Regs) (dvo k : Nat) : Option Nat := do
  let rate ← pllRate regs (pllDvo regs dvo) pllfin
  (List.range k).foldlM (fun r i => quotient r ((pllDiv regs dvo >>> (8 * i)) &&& 0x3F)) rate

def pllnRate (regs : Regs) (n : Nat) : Option Nat := pllRate regs n pllfin
def cpuFclkRate (regs : Regs) (n : Nat) : Option Nat := dividedRate regs n 1
def cpuBclkRate (regs : Regs) (n : Nat) : Option Nat := dividedRate regs n 2
def memFclkRate (regs : Regs) : Option Nat := dividedRate regs 2 2
def memDclkRate (regs : Regs) : Option Nat := dividedRate regs 2 1
def memBclkRate (regs : Regs) : Option Nat := dividedRate regs 2 3
def memPclkRate (regs : Regs) : Option Nat := dividedRate regs 2 4
def busBclkRate (regs : Regs) : Option Nat := dividedRate regs 1 1
def busPclkRate (regs : Regs) : Option Nat := dividedRate regs 1 2
def g3dBclkRate (regs : Regs) : Option Nat := dividedRate regs 3 1
def mpgBclkRate (regs : Regs) : Option Nat := dividedRate regs 4 1
def mpgPclkRate (regs : Regs) : Option Nat := dividedRate regs 4 2
def dispBclkRate (regs : Regs) : Option Nat := dividedRate regs 5 1
def dispPclkRate (regs : Regs) : Option Nat := dividedRate regs 5 2
def hdmiPclkRate (regs : Regs) : Option Nat := dividedRate regs 6 1
def cci4BclkRate (regs : Regs) : Option Nat := dividedRate regs 8 1
def cci4PclkRate (regs : Regs) : Option Nat := dividedRate regs 8 2

/-- The members of `core_hz`, in the order of the cases of `core_update_rate`. -/
inductive Core where
  | pll0 | pll1 | pll2 | pll3 | cpuFclk | memFclk | busBclk | busPclk | cpuBclk | memDclk
  | memBclk | memPclk | g3dBclk | codaBclk | codaPclk | dispBclk | dispPclk | hdmiPclk
  | cci4Bclk | cci4Pclk
deriving DecidableEq, Repr

variable {regs : Regs} {i : Nat} {hz hz' : Core → Nat}

def cores : List Core :=
  [.pll0, .pll1, .pll2, .pll3, .cpuFclk, .memFclk, .busBclk, .busPclk, .cpuBclk, .memDclk,
    .memBclk, .memPclk, .g3dBclk, .codaBclk, .codaPclk, .dispBclk, .dispPclk, .hdmiPclk,
    .cci4Bclk, .cci4Pclk]

def Core.rate (regs : Regs) : Core → Option Nat
  | .pll0 => pllnRate regs 0
  | .pll1 => pllnRate regs 1
  | .pll2 => pllnRate regs 2
  | .pll3 => pllnRate regs 3
  | .cpuFclk => cpuFclkRate regs 0
  | .memFclk => memFclkRate regs
  | .busBclk => busBclkRate regs
  | .busPclk => busPclkRate regs
  | .cpuBclk => cpuBclkRate regs 0
  | .memDclk => memDclkRate regs
  | .memBclk => memBclkRate regs
  | .memPclk => memPclkRate regs
  | .g3dBclk => g3dBclkRate regs
  | .codaBclk => mpgBclkRate regs
  | .codaPclk => mpgPclkRate regs
  | .dispBclk => dispBclkRate regs
  | .dispPclk => dispPclkRate regs
  | .hdmiPclk => hdmiPclkRate regs
  | .cci4Bclk => cci4BclkRate regs
  | .cci4Pclk => cci4PclkRate regs

def coreUpdateRate (regs : Regs) (coreHz : Core → Nat) (type : Nat) : Option (Core → Nat) :=
  match cores[type]? with
  | none => some coreHz
  | some c => (c.rate regs).map fun rate => Function.update coreHz c rate

def coreHzSize : Nat := 40

def coreRateInit (regs : Regs) (coreHz : Core → Nat) : Option (Core → Nat) :=
  (List.range coreHzSize).foldlM (coreUpdateRate regs) coreHz

/-- Where a clock comes from: a PLL, or the PLL that a divider register selects behind the
first dividers of the register. -/
inductive Source where
  | pll (n : Nat)
  | divided (dvo k : Nat)
deriving DecidableEq, Repr

def Core.source : Core → Source
  | .pll0 => .pll 0
  | .pll1 => .pll 1
  | .pll2 => .pll 2
  | .pll3 => .pll 3
  | .cpuFclk => .divided 0 1
  | .cpuBclk => .divided 0 2
  | .busBclk => .divided 1 1
  | .busPclk => .divided 1 2
  | .memDclk => .divided 2 1
  | .memFclk => .divided 2 2
  | .memBclk => .divided 2 3
  | .memPclk => .divided 2 4
  | .g3dBclk => .divided 3 1
  | .codaBclk => .divided 4 1
  | .codaPclk => .divided 4 2
  | .dispBclk => .divided 5 1
  | .dispPclk => .divided 5 2
  | .hdmiPclk => .divided 6 1
  | .cci4Bclk => .divided 8 1
  | .cci4Pclk => .divided 8 2

/-- The rate of a PLL, divided by the values of the fields plus one. -/
def Source.wanted (regs : Regs) : Source → Option Nat
  | .pll n => pllRate regs n pllfin
  | .divided dvo k =>
      if pllDvo regs dvo < 4 then
        (pllRate regs (pllDvo regs dvo) pllfin).map fun rate =>
          (List.range k).foldl (fun r i => r / (dvoField regs dvo i + 1)) rate
      else none

/-- The rates are computed without a division by zero, and they are right. -/
def RatesRight (regs : Regs) (coreHz : Core → Nat) : Prop :=
  ∃ coreHz', coreRateInit regs coreHz = some coreHz' ∧
    ∀ c : Core, c.source.wanted regs = some (coreHz' c)

/-- A register selects a PLL, and the dividers in use are below 64. -/
def Source.Fits (regs : Regs) : Source → Prop
  | .pll _ => True
  | .divided dvo k => pllDvo regs dvo < 4 ∧ ∀ i < k, dvoField regs dvo i ≠ 63

section
variable (regs : Regs) (dvo : Nat)

theorem dvoField_lt (i : Nat) : dvoField regs dvo i < 64 :=
  Nat.and_lt_two_pow _ (by decide : 0x3F < 2 ^ 6)

theorem pllDiv_eq : pllDiv regs dvo =
    (dvoField regs dvo 3 + 1) * 16777216 + ((dvoField regs dvo 2 + 1) * 65536 +
      ((dvoField regs dvo 1 + 1) * 256 + (dvoField regs dvo 0 + 1))) := by
  have h0 := dvoField_lt regs dvo 0
  have h1 := dvoField_lt regs dvo 1
  have h2 := dvoField_lt regs dvo 2
  rw [pllDiv, Nat.or_assoc, Nat.or_assoc, Nat.shiftLeft_zero, shift_or (dvoField regs dvo 1 + 1)
    (by omega), shift_or (dvoField regs dvo 2 + 1) (by omega), shift_or _ (by omega)]
  norm_num

theorem divisor_eq (hi : i < 4) :
    (pllDiv regs dvo >>> (8 * i)) &&& 0x3F = (dvoField regs dvo i + 1) % 64 := by
  have h0 := dvoField_lt regs dvo 0
  have h1 := dvoField_lt regs dvo 1
  have h2 := dvoField_lt regs dvo 2
  rw [show (0x3F : Nat) = 2 ^ 6 - 1 from rfl, Nat.and_two_pow_sub_one_eq_mod, pllDiv_eq,
    Nat.shiftRight_eq_div_pow]
  obtain rfl | rfl | rfl | rfl : i = 0 ∨ i = 1 ∨ i = 2 ∨ i = 3 := by omega
  all_goals norm_num; omega

theorem quotient_divisor (hi : i < 4) (r : Nat) :
    quotient r ((pllDiv regs dvo >>> (8 * i)) &&& 0x3F) =
      if dvoField regs dvo i = 63 then none else some (r / (dvoField regs dvo i + 1)) := by
  have hLt := dvoField_lt regs dvo i
  rw [divisor_eq regs dvo hi, quotient]
  by_cases hTop : dvoField regs dvo i = 63
  · simp [hTop]
  · rw [Nat.mod_eq_of_lt (by omega), if_neg (by omega), if_neg hTop]

theorem foldlM_quotient (r : Nat) {k : Nat} (hk : k ≤ 4) :
    (List.range k).foldlM (fun r i => quotient r ((pllDiv regs dvo >>> (8 * i)) &&& 0x3F)) r =
      if ∀ i < k, dvoField regs dvo i ≠ 63 then
        some ((List.range k).foldl (fun r i => r / (dvoField regs dvo i + 1)) r)
      else none := by
  induction k with
  | zero => simp
  | succ k ih =>
      rw [List.range_succ, List.foldlM_append, ih (by omega), List.foldl_append]
      by_cases hBelow : ∀ i < k, dvoField regs dvo i ≠ 63
      · rw [if_pos hBelow]
        simp only [Option.bind_eq_bind, Option.bind_some, List.foldlM_cons, List.foldlM_nil,
          quotient_divisor regs dvo (show k < 4 by omega), List.foldl_cons, List.foldl_nil]
        by_cases hTop : dvoField regs dvo k = 63
        · rw [if_pos hTop, if_neg fun hAll => hAll k (by omega) hTop]
          rfl
        · rw [if_neg hTop, if_pos fun i hi => ?_]
          · rfl
          · rcases Nat.lt_succ_iff_lt_or_eq.mp hi with hLow | rfl
            · exact hBelow i hLow
            · exact hTop
      · rw [if_neg hBelow, if_neg fun hAll => hBelow fun i hi => hAll i (by omega)]
        rfl

end

theorem Core.rate_eq (regs : Regs) (c : Core) : c.rate regs =
    match c.source with
    | .pll n => pllRate regs n pllfin
    | .divided dvo k => dividedRate regs dvo k := by
  cases c <;> rfl

theorem pllRate_isSome {n : Nat} (h : preDivider regs n ≠ 0) (xtal : Nat) :
    ∃ rate, pllRate regs n xtal = some rate := by
  simp only [pllRate, quotient, if_neg h]
  split <;> exact ⟨_, rfl⟩

section
variable {regs : Regs} (hP : ∀ n < 4, preDivider regs n ≠ 0)
include hP

theorem Core.rate_of_fits {c : Core} (h : c.source.Fits regs) :
    ∃ rate, c.rate regs = some rate ∧ c.source.wanted regs = some rate := by
  rw [c.rate_eq]
  have hSource : ∀ n dvo k, (c.source = .pll n → n < 4) ∧ (c.source = .divided dvo k → k ≤ 4) := by
    cases c <;> simp [Core.source]
  cases hc : c.source with
  | pll n =>
      obtain ⟨rate, hRate⟩ := pllRate_isSome (hP n ((hSource n 0 0).1 hc)) pllfin
      exact ⟨rate, hRate, hRate⟩
  | divided dvo k =>
      rw [hc] at h
      obtain ⟨rate, hRate⟩ := pllRate_isSome (hP _ h.1) pllfin
      refine ⟨(List.range k).foldl (fun r i => r / (dvoField regs dvo i + 1)) rate, ?_, ?_⟩
      · change dividedRate regs dvo k = _
        rw [dividedRate, hRate]
        exact (foldlM_quotient regs dvo rate ((hSource 0 dvo k).2 hc)).trans (if_pos h.2)
      · rw [Source.wanted, if_pos h.1, hRate, Option.map_some]

theorem Core.fits_of_rate {c : Core} {rate : Nat} (hRate : c.rate regs = some rate)
    (hWanted : c.source.wanted regs = some rate) : c.source.Fits regs := by
  rw [c.rate_eq] at hRate
  have hFields : ∀ dvo k, c.source = .divided dvo k → k ≤ 4 := by cases c <;> simp [Core.source]
  cases hc : c.source with
  | pll n => trivial
  | divided dvo k =>
      rw [hc] at hRate hWanted
      have hSelect : pllDvo regs dvo < 4 := by
        by_contra hNone
        rw [Source.wanted, if_neg hNone] at hWanted
        cases hWanted
      refine ⟨hSelect, ?_⟩
      obtain ⟨r, hr⟩ := pllRate_isSome (hP _ hSelect) pllfin
      change dividedRate regs dvo k = _ at hRate
      rw [dividedRate, hr, Option.bind_eq_bind, Option.bind_some,
        foldlM_quotient regs dvo r (hFields dvo k hc)] at hRate
      by_contra hTop
      rw [if_neg hTop] at hRate
      cases hRate

end

theorem coreUpdateRate_some (h : coreUpdateRate regs hz i = some hz') (c : Core) :
    c.rate regs = some (hz' c) ∨ (hz' c = hz c ∧ cores[i]? ≠ some c) := by
  unfold coreUpdateRate at h
  cases hi : cores[i]? with
  | none =>
      rw [hi] at h
      cases h
      exact .inr ⟨rfl, nofun⟩
  | some d =>
      simp only [hi, Option.map_eq_some_iff] at h
      obtain ⟨rate, hRate, rfl⟩ := h
      by_cases hc : c = d
      · rw [hc, Function.update_self]
        exact .inl hRate
      · rw [Function.update_of_ne hc]
        exact .inr ⟨rfl, fun hSame => hc (Option.some.inj hSame).symm⟩

theorem foldlM_coreUpdateRate {is : List Nat} (h : is.foldlM (coreUpdateRate regs) hz = some hz')
    (c : Core) : c.rate regs = some (hz' c) ∨ (hz' c = hz c ∧ ∀ i ∈ is, cores[i]? ≠ some c) := by
  induction is generalizing hz with
  | nil =>
      cases h
      exact .inr ⟨rfl, fun i hi => absurd hi List.not_mem_nil⟩
  | cons i is ih =>
      obtain ⟨hz₁, hFirst, hRest⟩ := Option.bind_eq_some_iff.mp h
      rcases ih hRest with hRate | ⟨hSame, hNot⟩
      · exact .inl hRate
      · rw [hSame]
        rcases coreUpdateRate_some hFirst c with hRate | ⟨hKept, hi⟩
        · exact .inl hRate
        · exact .inr ⟨hKept, List.forall_mem_cons.mpr ⟨hi, hNot⟩⟩

theorem exists_foldlM_coreUpdateRate (h : ∀ c : Core, ∃ r, c.rate regs = some r) (is : List Nat)
    (hz : Core → Nat) : ∃ hz', is.foldlM (coreUpdateRate regs) hz = some hz' := by
  induction is generalizing hz with
  | nil => exact ⟨hz, rfl⟩
  | cons i is ih =>
      have hFirst : ∃ hz₁, coreUpdateRate regs hz i = some hz₁ := by
        unfold coreUpdateRate
        cases cores[i]? with
        | none => exact ⟨hz, rfl⟩
        | some c =>
            obtain ⟨r, hr⟩ := h c
            exact ⟨_, congrArg (Option.map _) hr⟩
      obtain ⟨hz₁, hFirst⟩ := hFirst
      obtain ⟨hz', hRest⟩ := ih hz₁
      exact ⟨hz', Option.bind_eq_some_iff.mpr ⟨hz₁, hFirst, hRest⟩⟩

theorem mem_cores (c : Core) : ∃ i ∈ List.range coreHzSize, cores[i]? = some c := by
  cases c <;> decide

theorem rate_of_coreRateInit (h : coreRateInit regs hz = some hz') (c : Core) :
    c.rate regs = some (hz' c) := by
  obtain ⟨i, hi, hc⟩ := mem_cores c
  exact (foldlM_coreUpdateRate h c).resolve_right fun hNot => hNot.2 i hi hc

/-- With pre-dividers, the core rates are computed and right exactly if every divider register
in use selects one of the four PLLs and none of its fields in use holds 63. -/
theorem core_rates_right_iff (regs : Regs) (coreHz : Core → Nat)
    (preDividers : ∀ n < 4, preDivider regs n ≠ 0) :
    RatesRight regs coreHz ↔ ∀ c : Core, c.source.Fits regs := by
  constructor
  · rintro ⟨hz', hInit, hWanted⟩ c
    exact c.fits_of_rate preDividers (rate_of_coreRateInit hInit c) (hWanted c)
  · intro hFits
    have hRates (c : Core) := c.rate_of_fits preDividers (hFits c)
    obtain ⟨hz', hInit⟩ := exists_foldlM_coreUpdateRate (fun c => (hRates c).imp fun _ h => h.1)
      (List.range coreHzSize) coreHz
    refine ⟨hz', hInit, fun c => ?_⟩
    obtain ⟨rate, hRate, hWanted⟩ := hRates c
    rw [hWanted, ← hRate, rate_of_coreRateInit hInit c]

def plainRegs : Regs := fun i => if 2 ≤ i ∧ i < 6 then 1624064 else 0

theorem core_rates_right_plain : RatesRight plainRegs (fun _ => 0) := by
  refine (core_rates_right_iff plainRegs (fun _ => 0) (by decide +kernel)).mpr fun c => ?_
  cases c <;> trivial

def slowCpu : Regs := Function.update plainRegs 8 504

theorem slow_cpu_divides_by_zero :
    (∀ n < 4, preDivider slowCpu n ≠ 0) ∧ coreRateInit slowCpu (fun _ => 0) = none ∧
      (Core.cpuFclk.source.wanted slowCpu) = some 12500000 := by
  refine ⟨by decide +kernel, ?_, by decide +kernel⟩
  cases hInit : coreRateInit slowCpu (fun _ => 0) with
  | none => rfl
  | some hz' =>
      have hNone : Core.cpuFclk.rate slowCpu = none := by decide +kernel
      exact absurd ((rate_of_coreRateInit hInit .cpuFclk).symm.trans hNone)
        (Option.some_ne_none _)

end Fire3.CoreClock

import Mathlib.Data.Nat.Bitwise
import Mathlib.Tactic.IntervalCases

/-!
The rates of the peripheral clocks in `clock.c`: `clk_set_rate`, `clk_disable` and `clk_enable`.

`MAX_DIVIDER` is 255, and its even part 254: the divider 256 that the registers can hold is never
chosen, although it can be the closest one.
-/

namespace Fire3.PeriClock

def gap (request rate : Nat) : Nat := ((rate : Int) - request).natAbs

/-- `clk_divide` with the alignment 2: the rate and the divider. `adv` does not fit into an `int`
only for the request 1 and the largest rates, where `rate / adv` is 0 all the same. -/
def clkDivide (rate request : Nat) : Nat × Nat :=
  let div := rate / request
  let adv := div / 2 * 2 + 2
  if div = 0 then (rate, 1)
  else
    let div := if div ≠ 1 then div / 2 * 2 else div
    let div := if div ≠ adv ∧ gap request (rate / adv) < gap request (rate / div) then adv else div
    let div := if 254 < div then 254 else div
    (rate / div, div)

structure Peri where
  two : Bool
  inMask : Nat
  inMask1 : Nat
  rate : Nat → Nat
  rate_lt : ∀ n, rate n < 2 ^ 31
  sources : inMask % 64 ≠ 0
  steps : inMask1 % 64 ≠ 0 → two = true

def Live (c : Peri) (mask n : Nat) : Prop := n < 6 ∧ mask.testBit n = true ∧ c.rate n ≠ 0

/-- The best rate so far, and the source and the divider of each step; the first one is not used
if the second one has a source of its own. -/
structure Best where
  rate : Nat
  first : Option (Nat × Nat)
  second : Nat × Nat

def candidate (c : Peri) (request : Nat) (clk2 : Bool) (n : Nat) : Best :=
  let r := clkDivide (c.rate n) request
  if clk2 then ⟨r.1, none, (n, r.2)⟩
  else if c.two then
    let r' := clkDivide r.1 request
    ⟨r'.1, some (n, r.2), (7, r'.2)⟩
  else ⟨r.1, some (n, r.2), (7, 0)⟩

def turn (c : Peri) (request mask : Nat) (clk2 : Bool) (best : Best) (n : Nat) : Best :=
  if mask.testBit n = false ∨ c.rate n = 0 then best
  else if best.rate ≠ 0 ∧ gap request best.rate < gap request (candidate c request clk2 n).rate then
    best
  else candidate c request clk2 n

def search (c : Peri) (request mask : Nat) (clk2 : Bool) (best : Best) : Best :=
  (List.range 6).foldl (turn c request mask clk2) best

def clkRoundRate (c : Peri) (request : Nat) : Best :=
  let best := search c request c.inMask false ⟨0, some (0, 0), (0, 0)⟩
  if gap request best.rate ≠ 0 ∧ c.inMask1 % 64 ≠ 0 then search c request c.inMask1 true best
  else best

structure Regs where
  gen0 : BitVec 32
  gen1 : BitVec 32

def clkDevRate (g : BitVec 32) (s d : Nat) : BitVec 32 :=
  let v := g &&& ~~~(7#32 <<< 2)
  let v := v ||| BitVec.ofNat 32 s <<< 2
  let v := v &&& ~~~(0xFF#32 <<< 5)
  v ||| (BitVec.ofNat 32 d - 1) <<< 5

def clkDevInv (g inv : BitVec 32) : BitVec 32 := g &&& ~~~(1#32 <<< 1) ||| inv <<< 1

def writeSteps (c : Peri) (best : Best) (r : Regs) : Regs where
  gen0 := match best.first with
    | none => r.gen0
    | some p => clkDevRate r.gen0 p.1 p.2
  gen1 := if c.two then clkDevRate r.gen1 best.second.1 best.second.2 else r.gen1

def clkSetRate (c : Peri) (request : Nat) (r : Regs) : Best × Regs :=
  let best := clkRoundRate c request
  (best, writeSteps c best r)

def clkDisable (r : Regs) : Regs := { r with gen0 := clkDevRate r.gen0 7 256 }

def clkEnable (c : Peri) (best : Best) (invert0 invert1 : BitVec 32) (r : Regs) : Regs :=
  writeSteps c best
    ⟨clkDevInv r.gen0 invert0, if c.two then clkDevInv r.gen1 invert1 else r.gen1⟩

def source (g : BitVec 32) : Nat := (g >>> 2 &&& 7).toNat

def divider (g : BitVec 32) : Nat := (g >>> 5 &&& 0xFF).toNat + 1

def effective (c : Peri) (r : Regs) : Nat :=
  if c.two = true ∧ source r.gen1 ≠ 7 then c.rate (source r.gen1) / divider r.gen1
  else
    let rate := c.rate (source r.gen0) / divider r.gen0
    if c.two then rate / divider r.gen1 else rate

def SelectsLive (c : Peri) (r : Regs) : Prop :=
  if c.two = true ∧ source r.gen1 ≠ 7 then Live c c.inMask1 (source r.gen1)
  else Live c c.inMask (source r.gen0)

/-- One, or an even number up to `max`. -/
def Divider (max d : Nat) : Prop := d = 1 ∨ d ≠ 0 ∧ d % 2 = 0 ∧ d ≤ max

def Closest (c : Peri) (request max rate : Nat) : Prop :=
  ∀ n, Live c c.inMask n → ∀ d, Divider max d → gap request rate ≤ gap request (c.rate n / d)

section
variable {rate request : Nat}

/-- The dividers on both sides of the exact quotient are closer than those beyond them. -/
theorem gap_sides {lo hi d : Nat} (hLo : request ≤ rate / lo) (hHi : rate / hi < request)
    (hPos : 0 < d) (hHiPos : 0 < hi) (hd : d ≤ lo ∨ hi ≤ d) :
    gap request (rate / lo) ≤ gap request (rate / d) ∨
      gap request (rate / hi) ≤ gap request (rate / d) := by
  unfold gap
  rcases hd with hd | hd
  · have hLe := @Nat.div_le_div_left d lo rate hd hPos
    omega
  · have hLe := @Nat.div_le_div_left hi d rate hd hHiPos
    omega

/-- A divider above the quotient that is closer does not exceed the rate. -/
theorem pos_of_closer {lo hi : Nat} (hLoPos : 0 < lo) (hLow : lo = 1 ∧ hi = 2 ∨ 2 ≤ lo ∧ hi = lo + 2)
    (hRate : rate < hi * request) (hRequest : 0 < request)
    (h : gap request (rate / hi) < gap request (rate / lo)) : 0 < rate / hi := by
  by_contra hZero
  have hTwice : 2 * request + 1 ≤ rate / lo := by
    unfold gap at h
    generalize rate / lo = x at h ⊢
    generalize rate / hi = y at h hZero
    omega
  rw [Nat.le_div_iff_mul_le hLoPos] at hTwice
  rcases hLow with ⟨rfl, rfl⟩ | ⟨hTwo, rfl⟩
  · omega
  · have hMul := Nat.mul_le_mul_right request hTwo
    rw [Nat.add_mul, Nat.mul_assoc, Nat.mul_comm request lo] at hTwice
    rw [Nat.add_mul] at hRate
    omega

theorem clkDivide_spec (hRate : 0 < rate) (hRequest : 0 < request) :
    ∃ d, clkDivide rate request = (rate / d, d) ∧ Divider 254 d ∧ 0 < rate / d ∧
      ∀ d', Divider 254 d' → gap request (rate / d) ≤ gap request (rate / d') := by
  have hMul := Nat.div_mul_le_self rate request
  have hNext := Nat.lt_mul_div_succ rate hRequest
  unfold clkDivide
  generalize rate / request = q at hMul hNext ⊢
  by_cases hq : q = 0
  · refine ⟨1, by simp [hq], .inl rfl, by simpa using hRate, fun d' _ => ?_⟩
    have hLe := Nat.div_le_self rate d'
    subst q
    unfold gap
    rw [Nat.div_one]
    omega
  · simp only [if_neg hq]
    generalize hLo : (if q ≠ 1 then q / 2 * 2 else q) = lo
    generalize hHi : q / 2 * 2 + 2 = hi
    have hLow : 0 < lo ∧ lo ≤ q ∧ q + 1 ≤ hi ∧ (lo = 1 ∧ hi = 2 ∨ 2 ≤ lo ∧ hi = lo + 2) := by
      split at hLo <;> omega
    obtain ⟨hLoPos, hLoLe, hHiLe, hNear⟩ := hLow
    have hAbove : request ≤ rate / lo := by
      rw [Nat.le_div_iff_mul_le hLoPos, Nat.mul_comm]
      exact (Nat.mul_le_mul_right request hLoLe).trans hMul
    have hBelow : rate < hi * request := by
      rw [Nat.mul_comm]
      exact hNext.trans_le (Nat.mul_le_mul_left request hHiLe)
    have hUnder : rate / hi < request := Nat.div_lt_of_lt_mul hBelow
    have hSides (d : Nat) (hd : Divider 254 d) := @gap_sides rate request lo hi d hAbove hUnder
      (by unfold Divider at hd; omega) (by omega) (by unfold Divider at hd; split at hLo <;> omega)
    -- the closer one of the two sides
    obtain ⟨m, hm, hEither, hPos, hLeLo, hLeHi⟩ : ∃ m, (if lo ≠ hi ∧ gap request (rate / hi) <
        gap request (rate / lo) then hi else lo) = m ∧ (m = lo ∨ m = hi) ∧ 0 < rate / m ∧
        gap request (rate / m) ≤ gap request (rate / lo) ∧
        gap request (rate / m) ≤ gap request (rate / hi) := by
      refine ⟨_, rfl, ?_⟩
      split
      · next h => exact ⟨.inr rfl, pos_of_closer hLoPos hNear hBelow hRequest h.2, h.2.le, le_rfl⟩
      · next h => exact ⟨.inl rfl, by omega, le_rfl, by omega⟩
    rw [hm]
    by_cases hBig : 254 < m
    · have hMost : 254 ≤ lo := by omega
      have hTop := (@Nat.div_le_div_left 254 lo rate hMost (by decide)).trans' hAbove
      refine ⟨254, by simp [hBig], .inr (by decide), by omega, fun d hd => ?_⟩
      have hLe : rate / 254 ≤ rate / d :=
        Nat.div_le_div_left (by unfold Divider at hd; omega) (by unfold Divider at hd; omega)
      unfold gap
      omega
    · refine ⟨m, by simp [hBig], ?_, hPos, fun d hd => ?_⟩
      · unfold Divider
        split at hLo <;> omega
      · rcases hSides d hd with h | h
        · exact hLeLo.trans h
        · exact hLeHi.trans h

end

section

theorem getElem_ofNat_high {x k j : Nat} (hx : x < 2 ^ k) (hj : k ≤ j) (h : j < 32) :
    (BitVec.ofNat 32 x)[j] = false := by
  have hBit := Nat.testBit_lt_two_pow (hx.trans_le (Nat.pow_le_pow_right (by decide : 0 < 2) hj))
  rw [← BitVec.getLsbD_eq_getElem h, BitVec.getLsbD_ofNat, hBit, Bool.and_false]

theorem fields_clkDevRate (g : BitVec 32) {s d : Nat} (hs : s < 8) (hd : 0 < d) (hMax : d ≤ 256) :
    source (clkDevRate g s d) = s ∧ divider (clkDevRate g s d) = d := by
  obtain ⟨k, rfl⟩ := Nat.exists_eq_add_one_of_ne_zero hd.ne'
  have hLow {j : Nat} := @getElem_ofNat_high s 3 j hs
  have hHigh {j : Nat} := @getElem_ofNat_high k 8 j (by omega)
  have hSub : BitVec.ofNat 32 (k + 1) - 1 = BitVec.ofNat 32 k := by
    rw [BitVec.ofNat_add]
    exact BitVec.add_sub_cancel _ _
  have hSource : clkDevRate g s (k + 1) >>> 2 &&& 7 = BitVec.ofNat 32 s := by
    rw [clkDevRate, hSub]
    ext i hi
    interval_cases i <;> simp [hLow]
  have hDivider : clkDevRate g s (k + 1) >>> 5 &&& 0xFF = BitVec.ofNat 32 k := by
    rw [clkDevRate, hSub]
    ext i hi
    interval_cases i <;> simp [hHigh]
  rw [source, hSource, divider, hDivider, BitVec.toNat_ofNat, BitVec.toNat_ofNat]
  omega

end

section
variable {c : Peri} {request mask : Nat} {clk2 : Bool}

structure Programs (c : Peri) (best : Best) (r : Regs) : Prop where
  live : SelectsLive c r
  rate : effective c r = best.rate

theorem candidate_pos (hRequest : 0 < request) {n : Nat} (hn : c.rate n ≠ 0) :
    (candidate c request clk2 n).rate ≠ 0 := by
  obtain ⟨d, hd, -, hPos, -⟩ := clkDivide_spec (Nat.pos_of_ne_zero hn) hRequest
  obtain ⟨d', hd', -, hPos', -⟩ := clkDivide_spec hPos hRequest
  unfold candidate
  rw [hd]
  dsimp only
  rw [hd']
  split_ifs
  · exact hPos.ne'
  · exact hPos'.ne'
  · exact hPos.ne'

/-- The search ends with the start or with a live source, and as close as any of them. -/
theorem foldl_turn (hRequest : 0 < request) (ns : List Nat) (best : Best) :
    let r := ns.foldl (turn c request mask clk2) best
    (r = best ∨ ∃ n ∈ ns, mask.testBit n = true ∧ c.rate n ≠ 0 ∧ r = candidate c request clk2 n) ∧
      (best.rate ≠ 0 → r.rate ≠ 0 ∧ gap request r.rate ≤ gap request best.rate) ∧
      ∀ n ∈ ns, mask.testBit n = true → c.rate n ≠ 0 →
        r.rate ≠ 0 ∧ gap request r.rate ≤ gap request (candidate c request clk2 n).rate := by
  induction ns generalizing best with
  | nil => simp
  | cons n ns ih =>
      obtain ⟨hFrom, hBest, hAll⟩ := ih (turn c request mask clk2 best n)
      have hTurn : (turn c request mask clk2 best n = best ∨ mask.testBit n = true ∧
          c.rate n ≠ 0 ∧ turn c request mask clk2 best n = candidate c request clk2 n) ∧
          (best.rate ≠ 0 → (turn c request mask clk2 best n).rate ≠ 0 ∧
            gap request (turn c request mask clk2 best n).rate ≤ gap request best.rate) ∧
          (mask.testBit n = true → c.rate n ≠ 0 → (turn c request mask clk2 best n).rate ≠ 0 ∧
            gap request (turn c request mask clk2 best n).rate ≤
              gap request (candidate c request clk2 n).rate) := by
        have hPos (hn : c.rate n ≠ 0) := @candidate_pos c request clk2 hRequest n hn
        unfold turn
        grind
      simp only [List.foldl_cons]
      grind

theorem search_spec (hRequest : 0 < request) (best : Best) :
    let r := search c request mask clk2 best
    (r = best ∨ ∃ n, Live c mask n ∧ r = candidate c request clk2 n) ∧
      ∀ n, Live c mask n →
        r.rate ≠ 0 ∧ gap request r.rate ≤ gap request (candidate c request clk2 n).rate := by
  obtain ⟨hFrom, -, hAll⟩ := foldl_turn hRequest (List.range 6) best
  simp only [List.mem_range] at hFrom hAll
  refine ⟨hFrom.imp_right ?_, fun n h => hAll n h.1 h.2.1 h.2.2⟩
  rintro ⟨n, hn, hBit, hRate, hr⟩
  exact ⟨n, ⟨hn, hBit, hRate⟩, hr⟩

/-- What the registers hold behind `writeSteps`, whatever they held before. -/
theorem programs_candidate (hRequest : 0 < request) {n : Nat}
    (hn : Live c (if clk2 then c.inMask1 else c.inMask) n) (hTwo : clk2 = true → c.two = true)
    (r : Regs) :
    Programs c (candidate c request clk2 n) (writeSteps c (candidate c request clk2 n) r) := by
  obtain ⟨d, hd, hDivider, hPos, -⟩ := clkDivide_spec (Nat.pos_of_ne_zero hn.2.2) hRequest
  obtain ⟨d', hd', hDivider', -, -⟩ := clkDivide_spec hPos hRequest
  have hSmall {e : Nat} (he : Divider 254 e) : 0 < e ∧ e ≤ 256 := by
    unfold Divider at he
    omega
  have hFields (g : BitVec 32) := @fields_clkDevRate g n d (hn.1.trans (by decide))
    (hSmall hDivider).1 (hSmall hDivider).2
  have hOutput := @fields_clkDevRate r.gen1 7 d' (by decide) (hSmall hDivider').1
    (hSmall hDivider').2
  have hOther : n ≠ 7 := by
    have hLt := hn.1
    omega
  cases clk2 with
  | true =>
      constructor
      · simpa [SelectsLive, writeSteps, candidate, hTwo, hd, hFields, hOther] using hn
      · simp [effective, writeSteps, candidate, hTwo, hd, hFields, hOther]
  | false =>
      cases h : c.two with
      | true =>
          constructor
          · simpa [SelectsLive, writeSteps, candidate, h, hd, hd', hFields, hOutput] using hn
          · simp [effective, writeSteps, candidate, h, hd, hd', hFields, hOutput]
      | false =>
          constructor
          · simpa [SelectsLive, writeSteps, candidate, h, hd, hFields] using hn
          · simp [effective, writeSteps, candidate, h, hd, hFields]

theorem mod_ne_zero_of_live {n : Nat} (h : Live c mask n) : mask % 64 ≠ 0 := by
  intro hZero
  have hBit := Nat.testBit_mod_two_pow mask 6 n
  simp [hZero, h.1, h.2.1] at hBit

/-- The rate of the request is that of a live source, and with one step the closest one. -/
theorem clkRoundRate_spec (hRequest : 0 < request)
    (hLive : ∃ n, Live c c.inMask n ∨ Live c c.inMask1 n) :
    (∃ clk2 n, clkRoundRate c request = candidate c request clk2 n ∧
      Live c (if clk2 then c.inMask1 else c.inMask) n ∧ (clk2 = true → c.two = true)) ∧
    (c.two = false → ∀ n, Live c c.inMask n → gap request (clkRoundRate c request).rate ≤
      gap request (candidate c request false n).rate) := by
  have hFirst := @search_spec c request c.inMask false hRequest ⟨0, some (0, 0), (0, 0)⟩
  unfold clkRoundRate
  generalize search c request c.inMask false ⟨0, some (0, 0), (0, 0)⟩ = best at hFirst ⊢
  dsimp only at hFirst ⊢
  have hSecond := @search_spec c request c.inMask1 true hRequest best
  generalize search c request c.inMask1 true best = r at hSecond ⊢
  dsimp only at hSecond
  constructor
  · have hUsed {m : Nat} (hm : Live c c.inMask1 m) : c.inMask1 % 64 ≠ 0 := mod_ne_zero_of_live hm
    by_cases hIn : ∃ n, Live c c.inMask n
    · obtain ⟨m, hm⟩ := hIn
      obtain ⟨n, hn, hBest⟩ := hFirst.1.resolve_left fun h => (hFirst.2 m hm).1 (by rw [h])
      split
      · rcases hSecond.1 with h | ⟨k, hk, h⟩
        · exact ⟨false, n, h.trans hBest, hn, nofun⟩
        · exact ⟨true, k, h, hk, fun _ => c.steps (hUsed hk)⟩
      · exact ⟨false, n, hBest, hn, nofun⟩
    · have hNone := hFirst.1.resolve_right fun h => hIn (h.imp fun n hn => hn.1)
      obtain ⟨m, hm⟩ := hLive
      replace hm := hm.resolve_left fun h => hIn ⟨m, h⟩
      obtain ⟨k, hk, h⟩ := hSecond.1.resolve_left fun h => (hSecond.2 m hm).1 (by rw [h, hNone])
      have hOff : gap request best.rate ≠ 0 := by
        rw [hNone]
        change ((0 : Int) - request).natAbs ≠ 0
        omega
      rw [if_pos ⟨hOff, hUsed hm⟩]
      exact ⟨true, k, h, hk, fun _ => c.steps (hUsed hk)⟩
  · intro hOne n hn
    rw [if_neg fun h => absurd (c.steps h.2) (by simp [hOne])]
    exact (hFirst.2 n hn).2

end

/-- After `clk_set_rate` the registers select the returned rate from live sources, with one step
it is the closest one of all, and disabling and enabling the clock restores it. -/
def SetsRate (c : Peri) (request : Nat) (r : Regs) (invert0 invert1 : BitVec 32) : Prop :=
  let o := clkSetRate c request r
  Programs c o.1 o.2 ∧ (c.two = false → Closest c request 256 o.1.rate) ∧
    effective c (clkEnable c o.1 invert0 invert1 (clkDisable o.2)) = o.1.rate

theorem sets_rate_iff (c : Peri) (hLive : ∃ n, Live c c.inMask n ∨ Live c c.inMask1 n)
    {request : Nat} (hRequest : 0 < request) (r : Regs) (invert0 invert1 : BitVec 32) :
    SetsRate c request r invert0 invert1 ↔
      (c.two = false → ∀ n, Live c c.inMask n → ∃ m d, Live c c.inMask m ∧ Divider 254 d ∧
        gap request (c.rate m / d) ≤ gap request (c.rate n / 256)) := by
  obtain ⟨⟨clk2, n, hBest, hn, hTwo⟩, hClosest⟩ := @clkRoundRate_spec c request hRequest hLive
  have hPrograms := @programs_candidate c request clk2 hRequest n hn hTwo
  unfold SetsRate clkSetRate clkEnable
  dsimp only
  rw [hBest] at hClosest ⊢
  rw [and_iff_right (hPrograms r), and_iff_left (hPrograms _).rate]
  refine forall_congr' fun hOne => ?_
  obtain rfl : clk2 = false := by
    by_contra h
    simp [hTwo (by simpa using h)] at hOne
  have hRate {k : Nat} (hk : Live c c.inMask k) : ∃ d, (candidate c request false k).rate =
      c.rate k / d ∧ Divider 254 d ∧
        ∀ d', Divider 254 d' → gap request (c.rate k / d) ≤ gap request (c.rate k / d') := by
    obtain ⟨d, hd, hDivider, -, hMin⟩ := clkDivide_spec (Nat.pos_of_ne_zero hk.2.2) hRequest
    exact ⟨d, by simp [candidate, hOne, hd], hDivider, hMin⟩
  have hBelow {k : Nat} (hk : Live c c.inMask k) {d : Nat} (hd : Divider 254 d) :
      gap request (candidate c request false n).rate ≤ gap request (c.rate k / d) := by
    obtain ⟨e, he, -, hMin⟩ := hRate hk
    exact (hClosest hOne k hk).trans (he ▸ hMin d hd)
  constructor
  · intro h k hk
    obtain ⟨d, hd, hDivider, -⟩ := hRate hn
    exact ⟨n, d, hn, hDivider, hd ▸ h k hk 256 (.inr (by decide))⟩
  · intro h k hk d hd
    by_cases hLast : d = 256
    · obtain ⟨m, e, hm, he, hLe⟩ := h k hk
      exact hLast ▸ (hBelow hm he).trans hLe
    · refine hBelow hk ?_
      unfold Divider at hd ⊢
      omega

theorem slowRate_lt (n : Nat) : (if n = 0 then 256000 else 0) < 2 ^ 31 := by
  split <;> decide

def slowClock : Peri :=
  ⟨false, 1, 0, fun n => if n = 0 then 256000 else 0, slowRate_lt, Nat.one_ne_zero, nofun⟩

theorem sets_rate_2000 : SetsRate slowClock 2000 ⟨0, 0⟩ 0 0 := by
  have hLive : Live slowClock 1 0 := ⟨by decide, rfl, by decide⟩
  refine (sets_rate_iff slowClock ⟨0, .inl hLive⟩ (by decide) _ _ _).mpr fun _ n hn => ?_
  exact ⟨0, 128, hLive, .inr (by decide), Nat.zero_le _⟩

/-- The divider 256 would give the requested rate. -/
theorem divider_256_missed : (clkSetRate slowClock 1000 ⟨0, 0⟩).1.rate = 1007 ∧
    slowClock.rate 0 / 256 = 1000 ∧ ¬SetsRate slowClock 1000 ⟨0, 0⟩ 0 0 := by
  have hRate : (clkSetRate slowClock 1000 ⟨0, 0⟩).1.rate = 1007 := by decide +kernel
  refine ⟨hRate, rfl, fun h => ?_⟩
  have hClosest := h.2.1 rfl 0 ⟨by decide, rfl, by decide⟩ 256 (.inr (by decide))
  rw [hRate] at hClosest
  exact absurd hClosest (by decide)

end Fire3.PeriClock

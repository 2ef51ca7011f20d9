import Mathlib.Algebra.Order.Ring.Nat
import Mathlib.Data.List.Infix
import Mathlib.Order.WellFounded

/-!
The timestamp of `mach-nexell/timer.c` and the delays measured with it.

The branch for a wrapped counter adds `TIMER_COUNT`, which is one less than the period of the
counter, so each wrap loses a tick. The delays of 1000 us and more are computed from whole
milliseconds.
-/

namespace Fire3.SysTimer

def counter (start t : Nat) : Nat := (start + (2 ^ 32 - t % 2 ^ 32)) % 2 ^ 32

def timerRead (count : Nat) : Nat := 0xFFFFFFFF - count

structure Timer where
  timestamp : Nat
  lastdec : Nat

variable {i tmo u : Nat} {s : Timer}

def resetTimerMasked (now : Nat) : Timer := ⟨0, now⟩

def advance (lastdec now : Nat) : Nat :=
  if lastdec ≤ now then now - lastdec else now + 0xFFFFFFFF - lastdec

def getTimerMasked (s : Timer) (now : Nat) : Timer :=
  ⟨(s.timestamp + advance s.lastdec now) % 2 ^ 64, now⟩

theorem timerRead_counter (start t : Nat) :
    timerRead (counter start t) = (timerRead (counter start 0) + t) % 2 ^ 32 := by
  unfold timerRead counter
  omega

/-- A call `gap` ticks after the last one counts them except for one tick of each wrap, if it does
not come too late. -/
theorem advance_le (p gap : Nat) :
    advance (p % 2 ^ 32) ((p + gap) % 2 ^ 32) + (p + gap) / 2 ^ 32 ≤ gap + p / 2 ^ 32 ∧
      (gap < 2 ^ 32 →
        advance (p % 2 ^ 32) ((p + gap) % 2 ^ 32) + (p + gap) / 2 ^ 32 = gap + p / 2 ^ 32) := by
  unfold advance
  split <;> omega

theorem advance_bounds {p gap : Nat} (h : gap < 2 ^ 32) :
    gap ≤ advance (p % 2 ^ 32) ((p + gap) % 2 ^ 32) + 1 ∧
      advance (p % 2 ^ 32) ((p + gap) % 2 ^ 32) ≤ gap := by
  unfold advance
  split <;> omega

section

def calls (start : Nat) : Nat → Timer → List Nat → Timer
  | _, s, [] => s
  | t, s, gap :: gaps =>
      calls start (t + gap) (getTimerMasked s (timerRead (counter start (t + gap)))) gaps

def callsFrom (start : Nat) (gaps : List Nat) : Timer :=
  calls start 0 (resetTimerMasked (timerRead (counter start 0))) gaps

theorem calls_append (start t : Nat) (s : Timer) (gaps : List Nat) (gap : Nat) :
    calls start t s (gaps ++ [gap]) = getTimerMasked (calls start t s gaps)
      (timerRead (counter start (t + gaps.sum + gap))) := by
  induction gaps generalizing t s with
  | nil => simp [calls]
  | cons g gaps ih => simp [calls, ih, Nat.add_assoc]

/-- The timestamp lacks a tick for each wrap of the counter. -/
theorem callsFrom_eq (start : Nat) {gaps : List Nat} (hGaps : ∀ g ∈ gaps, g < 2 ^ 32) :
    callsFrom start gaps =
      ⟨(gaps.sum - (timerRead (counter start 0) + gaps.sum) / 2 ^ 32) % 2 ^ 64,
        (timerRead (counter start 0) + gaps.sum) % 2 ^ 32⟩ := by
  have hPhase : timerRead (counter start 0) < 2 ^ 32 := by
    unfold timerRead
    omega
  induction gaps using List.reverseRecOn with
  | nil =>
      simp only [callsFrom, calls, resetTimerMasked, List.sum_nil, Timer.mk.injEq]
      omega
  | append_singleton gaps gap ih =>
      have hLast := hGaps gap (by simp)
      have hOld := ih fun g hg => hGaps g (by simp [hg])
      rw [callsFrom] at hOld ⊢
      rw [calls_append, hOld, getTimerMasked, Nat.zero_add,
        timerRead_counter start (gaps.sum + gap)]
      generalize timerRead (counter start 0) = p at hPhase ⊢
      have hAdvance := (advance_le (p + gaps.sum) gap).2 hLast
      simp only [List.sum_append, List.sum_singleton, ← Nat.add_assoc, Timer.mk.injEq, and_true]
        at hAdvance ⊢
      omega

/-- Each call returns the ticks since the reset. -/
def CountsTicks (start : Nat) (gaps : List Nat) : Prop :=
  ∀ done, done <+: gaps → (callsFrom start done).timestamp = done.sum % 2 ^ 64

theorem counts_ticks_iff (start : Nat) {gaps : List Nat} (hGaps : ∀ g ∈ gaps, g < 2 ^ 32) :
    CountsTicks start gaps ↔ timerRead (counter start 0) + gaps.sum < 2 ^ 32 := by
  unfold CountsTicks
  constructor
  · intro h
    induction gaps using List.reverseRecOn with
    | nil =>
        rw [List.sum_nil, timerRead]
        omega
    | append_singleton gaps gap ih =>
        have hBefore := ih (fun g hg => hGaps g (by simp [hg]))
          fun done hDone => h done (hDone.trans (List.prefix_append _ _))
        have hLast := hGaps gap (by simp)
        have hNow := h _ List.prefix_rfl
        rw [callsFrom_eq start hGaps] at hNow
        simp only [List.sum_append, List.sum_singleton] at hNow ⊢
        omega
  · intro h done hDone
    obtain ⟨rest, rfl⟩ := hDone
    rw [callsFrom_eq start fun g hg => hGaps g (by simp [hg])]
    rw [List.sum_append] at h
    rw [Nat.div_eq_of_lt (by omega), Nat.sub_zero]

theorem counts_ticks_from_zero : (∀ g ∈ [5, 7], g < 2 ^ 32) ∧ CountsTicks 0xFFFFFFFF [5, 7] :=
  ⟨by decide, (counts_ticks_iff 0xFFFFFFFF (by decide)).mpr (by decide)⟩

/-- The counter wraps between the reset and a call 10 ticks later. -/
theorem tick_lost : (callsFrom 4 [10]).timestamp = 9 := by
  decide

end

section

def delayTicks (usec freq : Nat) : Nat :=
  if 1000 ≤ usec then usec / 1000 * freq / 1000 else usec * freq / 1000000

def udelayLoop (read : Nat → Nat) (tmo : Nat) : Nat → Nat → Timer → Option Nat
  | 0, _, _ => none
  | fuel + 1, i, s =>
      let s := getTimerMasked s (read i)
      if s.timestamp < tmo then udelayLoop read tmo fuel (i + 1) s else some i

def udelay (read : Nat → Nat) (usec freq : Nat) (s : Timer) (fuel : Nat) : Option Nat :=
  let tmo := delayTicks usec freq
  let s := getTimerMasked s (read 0)
  if (tmo + s.timestamp + 1) % 2 ^ 64 < s.timestamp then
    udelayLoop read tmo fuel 2 (resetTimerMasked (read 1))
  else udelayLoop read ((tmo + s.timestamp) % 2 ^ 64) fuel 1 s

def readAt (start : Nat) (t : Nat → Nat) (i : Nat) : Nat := timerRead (counter start (t i))

/-- From the timestamp `tmp` on, a delay is not too short, and it ends if the counter is read
forever and before it wraps twice. -/
def Delays (usec freq tmp : Nat) : Prop :=
  ∀ start t s, Monotone t → (getTimerMasked s (readAt start t 0)).timestamp = tmp →
    (∀ fuel k, udelay (readAt start t) usec freq s fuel = some k →
      usec * freq / 1000000 ≤ t k - t 0) ∧
    ((∀ i, t (i + 1) < t i + 2 ^ 32) → (∀ n, ∃ i, n ≤ t i) →
      ∃ fuel k, udelay (readAt start t) usec freq s fuel = some k)

structure Counted (p b e u : Nat) (s : Timer) : Prop where
  timestamp : s.timestamp = (b + u) % 2 ^ 64
  lastdec : s.lastdec = (p + e) % 2 ^ 32
  counted : u + (p + e) / 2 ^ 32 ≤ e

theorem Counted.next {p b e : Nat} (h : Counted p b e u s) (gap : Nat) :
    ∃ u', Counted p b (e + gap) u' (getTimerMasked s ((p + (e + gap)) % 2 ^ 32)) ∧
      (gap < 2 ^ 32 → u' + (p + (e + gap)) / 2 ^ 32 = u + gap + (p + e) / 2 ^ 32) := by
  have hAdvance := advance_le (p + e) gap
  rw [← h.lastdec, Nat.add_assoc] at hAdvance
  refine ⟨u + advance s.lastdec ((p + (e + gap)) % 2 ^ 32), ⟨?_, rfl, ?_⟩, ?_⟩
  · simp only [getTimerMasked, h.timestamp, Nat.mod_add_mod, Nat.add_assoc]
  · have hOld := h.counted
    omega
  · intro hGap
    have hSame := hAdvance.2 hGap
    omega

section
variable {start : Nat} {t : Nat → Nat} {j b w : Nat}

theorem readAt_eq (ht : Monotone t) (hij : j ≤ i) :
    readAt start t i = (readAt start t j + (t i - t j)) % 2 ^ 32 := by
  have hLe := ht hij
  unfold readAt
  rw [timerRead_counter start (t i), timerRead_counter start (t j)]
  omega

theorem readAt_lt (start : Nat) (t : Nat → Nat) (j : Nat) : readAt start t j < 2 ^ 32 := by
  unfold readAt timerRead
  omega

theorem Counted.poll (ht : Monotone t) (hij : j ≤ i)
    (h : Counted (readAt start t j) b (t i - t j) u s) :
    ∃ u', Counted (readAt start t j) b (t (i + 1) - t j) u'
        (getTimerMasked s (readAt start t (i + 1))) ∧
      (t (i + 1) < t i + 2 ^ 32 → u' + (readAt start t j + (t (i + 1) - t j)) / 2 ^ 32 =
        u + (t (i + 1) - t i) + (readAt start t j + (t i - t j)) / 2 ^ 32) := by
  have hLe := ht hij
  have hNext : t i ≤ t (i + 1) := ht (Nat.le_succ i)
  obtain ⟨u', hu, hSame⟩ := h.next (t (i + 1) - t i)
  rw [show t i - t j + (t (i + 1) - t i) = t (i + 1) - t j by omega] at hu hSame
  rw [readAt_eq ht (hij.trans (Nat.le_succ i))]
  exact ⟨u', hu, fun hGap => hSame (by omega)⟩

theorem udelayLoop_long (ht : Monotone t) (hw : b + w < 2 ^ 64) {fuel k : Nat} (hij : j ≤ i)
    (hs : Counted (readAt start t j) b (t i - t j) u s)
    (h : udelayLoop (readAt start t) (b + w) fuel (i + 1) s = some k) :
    j ≤ k ∧ w + (readAt start t j + (t k - t j)) / 2 ^ 32 ≤ t k - t j := by
  induction fuel generalizing i u s with
  | zero => cases h
  | succ fuel ih =>
      obtain ⟨u', hu, -⟩ := hs.poll ht hij
      rw [udelayLoop] at h
      split at h
      · exact ih (hij.trans (Nat.le_succ i)) hu h
      · next hStop =>
        cases h
        have hCounted := hu.counted
        rw [hu.timestamp] at hStop
        refine ⟨hij.trans (Nat.le_succ i), ?_⟩
        omega

def ticks (p e : Nat) : Nat := e - (p + e) / 2 ^ 32

def polled (read : Nat → Nat) (i : Nat) (s : Timer) : Nat → Timer
  | 0 => s
  | n + 1 => getTimerMasked (polled read i s n) (read (i + n + 1))

theorem polled_succ (read : Nat → Nat) (i : Nat) (s : Timer) (n : Nat) :
    polled read i s (n + 1) = polled read (i + 1) (getTimerMasked s (read (i + 1))) n := by
  induction n with
  | zero => rfl
  | succ n ih => rw [polled, ih, polled, Nat.add_right_comm i 1 n, Nat.add_assoc i n 1]

/-- The loop ends at the latest at a read that finds the time over. -/
theorem udelayLoop_some {read : Nat → Nat} {n : Nat} (h : tmo ≤ (polled read i s (n + 1)).timestamp)
    :
    ∃ fuel k, k ≤ i + n + 1 ∧ udelayLoop read tmo fuel (i + 1) s = some k := by
  induction n generalizing i s with
  | zero => exact ⟨1, i + 1, le_rfl, if_neg (Nat.not_lt.mpr h)⟩
  | succ n ih =>
      rw [polled_succ] at h
      obtain ⟨fuel, k, hk, hLoop⟩ := ih h
      by_cases hStop : (getTimerMasked s (read (i + 1))).timestamp < tmo
      · refine ⟨fuel + 1, k, by omega, ?_⟩
        rwa [udelayLoop, if_pos hStop]
      · exact ⟨1, i + 1, by omega, by rw [udelayLoop, if_neg hStop]⟩

/-- Reads that do not come too late lose the ticks of the wraps only. -/
theorem timestamp_polled (ht : Monotone t) (hGaps : ∀ i, t (i + 1) < t i + 2 ^ 32)
    (hs : Counted (readAt start t j) b 0 0 s) (n : Nat) :
    (polled (readAt start t) j s n).timestamp =
      (b + ticks (readAt start t j) (t (j + n) - t j)) % 2 ^ 64 := by
  have hCounted : ∃ u, Counted (readAt start t j) b (t (j + n) - t j) u
      (polled (readAt start t) j s n) ∧
      u + (readAt start t j + (t (j + n) - t j)) / 2 ^ 32 = t (j + n) - t j := by
    have hPhase := readAt_lt start t j
    induction n with
    | zero =>
        rw [Nat.add_zero, Nat.sub_self]
        exact ⟨0, hs, by omega⟩
    | succ n ih =>
        obtain ⟨u, hu, hExact⟩ := ih
        obtain ⟨u', hu', hSame⟩ := hu.poll ht (Nat.le_add_right j n)
        have hLe := ht (Nat.le_add_right j n)
        have hNext : t (j + n) ≤ t (j + n + 1) := ht (Nat.le_succ _)
        refine ⟨u', hu', ?_⟩
        have := hSame (hGaps (j + n))
        rw [← Nat.add_assoc]
        omega
  obtain ⟨u, hu, hExact⟩ := hCounted
  rw [hu.timestamp, ticks]
  congr 2
  omega

/-- A step over a multiple of `2 ^ 64` that finds no timestamp from `tmo` on goes from the phase 0
to the last one before the wrap. -/
theorem phase_of_passed {p e e' K : Nat} (hp : p < 2 ^ 32) (hTmo : tmo ≤ 2 ^ 64 - 2 ^ 32 + 2)
    (hLe : e ≤ e') (hGap : e' < e + 2 ^ 32) (hBefore : b + ticks p e < 2 ^ 64 * (K + 1))
    (hAfter : 2 ^ 64 * (K + 1) ≤ b + ticks p e') (hEarly : (b + ticks p e) % 2 ^ 64 < tmo) :
    b + (2 ^ 32 - 1) * ((p + e') / 2 ^ 32 + 1) = 2 ^ 64 * (K + 1) + p := by
  unfold ticks at *
  omega

theorem exists_ticks_ge (ht : Monotone t) (hMore : ∀ n, ∃ i, n ≤ t i) (start j M : Nat) :
    ∃ n, M ≤ ticks (readAt start t j) (t (j + n) - t j) := by
  obtain ⟨i, hi⟩ := hMore (t j + 2 * M + 2)
  have hPhase := readAt_lt start t j
  have hAfter : j ≤ i := by
    by_contra hNot
    have hLe := ht (Nat.le_of_not_le hNot)
    omega
  refine ⟨i - j, ?_⟩
  rw [Nat.add_sub_cancel' hAfter, ticks]
  omega

theorem exists_crossing {f : Nat → Nat} {M n : Nat} (hFirst : f 0 < M) (hLast : M ≤ f n) :
    ∃ m, f m < M ∧ M ≤ f (m + 1) := by
  induction n with
  | zero => omega
  | succ n ih =>
      by_cases h : M ≤ f n
      · exact ih h
      · exact ⟨n, Nat.lt_of_not_le h, hLast⟩

/-- Two such steps do not fit each other: `2 ^ 64` is no multiple of `2 ^ 32 - 1`. -/
theorem udelayLoop_ends (ht : Monotone t) (hGaps : ∀ i, t (i + 1) < t i + 2 ^ 32)
    (hMore : ∀ n, ∃ i, n ≤ t i) (hb : b < 2 ^ 64) (hTmo : tmo ≤ 2 ^ 64 - 2 ^ 32 + 2)
    (hs : Counted (readAt start t j) b 0 0 s) :
    ∃ fuel k, udelayLoop (readAt start t) tmo fuel (j + 1) s = some k := by
  by_contra hNone
  have hEarly (n : Nat) : (polled (readAt start t) j s (n + 1)).timestamp < tmo := by
    by_contra hLate
    obtain ⟨fuel, k, -, hk⟩ := udelayLoop_some (Nat.not_lt.mp hLate)
    exact hNone ⟨fuel, k, hk⟩
  have hPhase := readAt_lt start t j
  have hPassed {K : Nat} (hK : 1 ≤ K) : ∃ q, b + (2 ^ 32 - 1) * (q + 1) =
      2 ^ 64 * (K + 1) + readAt start t j := by
    obtain ⟨n, hFar⟩ := exists_ticks_ge ht hMore start j (2 ^ 64 * (K + 1))
    obtain ⟨m, hBefore, hAfter⟩ := exists_crossing
      (f := fun n => b + ticks (readAt start t j) (t (j + n) - t j)) (by simp [ticks]; omega)
      (Nat.le_trans hFar (Nat.le_add_left _ b))
    have hLe : t (j + m) ≤ t (j + (m + 1)) := ht (Nat.le_succ _)
    have hGap : t (j + (m + 1)) < t (j + m) + 2 ^ 32 := hGaps (j + m)
    have hFirst := ht (Nat.le_add_right j m)
    cases m with
    | zero =>
        change t (j + 1) < t j + 2 ^ 32 at hGap
        change _ ≤ b + (t (j + 1) - t j - _) at hAfter
        omega
    | succ m =>
        have hTime := hEarly m
        rw [timestamp_polled ht hGaps hs] at hTime
        exact ⟨_, phase_of_passed hPhase hTmo (by omega) (by omega) hBefore hAfter hTime⟩
  obtain ⟨q, hq⟩ := hPassed (le_refl 1)
  obtain ⟨q', hq'⟩ := hPassed (Nat.le_succ 1)
  omega

end

section
variable {tmo : Nat}

/-- A read of a counter that wraps at the time 0. The timestamps from `tmo` up to the wrap of the
timestamp are passed over. -/
def skip (tmo : Nat) (q : Nat × Timer) : Nat × Timer :=
  let t := q.1 + if q.2.timestamp + 1 < tmo then 1 else 2 ^ 64 - q.2.timestamp + 1
  (t, getTimerMasked q.2 (t % 2 ^ 32))

theorem skip_spec (hLow : 2 ^ 64 - 2 ^ 32 + 2 < tmo) (hHigh : tmo + 1 < 2 ^ 64) {q : Nat × Timer}
    (hq : q.2.timestamp ≤ tmo ∧ q.2.lastdec = q.1 % 2 ^ 32) :
    (skip tmo q).2.timestamp < tmo ∧ (skip tmo q).2.lastdec = (skip tmo q).1 % 2 ^ 32 ∧
      q.1 < (skip tmo q).1 ∧ (skip tmo q).1 < q.1 + 2 ^ 32 := by
  unfold skip
  dsimp only
  refine ⟨?_, rfl, ?_⟩
  · rw [getTimerMasked, hq.2]
    dsimp only
    split
    · have hOne := @advance_bounds q.1 1 (by decide)
      omega
    · have hJump := @advance_bounds q.1 (2 ^ 64 - q.2.timestamp + 1) (by omega)
      omega
  · split <;> omega

/-- The reads that pass over the end of the delay again and again. -/
theorem exists_skipped (hLow : 2 ^ 64 - 2 ^ 32 + 2 < tmo) (hHigh : tmo + 1 < 2 ^ 64) {tmp : Nat}
    (hTmp : tmp ≤ tmo) : ∃ t : Nat → Nat, t 0 = 0 ∧ Monotone t ∧ (∀ i, t (i + 1) < t i + 2 ^ 32) ∧
      (∀ n, n ≤ t n) ∧
      ∀ fuel, udelayLoop (readAt 0xFFFFFFFF t) tmo fuel 1 ⟨tmp, 0⟩ = none := by
  let q (n : Nat) : Nat × Timer := (skip tmo)^[n] (0, ⟨tmp, 0⟩)
  have hSucc (n : Nat) : q (n + 1) = skip tmo (q n) := Function.iterate_succ_apply' ..
  have hq (n : Nat) : (q n).2.timestamp ≤ tmo ∧ (q n).2.lastdec = (q n).1 % 2 ^ 32 := by
    induction n with
    | zero => exact ⟨hTmp, rfl⟩
    | succ n ih =>
        have hSkip := skip_spec hLow hHigh ih
        rw [hSucc]
        exact ⟨hSkip.1.le, hSkip.2.1⟩
  have hMore (n : Nat) : (q n).1 < (q (n + 1)).1 := by
    rw [hSucc]
    exact (skip_spec hLow hHigh (hq n)).2.2.1
  have hStrict : StrictMono fun n => (q n).1 := strictMono_nat_of_lt_succ hMore
  refine ⟨fun n => (q n).1, rfl, hStrict.monotone, fun n => ?_, fun n => hStrict.le_apply,
    fun fuel => ?_⟩
  · dsimp only
    rw [hSucc]
    exact (skip_spec hLow hHigh (hq n)).2.2.2
  · have hLoop (n : Nat) : udelayLoop (readAt 0xFFFFFFFF fun n => (q n).1) tmo fuel (n + 1)
        (q n).2 = none := by
      induction fuel generalizing n with
      | zero => rfl
      | succ fuel ih =>
          have hRead : readAt 0xFFFFFFFF (fun n => (q n).1) (n + 1) = (q (n + 1)).1 % 2 ^ 32 := by
            unfold readAt timerRead counter
            dsimp only
            omega
          have hState : getTimerMasked (q n).2 ((q (n + 1)).1 % 2 ^ 32) = (q (n + 1)).2 := by
            rw [hSucc]
            rfl
          rw [udelayLoop, hRead, hState, if_pos]
          · exact ih (n + 1)
          · rw [hSucc]
            exact (skip_spec hLow hHigh (hq n)).1
    exact hLoop 0

end

/-- No tick is missing that the wraps of the counter do not give back. -/
abbrev LongEnough (usec freq : Nat) : Prop :=
  usec * freq / 1000000 ≤ delayTicks usec freq + (usec * freq / 1000000 - 1) / 2 ^ 32

theorem delayTicks_lt {usec freq : Nat} (hSmall : usec * freq < 2 ^ 63) :
    delayTicks usec freq < 2 ^ 63 := by
  unfold delayTicks
  split
  · have hLe := Nat.mul_le_mul_right freq (Nat.div_le_self usec 1000)
    omega
  · omega

theorem udelay_base {usec freq tmp : Nat} (hSmall : usec * freq < 2 ^ 63) (hTmp : tmp < 2 ^ 64)
    (start : Nat) (t : Nat → Nat) (hs : (getTimerMasked s (readAt start t 0)).timestamp = tmp) :
    ∃ j b s', Counted (readAt start t j) b 0 0 s' ∧ j ≤ 1 ∧
      (2 ^ 64 ≤ delayTicks usec freq + tmp + 1 ∧ j = 1 ∧ b = 0 ∨
        delayTicks usec freq + tmp + 1 < 2 ^ 64 ∧ j = 0 ∧ b = tmp ∧
          s' = getTimerMasked s (readAt start t 0)) ∧
      ∀ fuel, udelay (readAt start t) usec freq s fuel =
        udelayLoop (readAt start t) (b + delayTicks usec freq) fuel (j + 1) s' := by
  have hTicks := delayTicks_lt hSmall
  unfold udelay
  dsimp only
  rw [hs]
  by_cases hWrap : 2 ^ 64 ≤ delayTicks usec freq + tmp + 1
  · refine ⟨1, 0, resetTimerMasked (readAt start t 1), ⟨rfl, ?_, ?_⟩, le_rfl,
      .inl ⟨hWrap, rfl, rfl⟩, fun fuel => ?_⟩
    · exact (Nat.mod_eq_of_lt (readAt_lt start t 1)).symm
    · rw [Nat.add_zero, Nat.div_eq_of_lt (readAt_lt start t 1)]
    · rw [if_pos (by omega), Nat.zero_add]
  · refine ⟨0, tmp, getTimerMasked s (readAt start t 0), ⟨?_, ?_, ?_⟩, Nat.zero_le 1,
      .inr ⟨by omega, rfl, rfl, rfl⟩, fun fuel => ?_⟩
    · rw [hs, Nat.add_zero, Nat.mod_eq_of_lt hTmp]
    · exact (Nat.mod_eq_of_lt (readAt_lt start t 0)).symm
    · rw [Nat.add_zero, Nat.div_eq_of_lt (readAt_lt start t 0)]
    · rw [if_neg (by omega), Nat.mod_eq_of_lt (by omega), Nat.add_comm]

theorem getTimerMasked_zero {tmp : Nat} {t : Nat → Nat} (hTmp : tmp < 2 ^ 64) (ht : t 0 = 0) :
    getTimerMasked ⟨tmp, 0⟩ (readAt 0xFFFFFFFF t 0) = ⟨tmp, 0⟩ := by
  rw [readAt, ht]
  exact congrArg (Timer.mk · 0) (Nat.mod_eq_of_lt hTmp)

section
variable {usec freq tmp : Nat} (hSmall : usec * freq < 2 ^ 63) (hTmp : tmp < 2 ^ 64)
include hSmall hTmp

theorem room_of_delays (h : Delays usec freq tmp) :
    delayTicks usec freq + tmp ≤ 2 ^ 64 - 2 ^ 32 + 2 ∨
      2 ^ 64 ≤ delayTicks usec freq + tmp + 1 := by
  by_contra hNot
  obtain ⟨t, hZero, ht, hGaps, hMore, hNone⟩ := @exists_skipped (delayTicks usec freq + tmp)
    (by omega) (by omega) tmp (Nat.le_add_left _ _)
  have hs := getTimerMasked_zero hTmp hZero
  obtain ⟨fuel, k, hk⟩ := (h _ t _ ht (by rw [hs])).2 hGaps fun n => ⟨n, hMore n⟩
  obtain ⟨j, b, s', -, -, hBase, hLoop⟩ := udelay_base hSmall hTmp _ t (by rw [hs])
  obtain ⟨-, rfl, rfl, rfl⟩ := hBase.resolve_left fun hWrap => hNot (.inr hWrap.1)
  rw [hLoop, hs, Nat.add_comm b, hNone] at hk
  cases hk

/-- Reads at every tick end a delay as soon as its ticks are counted. -/
theorem longEnough_of_delays (h : Delays usec freq tmp) : LongEnough usec freq := by
  have hTicks := delayTicks_lt hSmall
  by_contra hShort
  unfold LongEnough at hShort
  have ht : Monotone fun n : Nat => n - 2 := fun _ _ hLe => Nat.sub_le_sub_right hLe 2
  have hs := @getTimerMasked_zero tmp (fun n => n - 2) hTmp rfl
  obtain ⟨j, b, s', hCounted, hj, hBase, hLoop⟩ := udelay_base hSmall hTmp _ _ (by rw [hs])
  have hPhase : readAt 0xFFFFFFFF (fun n => n - 2) j = 0 := by
    unfold readAt timerRead counter
    dsimp only
    omega
  -- the tick at which `delayTicks` are counted
  obtain ⟨e, he⟩ : ∃ e, e = delayTicks usec freq + (delayTicks usec freq - 1) / (2 ^ 32 - 1) :=
    ⟨_, rfl⟩
  have hEnd : b + delayTicks usec freq ≤
      (polled (readAt 0xFFFFFFFF fun n => n - 2) j s' (e + 1 - j + 1)).timestamp := by
    have hElapsed : j + (e + 1 - j + 1) - 2 - (j - 2) = e := by omega
    have hCount : ticks 0 e = delayTicks usec freq := by
      unfold ticks
      omega
    rw [timestamp_polled ht (fun i => by omega) hCounted, hPhase, hElapsed, hCount,
      Nat.mod_eq_of_lt (by omega)]
  obtain ⟨fuel, k, hLast, hk⟩ := udelayLoop_some hEnd
  rw [← hLoop] at hk
  have hTime := (h _ _ _ ht (by rw [hs])).1 fuel k hk
  omega

end

/-- A delay from the timestamp `tmp` on is right exactly if the whole milliseconds give enough
ticks and the reads cannot pass over its end at the wrap of the timestamp again and again. -/
theorem delays_iff {usec freq tmp : Nat} (hSmall : usec * freq < 2 ^ 63) (hTmp : tmp < 2 ^ 64) :
    Delays usec freq tmp ↔ LongEnough usec freq ∧
      (delayTicks usec freq + tmp ≤ 2 ^ 64 - 2 ^ 32 + 2 ∨
        2 ^ 64 ≤ delayTicks usec freq + tmp + 1) := by
  have hTicks := delayTicks_lt hSmall
  constructor
  · intro h
    exact ⟨longEnough_of_delays hSmall hTmp h, room_of_delays hSmall hTmp h⟩
  · rintro ⟨hLong, hRoom⟩ start t s ht hs
    obtain ⟨j, b, s', hCounted, hj, hBase, hLoop⟩ := udelay_base hSmall hTmp start t hs
    simp only [hLoop]
    constructor
    · intro fuel k hk
      obtain ⟨hjk, hEnd⟩ := udelayLoop_long ht (by omega) le_rfl
        (by rwa [Nat.sub_self] : Counted _ _ (t j - t j) 0 s') hk
      have hFirst := ht (Nat.zero_le j)
      unfold LongEnough at hLong
      omega
    · intro hGaps hMore
      exact udelayLoop_ends ht hGaps hMore (by omega) (by omega) hCounted

theorem delays_two_ms : Delays 2000 1000000 0 :=
  (delays_iff (by decide) (by decide)).mpr ⟨by decide, .inl (by decide)⟩

/-- 1999 us are taken for 1 ms: 1000 ticks of 1 us. -/
theorem delay_too_short : delayTicks 1999 1000000 = 1000 ∧
    udelay (fun i => if i = 0 then 0 else 1000) 1999 1000000 ⟨0, 0⟩ 1 = some 1 ∧
    ¬Delays 1999 1000000 0 := by
  refine ⟨by decide, by decide, fun h => ?_⟩
  have hLong := ((delays_iff (by decide) (by decide)).mp h).1
  exact absurd hLong (by decide)

end

end Fire3.SysTimer

import Mathlib.Algebra.Group.Nat.Defs
import Mathlib.Data.List.Forall2

/-!
The bus speed and the transfers of `nx_i2c.c`.

The prescaler is chosen as if the divider could be 17, and the divider 0 is used as a divisor. A
transfer that fails leaves the bus without a STOP and the clock enabled.
-/

namespace Fire3.I2c

section

inductive Fault where
  | divideByZero
  | running
deriving DecidableEq, Repr

def divLoop (base speed : Nat) : Nat → Nat → Option Nat
  | 0, _ => none
  | fuel + 1, div => if base / (div + 1) > speed then divLoop base speed fuel (div + 1) else some div

def prescaler (freq speed : Nat) : Nat := if freq / 16 / (16 + 1) > speed then 512 else 16

/-- `nx_i2c_set_bus_speed`: the value of `iiccon`. The new `bus->speed` is divided by `div * pres`. -/
def nxI2cSetBusSpeed (freq speed fuel : Nat) : Except Fault Nat :=
  let pres := prescaler freq speed
  match divLoop (freq / pres) speed fuel 0 with
  | none => .error .running
  | some div =>
      if div * pres = 0 then .error .divideByZero
      else .ok (div % 16 ||| if pres = 512 then 0x40 else 0)

def busRate (freq con : Nat) : Nat := freq / (if con.testBit 6 then 512 else 16) / (con % 16 + 1)

/-- The programmed rate is the highest one that does not exceed the request. -/
def SetsSpeed (freq speed : Nat) : Prop :=
  ∃ fuel con, nxI2cSetBusSpeed freq speed fuel = .ok con ∧ busRate freq con ≤ speed ∧
    ∀ pres ∈ [16, 512], ∀ d < 16, freq / pres / (d + 1) ≤ speed →
      freq / pres / (d + 1) ≤ busRate freq con

theorem divLoop_some {base speed fuel div d : Nat} (hBefore : ∀ e < div, speed < base / (e + 1))
    (h : divLoop base speed fuel div = some d) :
    base / (d + 1) ≤ speed ∧ ∀ e < d, speed < base / (e + 1) := by
  induction fuel generalizing div with
  | zero => cases h
  | succ fuel ih =>
      rw [divLoop] at h
      split at h
      · next hMore =>
        refine ih (fun e he => ?_) h
        rcases Nat.lt_succ_iff_lt_or_eq.mp he with he | rfl
        · exact hBefore e he
        · exact hMore
      · next hLess =>
        cases h
        exact ⟨Nat.not_lt.mp hLess, hBefore⟩

theorem exists_divLoop (base speed : Nat) : ∃ fuel d, divLoop base speed fuel 0 = some d := by
  have hStops {n div : Nat} (hn : base ≤ div + n) :
      ∃ d, divLoop base speed (n + 1) div = some d := by
    induction n generalizing div with
    | zero =>
        rw [divLoop, if_neg (by rw [Nat.div_eq_of_lt (by omega)]; omega)]
        exact ⟨div, rfl⟩
    | succ n ih =>
        rw [divLoop]
        split
        · exact ih (by omega)
        · exact ⟨div, rfl⟩
  obtain ⟨d, hd⟩ := @hStops base 0 (by omega)
  exact ⟨base + 1, d, hd⟩

theorem con_fields : ∀ d < 16, (d % 16 ||| 0x40) % 16 = d ∧ (d % 16 ||| 0x40).testBit 6 = true ∧
    (d % 16 ||| 0) % 16 = d ∧ (d % 16 ||| 0).testBit 6 = false := by
  decide

theorem div_succ_le {base d e : Nat} (h : d ≤ e) : base / (e + 1) ≤ base / (d + 1) :=
  Nat.div_le_div_left (Nat.succ_le_succ h) (Nat.succ_pos d)

/-- What is programmed for a divider that fits and is not 0. -/
theorem setBusSpeed_of_divider {freq speed fuel d : Nat}
    (h : divLoop (freq / prescaler freq speed) speed fuel 0 = some d) (hPos : d ≠ 0) (hd : d < 16) :
    ∃ con, nxI2cSetBusSpeed freq speed fuel = .ok con ∧
      busRate freq con = freq / prescaler freq speed / (d + 1) := by
  have hFields := con_fields d hd
  rw [nxI2cSetBusSpeed]
  simp only [h]
  by_cases hPres : freq / 16 / (16 + 1) > speed
  · rw [prescaler, if_pos hPres, if_neg (by omega)]
    exact ⟨_, rfl, by simp [busRate, hFields]⟩
  · rw [prescaler, if_neg hPres, if_neg (by omega)]
    refine ⟨_, rfl, ?_⟩
    rw [if_neg (by decide), busRate, hFields.2.2.1, hFields.2.2.2, if_neg Bool.noConfusion]

/-- A request between the first and the last rate of the prescaler gets the best of its rates. -/
theorem setBusSpeed_best {freq speed base : Nat} (hBase : freq / prescaler freq speed = base)
    (hLow : base / 16 ≤ speed) (hHigh : speed < base) :
    ∃ fuel con, nxI2cSetBusSpeed freq speed fuel = .ok con ∧ busRate freq con ≤ speed ∧
      ∀ e, base / (e + 1) ≤ speed → base / (e + 1) ≤ busRate freq con := by
  obtain ⟨fuel, d, hLoop⟩ := exists_divLoop base speed
  obtain ⟨hAt, hBefore⟩ := divLoop_some (fun e he => absurd he (Nat.not_lt_zero e)) hLoop
  have hBest {e : Nat} (he : base / (e + 1) ≤ speed) : d ≤ e :=
    Nat.not_lt.mp fun hLt => absurd he (Nat.not_le.mpr (hBefore e hLt))
  have hPos : d ≠ 0 := by
    rintro rfl
    rw [Nat.zero_add, Nat.div_one] at hAt
    omega
  subst hBase
  obtain ⟨con, hCon, hRate⟩ :=
    setBusSpeed_of_divider hLoop hPos (Nat.lt_succ_of_le (@hBest 15 hLow))
  rw [← hRate] at hAt
  exact ⟨fuel, con, hCon, hAt, fun e he => hRate ▸ div_succ_le (hBest he)⟩

/-- A rate that does not exceed the request needs a divider other than 0 that fits its field. -/
theorem bounds_of_setBusSpeed {freq speed fuel con : Nat}
    (hCon : nxI2cSetBusSpeed freq speed fuel = .ok con) (hLe : busRate freq con ≤ speed) :
    freq / 16 / 16 ≤ speed ∧ speed < freq / 16 ∨ speed < freq / 512 := by
  rw [nxI2cSetBusSpeed] at hCon
  cases hLoop : divLoop (freq / prescaler freq speed) speed fuel 0 with
  | none => simp [hLoop] at hCon
  | some d =>
      obtain ⟨hAt, hBefore⟩ := divLoop_some (fun e he => absurd he (Nat.not_lt_zero e)) hLoop
      simp only [hLoop] at hCon
      split at hCon
      · cases hCon
      · next hPos =>
        have hFirst := hBefore 0 (Nat.pos_of_ne_zero fun h => hPos (by rw [h, Nat.zero_mul]))
        obtain rfl := Except.ok.inj hCon
        rw [Nat.zero_add, Nat.div_one] at hFirst
        by_cases hPres : freq / 16 / (16 + 1) > speed
        · rw [prescaler, if_pos hPres] at hFirst
          exact .inr hFirst
        · rw [prescaler, if_neg hPres] at hAt hBefore hFirst hLe
          refine .inl ⟨?_, hFirst⟩
          by_cases hd : d < 16
          · exact Nat.le_trans (div_succ_le (Nat.le_of_lt_succ hd)) hAt
          · -- the divider 16 is written as 0
            obtain rfl : d = 16 := by
              by_contra hOther
              exact hPres (hBefore 16 (by omega))
            exact absurd hFirst (Nat.not_lt.mpr (by simpa [busRate] using hLe))

/-- If some setting does not exceed the request, the speed is set right exactly if it needs a
divider other than 0 and not the one that is missing between the prescalers. -/
theorem sets_speed_iff {freq speed : Nat}
    (hSome : ∃ pres ∈ [16, 512], ∃ d < 16, freq / pres / (d + 1) ≤ speed) :
    SetsSpeed freq speed ↔
      freq / 16 / 16 ≤ speed ∧ speed < freq / 16 ∨ speed < freq / 512 := by
  constructor
  · rintro ⟨fuel, con, hCon, hLe, -⟩
    exact bounds_of_setBusSpeed hCon hLe
  · rintro (⟨hLow, hHigh⟩ | hHigh)
    · have hNext := @div_succ_le (freq / 16) 15 16 (by decide)
      have hPres : prescaler freq speed = 16 := by
        rw [prescaler, if_neg]
        omega
      obtain ⟨fuel, con, hCon, hLe, hBest⟩ := setBusSpeed_best (by rw [hPres]) hLow hHigh
      refine ⟨fuel, con, hCon, hLe, fun pres hMem e _ he => ?_⟩
      rcases List.mem_pair.mp hMem with rfl | rfl
      · exact hBest e he
      · have hSmall := Nat.div_le_self (freq / 512) (e + 1)
        have hLast := hBest 15 hLow
        omega
    · have hPres : prescaler freq speed = 512 := by
        rw [prescaler, if_pos]
        omega
      have hLast {pres e : Nat} (he : e < 16) : freq / pres / (15 + 1) ≤ freq / pres / (e + 1) :=
        div_succ_le (Nat.le_of_lt_succ he)
      have hLow : freq / 512 / 16 ≤ speed := by
        obtain ⟨pres, hMem, e, he, hLe⟩ := hSome
        have hMost := @hLast pres e he
        rcases List.mem_pair.mp hMem with rfl | rfl <;> omega
      obtain ⟨fuel, con, hCon, hLe, hBest⟩ := setBusSpeed_best (by rw [hPres]) hLow hHigh
      refine ⟨fuel, con, hCon, hLe, fun pres hMem e he hRate => ?_⟩
      rcases List.mem_pair.mp hMem with rfl | rfl
      · have hMost := @hLast 16 e he
        omega
      · exact hBest e hRate

theorem sets_speed_100k : (∃ pres ∈ [16, 512], ∃ d < 16, 25000000 / pres / (d + 1) ≤ 100000) ∧
    SetsSpeed 25000000 100000 := by
  have hSome : ∃ pres ∈ [16, 512], ∃ d < 16, 25000000 / pres / (d + 1) ≤ 100000 :=
    ⟨512, by decide, 15, by decide, by decide⟩
  exact ⟨hSome, (sets_speed_iff hSome).mpr (.inl (by decide))⟩

/-- The divider 16 is programmed as 0, 16 times too fast. -/
theorem speed_exceeded : nxI2cSetBusSpeed 43520 160 20 = .ok 0 ∧ busRate 43520 0 = 2720 ∧
    43520 / 512 / 1 ≤ 160 := by
  decide

end

section

inductive Answer where
  | ok
  | nack
  | timeout
deriving DecidableEq, Repr

inductive Event where
  | clock (on : Bool)
  | start
  | byte (answer : Answer)
  | stop
deriving DecidableEq, Repr

structure Msg where
  read : Bool
  noBuf : Bool
  len : Nat

def sendBytes (answers : Nat → Answer) : Nat → Nat → List Event × Nat × Answer
  | 0, i => ([], i, .ok)
  | n + 1, i =>
      if answers i = .ok then
        let r := sendBytes answers n (i + 1)
        (.byte .ok :: r.1, r.2)
      else ([.byte (answers i)], i + 1, answers i)

/-- `i2c_transfer` without a register address, as `nx_i2c_xfer` calls it through `nx_i2c_read` and
`nx_i2c_write`: the length is an `unsigned short`, and the result tells success. -/
def i2cTransfer (answers : Nat → Answer) (m : Msg) (i : Nat) : List Event × Nat × Bool :=
  if m.noBuf = true ∨ m.len % 2 ^ 16 = 0 then ([], i, false)
  else if answers i ≠ .ok then ([.start, .byte (answers i)], i + 1, false)
  else
    let r := sendBytes answers (m.len % 2 ^ 16) (i + 1)
    (.start :: .byte .ok :: r.1, r.2.1, r.2.2 = .ok ∨ m.read = true ∧ r.2.2 = .nack)

def sendMsgs (answers : Nat → Answer) : List Msg → Nat → List (List Event) × Bool
  | [], _ => ([], true)
  | m :: ms, i =>
      let r := i2cTransfer answers m i
      if r.2.2 = false then ([r.1], false)
      else
        let rest := sendMsgs answers ms r.2.1
        (r.1 :: rest.1, rest.2)

structure Xfer where
  msgs : List (List Event)
  release : List Event
  success : Bool

def nxI2cXfer (busy : Bool) (answers : Nat → Answer) (ms : List Msg) : Xfer :=
  if busy then ⟨[], [], false⟩
  else
    let r := sendMsgs answers ms 0
    if r.2 then ⟨r.1, [.stop, .clock false], true⟩ else ⟨r.1, [], false⟩

def Xfer.events (x : Xfer) : List Event := .clock true :: (x.msgs.flatten ++ x.release)

/-- All bytes of a message have been transferred and acknowledged; the last byte of a read is not
acknowledged by the master. -/
def Complete (m : Msg) (events : List Event) : Prop :=
  events = .start :: .byte .ok :: List.replicate m.len (.byte .ok) ∨
    m.read = true ∧ 0 < m.len ∧
      events = .start :: .byte .ok :: (List.replicate (m.len - 1) (.byte .ok) ++ [.byte .nack])

/-- Every START is followed by a STOP, the clock is disabled at the end, and success means that
every message is complete. -/
def Releases (busy : Bool) (answers : Nat → Answer) (ms : List Msg) : Prop :=
  let x := nxI2cXfer busy answers ms
  (∀ pre post, x.events = pre ++ .start :: post → .stop ∈ post) ∧
    .clock false ∈ x.events ∧ (x.success = true → List.Forall₂ Complete ms x.msgs)

structure MsgAnswered (answers : Nat → Answer) (m : Msg) (i : Nat) : Prop where
  buf : m.noBuf = false
  len_pos : m.len ≠ 0
  len_lt : m.len < 2 ^ 16
  ok : ∀ k < m.len, answers (i + k) = .ok
  last : answers (i + m.len) = .ok ∨ m.read = true ∧ answers (i + m.len) = .nack

def Answered (answers : Nat → Answer) : List Msg → Nat → Prop
  | [], _ => True
  | m :: ms, i => MsgAnswered answers m i ∧ Answered answers ms (i + 1 + m.len)

section
variable {answers : Nat → Answer}

theorem sendBytes_spec (answers : Nat → Answer) (n i : Nat) :
    (∀ k < n, answers (i + k) = .ok) ∧
        sendBytes answers n i = (List.replicate n (.byte .ok), i + n, .ok) ∨
      ∃ k < n, (∀ j < k, answers (i + j) = .ok) ∧ answers (i + k) ≠ .ok ∧
        sendBytes answers n i = (List.replicate k (.byte .ok) ++ [.byte (answers (i + k))],
          i + k + 1, answers (i + k)) := by
  induction n generalizing i with
  | zero => exact .inl ⟨by omega, rfl⟩
  | succ n ih =>
      rw [sendBytes]
      by_cases hFirst : answers i = .ok
      · rw [if_pos hFirst]
        have hAll {k : Nat} (h : ∀ j < k, answers (i + 1 + j) = .ok) : ∀ j < k + 1,
            answers (i + j) = .ok := by
          intro j hj
          cases j with
          | zero => exact hFirst
          | succ j => simpa [Nat.add_right_comm, Nat.add_assoc] using h j (by omega)
        rcases ih (i + 1) with ⟨hOk, hSend⟩ | ⟨k, hk, hOk, hNot, hSend⟩
        · refine .inl ⟨hAll hOk, ?_⟩
          rw [hSend, List.replicate_succ, Nat.add_right_comm]
          rfl
        · refine .inr ⟨k + 1, by omega, hAll hOk, ?_, ?_⟩
          · rwa [Nat.add_right_comm] at hNot
          · rw [hSend, List.replicate_succ, Nat.add_right_comm i 1 k]
            rfl
      · rw [if_neg hFirst]
        exact .inr ⟨0, by omega, by omega, hFirst, rfl⟩

theorem MsgAnswered.transfer {m : Msg} {i : Nat} (h : MsgAnswered answers m i) :
    ∃ events, i2cTransfer answers m i = (events, i + 1 + m.len, true) ∧ Complete m events := by
  have hLen := Nat.mod_eq_of_lt h.len_lt
  have hStart := h.ok 0 (Nat.pos_of_ne_zero h.len_pos)
  rw [Nat.add_zero] at hStart
  have hSome : ¬(m.noBuf = true ∨ m.len % 2 ^ 16 = 0) := by
    rw [hLen]
    simp [h.buf, h.len_pos]
  rw [i2cTransfer, if_neg hSome, if_neg (not_not.mpr hStart), hLen]
  rcases sendBytes_spec answers m.len (i + 1) with ⟨-, hSend⟩ | ⟨k, hk, -, hNot, hSend⟩
  · rw [hSend]
    exact ⟨_, by simp, .inl rfl⟩
  · -- only the last byte of a read is not acknowledged
    obtain hk : k + 1 = m.len := by
      by_contra hEarly
      exact hNot (by simpa [Nat.add_right_comm, Nat.add_assoc] using h.ok (k + 1) (by omega))
    have hIndex : i + 1 + k = i + m.len := by omega
    rw [hIndex] at hNot hSend
    obtain ⟨hRead, hNack⟩ := h.last.resolve_left hNot
    rw [hSend, hNack]
    refine ⟨.start :: .byte .ok :: (List.replicate k (.byte .ok) ++ [.byte .nack]), ?_,
      .inr ⟨hRead, by omega, ?_⟩⟩
    · simp [hRead, Nat.add_right_comm]
    · rw [show m.len - 1 = k by omega]

theorem msgAnswered_of_transfer {m : Msg} {i : Nat}
    (hSuccess : (i2cTransfer answers m i).2.2 = true)
    (hComplete : Complete m (i2cTransfer answers m i).1) : MsgAnswered answers m i := by
  rw [i2cTransfer] at hSuccess hComplete
  split at hSuccess
  · cases hSuccess
  · next hLen =>
    rw [if_neg hLen] at hComplete
    push Not at hLen
    split at hSuccess
    · cases hSuccess
    · next hStart =>
      rw [if_neg hStart] at hComplete
      have hLt := Nat.mod_lt m.len (show 2 ^ 16 > 0 by decide)
      have hAll {n : Nat} (h : ∀ k < n, answers (i + 1 + k) = .ok) (k : Nat) (hk : k < n + 1) :
          answers (i + k) = .ok := by
        cases k with
        | zero => exact not_not.mp hStart
        | succ k => simpa [Nat.add_right_comm, Nat.add_assoc] using h k (by omega)
      unfold Complete at hComplete
      simp only [List.cons.injEq, true_and] at hComplete
      rcases sendBytes_spec answers (m.len % 2 ^ 16) (i + 1) with
        ⟨hOk, hSend⟩ | ⟨k, hk, hOk, hNot, hSend⟩
      · simp only [hSend] at hComplete
        rcases hComplete with h | ⟨-, -, h⟩
        · have hLen' : m.len % 2 ^ 16 = m.len := by simpa using congrArg List.length h
          rw [hLen'] at hOk hLen hLt
          exact ⟨by simpa using hLen.1, hLen.2, hLt, fun k hk => hAll hOk k (by omega),
            .inl (hAll hOk m.len (by omega))⟩
        · have hMem : Event.byte .nack ∈ List.replicate (m.len % 2 ^ 16) (Event.byte .ok) := by
            rw [h]
            simp
          simp at hMem
      · simp only [hSend] at hComplete hSuccess
        rcases hComplete with h | ⟨hRead, hPos, h⟩
        · have hMem : Event.byte (answers (i + 1 + k)) ∈ List.replicate m.len (.byte .ok) := by
            rw [← h]
            simp
          exact absurd (by simpa using (List.mem_replicate.mp hMem).2) hNot
        · have hLen' : k + 1 = m.len := by
            have hLength := congrArg List.length h
            simp only [List.length_append, List.length_replicate, List.length_singleton]
              at hLength
            omega
          have hLe := Nat.mod_le m.len (2 ^ 16)
          refine ⟨by simpa using hLen.1, by omega, by omega,
            fun j hj => hAll hOk j (by omega), .inr ⟨hRead, ?_⟩⟩
          rw [← hLen', ← Nat.add_assoc, Nat.add_right_comm]
          simpa [hNot, hRead] using hSuccess

theorem transfer_events (m : Msg) (i : Nat) :
    ∀ e ∈ (i2cTransfer answers m i).1, e = .start ∨ ∃ a, e = .byte a := by
  unfold i2cTransfer
  split
  · simp
  · split
    · simp
    · rcases sendBytes_spec answers (m.len % 2 ^ 16) (i + 1) with ⟨-, hSend⟩ | ⟨k, -, -, -, hSend⟩
      · rw [hSend]
        simp
      · rw [hSend]
        simp
        grind

end

section
variable {answers : Nat → Answer} {ms : List Msg} {i : Nat}

theorem Answered.sendMsgs (h : Answered answers ms i) :
    ∃ logs, I2c.sendMsgs answers ms i = (logs, true) ∧ List.Forall₂ Complete ms logs := by
  induction ms generalizing i with
  | nil => exact ⟨[], rfl, .nil⟩
  | cons m ms ih =>
      obtain ⟨events, hTransfer, hComplete⟩ := h.1.transfer
      obtain ⟨logs, hLogs, hAll⟩ := ih h.2
      rw [I2c.sendMsgs, hTransfer]
      exact ⟨events :: logs, by simp [hLogs], .cons hComplete hAll⟩

theorem answered_of_sendMsgs (hSuccess : (sendMsgs answers ms i).2 = true)
    (hComplete : List.Forall₂ Complete ms (sendMsgs answers ms i).1) : Answered answers ms i := by
  induction ms generalizing i with
  | nil => trivial
  | cons m ms ih =>
      rw [sendMsgs] at hSuccess hComplete
      split at hSuccess
      · cases hSuccess
      · next hOk =>
        rw [if_neg hOk, List.forall₂_cons] at hComplete
        rw [Bool.not_eq_false] at hOk
        have hMsg := msgAnswered_of_transfer hOk hComplete.1
        obtain ⟨events, hTransfer, -⟩ := hMsg.transfer
        rw [hTransfer] at hSuccess hComplete
        exact ⟨hMsg, ih hSuccess hComplete.2⟩

theorem sendMsgs_events : ∀ e ∈ (sendMsgs answers ms i).1.flatten,
    e = .start ∨ ∃ a, e = .byte a := by
  induction ms generalizing i with
  | nil => simp [sendMsgs]
  | cons m ms ih =>
      rw [sendMsgs]
      split
      · simpa using transfer_events m i
      · intro e he
        rw [List.flatten_cons, List.mem_append] at he
        exact he.elim (transfer_events m i e) (ih e)

end

theorem stop_behind_start {pre post front : List Event}
    (h : front ++ [.stop, .clock false] = pre ++ .start :: post) : Event.stop ∈ post := by
  obtain ⟨rest, hPre, hRest⟩ | ⟨rest, hPre, hRest⟩ := List.append_eq_append_iff.mp h
  · -- a START behind the messages
    cases rest with
    | nil => simp at hRest
    | cons e rest => cases rest <;> simp_all
  · cases rest with
    | nil => simp at hRest
    | cons e rest =>
        rw [List.cons_append, List.cons.injEq] at hRest
        rw [hRest.2]
        simp

/-- The bus is released, and success is told rightly, exactly if the bus is free and every message
is answered. -/
theorem releases_iff (busy : Bool) (answers : Nat → Answer) (ms : List Msg) :
    Releases busy answers ms ↔ busy = false ∧ Answered answers ms 0 := by
  unfold Releases
  constructor
  · rintro ⟨-, hClock, hComplete⟩
    rw [nxI2cXfer] at hClock hComplete
    split at hClock
    · simp [Xfer.events] at hClock
    · next hFree =>
      rw [if_neg hFree] at hComplete
      dsimp only at hClock hComplete
      split at hClock
      · next hSuccess =>
        rw [if_pos hSuccess] at hComplete
        exact ⟨by simpa using hFree, answered_of_sendMsgs hSuccess (hComplete rfl)⟩
      · simp only [Xfer.events, List.append_nil, List.mem_cons, Event.clock.injEq,
          Bool.false_eq_true, false_or] at hClock
        have hEvent := sendMsgs_events _ hClock
        simp at hEvent
  · rintro ⟨rfl, hAnswered⟩
    obtain ⟨logs, hLogs, hAll⟩ := hAnswered.sendMsgs
    rw [nxI2cXfer, if_neg Bool.noConfusion, hLogs]
    dsimp only
    rw [if_pos rfl]
    refine ⟨fun pre post h => ?_, by simp [Xfer.events], fun _ => hAll⟩
    exact @stop_behind_start pre post (.clock true :: logs.flatten) h

/-- A write of two bytes whose address is not acknowledged. -/
theorem nack_holds_bus : (nxI2cXfer false (fun _ => .nack) [⟨false, false, 2⟩]).events =
    [.clock true, .start, .byte .nack] := by
  decide

end

end Fire3.I2c

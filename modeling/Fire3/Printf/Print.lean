import Fire3.Base.CString

/-!
`print` of `Timer/printf.c` and `Hello1/printf.c`, which differ in the digits of unsigned numbers.

The format is what lies before its NUL. A step over the NUL is a fault, and so is a digit that
would be stored in front of `print_buf`.
-/

namespace Fire3.Printf
open CString

inductive Fault where
  | format
  | buffer
  | running
deriving DecidableEq, Repr

abbrev Out := CStr × Int

def wrap32 (x : Int) : Int := Int.bmod x (2 ^ 32)

def prints (s : CStr) (width : Int) (right zero : Bool) : Out :=
  let n := (width - s.length).toNat
  let padding := List.replicate n (if zero then 48 else 32)
  (if right then s ++ padding else padding ++ s, n + s.length)

def digitChar (letbase : Int) (t : Int) : UInt8 :=
  UInt8.ofNat ((if t ≥ 10 then t + (letbase - 48 - 10) else t) + 48).toNat

/-- The digit loop, with `s` bytes of `print_buf` left in front of the digits. Between the turns
the value is kept in an `unsigned int`, which changes nothing. -/
def digits (b letbase : Int) : Nat → Int → CStr → Except Fault CStr
  | 0, x, acc => if x = 0 then .ok acc else .error .buffer
  | s + 1, x, acc =>
      if x = 0 then .ok acc else digits b letbase s (x.tdiv b) (digitChar letbase (x.tmod b) :: acc)

/-- `printi`, with the flag `sg` of `Hello1`. The dividend of the loop is an `int`. -/
def printi (i b : Int) (sg : Bool) (width : Int) (right zero : Bool) (letbase : Int) :
    Except Fault Out :=
  if i = 0 then .ok (prints [48] width right zero)
  else
    let neg := sg && b == 10 && decide (i < 0)
    match digits b letbase 21 (wrap32 (if neg then -i else i)) [] with
    | .error e => .error e
    | .ok s =>
        if neg then
          if width ≠ 0 ∧ zero then
            let r := prints s (wrap32 (width - 1)) right zero
            .ok (45 :: r.1, 1 + r.2)
          else if s.length < 21 then .ok (prints (45 :: s) width right zero)
          else .error .buffer
        else .ok (prints s width right zero)

def printu (u b : Int) (width : Int) (right zero : Bool) (letbase : Int) : Except Fault Out :=
  if u = 0 then .ok (prints [48] width right zero)
  else
    match digits b letbase 21 u [] with
    | .error e => .error e
    | .ok s => .ok (prints s width right zero)

structure Arg where
  int : Int
  str : Option CStr
  low : -2 ^ 31 ≤ int
  high : int < 2 ^ 31

def unsigned (hello : Bool) (a : Arg) (b : Int) (width : Int) (right zero : Bool) (letbase : Int) :
    Except Fault Out :=
  if hello then printi a.int b false width right zero letbase
  else printu (a.int % 2 ^ 32) b width right zero letbase

/-- The conversions; `none` is a character that is none. -/
def conversion (hello : Bool) (c : UInt8) (a : Arg) (width : Int) (right zero : Bool) :
    Option (Except Fault Out) :=
  if c = 115 then some (.ok (prints (a.str.getD (ascii "(null)")) width right zero))
  else if c = 100 then some (printi a.int 10 true width right zero 97)
  else if c = 117 then some (unsigned hello a 10 width right zero 97)
  else if c = 120 then some (unsigned hello a 16 width right zero 97)
  else if c = 88 then some (unsigned hello a 16 width right zero 65)
  else if c = 99 then some (.ok (prints (ofArray [UInt8.ofNat (a.int % 256).toNat]) width right zero))
  else none

structure Directive where
  right : Bool
  zero : Bool
  width : Int
  rest : List UInt8

def directive (cs : List UInt8) : Directive :=
  let right := cs.head? == some 45
  let cs := if right then cs.tail else cs
  let zero := cs.head? == some 48
  let cs := cs.dropWhile (· == 48)
  ⟨right, zero, (cs.takeWhile isDigit).foldl (fun w c => wrap32 (w * 10 + (c.toNat - 48))) 0,
    cs.dropWhile isDigit⟩

def emit (o : Out) : Except Fault Out → Except Fault Out
  | .error e => .error e
  | .ok r => .ok (o.1 ++ r.1, wrap32 (o.2 + r.2))

/-- The loop of `print` from a place of the format on. A directive without a conversion at its
end leaves the loop to step over the NUL. -/
def printLoop (hello : Bool) : Nat → List UInt8 → (Nat → Arg) → Except Fault Out
  | 0, _, _ => .error .running
  | _ + 1, [], _ => .ok ([], 0)
  | fuel + 1, c :: cs, args =>
      if c ≠ 37 then emit ([c], 1) (printLoop hello fuel cs args)
      else if cs = [] then .ok ([], 0)
      else if cs.head? = some 37 then emit ([37], 1) (printLoop hello fuel cs.tail args)
      else
        let d := directive cs
        match d.rest with
        | [] => .error .format
        | k :: rest =>
            match conversion hello k (args 0) d.width d.right d.zero with
            | none => printLoop hello fuel rest args
            | some (.error e) => .error e
            | some (.ok o) => emit o (printLoop hello fuel rest fun n => args (n + 1))

def print (hello : Bool) (format : List UInt8) (args : Nat → Arg) : Except Fault Out :=
  printLoop hello (format.length + 1) format args

theorem length_rest_le (cs : List UInt8) : (directive cs).rest.length ≤ cs.length := by
  refine (List.dropWhile_suffix _).length_le.trans ((List.dropWhile_suffix _).length_le.trans ?_)
  split
  · exact (List.tail_suffix cs).length_le
  · exact le_rfl

/-- No directive of the format ends between its flags or digits and its conversion. -/
def closed : List UInt8 → Bool
  | [] => true
  | c :: cs =>
      if c ≠ 37 then closed cs
      else if cs = [] then true
      else if cs.head? = some 37 then closed cs.tail
      else if (directive cs).rest = [] then false
      else closed (directive cs).rest.tail
termination_by cs => cs.length
decreasing_by
  · simp
  · simp
  · have hLe := length_rest_le cs
    rw [List.length_tail, List.length_cons]
    omega

theorem length_prints (s : CStr) (width : Int) (right zero : Bool) :
    (prints s width right zero).2 = (prints s width right zero).1.length := by
  cases right <;> simp [prints, add_comm]

section
variable {b letbase : Int}

theorem digits_ok (hb : 10 ≤ b) {k s : Nat} {x : Int} (hx : x.natAbs < 10 ^ k) (hs : k ≤ s)
    (acc : CStr) : ∃ cs, digits b letbase s x acc = .ok (cs ++ acc) ∧ cs.length ≤ k := by
  induction k generalizing s x acc with
  | zero =>
      obtain rfl : x = 0 := by omega
      refine ⟨[], ?_, le_rfl⟩
      cases s <;> exact if_pos rfl
  | succ k ih =>
      obtain ⟨s, rfl⟩ := Nat.exists_eq_add_one_of_ne_zero (show s ≠ 0 by omega)
      rw [digits]
      by_cases hZero : x = 0
      · exact ⟨[], if_pos hZero, Nat.zero_le _⟩
      · have hLess : (x.tdiv b).natAbs < 10 ^ k := by
          rw [Int.natAbs_tdiv]
          refine Nat.div_lt_of_lt_mul (hx.trans_le ?_)
          rw [Nat.pow_succ, Nat.mul_comm]
          exact Nat.mul_le_mul_right _ (by omega)
        obtain ⟨cs, hOk, hLength⟩ := @ih s _ hLess (by omega)
          (digitChar letbase (x.tmod b) :: acc)
        refine ⟨cs ++ [digitChar letbase (x.tmod b)], ?_, by simpa using hLength⟩
        rw [if_neg hZero, hOk, List.append_assoc, List.singleton_append]

theorem natAbs_wrap32 (x : Int) : (wrap32 x).natAbs < 10 ^ 10 := by
  have hLow := @Int.le_bmod x (2 ^ 32) (by decide)
  have hHigh := @Int.bmod_lt x (2 ^ 32) (by decide)
  unfold wrap32
  omega

theorem printi_ok (hb : 10 ≤ b) (i : Int) (sg : Bool) (width : Int) (right zero : Bool) :
    ∃ o, printi i b sg width right zero letbase = .ok o ∧ o.2 = o.1.length := by
  obtain ⟨s, hs, hLength⟩ := @digits_ok b letbase hb 10 21 _
    (natAbs_wrap32 (if sg && b == 10 && decide (i < 0) then -i else i)) (by decide) []
  unfold printi
  by_cases hZero : i = 0
  · exact ⟨_, if_pos hZero, length_prints ..⟩
  · simp only [if_neg hZero, hs]
    split
    · split
      · exact ⟨_, rfl, by simp [length_prints, add_comm]⟩
      · exact ⟨_, if_pos (by simpa using (by omega : s.length < 21)), length_prints ..⟩
    · exact ⟨_, rfl, length_prints ..⟩

theorem printu_ok (hb : 10 ≤ b) {u : Int} (hu : u.natAbs < 10 ^ 10) (width : Int)
    (right zero : Bool) :
    ∃ o, printu u b width right zero letbase = .ok o ∧ o.2 = o.1.length := by
  obtain ⟨s, hs, -⟩ := @digits_ok b letbase hb 10 21 _ hu (by decide) []
  unfold printu
  by_cases hZero : u = 0
  · exact ⟨_, if_pos hZero, length_prints ..⟩
  · simp only [if_neg hZero, hs]
    exact ⟨_, rfl, length_prints ..⟩

end

theorem unsigned_ok (hello : Bool) (a : Arg) {b : Int} (hb : 10 ≤ b) (width : Int)
    (right zero : Bool) (letbase : Int) :
    ∃ o, unsigned hello a b width right zero letbase = .ok o ∧ o.2 = o.1.length := by
  unfold unsigned
  split
  · exact printi_ok hb ..
  · exact printu_ok hb (by omega) ..

theorem conversion_ok {hello : Bool} {c : UInt8} {a : Arg} {width : Int} {right zero : Bool}
    {r : Except Fault Out} (h : conversion hello c a width right zero = some r) :
    ∃ o, r = .ok o ∧ o.2 = o.1.length := by
  unfold conversion at h
  split_ifs at h <;> obtain rfl := Option.some.inj h
  · exact ⟨_, rfl, length_prints ..⟩
  · exact printi_ok (by decide) ..
  · exact unsigned_ok hello a (by decide) ..
  · exact unsigned_ok hello a (by decide) ..
  · exact unsigned_ok hello a (by decide) ..
  · exact ⟨_, rfl, length_prints ..⟩

theorem emit_ok_iff {o : Out} {r : Except Fault Out} :
    (∃ x, emit o r = .ok x) ↔ ∃ x, r = .ok x := by
  cases r <;> simp [emit]

theorem printLoop_ok_iff (hello : Bool) {fuel : Nat} {format : List UInt8} (args : Nat → Arg)
    (hFuel : format.length < fuel) :
    (∃ o, printLoop hello fuel format args = .ok o) ↔ closed format = true := by
  induction fuel generalizing format args with
  | zero => omega
  | succ fuel ih =>
      cases format with
      | nil => simp [printLoop, closed]
      | cons c cs =>
          rw [List.length_cons] at hFuel
          rw [printLoop, closed]
          by_cases hPlain : c = 37
          · rw [if_neg (not_not.mpr hPlain), if_neg (not_not.mpr hPlain)]
            by_cases hEnd : cs = []
            · simp [hEnd]
            · rw [if_neg hEnd, if_neg hEnd]
              by_cases hTwice : cs.head? = some 37
              · rw [if_pos hTwice, if_pos hTwice, emit_ok_iff]
                exact ih args (by rw [List.length_tail]; omega)
              · rw [if_neg hTwice, if_neg hTwice]
                have hLe := length_rest_le cs
                dsimp only
                cases hRest : (directive cs).rest with
                | nil => simp
                | cons k rest =>
                    rw [hRest, List.length_cons] at hLe
                    rw [if_neg (List.cons_ne_nil k rest), List.tail_cons]
                    have hNext (args : Nat → Arg) := @ih rest args (by omega)
                    dsimp only
                    split
                    · exact hNext args
                    · rename_i hError
                      obtain ⟨o, ho, -⟩ := conversion_ok hError
                      cases ho
                    · rw [emit_ok_iff]
                      exact hNext _
          · rw [if_pos hPlain, if_pos hPlain, emit_ok_iff]
            exact ih args (by omega)

/-- For all arguments `print` of `Timer` stays inside of its format and of its digit buffers and
ends exactly if no directive of the format ends before its conversion. -/
theorem print_inside_iff (format : List UInt8) (args : Nat → Arg) :
    (∃ o, print false format args = .ok o) ↔ closed format = true :=
  printLoop_ok_iff false args (Nat.lt_succ_self _)

/-- The width is the end of the format `%5`. -/
theorem print_beyond_format : print false (ascii "%5") (fun _ => ⟨0, none, by decide, by decide⟩) =
    .error .format := by
  decide +kernel

end Fire3.Printf

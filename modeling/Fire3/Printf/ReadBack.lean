import Fire3.Printf.Print

/-!
Numbers that `print` emits, read back from their texts.

Zeros on the right of a number change it, and a signed division makes characters below `0` of a
negative dividend: of the smallest `int`, and in `Hello1` of every unsigned number from 2^31 on.
-/

namespace Fire3.Printf
open CString

variable {s : Nat} {hello right : Bool} {x b width : Int} {c : UInt8} {o : Out}

inductive Conv where
  | d | u | x | X
deriving DecidableEq, Repr

def Conv.char : Conv → UInt8
  | .d => 100
  | .u => 117
  | .x => 120
  | .X => 88

def Conv.base : Conv → Nat
  | .d | .u => 10
  | .x | .X => 16

def Conv.letbase : Conv → Int
  | .X => 65
  | _ => 97

def Conv.value (k : Conv) (a : Arg) : Int := if k = .d then a.int else a.int % 2 ^ 32

def directiveText (right : Bool) (zeros width : Nat) (k : Conv) : List UInt8 :=
  37 :: ((if right then [45] else []) ++ (List.replicate zeros 48 ++ (decimal width ++ [k.char])))

def strip (s : CStr) : CStr := ((s.dropWhile (· == 32)).reverse.dropWhile (· == 32)).reverse

def readDigit (b n : Nat) (c : UInt8) : Option Nat :=
  if isXDigit c ∧ digitValue c < b then some (n * b + digitValue c) else none

def natOf (b : Nat) (s : CStr) : Option Nat := if s = [] then none else s.foldlM (readDigit b) 0

def readBack (k : Conv) (text : CStr) : Option Int :=
  if k = .d ∧ (strip text).head? = some 45 then (natOf 10 (strip text).tail).map fun n => -(n : Int)
  else (natOf k.base (strip text)).map Int.ofNat

def needed (k : Conv) (a : Arg) : Nat :=
  max 1 (Nat.digits k.base (k.value a).natAbs).length + if k.value a < 0 then 1 else 0

def ReadsBack (hello right : Bool) (zeros width : Nat) (k : Conv) (a : Arg) : Prop :=
  ∃ text : CStr, print hello (directiveText right zeros width k) (fun _ => a) =
      .ok (text, text.length) ∧
    readBack k text = some (k.value a) ∧ text.length = max width (needed k a)

/-- No zeros stand on the right of a number other than 0, and no negative number is divided. -/
def Readable (hello right : Bool) (zeros width : Nat) (k : Conv) (a : Arg) : Prop :=
  (right = true → 0 < zeros → needed k a < width → a.int = 0) ∧
    (k = .d → a.int ≠ -2 ^ 31) ∧ (hello = true → k ≠ .d → 0 ≤ a.int)

section

theorem wrap32_of_lt (hLow : -2 ^ 31 ≤ x) (hHigh : x < 2 ^ 31) : wrap32 x = x := by
  apply Int.bmod_eq_of_le_mul_two <;> omega

theorem wrap32_step (w x : Int) : wrap32 (wrap32 w * 10 + x) = wrap32 (w * 10 + x) := by
  unfold wrap32
  rw [← Int.bmod_add_bmod, Int.bmod_mul_bmod, Int.bmod_add_bmod]

theorem foldl_width {ds : List Nat} (hds : ∀ d ∈ ds, d < 10) (w : Nat) :
    (ds.map fun d => UInt8.ofNat (48 + d)).foldl (fun w c => wrap32 (w * 10 + (c.toNat - 48)))
      (wrap32 w) = wrap32 (ds.foldl (fun r d => r * 10 + d) w : Nat) := by
  induction ds generalizing w with
  | nil => rw [List.map_nil, List.foldl_nil, List.foldl_nil]
  | cons d ds ih =>
      rw [List.forall_mem_cons] at hds
      have hChar : (((UInt8.ofNat (48 + d)).toNat : Int) - 48) = d := by
        rw [UInt8.toNat_ofNat']
        omega
      have hStep := ih hds.2 (w * 10 + d)
      rw [Int.natCast_add, Int.natCast_mul] at hStep
      rw [List.map_cons, List.foldl_cons, hChar, wrap32_step, List.foldl_cons]
      exact hStep

theorem decimal_digits (n : Nat) : ∀ c ∈ decimal n, isDigit c = true := by
  intro c hc
  obtain ⟨d, hd, rfl⟩ := mem_decimal hc
  exact (isDigit_iff _).mp ⟨(digit_facts d hd).1, (digit_facts d hd).2.1.trans_lt hd⟩

theorem Conv.char_facts (k : Conv) :
    k.char ≠ 37 ∧ k.char ≠ 45 ∧ (k.char == 48) = false ∧ isDigit k.char = false := by
  cases k <;> decide

theorem head_width (width : Nat) (k : Conv) : ∃ c cs, decimal width ++ [k.char] = c :: cs ∧
    c ≠ 48 ∧ c ≠ 45 ∧ c ≠ 37 := by
  rcases Nat.eq_zero_or_pos width with rfl | hPos
  · have hChar := k.char_facts
    exact ⟨k.char, [], rfl, by simpa using hChar.2.2.1, hChar.2.1, hChar.1⟩
  · obtain ⟨c, cs, hHead, hc⟩ := head_decimal hPos.ne'
    have hDigit := decimal_digits width c (by rw [hHead]; exact List.mem_cons_self)
    refine ⟨c, cs ++ [k.char], by rw [hHead]; rfl, hc, ?_, ?_⟩ <;>
      · rintro rfl
        exact absurd hDigit (by decide)

theorem directive_eq (right : Bool) (zeros : Nat) {width : Nat} (hWidth : width < 2 ^ 31)
    (k : Conv) : directive (directiveText right zeros width k).tail =
      ⟨right, decide (0 < zeros), width, [k.char]⟩ := by
  obtain ⟨c, cs, hHead, hZero, hMinus, -⟩ := head_width width k
  have hChar := k.char_facts
  generalize hRest : List.replicate zeros 48 ++ (decimal width ++ [k.char]) = rest
  have hRight : (((if right then [45] else []) ++ rest).head? == some 45) = right := by
    cases right with
    | true => rfl
    | false =>
        rw [← hRest, hHead]
        cases zeros <;> simp [List.replicate_succ, hMinus]
  have hTail : (if right then ((if right then [45] else []) ++ rest).tail
      else (if right then [45] else []) ++ rest) = rest := by cases right <;> rfl
  have hZeros : (rest.head? == some 48) = decide (0 < zeros) := by
    rw [← hRest, hHead]
    cases zeros <;> simp [List.replicate_succ, hZero]
  have hDrop : rest.dropWhile (· == 48) = decimal width ++ [k.char] := by
    rw [← hRest, List.dropWhile_append_of_pos (by simp), hHead]
    exact List.dropWhile_cons_of_neg (by simpa using hZero)
  have hTake : (decimal width ++ [k.char]).takeWhile isDigit = decimal width := by
    rw [List.takeWhile_append_of_pos (decimal_digits width)]
    simp [hChar.2.2.2]
  have hLast : (decimal width ++ [k.char]).dropWhile isDigit = [k.char] := by
    rw [List.dropWhile_append_of_pos (decimal_digits width)]
    simp [hChar.2.2.2]
  have hWide : (decimal width).foldl (fun w c => wrap32 (w * 10 + (c.toNat - 48))) 0 = width := by
    have hFold := @foldl_width (Nat.digits 10 width).reverse
      (fun d hd => Nat.digits_lt_base (by decide) (List.mem_reverse.mp hd)) 0
    rw [foldl_digits, wrap32_of_lt (by omega) (by omega),
      wrap32_of_lt (by omega) (by omega)] at hFold
    exact hFold
  simp only [directive, directiveText, List.tail_cons, hRest, hRight, hTail, hZeros, hDrop, hTake,
    hLast, hWide]

def Conv.print (hello : Bool) (k : Conv) (a : Arg) (width : Int) (right zero : Bool) :
    Except Fault Out :=
  if k = .d then printi a.int 10 true width right zero 97
  else unsigned hello a k.base width right zero k.letbase

theorem conversion_char (hello : Bool) (k : Conv) (a : Arg) (width : Int) (right zero : Bool) :
    conversion hello k.char a width right zero = some (k.print hello a width right zero) := by
  cases k <;> rfl

theorem print_directive {hello right : Bool} {zeros width : Nat} (hWidth : width < 2 ^ 31)
    {k : Conv} {args : Nat → Arg} {o : Out}
    (h : k.print hello (args 0) width right (decide (0 < zeros)) = .ok o) :
    Printf.print hello (directiveText right zeros width k) args = .ok (o.1, wrap32 o.2) := by
  have hDirective := directive_eq right zeros hWidth k
  obtain ⟨c, cs, hHead, -, -, hPercent⟩ := head_width width k
  generalize hRest : (directiveText right zeros width k).tail = rest at hDirective
  have hText : directiveText right zeros width k = 37 :: rest := by rw [← hRest]; rfl
  have hFirst : rest ≠ [] ∧ rest.head? ≠ some 37 := by
    rw [← hRest, directiveText, List.tail_cons, hHead]
    cases right <;> cases zeros <;> simp [List.replicate_succ, hPercent]
  rw [Printf.print, hText, List.length_cons, printLoop, if_neg (not_not.mpr rfl),
    if_neg hFirst.1, if_neg hFirst.2]
  simp only [hDirective, conversion_char, h]
  rw [printLoop, emit, List.append_nil, add_zero]

end

section
variable {b : Nat} {k : Conv} {a : Arg}

def body (b : Nat) (letbase : Int) (n : Nat) : CStr :=
  if n = 0 then [48] else (Nat.digits b n).reverse.map fun d : Nat => digitChar letbase d

def numberText (right zero neg : Bool) (p : Nat) (body : CStr) : CStr :=
  let sign := if neg then [45] else []
  if zero then sign ++ (if right then body ++ List.replicate p 48 else List.replicate p 48 ++ body)
  else if right then sign ++ body ++ List.replicate p 32
  else List.replicate p 32 ++ (sign ++ body)

theorem Conv.base_bounds (k : Conv) : 10 ≤ k.base ∧ k.base ≤ 16 := by
  cases k <;> decide

theorem length_body (letbase : Int) (n : Nat) :
    (body b letbase n).length = max 1 (Nat.digits b n).length := by
  unfold body
  split
  · simp [*]
  · have hSome := List.length_pos_of_ne_nil ((@Nat.digits_ne_nil_iff_ne_zero b n).mpr ‹n ≠ 0›)
    rw [List.length_map, List.length_reverse]
    omega

theorem digits_nat (hb : 1 < b) (letbase : Int) {n : Nat} (hn : n < b ^ s) (acc : CStr) :
    digits b letbase s n acc =
      .ok (((Nat.digits b n).reverse.map fun d : Nat => digitChar letbase d) ++ acc) := by
  induction s generalizing n acc with
  | zero =>
      obtain rfl : n = 0 := by simpa using hn
      simp [digits]
  | succ s ih =>
      rcases Nat.eq_zero_or_pos n with rfl | hPos
      · simp [digits]
      · have hLess : n / b < b ^ s := by
          apply Nat.div_lt_of_lt_mul
          rwa [Nat.mul_comm, ← Nat.pow_succ]
        rw [digits, if_neg (by omega), ← Int.ofNat_tdiv, ← Int.ofNat_tmod, ih hLess,
          Nat.digits_def' hb hPos]
        simp

theorem digits_body (hb : 10 ≤ b) (letbase : Int) {n : Nat} (hn : n < 2 ^ 32) (hPos : n ≠ 0) :
    digits b letbase 21 n [] = .ok (body b letbase n) := by
  have hFits : n < b ^ 21 :=
    hn.trans_le ((show 2 ^ 32 ≤ 10 ^ 21 by decide).trans (Nat.pow_le_pow_left hb 21))
  rw [digits_nat (by omega) letbase hFits, List.append_nil, body, if_neg hPos]

theorem prints_eq (s : CStr) (width : Nat) (right zero : Bool) :
    prints s width right zero = (numberText right zero false (width - s.length) s,
      ((numberText right zero false (width - s.length) s).length : Int)) := by
  have hPad : ((width : Int) - s.length).toNat = width - s.length := by omega
  simp only [prints, numberText, hPad]
  cases right <;> cases zero <;> simp [add_comm]

theorem Conv.print_nonneg (hValue : 0 ≤ k.value a) (hHello : hello = true → k ≠ .d → 0 ≤ a.int)
    (width : Nat) (right zero : Bool) :
    k.print hello a width right zero =
      .ok (prints (body k.base k.letbase (k.value a).natAbs) width right zero) := by
  have hBase := k.base_bounds
  have hLow := a.low
  have hHigh := a.high
  have hLt : (k.value a).natAbs < 2 ^ 32 := by
    unfold Conv.value at hValue ⊢
    split at hValue <;> omega
  have hDigits := @digits_body k.base hBase.1 k.letbase (k.value a).natAbs hLt
  rw [Int.natAbs_of_nonneg hValue] at hDigits
  by_cases hZero : k.value a = 0
  · have hInt : a.int = 0 := by
      unfold Conv.value at hZero
      split at hZero <;> omega
    rw [hZero, Conv.print]
    split <;> simp [printi, unsigned, printu, hInt, body]
  · replace hDigits := hDigits (by omega)
    have hInt : a.int ≠ 0 := by
      rintro hInt
      simp [Conv.value, hInt] at hZero
    unfold Conv.print
    by_cases hd : k = .d
    · subst hd
      have hPos : 0 ≤ a.int := hValue
      rw [if_pos rfl, printi, if_neg hInt]
      simp only [Int.not_lt.mpr hPos, decide_false, Bool.and_false, Bool.false_eq_true, if_false,
        wrap32_of_lt hLow hHigh]
      change digits 10 97 21 a.int [] = _ at hDigits
      rw [hDigits]
    · rw [if_neg hd, unsigned]
      have hMod : k.value a = a.int % 2 ^ 32 := if_neg hd
      cases hello with
      | true =>
          have hPos := hHello rfl hd
          have hSame : k.value a = a.int := by omega
          rw [hSame] at hDigits
          rw [if_pos rfl, printi, if_neg hInt]
          simp only [Bool.false_and, Bool.false_eq_true, if_false, wrap32_of_lt hLow hHigh, hDigits,
            hSame]
      | false =>
          rw [if_neg Bool.noConfusion, printu, ← hMod, if_neg hZero, hDigits]

theorem Conv.print_neg (hello : Bool) (hNeg : a.int < 0) (hMin : a.int ≠ -2 ^ 31) {width : Nat}
    (hWidth : width < 2 ^ 31) (right zero : Bool) :
    ∃ text : CStr, Conv.d.print hello a width right zero = .ok (text, text.length) ∧
      text = numberText right zero true (width - ((body 10 97 a.int.natAbs).length + 1))
        (body 10 97 a.int.natAbs) := by
  have hLow := a.low
  have hDigits := @digits_body 10 le_rfl 97 a.int.natAbs (by omega) (by omega)
  rw [Int.ofNat_natAbs_of_nonpos hNeg.le] at hDigits
  have hLength : (body 10 97 a.int.natAbs).length < 21 := by
    have hDigit := (@Nat.digits_length_le_iff 10 10 (by decide) a.int.natAbs).mpr (by omega)
    rw [length_body]
    omega
  generalize body 10 97 a.int.natAbs = s at *
  rw [Conv.print, if_pos rfl, printi, if_neg hNeg.ne]
  simp only [hNeg, decide_true, Bool.true_and, beq_self_eq_true, if_true,
    wrap32_of_lt (show -2 ^ 31 ≤ -a.int by omega) (show -a.int < 2 ^ 31 by omega)]
  change digits 10 97 21 (-a.int) [] = _ at hDigits
  rw [hDigits]
  dsimp only
  by_cases hZero : (width : Int) ≠ 0 ∧ zero = true
  · obtain ⟨hSome, rfl⟩ := hZero
    have hLess : wrap32 ((width : Int) - 1) = (width - 1 : Nat) := by
      rw [wrap32_of_lt (by omega) (by omega)]
      omega
    rw [if_pos ⟨hSome, rfl⟩, hLess, prints_eq, Nat.add_comm, Nat.sub_add_eq]
    refine ⟨_, ?_, rfl⟩
    simp [numberText, add_comm]
  · rw [if_neg hZero, if_pos hLength, prints_eq, List.length_cons]
    refine ⟨_, rfl, ?_⟩
    cases zero with
    | false => simp [numberText]
    | true =>
        have hNone : width = 0 := by simpa using hZero
        simp [numberText, hNone]

theorem length_numberText (right zero neg : Bool) (p : Nat) (s : CStr) :
    (numberText right zero neg p s).length = p + s.length + if neg then 1 else 0 := by
  cases right <;> cases zero <;> cases neg <;> simp [numberText] <;> omega

end

section
variable {b : Nat} {k : Conv}

theorem digitChar_facts (k : Conv) : ∀ d < 16, digitChar k.letbase (d : Nat) ≠ 32 ∧
    digitChar k.letbase (d : Nat) ≠ 45 ∧ isXDigit (digitChar k.letbase (d : Nat)) ∧
    digitValue (digitChar k.letbase (d : Nat)) = d := by
  cases k <;> decide

theorem body_facts (k : Conv) (n : Nat) :
    body k.base k.letbase n ≠ [] ∧ ∀ c ∈ body k.base k.letbase n, c ≠ 32 ∧ c ≠ 45 := by
  constructor
  · rw [← List.length_pos_iff, length_body]
    omega
  · unfold body
    split
    · simp
    · intro c hc
      obtain ⟨d, hd, rfl⟩ := List.mem_map.mp hc
      have hBase := k.base_bounds
      have hLt : d < k.base := Nat.digits_lt_base (by omega) (List.mem_reverse.mp hd)
      have hFacts := digitChar_facts k d (by omega)
      exact ⟨hFacts.1, hFacts.2.1⟩

theorem readDigit_char (k : Conv) (r : Nat) {d : Nat} (hd : d < k.base) :
    readDigit k.base r (digitChar k.letbase d) = some (r * k.base + d) := by
  have hBase := k.base_bounds
  obtain ⟨-, -, hDigit, hValue⟩ := digitChar_facts k d (by omega)
  rw [readDigit, if_pos ⟨hDigit, hValue.trans_lt hd⟩, hValue]

theorem foldlM_digits (k : Conv) {ds : List Nat} (hds : ∀ d ∈ ds, d < k.base) (r : Nat) :
    (ds.map fun d => digitChar k.letbase (d : Nat)).foldlM (readDigit k.base) r =
      some (ds.foldl (fun r d => r * k.base + d) r) := by
  induction ds generalizing r with
  | nil => rfl
  | cons d ds ih =>
      rw [List.forall_mem_cons] at hds
      rw [List.map_cons, List.foldlM_cons, readDigit_char k r hds.1, List.foldl_cons]
      exact ih hds.2 _

theorem foldlM_zeros (k : Conv) (q r : Nat) :
    (List.replicate q 48).foldlM (readDigit k.base) r = some (r * k.base ^ q) := by
  induction q generalizing r with
  | zero => simp
  | succ q ih =>
      have hZero := readDigit_char k r (show 0 < k.base by cases k <;> decide)
      rw [List.replicate_succ, List.foldlM_cons, show (48 : UInt8) = digitChar k.letbase (0 : Nat)
        by cases k <;> decide, hZero]
      rw [show digitChar k.letbase (0 : Nat) = 48 by cases k <;> decide]
      refine (ih _).trans ?_
      rw [Nat.add_zero, Nat.mul_assoc, Nat.pow_succ']

/-- Zeros in front of the digits do not count, those behind them do. -/
theorem natOf_zeros (k : Conv) (p n q : Nat) :
    natOf k.base (List.replicate p 48 ++ (body k.base k.letbase n ++ List.replicate q 48)) =
      some (n * k.base ^ q) := by
  have hBody : (body k.base k.letbase n).foldlM (readDigit k.base) 0 = some n := by
    unfold body
    split
    · subst n
      simpa using foldlM_zeros k 1 0
    · have hBase := k.base_bounds
      have hFold := @foldlM_digits k (Nat.digits k.base n).reverse
        (fun d hd => Nat.digits_lt_base (by omega) (List.mem_reverse.mp hd)) 0
      rwa [foldl_digits] at hFold
  rw [natOf, if_neg (by simp [(body_facts k n).1]), List.foldlM_append, foldlM_zeros, Nat.zero_mul]
  change (body k.base k.letbase n ++ _).foldlM _ 0 = _
  rw [List.foldlM_append, hBody]
  exact foldlM_zeros k q n

theorem strip_blanks {s : CStr} (hSome : s ≠ []) (hs : ∀ c ∈ s, c ≠ 32) (p q : Nat) :
    strip (List.replicate p 32 ++ (s ++ List.replicate q 32)) = s := by
  have hDrop {t u : CStr} (hSome : t ≠ []) (ht : ∀ c ∈ t, c ≠ 32) (p : Nat) :
      (List.replicate p 32 ++ (t ++ u)).dropWhile (· == 32) = t ++ u := by
    rw [List.dropWhile_append_of_pos (by simp)]
    obtain ⟨c, cs, rfl⟩ := List.exists_cons_of_ne_nil hSome
    exact List.dropWhile_cons_of_neg (by simpa using ht c List.mem_cons_self)
  have hBack := @hDrop s.reverse [] (by simpa using hSome) (by simpa using hs) q
  rw [strip, hDrop hSome hs, List.reverse_append, List.reverse_replicate, ← List.append_nil s.reverse,
    hBack, List.append_nil, List.reverse_reverse]

def textValue (k : Conv) (right zero : Bool) (p n : Nat) : Nat :=
  if right = true ∧ zero = true then n * k.base ^ p else n

theorem readBack_numberText (right zero : Bool) {neg : Bool} (hNeg : neg = true → k = .d)
    (p n : Nat) : readBack k (numberText right zero neg p (body k.base k.letbase n)) =
      some (if neg then -(textValue k right zero p n : Int) else textValue k right zero p n) := by
  obtain ⟨hSome, hChars⟩ := body_facts k n
  have hRead : ∃ t l r, numberText right zero neg p (body k.base k.letbase n) =
        List.replicate l 32 ++ ((if neg then [45] else []) ++ t ++ List.replicate r 32) ∧
      t ≠ [] ∧ (∀ c ∈ t, c ≠ 32 ∧ c ≠ 45) ∧
        natOf k.base t = some (textValue k right zero p n) := by
    cases zero with
    | false =>
        have hNat : natOf k.base (body k.base k.letbase n) = some n := by
          simpa using natOf_zeros k 0 n 0
        refine ⟨body k.base k.letbase n, if right then 0 else p, if right then p else 0, ?_, hSome,
          hChars, by simpa [textValue] using hNat⟩
        cases right <;> simp [numberText]
    | true =>
        refine ⟨List.replicate (if right then 0 else p) 48 ++ (body k.base k.letbase n ++
          List.replicate (if right then p else 0) 48), 0, 0, ?_, by simp [hSome], ?_, ?_⟩
        · cases right <;> simp [numberText]
        · intro c hc
          simp only [List.mem_append, List.mem_replicate] at hc
          rcases hc with ⟨-, rfl⟩ | hc | ⟨-, rfl⟩
          · decide
          · exact hChars c hc
          · decide
        · rw [natOf_zeros]
          cases right <;> simp [textValue]
  obtain ⟨t, l, r, hText, ht, hChars, hNat⟩ := hRead
  have hStrip := @strip_blanks ((if neg then [45] else []) ++ t) (by simp [ht]) (by
    intro c hc
    rcases List.mem_append.mp hc with hc | hc
    · cases neg <;> simp_all
    · exact (hChars c hc).1) l r
  have hHead : t.head? ≠ some 45 := fun h => (hChars 45 (List.mem_of_head? h)).2 rfl
  rw [readBack, hText, hStrip]
  cases neg with
  | true =>
      obtain rfl := hNeg rfl
      change natOf 10 t = _ at hNat
      simp [hNat]
  | false =>
      simp [hHead, hNat]

theorem natOf_none {s : CStr} (hc : c ∈ s) (hDigit : isXDigit c = false) : natOf b s = none := by
  have hFold (r : Nat) : s.foldlM (readDigit b) r = none := by
    induction s generalizing r with
    | nil => simp at hc
    | cons d ds ih =>
        rw [List.foldlM_cons]
        rcases List.mem_cons.mp hc with rfl | hc
        · simp [readDigit, hDigit]
        · cases readDigit b r d with
          | none => rfl
          | some r' => exact ih hc r'
  rw [natOf, hFold]
  exact ite_self _

theorem mem_strip {s : CStr} (hc : c ∈ s) (hBlank : c ≠ 32) : c ∈ strip s := by
  have hDrop {t : CStr} (ht : c ∈ t) : c ∈ t.dropWhile (· == 32) := by
    rw [← List.takeWhile_append_dropWhile (p := (· == 32)) (l := t), List.mem_append] at ht
    exact ht.resolve_left fun h => hBlank (by simpa using List.mem_takeWhile_imp h)
  exact List.mem_reverse.mpr (hDrop (List.mem_reverse.mpr (hDrop hc)))

theorem readBack_none {text : CStr} (hc : c ∈ text) (hBlank : c ≠ 32) (hDigit : isXDigit c = false)
    (hSign : k = .d → c ≠ 45) : readBack k text = none := by
  have hMem := mem_strip hc hBlank
  unfold readBack
  split
  · next h =>
    cases hStrip : strip text with
    | nil => simp [hStrip] at hMem
    | cons d ds =>
        rw [hStrip, List.head?_cons, Option.some.injEq] at h
        rw [hStrip, List.mem_cons, h.2] at hMem
        rw [List.tail_cons, natOf_none (hMem.resolve_left (hSign h.1)) hDigit]
        rfl
  · rw [natOf_none hMem hDigit]
    rfl

end

section
variable {b letbase : Int}

theorem digits_acc {acc cs : CStr} (h : digits b letbase s x acc = .ok cs) : acc ⊆ cs := by
  induction s generalizing x acc with
  | zero =>
      unfold digits at h
      split at h <;> cases h
      exact List.Subset.refl _
  | succ s ih =>
      unfold digits at h
      split at h
      · cases h
        exact List.Subset.refl _
      · exact List.Subset.trans (List.subset_cons_self _ _) (ih h)

/-- The first digit of a negative dividend is a character below `0`. -/
theorem digits_neg (hb : 0 < b) (hLe : b ≤ 16) {acc cs : CStr}
    (h : digits b letbase s x acc = .ok cs) (hx : x < 0) : ∃ c ∈ cs, 32 < c ∧ c < 48 := by
  induction s generalizing x acc with
  | zero =>
      rw [digits, if_neg hx.ne] at h
      cases h
  | succ s ih =>
      rw [digits, if_neg hx.ne] at h
      have hNonneg := Int.tdiv_nonneg (show 0 ≤ -x by omega) hb.le
      rw [Int.neg_tdiv] at hNonneg
      rcases (show x.tdiv b < 0 ∨ x.tdiv b = 0 by omega) with hNeg | hZero
      · exact ih h hNeg
      · have hDigit : x.tmod b = x := by
          have hSum := Int.tmod_add_mul_tdiv x b
          rw [hZero] at hSum
          omega
        have hLow : -b < x := by
          have hLow := Int.tmod_lt_of_pos (-x) hb
          rw [Int.neg_tmod] at hLow
          omega
        refine ⟨_, digits_acc h List.mem_cons_self, ?_⟩
        rw [hDigit, digitChar, if_neg (by omega), UInt8.lt_iff_toNat_lt, UInt8.lt_iff_toNat_lt,
          UInt8.toNat_ofNat']
        change 32 < _ ∧ _ < 48
        omega

end

section

theorem wrap32_emit (ho : o.2 = o.1.length) {r : Except Fault Out}
    (hr : ∀ x, r = .ok x → x.2 = wrap32 x.1.length) {x : Out} (h : emit o r = .ok x) :
    x.2 = wrap32 x.1.length := by
  cases r with
  | error e => cases h
  | ok y =>
      cases h
      simp only [hr y rfl, ho, wrap32, Int.add_bmod_bmod, List.length_append, Int.natCast_add]

theorem printLoop_emitted {fuel : Nat} {format : List UInt8} {args : Nat → Arg}
    (h : printLoop hello fuel format args = .ok o) : o.2 = wrap32 o.1.length := by
  induction fuel generalizing format args o with
  | zero => cases h
  | succ fuel ih =>
      cases format with
      | nil =>
          cases h
          rfl
      | cons c cs =>
          rw [printLoop] at h
          split at h
          · exact wrap32_emit rfl (fun x hx => ih hx) h
          · split at h
            · cases h
              rfl
            · split at h
              · exact wrap32_emit rfl (fun x hx => ih hx) h
              · dsimp only at h
                split at h
                · cases h
                · split at h
                  · exact ih h
                  · cases h
                  · obtain ⟨_, ⟨⟩, hLength⟩ := conversion_ok ‹_›
                    exact wrap32_emit hLength (fun x hx => ih hx) h

end

section
variable {hello right : Bool} {zeros width : Nat} {k : Conv} {a : Arg}

theorem Conv.print_signed (hMin : k = .d → a.int ≠ -2 ^ 31)
    (hHello : hello = true → k ≠ .d → 0 ≤ a.int) (hWidth : width < 2 ^ 31) (zero : Bool) :
    ∃ text : CStr, k.print hello a width right zero = .ok (text, text.length) ∧
      text = numberText right zero (decide (k.value a < 0)) (width - needed k a)
        (body k.base k.letbase (k.value a).natAbs) := by
  rw [needed, ← length_body k.letbase]
  by_cases hNeg : k.value a < 0
  · obtain rfl : k = .d := by
      by_contra hd
      rw [Conv.value, if_neg hd] at hNeg
      omega
    rw [if_pos hNeg, decide_eq_true hNeg]
    exact Conv.print_neg hello hNeg (hMin rfl) hWidth right zero
  · rw [if_neg hNeg, decide_eq_false hNeg, Conv.print_nonneg (Int.not_lt.mp hNeg) hHello, prints_eq]
    exact ⟨_, rfl, rfl⟩

theorem mem_prints {s : CStr} (hc : c ∈ s) (width : Int) (right zero : Bool) :
    c ∈ (prints s width right zero).1 := by
  cases right <;> simp [prints, hc]

/-- The digits of the smallest `int` begin with a point. -/
theorem digits_min : digits 10 97 21 (wrap32 (2 ^ 31)) [] =
    .ok [46, 47, 44, 41, 44, 40, 45, 42, 44, 40] := by
  decide +kernel

theorem Conv.print_min (hMin : a.int = -2 ^ 31) (width : Int) (zero : Bool) :
    ∃ o, Conv.d.print hello a width right zero = .ok o ∧ readBack .d o.1 = none := by
  obtain ⟨o, ho, -⟩ := @printi_ok 10 97 (by decide) a.int true width right zero
  refine ⟨o, ho, readBack_none (c := 46) ?_ (by decide) (by decide) (by decide)⟩
  rw [printi, hMin, if_neg (by decide)] at ho
  simp only [beq_self_eq_true, show (-2 ^ 31 : Int) < 0 by decide, decide_true, Bool.and_self,
    if_true, neg_neg, digits_min] at ho
  split_ifs at ho <;> cases ho
  · exact List.mem_cons_of_mem _ (mem_prints (by decide) ..)
  · exact mem_prints (by decide) ..

theorem Conv.print_hello (hd : k ≠ .d) (hNeg : a.int < 0) (width : Int) (zero : Bool) :
    ∃ o, k.print true a width right zero = .ok o ∧ readBack k o.1 = none := by
  have hBase := k.base_bounds
  obtain ⟨s, hs, -⟩ := @digits_ok k.base k.letbase (by omega) 10 21 a.int
    (by have := a.low; omega) (by decide) []
  rw [List.append_nil] at hs
  obtain ⟨c, hc, hLow, hHigh⟩ := digits_neg (by omega) (by omega) hs hNeg
  have hDigit : isXDigit c = false := by
    grind [isXDigit, isDigit]
  refine ⟨prints s width right zero, ?_,
    readBack_none (mem_prints hc ..) (by rintro rfl; exact absurd hLow (by decide)) hDigit
      fun h => absurd h hd⟩
  rw [Conv.print, if_neg hd, unsigned, if_pos rfl, printi, if_neg hNeg.ne]
  simp only [Bool.false_and, Bool.false_eq_true, if_false, wrap32_of_lt a.low a.high, hs]

theorem needed_lt (k : Conv) (a : Arg) : needed k a < 2 ^ 31 := by
  have hBase := k.base_bounds
  have hLow := a.low
  have hHigh := a.high
  have hLt : (k.value a).natAbs < k.base ^ 10 := by
    refine lt_of_lt_of_le ?_ (Nat.pow_le_pow_left hBase.1 10)
    unfold Conv.value
    split <;> omega
  have hLength := (Nat.digits_length_le_iff (by omega) (k.value a).natAbs).mpr hLt
  unfold needed
  split <;> omega

theorem textValue_iff : textValue k right (decide (0 < zeros)) (width - needed k a)
    (k.value a).natAbs = (k.value a).natAbs ↔
      (right = true → 0 < zeros → needed k a < width → k.value a = 0) := by
  unfold textValue
  split
  · next h =>
    rw [decide_eq_true_eq] at h
    have hBase := k.base_bounds
    constructor
    · intro hSame _ _ hWide
      by_contra hSome
      have hOne := Nat.eq_of_mul_eq_mul_left (show 0 < (k.value a).natAbs by omega)
        (hSame.trans (Nat.mul_one _).symm)
      have hMore := Nat.one_lt_pow (show width - needed k a ≠ 0 by omega)
        (show 1 < k.base by omega)
      omega
    · intro hSame
      by_cases hWide : needed k a < width
      · rw [hSame h.1 h.2 hWide]
        exact Nat.zero_mul _
      · rw [Nat.sub_eq_zero_of_le (Nat.not_lt.mp hWide), Nat.pow_zero, Nat.mul_one]
  · next h =>
    simp_all

theorem readsBack_iff (hWidth : width < 2 ^ 31) :
    ReadsBack hello right zeros width k a ↔ Readable hello right zeros width k a := by
  unfold ReadsBack Readable
  by_cases hSigned : (k = .d → a.int ≠ -2 ^ 31) ∧ (hello = true → k ≠ .d → 0 ≤ a.int)
  · obtain ⟨text, hPrint, hText⟩ :=
      @Conv.print_signed hello right width k a hSigned.1 hSigned.2 hWidth (decide (0 < zeros))
    have hRead := @readBack_numberText k right (decide (0 < zeros)) (decide (k.value a < 0)) (by
      intro hNeg
      by_contra hd
      simp only [Conv.value, if_neg hd, decide_eq_true_eq] at hNeg
      omega) (width - needed k a) (k.value a).natAbs
    have hLength : text.length = max width (needed k a) := by
      rw [hText, length_numberText, length_body, needed]
      simp only [decide_eq_true_eq]
      omega
    have hNeeded := needed_lt k a
    have hFormat := @print_directive hello right zeros width hWidth k (fun _ => a) _ hPrint
    rw [wrap32_of_lt (by simp only; omega) (by simp only; omega)] at hFormat
    rw [← hText] at hRead
    have hUnique : (∃ text : CStr, print hello (directiveText right zeros width k) (fun _ => a) =
        .ok (text, text.length) ∧ readBack k text = some (k.value a) ∧
          text.length = max width (needed k a)) ↔ readBack k text = some (k.value a) := by
      constructor
      · rintro ⟨t, ht, hBack, -⟩
        obtain rfl : text = t := by
          have hSame := hFormat.symm.trans ht
          rw [Except.ok.injEq, Prod.mk.injEq] at hSame
          exact hSame.1
        exact hBack
      · intro hBack
        exact ⟨text, hFormat, hBack, hLength⟩
    rw [hUnique, hRead, and_iff_left hSigned]
    have hZero : k.value a = 0 ↔ a.int = 0 := by
      have hLow := a.low
      have hHigh := a.high
      unfold Conv.value
      split <;> omega
    rw [← hZero, ← textValue_iff]
    simp only [decide_eq_true_eq, Option.some.injEq]
    split <;> omega
  · constructor
    · rintro ⟨text, hFormat, hBack, -⟩
      exfalso
      have hDivided : ∃ o, k.print hello a width right (decide (0 < zeros)) = .ok o ∧
          readBack k o.1 = none := by
        by_cases hd : k = .d
        · subst hd
          exact Conv.print_min (by simpa using hSigned) width _
        · have hBoth : hello = true ∧ a.int < 0 := by simpa [hd] using hSigned
          obtain ⟨rfl, hNeg⟩ := hBoth
          exact Conv.print_hello hd hNeg width _
      obtain ⟨o, ho, hNone⟩ := hDivided
      have hSame := (@print_directive hello right zeros width hWidth k (fun _ => a) _ ho).symm.trans
        hFormat
      rw [Except.ok.injEq, Prod.mk.injEq] at hSame
      rw [← hSame.1, hNone] at hBack
      cases hBack
    · intro h
      exact absurd h.2 hSigned

end

/-- A number is read back from its text, which has the right length, exactly if no zeros stand on
its right and no negative number is divided; and the number of characters of a whole format is
returned exactly if it is an `int`. -/
theorem numbers_read_back_iff (hello right : Bool) (zeros : Nat) {width : Nat}
    (hWidth : width < 2 ^ 31) (k : Conv) (a : Arg) :
    (ReadsBack hello right zeros width k a ↔ Readable hello right zeros width k a) ∧
      ∀ format args o, print hello format args = .ok o →
        (o.2 = o.1.length ↔ o.1.length < 2 ^ 31) := by
  refine ⟨readsBack_iff hWidth, ?_⟩
  intro format args o h
  rw [printLoop_emitted h]
  constructor
  · intro hSame
    have hHigh := @Int.bmod_lt o.1.length (2 ^ 32) (by decide)
    unfold wrap32 at hSame
    omega
  · intro hLt
    exact wrap32_of_lt (by omega) (by omega)

theorem numbers_read_back_seven : 7 < 2 ^ 31 ∧
    ReadsBack false true 0 7 .d ⟨-42, none, by decide, by decide⟩ :=
  ⟨by decide, (numbers_read_back_iff false true 0 (by decide) .d _).1.mpr
    ⟨fun _ h => absurd h (by decide), fun _ => by decide, nofun⟩⟩

/-- The zeros of `%-05d` stand behind the number. -/
theorem zeros_behind : print false (ascii "%-05d") (fun _ => ⟨42, none, by decide, by decide⟩) =
      .ok (ascii "42000", 5) ∧ readBack .d (ascii "42000") = some 42000 := by
  decide +kernel

end Fire3.Printf

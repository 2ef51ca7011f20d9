import Mathlib.Data.List.TakeWhile
import Mathlib.Data.Nat.Digits.Lemmas

/-!
NUL-terminated strings as the C library reads them. A string value is its list
of characters without the terminator; a character array is cut at its first NUL
before a library function sees it.
-/

namespace CString

abbrev CStr := List UInt8

def ascii (s : String) : CStr := s.toList.map fun c => UInt8.ofNat c.toNat

def ofArray (cs : List UInt8) : CStr := cs.takeWhile (· ≠ 0)

theorem zero_notMem_ofArray (cs : List UInt8) : 0 ∉ ofArray cs := by
  intro hMem
  simpa using List.mem_takeWhile_imp hMem

theorem ofArray_terminated {s : CStr} (h : 0 ∉ s) (rest : List UInt8) :
    ofArray (s ++ 0 :: rest) = s := by
  have hPlain : ∀ c ∈ s, decide (c ≠ 0) = true := by
    grind
  rw [ofArray, List.takeWhile_append_of_pos hPlain]
  simp

/-- `strncmp(a, b, n) == 0`. -/
def strncmpEq (a b : CStr) (n : Nat) : Bool := a.take n == b.take n

/-- The suffix at the first occurrence of `pat`, as `strstr` returns it. -/
def strstr (s pat : CStr) : Option CStr := s.tails.find? fun t => pat.isPrefixOf t

/-- The suffix at the first occurrence of the non-NUL character `c`. -/
def strchr : CStr → UInt8 → Option CStr
  | [], _ => none
  | x :: xs, c => if x = c then some (x :: xs) else strchr xs c

def isDigit (c : UInt8) : Bool := 48 ≤ c && c ≤ 57

def isXDigit (c : UInt8) : Bool := isDigit c || (65 ≤ c && c ≤ 70) || (97 ≤ c && c ≤ 102)

def digitValue (c : UInt8) : Nat :=
  if isDigit c then c.toNat - 48
  else if 97 ≤ c then c.toNat - 97 + 10
  else c.toNat - 65 + 10

def hexDigit (n : Nat) : UInt8 := UInt8.ofNat (if n < 10 then 48 + n else 87 + n)

def hexValue (digits : CStr) : Nat := digits.foldl (fun v c => v * 16 + digitValue c) 0

def isBlank (c : UInt8) : Bool := c = 32 || c = 9 || c = 10

def withoutBlanks (s : CStr) : CStr := s.filter (!isBlank ·)

/-- The text behind the first occurrence of `pat`. -/
def behindFirst (pat s : CStr) : Option CStr := (strstr s pat).map (·.drop pat.length)

theorem isXDigit_iff (c : UInt8) : isXDigit c = true ↔
    (48 ≤ c.toNat ∧ c.toNat ≤ 57) ∨ (65 ≤ c.toNat ∧ c.toNat ≤ 70) ∨
      (97 ≤ c.toNat ∧ c.toNat ≤ 102) := by
  simp [isXDigit, isDigit, UInt8.le_iff_toNat_le, or_assoc]

theorem digitValue_lt {c : UInt8} (h : isXDigit c = true) : digitValue c < 16 := by
  rw [isXDigit_iff] at h
  simp only [digitValue, isDigit, UInt8.le_iff_toNat_le, Bool.and_eq_true, decide_eq_true_eq,
    UInt8.reduceToNat]
  split <;> try split
  all_goals omega

theorem hexValue_lt {ds : CStr} (h : ∀ c ∈ ds, isXDigit c = true) : hexValue ds < 16 ^ ds.length := by
  unfold hexValue
  induction ds using List.reverseRecOn with
  | nil => decide
  | append_singleton ds c ih =>
      have hc := digitValue_lt (h c (by simp))
      have hInit := ih fun d hd => h d (by simp [hd])
      rw [List.foldl_append, List.length_append, Nat.pow_add]
      simp only [List.foldl_cons, List.foldl_nil, List.length_singleton]
      omega

theorem isDigit_iff (c : UInt8) : isXDigit c = true ∧ digitValue c < 10 ↔ isDigit c = true := by
  constructor
  · rintro ⟨hHex, hLt⟩
    by_contra hOther
    rw [isXDigit_iff] at hHex
    simp only [digitValue, hOther, Bool.false_eq_true, if_false, UInt8.le_iff_toNat_le,
      UInt8.reduceToNat] at hLt
    simp only [isDigit, UInt8.le_iff_toNat_le, Bool.and_eq_true, decide_eq_true_eq,
      UInt8.reduceToNat] at hOther
    split at hLt <;> omega
  · intro hDigit
    have hRange : 48 ≤ c.toNat ∧ c.toNat ≤ 57 := by
      simpa [isDigit, UInt8.le_iff_toNat_le] using hDigit
    refine ⟨by simp [isXDigit, hDigit], ?_⟩
    simp only [digitValue, hDigit, if_true]
    omega

/-- The digit loop of `simple_strtoul`; the result wraps at 64 bits. -/
def strtoulDigits (base : Nat) : CStr → Nat → Nat
  | [], result => result
  | c :: cs, result =>
      if isXDigit c ∧ digitValue c < base then
        strtoulDigits base cs ((result * base + digitValue c) % 2 ^ 64)
      else result

/-- `simple_strtoul(cp, NULL, base)`: a leading `0x` forces base 16, and a
leading zero selects octal when no base is given. -/
def simpleStrtoul (cp : CStr) (base : Nat) : Nat :=
  match cp with
  | 48 :: 120 :: c :: cs =>
      if isXDigit c then strtoulDigits 16 (c :: cs) 0
      else strtoulDigits (if base = 0 then 8 else base) (120 :: c :: cs) 0
  | 48 :: cs => strtoulDigits (if base = 0 then 8 else base) cs 0
  | cs => strtoulDigits (if base = 0 then 10 else base) cs 0

example : simpleStrtoul (ascii "0x1f;") 10 = 31 := by decide
example : simpleStrtoul (ascii "12:") 10 = 12 := by decide

/-!
Decimal numerals, and `simple_strtoul` on them.
-/

def decimal (n : Nat) : CStr := (Nat.digits 10 n).reverse.map fun d => UInt8.ofNat (48 + d)

theorem mem_decimal {n : Nat} {c : UInt8} (hc : c ∈ decimal n) :
    ∃ d < 10, c = UInt8.ofNat (48 + d) := by
  obtain ⟨d, hd, rfl⟩ := List.mem_map.mp hc
  exact ⟨d, Nat.digits_lt_base (by decide) (List.mem_reverse.mp hd), rfl⟩

theorem digit_facts : ∀ d < 10, isXDigit (UInt8.ofNat (48 + d)) = true ∧
    digitValue (UInt8.ofNat (48 + d)) = d ∧ (UInt8.ofNat (48 + d) = 48 ↔ d = 0) ∧
    UInt8.ofNat (48 + d) ≠ 98 := by
  decide

theorem strtoulDigits_digits {ds : List Nat} (hds : ∀ d ∈ ds, d < 10) (rest : CStr) {result : Nat}
    (hFits : ds.foldl (fun r d => r * 10 + d) result < 2 ^ 64) :
    strtoulDigits 10 ((ds.map fun d => UInt8.ofNat (48 + d)) ++ 0 :: rest) result =
      ds.foldl (fun r d => r * 10 + d) result := by
  induction ds generalizing result with
  | nil =>
      have hNul : isXDigit 0 = false := by decide
      simp [strtoulDigits, hNul]
  | cons d ds ih =>
      rw [List.forall_mem_cons] at hds
      obtain ⟨hDigit, hValue, -⟩ := digit_facts d hds.1
      -- the loop only grows the value, so nothing wraps before the end
      have hGrow : ∀ (ds : List Nat) (r : Nat), r ≤ ds.foldl (fun r d => r * 10 + d) r := by
        intro ds
        induction ds with
        | nil => exact fun r => le_rfl
        | cons d ds ih' => exact fun r => le_trans (by omega) (ih' (r * 10 + d))
      have hStep : (result * 10 + d) % 2 ^ 64 = result * 10 + d :=
        Nat.mod_eq_of_lt ((hGrow ds _).trans_lt hFits)
      rw [List.map_cons, List.cons_append, strtoulDigits, if_pos ⟨hDigit, hValue.trans_lt hds.1⟩, hValue,
        hStep]
      exact ih hds.2 hFits

theorem foldl_digits (b n : Nat) :
    (Nat.digits b n).reverse.foldl (fun r d => r * b + d) 0 = n := by
  rw [List.foldl_reverse]
  calc (Nat.digits b n).foldr (fun d r => r * b + d) 0 = Nat.ofDigits b (Nat.digits b n) := by
        rw [Nat.ofDigits_eq_foldr]
        simp [Nat.add_comm, Nat.mul_comm]
    _ = n := Nat.ofDigits_digits b n

theorem head_decimal {n : Nat} (hn : n ≠ 0) : ∃ c cs, decimal n = c :: cs ∧ c ≠ 48 := by
  have hSome : Nat.digits 10 n ≠ [] := Nat.digits_ne_nil_iff_ne_zero.mpr hn
  have hLast := Nat.getLast_digit_ne_zero 10 hn
  have hReverse : (Nat.digits 10 n).reverse =
      (Nat.digits 10 n).getLast hSome :: (Nat.digits 10 n).dropLast.reverse := by
    conv_lhs => rw [← List.dropLast_append_getLast hSome]
    simp
  refine ⟨_, _, by rw [decimal, hReverse, List.map_cons], ?_⟩
  have hLt := Nat.digits_lt_base (b := 10) (by decide) (List.getLast_mem hSome)
  rw [ne_eq, (digit_facts _ hLt).2.2.1]
  exact hLast

theorem simpleStrtoul_decimal {n : Nat} (hPos : n ≠ 0) (hFits : n < 2 ^ 64) (rest : CStr) :
    simpleStrtoul (decimal n ++ 0 :: rest) 10 = n := by
  obtain ⟨c, cs, hHead, hc⟩ := head_decimal hPos
  have hBase : simpleStrtoul (decimal n ++ 0 :: rest) 10 =
      strtoulDigits 10 (decimal n ++ 0 :: rest) 0 := by
    rw [hHead, List.cons_append, simpleStrtoul]
    · rfl
    · intro d ds hEq
      exact absurd (List.cons.inj hEq).1 hc
    · intro ds hEq
      exact absurd (List.cons.inj hEq).1 hc
  rw [hBase, decimal, strtoulDigits_digits, foldl_digits]
  · intro d hd
    exact Nat.digits_lt_base (by decide) (List.mem_reverse.mp hd)
  · rwa [foldl_digits]

theorem length_decimal_le {n k : Nat} (h : n < 10 ^ k) : (decimal n).length ≤ k := by
  rw [decimal, List.length_map, List.length_reverse]
  exact (Nat.digits_length_le_iff (by decide) n).mpr h

end CString

import Fire3.ArmWrap.SymbolTable
import Mathlib.Data.Bool.AllAny

/-!
From the lines of a symbol file to what a reader of the wrapped file finds.
-/

namespace Fire3.ArmWrap
open ByteMemory CString Records

/-- A line of a symbol file: eight hexadecimal digits, a space and a name. -/
structure Line where
  digits : List UInt8
  name : CStr
  eight : digits.length = 8
  hex : ∀ c ∈ digits, isXDigit c = true
  nonempty : name ≠ []
  plain : ∀ c ∈ name, c ≠ 0 ∧ c ≠ 10

def Line.bytes (l : Line) : List UInt8 := l.digits ++ 32 :: (l.name ++ [10])

def Line.named (l : Line) : Named := (l.name, hexValue l.digits)

def symbolFile (ls : List Line) : List UInt8 := ls.flatMap Line.bytes

/-- A reader of the file `arm_wrap` writes for the symbol file of `ls` finds its symbols. -/
def Survives (o : Options) (gIndex : UInt32) (line rom : List UInt8) (ls : List Line) : Prop :=
  ∃ out, main o gIndex line rom (some (symbolFile ls)) = some out ∧
    readSymbols out.mem = ls.map fun l => (hexValue l.digits, some l.name)

theorem plain_of_isXDigit {c : UInt8} (h : isXDigit c = true) :
    isSpace c = false ∧ c ≠ 0 ∧ c ≠ 10 ∧ c ≠ 45 ∧ c ≠ 43 ∧ c ≠ 120 ∧ c ≠ 88 := by
  rw [isXDigit_iff] at h
  simp only [isSpace, ← UInt8.toNat_inj, UInt8.le_iff_toNat_le, Bool.or_eq_false_iff,
    Bool.and_eq_false_iff, decide_eq_false_iff_not, ne_eq, UInt8.reduceToNat]
  omega

theorem strtoulDigits_eq {k : Nat} {ds : List UInt8} {r : Nat} (hr : r < 16 ^ k)
    (hk : k + ds.length ≤ 16) (hex : ∀ c ∈ ds, isXDigit c = true) :
    strtoulDigits 16 ds r = ds.foldl (fun v c => v * 16 + digitValue c) r := by
  induction ds generalizing k r with
  | nil => rfl
  | cons c ds ih =>
      rw [List.forall_mem_cons] at hex
      have hDigit := digitValue_lt hex.1
      have hNext : r * 16 + digitValue c < 16 ^ (k + 1) := by
        rw [pow_succ]
        omega
      have hBound : 16 ^ (k + 1) ≤ 2 ^ 64 := by
        rw [List.length_cons] at hk
        calc 16 ^ (k + 1) ≤ 16 ^ 16 := Nat.pow_le_pow_right (by decide) (by omega)
          _ = 2 ^ 64 := by norm_num
      rw [strtoulDigits, if_pos ⟨hex.1, hDigit⟩, Nat.mod_eq_of_lt (Nat.lt_of_lt_of_le hNext hBound),
        List.foldl_cons]
      grind

theorem strtolHex_digits {ds : List UInt8} (hLength : ds.length ≤ 16)
    (hex : ∀ c ∈ ds, isXDigit c = true) : strtolHex ds = hexValue ds := by
  have hDigits : strtoulDigits 16 ds 0 = hexValue ds :=
    @strtoulDigits_eq 0 ds 0 (by decide) (by omega) hex
  cases ds with
  | nil => rfl
  | cons c cs =>
      obtain ⟨hSpace, -, -, hMinus, hPlus, -⟩ := plain_of_isXDigit (hex c List.mem_cons_self)
      have hDrop : (c :: cs).dropWhile isSpace = c :: cs :=
        List.dropWhile_cons_of_neg (by simp [hSpace])
      simp only [strtolHex, hDrop, List.head?_cons, Option.some.injEq, hMinus, hPlus, or_self,
        if_false]
      split
      · rename_i x c' cs' hShape
        have hx := plain_of_isXDigit (hex x (by simp [hShape]))
        grind
      · rw [hDigits]

theorem lineChars_eq {n : Nat} {cs rest : List UInt8} (hLength : cs.length < n) (hPlain : 10 ∉ cs) :
    lineChars n (cs ++ 10 :: rest) = cs ++ [10] := by
  induction cs generalizing n with
  | nil =>
      cases n with
      | zero => simp at hLength
      | succ n => simp [lineChars]
  | cons c cs ih =>
      cases n with
      | zero => simp at hLength
      | succ n =>
          rw [List.mem_cons, not_or] at hPlain
          rw [List.cons_append, lineChars, if_neg (Ne.symm hPlain.1),
            ih (by simpa using hLength) hPlain.2, List.cons_append]

theorem Line.notMem {l : Line} {c : UInt8} (h : c = 0 ∨ c = 10) :
    c ∉ l.digits ++ 32 :: l.name := by
  rw [List.mem_append, List.mem_cons, not_or, not_or]
  refine ⟨fun hMem => ?_, ?_, fun hMem => ?_⟩
  · obtain ⟨-, hZero, hTen, -⟩ := plain_of_isXDigit (l.hex c hMem)
    exact h.elim hZero hTen
  · rcases h with rfl | rfl <;> decide
  · exact h.elim (l.plain c hMem).1 (l.plain c hMem).2

theorem Line.bytes_eq (l : Line) : l.bytes = l.digits ++ 32 :: l.name ++ [10] := by
  simp [bytes]

theorem Line.length_bytes (l : Line) : l.bytes.length = l.name.length + 10 := by
  simp [bytes, l.eight]
  omega

theorem fgets_line {l : Line} (hShort : l.name.length ≤ 245) (rest : List UInt8) :
    fgets (l.bytes ++ rest) = some (l.bytes, rest) := by
  have hChars : lineChars (maxline - 1) (l.bytes ++ rest) = l.bytes := by
    rw [l.bytes_eq, List.append_assoc, List.singleton_append]
    refine lineChars_eq ?_ (Line.notMem (Or.inr rfl))
    simp [l.eight, maxline]
    omega
  have hNonempty : l.bytes ++ rest ≠ [] := by simp [Line.bytes]
  rw [fgets, if_neg hNonempty]
  simp only [hChars, List.drop_left]

theorem Line.named_plain (l : Line) : 0 ∉ l.named.1 ∧ l.named.2 < 2 ^ 32 := by
  refine ⟨fun hMem => (l.plain 0 hMem).1 rfl, ?_⟩
  have hBound := hexValue_lt l.hex
  rw [l.eight] at hBound
  exact Nat.lt_of_lt_of_eq hBound (by norm_num)

theorem parseLine_line (l : Line) (line : List UInt8) :
    ∃ line', parseLine line l.bytes = some ⟨line', l.name, hexValue l.digits⟩ := by
  generalize hTail : line.drop (l.bytes.length + 1) = tail
  have hText : 0 ∉ l.digits ++ 32 :: l.name := Line.notMem (Or.inl rfl)
  have hBytes : ofArray (l.bytes ++ 0 :: tail) = l.bytes := by
    refine ofArray_terminated ?_ tail
    rw [l.bytes_eq, List.mem_append, not_or]
    exact ⟨hText, by decide⟩
  have hLength : l.bytes.length - 1 = (l.digits ++ 32 :: l.name).length := by
    rw [l.bytes_eq, List.length_append]
    rfl
  have hSet : (l.bytes ++ 0 :: tail).set (l.digits ++ 32 :: l.name).length 0 =
      l.digits ++ 32 :: l.name ++ 0 :: 0 :: tail := by
    rw [l.bytes_eq, List.append_assoc, List.set_append_right _ _ (Nat.le_refl _), Nat.sub_self]
    rfl
  have hTake : (l.digits ++ 32 :: l.name).take 8 = l.digits := List.take_left' l.eight
  have hDrop : (l.digits ++ 32 :: l.name ++ 0 :: 0 :: tail).drop 9 = l.name ++ 0 :: 0 :: tail := by
    have hNine : (l.digits ++ [32]).length = 9 := by simp [l.eight]
    rw [show l.digits ++ 32 :: l.name ++ 0 :: 0 :: tail =
      l.digits ++ [32] ++ (l.name ++ 0 :: 0 :: tail) by simp]
    exact List.drop_left' hNine
  obtain ⟨hName, hAddr⟩ : 0 ∉ l.name ∧ hexValue l.digits < 2 ^ 32 := l.named_plain
  have hNonempty : l.bytes.length ≠ 0 := by
    rw [l.length_bytes]
    omega
  refine ⟨l.digits ++ 32 :: l.name ++ 0 :: 0 :: tail, ?_⟩
  simp only [parseLine, hTail, hBytes, if_neg hNonempty, hLength, hSet, ofArray_terminated hText,
    hTake, hDrop, ofArray_terminated hName]
  rw [if_pos (by simp), strtolHex_digits (by rw [l.eight]; decide) l.hex]
  congr 2
  omega

theorem loadLines_lines {ls : List Line} (hShort : ∀ l ∈ ls, l.name.length ≤ 245) {fuel : Nat}
    {line : List UInt8} {syms : Symtab} {ps : List Named} (hFuel : ls.length ≤ fuel)
    (hHolds : Holds syms ps) (hCount : ps.length + ls.length < maxSym)
    (hSize : (stringsOf (ps ++ ls.map Line.named)).length ≤ pgsize) :
    ∃ syms', loadLines fuel line (symbolFile ls) syms = some syms' ∧
      Holds syms' (ps ++ ls.map Line.named) := by
  induction ls generalizing fuel line syms ps with
  | nil =>
      refine ⟨syms, ?_, by simpa using hHolds⟩
      cases fuel <;> rfl
  | cons l ls ih =>
      rw [List.forall_mem_cons] at hShort
      rw [List.map_cons, List.append_cons] at hSize ⊢
      rw [List.length_cons] at hFuel hCount
      obtain ⟨fuel, rfl⟩ := Nat.exists_eq_add_one_of_ne_zero (show fuel ≠ 0 by omega)
      obtain ⟨line', hParse⟩ := parseLine_line l line
      have hFirst : (stringsOf (ps ++ [l.named])).length ≤ pgsize := by
        grind [stringsOf_append, List.length_append]
      obtain ⟨next, hAdd⟩ := addSymbol_isSome hHolds (by omega) hFirst
      obtain ⟨syms', hLoop, hResult⟩ := @ih hShort.2 fuel line' next (ps ++ [l.named]) (by omega)
        (addSymbol_holds hAdd hHolds) (by rw [List.length_append, List.length_singleton]; omega) hSize
      refine ⟨syms', ?_, hResult⟩
      simp only [symbolFile, List.flatMap_cons, loadLines, fgets_line hShort.1, hParse,
        Option.bind_eq_bind, Option.bind_some]
      rw [← symbolFile, hAdd]
      exact hLoop

theorem length_le_symbolFile (ls : List Line) : ls.length ≤ (symbolFile ls).length := by
  induction ls with
  | nil => rfl
  | cons l ls ih =>
      grind [l.length_bytes, symbolFile, List.length_append, List.length_cons]

theorem length_stringsOf_named (ls : List Line) :
    (stringsOf (ls.map Line.named)).length = (ls.map fun l => l.name.length + 1).sum := by
  induction ls with
  | nil => rfl
  | cons l ls ih =>
      simp only [List.map_cons, stringsOf_cons, List.length_append, List.length_cons, ih,
        List.sum_cons, Line.named]
      omega

/-- Of a symbol file that fits the tables and has no overlong line, a reader finds every
symbol in order, the first one without its name. -/
theorem symbols_recovered (o : Options) (gIndex : UInt32) (line rom : List UInt8) {ls : List Line}
    (hShort : ∀ l ∈ ls, l.name.length ≤ 245) (hCount : ls.length ≤ 399)
    (hSize : (ls.map fun l => l.name.length + 1).sum ≤ 8192) :
    ∃ out, main o gIndex line rom (some (symbolFile ls)) = some out ∧
      readSymbols out.mem = recovered (ls.map Line.named) := by
  obtain ⟨seg, hSeg, hBuilt⟩ := segStrings_eq true
  obtain ⟨syms, hLoop, hHolds⟩ := @loadLines_lines ls hShort (symbolFile ls).length line
    initSymbol [] (length_le_symbolFile ls) holds_initSymbol (by simp [maxSym]; omega)
    (by rw [List.nil_append, length_stringsOf_named]; exact hSize)
  refine ⟨wrap o gIndex rom seg (some (finishSymbol syms)), ?_, ?_⟩
  · simp [main, loadSyms, hLoop, hSeg]
  · refine readSymbols_holds o gIndex rom hBuilt hHolds ?_
    rw [List.forall_mem_map]
    exact fun l _ => l.named_plain

/-- The symbols of a file survive wrapping exactly when there are none: the first name is
stored at offset 0 of the string table, where a reader sees no name. -/
theorem arm_wrap_symbols_survive_iff (o : Options) (gIndex : UInt32) (line rom : List UInt8)
    (ls : List Line) : Survives o gIndex line rom ls ↔ ls = [] := by
  constructor
  · rintro ⟨out, hMain, hRead⟩
    cases ls with
    | nil => rfl
    | cons l ls =>
        obtain ⟨ps, hFound, hNonempty⟩ := readSymbols_main hMain
        have hPs := hNonempty (by simp [symbolFile, Line.bytes])
        rw [hFound] at hRead
        cases ps with
        | nil => exact absurd rfl hPs
        | cons p ps => simp [recovered] at hRead
  · rintro rfl
    exact symbols_recovered o gIndex line rom (by simp) (by simp) (by simp)

def mainLine : Line where
  digits := ascii "00000100"
  name := ascii "main"
  eight := by decide
  hex := List.all_iff_forall_prop.mp (by decide)
  nonempty := by decide
  plain := List.all_iff_forall_prop.mp (by decide)

/-- One symbol, and its name is lost. -/
theorem arm_wrap_loses_first_name :
    (∃ out, main ⟨0, 0⟩ 0 [] [] (some (symbolFile [mainLine])) = some out ∧
      readSymbols out.mem = [(0x100, none)]) ∧ ¬Survives ⟨0, 0⟩ 0 [] [] [mainLine] := by
  obtain ⟨out, hMain, hRead⟩ := @symbols_recovered ⟨0, 0⟩ 0 [] [] [mainLine] (by decide)
    (by decide) (by decide)
  have hValue : recovered ([mainLine].map Line.named) = [(0x100, none)] := by decide
  refine ⟨⟨out, hMain, hRead.trans hValue⟩, ?_⟩
  rintro ⟨out', hMain', hRead'⟩
  grind

end Fire3.ArmWrap

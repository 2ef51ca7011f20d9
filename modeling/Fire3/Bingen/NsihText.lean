import Fire3.Bingen.Builder
import Mathlib.Algebra.Order.BigOperators.Group.List

/-!
`process_nsih` against the text: what it emits line by line.

The count of digits is kept in a signed word that is not checked, and the output has
no bound, so the bytes agree with the lines for the texts whose lines are not absurdly
long, and fit the header for those that give at most 512 bytes.
-/

namespace Fire3.Bingen
open ByteMemory CString

def digitsOf (line : List UInt8) : List UInt8 := line.takeWhile isXDigit

def lineBytes (line : List UInt8) : List UInt8 :=
  let n := (digitsOf line).length
  if n = 2 ∨ n = 4 ∨ n = 8 then leBytes (n / 2) (hexValue (digitsOf line)) else []

def textBytes (text : List UInt8) : List UInt8 := (text.splitOn 10).flatMap lineBytes

def emitted (line : List UInt8) : List UInt8 :=
  let n := 4 * (digitsOf line).length % 2 ^ 32
  leBytes (if n = 8 ∨ n = 16 ∨ n = 32 then n / 8 else 0) (hexValue (digitsOf line) % 2 ^ 32)

def onLine (out cur : List UInt8) : NsihState := cur.foldl nsihStep ⟨0, 0, false, out⟩

theorem onLine_digits (out : List UInt8) {ds : List UInt8} (h : ∀ c ∈ ds, isXDigit c = true) :
    onLine out ds = ⟨hexValue ds % 2 ^ 32, 4 * ds.length % 2 ^ 32, false, out⟩ := by
  induction ds using List.reverseRecOn with
  | nil => rfl
  | append_singleton ds c ih =>
      have hc : isXDigit c = true := h c (by simp)
      have hLine : c ≠ 10 := by
        rintro rfl
        exact absurd hc (by decide)
      rw [onLine, List.foldl_append, ← onLine, ih fun d hd => h d (by simp [hd])]
      simp [nsihStep, hc, hLine, hexValue]
      omega

theorem digitsOf_snoc {cur : List UInt8} {c : UInt8}
    (h : digitsOf (cur ++ [c]) ≠ cur ++ [c]) : digitsOf (cur ++ [c]) = digitsOf cur := by
  simp only [digitsOf, List.takeWhile_append] at h ⊢
  split at h
  · rename_i hAll
    have hCur := (List.takeWhile_prefix (p := isXDigit) (l := cur)).eq_of_length hAll
    grind [List.takeWhile_cons, List.takeWhile_nil]
  · rw [if_neg ‹_›]

/-- Behind the first character that is no digit the value of the line is out. -/
theorem onLine_skips (out : List UInt8) {cur : List UInt8} (hCur : 10 ∉ cur)
    (hDigits : digitsOf cur ≠ cur) :
    ∃ v, onLine out cur = ⟨v, 0, true, out ++ emitted cur⟩ := by
  induction cur using List.reverseRecOn with
  | nil => exact absurd rfl hDigits
  | append_singleton cur c ih =>
      have hSame := digitsOf_snoc hDigits
      rw [onLine, List.foldl_append, ← onLine, emitted, hSame]
      by_cases hAll : digitsOf cur = cur
      · have hc : isXDigit c = false := by
          by_contra hDigit
          refine hDigits (List.takeWhile_eq_self_iff.mpr fun d hd => ?_)
          grind [List.takeWhile_eq_self_iff, digitsOf]
        rw [onLine_digits out (List.takeWhile_eq_self_iff.mp hAll)]
        simp [nsihStep, hc, show c ≠ 10 by grind, hAll]
      · obtain ⟨v, hv⟩ := ih (by grind) hAll
        rw [hv]
        simp [nsihStep, show c ≠ 10 by grind, emitted]

theorem nsihStep_ends (out : List UInt8) {cur : List UInt8} (hCur : 10 ∉ cur) {c : UInt8}
    (hc : isXDigit c = false) :
    (nsihStep (onLine out cur) c).out = out ++ emitted cur ∧
      (c = 10 → nsihStep (onLine out cur) c = ⟨0, 0, false, out ++ emitted cur⟩) := by
  by_cases hDigits : digitsOf cur = cur
  · rw [onLine_digits out (List.takeWhile_eq_self_iff.mp hDigits)]
    by_cases hLine : c = 10
    · subst hLine
      simp [nsihStep, hc, emitted, hDigits]
    · simp [nsihStep, hc, hLine, emitted, hDigits]
  · obtain ⟨v, hv⟩ := onLine_skips out hCur hDigits
    rw [hv]
    by_cases hLine : c = 10 <;> simp [nsihStep, hLine]

theorem processNsih_eq (text : List UInt8) :
    processNsih text = (text.splitOn 10).flatMap emitted := by
  have hNone : ∀ lines : List (List UInt8), lines.modifyHead ([] ++ ·) = lines := by
    rintro (_ | _) <;> rfl
  -- from the middle of a line on
  have hFrom : ∀ out cur, 10 ∉ cur → ((text ++ [0xFF]).foldl nsihStep (onLine out cur)).out =
      out ++ ((text.splitOn 10).modifyHead (cur ++ ·)).flatMap emitted := by
    induction text with
    | nil =>
        intro out cur hCur
        simpa using (nsihStep_ends out hCur (c := 0xFF) (by decide)).1
    | cons c text ih =>
        intro out cur hCur
        rw [List.splitOn_eq_splitOnP] at ih ⊢
        rw [List.splitOnP_cons_eq_if_modifyHead, List.cons_append, List.foldl_cons]
        by_cases hc : c = 10
        · subst hc
          have hEnd := (nsihStep_ends out hCur (c := 10) (by decide)).2 rfl
          have hNext := ih (out ++ emitted cur) [] (by simp)
          simp only [onLine, List.foldl_nil] at hEnd hNext ⊢
          rw [hEnd, hNext, hNone]
          simp
        · have hNext := ih out (cur ++ [c]) (by grind)
          simp only [onLine, List.foldl_append, List.foldl_cons, List.foldl_nil] at hNext ⊢
          rw [hNext]
          simp [hc, List.modifyHead_modifyHead, Function.comp_def]
  have hWhole := hFrom [] [] (by simp)
  rwa [hNone, List.nil_append] at hWhole

theorem hexDigit_facts : ∀ n < 16, isXDigit (hexDigit n) = true ∧ digitValue (hexDigit n) = n ∧
    hexDigit n ≠ 10 := by
  decide

def textOf (bytes : List UInt8) : List UInt8 :=
  bytes.flatMap fun b => [hexDigit (b.toNat / 16), hexDigit (b.toNat % 16), 10]

theorem emitted_byte (b : UInt8) :
    emitted [hexDigit (b.toNat / 16), hexDigit (b.toNat % 16)] = [b] := by
  have hb : b.toNat < 256 := b.toNat_lt
  obtain ⟨hHigh, hHighValue, -⟩ := hexDigit_facts (b.toNat / 16) (by omega)
  obtain ⟨hLow, hLowValue, -⟩ := hexDigit_facts (b.toNat % 16) (by omega)
  have hByte : b.toNat / 16 * 16 + b.toNat % 16 = b.toNat := by omega
  simp [emitted, digitsOf, hexValue, leBytes, hHigh, hLow, hHighValue, hLowValue, hByte]

theorem processNsih_textOf (bytes : List UInt8) : processNsih (textOf bytes) = bytes := by
  rw [processNsih_eq, List.splitOn_eq_splitOnP]
  induction bytes with
  | nil => rfl
  | cons b bytes ih =>
      have hb : b.toNat < 256 := b.toNat_lt
      have hHigh := (hexDigit_facts (b.toNat / 16) (by omega)).2.2
      have hLow := (hexDigit_facts (b.toNat % 16) (by omega)).2.2
      have hLine : textOf (b :: bytes) =
          [hexDigit (b.toNat / 16), hexDigit (b.toNat % 16)] ++ 10 :: textOf bytes := rfl
      rw [hLine, List.splitOnP_append_cons _ _ (by simp), List.splitOnP_eq_singleton
        (by simp [hHigh, hLow]), List.flatMap_append, ih]
      simp [emitted_byte]

/-- The digit count of the line is not that of a value modulo 2^30 only. -/
def Countable (line : List UInt8) : Prop :=
  let n := (digitsOf line).length
  n % 2 ^ 30 = 2 ∨ n % 2 ^ 30 = 4 ∨ n % 2 ^ 30 = 8 → n < 2 ^ 30

theorem emitted_of_countable {line : List UInt8} (h : Countable line) :
    emitted line = lineBytes line := by
  have hValue : hexValue (digitsOf line) < _ :=
    hexValue_lt fun c hc => List.mem_takeWhile_imp hc
  simp only [Countable, emitted, lineBytes] at h ⊢
  by_cases hn : (digitsOf line).length = 2 ∨ (digitsOf line).length = 4 ∨
      (digitsOf line).length = 8
  · have hWord : hexValue (digitsOf line) < 2 ^ 32 :=
      hValue.trans_le ((Nat.pow_le_pow_right (by omega) (show _ ≤ 8 by omega)).trans (by decide))
    rw [if_pos hn, if_pos (by omega), Nat.mod_eq_of_lt hWord]
    congr 1
    omega
  · rw [if_neg hn, if_neg (by omega)]
    rfl

theorem length_emitted (line : List UInt8) :
    (lineBytes line).length ≤ (emitted line).length ∧
      (¬Countable line → (lineBytes line).length < (emitted line).length) := by
  by_cases h : Countable line
  · rw [emitted_of_countable h]
    exact ⟨le_rfl, fun hNot => absurd h hNot⟩
  · simp only [Countable] at h
    have hLess : (lineBytes line).length < (emitted line).length := by
      simp only [lineBytes, emitted, length_leBytes]
      rw [if_neg (by omega), if_pos (by omega), List.length_nil]
      omega
    exact ⟨hLess.le, fun _ => hLess⟩

/-- The bytes are those the text says, and no more than the header has room for. -/
def Converted (text : List UInt8) : Prop :=
  processNsih text = textBytes text ∧ (processNsih text).length ≤ nsihSize

/-- The conversion is right exactly for the texts that say at most 512 bytes and have no line
of 2^30 digits or more whose count wraps to that of a value. -/
theorem converted_iff (text : List UInt8) :
    Converted text ↔ (∀ line ∈ text.splitOn 10, Countable line) ∧
      (textBytes text).length ≤ nsihSize := by
  have hSame : processNsih text = textBytes text ↔ ∀ line ∈ text.splitOn 10, Countable line := by
    rw [processNsih_eq, textBytes]
    constructor
    · intro hEq line hLine
      by_contra hNot
      have hLength := congrArg List.length hEq
      simp only [List.length_flatMap] at hLength
      refine absurd hLength (ne_of_gt ?_)
      exact List.sum_lt_sum _ _ (fun l _ => (length_emitted l).1)
        ⟨line, hLine, (length_emitted line).2 hNot⟩
    · intro hAll
      exact List.flatMap_congr fun line hLine => emitted_of_countable (hAll line hLine)
  constructor
  · rintro ⟨hEq, hFits⟩
    exact ⟨hSame.mp hEq, hEq ▸ hFits⟩
  · rintro ⟨hAll, hFits⟩
    have hEq := hSame.mpr hAll
    exact ⟨hEq, hEq ▸ hFits⟩

/-- 513 lines of one byte go one byte behind the header. -/
theorem nsih_text_overflows :
    ¬(processNsih (textOf (List.replicate 513 0))).length ≤ nsihSize := by
  rw [processNsih_textOf, List.length_replicate]
  decide

end Fire3.Bingen

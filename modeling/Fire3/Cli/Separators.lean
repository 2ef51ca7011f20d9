import Fire3.Cli.Simple

/-!
The separators of a command line, as `cli_simple_run_command` finds them and as
`cli_simple_process_macros` reads the quotes and escapes around them.
-/

namespace Fire3.CliSimple
open CString

variable {q : Scan} {s : Sep} {odd slash : Bool} {c : UInt8}

def separators : Sep → CStr → List Bool
  | _, [] => []
  | s, c :: cs => s.isSep c :: separators (s.next c) cs

/-- For each character, whether the macros read it as a separator outside of quotes that is not
escaped. -/
def plain : Scan → CStr → List Bool
  | _, [] => []
  | q, c :: rest =>
      if q.escapes c then
        match rest with
        | [] => [false]
        | d :: rest => false :: false :: plain (Scan.next { q with prev := c } d) rest
      else (c == semicolon && q.state != .quote) :: plain (q.next c) rest

def Scan.misread (q : Scan) (slash : Bool) (c : UInt8) : Bool :=
  c == quote && xor (!slash)
    (q.prev != backslash && (q.state == .dollar || q.state == .quote))

/-- At each separator outside of quotes, an even number of quotes has been misread, no backslash is
in front and the command is not empty; inside of quotes, the number is even or a backslash is in
front. -/
def Clean : Scan → Bool → Bool → Bool → CStr → Prop
  | _, _, _, _, [] => True
  | q, odd, start, slash, c :: rest =>
      if q.escapes c then
        match rest with
        | [] => True
        | d :: rest => Clean (Scan.next { q with prev := c } d) odd false (d == backslash) rest
      else
        (c = semicolon → if q.state = .quote then odd = false ∨ slash = true
          else odd = false ∧ start = false ∧ slash = false) ∧
        Clean (q.next c) (xor odd (q.misread slash c)) (c == semicolon && q.state != .quote)
          (c == backslash) rest

structure Together (q : Scan) (s : Sep) (odd start slash : Bool) : Prop where
  inquotes : s.inquotes = xor (q.state == .quote) odd
  start : s.start = start
  slash : (s.prev == backslash) = slash
  outside : s.start = true → q.state ≠ .quote

theorem backslash_ne_semicolon : backslash ≠ semicolon := by decide

theorem backslash_ne_quote : backslash ≠ quote := by decide

theorem semicolon_ne_quote : semicolon ≠ quote := by decide

theorem Scan.state_next_escaped (q : Scan) (d : UInt8) (hState : q.state ≠ .quote) :
    (Scan.next { q with prev := backslash } d).state ≠ .quote := by
  cases h : q.state <;> grind [Scan.next]

/-- Neither character of an escape pair is a separator, and neither is a quote. -/
theorem together_escaped {start : Bool} (d : UInt8) (h : Together q s odd start slash)
    (hEscape : q.escapes c = true) :
    s.isSep c = false ∧ (s.next c).isSep d = false ∧
      Together (Scan.next { q with prev := c } d) ((s.next c).next d) odd false
        (d == backslash) := by
  simp only [Scan.escapes, Bool.and_eq_true, beq_iff_eq, bne_iff_ne] at hEscape
  obtain ⟨⟨hState, rfl⟩, -⟩ := hEscape
  have hNext := Scan.state_next_escaped q d hState
  have hFirst : s.isSep backslash = false := by
    simp [Sep.isSep, Sep.candidate, backslash_ne_semicolon]
  have hAfter : s.next backslash = ⟨false, s.inquotes, backslash⟩ := by
    rw [Sep.next, hFirst, Sep.toggled]
    simp [backslash_ne_quote]
  have hSecond : Sep.isSep ⟨false, s.inquotes, backslash⟩ d = false := by simp [Sep.isSep]
  have hEnd : Sep.next ⟨false, s.inquotes, backslash⟩ d = ⟨false, s.inquotes, d⟩ := by
    rw [Sep.next, hSecond, Sep.toggled]
    simp
  rw [hAfter, hEnd]
  refine ⟨hFirst, hSecond, ?_, rfl, rfl, by simp⟩
  rw [beq_false_of_ne hNext, ← beq_false_of_ne hState]
  exact h.inquotes

theorem isSep_eq_iff {start : Bool} (h : Together q s odd start slash) :
    s.isSep c = (c == semicolon && q.state != .quote) ↔
      (c = semicolon → if q.state = .quote then odd = false ∨ slash = true
        else odd = false ∧ start = false ∧ slash = false) := by
  obtain ⟨hInquotes, hStart, hSlash, hOutside⟩ := h
  by_cases hc : c = semicolon
  · subst hc
    have hToggled : s.toggled semicolon = s.inquotes := by simp [Sep.toggled, semicolon_ne_quote]
    simp only [Sep.isSep, Sep.candidate, hToggled, hInquotes, hStart, bne, hSlash]
    by_cases hState : q.state = .quote
    · have hBegun : start = false := by grind
      cases odd <;> cases slash <;> simp [hState, hBegun]
    · cases odd <;> cases start <;> cases slash <;> simp [hState, beq_false_of_ne hState]
  · simp [Sep.isSep, Sep.candidate, hc, beq_false_of_ne hc]

theorem together_next {start : Bool} (h : Together q s odd start slash)
    (hSep : s.isSep c = (c == semicolon && q.state != .quote)) :
    Together (q.next c) (s.next c) (xor odd (q.misread slash c))
      (c == semicolon && q.state != .quote) (c == backslash) := by
  obtain ⟨hInquotes, -, hSlash, -⟩ := h
  have hQuote : s.toggled c = xor ((q.next c).state == .quote) (xor odd (q.misread slash c)) := by
    rw [Sep.toggled, hInquotes]
    cases hState : q.state <;> grind [Scan.next, Scan.misread]
  have hOutside : (c == semicolon && q.state != .quote) = true → (q.next c).state ≠ .quote := by
    cases hState : q.state <;> grind [Scan.next, semicolon, quote]
  rw [← hSep] at hOutside ⊢
  have hStart : (s.next c).start = s.isSep c := by grind [Sep.next]
  refine ⟨?_, hStart, ?_, hStart ▸ hOutside⟩
  · rw [Sep.next, ← hQuote]
    split
    · next h => grind [Sep.isSep, Sep.candidate]
    · rfl
  · grind [Sep.next, Sep.isSep, Sep.candidate, semicolon, backslash]

theorem separators_eq_plain_iff {start : Bool} {cs : CStr} (h : Together q s odd start slash) :
    separators s cs = plain q cs ↔ Clean q odd start slash cs := by
  fun_induction plain q cs generalizing s odd start slash with
  | case1 => simp [separators, Clean]
  | case2 q c hEscape =>
      obtain ⟨hFirst, -⟩ := together_escaped 0 h hEscape
      simp [separators, Clean, hEscape, hFirst]
  | case3 q c hEscape d rest ih =>
      obtain ⟨hFirst, hSecond, hNext⟩ := together_escaped d h hEscape
      simp [separators, Clean, hEscape, hFirst, hSecond, ih hNext]
  | case4 q c rest hEscape ih =>
      rw [separators, Clean.eq_def]
      simp only [hEscape, List.cons.injEq, isSep_eq_iff h]
      refine and_congr_right fun hClean => ih (together_next h ?_)
      exact (isSep_eq_iff h).2 hClean

/-- The separators are those the macros read outside of quotes, exactly on the clean lines. -/
theorem separators_agree_iff (before : UInt8) (cmd : CStr) :
    separators ⟨true, false, before⟩ cmd = plain ⟨.dollar, 0⟩ cmd ↔
      Clean ⟨.dollar, 0⟩ false true (before == backslash) cmd :=
  separators_eq_plain_iff ⟨rfl, rfl, rfl, by simp⟩

/-- Two backslashes are one, and do not escape what follows. -/
theorem separator_kept :
    separators ⟨true, false, 0⟩ (ascii "a\\\\;b") = [false, false, false, false, false] ∧
      plain ⟨.dollar, 0⟩ (ascii "a\\\\;b") = [false, false, false, true, false] := by
  decide

end Fire3.CliSimple

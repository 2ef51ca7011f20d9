import Fire3.Base.CString

/-!
The simple command line of `cli_simple.c`: separators, macros and arguments.

A quote in the first place makes the search for separators look in front of the buffer, and
the last slot of `argv` stays unset when a blank follows the last argument there is room for.
-/

namespace Fire3.CliSimple
open CString

def quote : UInt8 := 39

def backslash : UInt8 := 92

def semicolon : UInt8 := 59

structure Sep where
  start : Bool
  inquotes : Bool
  prev : UInt8

def Sep.toggled (s : Sep) (c : UInt8) : Bool :=
  if c = quote ∧ s.prev ≠ backslash then !s.inquotes else s.inquotes

def Sep.candidate (s : Sep) (c : UInt8) : Bool := !s.toggled c && c == semicolon && !s.start

def Sep.isSep (s : Sep) (c : UInt8) : Bool := s.candidate c && s.prev != backslash

def Sep.next (s : Sep) (c : UInt8) : Sep :=
  if s.isSep c then ⟨true, false, 0⟩ else ⟨false, s.toggled c, c⟩

def Sep.reads : Sep → Int → CStr → List Int
  | _, off, [] => [off]
  | s, off, c :: cs =>
      off :: (if c = quote ∨ s.candidate c then [off - 1] else []) ++
        Sep.reads (s.next c) (off + 1) cs

def Sep.tokens : Sep → CStr → CStr → List CStr
  | _, token, [] => if token = [] then [] else [token]
  | s, token, c :: cs =>
      if s.isSep c then token :: Sep.tokens (s.next c) [] cs
      else Sep.tokens (s.next c) (token ++ [c]) cs

inductive Waiting where
  | dollar | bracket | closing | quote
deriving DecidableEq

structure Scan where
  state : Waiting
  prev : UInt8

def Scan.escapes (q : Scan) (c : UInt8) : Bool :=
  q.state != .quote && c == backslash && q.prev != backslash

def Scan.next (q : Scan) (c : UInt8) : Scan where
  prev := c
  state := match q.state with
    | .dollar =>
        if c = CliSimple.quote ∧ q.prev ≠ backslash then .quote
        else if c = '$'.toUInt8 ∧ q.prev ≠ backslash then .bracket
        else .dollar
    | .bracket => if c = '('.toUInt8 ∨ c = '\x7b'.toUInt8 then .closing else .dollar
    | .closing => if c = ')'.toUInt8 ∨ c = '\x7d'.toUInt8 then .dollar else .closing
    | .quote => if c = CliSimple.quote ∧ q.prev ≠ backslash then .dollar else .quote

abbrev Env := CStr → Option CStr

/-- The variables of `cli_simple_process_macros`: the input since `varname_start`, the characters
written to the output, and the names `envname` has held. -/
structure Macros extends Scan where
  varname : CStr
  output : CStr
  names : List CStr

section
variable (cbsize maxargs : Nat)

/-- The `switch` for the character `c`, which ends the input `raw`. -/
def Macros.char (env : Env) (m : Macros) (c : UInt8) (raw : CStr) : Macros :=
  let q := m.toScan.next c
  match m.state with
  | .dollar => { m with toScan := q, output := m.output ++ if q.state = .dollar then [c] else [] }
  | .bracket =>
      if q.state = .closing then { m with toScan := q, varname := [] }
      else { m with toScan := q, output := (m.output ++ ['$'.toUInt8, c]).take cbsize }
  | .closing =>
      if q.state = .dollar then
        let envname := (m.varname ++ raw).dropLast
        { m with
          toScan := q
          names := envname :: m.names
          output := (m.output ++ (env envname).getD []).take cbsize }
      else { m with toScan := q, varname := m.varname ++ raw }
  | .quote => { m with toScan := q, output := m.output ++ if q.state = .dollar then [] else [c] }

def processMacros (env : Env) : Macros → CStr → Macros
  | m, [] => m
  | m, c :: rest =>
      if m.output.length < cbsize then
        if m.escapes c then
          match rest with
          | [] => m
          | d :: rest =>
              processMacros env (Macros.char cbsize env { m with prev := c } d [c, d]) rest
        else processMacros env (m.char cbsize env c [c]) rest
      else m

def Macros.nulAt (m : Macros) : Nat :=
  if m.output.length < cbsize then m.output.length else m.output.length - 1

def Macros.finaltoken (m : Macros) : CStr := m.output.take (m.nulAt cbsize)

def isblank (c : UInt8) : Bool := c == ' '.toUInt8 || c == '\t'.toUInt8

abbrev Argv := Nat → Option CStr

/-- `cli_simple_parse_line` with room for `left` more arguments. -/
def parseLine : Nat → Nat → CStr → Argv → Nat × Argv
  | 0, nargs, _, argv => (nargs, argv)
  | left + 1, nargs, line, argv =>
      let line := line.dropWhile isblank
      if line = [] then (nargs, Function.update argv nargs none)
      else
        let argv := Function.update argv nargs (some (line.takeWhile (!isblank ·)))
        match line.dropWhile (!isblank ·) with
        | [] => (nargs + 1, Function.update argv (nargs + 1) none)
        | _ :: line => parseLine left (nargs + 1) line argv

structure Step where
  macros : Macros
  old : Argv
  argc : Nat
  argv : Argv

abbrev CmdProcess := Env → List (Option CStr) → Env × Bool

def runTokens (cmdProcess : CmdProcess) : Env → Argv → List CStr → List Step
  | _, _, [] => []
  | env, old, token :: tokens =>
      let macros := processMacros cbsize env ⟨⟨.dollar, 0⟩, [], [], []⟩ token
      let r := parseLine maxargs 0 (macros.finaltoken cbsize) old
      ⟨macros, old, r.1, r.2⟩ ::
        if r.1 = 0 then runTokens cmdProcess env r.2 tokens
        else
          let done := cmdProcess env ((List.range r.1).map r.2)
          if done.2 then [] else runTokens cmdProcess done.1 r.2 tokens

/-- The reads of `cmdbuf` and the commands of `cli_simple_run_command`; `before` is the byte in
front of `cmdbuf`. -/
def runCommand (cmdProcess : CmdProcess) (env : Env) (argv : Argv) (before : UInt8) (cmd : CStr) :
    List Int × List Step :=
  if cmd = [] ∨ cbsize ≤ cmd.length then ([], [])
  else
    (Sep.reads ⟨true, false, before⟩ 0 cmd,
      runTokens cbsize maxargs cmdProcess env argv (Sep.tokens ⟨true, false, before⟩ [] cmd))

end

def words (line : CStr) : List CStr := (line.splitOnP isblank).filter (· ≠ [])

def EndsBlank (line : CStr) : Prop := ∃ c ∈ line.getLast?, isblank c = true

/-- There is room for the words, and for the NULL behind them. -/
def Fits (maxargs : Nat) (line : CStr) : Prop :=
  (words line).length < maxargs ∨ 0 < maxargs ∧ (words line).length = maxargs ∧ ¬EndsBlank line

/-- The command stays inside of its buffers, and `argv` has the words of its text. -/
structure Step.Inside (cbsize maxargs : Nat) (s : Step) : Prop where
  output : s.macros.output.length ≤ cbsize
  terminated : s.macros.nulAt cbsize < cbsize
  names : ∀ name ∈ s.macros.names, name.length < cbsize
  argc : s.argc ≤ maxargs
  argv : ∀ i < s.argc, ∃ word ∈ (words (s.macros.finaltoken cbsize))[i]?, s.argv i = some word
  last : s.argv s.argc = none

section
variable {b : UInt8} {w line rest : CStr}

theorem words_nil : words [] = [] := by
  simp [words]

theorem words_blank (hb : isblank b = true) (rest : CStr) : words (b :: rest) = words rest := by
  have hSplit := List.splitOnP_append_cons [] rest hb
  rw [words, ← List.nil_append (b :: rest), hSplit, List.filter_append]
  simp [words]

theorem words_word (hWord : ∀ c ∈ w, isblank c = false) (hNe : w ≠ []) : words w = [w] := by
  rw [words, List.splitOnP_eq_singleton hWord]
  simp [hNe]

theorem words_append (hWord : ∀ c ∈ w, isblank c = false) (hNe : w ≠ []) (hb : isblank b = true)
    (rest : CStr) : words (w ++ b :: rest) = w :: words rest := by
  rw [words, List.splitOnP_append_cons w rest hb, List.filter_append]
  exact congrArg (· ++ words rest) (words_word hWord hNe)

theorem words_dropWhile (line : CStr) : words (line.dropWhile isblank) = words line := by
  induction line with
  | nil => rfl
  | cons c line ih =>
      rw [List.dropWhile_cons]
      split
      · next hc => rw [ih, words_blank hc]
      · rfl

theorem endsBlank_dropWhile (h : line.dropWhile isblank ≠ []) :
    EndsBlank (line.dropWhile isblank) ↔ EndsBlank line := by
  have hAll : line = line.takeWhile isblank ++ line.dropWhile isblank :=
    List.takeWhile_append_dropWhile.symm
  conv_rhs => rw [hAll]
  unfold EndsBlank
  rw [List.getLast?_append_of_ne_nil _ h]

theorem endsBlank_append_cons (w : CStr) (hb : isblank b = true) :
    EndsBlank (w ++ b :: rest) ↔ rest = [] ∨ EndsBlank rest := by
  unfold EndsBlank
  rw [List.getLast?_append_of_ne_nil _ (List.cons_ne_nil b rest)]
  cases rest with
  | nil => simp [hb]
  | cons c rest => simp [List.getLast?_cons_cons]

theorem not_endsBlank_word (hWord : ∀ c ∈ w, isblank c = false) : ¬EndsBlank w := by
  rintro ⟨c, hc, hBlank⟩
  simp [hWord c (List.mem_of_getLast? hc)] at hBlank

theorem line_cases (line : CStr) (hLine : line.dropWhile isblank ≠ []) :
    ∃ w rest, (line.dropWhile isblank).takeWhile (!isblank ·) = w ∧
      (line.dropWhile isblank).dropWhile (!isblank ·) = rest ∧
      (rest = [] ∧ words line = [w] ∧ ¬EndsBlank line ∨
        ∃ b tail, rest = b :: tail ∧ words line = w :: words tail ∧
          (EndsBlank line ↔ tail = [] ∨ EndsBlank tail)) := by
  refine ⟨_, _, rfl, rfl, ?_⟩
  rw [← words_dropWhile line, ← endsBlank_dropWhile hLine]
  have hHead := List.head_dropWhile_not isblank hLine
  generalize line.dropWhile isblank = start at hLine hHead
  have hAll := List.takeWhile_append_dropWhile (p := (!isblank ·)) (l := start)
  have hWord : ∀ c ∈ start.takeWhile (!isblank ·), isblank c = false := by
    intro c hc
    simpa using List.mem_takeWhile_imp hc
  have hNe : start.takeWhile (!isblank ·) ≠ [] := by
    cases start with
    | nil => exact absurd rfl hLine
    | cons c cs => simpa using hHead
  cases hRest : start.dropWhile (!isblank ·) with
  | nil =>
      rw [hRest, List.append_nil] at hAll
      have hWords := words_word hWord hNe
      have hEnds := not_endsBlank_word hWord
      rw [hAll] at hWords hEnds ⊢
      exact .inl ⟨rfl, hWords, hEnds⟩
  | cons b tail =>
      have hBlank : isblank b = true := by
        have := List.head_dropWhile_not (!isblank ·) (l := start) (by simp [hRest])
        simpa [hRest] using this
      rw [hRest] at hAll
      refine .inr ⟨b, tail, rfl, ?_, ?_⟩
      · rw [← words_append hWord hNe hBlank, hAll]
      · rw [← endsBlank_append_cons _ hBlank, hAll]

theorem endsBlank_of_words_nil (h : words line = []) : line = [] ∨ EndsBlank line := by
  induction line with
  | nil => exact .inl rfl
  | cons c line ih =>
      refine .inr ?_
      by_cases hc : isblank c = true
      · rw [words_blank hc] at h
        exact (endsBlank_append_cons [] hc).2 (ih h)
      · obtain ⟨w, rest, -, -, ⟨-, hWords, -⟩ | ⟨_, _, -, hWords, -⟩⟩ :=
          line_cases (c :: line) (by simp [hc])
        · simp [hWords] at h
        · simp [hWords] at h

end

structure Parsed (left nargs : Nat) (line : CStr) (old : Argv) (r : Nat × Argv) : Prop where
  argc : r.1 = nargs + min (words line).length left
  front : ∀ i < nargs, r.2 i = old i
  argv : ∀ i < min (words line).length left, r.2 (nargs + i) = (words line)[i]?
  fits : Fits left line → r.2 r.1 = none
  full : ¬Fits left line → r.2 r.1 = old r.1

theorem fits_succ {left : Nat} {line tail w : CStr} (hWords : words line = w :: words tail)
    (hEnds : EndsBlank line ↔ tail = [] ∨ EndsBlank tail) :
    Fits (left + 1) line ↔ Fits left tail := by
  have hNil : words tail = [] → EndsBlank line := fun h => hEnds.2 (endsBlank_of_words_nil h)
  unfold Fits
  rw [hWords, List.length_cons]
  grind [words_nil]

theorem parsed (left nargs : Nat) (line : CStr) (old : Argv) :
    Parsed left nargs line old (parseLine left nargs line old) := by
  induction left generalizing nargs line old with
  | zero => exact ⟨by simp [parseLine], fun _ _ => rfl, by simp, by simp [Fits], fun _ => rfl⟩
  | succ left ih =>
      rw [parseLine]
      by_cases hLine : line.dropWhile isblank = []
      · have hWords : words line = [] := by rw [← words_dropWhile, hLine, words_nil]
        simp only [hLine, if_true]
        constructor <;> grind [Fits, Function.update_apply]
      · obtain ⟨w, rest, hw, hRest, hCase⟩ := line_cases line hLine
        simp only [hLine, if_false, hw, hRest]
        rcases hCase with ⟨rfl, hWords, hEnds⟩ | ⟨b, tail, rfl, hWords, hEnds⟩
        · constructor <;> grind [Fits, Function.update_apply]
        · obtain ⟨hArgc, hFront, hArgv, hFits, hFull⟩ :=
            ih (nargs + 1) tail (Function.update old nargs (some w))
          rw [← fits_succ hWords hEnds] at hFits hFull
          change Parsed (left + 1) nargs line old (parseLine left (nargs + 1) tail _)
          constructor
          · rw [hArgc, hWords, List.length_cons]
            omega
          · intro i hi
            rw [hFront i (by omega), Function.update_of_ne (by omega)]
          · intro i hi
            cases i with
            | zero =>
                rw [hWords, hFront (nargs + 0) (by omega)]
                simp
            | succ i =>
                rw [hWords, List.length_cons] at hi
                rw [hWords, List.getElem?_cons_succ, ← hArgv i (by omega), Nat.add_right_comm,
                  Nat.add_assoc]
          · exact hFits
          · intro h
            rw [hFull h, Function.update_of_ne (by omega)]

structure Macros.Bounded (cbsize : Nat) (m : Macros) (n : Nat) : Prop where
  output : m.output.length ≤ cbsize
  varname : m.varname.length + n < cbsize
  names : ∀ name ∈ m.names, name.length < cbsize

section
variable {cbsize : Nat} {env : Env} {m : Macros}

theorem Macros.Bounded.char {n : Nat} {c : UInt8} {raw : CStr} (hRaw : raw ≠ [])
    (h : m.Bounded cbsize (raw.length + n)) (hRoom : m.output.length < cbsize) :
    (m.char cbsize env c raw).Bounded cbsize n := by
  have hPos := List.length_pos_of_ne_nil hRaw
  obtain ⟨hOutput, hVarname, hNames⟩ := h
  unfold Macros.char
  cases m.state with
  | dollar | quote => constructor <;> grind
  | bracket => constructor <;> grind
  | closing => constructor <;> grind

theorem Macros.Bounded.processMacros {input : CStr} (h : m.Bounded cbsize input.length) :
    (processMacros cbsize env m input).Bounded cbsize 0 := by
  fun_induction CliSimple.processMacros cbsize env m input with
  | case1 => exact h
  | case2 m c hRoom hEscape => exact ⟨h.output, by have := h.varname; omega, h.names⟩
  | case3 m c hRoom hEscape d rest ih =>
      refine ih (Macros.Bounded.char (List.cons_ne_nil c [d]) ?_ hRoom)
      exact ⟨h.output, by grind [h.varname], h.names⟩
  | case4 m c rest hRoom hEscape ih =>
      refine ih (Macros.Bounded.char (List.cons_ne_nil c []) ?_ hRoom)
      exact ⟨h.output, by simpa [Nat.add_comm] using h.varname, h.names⟩
  | case5 m c rest hRoom => exact ⟨h.output, by have := h.varname; omega, h.names⟩

theorem length_le_of_mem_tokens {s : Sep} {token cmd t : CStr} (h : t ∈ s.tokens token cmd) :
    t.length ≤ token.length + cmd.length := by
  induction cmd generalizing s token with
  | nil => grind [Sep.tokens]
  | cons c cs ih => grind [Sep.tokens]

theorem le_length_words {maxargs : Nat} {line : CStr} (h : ¬Fits maxargs line) :
    maxargs ≤ (words line).length := by
  by_contra hLess
  exact h (.inl (Nat.lt_of_not_le hLess))

/-- A command is inside of its buffers, up to the last slot of its `argv`. -/
theorem inside_iff {maxargs argc : Nat} {token : CStr} {old argv : Argv}
    (hToken : token.length < cbsize)
    (hm : processMacros cbsize env ⟨⟨.dollar, 0⟩, [], [], []⟩ token = m)
    (hr : parseLine maxargs 0 (m.finaltoken cbsize) old = (argc, argv)) :
    (Step.mk m old argc argv).Inside cbsize maxargs ↔
      Fits maxargs (m.finaltoken cbsize) ∨ old maxargs = none := by
  have hStart : Macros.Bounded cbsize ⟨⟨.dollar, 0⟩, [], [], []⟩ token.length :=
    ⟨Nat.zero_le _, by simpa using hToken, by simp⟩
  have ⟨hOutput, _, hNames⟩ := hm ▸ hStart.processMacros
  obtain ⟨hArgc, -, hArgv, hFits, hFull⟩ := hr ▸ parsed maxargs 0 (m.finaltoken cbsize) old
  simp only [Nat.zero_add] at hArgc hArgv hFits hFull
  have hSlot (hNot : ¬Fits maxargs (m.finaltoken cbsize)) : argv argc = old maxargs := by
    rw [hFull hNot, hArgc, Nat.min_eq_right (le_length_words hNot)]
  constructor
  · intro h
    by_cases hCase : Fits maxargs (m.finaltoken cbsize)
    · exact .inl hCase
    · exact .inr ((hSlot hCase).symm.trans h.last)
  · intro h
    refine ⟨hOutput, by grind [Macros.nulAt], hNames, hArgc ▸ Nat.min_le_right _ _, ?_, ?_⟩
    · intro i (hi : i < argc)
      have hLength : i < (words (m.finaltoken cbsize)).length := by omega
      refine ⟨_, List.getElem?_eq_getElem hLength, ?_⟩
      exact (hArgv i (by omega)).trans (List.getElem?_eq_getElem hLength)
    · by_cases hCase : Fits maxargs (m.finaltoken cbsize)
      · exact hFits hCase
      · exact (hSlot hCase).trans (h.resolve_left hCase)

theorem inside_iff_of_mem_runTokens {maxargs : Nat} {cmdProcess : CmdProcess} {old : Argv}
    {tokens : List CStr} (hTokens : ∀ t ∈ tokens, t.length < cbsize) {s : Step}
    (hs : s ∈ runTokens cbsize maxargs cmdProcess env old tokens) :
    s.Inside cbsize maxargs ↔
      Fits maxargs (s.macros.finaltoken cbsize) ∨ s.old maxargs = none := by
  induction tokens generalizing env old with
  | nil => simp [runTokens] at hs
  | cons token tokens ih =>
      have hRest := fun t ht => hTokens t (List.mem_cons_of_mem _ ht)
      rw [runTokens] at hs
      rcases List.mem_cons.1 hs with rfl | hs
      · exact inside_iff (hTokens token List.mem_cons_self) rfl rfl
      · split at hs
        · exact ih hRest hs
        · dsimp only at hs
          split at hs
          · simp at hs
          · exact ih hRest hs

end

theorem reads_inside (s : Sep) (off : Int) (hOff : 0 < off) (cs : CStr) :
    ∀ r ∈ s.reads off cs, 0 ≤ r ∧ r ≤ off + cs.length := by
  induction cs generalizing s off with
  | nil => simp [Sep.reads]; omega
  | cons c cs ih =>
      have hRest := ih (s.next c) (off + 1) (by omega)
      intro r hr
      simp only [Sep.reads, List.cons_append, List.mem_cons, List.mem_append] at hr
      rw [List.length_cons]
      grind

/-- The first character decides whether the search looks in front of the buffer. -/
theorem reads_command_iff {cbsize : Nat} (before : UInt8) {cmd : CStr} (h : cmd.length < cbsize) :
    (∀ r ∈ Sep.reads ⟨true, false, before⟩ 0 cmd, 0 ≤ r ∧ r < cbsize) ↔
      cmd.head? ≠ some quote := by
  cases cmd with
  | nil => simpa [Sep.reads] using h
  | cons c cs =>
      have hRest := reads_inside (Sep.next ⟨true, false, before⟩ c) (0 + 1) (by decide) cs
      have hFirst : Sep.candidate ⟨true, false, before⟩ c = false := by simp [Sep.candidate]
      rw [List.length_cons] at h
      simp only [Sep.reads, List.cons_append, List.mem_cons, List.mem_append, hFirst]
      constructor
      · intro hAll hQuote
        have := (hAll (0 - 1) (.inr (.inl (by grind)))).1
        omega
      · intro hQuote r hr
        grind

/-- A command line stays inside of its buffers exactly if it does not begin with a quote, and
in each of its commands the NULL has its slot or is still there. -/
theorem command_inside_iff (cbsize maxargs : Nat) (cmdProcess : CmdProcess) (env : Env)
    (argv : Argv) (before : UInt8) (cmd : CStr) :
    let run := runCommand cbsize maxargs cmdProcess env argv before cmd
    ((∀ r ∈ run.1, 0 ≤ r ∧ r < cbsize) ∧ ∀ s ∈ run.2, s.Inside cbsize maxargs) ↔
      (cmd.length < cbsize → cmd.head? ≠ some quote) ∧
        ∀ s ∈ run.2, Fits maxargs (s.macros.finaltoken cbsize) ∨ s.old maxargs = none := by
  dsimp only
  rw [runCommand]
  split
  · next hNone => rcases hNone with rfl | hLong <;> grind
  · next hSome =>
    have hShort : cmd.length < cbsize := by grind
    have hTokens : ∀ t ∈ Sep.tokens ⟨true, false, before⟩ [] cmd, t.length < cbsize := by
      intro t ht
      have := length_le_of_mem_tokens ht
      grind
    rw [reads_command_iff before hShort]
    refine and_congr (by simp [hShort]) (forall₂_congr fun s hs => ?_)
    exact inside_iff_of_mem_runTokens hTokens hs

/-- A quoted command is read from offset -1 on. -/
theorem quote_in_front :
    -1 ∈ (runCommand 1024 16 (fun env _ => (env, false)) (fun _ => none) (fun _ => none) 0
      (quote :: ascii "a" ++ [quote])).1 := by
  decide

end Fire3.CliSimple

import Mathlib.Logic.Function.Basic

/-!
The line editor `cread_line` of `cli_readline.c`, with its history.

The editor takes lines of up to `CONFIG_SYS_CBSIZE` characters and ends them with a NUL. The
console buffer has room for that; the buffer of `do_env_edit` is one byte too short.
-/

namespace Fire3.ReadLine

def histMaxLines : Nat := 20

structure Hist where
  histMax : Nat
  histAddIdx : Nat
  histCur : Int
  lines : Nat → List UInt8

def histInit : Hist := ⟨0, 0, -1, fun _ => []⟩

def creadAddToHist (h : Hist) (line : List UInt8) : Hist :=
  let next := if histMaxLines ≤ h.histAddIdx + 1 then 0 else h.histAddIdx + 1
  { h with
    lines := Function.update h.lines h.histAddIdx line
    histAddIdx := next
    histMax := max h.histMax next }

def histPrev (h : Hist) : Hist × Option (List UInt8) :=
  if h.histCur < 0 then (h, none)
  else
    let cur : Int := if h.histCur - 1 < 0 then h.histMax else h.histCur - 1
    if cur = h.histAddIdx then (h, none) else ({ h with histCur := cur }, some (h.lines cur.toNat))

def histNext (h : Hist) : Hist × Option (List UInt8) :=
  if h.histCur < 0 ∨ h.histCur = h.histAddIdx then (h, none)
  else
    let cur := if h.histMax < h.histCur + 1 then 0 else h.histCur + 1
    ({ h with histCur := cur }, some (if cur = h.histAddIdx then [] else h.lines cur.toNat))

structure Line where
  num : Nat
  eolNum : Nat
  insert : Bool
  escSave : List UInt8
  buf : Nat → UInt8
  writes : List Nat
  hist : Hist
  returned : Bool

def Line.poke (s : Line) (o : Nat) (c : UInt8) : Line :=
  { s with buf := Function.update s.buf o c, writes := o :: s.writes }

def Line.memmove (s : Line) (dst src n : Nat) : Line :=
  { s with
    buf := fun k => if dst ≤ k ∧ k < dst + n then s.buf (src + (k - dst)) else s.buf k
    writes := List.range' dst n ++ s.writes }

def Line.strcpy (s : Line) (line : List UInt8) : Line :=
  { s with
    buf := fun k => if k ≤ line.length then line.getD k 0 else s.buf k
    writes := List.range (line.length + 1) ++ s.writes }

def creadAddChar (len : Nat) (insert : Bool) (s : Line) (ichar : UInt8) : Line :=
  let grows := insert || s.num == s.eolNum
  if grows && decide (len - 1 < s.eolNum) then s
  else
    let s := if grows then { s with eolNum := s.eolNum + 1 } else s
    let s := if insert then s.memmove (s.num + 1) s.num (s.eolNum - s.num - 1) else s
    { s.poke s.num ichar with num := s.num + 1 }

def creadAddStr (len : Nat) (insert : Bool) (s : Line) (str : List UInt8) : Line :=
  str.foldl (creadAddChar len insert) s

inductive Control where
  | escape | home | discard | forward | back | deleteChar | eraseToEol | toEol | toggle | eraseLine
  | backspace | prev | next | char
deriving DecidableEq

def control (ichar : UInt8) : Control :=
  if ichar = 0x1b then .escape
  else if ichar = 1 then .home
  else if ichar = 3 then .discard
  else if ichar = 6 then .forward
  else if ichar = 2 then .back
  else if ichar = 4 then .deleteChar
  else if ichar = 11 then .eraseToEol
  else if ichar = 5 then .toEol
  else if ichar = 15 then .toggle
  else if ichar = 24 ∨ ichar = 21 then .eraseLine
  else if ichar = 255 ∨ ichar = 127 ∨ ichar = 8 then .backspace
  else if ichar = 16 then .prev
  else if ichar = 14 then .next
  else .char

def recallLine (s : Line) : Hist × Option (List UInt8) → Line
  | (hist, none) => { s with hist, escSave := [] }
  | (hist, some line) =>
      { s.strcpy line with hist, escSave := [], num := line.length, eolNum := line.length }

def creadSwitch (len : Nat) (s : Line) (ichar : UInt8) : Line :=
  match control ichar with
  | .escape => { s with escSave := if s.escSave = [] then [ichar] else [] }
  | .home => { s with num := 0 }
  | .discard => { s.poke 0 0 with returned := true }
  | .forward => if s.num < s.eolNum then { s with num := s.num + 1 } else s
  | .back => { s with num := s.num - 1 }
  | .deleteChar =>
      if s.num < s.eolNum then
        { s.memmove s.num (s.num + 1) (s.eolNum - s.num - 1) with eolNum := s.eolNum - 1 }
      else s
  | .eraseToEol => { s with eolNum := min s.eolNum s.num }
  | .toEol => { s with num := max s.num s.eolNum }
  | .toggle => { s with insert := !s.insert }
  | .eraseLine => { s with num := 0, eolNum := 0 }
  | .backspace =>
      if s.num ≠ 0 then
        { s.memmove (s.num - 1) s.num (s.eolNum - s.num) with
          num := s.num - 1
          eolNum := s.eolNum - 1 }
      else s
  | .prev => recallLine s (histPrev s.hist)
  | .next => recallLine s (histNext s.hist)
  | .char => creadAddChar len s.insert s ichar

def arrow (ichar : UInt8) : Option UInt8 :=
  if ichar = 'D'.toUInt8 then some 2
  else if ichar = 'C'.toUInt8 then some 6
  else if ichar = 'H'.toUInt8 then some 1
  else if ichar = 'A'.toUInt8 then some 16
  else if ichar = 'B'.toUInt8 then some 14
  else none

def Line.text (s : Line) : List UInt8 := ((List.range s.eolNum).map s.buf).takeWhile (· ≠ 0)

def creadReturn (s : Line) : Line :=
  let s := s.poke s.eolNum 0
  let hist :=
    if s.buf 0 ≠ 0 ∧ s.buf 0 ≠ '!'.toUInt8 then creadAddToHist s.hist s.text else s.hist
  { s with hist := { hist with histCur := hist.histAddIdx }, returned := true }

def creadKey (len : Nat) (s : Line) (ichar : UInt8) : Line :=
  if s.returned then s
  else if ichar = '\n'.toUInt8 ∨ ichar = '\r'.toUInt8 then creadReturn s
  else match s.escSave with
    | [] => creadSwitch len s ichar
    | [esc] =>
        if ichar = '['.toUInt8 then { s with escSave := [esc, ichar] }
        else { creadAddStr len s.insert s [esc] with escSave := [] }
    | esc => match arrow ichar with
        | some key => creadSwitch len { s with escSave := [] } key
        | none => { creadAddStr len s.insert s (esc ++ [ichar]) with escSave := [] }

/-- `cread_line` over a buffer with the string `text`, up to the last of `keys`. -/
def creadLine (len : Nat) (hist : Hist) (text keys : List UInt8) : Line :=
  keys.foldl (creadKey len)
    (creadAddStr len true ⟨0, 0, true, [], fun k => text.getD k 0, [], hist, false⟩ text)

inductive Left (len : Nat) : Hist → Prop
  | init : Left len histInit
  | call {hist : Hist} (text keys : List UInt8) (h : Left len hist) :
      Left len (creadLine len hist text keys).hist

structure Within (len : Nat) (s : Line) : Prop where
  cursor : s.num ≤ s.eolNum
  room : s.eolNum ≤ len
  writes : ∀ o ∈ s.writes, o ≤ len
  hist : ∀ i, (s.hist.lines i).length ≤ len

section
variable {len : Nat} {s : Line}

theorem Within.creadAddChar (h : Within len s) (hLen : 0 < len) (insert : Bool) (ichar : UInt8) :
    Within len (creadAddChar len insert s ichar) := by
  obtain ⟨hCursor, hRoom, hWrites, hHist⟩ := h
  unfold ReadLine.creadAddChar
  constructor <;> cases insert <;> grind [Line.poke, Line.memmove, List.mem_range']

theorem Within.creadAddStr (h : Within len s) (hLen : 0 < len) (insert : Bool)
    (str : List UInt8) : Within len (creadAddStr len insert s str) := by
  induction str generalizing s with
  | nil => exact h
  | cons ichar str ih => exact ih (h.creadAddChar hLen insert ichar)

def HistShort (len : Nat) (r : Hist × Option (List UInt8)) : Prop :=
  (∀ i, (r.1.lines i).length ≤ len) ∧ ∀ line ∈ r.2, line.length ≤ len

theorem Within.recallLine (h : Within len s) {r : Hist × Option (List UInt8)} (hr : HistShort len r) :
    Within len (recallLine s r) := by
  obtain ⟨hist, line⟩ := r
  cases line with
  | none => exact ⟨h.cursor, h.room, h.writes, hr.1⟩
  | some line =>
      have hLine := hr.2 line rfl
      refine ⟨Nat.le_refl _, hLine, ?_, hr.1⟩
      intro o ho
      rcases List.mem_append.1 ho with hNew | hOld
      · exact Nat.le_trans (Nat.le_of_lt_succ (List.mem_range.1 hNew)) hLine
      · exact h.writes o hOld

theorem histShort_prev {h : Hist} (hLines : ∀ i, (h.lines i).length ≤ len) :
    HistShort len (histPrev h) := by
  have hNone : HistShort len (h, none) := ⟨hLines, fun _ hLine => nomatch hLine⟩
  unfold histPrev
  generalize (if h.histCur - 1 < 0 then (h.histMax : Int) else h.histCur - 1) = cur
  dsimp only
  split
  · exact hNone
  · split
    · exact hNone
    · exact ⟨hLines, by simp [hLines]⟩

theorem histShort_next {h : Hist} (hLines : ∀ i, (h.lines i).length ≤ len) :
    HistShort len (histNext h) := by
  unfold histNext
  dsimp only
  split
  · exact ⟨hLines, fun _ hLine => nomatch hLine⟩
  · exact ⟨hLines, by grind⟩

theorem Within.creadSwitch (h : Within len s) (hLen : 0 < len) (ichar : UInt8) :
    Within len (creadSwitch len s ichar) := by
  have ⟨hCursor, hRoom, hWrites, hHist⟩ := h
  unfold ReadLine.creadSwitch
  cases control ichar with
  | escape | toggle => exact ⟨hCursor, hRoom, hWrites, hHist⟩
  | home => exact ⟨Nat.zero_le _, hRoom, hWrites, hHist⟩
  | discard => exact ⟨hCursor, hRoom, by grind [Line.poke], hHist⟩
  | back => exact ⟨by grind, hRoom, hWrites, hHist⟩
  | eraseToEol => exact ⟨by grind, by grind, hWrites, hHist⟩
  | toEol => exact ⟨by grind, hRoom, hWrites, hHist⟩
  | eraseLine => exact ⟨Nat.le_refl _, Nat.zero_le _, hWrites, hHist⟩
  | forward | deleteChar | backspace =>
      constructor <;> grind [Line.memmove, List.mem_range']
  | prev => exact h.recallLine (histShort_prev hHist)
  | next => exact h.recallLine (histShort_next hHist)
  | char => exact h.creadAddChar hLen s.insert ichar

theorem length_text_le (s : Line) : s.text.length ≤ s.eolNum := by
  refine Nat.le_trans (List.takeWhile_sublist _).length_le ?_
  simp

theorem creadAddToHist_short {h : Hist} (hLines : ∀ i, (h.lines i).length ≤ len)
    {line : List UInt8} (hLine : line.length ≤ len) (i : Nat) :
    ((creadAddToHist h line).lines i).length ≤ len := by
  unfold creadAddToHist
  dsimp only
  rw [Function.update_apply]
  split
  · exact hLine
  · exact hLines i

theorem Within.creadReturn (h : Within len s) : Within len (creadReturn s) := by
  have hText := length_text_le (s.poke s.eolNum 0)
  obtain ⟨hCursor, hRoom, hWrites, hHist⟩ := h
  refine ⟨hCursor, hRoom, by grind [ReadLine.creadReturn, Line.poke], fun i => ?_⟩
  unfold ReadLine.creadReturn
  dsimp only
  split
  · exact creadAddToHist_short hHist (Nat.le_trans hText hRoom) i
  · exact hHist i

theorem Within.creadKey (h : Within len s) (hLen : 0 < len) (ichar : UInt8) :
    Within len (creadKey len s ichar) := by
  have hStr := fun str => h.creadAddStr hLen s.insert str
  unfold ReadLine.creadKey
  split
  · exact h
  · split
    · exact h.creadReturn
    · split
      · exact h.creadSwitch hLen ichar
      · split
        · exact ⟨h.cursor, h.room, h.writes, h.hist⟩
        · exact ⟨(hStr _).cursor, (hStr _).room, (hStr _).writes, (hStr _).hist⟩
      · split
        · have hPlain : Within len { s with escSave := [] } :=
            ⟨h.cursor, h.room, h.writes, h.hist⟩
          exact hPlain.creadSwitch hLen _
        · exact ⟨(hStr _).cursor, (hStr _).room, (hStr _).writes, (hStr _).hist⟩

theorem Within.run (h : Within len s) (hLen : 0 < len) (keys : List UInt8) :
    Within len (keys.foldl (ReadLine.creadKey len) s) := by
  induction keys generalizing s with
  | nil => exact h
  | cons ichar keys ih => exact ih (h.creadKey hLen ichar)

theorem within_creadLine {hist : Hist} (hHist : ∀ i, (hist.lines i).length ≤ len) (hLen : 0 < len)
    (text keys : List UInt8) : Within len (creadLine len hist text keys) := by
  have hStart : Within len ⟨0, 0, true, [], fun k => text.getD k 0, [], hist, false⟩ :=
    ⟨Nat.le_refl _, Nat.zero_le _, by simp, hHist⟩
  exact (hStart.creadAddStr hLen true text).run hLen keys

theorem Left.short {hist : Hist} (h : Left len hist) (hLen : 0 < len) :
    ∀ i, (hist.lines i).length ≤ len := by
  induction h with
  | init => exact fun _ => Nat.zero_le _
  | call text keys _ ih => exact (within_creadLine ih hLen text keys).hist

end

/-- Every call with a string in a buffer of `size` bytes keeps the bounds and the buffer. -/
def StaysInside (len size : Nat) : Prop :=
  ∀ hist, Left len hist → ∀ text : List UInt8, text.length < size → ∀ keys,
    let s := creadLine len hist text keys
    s.num ≤ s.eolNum ∧ s.eolNum ≤ len ∧ ∀ o ∈ s.writes, o < size

theorem creadKey_letter {len : Nat} {s : Line} (hReturned : s.returned = false)
    (hEsc : s.escSave = []) :
    creadKey len s 'x'.toUInt8 = creadAddChar len s.insert s 'x'.toUInt8 := by
  have hEnter : ¬('x'.toUInt8 = '\n'.toUInt8 ∨ 'x'.toUInt8 = '\r'.toUInt8) := by decide
  have hControl : control 'x'.toUInt8 = .char := by decide
  rw [creadKey, hReturned, if_neg Bool.false_ne_true, if_neg hEnter, hEsc]
  simp only [creadSwitch, hControl]

theorem typed (len : Nat) (hist : Hist) {n : Nat} (hn : n ≤ len) :
    let s := creadLine len hist [] (List.replicate n 'x'.toUInt8)
    s.num = n ∧ s.eolNum = n ∧ s.insert = true ∧ s.escSave = [] ∧ s.returned = false := by
  induction n with
  | zero => exact ⟨rfl, rfl, rfl, rfl, rfl⟩
  | succ n ih =>
      obtain ⟨hNum, hEol, hInsert, hEsc, hReturned⟩ := ih (by omega)
      have hLast : creadLine len hist [] (List.replicate (n + 1) 'x'.toUInt8) =
          creadKey len (creadLine len hist [] (List.replicate n 'x'.toUInt8)) 'x'.toUInt8 := by
        rw [List.replicate_succ', creadLine, List.foldl_append]
        rfl
      have hRoom : ¬len - 1 < n := by omega
      rw [hLast, creadKey_letter hReturned hEsc]
      simp [creadAddChar, Line.poke, Line.memmove, hNum, hEol, hInsert, hEsc, hReturned, hRoom]

theorem full_line_writes (len : Nat) :
    len ∈ (creadLine len histInit []
      (List.replicate len 'x'.toUInt8 ++ ['\n'.toUInt8])).writes := by
  obtain ⟨-, hEol, -, -, hReturned⟩ := typed len histInit (Nat.le_refl len)
  have hEnd : creadLine len histInit [] (List.replicate len 'x'.toUInt8 ++ ['\n'.toUInt8]) =
      creadReturn (creadLine len histInit [] (List.replicate len 'x'.toUInt8)) := by
    rw [creadLine, List.foldl_append]
    change creadKey len (creadLine len histInit [] _) _ = _
    rw [creadKey, hReturned, if_neg Bool.false_ne_true, if_pos (Or.inl rfl)]
  rw [hEnd]
  simp [creadReturn, Line.poke, hEol]

/-- The editor with the limit `len` stays inside of a buffer exactly if the buffer is longer. -/
theorem stays_inside_iff {len size : Nat} (hLen : 0 < len) (hSize : 0 < size) :
    StaysInside len size ↔ len < size := by
  constructor
  · intro h
    exact (h histInit .init [] hSize _).2.2 len (full_line_writes len)
  · intro hRoom hist hLeft text _ keys
    have h := within_creadLine (hLeft.short hLen) hLen text keys
    exact ⟨h.cursor, h.room, fun o ho => Nat.lt_of_le_of_lt (h.writes o ho) hRoom⟩

/-- `console_buffer`. -/
theorem stays_inside_console : StaysInside 1024 1025 :=
  (stays_inside_iff (by decide) (by decide)).2 (by decide)

/-- The buffer of `do_env_edit`, with 1024 letters and the enter key. -/
theorem env_edit_overflow :
    ∃ o ∈ (creadLine 1024 histInit []
      (List.replicate 1024 'x'.toUInt8 ++ ['\n'.toUInt8])).writes, ¬o < 1024 :=
  ⟨1024, full_line_writes 1024, Nat.lt_irrefl 1024⟩

end Fire3.ReadLine

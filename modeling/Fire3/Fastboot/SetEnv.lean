import Fire3.Base.Tokens
import Fire3.Fastboot.PartMap

/-!
Environment settings by fastboot: `fb_setenv` of `drivers/usb/gadget/f_fastboot.c` and the
parsers it calls.

A setting is `<name>="<value>";`. The end of a setting is the first `;` behind the opening
quote, be it within the value. The count that ends the loop is reduced by the whole offset
reached, not by the length of the setting.
-/

namespace Fire3.Fastboot
open CString

def isSpace (c : UInt8) : Bool := c = 32 || c = 9

def leading (t : CStr) : Nat := (t.takeWhile isBlank).length

def trailing (t : CStr) : Nat := (t.reverse.takeWhile isSpace).length

/-- `parse_string(p, r, b, len)` within the text `str`; none if the buffer is too small. The end of
the token is looked for from `r` back, and may lie in front of its start. -/
def copyToken (str p r : CStr) (len : Nat) : Except Failure (Option CStr) :=
  let e := str.length - r.length
  let l : Int := (p.length - r.length : Nat) - trailing (str.take e) - leading p
  if l > len then .ok none
  -- `strncpy` takes a negative length for a huge one
  else if l < 0 ∨ l = len then .error .strOverflow
  else .ok (some ((p.drop (leading p)).take l.toNat))

def cmdSize : Nat := 128

def argSize : Nat := 1024

def parseEnvHead (str env : CStr) : Except Failure (Option (CStr × CStr)) := do
  let p ← parseComment env (env.length + 1) env cmdSize
  let some r := strchr p 61 | return none
  let some name ← copyToken str p r cmdSize | return none
  let some r := strchr r 34 | return none
  return some (name, r.drop 1)

def parseEnvEnd (str p : CStr) : Except Failure (Option (CStr × CStr)) := do
  let some r := strchr p 34 | return none
  let some value ← copyToken str p r argSize | return none
  let some r := (strchr p 59).or (strchr p 10) | return none
  return some (value, r.drop 1)

def setenvLoop (str : CStr) :
    Nat → CStr → Int → List (CStr × CStr) → Except Failure (List (CStr × CStr))
  | 0, _, _, calls => .ok calls
  | fuel + 1, p, len, calls => do
      let some (cmd, p) ← parseEnvHead str p | return calls
      let some (arg, p) ← parseEnvEnd str p | return calls
      let len := len - (str.length - p.length : Nat)
      if len > 1 then setenvLoop str fuel p len (calls ++ [(cmd, arg)])
      else return calls ++ [(cmd, arg)]

def fbSetenv (str : CStr) (strLen : Nat) : Except Failure (List (CStr × CStr) × Int) := do
  let calls ← setenvLoop str (str.length + 1) str strLen []
  return (calls, if calls = [] then -1 else 0)

def tokenLength (t : CStr) : Int := (t.length : Int) - trailing t - leading t

def strip (t : CStr) : CStr := (t.drop (leading t)).take (tokenLength t).toNat

section
variable {pre t r : CStr}

theorem leading_append (hr : ∀ c ∈ r.head?, isBlank c = false) : leading (t ++ r) = leading t := by
  have hStop : r.takeWhile isBlank = [] := by
    cases r with
    | nil => rfl
    | cons c r => simp [hr c rfl]
  unfold leading
  rw [List.takeWhile_append]
  split
  · simp_all
  · rfl

theorem trailing_append (hPre : ∀ c ∈ pre.getLast?, isSpace c = false) :
    trailing (pre ++ t) = trailing t := by
  have hStop : pre.reverse.takeWhile isSpace = [] := by
    cases hRev : pre.reverse with
    | nil => rfl
    | cons c cs =>
        have hLast : pre.getLast? = some c := by rw [← List.head?_reverse, hRev]; rfl
        simp [hPre c hLast]
  unfold trailing
  rw [List.reverse_append, List.takeWhile_append]
  split
  · simp_all
  · rfl

theorem copyToken_eq (len : Nat) (hPre : ∀ c ∈ pre.getLast?, isSpace c = false)
    (hr : ∀ c ∈ r.head?, isBlank c = false) :
    copyToken (pre ++ (t ++ r)) (t ++ r) r len =
      if tokenLength t > len then .ok none
      else if tokenLength t < 0 ∨ tokenLength t = len then .error .strOverflow
      else .ok (some (strip t)) := by
  have hEnd : (pre ++ (t ++ r)).length - r.length = (pre ++ t).length := by
    simp only [List.length_append]
    omega
  have hTake : (pre ++ (t ++ r)).take (pre ++ t).length = pre ++ t := by
    rw [← List.append_assoc, List.take_left]
  have hLength : (t ++ r).length - r.length = t.length := by simp
  unfold copyToken
  simp only [hEnd, hTake, hLength, trailing_append hPre, leading_append hr]
  rw [show (t.length : Int) - trailing t - leading t = tokenLength t from rfl]
  split_ifs with hLong hBad
  · rfl
  · rfl
  · have hFits : leading t + (tokenLength t).toNat ≤ t.length := by
      unfold tokenLength at hBad ⊢
      omega
    rw [strip, List.drop_append_of_le_length (by omega),
      List.take_append_of_le_length (by rw [List.length_drop]; omega)]

theorem tokenLength_plain (hFirst : ∀ c ∈ t.head?, isBlank c = false)
    (hLast : ∀ c ∈ t.getLast?, isSpace c = false) : tokenLength t = t.length ∧ strip t = t := by
  have hLead : leading t = 0 := leading_append (t := []) hFirst
  have hTrail : trailing t = 0 := (congrArg trailing (List.append_nil t).symm).trans
    (trailing_append (t := []) hLast)
  have hLength : tokenLength t = t.length := by rw [tokenLength, hLead, hTrail]; omega
  exact ⟨hLength, by rw [strip, hLead, hLength]; simp⟩

end

section
variable {pre t w v rest : CStr}

/-- The name of a setting is what comes before the next `=`, and the value starts behind the next
quote. -/
theorem parseEnvHead_eq (hPre : ∀ c ∈ pre.getLast?, isSpace c = false) (ht : 61 ∉ t) (hw : 34 ∉ w)
    (hComment : 35 ∉ t ++ 61 :: (w ++ 34 :: rest)) :
    parseEnvHead (pre ++ (t ++ 61 :: (w ++ 34 :: rest))) (t ++ 61 :: (w ++ 34 :: rest)) =
      if tokenLength t > cmdSize then .ok none
      else if tokenLength t < 0 ∨ tokenLength t = cmdSize then .error .strOverflow
      else .ok (some (strip t, rest)) := by
  have hQuote : strchr (61 :: (w ++ 34 :: rest)) 34 = some (34 :: rest) := by
    rw [strchr, if_neg (by decide), strchr_append hw, strchr_self]
  have hStop : ∀ c ∈ (61 :: (w ++ 34 :: rest)).head?, isBlank c = false := by
    rintro c ⟨⟩
    decide
  rw [parseEnvHead, parseComment, strchr_eq_none hComment]
  simp only [bind, Except.bind, strchr_append ht, strchr_self, copyToken_eq cmdSize hPre hStop]
  split_ifs <;> simp [hQuote, pure, Except.pure]

theorem parseEnvEnd_eq {next : CStr} (hPre : ∀ c ∈ pre.getLast?, isSpace c = false) (hv : 34 ∉ v)
    (hFirst : ∀ c ∈ v.head?, isBlank c = false) (hLast : ∀ c ∈ v.getLast?, isSpace c = false)
    (hLength : v.length < argSize) (hEnd : strchr (v ++ 34 :: rest) 59 = some (59 :: next)) :
    parseEnvEnd (pre ++ (v ++ 34 :: rest)) (v ++ 34 :: rest) = .ok (some (v, next)) := by
  have hStop : ∀ c ∈ (34 :: rest).head?, isBlank c = false := by
    rintro c ⟨⟩
    decide
  obtain ⟨hToken, hStrip⟩ := tokenLength_plain hFirst hLast
  rw [parseEnvEnd, strchr_append hv, strchr_self]
  simp only [bind, Except.bind, copyToken_eq argSize hPre hStop, hToken, hStrip, hEnd]
  rw [if_neg (by omega), if_neg (by omega)]
  rfl

end

section
variable {str p p' : CStr} {len : Int} {fuel : Nat} {calls all : List (CStr × CStr)}

def goOn (str : CStr) (fuel : Nat) (p : CStr) (len : Int) (calls : List (CStr × CStr)) :
    Except Failure (List (CStr × CStr)) :=
  if len > 1 then setenvLoop str fuel p len calls else .ok calls

theorem setenvLoop_setting {cmd arg : CStr} (hHead : parseEnvHead str p = .ok (some (cmd, p')))
    {next : CStr} (hEnd : parseEnvEnd str p' = .ok (some (arg, next))) :
    setenvLoop str (fuel + 1) p len calls =
      goOn str fuel next (len - (str.length - next.length : Nat)) (calls ++ [(cmd, arg)]) := by
  rw [setenvLoop, hHead]
  simp only [bind, Except.bind, hEnd]
  rfl

theorem setenvLoop_stop (h : parseEnvHead str p = .ok none) :
    setenvLoop str (fuel + 1) p len calls = .ok calls := by
  rw [setenvLoop, h]
  rfl

theorem setenvLoop_extends (h : setenvLoop str fuel p len calls = .ok all) : calls <+: all := by
  induction fuel generalizing p len calls with
  | zero => exact Except.ok.inj h ▸ List.prefix_refl _
  | succ fuel ih =>
      rw [setenvLoop] at h
      obtain ⟨head, -, h⟩ := bind_eq_ok_iff.mp h
      cases head with
      | none => exact Except.ok.inj h ▸ List.prefix_refl _
      | some head =>
          obtain ⟨tail, -, h⟩ := bind_eq_ok_iff.mp h
          cases tail with
          | none => exact Except.ok.inj h ▸ List.prefix_refl _
          | some tail =>
              have hMore : calls <+: calls ++ [(head.1, tail.1)] := List.prefix_append ..
              dsimp only at h
              split at h
              · exact hMore.trans (ih h)
              · exact Except.ok.inj h ▸ hMore

theorem goOn_extends (h : goOn str fuel p len calls = .ok all) : calls <+: all := by
  unfold goOn at h
  grind [setenvLoop_extends, Except.ok.inj, List.prefix_refl]

end

end Fire3.Fastboot

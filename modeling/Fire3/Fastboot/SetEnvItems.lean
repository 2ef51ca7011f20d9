import Fire3.Fastboot.SetEnv

/-!
Which texts of settings `fb_setenv` carries out as they are written.

All is well as long as no value but the last has a `;` and the loop is not ended early. Behind
a `;` within a value the next setting is read from the rest of the value, with a name or a
value that is not in the text. There is one way for this to come out right: every setting that
follows assigns to its variable the very text that stands between two values.
-/

namespace Fire3.Fastboot
open CString

def isAlnum (c : UInt8) : Bool := isDigit c || (65 ≤ c && c ≤ 90) || (97 ≤ c && c ≤ 122)

/-- A setting as it is written. The blanks of a value are within it. -/
structure EnvItem where
  name : CStr
  value : CStr
  name_nonempty : name ≠ []
  name_length : name.length ≤ 100
  name_alnum : ∀ c ∈ name, isAlnum c = true
  value_length : value.length ≤ 1000
  value_plain : 0 ∉ value ∧ 34 ∉ value ∧ 35 ∉ value
  value_first : ∀ c ∈ value.head?, isBlank c = false
  value_last : ∀ c ∈ value.getLast?, isSpace c = false

def upTo (c : UInt8) (s : CStr) : CStr := s.takeWhile (· ≠ c)

def behindFirst (c : UInt8) (s : CStr) : CStr := (s.dropWhile (· ≠ c)).drop 1

namespace EnvItem
variable (e : EnvItem)

def text : CStr := e.name ++ 61 :: 34 :: (e.value ++ [34, 59])

def call : CStr × CStr := (e.name, e.value)

def cut : Nat := e.name.length + 3 + (upTo 59 e.value).length

def SelfLike : Prop := e.value = 59 :: (e.name ++ [61])

end EnvItem

def textOf (es : List EnvItem) : CStr := es.flatMap EnvItem.text

def Quiet (u : CStr) : Prop :=
  61 ∈ u → 0 ≤ tokenLength (upTo 61 u) ∧ tokenLength (upTo 61 u) ≠ cmdSize

/-- The loop goes on for `n` more settings and ends then, while it reads one setting of a self-like
name of length `k` again and again: in turn from its start at `s` and from the rest of a value in
front of `s`. -/
def Echo (k : Nat) : Bool → Nat → Nat → Int → Prop
  | _, 0, _, len => len ≤ 1
  | true, n + 1, s, len => 1 < len ∧ Echo k false n s (len - s)
  | false, n + 1, s, len => 1 < len ∧ Echo k true n (s + 2 * k + 6) (len - (s + k + 3 : Nat))

/-- The settings from `e` on, which starts at `off`, are carried out. -/
def Reads (len : Int) (off : Nat) : EnvItem → List EnvItem → Prop
  | e, [] => 59 ∈ e.value → len - (off + e.cut : Nat) ≤ 1 ∨ Quiet (behindFirst 59 e.value)
  | e, e' :: es =>
      if 59 ∈ e.value then
        1 < len - (off + e.cut : Nat) ∧ 61 ∈ behindFirst 59 e.value ∧
          strip (upTo 61 (behindFirst 59 e.value)) = e'.name ∧ e'.SelfLike ∧ (∀ x ∈ es, x = e') ∧
          Echo e'.name.length false es.length (off + e.text.length)
            (len - (off + e.cut : Nat) - (off + e.text.length : Nat))
      else
        1 < len - (off + e.text.length : Nat) ∧
          Reads (len - (off + e.text.length : Nat)) (off + e.text.length) e' es

section
variable {c : UInt8} {x u : CStr}

theorem upTo_append (h : c ∉ x) : upTo c (x ++ c :: u) = x ∧ behindFirst c (x ++ c :: u) = u := by
  have hAll : ∀ b ∈ x, decide (b ≠ c) = true := fun b hb => by
    simpa using ne_of_mem_of_not_mem hb h
  constructor
  · rw [upTo, List.takeWhile_append_of_pos hAll]
    simp
  · rw [behindFirst, List.dropWhile_append_of_pos hAll]
    simp

theorem strchr_of_mem {s : CStr} (h : c ∈ s) : ∃ next, strchr s c = some (c :: next) := by
  obtain ⟨front, next, rfl, hFront⟩ := List.eq_append_cons_of_mem h
  grind [strchr_append, strchr_self]

theorem notMem_name (e : EnvItem) (h : isAlnum c = false) : c ∉ e.name :=
  fun hc => Bool.false_ne_true (h.symm.trans (e.name_alnum c hc))

theorem isBlank_of_isAlnum (h : isAlnum c = true) : isBlank c = false := by
  have hAll : ∀ c, isBlank c = true → isAlnum c = false := by
    intro c hc
    simp only [isBlank, Bool.or_eq_true, decide_eq_true_eq] at hc
    obtain (rfl | rfl) | rfl := hc <;> decide
  grind

theorem isSpace_of_isBlank (h : isBlank c = false) : isSpace c = false := by
  grind [isBlank, isSpace, Bool.or_eq_false_iff]

theorem isSpace_of_concat (front : CStr) (h : isSpace c = false) :
    ∀ b ∈ (front ++ [c]).getLast?, isSpace b = false := by
  intro b hb
  rw [List.getLast?_concat] at hb
  exact Option.some.inj hb ▸ h

theorem name_plain (e : EnvItem) :
    (∀ c ∈ e.name.head?, isBlank c = false) ∧ ∀ c ∈ e.name.getLast?, isSpace c = false :=
  ⟨fun c hc => isBlank_of_isAlnum (e.name_alnum c (List.mem_of_mem_head? hc)),
    fun c hc => isSpace_of_isBlank (isBlank_of_isAlnum (e.name_alnum c (List.mem_of_getLast? hc)))⟩

theorem hash_notMem_item (e : EnvItem) : 35 ∉ e.text := by
  simp [EnvItem.text, notMem_name e (show isAlnum 35 = false by decide), e.value_plain.2.2]

theorem hash_notMem_textOf (es : List EnvItem) : 35 ∉ textOf es := by
  intro hMem
  obtain ⟨e, -, hIn⟩ := List.mem_flatMap.mp hMem
  exact hash_notMem_item e hIn

theorem textOf_cons (e : EnvItem) (es : List EnvItem) : textOf (e :: es) = e.text ++ textOf es :=
  List.flatMap_cons ..

theorem length_text (e : EnvItem) : e.text.length = e.name.length + e.value.length + 4 := by
  simp [EnvItem.text]
  omega

end

structure Pointer (str p : CStr) (fuel : Nat) : Prop where
  split : ∃ pre, str = pre ++ p ∧ ∀ c ∈ pre.getLast?, isSpace c = false
  fuel : p.length < fuel
  quiet : 35 ∉ p

theorem Pointer.next {str p q : CStr} {fuel : Nat} (h : Pointer str p (fuel + 1))
    (hNext : ∃ front, p = front ++ 59 :: q) : Pointer str q fuel := by
  obtain ⟨pre, rfl, -⟩ := h.split
  obtain ⟨front, rfl⟩ := hNext
  have hFuel := h.fuel
  have hQuiet := h.quiet
  simp only [List.length_append, List.length_cons] at hFuel
  simp only [List.mem_append, List.mem_cons, not_or] at hQuiet
  exact ⟨⟨pre ++ front ++ [59], by simp, isSpace_of_concat _ (by decide)⟩, by omega, hQuiet.2.2⟩

section
variable {str : CStr} {fuel : Nat} {len : Int} {calls : List (CStr × CStr)}

theorem setenvLoop_turn {t w v rest next : CStr}
    (h : Pointer str (t ++ 61 :: (w ++ 34 :: (v ++ 34 :: rest))) (fuel + 1)) (ht : 61 ∉ t)
    (hw : 34 ∉ w) (hv : 34 ∉ v) (hFirst : ∀ c ∈ v.head?, isBlank c = false)
    (hLast : ∀ c ∈ v.getLast?, isSpace c = false) (hLength : v.length < argSize)
    (hEnd : strchr (v ++ 34 :: rest) 59 = some (59 :: next)) :
    setenvLoop str (fuel + 1) (t ++ 61 :: (w ++ 34 :: (v ++ 34 :: rest))) len calls =
      if tokenLength t > cmdSize then .ok calls
      else if tokenLength t < 0 ∨ tokenLength t = cmdSize then .error .strOverflow
      else goOn str fuel next (len - (str.length - next.length : Nat)) (calls ++ [(strip t, v)]) := by
  obtain ⟨pre, rfl, hPre⟩ := h.split
  have hHead := parseEnvHead_eq hPre ht hw h.quiet
  have hQuote := isSpace_of_concat (pre ++ (t ++ 61 :: w)) (show isSpace 34 = false by decide)
  have hValue := parseEnvEnd_eq hQuote hv hFirst hLast hLength hEnd
  have hStr : pre ++ (t ++ 61 :: w) ++ [34] ++ (v ++ 34 :: rest) =
      pre ++ (t ++ 61 :: (w ++ 34 :: (v ++ 34 :: rest))) := by
    simp
  rw [hStr] at hValue
  split_ifs at hHead ⊢ with hLong hBad
  · exact setenvLoop_stop hHead
  · rw [setenvLoop, hHead]
    rfl
  · exact setenvLoop_setting hHead hValue

theorem setenvLoop_item {e : EnvItem} {rest next : CStr} (h : Pointer str (e.text ++ rest) (fuel + 1))
    (hEnd : strchr (e.value ++ 34 :: 59 :: rest) 59 = some (59 :: next)) :
    setenvLoop str (fuel + 1) (e.text ++ rest) len calls =
      goOn str fuel next (len - (str.length - next.length : Nat)) (calls ++ [e.call]) := by
  have hText : e.text ++ rest = e.name ++ 61 :: ([] ++ 34 :: (e.value ++ 34 :: 59 :: rest)) := by
    simp [EnvItem.text]
  obtain ⟨hToken, hStrip⟩ := tokenLength_plain (name_plain e).1 (name_plain e).2
  have hName := e.name_length
  rw [hText] at h ⊢
  rw [setenvLoop_turn h (notMem_name e (by decide)) (by simp) e.value_plain.2.1 e.value_first
    e.value_last (Nat.lt_of_le_of_lt e.value_length (by decide)) hEnd, hToken, hStrip,
    if_neg (by rw [cmdSize]; omega), if_neg (by rw [cmdSize]; omega)]
  rfl

def afterRest (u : CStr) (es : List EnvItem) : CStr := u ++ 34 :: 59 :: textOf es

theorem setenvLoop_rest {t w : CStr} {e : EnvItem} {es : List EnvItem}
    (h : Pointer str (afterRest (t ++ 61 :: w) (e :: es)) (fuel + 1)) (ht : 61 ∉ t) (hw : 34 ∉ w) :
    setenvLoop str (fuel + 1) (afterRest (t ++ 61 :: w) (e :: es)) len calls =
      if tokenLength t > cmdSize then .ok calls
      else if tokenLength t < 0 ∨ tokenLength t = cmdSize then .error .strOverflow
      else goOn str fuel (textOf (e :: es)) (len - (str.length - (textOf (e :: es)).length : Nat))
        (calls ++ [(strip t, 59 :: (e.name ++ [61]))]) := by
  have hText : afterRest (t ++ 61 :: w) (e :: es) =
      t ++ 61 :: (w ++ 34 ::
        ((59 :: (e.name ++ [61])) ++ 34 :: (e.value ++ 34 :: 59 :: textOf es))) := by
    simp [afterRest, textOf_cons, EnvItem.text]
  have hNext : (59 :: (e.name ++ [61])) ++ 34 :: (e.value ++ 34 :: 59 :: textOf es) =
      59 :: textOf (e :: es) := by
    simp [textOf_cons, EnvItem.text]
  have hName := e.name_length
  rw [hText] at h ⊢
  refine setenvLoop_turn h ht hw ?_ ?_ ?_ ?_ ?_
  · simp [notMem_name e (show isAlnum 34 = false by decide)]
  · rintro c ⟨⟩
    decide
  · exact isSpace_of_concat (59 :: e.name) (by decide)
  · simp only [List.length_cons, List.length_append, List.length_nil, argSize]
    omega
  · rw [hNext, strchr_self]

theorem quote_mem_of_rest {u : CStr} {e : EnvItem} {es : List EnvItem} {all : List (CStr × CStr)}
    (h : Pointer str (afterRest u (e :: es)) (fuel + 1)) (hu : 61 ∉ u)
    (hLoop : setenvLoop str (fuel + 1) (afterRest u (e :: es)) len calls = .ok all) :
    all = calls ∨ ∃ cmd arg, 34 ∈ cmd ∧ calls ++ [(cmd, arg)] <+: all := by
  have hText : afterRest u (e :: es) =
      (u ++ 34 :: 59 :: e.name) ++ 61 :: ([] ++ 34 :: (e.value ++ 34 :: 59 :: textOf es)) := by
    simp [afterRest, textOf_cons, EnvItem.text]
  obtain ⟨next, hEnd⟩ := strchr_of_mem (c := 59)
    (show 59 ∈ e.value ++ 34 :: 59 :: textOf es by simp)
  rw [hText] at h hLoop
  rw [setenvLoop_turn h (by simp [hu, notMem_name e (show isAlnum 61 = false by decide)]) (by simp)
    e.value_plain.2.1 e.value_first e.value_last (Nat.lt_of_le_of_lt e.value_length (by decide))
    hEnd] at hLoop
  split_ifs at hLoop with hLong hBad
  · exact .inl (Except.ok.inj hLoop).symm
  · refine .inr ⟨_, _, ?_, goOn_extends hLoop⟩
    have hLead : leading (u ++ 34 :: 59 :: e.name) = leading u := leading_append (by
      rintro c ⟨⟩
      decide)
    have hLe : leading u ≤ u.length := (List.takeWhile_prefix _).length_le
    have hTrail : trailing (u ++ 34 :: 59 :: e.name) = 0 := by
      have hName := @trailing_append e.name [] (name_plain e).2
      rw [List.append_nil] at hName
      rw [show u ++ 34 :: 59 :: e.name = (u ++ [34]) ++ [59] ++ e.name by simp,
        trailing_append (isSpace_of_concat _ (by decide)), hName]
      rfl
    rw [strip, tokenLength, hLead, hTrail, List.drop_append_of_le_length hLe, List.take_of_length_le]
    · simp
    · grind

end

section
variable {str : CStr} {fuel : Nat} {len : Int} {calls : List (CStr × CStr)}

theorem EnvItem.eq_of_call {e e' : EnvItem} (h : e.call = e'.call) : e = e' := by
  cases e
  cases e'
  cases h
  rfl

theorem goOn_of_le {p : CStr} (h : len ≤ 1) : goOn str fuel p len calls = .ok calls :=
  if_neg (by omega)

theorem head_of_goOn {p : CStr} {x y : CStr × CStr} {ys : List (CStr × CStr)}
    (h : goOn str fuel p len (calls ++ [x]) = .ok (calls ++ y :: ys)) : y = x := by
  obtain ⟨rest, hRest⟩ := goOn_extends h
  rw [List.append_assoc] at hRest
  exact ((List.cons.inj (List.append_cancel_left hRest)).1).symm

theorem goOn_ne_of_extra {p : CStr} {x : CStr × CStr} :
    goOn str fuel p len (calls ++ [x]) ≠ .ok calls := by
  intro h
  have hLength := (goOn_extends h).length_le
  grind

def echoAt (j : EnvItem) (tail : Bool) (es : List EnvItem) : CStr :=
  if tail then afterRest (j.name ++ [61]) es else textOf es

def echoLeft (tail : Bool) (j : EnvItem) (js : List EnvItem) : List EnvItem :=
  if tail then j :: js else js

theorem echo_turn {j : EnvItem} (hj : j.SelfLike) {js : List EnvItem} (tail : Bool)
    (h : Pointer str (echoAt j tail (j :: js)) (fuel + 1)) :
    setenvLoop str (fuel + 1) (echoAt j tail (j :: js)) len calls =
        goOn str fuel (echoAt j (!tail) (echoLeft tail j js))
          (len - (str.length - (echoAt j (!tail) (echoLeft tail j js)).length : Nat))
          (calls ++ [j.call]) ∧
      Pointer str (echoAt j (!tail) (echoLeft tail j js)) fuel := by
  cases tail with
  | true =>
      obtain ⟨hToken, hStrip⟩ := tokenLength_plain (name_plain j).1 (name_plain j).2
      have hName := j.name_length
      have hRest := @setenvLoop_rest str fuel len calls j.name [] j js h
        (notMem_name j (by decide)) (by simp)
      rw [hToken, hStrip, if_neg (by rw [cmdSize]; omega), if_neg (by rw [cmdSize]; omega),
        ← show j.value = 59 :: (j.name ++ [61]) from hj] at hRest
      exact ⟨hRest, h.next ⟨j.name ++ [61, 34], by simp [echoAt, afterRest, echoLeft]⟩⟩
  | false =>
      have hText : echoAt j false (j :: js) = j.text ++ textOf js := textOf_cons j js
      have hEnd : strchr (j.value ++ 34 :: 59 :: textOf js) 59 =
          some (59 :: afterRest (j.name ++ [61]) js) := by
        rw [show j.value = 59 :: (j.name ++ [61]) from hj, List.cons_append, strchr_self]
        rfl
      rw [hText] at h ⊢
      refine ⟨setenvLoop_item h hEnd, h.next ⟨j.name ++ [61, 34], ?_⟩⟩
      simp [EnvItem.text, show j.value = 59 :: (j.name ++ [61]) from hj, echoAt, afterRest, echoLeft]

theorem length_selfLike {j : EnvItem} (hj : j.SelfLike) : j.text.length = 2 * j.name.length + 6 := by
  rw [length_text, show j.value = 59 :: (j.name ++ [61]) from hj]
  grind

theorem goOn_echo_iff {j : EnvItem} (hj : j.SelfLike) {es : List EnvItem} (tail : Bool) (n : Nat)
    (h : Pointer str (echoAt j tail (List.replicate (n + 1) j ++ es)) fuel) :
    goOn str fuel (echoAt j tail (List.replicate (n + 1) j ++ es)) len calls =
        .ok (calls ++ es.map EnvItem.call) ↔
      (∀ x ∈ es, x = j) ∧ Echo j.name.length tail es.length
        (str.length - (textOf (List.replicate (n + 1) j ++ es)).length) len := by
  obtain ⟨fuel, rfl⟩ : ∃ k, fuel = k + 1 := ⟨fuel - 1, by have := h.fuel; omega⟩
  induction es generalizing tail n fuel len calls with
  | nil =>
      by_cases hLen : len ≤ 1
      · simp [goOn_of_le hLen, Echo, hLen]
      · rw [List.append_nil, List.replicate_succ] at h ⊢
        rw [goOn, if_pos (by omega), (echo_turn hj tail h).1, List.map_nil, List.append_nil]
        exact iff_of_false goOn_ne_of_extra (by simp [Echo, hLen])
  | cons x es ih =>
      by_cases hLen : len ≤ 1
      · rw [goOn_of_le hLen]
        refine iff_of_false (by simp) fun hAll => ?_
        cases tail <;> exact absurd hAll.2.1 (by omega)
      · have hText : List.replicate (n + 1) j ++ x :: es = j :: (List.replicate n j ++ x :: es) := by
          rw [List.replicate_succ, List.cons_append]
        rw [hText] at h
        obtain ⟨hTurn, hNext⟩ := @echo_turn str fuel len calls j hj _ tail h
        rw [hText, goOn, if_pos (by omega), hTurn]
        by_cases hx : x = j
        · have hMore : List.replicate n j ++ x :: es = List.replicate (n + 1) j ++ es := by
            rw [hx, List.replicate_succ', List.append_assoc]
            rfl
          have hCalls : calls ++ (x :: es).map EnvItem.call =
              (calls ++ [j.call]) ++ es.map EnvItem.call := by
            simp [hx]
          have hAll : (∀ y ∈ x :: es, y = j) ↔ ∀ y ∈ es, y = j := by simp [hx]
          obtain ⟨pre, hStr, -⟩ := h.split
          have hLength := congrArg List.length hStr
          obtain ⟨fuel, rfl⟩ : ∃ k, fuel = k + 1 := ⟨fuel - 1, by have := hNext.fuel; omega⟩
          rw [hMore] at hNext hLength ⊢
          rw [hCalls, hAll]
          cases tail with
          | true =>
              refine (ih false (n + 1) fuel hNext).trans (and_congr_right fun _ => ?_)
              exact (and_iff_right (by omega)).symm
          | false =>
              have hText : (textOf (j :: (List.replicate (n + 1) j ++ es))).length =
                  2 * j.name.length + 6 + (textOf (List.replicate (n + 1) j ++ es)).length := by
                rw [textOf_cons, List.length_append, length_selfLike hj]
              have hRest : (echoAt j true (List.replicate (n + 1) j ++ es)).length =
                  j.name.length + 3 + (textOf (List.replicate (n + 1) j ++ es)).length := by
                simp only [echoAt, afterRest, if_true, List.length_append, List.length_cons,
                  List.length_nil]
                omega
              rw [List.length_append, show echoAt j false _ = textOf _ from rfl, hText] at hLength
              refine (ih true n fuel hNext).trans (and_congr_right fun _ => ?_)
              have hStart : str.length - (textOf (List.replicate (n + 1) j ++ es)).length =
                  str.length - (textOf (j :: (List.replicate (n + 1) j ++ es))).length +
                    2 * j.name.length + 6 := by
                omega
              have hCut : str.length - (echoAt j true (List.replicate (n + 1) j ++ es)).length =
                  str.length - (textOf (j :: (List.replicate (n + 1) j ++ es))).length +
                    j.name.length + 3 := by
                omega
              rw [hStart, show (!false) = true from rfl, echoLeft, if_neg Bool.false_ne_true, hCut]
              exact (and_iff_right (by omega)).symm
        · refine iff_of_false (fun hOk => hx (EnvItem.eq_of_call (head_of_goOn hOk))) ?_
          exact fun hAll => hx (hAll.1 x List.mem_cons_self)

theorem strchr_item (e : EnvItem) (rest : CStr) :
    strchr (e.value ++ 34 :: 59 :: rest) 59 =
      some (59 :: if 59 ∈ e.value then behindFirst 59 e.value ++ 34 :: 59 :: rest else rest) := by
  split_ifs with hMem
  · obtain ⟨x, u, hValue, hx⟩ := List.eq_append_cons_of_mem hMem
    rw [hValue, (upTo_append hx).2, List.append_assoc, strchr_append hx, List.cons_append, strchr_self]
  · rw [strchr_append hMem, strchr, if_neg (by decide), strchr_self]

theorem goOn_last_iff {u : CStr} (h : Pointer str (afterRest u []) fuel) (hu : 34 ∉ u) :
    goOn str fuel (afterRest u []) len calls = .ok calls ↔ len ≤ 1 ∨ Quiet u := by
  obtain ⟨fuel, rfl⟩ : ∃ k, fuel = k + 1 := ⟨fuel - 1, by have := h.fuel; omega⟩
  obtain ⟨pre, hStr, hPre⟩ := h.split
  by_cases hLen : len ≤ 1
  · simp [goOn_of_le hLen, hLen]
  · rw [goOn, if_pos (by omega)]
    simp only [hLen, false_or]
    by_cases hMem : 61 ∈ u
    · obtain ⟨t, w, rfl, ht⟩ := List.eq_append_cons_of_mem hMem
      have hText : afterRest (t ++ 61 :: w) [] = t ++ 61 :: (w ++ 34 :: [59]) := by
        simp [afterRest, textOf]
      have hw : 34 ∉ w := fun hIn => hu (by simp [hIn])
      have hHead := @parseEnvHead_eq pre t w [59] hPre ht hw (hText ▸ h.quiet)
      rw [← hText, ← hStr] at hHead
      have hEnd : parseEnvEnd str [59] = .ok none := rfl
      rw [setenvLoop, hHead, Quiet, (upTo_append ht).1]
      simp only [hMem, forall_const]
      split_ifs with hLong hBad
      · have hNot : 0 ≤ tokenLength t ∧ tokenLength t ≠ cmdSize := ⟨by omega, by omega⟩
        exact iff_of_true rfl hNot
      · exact iff_of_false (by simp [bind, Except.bind]) (by omega)
      · simp only [bind, Except.bind, hEnd]
        exact iff_of_true rfl ⟨by omega, by omega⟩
    · have hHead : parseEnvHead str (afterRest u []) = .ok none := by
        rw [parseEnvHead, parseComment, strchr_eq_none h.quiet]
        simp only [bind, Except.bind]
        rw [strchr_eq_none (by simp [afterRest, textOf, hMem])]
        rfl
      rw [setenvLoop_stop hHead]
      exact iff_of_true rfl fun hIn => absurd hIn hMem

end

end Fire3.Fastboot

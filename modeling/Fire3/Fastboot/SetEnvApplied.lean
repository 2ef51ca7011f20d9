import Fire3.Fastboot.SetEnvItems

/-!
`fb_setenv` on a text of settings: it makes the calls of the text, and no others, exactly under
the condition `Reads`.
-/

namespace Fire3.Fastboot
open CString

section
variable {str : CStr} {fuel : Nat} {len : Int} {calls : List (CStr × CStr)}

theorem length_strip (t : CStr) : (strip t).length = (tokenLength t).toNat := by
  have hFits : (tokenLength t).toNat ≤ t.length - leading t := by
    unfold tokenLength
    omega
  rw [strip, List.length_take, List.length_drop, Nat.min_eq_left hFits]

theorem tokenLength_of_strip {t : CStr} {e : EnvItem} (h : strip t = e.name) :
    tokenLength t = e.name.length := by
  grind [List.length_pos_iff, e.name_nonempty, length_strip]

theorem goOn_end (str : CStr) (fuel : Nat) (len : Int) (calls : List (CStr × CStr)) :
    goOn str fuel [] len calls = .ok calls := by
  unfold goOn
  split
  · cases fuel with
    | zero => rfl
    | succ fuel => exact setenvLoop_stop rfl
  · rfl

theorem goOn_rest_iff {u : CStr} {e : EnvItem} {es : List EnvItem}
    (h : Pointer str (afterRest u (e :: es)) fuel) (hu : 34 ∉ u) :
    goOn str fuel (afterRest u (e :: es)) len calls = .ok (calls ++ (e :: es).map EnvItem.call) ↔
      1 < len ∧ 61 ∈ u ∧ strip (upTo 61 u) = e.name ∧ e.SelfLike ∧ (∀ x ∈ es, x = e) ∧
        Echo e.name.length false es.length (str.length - (textOf (e :: es)).length)
          (len - (str.length - (textOf (e :: es)).length : Nat)) := by
  obtain ⟨fuel, rfl⟩ : ∃ k, fuel = k + 1 := ⟨fuel - 1, by have := h.fuel; omega⟩
  by_cases hLen : len ≤ 1
  · rw [goOn_of_le hLen]
    exact iff_of_false (by simp) fun hAll => by omega
  rw [goOn, if_pos (by omega)]
  by_cases hMem : 61 ∈ u
  · obtain ⟨t, w, rfl, ht⟩ := List.eq_append_cons_of_mem hMem
    have hw : 34 ∉ w := fun hIn => hu (by simp [hIn])
    have hName := e.name_length
    have hNext : Pointer str (textOf (e :: es)) fuel :=
      h.next ⟨t ++ 61 :: (w ++ [34]), by simp [afterRest]⟩
    rw [setenvLoop_rest h ht hw, (upTo_append ht).1]
    split_ifs with hLong hBad
    · refine iff_of_false (by simp) fun hAll => ?_
      have hToken := tokenLength_of_strip hAll.2.2.1
      rw [cmdSize] at hLong
      omega
    · refine iff_of_false (by simp) fun hAll => ?_
      have hToken := tokenLength_of_strip hAll.2.2.1
      rw [cmdSize] at hBad
      omega
    · constructor
      · intro hOk
        obtain ⟨hStrip, hSelf⟩ := Prod.mk.inj (head_of_goOn hOk)
        have hCall : (strip t, 59 :: (e.name ++ [61])) = e.call := Prod.ext hStrip.symm hSelf.symm
        rw [hCall, List.map_cons, List.append_cons calls e.call (es.map EnvItem.call)] at hOk
        obtain ⟨hAll, hEcho⟩ := (@goOn_echo_iff _ _ _ _ e hSelf es false 0 hNext).mp hOk
        exact ⟨by omega, hMem, hStrip.symm, hSelf, hAll, hEcho⟩
      · rintro ⟨-, -, hStrip, hSelf, hAll, hEcho⟩
        have hCall : (strip t, 59 :: (e.name ++ [61])) = e.call := Prod.ext hStrip hSelf.symm
        rw [hCall, List.map_cons, List.append_cons calls e.call (es.map EnvItem.call)]
        exact (@goOn_echo_iff _ _ _ _ e hSelf es false 0 hNext).mpr ⟨hAll, hEcho⟩
  · refine iff_of_false (fun hOk => ?_) fun hAll => hMem hAll.2.1
    obtain hNone | ⟨cmd, arg, hQuote, rest, hRest⟩ := quote_mem_of_rest h hMem hOk
    · simp at hNone
    · -- a name with a quote in it is not in the text
      rw [List.append_assoc] at hRest
      have hFirst := (List.cons.inj (List.append_cancel_left hRest)).1
      have hCmd : cmd = e.name := congrArg Prod.fst hFirst
      exact notMem_name e (show isAlnum 34 = false by decide) (hCmd ▸ hQuote)

theorem length_cut {e : EnvItem} (h : 59 ∈ e.value) :
    e.text.length = e.cut + (behindFirst 59 e.value).length + 2 := by
  obtain ⟨x, u, hValue, hx⟩ := List.eq_append_cons_of_mem h
  grind [length_text, EnvItem.cut, upTo_append, List.length_append, List.length_cons]

theorem offset_next {e : EnvItem} {es : List EnvItem} (h : Pointer str (textOf (e :: es)) (fuel + 1)) :
    str.length - (textOf es).length =
      str.length - (textOf (e :: es)).length + e.text.length := by
  obtain ⟨pre, rfl, -⟩ := h.split
  rw [textOf_cons]
  simp only [List.length_append]
  omega

theorem setenvLoop_plain {e : EnvItem} {es : List EnvItem}
    (h : Pointer str (textOf (e :: es)) (fuel + 1)) (hMem : 59 ∉ e.value) :
    Pointer str (textOf es) fuel ∧
      setenvLoop str (fuel + 1) (textOf (e :: es)) len calls =
        goOn str fuel (textOf es)
          (len - (str.length - (textOf (e :: es)).length + e.text.length : Nat))
          (calls ++ [e.call]) := by
  have hItem := @setenvLoop_item str fuel len calls e (textOf es) _ (textOf_cons e es ▸ h)
    (strchr_item e (textOf es))
  rw [if_neg hMem, offset_next h, ← textOf_cons] at hItem
  exact ⟨h.next ⟨e.name ++ 61 :: 34 :: (e.value ++ [34]), by simp [textOf_cons, EnvItem.text]⟩, hItem⟩

theorem setenvLoop_cut {e : EnvItem} {es : List EnvItem}
    (h : Pointer str (textOf (e :: es)) (fuel + 1)) (hMem : 59 ∈ e.value) :
    Pointer str (afterRest (behindFirst 59 e.value) es) fuel ∧
      setenvLoop str (fuel + 1) (textOf (e :: es)) len calls =
        goOn str fuel (afterRest (behindFirst 59 e.value) es)
          (len - (str.length - (textOf (e :: es)).length + e.cut : Nat)) (calls ++ [e.call]) := by
  have hItem := @setenvLoop_item str fuel len calls e (textOf es) _ (textOf_cons e es ▸ h)
    (strchr_item e (textOf es))
  have hOff : str.length - (afterRest (behindFirst 59 e.value) es).length =
      str.length - (textOf (e :: es)).length + e.cut := by
    have hNext := offset_next h
    have hCut := length_cut hMem
    grind [afterRest, textOf_cons, List.length_append, List.length_cons]
  rw [if_pos hMem, ← textOf_cons] at hItem
  rw [← hOff]
  refine ⟨h.next ?_, hItem⟩
  obtain ⟨x, u, hValue, hx⟩ := List.eq_append_cons_of_mem hMem
  refine ⟨e.name ++ 61 :: 34 :: x, ?_⟩
  rw [hValue, (upTo_append hx).2]
  simp [textOf_cons, EnvItem.text, hValue, afterRest]

theorem setenvLoop_items_iff {e : EnvItem} {es : List EnvItem}
    (h : Pointer str (textOf (e :: es)) (fuel + 1)) :
    setenvLoop str (fuel + 1) (textOf (e :: es)) len calls =
        .ok (calls ++ (e :: es).map EnvItem.call) ↔
      Reads len (str.length - (textOf (e :: es)).length) e es := by
  have hQuote (e : EnvItem) : 34 ∉ behindFirst 59 e.value := fun hIn =>
    e.value_plain.2.1 ((List.dropWhile_sublist _).subset (List.mem_of_mem_drop hIn))
  induction es generalizing e len calls fuel with
  | nil =>
      rw [Reads]
      by_cases hMem : 59 ∈ e.value
      · obtain ⟨hNext, hStep⟩ := @setenvLoop_cut str fuel len calls e [] h hMem
        rw [hStep]
        simp only [hMem, forall_const]
        exact goOn_last_iff hNext (hQuote e)
      · rw [(setenvLoop_plain h hMem).2]
        exact iff_of_true (goOn_end ..) fun hIn => absurd hIn hMem
  | cons e' es ih =>
      rw [Reads, List.map_cons, List.append_cons calls e.call]
      split_ifs with hMem
      · obtain ⟨hNext, hStep⟩ := @setenvLoop_cut str fuel len calls e (e' :: es) h hMem
        rw [hStep, ← offset_next h]
        exact goOn_rest_iff hNext (hQuote e)
      · obtain ⟨hNext, hStep⟩ := @setenvLoop_plain str fuel len calls e (e' :: es) h hMem
        rw [hStep]
        by_cases hLen : len - (str.length - (textOf (e :: e' :: es)).length + e.text.length : Nat) ≤ 1
        · rw [goOn_of_le hLen]
          exact iff_of_false (by simp) fun hAll => by omega
        · obtain ⟨fuel, rfl⟩ : ∃ k, fuel = k + 1 := ⟨fuel - 1, by have := hNext.fuel; omega⟩
          rw [goOn, if_pos (by omega), ← offset_next h]
          exact (ih hNext).trans (and_iff_right (by rw [offset_next h]; omega)).symm

end

/-- All settings of the text are made, in order, and the function succeeds. -/
def Applied (es : List EnvItem) : Prop :=
  fbSetenv (textOf es) (textOf es).length = .ok (es.map EnvItem.call, 0)

theorem setenv_applied_iff (e : EnvItem) (es : List EnvItem) :
    Applied (e :: es) ↔ Reads (textOf (e :: es)).length 0 e es := by
  have hPointer : Pointer (textOf (e :: es)) (textOf (e :: es)) ((textOf (e :: es)).length + 1) :=
    ⟨⟨[], rfl, by simp⟩, Nat.lt_succ_self _, hash_notMem_textOf _⟩
  have hItems := @setenvLoop_items_iff _ _ (textOf (e :: es)).length [] e es hPointer
  rw [Nat.sub_self, List.nil_append] at hItems
  rw [← hItems, Applied, fbSetenv, bind_eq_ok_iff]
  constructor
  · rintro ⟨calls, hLoop, hCalls⟩
    rw [hLoop, (Prod.mk.inj (Except.ok.inj hCalls)).1]
  · intro hLoop
    exact ⟨_, hLoop, rfl⟩

def shortItem (c d : UInt8) (hc : isAlnum c = true) (hd : isDigit d = true) : EnvItem where
  name := [c]
  value := [d]
  name_nonempty := by simp
  name_length := by simp
  name_alnum := by simpa using hc
  value_length := by simp
  value_plain := by
    refine ⟨?_, ?_, ?_⟩ <;>
    · rw [List.mem_singleton]
      rintro rfl
      exact absurd hd (by decide)
  value_first := by
    have hAlnum : isAlnum d = true := by simp [isAlnum, hd]
    rintro b ⟨⟩
    exact isBlank_of_isAlnum hAlnum
  value_last := by
    have hAlnum : isAlnum d = true := by simp [isAlnum, hd]
    rintro b ⟨⟩
    exact isSpace_of_isBlank (isBlank_of_isAlnum hAlnum)

def threeItems : List EnvItem :=
  [shortItem 97 49 (by decide) (by decide), shortItem 98 50 (by decide) (by decide),
    shortItem 99 51 (by decide) (by decide)]

theorem setenv_loses_third : ¬Applied threeItems := by
  have hTwo : fbSetenv (textOf threeItems) (textOf threeItems).length =
      .ok ((threeItems.take 2).map EnvItem.call, 0) := by
    rfl
  rw [Applied, hTwo]
  decide

end Fire3.Fastboot

import Fire3.Base.CString

/-!
The string functions on texts put together from tokens: the searches find the delimiter
behind a token, and a conversion stops behind the digits of a numeral.
-/

namespace CString

variable {c : UInt8} {s pat rest ds : CStr} {base : Nat}

theorem strchr_append {t : CStr} (h : c ∉ t) (rest : CStr) :
    strchr (t ++ rest) c = strchr rest c := by
  induction t with
  | nil => rfl
  | cons x t ih =>
      rw [List.mem_cons, not_or] at h
      rw [List.cons_append, strchr, if_neg (Ne.symm h.1), ih h.2]

theorem strchr_self (c : UInt8) (rest : CStr) : strchr (c :: rest) c = some (c :: rest) := by
  rw [strchr, if_pos rfl]

theorem strchr_eq_none (h : c ∉ s) : strchr s c = none := by
  simpa [strchr] using strchr_append h []

theorem strstr_cons (c : UInt8) (s pat : CStr) :
    strstr (c :: s) pat = if pat <+: c :: s then some (c :: s) else strstr s pat := by
  by_cases h : pat <+: c :: s
  · rw [if_pos h, strstr, List.tails_cons, List.find?_cons_of_pos (by simpa using h)]
  · rw [if_neg h, strstr, List.tails_cons, List.find?_cons_of_neg (by simpa using h)]
    rfl

theorem strstr_self (h : pat ≠ []) (rest : CStr) :
    strstr (pat ++ rest) pat = some (pat ++ rest) := by
  obtain ⟨c, ps, rfl⟩ := List.exists_cons_of_ne_nil h
  simp [List.cons_append, strstr_cons, List.prefix_append]

theorem behindFirst_self (h : pat ≠ []) (rest : CStr) :
    behindFirst pat (pat ++ rest) = some rest := by
  rw [behindFirst, strstr_self h, Option.map_some, List.drop_left]

theorem mem_withoutBlanks :
    c ∈ withoutBlanks s ↔ c ∈ s ∧ isBlank c = false := by
  simp [withoutBlanks]

/-- A text without the pattern in front does not matter, unless the pattern could go on in what
is behind it. -/
theorem strstr_append (h : ¬pat <:+: s)
    (hRest : ∀ c ∈ rest.head?, c ∉ pat.tail) : strstr (s ++ rest) pat = strstr rest pat := by
  induction s with
  | nil => rfl
  | cons x s ih =>
      have hTail : ¬pat <:+: s := fun hIn => h (hIn.trans (List.suffix_cons x s).isInfix)
      rw [List.cons_append, strstr_cons, if_neg, ih hTail]
      rintro ⟨behind, hSplit⟩
      rw [← List.cons_append, List.append_eq_append_iff] at hSplit
      rcases hSplit with ⟨v, hv, -⟩ | ⟨v, hv, hBehind⟩
      · grind [List.prefix_append]
      · cases v with
        | nil =>
            grind
        | cons c v =>
            rw [hBehind, List.cons_append, List.head?_cons] at hRest
            exact hRest c rfl (by simp [hv])

theorem strstr_eq_none_iff : strstr s pat = none ↔ ¬pat <:+: s := by
  simp only [strstr, List.find?_eq_none, List.mem_tails, List.isPrefixOf_iff_prefix,
    List.infix_iff_prefix_suffix, not_exists, not_and]
  grind

theorem strstr_longest {r : CStr} (h : strstr s pat = some r) :
    r <:+ s ∧ pat <+: r ∧ ∀ u, u <:+ s → pat <+: u → u.length ≤ r.length := by
  induction s with
  | nil =>
      have hFound : pat <+: r := by simpa using List.find?_some h
      obtain rfl : r = [] := by simpa using List.mem_of_find?_eq_some h
      grind
  | cons c s ih =>
      rw [strstr_cons] at h
      split at h
      · grind
      · rename_i hLater
        obtain ⟨hSuffix, hFound, hLongest⟩ := ih h
        grind [List.suffix_cons, List.suffix_cons_iff]

def numeral (base : Nat) (ds : CStr) : Nat := ds.foldl (fun v c => v * base + digitValue c) 0

def IsDigitOf (base : Nat) (c : UInt8) : Prop := isXDigit c = true ∧ digitValue c < base

theorem le_foldl_digits (hBase : 0 < base) (ds : CStr) (r : Nat) :
    r ≤ ds.foldl (fun v c => v * base + digitValue c) r := by
  induction ds generalizing r with
  | nil => exact Nat.le_refl r
  | cons c ds ih =>
      have hStep : r ≤ r * base + digitValue c :=
        Nat.le_trans (Nat.le_mul_of_pos_right r hBase) (Nat.le_add_right ..)
      exact Nat.le_trans hStep (ih _)

theorem strtoulDigits_append_stop {r : Nat} (hBase : 0 < base)
    (hDigits : ∀ c ∈ ds, IsDigitOf base c) (hStop : ∀ c ∈ rest.head?, ¬IsDigitOf base c)
    (hFits : ds.foldl (fun v c => v * base + digitValue c) r < 2 ^ 64) :
    strtoulDigits base (ds ++ rest) r = ds.foldl (fun v c => v * base + digitValue c) r := by
  induction ds generalizing r with
  | nil =>
      cases rest with
      | nil => rfl
      | cons c rest =>
          rw [List.nil_append, strtoulDigits, if_neg (show ¬(_ ∧ _) from hStop c rfl)]
          rfl
  | cons c ds ih =>
      rw [List.forall_mem_cons] at hDigits
      -- the value only grows, so nothing wraps before the end
      have hStep : (r * base + digitValue c) % 2 ^ 64 = r * base + digitValue c :=
        Nat.mod_eq_of_lt (Nat.lt_of_le_of_lt (le_foldl_digits hBase ds _) hFits)
      rw [List.cons_append, strtoulDigits, if_pos (show _ ∧ _ from hDigits.1), hStep]
      exact ih hDigits.2 hFits

theorem simpleStrtoul_numeral (hBase : 0 < base)
    (hDigits : ∀ c ∈ ds, IsDigitOf base c)
    (hStop : ∀ c ∈ rest.head?, ¬IsDigitOf base c ∧ c ≠ 120) (hSome : ds ≠ [])
    (hFits : numeral base ds < 2 ^ 64) : simpleStrtoul (ds ++ rest) base = numeral base ds := by
  have hStop' := fun c hc => (hStop c hc).1
  have hLoop := strtoulDigits_append_stop hBase hDigits hStop' hFits
  obtain ⟨d, ds, rfl⟩ := List.exists_cons_of_ne_nil hSome
  have hZero : digitValue 48 = 0 := by decide
  rw [List.forall_mem_cons] at hDigits
  rw [List.cons_append] at hLoop ⊢
  unfold simpleStrtoul
  split
  · -- the second character is a digit or the one behind the numeral, not the `x`
    rename_i c cs hShape
    exfalso
    have hNext : (ds ++ rest).head? = some 120 := by
      rw [(List.cons.inj hShape).2]
      rfl
    cases ds with
    | nil => exact (hStop 120 hNext).2 rfl
    | cons x ds =>
        have hx : x = 120 := by simpa using hNext
        exact absurd (hDigits.2 x List.mem_cons_self).1 (by rw [hx]; decide)
  · rename_i cs _ hShape
    obtain ⟨rfl, rfl⟩ := List.cons.inj hShape
    rw [if_neg (Nat.ne_of_gt hBase)]
    rw [numeral, List.foldl_cons, hZero] at hFits ⊢
    rw [Nat.zero_mul] at hFits ⊢
    exact strtoulDigits_append_stop hBase hDigits.2 hStop' hFits
  · rw [if_neg (Nat.ne_of_gt hBase)]
    exact hLoop

theorem simpleStrtoul_hex (base : Nat) (hDigits : ∀ c ∈ ds, isXDigit c = true)
    (hStop : ∀ c ∈ rest.head?, isXDigit c = false) (hSome : ds ≠ [])
    (hFits : numeral 16 ds < 2 ^ 64) :
    simpleStrtoul (48 :: 120 :: ds ++ rest) base = numeral 16 ds := by
  have hLoop : strtoulDigits 16 (ds ++ rest) 0 = numeral 16 ds :=
    strtoulDigits_append_stop (by decide) (fun c hc => ⟨hDigits c hc, digitValue_lt (hDigits c hc)⟩)
      (fun c hc hDigit => Bool.false_ne_true ((hStop c hc).symm.trans hDigit.1)) hFits
  obtain ⟨d, ds, rfl⟩ := List.exists_cons_of_ne_nil hSome
  rw [List.cons_append, List.cons_append, List.cons_append, simpleStrtoul,
    if_pos (hDigits d List.mem_cons_self)]
  exact hLoop

end CString

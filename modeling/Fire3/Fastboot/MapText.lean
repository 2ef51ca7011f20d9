import Fire3.Base.Tokens
import Fire3.Fastboot.PartMap

/-!
The text of a partition map, and what the parsers of one entry make of it.

A token is cut at a length that was counted for more than the token. A number is read
right unless this length reaches the size of the buffer.
-/

namespace Fire3.Fastboot
open CString

/-- A hexadecimal number of 64 bits, with or without the prefix `0x`. -/
structure HexNumber where
  prefixed : Bool
  digits : CStr
  isHex : ∀ c ∈ digits, isXDigit c = true
  nonempty : digits ≠ []
  fits : numeral 16 digits < 2 ^ 64

namespace HexNumber
variable (n : HexNumber)

def text : CStr := if n.prefixed then 48 :: 120 :: n.digits else n.digits

def value : Nat := numeral 16 n.digits

theorem simpleStrtoul_text {rest : CStr} (hStop : ∀ c ∈ rest.head?, isXDigit c = false ∧ c ≠ 120) :
    simpleStrtoul (n.text ++ rest) 16 = n.value := by
  unfold text value
  split
  · grind [simpleStrtoul_hex, n.isHex, n.nonempty, n.fits]
  · refine simpleStrtoul_numeral (by decide) (fun c hc => ⟨n.isHex c hc, digitValue_lt (n.isHex c hc)⟩)
      (fun c hc => ⟨fun hDigit => ?_, (hStop c hc).2⟩) n.nonempty n.fits
    exact Bool.false_ne_true ((hStop c hc).1.symm.trans hDigit.1)

theorem notMem_text {c : UInt8} (h : isXDigit c = false) (hx : c ≠ 120) : c ∉ n.text := by
  have hDigits : c ∉ n.digits := fun hc => Bool.false_ne_true (h.symm.trans (n.isHex c hc))
  have hZero : c ≠ 48 := by
    rintro rfl
    exact absurd h (by decide)
  unfold text
  split <;> simp [hDigits, hZero, hx]

end HexNumber

/-- An entry of the map as it is written: `text` has the characters of the entry with blanks
between them. -/
structure MapEntry where
  no : CStr
  name : CStr
  fs : CStr × FsType
  start : HexNumber
  length : HexNumber
  text : CStr
  no_digits : ∀ c ∈ no, isDigit c = true
  no_nonempty : no ≠ []
  no_lt : numeral 10 no < 3
  name_length : name.length ≤ 31
  name_plain : 0 ∉ name ∧ 35 ∉ name ∧ 58 ∉ name
  name_free : name ∉ fReservePart
  fs_mem : fs ∈ fPartFs
  fs_supported : fs.2.supported = true
  spelled : sortString text = ascii "flash=" ++ (ascii "mmc" ++ 44 :: (no ++ 58 :: (name ++
    58 :: (fs.1 ++ 58 :: (start.text ++ 44 :: (length.text ++ [59]))))))

namespace MapEntry
variable (e : MapEntry)

def body (rest : CStr) : CStr :=
  ascii "mmc" ++ 44 :: (e.no ++ 58 :: (e.name ++ 58 :: (e.fs.1 ++ 58 :: (e.start.text ++
    44 :: (e.length.text ++ 59 :: rest)))))

/-- How much `parse_string` is to copy for the length: as many characters as the start and the
length have together, without blanks at the end of these. -/
def lengthCut (behind : Nat → UInt8) (rest : CStr) : Nat :=
  trimmed behind (e.length.text ++ 59 :: rest) (e.start.text.length + 1 + e.length.text.length)

def readNo : Int := if e.no.length < 28 then numeral 10 e.no else 0

def readStart : Nat := if e.start.text.length < 64 then e.start.value else 0

def read (behind : Nat → UInt8) (rest : CStr) (partNumCnt : Nat) : Option FlashPart :=
  if e.no.length = 28 ∨ e.start.text.length = 64 ∨ e.lengthCut behind rest = 64 then none
  else some
    { partition := e.name
      devNo := e.readNo
      start := e.readStart
      length := if e.lengthCut behind rest < 64 then e.length.value else e.readStart
      fsType := e.fs.2
      partNum := if e.fs.2.inMask then some (partNumCnt + 1) else none }

structure Holds (part : FlashPart) (e : MapEntry) : Prop where
  name : part.partition = e.name
  devNo : part.devNo = numeral 10 e.no
  start : part.start = e.start.value
  length : part.length = e.length.value
  fsType : part.fsType = e.fs.2

def Legible (behind : Nat → UInt8) (rest : CStr) (e : MapEntry) : Prop :=
  (e.no.length < 28 ∨ 28 < e.no.length ∧ numeral 10 e.no = 0) ∧
    (e.start.text.length < 64 ∨ 64 < e.start.text.length ∧ e.start.value = 0) ∧
    (e.lengthCut behind rest < 64 ∨ 64 < e.lengthCut behind rest ∧ e.length.value = e.start.value)

instance decidableLegible (behind : Nat → UInt8) (rest : CStr) (e : MapEntry) :
    Decidable (Legible behind rest e) :=
  inferInstanceAs (Decidable (_ ∧ _ ∧ _))

theorem read_holds_iff (behind : Nat → UInt8) (rest : CStr) (cnt : Nat) :
    (∃ part, e.read behind rest cnt = some part ∧ Holds part e) ↔ Legible behind rest e := by
  have hHolds : ∀ part, Holds part e ↔ part.partition = e.name ∧ part.devNo = numeral 10 e.no ∧
      part.start = e.start.value ∧ part.length = e.length.value ∧ part.fsType = e.fs.2 :=
    fun part => ⟨fun ⟨a, b, c, d, f⟩ => ⟨a, b, c, d, f⟩, fun ⟨a, b, c, d, f⟩ => ⟨a, b, c, d, f⟩⟩
  unfold read Legible
  split
  · grind
  · rename_i hFits
    simp only [Option.some.injEq, exists_eq_left', hHolds, true_and, and_true, readNo, readStart]
    split <;> split <;> split <;> omega

end MapEntry

section
variable {behind : Nat → UInt8} {s : CStr}

theorem trimmed_of_le (hs : ∀ c ∈ s, isBlank c = false) {n : Nat} (hn : n ≤ s.length + 1) :
    trimmed behind s n = n := by
  cases n with
  | zero => rfl
  | succ n =>
      have hByte : isBlank (byteAt behind s n) = false := by
        unfold byteAt
        split
        · decide
        · grind
      rw [trimmed, if_neg]
      rintro (h | h) <;> rw [h] at hByte <;> exact absurd hByte (by decide)

theorem lt_trimmed {k n : Nat} (hs : ∀ c ∈ s, isBlank c = false) (hk : k < s.length) (hkn : k < n) :
    k < trimmed behind s n := by
  induction n with
  | zero => omega
  | succ n ih =>
      rcases Nat.lt_or_ge k n with hLt | hGe
      · rw [trimmed]
        split
        · exact ih hLt
        · omega
      · have hEq : n = k := by omega
        rw [hEq, trimmed_of_le hs (by omega)]
        exact Nat.lt_succ_self k

variable (behind)

theorem parseString_of_token {t rest : CStr} (hs : ∀ c ∈ t ++ rest, isBlank c = false) (len : Nat) :
    parseString behind (t ++ rest) t.length len =
      if t.length > len then .ok none
      else if t.length = len then .error .strOverflow
      else .ok (some t) := by
  have hl : trimmed behind (t ++ rest) t.length = t.length :=
    trimmed_of_le hs (by rw [List.length_append]; omega)
  rw [parseString, hl, List.take_left]

theorem parseString_token (len : Nat) {t rest : CStr} (hs : ∀ c ∈ t ++ rest, isBlank c = false)
    (h : t.length < len) : parseString behind (t ++ rest) t.length len = .ok (some t) := by
  rw [parseString_of_token behind hs, if_neg (by omega), if_neg (by omega)]

theorem length_sub_of_token (t rest : CStr) : (t ++ rest).length - rest.length = t.length := by
  rw [List.length_append, Nat.add_sub_cancel]

theorem toInt_of_lt {n : Nat} (h : n < 3) : toInt n = n ∧ ¬toInt n ≥ mmcMax := by
  have hAll : ∀ n < 3, toInt n = n ∧ ¬toInt n ≥ mmcMax := by decide
  exact hAll n h

theorem notMem_of_isDigit {no : CStr} (hDigits : ∀ c ∈ no, isDigit c = true) {c : UInt8}
    (h : isDigit c = false) : c ∉ no :=
  fun hc => Bool.false_ne_true (h.symm.trans (hDigits c hc))

theorem parsePartDevice_body {no rest : CStr} (hDigits : ∀ c ∈ no, isDigit c = true)
    (hSome : no ≠ []) (hLt : numeral 10 no < 3) (hRest : 3 ≤ rest.length)
    (hs : ∀ c ∈ ascii "mmc" ++ 44 :: (no ++ 58 :: rest), isBlank c = false) :
    parsePartDevice behind (ascii "mmc" ++ 44 :: (no ++ 58 :: rest)) =
      if no.length = 28 then .error .strOverflow
      else .ok (if no.length < 28 then numeral 10 no else 0, rest) := by
  have hColon : strchr (ascii "mmc" ++ 44 :: (no ++ 58 :: rest)) 58 = some (58 :: rest) := by
    rw [strchr_append (by decide), strchr, if_neg (by decide),
      strchr_append (notMem_of_isDigit hDigits (by decide)), strchr_self]
  have hComma :
      strchr (ascii "mmc" ++ 44 :: (no ++ 58 :: rest)) 44 = some (44 :: (no ++ 58 :: rest)) := by
    rw [strchr_append (by decide), strchr_self]
  have hDevice := parseString_token behind 32 (t := ascii "mmc") hs (by decide)
  have hLen : (ascii "mmc" ++ 44 :: (no ++ 58 :: rest)).length - (58 :: rest).length =
      no.length + 4 := by
    have hName : (ascii "mmc").length = 3 := by decide
    grind
  have hNo : ∀ c ∈ no ++ 58 :: rest, isBlank c = false := fun c hc =>
    hs c (List.mem_append_right _ (List.mem_cons_of_mem _ hc))
  have hCut : trimmed behind (no ++ 58 :: rest) (no.length + 4) = no.length + 4 :=
    trimmed_of_le hNo (by rw [List.length_append, List.length_cons]; omega)
  have hText : (no ++ 58 :: rest).take (no.length + 4) = no ++ 58 :: rest.take 3 := by
    rw [List.take_append, List.take_of_length_le (by omega), Nat.add_sub_cancel_left]
    rfl
  have hValue : simpleStrtoul (no ++ 58 :: rest.take 3) 10 = numeral 10 no := by
    refine simpleStrtoul_numeral (by decide) (fun c hc => (isDigit_iff c).mpr (hDigits c hc)) ?_ hSome
      (by omega)
    rintro c ⟨⟩
    exact ⟨fun hDigit => absurd hDigit.1 (by decide), by decide⟩
  have hOther : simpleStrtoul (ascii "mmc") 10 = 0 := by decide
  obtain ⟨hInt, hMax⟩ := toInt_of_lt hLt
  unfold parsePartDevice
  rw [hColon, hComma]
  simp only [hLen, length_sub_of_token, hDevice, bind, Except.bind, pure, Except.pure]
  rw [if_neg (not_not_intro rfl), List.drop_succ_cons, List.drop_zero, parseString, hCut]
  rcases Nat.lt_trichotomy no.length 28 with hShort | hFull | hLong
  · rw [if_neg (by omega), if_neg (by omega), if_neg (by omega), if_pos hShort, hText]
    simp only [Option.getD_some, hValue]
    rw [if_neg hMax, hInt]
    rfl
  · rw [if_neg (by omega), if_pos (by omega), if_pos hFull]
  · rw [if_pos (by omega), if_neg (by omega), if_neg (by omega)]
    simp only [Option.getD_none, hOther]
    rfl

theorem parsePartPartition_body (names : List CStr) {name rest : CStr} (hColon : 58 ∉ name)
    (hLength : name.length ≤ 31) (hFree : name ∉ fReservePart)
    (hs : ∀ c ∈ name ++ 58 :: rest, isBlank c = false) :
    parsePartPartition behind names (name ++ 58 :: rest) =
      if name ∈ names then .error .rejected else .ok (name, rest) := by
  have hToken := parseString_token behind 32 hs (by omega)
  unfold parsePartPartition
  rw [strchr_append hColon, strchr_self]
  simp only [length_sub_of_token, hToken, Option.getD_some, bind, Except.bind, pure, Except.pure]
  rw [if_neg hFree]
  rfl

theorem fPartFs_facts : ∀ fs ∈ fPartFs,
    fPartFs.lookup fs.1 = some fs.2 ∧ 58 ∉ fs.1 ∧ fs.1.length < 16 := by
  decide

theorem parsePartFs_body {fs : CStr × FsType} {rest : CStr} (hMem : fs ∈ fPartFs)
    (hSupported : fs.2.supported = true) (hs : ∀ c ∈ fs.1 ++ 58 :: rest, isBlank c = false) :
    parsePartFs behind (fs.1 ++ 58 :: rest) = .ok (fs.2, rest) := by
  obtain ⟨hLookup, hColon, hLength⟩ := fPartFs_facts fs hMem
  have hToken := parseString_token behind 16 hs hLength
  unfold parsePartFs
  rw [strchr_append hColon, strchr_self]
  simp only [length_sub_of_token, hToken, Option.getD_some, hLookup, hSupported, bind, Except.bind,
    pure, Except.pure]
  rfl

omit behind in
theorem strchr_address (start length : HexNumber) (rest : CStr) :
    strchr (start.text ++ 44 :: (length.text ++ 59 :: rest)) 59 = some (59 :: rest) ∧
      strchr (start.text ++ 44 :: (length.text ++ 59 :: rest)) 44 =
        some (44 :: (length.text ++ 59 :: rest)) := by
  constructor
  · rw [strchr_append (start.notMem_text (by decide) (by decide)), strchr, if_neg (by decide),
      strchr_append (length.notMem_text (by decide) (by decide)), strchr_self]
  · rw [strchr_append (start.notMem_text (by decide) (by decide)), strchr_self]

omit behind in
theorem simpleStrtoul_cut {length : HexNumber} {rest : CStr} {l : Nat}
    (hLt : length.text.length < l) :
    simpleStrtoul ((length.text ++ 59 :: rest).take l) 16 = length.value := by
  obtain ⟨k, hk⟩ : ∃ k, l = length.text.length + (k + 1) := ⟨l - length.text.length - 1, by omega⟩
  rw [hk, List.take_append, List.take_of_length_le (by omega), Nat.add_sub_cancel_left,
    List.take_succ_cons]
  refine length.simpleStrtoul_text ?_
  rintro c ⟨⟩
  decide

theorem parsePartAddress_body {start length : HexNumber} {rest : CStr}
    (hs : ∀ c ∈ start.text ++ 44 :: (length.text ++ 59 :: rest), isBlank c = false) {l : Nat}
    (hl : trimmed behind (length.text ++ 59 :: rest) (start.text.length + 1 + length.text.length) = l) :
    parsePartAddress behind (start.text ++ 44 :: (length.text ++ 59 :: rest)) =
      if start.text.length = 64 ∨ l = 64 then .error .strOverflow
      else
        let first := if start.text.length < 64 then start.value else 0
        .ok ((first, if l < 64 then length.value else first), rest) := by
  obtain ⟨hEnd, hComma⟩ := strchr_address start length rest
  have hLen : (start.text ++ 44 :: (length.text ++ 59 :: rest)).length - (59 :: rest).length =
      start.text.length + 1 + length.text.length := by
    grind
  have hStart : simpleStrtoul start.text 16 = start.value := by
    simpa using @HexNumber.simpleStrtoul_text start [] (by simp)
  have hBehind : ∀ c ∈ length.text ++ 59 :: rest, isBlank c = false := fun c hc =>
    hs c (List.mem_append_right _ (List.mem_cons_of_mem _ hc))
  have hLt : length.text.length < l := by
    rw [← hl]
    exact lt_trimmed hBehind (by simp) (by omega)
  have hLength := @simpleStrtoul_cut length rest l hLt
  have hFirst := parseString_of_token behind hs 64
  have hSecond : parseString behind (length.text ++ 59 :: rest)
      (start.text.length + 1 + length.text.length) 64 =
      if l > 64 then .ok none else if l = 64 then .error .strOverflow
      else .ok (some ((length.text ++ 59 :: rest).take l)) := by
    rw [parseString, hl]
  have hEmpty : simpleStrtoul [] 16 = 0 := by decide
  unfold parsePartAddress
  rw [hEnd, hComma]
  simp only [Option.some_or, hLen, length_sub_of_token, hFirst, List.drop_succ_cons, List.drop_zero,
    hSecond, bind, Except.bind, pure, Except.pure]
  -- each of the two tokens fits, fills its buffer or is too long
  rcases Nat.lt_trichotomy start.text.length 64 with hs' | hs' | hs'
  · grind
  · simp [hs']
  · grind

end

theorem MapEntry.sortString_text (e : MapEntry) (rest : CStr) :
    sortString e.text ++ rest = ascii "flash=" ++ e.body rest := by
  simp [e.spelled, MapEntry.body, List.append_assoc]

theorem parseEntry_body {behind : Nat → UInt8} {stale rest : CStr} {parts : List FlashPart}
    {cnt : Nat} {r : FlashPart × CStr} (e : MapEntry) (hRest : ∀ c ∈ rest, isBlank c = false) :
    parseEntry behind stale parts cnt (e.body rest) = .ok r ↔
      e.name ∉ parts.map FlashPart.partition ++ [stale] ∧
        ∃ part, e.read behind rest cnt = some part ∧ r = (part, rest) := by
  have hs : ∀ c ∈ e.body rest, isBlank c = false := by
    intro c hc
    have hMem : c ∈ sortString e.text ++ rest := by
      rw [e.sortString_text]
      exact List.mem_append_right _ hc
    exact (List.mem_append.mp hMem).elim (fun hText => (mem_withoutBlanks.mp hText).2) (hRest c)
  have hTail : ∀ {t u : CStr} {c : UInt8}, (∀ x ∈ t ++ c :: u, isBlank x = false) →
      ∀ x ∈ u, isBlank x = false := fun h x hx =>
    h x (List.mem_append_right _ (List.mem_cons_of_mem _ hx))
  have hName := hTail (hTail hs)
  have hFs := hTail hName
  have hAddress := hTail hFs
  have hDevice := parsePartDevice_body behind e.no_digits e.no_nonempty e.no_lt
    (by simp only [List.length_append, List.length_cons]; omega) hs
  have hPartition := parsePartPartition_body behind (parts.map FlashPart.partition ++ [stale])
    e.name_plain.2.2 e.name_length e.name_free hName
  have hType := parsePartFs_body behind e.fs_mem e.fs_supported hFs
  have hNumbers := parsePartAddress_body behind hAddress (show _ = e.lengthCut behind rest from rfl)
  rw [parseEntry, MapEntry.body, hDevice]
  by_cases hNo : e.no.length = 28
  · simp [hNo, MapEntry.read, bind, Except.bind]
  simp only [if_neg hNo, bind, Except.bind, hPartition]
  by_cases hOld : e.name ∈ parts.map FlashPart.partition ++ [stale]
  · simp [hOld]
  simp only [if_neg hOld, hType, hNumbers]
  by_cases hOver : e.start.text.length = 64 ∨ e.lengthCut behind rest = 64
  · have hRead : e.read behind rest cnt = none := if_pos (.inr hOver)
    rw [if_pos hOver, hRead]
    simp
  · have hRead : e.read behind rest cnt = some _ := if_neg (not_or.mpr ⟨hNo, hOver⟩)
    rw [if_neg hOver, hRead]
    constructor
    · intro h
      exact ⟨hOld, _, rfl, (Except.ok.inj h).symm⟩
    · rintro ⟨-, part, hPart, rfl⟩
      rw [← Option.some.inj hPart]
      rfl

end Fire3.Fastboot

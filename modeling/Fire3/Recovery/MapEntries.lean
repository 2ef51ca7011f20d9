import Fire3.Fastboot.MapText
import Fire3.Recovery.MapText

/-!
Which partition maps `sd_recovery` reads as they are written.

A well-formed map is made of blanks, comment lines and entries. Its entries come out in their
order and with their values as long as there is no comment; with one, wherever it stands,
nothing is read.
-/

namespace Fire3.SdRecovery
open CString

structure Token (d : UInt8) (t : CStr) : Prop where
  short : t.length < 32
  ends : d ∉ t
  noNul : 0 ∉ t
  noHash : 35 ∉ t

/-- An entry of the map as it is written: `text` has its characters with blanks between them. -/
structure SdEntry where
  device : CStr
  no : CStr
  name : CStr
  fs : CStr
  start : Fastboot.HexNumber
  length : Fastboot.HexNumber
  file : CStr
  text : CStr
  device_token : Token 44 device
  no_short : no.length < 32
  no_digits : ∀ c ∈ no, isDigit c = true
  no_nonempty : no ≠ []
  no_lt : numeral 10 no < 2 ^ 31
  name_token : Token 58 name
  fs_token : Token 58 fs
  start_short : start.text.length < 32
  length_short : length.text.length < 32
  file_token : Token 59 file
  spelled : sortString text = ascii "flash=" ++ (device ++ 44 :: (no ++ 58 :: (name ++
    58 :: (fs ++ 58 :: (start.text ++ 44 :: (length.text ++ 58 :: (file ++ [59])))))))

namespace SdEntry
variable (e : SdEntry)

def body (rest : CStr) : CStr :=
  e.device ++ 44 :: (e.no ++ 58 :: (e.name ++ 58 :: (e.fs ++ 58 :: (e.start.text ++
    44 :: (e.length.text ++ 58 :: (e.file ++ 59 :: rest))))))

def fsType : FsType := (fPartFs.lookup e.fs).getD .none

def part (n : Nat) : Part where
  device := e.device
  devNo := numeral 10 e.no
  partitionName := e.name
  fsType := e.fsType
  start := e.start.value
  length := e.length.value
  fileName := e.file
  partNum := if e.fsType.inMask then n + 1 else 0

theorem no_token : Token 58 e.no where
  short := e.no_short
  ends := Fastboot.notMem_of_isDigit e.no_digits (by decide)
  noNul := Fastboot.notMem_of_isDigit e.no_digits (by decide)
  noHash := Fastboot.notMem_of_isDigit e.no_digits (by decide)

theorem start_token : Token 44 e.start.text where
  short := e.start_short
  ends := e.start.notMem_text (by decide) (by decide)
  noNul := e.start.notMem_text (by decide) (by decide)
  noHash := e.start.notMem_text (by decide) (by decide)

theorem length_token : Token 58 e.length.text where
  short := e.length_short
  ends := e.length.notMem_text (by decide) (by decide)
  noNul := e.length.notMem_text (by decide) (by decide)
  noHash := e.length.notMem_text (by decide) (by decide)

theorem sortString_append_text (rest : CStr) :
    sortString e.text ++ rest = ascii "flash=" ++ e.body rest := by
  rw [e.spelled, body]
  simp

theorem notMem_text {c : UInt8} (h : ∀ d t, Token d t → c ∉ t)
    (hc : c ∉ ascii "flash=,:;") (hBlank : isBlank c = false) : c ∉ e.text := by
  intro hMem
  have hSorted : c ∈ sortString e.text := mem_withoutBlanks.mpr ⟨hMem, hBlank⟩
  have hDevice := h _ _ e.device_token
  have hNo := h _ _ e.no_token
  have hName := h _ _ e.name_token
  have hFs := h _ _ e.fs_token
  have hStart := h _ _ e.start_token
  have hLength := h _ _ e.length_token
  have hFile := h _ _ e.file_token
  have hPlain : ascii "flash=,:;" = ascii "flash=" ++ [44, 58, 59] := rfl
  rw [hPlain, List.mem_append, not_or] at hc
  obtain ⟨hFlash, hDelimiter⟩ := hc
  simp only [List.mem_cons, List.not_mem_nil, or_false, not_or] at hDelimiter
  rw [e.spelled] at hSorted
  simp [hFlash, hDelimiter, hDevice, hNo, hName, hFs, hStart, hLength, hFile] at hSorted

end SdEntry

theorem getString_ends {t : CStr} {d : UInt8} (h : Token d t) (rest : CStr) :
    getString (t ++ d :: rest) d = .ok (t, rest) := by
  have hShort := h.short
  rw [getString_token h.ends, if_neg (by omega), if_neg (by omega)]

theorem simpleStrtoul_no (e : SdEntry) : simpleStrtoul e.no 10 % 2 ^ 32 = numeral 10 e.no := by
  have hLt := e.no_lt
  have hDigits : ∀ c ∈ e.no, IsDigitOf 10 c := fun c hc =>
    (isDigit_iff c).mpr (e.no_digits c hc)
  have hValue : simpleStrtoul (e.no ++ []) 10 = numeral 10 e.no :=
    simpleStrtoul_numeral (by decide) hDigits (by simp) e.no_nonempty (by omega)
  grind

theorem simpleStrtoul_hexNumber (n : Fastboot.HexNumber) : simpleStrtoul n.text 16 = n.value := by
  simpa using @Fastboot.HexNumber.simpleStrtoul_text n [] (by simp)

theorem parseEntry_body (e : SdEntry) (rest : CStr) (n : Nat) :
    parseEntry (e.body rest) n = .ok (e.part n, rest) := by
  rw [parseEntry, SdEntry.body, getString_ends e.device_token]
  simp only [bind, Except.bind, pure, Except.pure, getString_ends e.no_token,
    getString_ends e.name_token, getString_ends e.fs_token, getString_ends e.start_token,
    getString_ends e.length_token, getString_ends e.file_token, simpleStrtoul_no,
    simpleStrtoul_hexNumber]
  rfl

inductive SdItem
  | space (s : CStr) (blank : ∀ c ∈ s, isBlank c = true)
  | comment (s : CStr) (inLine : 10 ∉ s ∧ 0 ∉ s)
  | entry (e : SdEntry)

namespace SdItem

def text : SdItem → CStr
  | space s _ => s
  | comment s _ => 35 :: (s ++ [10])
  | entry e => e.text

def entry? : SdItem → Option SdEntry
  | entry e => some e
  | space .. | comment .. => none

end SdItem

/-- A partition map: blanks, comment lines, at most `DEV_PART_MAX` entries, and maybe a last
comment that the end of the text ends. -/
structure SdMap where
  items : List SdItem
  last : Option CStr
  last_inLine : ∀ s ∈ last, 10 ∉ s ∧ 0 ∉ s
  entries_le : (items.filterMap SdItem.entry?).length ≤ devPartMax

namespace SdMap
variable (m : SdMap)

def lastText : CStr := (m.last.map fun s => 35 :: s).getD []

def text : CStr := m.items.flatMap SdItem.text ++ m.lastText

def entries : List SdEntry := m.items.filterMap SdItem.entry?

def Bare : Prop := (∀ s h, SdItem.comment s h ∉ m.items) ∧ m.last = none

end SdMap

def partsOf : Nat → List SdEntry → List Part
  | _, [] => []
  | n, e :: es => e.part n :: partsOf (if e.fsType.inMask then n + 1 else n) es

theorem parseEntries_entries {es : List SdEntry} {k : Nat} (hLength : es.length ≤ k) (n : Nat) :
    parseEntries k (es.flatMap fun e => sortString e.text) n = .ok (partsOf n es) := by
  induction es generalizing k n with
  | nil =>
      cases k with
      | zero => rfl
      | succ k => rfl
  | cons e es ih =>
      obtain ⟨k, rfl⟩ : ∃ j, k = j + 1 := ⟨k - 1, by simp at hLength; omega⟩
      rw [List.flatMap_cons, e.sortString_append_text, parseEntries, parsePartHead,
        behindFirst_self (by decide)]
      simp only [parseEntry_body, bind, Except.bind, pure, Except.pure]
      rw [ih (Nat.le_of_succ_le_succ hLength)]
      rfl

theorem sortString_items {items : List SdItem} (hBare : ∀ s h, SdItem.comment s h ∉ items) :
    sortString (items.flatMap SdItem.text) =
      (items.filterMap SdItem.entry?).flatMap fun e => sortString e.text := by
  induction items with
  | nil => rfl
  | cons i items ih =>
      have hRest := ih fun s h hMem => hBare s h (List.mem_cons_of_mem i hMem)
      have hSplit : sortString ((i :: items).flatMap SdItem.text) =
          sortString i.text ++ sortString (items.flatMap SdItem.text) := by
        rw [List.flatMap_cons, sortString, withoutBlanks, List.filter_append]
        rfl
      rw [hSplit, hRest]
      cases i with
      | space s blank =>
          have hNone : sortString s = [] :=
            List.filter_eq_nil_iff.mpr fun c hc => by simp [blank c hc]
          rw [SdItem.text, hNone]
          rfl
      | comment s inLine => exact absurd List.mem_cons_self (hBare s inLine)
      | entry e => rfl

section
variable (m : SdMap)

theorem nul_notMem_text : 0 ∉ m.text := by
  rw [SdMap.text, List.mem_append, List.mem_flatMap, not_or]
  constructor
  · rintro ⟨i, -, hMem⟩
    cases i with
    | space s blank => exact absurd (blank 0 hMem) (by decide)
    | comment s inLine => simp [SdItem.text, inLine.2] at hMem
    | entry e => exact e.notMem_text (fun _ _ h => h.noNul) (by decide) (by decide) hMem
  · rw [SdMap.lastText]
    cases hLast : m.last with
    | none => simp
    | some s => simp [(m.last_inLine s hLast).2]

theorem hash_mem_text : 35 ∉ m.text ↔ m.Bare := by
  rw [SdMap.text, List.mem_append, List.mem_flatMap, not_or]
  refine and_congr ⟨fun h s inLine hMem => ?_, ?_⟩ ?_
  · exact h ⟨_, hMem, List.mem_cons_self⟩
  · rintro hBare ⟨i, hi, hMem⟩
    cases i with
    | space s blank => exact absurd (blank 35 hMem) (by decide)
    | comment s inLine => exact hBare s inLine hi
    | entry e => exact e.notMem_text (fun _ _ h => h.noHash) (by decide) (by decide) hMem
  · rw [SdMap.lastText]
    cases m.last <;> simp

theorem mapText_text : mapText m.text = sortString m.text := by
  refine List.takeWhile_eq_self_iff.mpr fun c hc => ?_
  grind [nul_notMem_text, sortString, mem_withoutBlanks]

theorem hash_notMem_mapText : 35 ∉ mapText m.text ↔ m.Bare := by
  simp [mapText_text, sortString, mem_withoutBlanks, hash_mem_text, isBlank]

theorem partListsMake_bare (hBare : m.Bare) :
    partListsMake (mapText m.text) = .ok (partsOf 0 m.entries) := by
  have hText : m.text = m.items.flatMap SdItem.text := by
    rw [SdMap.text, SdMap.lastText, hBare.2]
    exact List.append_nil _
  rw [partListsMake_squeezed fun c => isBlank_of_mem_mapText,
    if_neg ((hash_notMem_mapText m).mpr hBare), mapText_text, hText, sortString_items hBare.1]
  exact parseEntries_entries m.entries_le 0

end

/-- The map is parsed safely, and if it is well-formed, into the entries that are written. -/
structure ReadRight (loaded : List UInt8) : Prop where
  safe : Safe loaded
  entries : ∀ m : SdMap, m.text = loaded →
    partListsMake (mapText loaded) = .ok (partsOf 0 m.entries)

/-- A loaded map is read right exactly if it has no comment, and its entries have all their
delimiters and no token of 32 characters. -/
theorem recovery_map_iff (loaded : List UInt8) :
    ReadRight loaded ↔ 35 ∉ mapText loaded ∧ Readable devPartMax (mapText loaded) := by
  rw [← safe_iff]
  refine ⟨ReadRight.safe, fun hSafe => ⟨hSafe, ?_⟩⟩
  grind [partListsMake_bare, hash_notMem_mapText, safe_iff]

def secondBootEntry : SdEntry where
  device := ascii "mmc"
  no := ascii "1"
  name := ascii "2ndboot"
  fs := ascii "2nd"
  start := ⟨false, ascii "400", List.all_eq_true.mp (by decide), by decide, by decide⟩
  length := ⟨true, ascii "7e00", List.all_eq_true.mp (by decide), by decide, by decide⟩
  file := ascii "2nd.bin"
  text := ascii "flash= mmc,1:2ndboot:2nd: 400,0x7e00:2nd.bin;\n"
  device_token := ⟨by decide, by decide, by decide, by decide⟩
  no_short := by decide
  no_digits := List.all_eq_true.mp (by decide)
  no_nonempty := by decide
  no_lt := by decide
  name_token := ⟨by decide, by decide, by decide, by decide⟩
  fs_token := ⟨by decide, by decide, by decide, by decide⟩
  start_short := by decide
  length_short := by decide
  file_token := ⟨by decide, by decide, by decide, by decide⟩
  spelled := by decide

theorem none_inLine : ∀ s ∈ (none : Option CStr), 10 ∉ s ∧ 0 ∉ s := by
  simp

def commentedMap : SdMap where
  items := [.comment (ascii " boot") (by decide), .entry secondBootEntry]
  last := none
  last_inLine := none_inLine
  entries_le := by decide

/-- The comment line of a well-formed map has lost its end when it is looked for. -/
theorem recovery_map_loses_comment_end :
    commentedMap.entries = [secondBootEntry] ∧
      commentedMap.text = ascii "# boot\nflash= mmc,1:2ndboot:2nd: 400,0x7e00:2nd.bin;\n" ∧
      partListsMake (mapText commentedMap.text) = .error .nullDelimiter ∧
      ¬ReadRight commentedMap.text := by
  have hFault : partListsMake (mapText commentedMap.text) = .error .nullDelimiter := by
    decide +kernel
  refine ⟨rfl, by decide, hFault, fun h => ?_⟩
  obtain ⟨parts, hParts⟩ := h.safe.parses
  rw [hFault] at hParts
  cases hParts

end Fire3.SdRecovery

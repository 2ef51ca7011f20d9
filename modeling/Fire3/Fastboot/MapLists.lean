import Fire3.Fastboot.MapText

/-!
The lists that `part_lists_make` makes from the text of a partition map.

The text before the point where the search for comments ends is not read at all, so an
entry in front of a comment is lost unless the search starts over at the beginning. Behind
that point all entries are read in order; what is left of the comments is passed over as
long as it does not look like an entry.
-/

namespace Fire3.Fastboot
open CString

inductive MapItem
  | space (s : CStr) (blank : ∀ c ∈ s, isBlank c = true)
  | comment (s : CStr) (inLine : 10 ∉ s ∧ 0 ∉ s)
  | entry (e : MapEntry)

def MapItem.text : MapItem → CStr
  | .space s _ => s
  | .comment s _ => 35 :: (s ++ [10])
  | .entry e => e.text

def MapItem.entry? : MapItem → Option MapEntry
  | .entry e => some e
  | _ => none

/-- A partition map: comments, entries and blanks, and maybe a last comment that the end of the
text ends. -/
structure FlashMap where
  items : List MapItem
  last : Option CStr
  last_inLine : ∀ s ∈ last, 10 ∉ s ∧ 0 ∉ s
  distinct : ((items.filterMap MapItem.entry?).map MapEntry.name).Nodup

namespace FlashMap
variable (m : FlashMap)

def lastText : CStr := (m.last.map fun s => 35 :: s).getD []

def textFrom (items : List MapItem) : CStr := items.flatMap MapItem.text ++ m.lastText

def text : CStr := m.textFrom m.items

def entries : List MapEntry := m.items.filterMap MapItem.entry?

theorem textFrom_cons (i : MapItem) (items : List MapItem) :
    m.textFrom (i :: items) = i.text ++ m.textFrom items := by
  simp [textFrom]

/-- Where the reading starts: at each end of a comment its offset is taken from a count that
starts with the length of the text; if that leaves nothing, the text is read from its beginning, if it
leaves 1, from here. A last comment without an end is a failure if it is reached. -/
def resume : Int → Nat → List MapItem → List MapItem → Option (List MapItem)
  | _, _, kept, [] => if m.last.isSome then none else some kept
  | len, off, _, .comment s _ :: items =>
      let off := off + (s.length + 2)
      let len := len - off
      if len ≤ 0 then some m.items
      else if len ≤ 1 then some items
      else resume len off items items
  | len, off, kept, .space s _ :: items => resume len (off + s.length) kept items
  | len, off, kept, .entry e :: items => resume len (off + e.text.length) kept items

def kept : Option (List MapItem) := m.resume m.text.length 0 m.items m.items

/-- No comment among the items looks like an entry, and neither does the last one. -/
def Plain (items : List MapItem) : Prop :=
  (∀ s h, MapItem.comment s h ∈ items → ¬ascii "flash=" <:+: sortString s) ∧
    ∀ s ∈ m.last, ¬ascii "flash=" <:+: sortString s

end FlashMap

theorem MapEntry.notMem_text (e : MapEntry) {c : UInt8} (hc : c = 0 ∨ c = 35) : c ∉ e.text := by
  intro hMem
  have hBlank : isBlank c = false ∧ isDigit c = false ∧ isXDigit c = false ∧ c ≠ 120 := by
    rcases hc with rfl | rfl <;> decide
  have hFs : c ∉ e.fs.1 :=
    (show ∀ fs ∈ fPartFs, c ∉ fs.1 by rcases hc with rfl | rfl <;> decide) e.fs e.fs_mem
  have hSorted : c ∈ sortString e.text := mem_withoutBlanks.mpr ⟨hMem, hBlank.1⟩
  have hFlash : c ∉ ascii "flash=" ∧ c ∉ ascii "mmc" ∧ c ∉ [44, 58, 59] := by
    rcases hc with rfl | rfl <;> decide
  have hNo : c ∉ e.no := notMem_of_isDigit e.no_digits hBlank.2.1
  have hName : c ∉ e.name := by
    rcases hc with rfl | rfl
    · exact e.name_plain.1
    · exact e.name_plain.2.1
  have hStart := e.start.notMem_text hBlank.2.2.1 hBlank.2.2.2
  have hLength := e.length.notMem_text hBlank.2.2.1 hBlank.2.2.2
  rw [e.spelled] at hSorted
  simp_all

section
variable {m : FlashMap}

/-- The search for comments, from a point where the next one is the next of `items`. Memory that
follows the text does not matter if it has no comment. -/
theorem parseComment_items {fuel off : Nat} {len : Int} {kept items : List MapItem} {stack : CStr}
    (hStack : 35 ∉ stack) (hLast : stack = [] ∨ m.last = none)
    (hNext : strchr (m.textFrom kept ++ stack) 35 = strchr (m.textFrom items ++ stack) 35)
    (hOff : m.text.length = off + (m.textFrom items).length)
    (hFuel : (m.textFrom items).length < fuel) :
    parseComment (m.text ++ stack) fuel (m.textFrom kept ++ stack) len =
      ((m.resume len off kept items).map fun ks => .ok (m.textFrom ks ++ stack)).getD
        (.error .nullPointer) := by
  induction items generalizing fuel off len kept with
  | nil =>
      obtain ⟨fuel, rfl⟩ : ∃ n, fuel = n + 1 := ⟨fuel - 1, by omega⟩
      rw [parseComment, hNext, FlashMap.resume]
      cases hEnd : m.last with
      | none => simp [FlashMap.textFrom, FlashMap.lastText, hEnd, strchr_eq_none hStack]
      | some s =>
          have hLine := (m.last_inLine s hEnd).1
          grind [FlashMap.textFrom, FlashMap.lastText, strchr_self, strchr_eq_none]
  | cons i items ih =>
      rw [FlashMap.textFrom_cons, List.length_append] at hOff hFuel
      rw [FlashMap.textFrom_cons, List.append_assoc] at hNext
      cases i with
      | space s blank =>
          have hHash : 35 ∉ s := fun hc => absurd (blank 35 hc) (by decide)
          rw [MapItem.text, strchr_append hHash] at hNext
          rw [MapItem.text] at hOff
          exact ih hNext (by omega) (by omega)
      | entry e =>
          rw [MapItem.text, strchr_append (e.notMem_text (.inr rfl))] at hNext
          rw [MapItem.text] at hOff
          exact ih hNext (by omega) (by omega)
      | comment s inLine =>
          obtain ⟨fuel, rfl⟩ : ∃ n, fuel = n + 1 := ⟨fuel - 1, by omega⟩
          have hEnd : strchr (s ++ 10 :: (m.textFrom items ++ stack)) 10 =
              some (10 :: (m.textFrom items ++ stack)) := by
            rw [strchr_append inLine.1, strchr_self]
          have hText : (MapItem.comment s inLine).text ++ (m.textFrom items ++ stack) =
              35 :: (s ++ 10 :: (m.textFrom items ++ stack)) := by
            simp [MapItem.text]
          have hLen : (MapItem.comment s inLine).text.length = s.length + 2 := by
            simp [MapItem.text]
          have hDone : (m.text ++ stack).length - (m.textFrom items ++ stack).length =
              off + (s.length + 2) := by
            grind
          rw [hText, strchr_self] at hNext
          rw [parseComment, hNext, FlashMap.resume]
          simp only [List.drop_succ_cons, List.drop_zero, hEnd, hDone]
          split
          · rfl
          · split
            · rfl
            · exact ih rfl (by omega) (by omega)

theorem parseComment_text (m : FlashMap) :
    parseComment m.text (m.text.length + 1) m.text m.text.length =
      (m.kept.map fun ks => .ok (m.textFrom ks)).getD (.error .nullPointer) := by
  have hItems := @parseComment_items m (m.text.length + 1) 0 m.text.length m.items m.items []
    List.not_mem_nil (.inl rfl) rfl (Nat.zero_add _).symm (Nat.lt_succ_self _)
  simp only [List.append_nil] at hItems
  exact hItems

theorem resume_suffix {off : Nat} {len : Int} {kept items ks : List MapItem} (hKept : kept <:+ m.items)
    (hItems : items <:+ m.items) (h : m.resume len off kept items = some ks) : ks <:+ m.items := by
  induction items generalizing off len kept with
  | nil =>
      rw [FlashMap.resume] at h
      grind
  | cons i items ih =>
      have hRest : items <:+ m.items := (List.suffix_cons i items).trans hItems
      cases i with
      | space s blank | entry e =>
          grind [FlashMap.resume]
      | comment s inLine =>
          rw [FlashMap.resume] at h
          split at h
          · exact Option.some.inj h ▸ List.suffix_refl _
          · grind

end

def FlashMap.sortedFrom (m : FlashMap) (items : List MapItem) : CStr := sortString (m.textFrom items)

/-- The entries of the items, read one after the other; `heap` are the names in the records that
are taken for them, `names` those in the list. -/
def FlashMap.readItems (m : FlashMap) (behind : Nat → UInt8) :
    List MapItem → List CStr → List CStr → Nat → Option (List FlashPart)
  | [], _, _, _ => some []
  | .entry e :: items, stale :: heap, names, cnt =>
      if e.name ∈ names ++ [stale] then none
      else (e.read behind (m.sortedFrom items) cnt).bind fun part =>
        (m.readItems behind items heap (names ++ [e.name]) (part.partNum.getD cnt)).map (part :: ·)
  | .entry _ :: _, [], _, _ => none
  | .space _ _ :: items, heap, names, cnt => m.readItems behind items heap names cnt
  | .comment _ _ :: items, heap, names, cnt => m.readItems behind items heap names cnt

section
variable {m : FlashMap} {behind : Nat → UInt8} {items : List MapItem}

theorem sortedFrom_cons (i : MapItem) (items : List MapItem) :
    m.sortedFrom (i :: items) = sortString i.text ++ m.sortedFrom items := by
  rw [FlashMap.sortedFrom, FlashMap.textFrom_cons, sortString, withoutBlanks, List.filter_append]
  rfl

theorem sortString_space {s : CStr} (blank : ∀ c ∈ s, isBlank c = true) : sortString s = [] := by
  simpa [sortString, withoutBlanks] using blank

theorem sortString_comment (s : CStr) : sortString (35 :: (s ++ [10])) = 35 :: sortString s := by
  simp [isBlank, sortString, withoutBlanks]

theorem head_sortedFrom (items : List MapItem) :
    ∀ c ∈ (m.sortedFrom items).head?, c ∉ (ascii "flash=").tail := by
  induction items with
  | nil =>
      have hHash : isBlank 35 = false := by decide
      rw [FlashMap.sortedFrom, FlashMap.textFrom, FlashMap.lastText]
      cases m.last with
      | none => simp [sortString, withoutBlanks]
      | some s =>
          simp only [sortString, withoutBlanks, hHash, List.flatMap_nil, List.nil_append,
            Option.map_some, Option.getD_some, List.filter_cons, Bool.not_false, if_true,
              List.head?_cons]
          rintro c ⟨⟩
          decide
  | cons i items ih =>
      rw [sortedFrom_cons]
      cases i with
      | space s blank => rwa [MapItem.text, sortString_space blank]
      | comment s inLine =>
          rw [MapItem.text, sortString_comment]
          rintro c ⟨⟩
          decide
      | entry e =>
          rw [MapItem.text, e.sortString_text]
          rintro c ⟨⟩
          decide

theorem parsePartHead_plain {t rest : CStr} (h : ¬ascii "flash=" <:+: t)
    (hRest : ∀ c ∈ rest.head?, c ∉ (ascii "flash=").tail) :
    parsePartHead (35 :: t ++ rest) = parsePartHead rest := by
  have hIn : ¬ascii "flash=" <:+: 35 :: t := by
    rw [List.infix_cons_iff]
    rintro (hPrefix | hIn)
    · obtain ⟨u, hu⟩ := hPrefix
      exact absurd (List.cons.inj hu).1 (by decide)
    · exact h hIn
  rw [parsePartHead, behindFirst, strstr_append hIn hRest, parsePartHead, behindFirst]

theorem parseEntries_congr {p p' : CStr} (h : parsePartHead p = parsePartHead p') (heap : List CStr)
    (cnt : Nat) (parts : List FlashPart) :
    parseEntries behind heap p cnt parts = parseEntries behind heap p' cnt parts := by
  rw [parseEntries, parseEntries, h]

theorem parsePartHead_last (h : m.Plain []) : parsePartHead (m.sortedFrom []) = none := by
  rw [FlashMap.sortedFrom, FlashMap.textFrom, FlashMap.lastText]
  cases hLast : m.last with
  | none => rfl
  | some s =>
      have hHash : isBlank 35 = false := by decide
      have hText : sortString (35 :: s) = 35 :: sortString s ++ [] := by
        simp [sortString, withoutBlanks, hHash]
      simp only [List.flatMap_nil, List.nil_append, Option.map_some, Option.getD_some, hText]
      rw [parsePartHead_plain (h.2 s hLast) (by simp)]
      rfl

theorem Plain.tail {i : MapItem} (h : m.Plain (i :: items)) : m.Plain items :=
  ⟨fun s hs hMem => h.1 s hs (List.mem_cons_of_mem i hMem), h.2⟩

theorem partition_of_read {e : MapEntry} {rest : CStr} {cnt : Nat} {part : FlashPart}
    (h : e.read behind rest cnt = some part) : part.partition = e.name := by
  grind [MapEntry.read, Option.some.inj]

theorem parseEntries_items {heap : List CStr} {cnt : Nat} {parts parts' : List FlashPart}
    (hPlain : m.Plain items) :
    parseEntries behind heap (m.sortedFrom items) cnt parts = .ok parts' ↔
      ∃ new, m.readItems behind items heap (parts.map FlashPart.partition) cnt = some new ∧
        parts' = parts ++ new ∧ parts' ≠ [] := by
  induction items generalizing heap cnt parts with
  | nil =>
      have hHead := parsePartHead_last (m := m) hPlain
      rw [parseEntries, hHead]
      by_cases hNone : parts = []
      · simp [hNone, FlashMap.readItems]
      · simp only [hNone, if_false, FlashMap.readItems, Except.ok.injEq]
        constructor
        · rintro rfl
          exact ⟨[], rfl, by simp, hNone⟩
        · rintro ⟨new, hNew, rfl, -⟩
          simp [← Option.some.inj hNew]
  | cons i items ih =>
      have hRest := Plain.tail hPlain
      rw [sortedFrom_cons]
      cases i with
      | space s blank =>
          grind [MapItem.text, sortString_space, FlashMap.readItems]
      | comment s inLine =>
          have hHead := parsePartHead_plain (hPlain.1 s inLine List.mem_cons_self)
            (head_sortedFrom (m := m) items)
          rw [MapItem.text, sortString_comment, parseEntries_congr hHead, FlashMap.readItems]
          exact ih hRest
      | entry e =>
          have hSorted : ∀ c ∈ m.sortedFrom items, isBlank c = false := fun c hc =>
            (mem_withoutBlanks.mp hc).2
          rw [MapItem.text, e.sortString_text, parseEntries, parsePartHead,
            behindFirst_self (by decide)]
          cases heap with
          | nil => simp [FlashMap.readItems]
          | cons stale heap =>
              rw [bind_eq_ok_iff, FlashMap.readItems]
              constructor
              · rintro ⟨r, hEntry, hLoop⟩
                obtain ⟨hName, part, hPart, rfl⟩ := (parseEntry_body e hSorted).mp hEntry
                obtain ⟨new, hNew, rfl, hSome⟩ := (ih hRest).mp hLoop
                refine ⟨part :: new, ?_, by simp, hSome⟩
                rw [List.map_append, List.map_singleton, partition_of_read hPart] at hNew
                grind
              · rintro ⟨new, hRead, rfl, hSome⟩
                split at hRead
                · cases hRead
                · rename_i hName
                  obtain ⟨part, hPart, hMap⟩ := Option.bind_eq_some_iff.mp hRead
                  obtain ⟨new, hNew, rfl⟩ := Option.map_eq_some_iff.mp hMap
                  refine ⟨(part, m.sortedFrom items), (parseEntry_body e hSorted).mpr
                    ⟨hName, part, hPart, rfl⟩, (ih hRest).mpr ⟨new, ?_, by simp, hSome⟩⟩
                  rwa [List.map_append, List.map_singleton, partition_of_read hPart]

theorem types_readItems {heap names : List CStr} {cnt : Nat} {new : List FlashPart}
    (h : m.readItems behind items heap names cnt = some new) :
    new.map (·.fsType) = (items.filterMap MapItem.entry?).map (·.fs.2) := by
  induction items generalizing heap names cnt new with
  | nil =>
      rw [← Option.some.inj h]
      rfl
  | cons i items ih =>
      cases i with
      | space s blank | comment s inLine => exact ih h
      | entry e =>
          cases heap with
          | nil => cases h
          | cons stale heap =>
              rw [FlashMap.readItems] at h
              split at h
              · cases h
              · grind [Option.bind_eq_some_iff, Option.map_eq_some_iff, MapItem.entry?, MapEntry.read]

end

/-- Each of the entries has a record in which its name does not stand already, and its numbers
survive the cuts. -/
def FlashMap.Legible (m : FlashMap) (behind : Nat → UInt8) : List MapItem → List CStr → Prop
  | [], _ => True
  | .entry e :: items, stale :: heap =>
      e.name ≠ stale ∧ e.Legible behind (m.sortedFrom items) ∧ m.Legible behind items heap
  | .entry _ :: _, [] => False
  | .space _ _ :: items, heap => m.Legible behind items heap
  | .comment _ _ :: items, heap => m.Legible behind items heap

theorem readItems_holds_iff {m : FlashMap} {behind : Nat → UInt8} {items : List MapItem}
    {heap names : List CStr} {cnt : Nat}
    (hNames : (names ++ (items.filterMap MapItem.entry?).map MapEntry.name).Nodup) :
    (∃ new, m.readItems behind items heap names cnt = some new ∧
      List.Forall₂ MapEntry.Holds new (items.filterMap MapItem.entry?)) ↔
      m.Legible behind items heap := by
  induction items generalizing heap names cnt with
  | nil => simp [FlashMap.readItems, FlashMap.Legible]
  | cons i items ih =>
      cases i with
      | space s blank | comment s inLine => exact ih hNames
      | entry e =>
          have hCons : (MapItem.entry e :: items).filterMap MapItem.entry? =
              e :: items.filterMap MapItem.entry? := rfl
          rw [hCons, List.map_cons] at hNames
          rw [hCons]
          cases heap with
          | nil => simp [FlashMap.readItems, FlashMap.Legible]
          | cons stale heap =>
              have hNew : e.name ∉ names := by
                grind
              have hRest : ((names ++ [e.name]) ++
                  (items.filterMap MapItem.entry?).map MapEntry.name).Nodup := by
                simpa using hNames
              rw [FlashMap.readItems, FlashMap.Legible]
              constructor
              · rintro ⟨parts, hRead, hHolds⟩
                split at hRead
                · cases hRead
                · rename_i hName
                  obtain ⟨part, hPart, hMap⟩ := Option.bind_eq_some_iff.mp hRead
                  obtain ⟨parts, hParts, rfl⟩ := Option.map_eq_some_iff.mp hMap
                  obtain ⟨hFirst, hOthers⟩ := List.forall₂_cons.mp hHolds
                  exact ⟨fun hSame => hName (by simp [hSame]),
                    (e.read_holds_iff behind _ cnt).mp ⟨part, hPart, hFirst⟩,
                    (ih hRest).mp ⟨parts, hParts, hOthers⟩⟩
              · rintro ⟨hStale, hLegible, hOthers⟩
                obtain ⟨part, hPart, hFirst⟩ := (e.read_holds_iff behind _ cnt).mpr hLegible
                obtain ⟨parts, hParts, hHolds⟩ := (ih hRest).mpr hOthers
                refine ⟨part :: parts, ?_, List.forall₂_cons.mpr ⟨hFirst, hHolds⟩⟩
                rw [if_neg (by simp [hNew, hStale]), hPart, Option.bind_some, hParts, Option.map_some]

/-- All entries are behind the point where the reading starts, there is one, and each is legible. -/
def FlashMap.Understood (m : FlashMap) (behind : Nat → UInt8) (heap : List CStr) : Prop :=
  ∃ ks, m.kept = some ks ∧ ks.filterMap MapItem.entry? = m.entries ∧ m.entries ≠ [] ∧
    m.Legible (fun i => byteAt behind (m.textFrom ks) ((m.sortedFrom ks).length + 1 + i)) ks heap

theorem part_lists_hold_map_iff (m : FlashMap) (behind : Nat → UInt8) (heap : List CStr)
    (hPlain : ∀ ks ∈ m.kept, m.Plain ks) :
    (∃ parts, partListsMake m.text behind heap = .ok parts ∧
      List.Forall₂ MapEntry.Holds parts m.entries) ↔ m.Understood behind heap := by
  unfold partListsMake FlashMap.Understood
  rw [parseComment_text]
  cases hKept : m.kept with
  | none => simp [bind, Except.bind]
  | some ks =>
      have hSuffix : ks.filterMap MapItem.entry? <:+ m.entries :=
        (resume_suffix (List.suffix_refl _) (List.suffix_refl _) hKept).filterMap _
      simp only [Option.map_some, Option.getD_some, bind, Except.bind, Option.some.injEq,
        exists_eq_left']
      constructor
      · rintro ⟨parts, hMake, hHolds⟩
        obtain ⟨_, hNew, rfl, hSome⟩ := (parseEntries_items (hPlain ks hKept)).mp hMake
        have hLength := congrArg List.length (types_readItems hNew)
        rw [List.length_map, List.length_map] at hLength
        have hSame := hSuffix.eq_of_length (hLength.symm.trans hHolds.length_eq)
        refine ⟨hSame, fun hNone => ?_, ?_⟩
        · rw [hNone] at hHolds
          exact hSome (List.eq_nil_of_length_eq_zero hHolds.length_eq)
        · rw [← hSame] at hHolds
          exact (readItems_holds_iff (by rw [hSame]; exact m.distinct)).mp ⟨_, hNew, hHolds⟩
      · rintro ⟨hSame, hSome, hLegible⟩
        have hNames : ([] ++ (ks.filterMap MapItem.entry?).map MapEntry.name).Nodup := by
          rw [hSame]
          exact m.distinct
        obtain ⟨new, hNew, hHolds⟩ := (readItems_holds_iff hNames).mpr hLegible
        rw [hSame] at hHolds
        refine ⟨new, (parseEntries_items (hPlain ks hKept)).mpr ⟨new, hNew, rfl, ?_⟩, hHolds⟩
        rintro rfl
        exact hSome (List.eq_nil_of_length_eq_zero hHolds.length_eq.symm)

def hex200 : HexNumber where
  prefixed := true
  digits := ascii "200"
  isHex := List.all_eq_true.mp (by decide)
  nonempty := by decide
  fits := by decide

def bootEntry : MapEntry where
  no := ascii "0"
  name := ascii "boot"
  fs := (ascii "raw", .raw)
  start := hex200
  length := hex200
  text := ascii "flash= mmc,0 : boot:raw: 0x200,0x200;\n"
  no_digits := List.all_eq_true.mp (by decide)
  no_nonempty := by decide
  no_lt := by decide
  name_length := by decide
  name_plain := by decide
  name_free := by decide
  fs_mem := by decide
  fs_supported := rfl
  spelled := by decide

def miscEntry : MapEntry :=
  { bootEntry with
    name := ascii "misc"
    text := ascii "flash=mmc,0:misc:raw:0x200,0x200;"
    name_length := by decide
    name_plain := by decide
    name_free := by decide
    spelled := by decide }

def note : MapItem := .comment (ascii " boot area") (by decide)

def mapBehindNote : FlashMap where
  items := [note, .entry bootEntry, .entry miscEntry]
  last := none
  last_inLine := by simp
  distinct := by decide

def mapAroundNote : FlashMap where
  items := [.entry bootEntry, note, .entry miscEntry]
  last := none
  last_inLine := by simp
  distinct := by decide

theorem part_lists_hold_map_behind_note :
    (∀ ks ∈ mapBehindNote.kept, mapBehindNote.Plain ks) ∧
      ∃ parts, partListsMake mapBehindNote.text (fun _ => 0) [[], []] = .ok parts ∧
        List.Forall₂ MapEntry.Holds parts mapBehindNote.entries := by
  have hKept : mapBehindNote.kept = some [.entry bootEntry, .entry miscEntry] := by rfl
  have hPlain : ∀ ks ∈ mapBehindNote.kept, mapBehindNote.Plain ks := by
    rw [hKept]
    rintro ks ⟨⟩
    exact ⟨by simp, by simp [mapBehindNote]⟩
  refine ⟨hPlain, (part_lists_hold_map_iff mapBehindNote _ _ hPlain).mpr ⟨_, hKept, rfl, by decide, ?_⟩⟩
  refine ⟨by decide, ?_, by decide, ?_, trivial⟩
  · decide
  · decide

theorem part_lists_lose_entry :
    ¬∃ parts, partListsMake mapAroundNote.text (fun _ => 0) [[], []] = .ok parts ∧
      List.Forall₂ MapEntry.Holds parts mapAroundNote.entries := by
  rintro ⟨parts, hMake, hHolds⟩
  have hLost : (partListsMake mapAroundNote.text (fun _ => 0) [[], []]).map List.length = .ok 1 := by
    rfl
  rw [hMake] at hLost
  have hLength : parts.length = 1 := Except.ok.inj hLost
  rw [hHolds.length_eq] at hLength
  exact absurd hLength (by decide)

end Fire3.Fastboot

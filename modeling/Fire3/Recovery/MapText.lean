import Fire3.Base.Tokens
import Fire3.Recovery.SdUpdate

/-!
What `do_update_sdcard` makes of the bytes it has loaded as a partition map.

The bytes are squeezed before `update_sdcard_part_lists_make` looks for comments, so no comment
has an end any more. A text without comments is read safely exactly if every entry that is read
has its seven delimiters, and no token fills the buffer.
-/

namespace Fire3.SdRecovery
open CString

variable {p rest : CStr} {d : UInt8}

/-- The text that `update_sdcard_part_lists_make` is given: the loaded bytes without blanks and
line ends, up to the first NUL. -/
def mapText (loaded : List UInt8) : CStr := ofArray (sortString loaded)

/-- How many bytes of the text `update_sdcard_part_lists_make` squeezes: as many as the whole text
has, from the point `p` behind the comments on. -/
def squeezeEnd (text p : CStr) : Nat := (text.length - p.length) + text.length

structure Safe (loaded : List UInt8) : Prop where
  parses : ∃ parts, partListsMake (mapText loaded) = .ok parts
  inside : ∀ p, parseComment ((mapText loaded).length + 1) (mapText loaded) = .ok p →
    squeezeEnd (mapText loaded) p ≤ (mapText loaded).length

theorem isBlank_of_mem_mapText {loaded : List UInt8} {c : UInt8} (h : c ∈ mapText loaded) :
    isBlank c = false :=
  (mem_withoutBlanks.mp ((List.takeWhile_prefix _).subset h)).2

theorem parseComment_squeezed (hLine : 10 ∉ p) (n : Nat) :
    parseComment (n + 1) p = if 35 ∈ p then .error .nullDelimiter else .ok p := by
  rw [parseComment]
  by_cases hHash : 35 ∈ p
  · obtain ⟨t, r, rfl, hNot⟩ := List.eq_append_cons_of_mem hHash
    have hRest : 10 ∉ r := fun hc => hLine (by simp [hc])
    rw [if_pos hHash, strchr_append hNot, strchr_self]
    simp only [List.drop_succ_cons, List.drop_zero, strchr_eq_none hRest]
  · rw [if_neg hHash, strchr_eq_none hHash]

theorem partListsMake_squeezed {text : CStr} (hBlank : ∀ c ∈ text, isBlank c = false) :
    partListsMake text =
      if 35 ∈ text then .error .nullDelimiter else parseEntries devPartMax text 0 := by
  have hLine : 10 ∉ text := fun hc => absurd (hBlank 10 hc) (by decide)
  have hSorted : sortString text = text :=
    List.filter_eq_self.mpr fun c hc => by rw [hBlank c hc]; rfl
  rw [partListsMake, parseComment_squeezed hLine]
  split
  · rfl
  · change parseEntries devPartMax (sortString text) 0 = _
    rw [hSorted]

def delimiters : List UInt8 := [44, 58, 58, 58, 44, 58, 59]

/-- A text of tokens that end with the given delimiters, none of 32 characters; `rest` is what
follows them. -/
inductive Tokens : List UInt8 → CStr → CStr → Prop
  | nil (p : CStr) : Tokens [] p p
  | cons {d : UInt8} {ds : List UInt8} {t p rest : CStr} (plain : d ∉ t) (size : t.length ≠ 32)
      (tail : Tokens ds p rest) : Tokens (d :: ds) (t ++ d :: p) rest

structure Heads (p q : CStr) : Prop where
  follows : ascii "flash=" ++ q <:+ p
  first : ∀ r, ascii "flash=" ++ r <:+ p → r.length ≤ q.length

/-- Each of the first `n` entries has its delimiters, and no token of 32 characters. -/
inductive Readable : Nat → CStr → Prop
  | full (p : CStr) : Readable 0 p
  | last {n : Nat} {p : CStr} (done : ¬ascii "flash=" <:+: p) : Readable (n + 1) p
  | entry {n : Nat} {p q rest : CStr} (head : Heads p q) (tokens : Tokens delimiters q rest)
      (tail : Readable n rest) : Readable (n + 1) p

theorem parsePartHead_eq_none : parsePartHead p = none ↔ ¬ascii "flash=" <:+: p := by
  rw [parsePartHead, behindFirst, Option.map_eq_none_iff, strstr_eq_none_iff]

theorem heads_of_parsePartHead {q : CStr} (h : parsePartHead p = some q) : Heads p q := by
  obtain ⟨r, hFound, rfl⟩ := Option.map_eq_some_iff.mp h
  obtain ⟨hSuffix, ⟨q, rfl⟩, hLongest⟩ := strstr_longest hFound
  rw [List.drop_left]
  refine ⟨hSuffix, fun r hr => ?_⟩
  simpa using hLongest _ hr (List.prefix_append _ r)

theorem parsePartHead_eq_some {q : CStr} : parsePartHead p = some q ↔ Heads p q := by
  refine ⟨heads_of_parsePartHead, fun h => ?_⟩
  cases hHead : parsePartHead p with
  | none =>
      have hInfix : ascii "flash=" <:+: p :=
        (List.prefix_append _ q).isInfix.trans h.follows.isInfix
      exact absurd hInfix (parsePartHead_eq_none.mp hHead)
  | some q' =>
      have h' := heads_of_parsePartHead hHead
      -- both are the longest that follow a `flash=`
      have hLength : q'.length = q.length :=
        Nat.le_antisymm (h.first q' h'.follows) (h'.first q h.follows)
      have hSuffix := List.suffix_of_suffix_length_le h'.follows h.follows (by simp [hLength])
      have hEq := hSuffix.eq_of_length (by simp [hLength])
      rw [List.append_cancel_left hEq]

theorem getString_token {t : CStr} (h : d ∉ t) (rest : CStr) :
    getString (t ++ d :: rest) d =
      if t.length > 32 then .ok ([], rest)
      else if t.length = 32 then .error .strOverflow
      else .ok (t, rest) := by
  have hToken : (t ++ d :: rest).take ((t ++ d :: rest).length - (d :: rest).length) = t := by
    rw [List.length_append, Nat.add_sub_cancel, List.take_left]
  grind [getString, strchr_append, strchr_self]

theorem getString_ok {t : CStr} (h : getString p d = .ok (t, rest)) :
    ∃ token, p = token ++ d :: rest ∧ d ∉ token ∧ token.length ≠ 32 := by
  by_cases hMem : d ∈ p
  · obtain ⟨token, r, rfl, hNot⟩ := List.eq_append_cons_of_mem hMem
    rw [getString_token hNot] at h
    split_ifs at h
    · cases h
      exact ⟨token, rfl, hNot, by omega⟩
    · cases h
      exact ⟨t, rfl, hNot, by omega⟩
  · rw [getString, strchr_eq_none hMem] at h
    cases h

theorem tokens_of_parseEntry {n : Nat} {part : Part}
    (h : parseEntry p n = .ok (part, rest)) : Tokens delimiters p rest := by
  obtain ⟨⟨device, p1⟩, h1, h⟩ := bind_ok h
  obtain ⟨⟨devNo, p2⟩, h2, h⟩ := bind_ok h
  obtain ⟨⟨partitionName, p3⟩, h3, h⟩ := bind_ok h
  obtain ⟨⟨fs, p4⟩, h4, h⟩ := bind_ok h
  obtain ⟨⟨start, p5⟩, h5, h⟩ := bind_ok h
  obtain ⟨⟨length, p6⟩, h6, h⟩ := bind_ok h
  obtain ⟨⟨fileName, p7⟩, h7, h⟩ := bind_ok h
  simp only [pure, Except.pure, Except.ok.injEq, Prod.mk.injEq] at h
  obtain ⟨-, rfl⟩ := h
  obtain ⟨t1, rfl, n1, s1⟩ := getString_ok h1
  obtain ⟨t2, rfl, n2, s2⟩ := getString_ok h2
  obtain ⟨t3, rfl, n3, s3⟩ := getString_ok h3
  obtain ⟨t4, rfl, n4, s4⟩ := getString_ok h4
  obtain ⟨t5, rfl, n5, s5⟩ := getString_ok h5
  obtain ⟨t6, rfl, n6, s6⟩ := getString_ok h6
  obtain ⟨t7, rfl, n7, s7⟩ := getString_ok h7
  exact .cons n1 s1 (.cons n2 s2 (.cons n3 s3 (.cons n4 s4 (.cons n5 s5 (.cons n6 s6
    (.cons n7 s7 (.nil _)))))))

theorem getString_of_tokens {ds : List UInt8}
    (h : Tokens (d :: ds) p rest) : ∃ t q, getString p d = .ok (t, q) ∧ Tokens ds q rest := by
  cases h with
  | @cons _ _ t q _ plain size tail =>
      rw [getString_token plain]
      split_ifs with hLong
      · exact ⟨[], q, rfl, tail⟩
      · exact ⟨t, q, rfl, tail⟩

theorem parseEntry_of_tokens (h : Tokens delimiters p rest) (n : Nat) :
    ∃ part, parseEntry p n = .ok (part, rest) := by
  obtain ⟨device, p1, h1, h⟩ := getString_of_tokens h
  obtain ⟨devNo, p2, h2, h⟩ := getString_of_tokens h
  obtain ⟨partitionName, p3, h3, h⟩ := getString_of_tokens h
  obtain ⟨fs, p4, h4, h⟩ := getString_of_tokens h
  obtain ⟨start, p5, h5, h⟩ := getString_of_tokens h
  obtain ⟨length, p6, h6, h⟩ := getString_of_tokens h
  obtain ⟨fileName, p7, h7, h⟩ := getString_of_tokens h
  cases h
  rw [parseEntry, h1]
  simp only [bind, Except.bind, h2, h3, h4, h5, h6, h7, pure, Except.pure]
  exact ⟨_, rfl⟩

theorem parseEntries_ok_iff {n : Nat} {count : Nat} :
    (∃ parts, parseEntries n p count = .ok parts) ↔ Readable n p := by
  constructor
  · rintro ⟨parts, h⟩
    induction n generalizing p count parts with
    | zero => exact .full p
    | succ n ih =>
        cases hHead : parsePartHead p with
        | none => exact .last (parsePartHead_eq_none.mp hHead)
        | some q =>
            simp only [parseEntries, hHead] at h
            obtain ⟨⟨part, rest⟩, hEntry, h⟩ := bind_ok h
            obtain ⟨parts', hRest, -⟩ := bind_ok h
            exact .entry (parsePartHead_eq_some.mp hHead) (tokens_of_parseEntry hEntry)
              (ih parts' hRest)
  · intro h
    induction h generalizing count with
    | full p => exact ⟨[], rfl⟩
    | last done =>
        rw [parseEntries, parsePartHead_eq_none.mpr done]
        exact ⟨[], rfl⟩
    | entry head tokens tail ih =>
        obtain ⟨part, hPart⟩ := parseEntry_of_tokens tokens count
        obtain ⟨parts, hParts⟩ := @ih (if part.fsType.inMask then count + 1 else count)
        refine ⟨part :: parts, ?_⟩
        rw [parseEntries, parsePartHead_eq_some.mpr head]
        simp only [hPart, hParts, bind, Except.bind, pure, Except.pure]

theorem safe_iff (loaded : List UInt8) :
    Safe loaded ↔ 35 ∉ mapText loaded ∧ Readable devPartMax (mapText loaded) := by
  have hBlank : ∀ c ∈ mapText loaded, isBlank c = false := fun c => isBlank_of_mem_mapText
  have hLine : 10 ∉ mapText loaded := fun hc => absurd (hBlank 10 hc) (by decide)
  constructor
  · rintro ⟨⟨parts, hParts⟩, -⟩
    rw [partListsMake_squeezed hBlank] at hParts
    split_ifs at hParts with hHash
    exact ⟨hHash, parseEntries_ok_iff.mp ⟨parts, hParts⟩⟩
  · rintro ⟨hHash, hReadable⟩
    constructor
    · rw [partListsMake_squeezed hBlank, if_neg hHash]
      exact parseEntries_ok_iff.mpr hReadable
    · intro p hp
      rw [parseComment_squeezed hLine, if_neg hHash] at hp
      cases hp
      rw [squeezeEnd, Nat.sub_self, Nat.zero_add]

end Fire3.SdRecovery

import Fire3.Fastboot.MapLists
import Fire3.Fastboot.PartTable

/-!
Commands `flash partmap` with well-formed maps are safe in memory, in any sequence.

Between two entries the allocated records are those in the list. Only an entry that is refused
behind its device breaks this, and in a map of well-formed entries none is.
-/

namespace Fire3.Fastboot
open CString ByteMemory

variable {r : Records}

structure Records.Sound (r : Records) : Prop where
  linked : r.live = r.links
  old : ∀ id ∈ r.live, id < r.next

section
variable {r : Records}

theorem Records.Sound.reach (h : r.Sound) : r.reach = .ok r :=
  if_pos fun _ hMem => h.linked ▸ hMem

theorem Records.Sound.add (h : r.Sound) : (r.malloc.link r.next).Sound where
  linked := congrArg (· ++ [r.next]) h.linked
  old := by
    intro id hMem
    obtain hOld | hNew := List.mem_append.mp hMem
    · exact Nat.lt_succ_of_lt (h.old id hOld)
    · rw [List.mem_singleton.mp hNew]
      exact Nat.lt_succ_self _

theorem freeLinks_self (r : Records) (ids : List Nat) :
    Records.freeLinks ids { r with live := ids } = .ok { r with live := [], links := [] } := by
  induction ids with
  | nil => rfl
  | cons id ids ih =>
      rw [Records.freeLinks, if_pos List.mem_cons_self, Records.free, if_pos List.mem_cons_self,
        List.erase_cons_head]
      exact ih

theorem Records.Sound.partListsInit (h : r.Sound) :
    r.partListsInit = .ok { r with live := [], links := [] } := by
  have hSelf := freeLinks_self r r.links
  obtain ⟨next, live, links⟩ := r
  obtain rfl : live = links := h.linked
  exact hSelf

theorem sound_empty (r : Records) : ({ r with live := [], links := [] } : Records).Sound :=
  ⟨rfl, by simp⟩

end

def MapEntry.Short (e : MapEntry) : Prop :=
  e.no.length < 28 ∧ e.start.text.length + 1 + e.length.text.length < 64

theorem trimmed_le (behind : Nat → UInt8) (s : CStr) (n : Nat) : trimmed behind s n ≤ n := by
  induction n with
  | zero => exact le_refl _
  | succ n ih =>
      rw [trimmed]
      grind

theorem MapEntry.Short.read {e : MapEntry} (h : e.Short) (behind : Nat → UInt8) (rest : CStr)
    (cnt : Nat) : ∃ part, e.read behind rest cnt = some part := by
  have hCut : e.lengthCut behind rest ≤ e.start.text.length + 1 + e.length.text.length :=
    trimmed_le behind _ _
  obtain ⟨hNo, hNumbers⟩ := h
  exact ⟨_, if_neg (by omega)⟩

theorem colon_mem_body (e : MapEntry) (rest : CStr) : strchr (e.body rest) 58 ≠ none := by
  rw [MapEntry.body, strchr_append (by decide), strchr, if_neg (by decide),
    strchr_append (notMem_of_isDigit e.no_digits (by decide)), strchr_self]
  exact Option.some_ne_none _

section
variable {m : FlashMap} {behind : Nat → UInt8}

theorem sound_makeEntries {items : List MapItem} {heap : List CStr} (cnt : Nat)
    (parts : List FlashPart) (hPlain : m.Plain items)
    (hShort : ∀ e ∈ items.filterMap MapItem.entry?, e.Short)
    (hNames : (parts.map FlashPart.partition ++
      (items.filterMap MapItem.entry?).map MapEntry.name).Nodup)
    (hHeap : ∀ e ∈ items.filterMap MapItem.entry?, e.name ∉ heap) (hSound : r.Sound) :
    ∃ r' made, makeEntries behind heap r (m.sortedFrom items) cnt parts = .ok (r', made) ∧ r'.Sound := by
  induction items generalizing heap r cnt parts with
  | nil =>
      rw [makeEntries, parsePartHead_last hPlain]
      exact ⟨_, _, rfl, hSound⟩
  | cons i items ih =>
      have hRest := Plain.tail hPlain
      rw [sortedFrom_cons]
      cases i with
      | space s blank =>
          rw [MapItem.text, sortString_space blank, List.nil_append]
          exact ih _ _ hRest hShort hNames hHeap hSound
      | comment s inLine =>
          have hHead := parsePartHead_plain (hPlain.1 s inLine List.mem_cons_self)
            (head_sortedFrom (m := m) items)
          have hSkip : makeEntries behind heap r (35 :: sortString s ++ m.sortedFrom items) cnt parts =
              makeEntries behind heap r (m.sortedFrom items) cnt parts := by
            rw [makeEntries, hHead, ← makeEntries]
          rw [MapItem.text, sortString_comment, hSkip]
          exact ih _ _ hRest hShort hNames hHeap hSound
      | entry e =>
          have hSorted : ∀ c ∈ m.sortedFrom items, isBlank c = false := fun c hc =>
            (mem_withoutBlanks.mp hc).2
          have hCons : (MapItem.entry e :: items).filterMap MapItem.entry? =
              e :: items.filterMap MapItem.entry? := rfl
          rw [hCons] at hShort hHeap hNames
          obtain ⟨hFirst, hShort⟩ := List.forall_mem_cons.mp hShort
          obtain ⟨hNew, hHeap⟩ := List.forall_mem_cons.mp hHeap
          rw [MapItem.text, e.sortString_text, makeEntries, parsePartHead,
            behindFirst_self (by decide)]
          cases heap with
          | nil => exact ⟨_, _, rfl, hSound⟩
          | cons stale heap =>
              rw [List.mem_cons, not_or] at hNew
              obtain ⟨part, hPart⟩ := hFirst.read behind (m.sortedFrom items) cnt
              have hName : e.name ∉ parts.map FlashPart.partition ++ [stale] := by
                grind
              have hEntry := (parseEntry_body e hSorted).mpr ⟨hName, part, hPart, rfl⟩
              simp only [if_neg (colon_mem_body e _), hEntry, hSound.add.reach]
              refine ih _ _ hRest hShort ?_
                (fun e' he' hMem => hHeap e' he' (List.mem_cons_of_mem _ hMem))
                hSound.add
              rw [List.map_append, List.map_singleton, partition_of_read hPart]
              simpa using hNames

theorem parseEntries_of_makeEntries {heap : List CStr} {r' : Records} {p : CStr} {cnt : Nat}
    {parts all : List FlashPart} (h : makeEntries behind heap r p cnt parts = .ok (r', some all)) :
    parseEntries behind heap p cnt parts = .ok all := by
  induction heap generalizing r p cnt parts with
  | nil =>
      rw [makeEntries] at h
      rw [parseEntries]
      cases hHead : parsePartHead p with
      | none =>
          grind
      | some p =>
          simp only [hHead] at h
          cases h
  | cons stale heap ih =>
      rw [makeEntries] at h
      rw [parseEntries]
      cases hHead : parsePartHead p with
      | none =>
          grind
      | some p =>
          simp only [hHead] at h
          split_ifs at h with hColon
          · exact absurd h
              (by cases r.malloc.free r.next <;> simp [bind, Except.bind, pure, Except.pure])
          · cases hEntry : parseEntry behind stale parts cnt p with
            | error f =>
                rw [hEntry] at h
                cases f <;> cases hFree : (r.malloc.link r.next).free r.next <;>
                  simp [hFree, bind, Except.bind, pure, Except.pure] at h
            | ok next =>
                obtain ⟨part, p⟩ := next
                rw [hEntry] at h
                cases hReach : (r.malloc.link r.next).reach with
                | error f => simp [hReach, bind, Except.bind] at h
                | ok r =>
                    rw [hReach] at h
                    exact bind_eq_ok_iff.mpr ⟨_, hEntry, ih h⟩

end

section
variable {c : MapSource} {m : FlashMap}

theorem length_copied (c : MapSource) : c.copied.length = c.text.length := by
  have hLe : c.string.length ≤ c.text.length := (List.takeWhile_prefix _).length_le
  rw [MapSource.copied, List.length_append, List.length_replicate]
  omega

theorem load_frame (c : MapSource) {off len : Nat} (h : off + len ≤ c.text.length) :
    load c.frame off len = (c.copied.drop off).take len := by
  rw [← length_copied] at h
  refine List.ext_getElem (by simp; omega) fun i hLow hHigh => ?_
  have hi : off + i < c.copied.length := by
    rw [length_load] at hLow
    omega
  simp only [getElem_load, List.getElem_take, List.getElem_drop, MapSource.frame]
  grind

theorem length_keptBytes_le (c : MapSource) (off len : Nat) : (c.keptBytes off len).length ≤ len :=
  (List.length_filter_le _ _).trans (length_load ..).le

theorem takeWhile_of_notMem {bytes : List UInt8} (zeros : List UInt8) (h : 0 ∉ bytes)
    (hZeros : ∀ c ∈ zeros.head?, c = 0) : (bytes ++ zeros).takeWhile (· ≠ 0) = bytes := by
  have hAll : ∀ c ∈ bytes, decide (c ≠ 0) = true := fun c hc => by
    simpa using ne_of_mem_of_not_mem hc h
  rw [List.takeWhile_append_of_pos hAll]
  cases zeros with
  | nil => simp
  | cons c zeros =>
      rw [hZeros c rfl]
      simp

/-- The text is a map: its comments end and do not look like entries, no token fills its buffer, the
name of an entry does not stand in a new record, the device has room for its partitions, and the
memory behind the text has no comment. -/
structure WellFormedMap (c : MapSource) (m : FlashMap) : Prop where
  text : c.text = m.text
  closed : m.last = none
  plain : m.Plain m.items
  short : ∀ e ∈ m.entries, e.Short
  fresh : ∀ e ∈ m.entries, e.name ∉ c.heap
  few : (m.entries.filter (·.fs.2.inMask)).length ≤ devPartMax
  quiet : 35 ∉ c.stack

def MapSource.NoEntries (c : MapSource) : Prop :=
  35 ∉ c.seen ∧ ¬ascii "flash=" <:+: sortString c.string

def MapSource.Harmless (c : MapSource) : Prop := (∃ m, WellFormedMap c m) ∨ c.NoEntries

structure Prepared (c : MapSource) (p sorted : CStr) : Prop where
  comment : parseComment c.seen (c.seen.length + 1) c.seen c.text.length = .ok p
  inside : c.seen.length - p.length ≤ c.text.length
  sorted : (c.keptBytes (c.seen.length - p.length)
    (c.text.length - (c.seen.length - p.length))).takeWhile (· ≠ 0) = sorted

def MakesSafely (r : Records) (size : Nat) (c : MapSource) : Prop :=
  ∃ r' made, makeLists r size c = .ok (r', made) ∧ r'.Sound ∧
    ∀ parts ∈ made, (filesystems parts).length ≤ devPartMax

theorem sound_makeLists {size : Nat} {p sorted : CStr} (hSound : r.Sound)
    (hSize : c.text.length < size) (hPrepared : Prepared c p sorted)
    (hLoop : ∀ r : Records, r.Sound → ∀ behind, ∃ r' made,
      makeEntries behind c.heap r sorted 0 [] = .ok (r', made) ∧ r'.Sound ∧
        ∀ parts ∈ made, (filesystems parts).length ≤ devPartMax) : MakesSafely r size c := by
  obtain ⟨hComment, hInside, hSorted⟩ := hPrepared
  have hLength := length_keptBytes_le c (c.seen.length - p.length)
    (c.text.length - (c.seen.length - p.length))
  obtain ⟨r', made, hMake, hSound', hFew⟩ := hLoop _ (sound_empty r)
    (fun i => c.squeezed (c.seen.length - p.length) (c.text.length - (c.seen.length - p.length))
      (sorted.length + 1 + i))
  have hStep : makeLists r size c = failParse r' made := by
    rw [makeLists, hSound.partListsInit]
    simp only [bind, Except.bind, hComment]
    rw [if_neg (by omega), hSorted, hMake]
  rw [MakesSafely, hStep]
  cases made with
  | some parts => exact ⟨_, _, rfl, hSound', hFew⟩
  | none =>
      simp [failParse, hSound'.partListsInit, sound_empty]

theorem zero_notMem_text (hClosed : m.last = none) : 0 ∉ m.text := by
  intro hMem
  rw [FlashMap.text, FlashMap.textFrom, FlashMap.lastText, hClosed] at hMem
  obtain ⟨i, -, hIn⟩ := List.mem_flatMap.mp (by simpa using hMem)
  cases i with
  | space s blank => exact absurd (blank 0 hIn) (by decide)
  | comment s inLine => simp [MapItem.text, inLine.2] at hIn
  | entry e => exact e.notMem_text (.inl rfl) hIn

theorem exists_resume (hClosed : m.last = none) (len : Int) (off : Nat) (kept items : List MapItem) :
    ∃ ks, m.resume len off kept items = some ks := by
  induction items generalizing len off kept with
  | nil => exact ⟨kept, by rw [FlashMap.resume, hClosed]; rfl⟩
  | cons i items ih =>
      cases i with
      | space s blank | entry e => exact ih _ _ _
      | comment s inLine =>
          rw [FlashMap.resume]
          split_ifs
          · exact ⟨_, rfl⟩
          · exact ⟨_, rfl⟩
          · exact ih _ _ _

theorem WellFormedMap.prepared (h : WellFormedMap c m) :
    ∃ ks, ks <:+ m.items ∧ Prepared c (m.textFrom ks ++ c.stack) (m.sortedFrom ks) := by
  have hZero : 0 ∉ c.text := h.text ▸ zero_notMem_text h.closed
  have hString : c.string = m.text := by
    rw [MapSource.string, ← h.text]
    simpa using takeWhile_of_notMem [] hZero (by simp)
  have hCopied : c.copied = m.text := by
    rw [MapSource.copied, hString, h.text, Nat.sub_self]
    simp
  have hSeen : c.seen = m.text ++ c.stack := by
    rw [MapSource.seen, if_neg hZero, h.text]
  obtain ⟨ks, hKept⟩ := exists_resume h.closed c.text.length 0 m.items m.items
  have hSuffix := resume_suffix (List.suffix_refl _) (List.suffix_refl _) hKept
  obtain ⟨front, hItems⟩ := hSuffix
  have hText : m.text = front.flatMap MapItem.text ++ m.textFrom ks := by
    rw [FlashMap.text, ← hItems, FlashMap.textFrom, List.flatMap_append, List.append_assoc]
    rfl
  have hOff : c.seen.length - (m.textFrom ks ++ c.stack).length =
      (front.flatMap MapItem.text).length := by
    grind
  have hLen : c.text.length = (front.flatMap MapItem.text).length + (m.textFrom ks).length := by
    rw [h.text, hText, List.length_append]
  refine ⟨ks, ⟨front, hItems⟩, ?_, ?_, ?_⟩
  · have hComment := @parseComment_items m ((m.text ++ c.stack).length + 1) 0 c.text.length m.items
      m.items c.stack h.quiet (.inr h.closed) rfl (Nat.zero_add _).symm
      (by rw [List.length_append]; exact Nat.lt_succ_of_le (Nat.le_add_right ..))
    rw [hKept] at hComment
    rw [hSeen]
    exact hComment
  · rw [hOff, hLen]
    exact Nat.le_add_right ..
  · have hRest : c.keptBytes (front.flatMap MapItem.text).length (m.textFrom ks).length =
        m.sortedFrom ks := by
      rw [MapSource.keptBytes, load_frame c hLen.ge, hCopied, hText, List.drop_left, List.take_length]
      rfl
    rw [hOff, hLen, Nat.add_sub_cancel_left, hRest]
    refine (congrArg _ (List.append_nil _).symm).trans (takeWhile_of_notMem [] ?_ (by simp))
    intro hMem
    have hIn : (0 : UInt8) ∈ m.textFrom ks := (List.mem_filter.mp hMem).1
    exact zero_notMem_text h.closed (hText ▸ List.mem_append_right _ hIn)

theorem WellFormedMap.sound (h : WellFormedMap c m) {size : Nat} (hSound : r.Sound)
    (hSize : c.text.length < size) : MakesSafely r size c := by
  obtain ⟨ks, hSuffix, hPrepared⟩ := h.prepared
  have hEntries : ks.filterMap MapItem.entry? <:+ m.entries := hSuffix.filterMap _
  have hPlain : m.Plain ks :=
    ⟨fun s hs hMem => h.plain.1 s hs (hSuffix.subset hMem), h.plain.2⟩
  refine sound_makeLists hSound hSize hPrepared fun r hSound behind => ?_
  obtain ⟨r', made, hMake, hSound'⟩ := sound_makeEntries 0 [] hPlain
    (fun e he => h.short e (hEntries.subset he))
    (by simpa using m.distinct.sublist (hEntries.sublist.map _))
    (fun e he => h.fresh e (hEntries.subset he)) hSound
  refine ⟨r', made, hMake, hSound', ?_⟩
  rintro parts rfl
  obtain ⟨new, hNew, hParts, -⟩ := (parseEntries_items hPlain).mp (parseEntries_of_makeEntries hMake)
  have hTypes := congrArg (·.countP FsType.inMask) (types_readItems hNew)
  rw [List.countP_map, List.countP_map, List.countP_eq_length_filter,
    List.countP_eq_length_filter] at hTypes
  rw [hParts, List.nil_append]
  exact hTypes.trans_le ((hEntries.sublist.filter _).length_le.trans h.few)

theorem MapSource.NoEntries.sound (h : c.NoEntries) {size : Nat} (hSound : r.Sound)
    (hSize : c.text.length < size) : MakesSafely r size c := by
  have hNoZero : 0 ∉ sortString c.string := by
    intro hMem
    have hIn : (0 : UInt8) ∈ c.string := (List.mem_filter.mp hMem).1
    simpa using List.mem_takeWhile_imp hIn
  have hPrepared : Prepared c c.seen (sortString c.string) := by
    refine ⟨?_, by rw [Nat.sub_self]; exact Nat.zero_le _, ?_⟩
    · rw [parseComment, strchr_eq_none h.1]
    · have hZeros : (List.replicate (c.text.length - c.string.length) (0 : UInt8)).filter
          (!isBlank ·) = List.replicate (c.text.length - c.string.length) 0 :=
        List.filter_eq_self.mpr fun b hb => by
          rw [List.eq_of_mem_replicate hb]
          decide
      rw [Nat.sub_self, Nat.sub_zero, MapSource.keptBytes, load_frame c (by omega), List.drop_zero,
        List.take_of_length_le (length_copied c).le, MapSource.copied, List.filter_append, hZeros]
      refine takeWhile_of_notMem _ hNoZero fun b hb => ?_
      exact List.eq_of_mem_replicate (List.mem_of_mem_head? hb)
  have hHead : parsePartHead (sortString c.string) = none := by
    rw [parsePartHead, behindFirst, strstr_eq_none_iff.mpr h.2]
    rfl
  refine sound_makeLists hSound hSize hPrepared fun r hSound behind => ⟨r, none, ?_, hSound, by simp⟩
  rw [makeEntries, hHead]
  rfl

theorem MapSource.Harmless.sound (h : c.Harmless) {size : Nat} (hSound : r.Sound)
    (hSize : c.text.length < size) : MakesSafely r size c := by
  obtain ⟨m, hMap⟩ | hNone := h
  · exact hMap.sound hSound hSize
  · exact hNone.sound hSound hSize

end

/-- The map fits the buffer with a 0 behind it, and both it and the variable that may be read after
it are harmless. -/
structure PartmapCommand.Harmless (c : PartmapCommand) : Prop where
  fits : c.download.text.length < mapBuffer
  download : c.download.Harmless
  env : c.saved = false → ∀ env ∈ c.env, env.Harmless

theorem sound_flashEnv {env : Option MapSource} (hSound : r.Sound) (hEnv : ∀ e ∈ env, e.Harmless) :
    ∃ r', flashEnv r env = .ok r' ∧ r'.Sound := by
  cases env with
  | none => exact ⟨r, hSound.reach, hSound⟩
  | some env =>
      obtain ⟨r', made, hMake, hSound', -⟩ := (hEnv env rfl).sound (sound_empty r)
        (Nat.lt_succ_self env.text.length)
      refine ⟨r', ?_, hSound'⟩
      rw [flashEnv, hSound.partListsInit]
      simp only [bind, Except.bind, hMake]
      exact hSound'.reach

theorem sound_flashPartmap {c : PartmapCommand} (hSound : r.Sound) (h : c.Harmless) :
    ∃ r', flashPartmap r c = .ok r' ∧ r'.Sound := by
  obtain ⟨r₁, made, hMake, hSound₁, hFew⟩ := h.download.sound (sound_empty r) h.fits
  rw [flashPartmap, hSound.partListsInit]
  simp only [bind, Except.bind]
  rw [if_neg (Nat.not_lt.mpr h.fits.le), hMake]
  cases made with
  | none => exact ⟨_, hSound₁.partListsInit, sound_empty r₁⟩
  | some parts =>
      have hRows : partMbrUpdate parts ≠ none := by
        grind [partMbrUpdate, fillRows]
      simp only [hSound₁.reach, if_neg hRows]
      cases hSaved : c.saved with
      | true => exact ⟨_, hSound₁.partListsInit, sound_empty r₁⟩
      | false =>
          obtain ⟨r₂, hEnv, hSound₂⟩ := sound_flashEnv hSound₁ (h.env hSaved)
          simp only [Bool.false_eq_true, if_false, hEnv]
          exact ⟨_, hSound₂.partListsInit, sound_empty r₂⟩

theorem sound_run {cs : List PartmapCommand} (hSound : r.Sound) (h : ∀ c ∈ cs, c.Harmless) :
    ∃ r', cs.foldlM flashPartmap r = .ok r' ∧ r'.Sound := by
  induction cs generalizing r with
  | nil => exact ⟨r, rfl, hSound⟩
  | cons c cs ih =>
      obtain ⟨hFirst, hRest⟩ := List.forall_mem_cons.mp h
      obtain ⟨r', hStep, hSound'⟩ := sound_flashPartmap hSound hFirst
      rw [List.foldlM_cons, hStep]
      exact ih hSound' hRest

theorem partmap_commands_safe (cs : List PartmapCommand) (h : ∀ c ∈ cs, c.Harmless) :
    ∃ r, cs.foldlM flashPartmap Records.start = .ok r :=
  (sound_run (sound_empty Records.start) h).imp fun _ hRun => hRun.1

/-- A download with nothing behind it, and free memory for two records. -/
def downloaded (text : CStr) : PartmapCommand := ⟨⟨text, [], fun _ => 0, [[], []]⟩, true, none⟩

theorem partmap_commands_safe_twice :
    ∃ r, [downloaded mapBehindNote.text, downloaded mapBehindNote.text].foldlM flashPartmap
      Records.start = .ok r := by
  have hMap : WellFormedMap ⟨mapBehindNote.text, [], fun _ => 0, [[], []]⟩ mapBehindNote := by
    have hEntries : mapBehindNote.entries = [bootEntry, miscEntry] := rfl
    refine ⟨rfl, rfl, ⟨?_, by simp [mapBehindNote]⟩, ?_, ?_, by decide, by simp⟩
    · intro s hs hMem
      have hNote : s = ascii " boot area" := by simpa [mapBehindNote, note] using hMem
      rw [hNote]
      decide
    · rw [hEntries, List.forall_mem_cons, List.forall_mem_singleton]
      exact ⟨⟨by decide, by decide⟩, ⟨by decide, by decide⟩⟩
    · rw [hEntries, List.forall_mem_cons, List.forall_mem_singleton]
      exact ⟨by decide, by decide⟩
  have hHarmless : (downloaded mapBehindNote.text).Harmless :=
    ⟨by decide, .inl ⟨_, hMap⟩, by simp [downloaded]⟩
  exact partmap_commands_safe _ (by simp [hHarmless])

theorem partmap_reached_after_free :
    flashPartmap Records.start (downloaded (ascii "flash=mmc,0:boot;")) = .error .reachedAfterFree := by
  rfl

end Fire3.Fastboot

import Fire3.Fastboot.SplitDownload

/-!
What a split download leaves on the card: the image in one piece, if the list has the entry
where the map has it and the requests keep to whole blocks.
-/

namespace Fire3.Fastboot
open CString ByteMemory

/-- After the download and the flash command the card holds the image from the start of `e` on, and
nothing has changed beside the blocks of the image. -/
def WritesImage (board : Board) (g : Gadget) (cmd : CStr) (e : FlashPart) : Prop :=
  ∀ (cards : Int → Mem) (chunks : List (List UInt8 × Answer)) (c : FlashCall),
    let d : Device := ⟨(g.cbDownload board cmd).1, cards⟩
    let after := ((d.complete board chunks).flash e.partition c).cards
    d.CompletesInFull board chunks → (sent chunks).length = simpleStrtoul cmd 16 % 2 ^ 32 →
      c.answer.found = true →
      load (after e.devNo) e.start (sent chunks).length = sent chunks ∧
        ∀ dev x, dev ≠ e.devNo ∨ x < e.start ∨
          e.start + blkSize * blkCount (sent chunks).length ≤ x → after dev x = cards dev x

/-- The list has the entry, and it starts in the block in which it starts in the map. -/
def Listed (g : Gadget) (e : FlashPart) : Prop :=
  ∃ fp ∈ g.parts, fp.partition = e.partition ∧ fp.start / blkSize = e.start / blkSize

/-- The setting of a split download for the entry `e` of the map. The list has the entry at some
start, or it does not have it. -/
structure SplitSetting (board : Board) (g : Gadget) (cmd : CStr) (e : FlashPart)
    (entry : Option FlashPart) : Prop where
  packet : board.maxpacket = 64 ∨ board.maxpacket = 512
  threshold : board.divSize = 0x10000000
  named : board.partition = some e.partition
  free : e.partition ∉ fReservePart
  large : board.bufSize < simpleStrtoul cmd 16 % 2 ^ 32
  start : blkSize ∣ e.start
  listed : g.parts.filter (·.partition = e.partition) = entry.toList
  same : ∀ fp ∈ entry, fp = { e with start := fp.start }
  room : ∀ fp ∈ entry, fp.start + 2 ^ 32 ≤ 2 ^ 64

section
variable {board : Board} {g : Gadget} {cmd : CStr} {e : FlashPart} {entry : Option FlashPart}

namespace SplitSetting

theorem packet_bounds (h : SplitSetting board g cmd e entry) :
    0 < board.maxpacket ∧ board.maxpacket ≤ epBufferSize := by
  have := h.packet
  rw [epBufferSize]
  omega

theorem running (h : SplitSetting board g cmd e entry) (cards : Int → Mem) :
    Running board (simpleStrtoul cmd 16 % 2 ^ 32) e.partition entry cards [] []
      ⟨(g.cbDownload board cmd).1, cards⟩ :=
  running_cbDownload g h.packet_bounds.2 h.named rfl h.large h.listed h.room

theorem pieces (h : SplitSetting board g cmd e entry) {cards : Int → Mem}
    {chunks : List (List UInt8 × Answer)} {c : FlashCall}
    (hFull : Device.CompletesInFull board ⟨(g.cbDownload board cmd).1, cards⟩ chunks)
    (hSent : (sent chunks).length = simpleStrtoul cmd 16 % 2 ^ 32) (ha : c.answer.found = true) :
    ∃ pieces last, contents (pieces ++ [last]) = sent chunks ∧ last.data ≠ [] ∧
      Cuts board (sent chunks).length 0 0 (cutsOf 0 pieces) ∧
      (∀ q ∈ pieces, blkSize ≤ q.data.length) ∧ (∀ q ∈ pieces ++ [last], FillsBlocks q) ∧
      ((Device.complete board ⟨(g.cbDownload board cmd).1, cards⟩ chunks).flash e.partition c).cards =
        placed entry cards (pieces ++ [last]) := by
  have hPos : 0 < simpleStrtoul cmd 16 % 2 ^ 32 := Nat.lt_of_le_of_lt (Nat.zero_le _) h.large
  obtain ⟨new, rest, hSome, hNew, hCuts, hFills, hEnd⟩ := (h.running cards).complete h.packet_bounds
    (by rw [h.threshold]; decide) hPos hFull hSent
  refine ⟨new, bufferPiece _ rest.length, ?_, ?_, hSent ▸ hCuts, fun q hq => (hFills q hq).2, ?_,
    hEnd.flash h.free ha⟩
  · rw [contents_append, contents_cons, contents_nil, List.append_nil]
    exact (congrArg _ hEnd.buf).trans hNew
  · exact fun hNil => hSome (hEnd.buf.symm.trans hNil)
  · intro q hq
    grind [List.mem_singleton, fillsBlocks_bufferPiece]

theorem exists_run (h : SplitSetting board g cmd e entry) (cards : Int → Mem) (image : List UInt8)
    (hImage : image.length = simpleStrtoul cmd 16 % 2 ^ 32) :
    ∃ chunks, Device.CompletesInFull board ⟨(g.cbDownload board cmd).1, cards⟩ chunks ∧
      sent chunks = image :=
  (h.running cards).exists_chunks h.packet_bounds image hImage

theorem entry_eq (h : SplitSetting board g cmd e entry) {fp : FlashPart} (hMem : fp ∈ g.parts)
    (hName : fp.partition = e.partition) : entry = some fp := by
  have hFound : fp ∈ g.parts.filter (·.partition = e.partition) :=
    List.mem_filter.mpr ⟨hMem, by simpa using hName⟩
  rw [h.listed] at hFound
  exact Option.mem_toList.mp hFound

end SplitSetting

theorem pad_eq_nil {q : Piece} (h : FillsBlocks q) (hWhole : blkSize ∣ q.data.length) : q.pad = [] := by
  rw [FillsBlocks, List.length_append, blkCount_eq, blkSize] at h
  rw [blkSize] at hWhole
  exact List.eq_nil_of_length_eq_zero (by omega)

theorem blkCount_add {n : Nat} (h : blkSize ∣ n) (k : Nat) :
    blkSize * blkCount (n + k) = n + blkSize * blkCount k := by
  rw [blkSize] at h
  rw [blkCount_eq, blkCount_eq, blkSize]
  omega

theorem writesImage_of_whole (h : SplitSetting board g cmd e entry) (hListed : Listed g e)
    (hWhole : WholeBlocks board.maxpacket (simpleStrtoul cmd 16 % 2 ^ 32)) :
    WritesImage board g cmd e := by
  obtain ⟨fp, hMem, hName, hStart⟩ := hListed
  have hEntry := h.entry_eq hMem hName
  have hDev : fp.devNo = e.devNo := by rw [h.same fp hEntry]
  intro cards chunks c d after hFull hSent ha
  obtain ⟨pieces, last, hContents, -, hCuts, -, hFills, hAfter⟩ := h.pieces hFull hSent ha
  have hPieces : ∀ q ∈ pieces, blkSize ∣ q.data.length ∧ q.pad = [] := by
    intro q hq
    have hDvd := whole_of_cutsOf (Nat.dvd_zero 512)
      ((cuts_whole_iff h.packet h.threshold hCuts).mpr (hSent ▸ hWhole)) q hq
    exact ⟨hDvd, pad_eq_nil (hFills q (List.mem_append_left _ hq)) hDvd⟩
  have hDvd : blkSize ∣ (contents pieces).length := by
    obtain ⟨-, hEnd⟩ := patchAll_layout_whole (s := 0) (by decide) zero hPieces []
    rw [Nat.zero_add, Nat.zero_div, Nat.mul_zero, Nat.zero_add] at hEnd
    exact ⟨_, hEnd.symm⟩
  -- the blocks of the pieces follow each other
  have hCard : after e.devNo = store (cards e.devNo) e.start (sent chunks ++ last.pad) := by
    obtain ⟨hPatch, hEnd⟩ := patchAll_layout_whole (s := fp.start) (by decide) (cards fp.devNo)
      hPieces [last]
    have hBlock : blkSize * (fp.start / blkSize) = e.start := by
      rw [hStart, Nat.mul_div_cancel' h.start]
    have hLast : contents pieces ++ last.data = sent chunks := by
      rw [← hContents, contents_append, contents_cons, contents_nil, List.append_nil]
    rw [hBlock] at hPatch hEnd
    show ((d.complete board chunks).flash e.partition c).cards e.devNo = _
    rw [hAfter, hEntry, placed, ← hDev, Function.update_self, hPatch, layout, hEnd, layout, ← hLast,
      List.append_assoc, store_append]
    rfl
  have hLength : (sent chunks ++ last.pad).length = blkSize * blkCount (sent chunks).length := by
    have hEnd : (last.data ++ last.pad).length = blkSize * blkCount last.data.length :=
      hFills last (by simp)
    rw [← hContents, contents_append, contents_cons, contents_nil, List.append_nil,
      List.append_assoc, List.length_append, hEnd, List.length_append, blkCount_add hDvd]
  constructor
  · have hLoad := load_store_inside (cards e.devNo) e.start (sent chunks ++ last.pad) (o := 0)
      (w := (sent chunks).length) (by simp)
    rw [hCard]
    simpa using hLoad
  · intro dev x hOut
    by_cases hSame : dev = e.devNo
    · rw [hSame, hCard]
      grind [store_below, store_above]
    · show ((d.complete board chunks).flash e.partition c).cards dev x = _
      rw [hAfter, hEntry, placed, Function.update_of_ne (hDev ▸ hSame)]

def blockMarks (n : Nat) : List UInt8 := (List.range n).map fun i => if i % blkSize = 0 then 0 else 1

theorem getElem?_blockMarks {n i : Nat} (h : i < n) :
    (blockMarks n)[i]? = some (if i % blkSize = 0 then 0 else 1) := by
  simp [blockMarks, h]

theorem head?_of_contents {image : List UInt8} {ps rest : List Piece} {q : Piece}
    (h : contents (ps ++ q :: rest) = image) (hSome : q.data ≠ []) :
    q.data.head? = image[(contents ps).length]? := by
  rw [← h, contents_append, contents_cons, List.getElem?_append_right (le_refl _), Nat.sub_self]
  cases hData : q.data with
  | nil => exact absurd hData hSome
  | cons b bs => rfl

theorem first_byte (fp : FlashPart) (cards : Int → Mem) {pieces ps : List Piece} {last q : Piece}
    {rest : List Piece} {image : List UInt8} {b : UInt8}
    (hContents : contents (pieces ++ [last]) = image) (hLast : last.data ≠ [])
    (hLong : ∀ q ∈ pieces, blkSize ≤ q.data.length) (hSplit : pieces ++ [last] = ps ++ q :: rest)
    (hByte : image[(contents ps).length]? = some b) :
    placed (some fp) cards (pieces ++ [last]) fp.devNo
      (blkSize * ((fp.start + (contents ps).length) / blkSize)) = b := by
  have hPos : 0 < blkSize := by decide
  have hNext : (q.data ≠ [] ∧ (blkSize ≤ q.data.length ∨ rest = [])) := by
    obtain rfl | ⟨rest, l, rfl⟩ := List.eq_nil_or_concat rest
    · obtain ⟨-, hEq⟩ := List.append_inj' hSplit rfl
      cases hEq
      exact ⟨hLast, .inr rfl⟩
    · have hShorter : pieces ++ [last] = (ps ++ q :: rest) ++ [l] := by simpa using hSplit
      have hMem : q ∈ pieces := by
        rw [(List.append_inj' hShorter rfl).1]
        simp
      have hLen := hLong q hMem
      exact ⟨List.ne_nil_of_length_pos (by omega), .inl hLen⟩
  rw [placed, Function.update_self, hSplit]
  refine patchAll_layout_first hPos _ ps q b ?_ hNext.2
  rw [head?_of_contents (hSplit ▸ hContents) hNext.1, hByte]

theorem listed_of_writesImage (h : SplitSetting board g cmd e entry)
    (hWrites : WritesImage board g cmd e) :
    Listed g e := by
  have hPos : 0 < simpleStrtoul cmd 16 % 2 ^ 32 := Nat.lt_of_le_of_lt (Nat.zero_le _) h.large
  obtain ⟨chunks, hFull, hImage⟩ := h.exists_run (fun _ => zero)
    (List.replicate (simpleStrtoul cmd 16 % 2 ^ 32) 1) List.length_replicate
  have hSent : (sent chunks).length = simpleStrtoul cmd 16 % 2 ^ 32 := by simp [hImage]
  have hFirst : (sent chunks)[0]? = some 1 := by
    rw [hImage, List.getElem?_replicate, if_pos hPos]
  let c := flashOneBlock workingCard
  obtain ⟨hHolds, hOut⟩ := hWrites (fun _ => zero) chunks c hFull hSent rfl
  obtain ⟨pieces, last, hContents, hLast, -, hLong, -, hAfter⟩ :=
    h.pieces (c := c) hFull hSent rfl
  rw [hAfter] at hHolds hOut
  have hStart : placed entry (fun _ => zero) (pieces ++ [last]) e.devNo e.start = 1 := by
    have hBytes := (load_eq_iff _ _ _).mp hHolds 0 (by omega)
    grind
  cases hEntry : entry with
  | none =>
      rw [hEntry] at hStart
      exact absurd hStart (by simp [placed, zero])
  | some fp =>
      have hDev : fp.devNo = e.devNo := by rw [h.same fp hEntry]
      have hFound : fp ∈ g.parts.filter (·.partition = e.partition) := by
        rw [h.listed, hEntry]
        simp
      obtain ⟨hMem, hName⟩ := List.mem_filter.mp hFound
      refine ⟨fp, hMem, by simpa using hName, ?_⟩
      by_contra hMoved
      obtain ⟨k, hk⟩ := h.start
      have hBlock : e.start / blkSize = k := by
        rw [hk, Nat.mul_div_cancel_left _ (by decide)]
      obtain ⟨q, qs, hSplit⟩ := List.exists_cons_of_ne_nil (show pieces ++ [last] ≠ [] by simp)
      have hByte := @first_byte fp (fun _ => zero) _ [] _ q qs _ _ hContents hLast hLong hSplit hFirst
      rw [hEntry] at hStart hOut
      rw [contents_nil, List.length_nil, Nat.add_zero, hDev] at hByte
      by_cases hHigh : e.start < blkSize * (fp.start / blkSize)
      · -- nothing is written below the block in which the entry starts
        rw [placed, ← hDev, Function.update_self, patchAll_layout_below _ hHigh] at hStart
        exact absurd hStart (by simp [zero])
      · have hLow : blkSize * (fp.start / blkSize) < e.start := by
          grind [Nat.mul_lt_mul_left, lt_of_le_of_ne, Nat.le_of_mul_le_mul_left, Nat.not_lt]
        rw [hOut e.devNo _ (.inr (.inl hLow))] at hByte
        exact absurd hByte (by simp [zero])

theorem whole_of_writesImage (h : SplitSetting board g cmd e entry) (hListed : Listed g e)
    (hWrites : WritesImage board g cmd e) :
    WholeBlocks board.maxpacket (simpleStrtoul cmd 16 % 2 ^ 32) := by
  obtain ⟨fp, hMem, hName, hStart⟩ := hListed
  have hEntry := h.entry_eq hMem hName
  have hDev : fp.devNo = e.devNo := by rw [h.same fp hEntry]
  obtain ⟨chunks, hFull, hImage⟩ := h.exists_run (fun _ => zero)
    (blockMarks (simpleStrtoul cmd 16 % 2 ^ 32)) (by simp [blockMarks])
  have hSent : (sent chunks).length = simpleStrtoul cmd 16 % 2 ^ 32 := by simp [hImage, blockMarks]
  let c := flashOneBlock workingCard
  obtain ⟨hHolds, hOut⟩ := hWrites (fun _ => zero) chunks c hFull hSent rfl
  obtain ⟨pieces, last, hContents, hLast, hCuts, hLong, -, hAfter⟩ :=
    h.pieces (c := c) hFull hSent rfl
  rw [hAfter, hEntry] at hHolds hOut
  rw [← hSent]
  refine (cuts_whole_iff h.packet h.threshold hCuts).mp fun cut hCut => ?_
  obtain ⟨ps, rest, hPieces, hAt⟩ := exists_of_mem_cutsOf hCut
  rw [Nat.zero_add] at hAt
  obtain ⟨q, qs, hRest⟩ := List.exists_cons_of_ne_nil (show rest ++ [last] ≠ [] by simp)
  have hSplit : pieces ++ [last] = ps ++ q :: qs := by rw [hPieces, List.append_assoc, hRest]
  by_contra hOdd
  have hInside : cut < (sent chunks).length := hCuts.lt cut hCut
  have hMark : (sent chunks)[(contents ps).length]? = some 1 := by
    rw [hAt, hImage, getElem?_blockMarks (by omega), if_neg (by rw [blkSize]; omega)]
  have hByte := first_byte fp (fun _ => zero) hContents hLast hLong hSplit hMark
  -- the byte stands at the start of a block, where the image has another one
  obtain ⟨k, hk⟩ := h.start
  obtain ⟨j, hj⟩ : ∃ j, (fp.start + (contents ps).length) / blkSize = k + j := by
    have hLe : fp.start / blkSize ≤ (fp.start + (contents ps).length) / blkSize :=
      Nat.div_le_div_right (Nat.le_add_right ..)
    rw [hStart, hk, Nat.mul_div_cancel_left _ (by decide)] at hLe
    exact Nat.exists_eq_add_of_le hLe
  rw [hj, Nat.mul_add, ← hk, hDev] at hByte
  by_cases hImageByte : blkSize * j < (sent chunks).length
  · have hBytes := (load_eq_iff _ _ _).mp hHolds (blkSize * j) hImageByte
    rw [hByte] at hBytes
    have hZero : (sent chunks)[blkSize * j]? = some 0 := by
      rw [hImage, getElem?_blockMarks (by omega), if_pos (Nat.mul_mod_right ..)]
    grind
  · have hBehind : e.start + blkSize * blkCount (sent chunks).length ≤ e.start + blkSize * j := by
      have hCount : blkSize * blkCount (sent chunks).length ≤ blkSize * j := by
        grind [blkSize, blkCount_eq]
      omega
    rw [hOut e.devNo _ (.inr (.inr hBehind))] at hByte
    exact absurd hByte (by simp [zero])

theorem split_download_iff (h : SplitSetting board g cmd e entry) :
    WritesImage board g cmd e ↔
      Listed g e ∧ WholeBlocks board.maxpacket (simpleStrtoul cmd 16 % 2 ^ 32) := by
  constructor
  · grind [listed_of_writesImage, whole_of_writesImage]
  · grind [writesImage_of_whole]

def splitBoard : Board := { s5p6818 with partition := some (ascii "system") }

def systemPart : FlashPart := ⟨ascii "system", 0, 0x4000000, 0xC0000000, .ext4, some 1⟩

def waiting (parts : List FlashPart) : Gadget := { Gadget.idle zero with parts := parts }

theorem splitSetting_system (entry : Option FlashPart) (hEntry : ∀ fp ∈ entry, fp = systemPart) :
    SplitSetting splitBoard (waiting entry.toList) (ascii "40000000") systemPart entry where
  packet := .inr rfl
  threshold := rfl
  named := rfl
  free := by decide
  large := by decide
  start := by decide
  listed := by
    cases entry with
    | none => rfl
    | some fp =>
        rw [hEntry fp rfl]
        rfl
  same := by
    intro fp hfp
    rw [hEntry fp hfp]
  room := by
    intro fp hfp
    rw [hEntry fp hfp]
    decide

theorem split_download_listed :
    SplitSetting splitBoard (waiting [systemPart]) (ascii "40000000") systemPart (some systemPart) ∧
      WritesImage splitBoard (waiting [systemPart]) (ascii "40000000") systemPart := by
  have hSetting := splitSetting_system (some systemPart) (by simp)
  exact ⟨hSetting, (split_download_iff hSetting).mpr
    ⟨⟨systemPart, List.mem_singleton_self _, rfl, rfl⟩, .inl rfl⟩⟩

theorem split_download_not_listed :
    ¬WritesImage splitBoard (waiting []) (ascii "40000000") systemPart := by
  intro hWrites
  obtain ⟨fp, hMem, -⟩ := listed_of_writesImage (splitSetting_system none (by simp)) hWrites
  cases hMem

end

end Fire3.Fastboot

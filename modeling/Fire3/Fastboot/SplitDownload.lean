import Fire3.Base.Pieces
import Fire3.Fastboot.Cuts

/-!
The download of an image that does not fit the buffer, and the flash command behind it.

The pieces are written from the start of the entry on, which moves with each of them. The
entry is looked up in the list as it is then: the download does not make the list, and a
flash command frees it.
-/

namespace Fire3.Fastboot
open CString ByteMemory

def writeBlocks (buf : Mem) (cards : Int → Mem) (r : Request) : Int → Mem :=
  Function.update cards r.dev
    (store (cards r.dev) (blkSize * r.blk) (load buf 0 (blkSize * r.cnt)))

def writeAll (buf : Mem) (cards : Int → Mem) (ws : List PartWrite) : Int → Mem :=
  (ws.filterMap PartWrite.request).foldl (writeBlocks buf) cards

structure Device where
  gadget : Gadget
  cards : Int → Mem

def Device.receive (board : Board) (d : Device) (data : List UInt8) (a : Answer) : Device :=
  let r := d.gadget.rxHandlerDlImage board 0 data a
  ⟨r.1, writeAll r.1.buf d.cards r.2.1⟩

def Device.complete (board : Board) (d : Device) (chunks : List (List UInt8 × Answer)) : Device :=
  chunks.foldl (fun d chunk => d.receive board chunk.1 chunk.2) d

def Device.flash (d : Device) (name : CStr) (c : FlashCall) : Device :=
  let r := d.gadget.cbFlash (some name) c
  ⟨r.1, writeAll r.1.buf d.cards r.2.1⟩

def Device.CompletesInFull (board : Board) : Device → List (List UInt8 × Answer) → Prop
  | _, [] => True
  | d, (data, a) :: rest =>
      (d.gadget.receiving = true ∧ a.found = true ∧
        data.length = min d.gadget.reqLength (d.gadget.downloadSize - d.gadget.downloadBytes)) ∧
        (d.receive board data a).CompletesInFull board rest

def FlashPart.advance (fp : FlashPart) (n : Nat) : FlashPart := { fp with start := fp.start + n }

section
variable {a : Answer} (name : CStr) (bytes : Nat) (response : CStr)

theorem parts_of_split (ha : a.found = true) (parts : List FlashPart) :
    let writes := (fbFlashWriteBasedPartmap true a name bytes parts response).1
    writes.filterMap PartWrite.request = (parts.filter (·.partition = name)).map (fun fp =>
        ⟨fp.devNo, fp.start / blkSize, blkCount bytes⟩) ∧
      (writes.map PartWrite.part).filter (·.partition = name) =
        (parts.filter (·.partition = name)).map fun fp =>
          { fp with start := (fp.start + bytes) % 2 ^ 64 } := by
  simp only [writes_of_parts]
  induction parts with
  | nil => exact ⟨rfl, rfl⟩
  | cons fp parts ih =>
      rw [List.map_cons, List.filterMap_cons, ih.1, List.map_cons, flashEntry_write]
      by_cases hName : fp.partition = name
      · simpa [hName, mmcPartWrite_split, ha] using ih.2
      · simpa [hName] using ih.2

end

def placed (entry : Option FlashPart) (cards : Int → Mem) (pieces : List Piece) : Int → Mem :=
  match entry with
  | none => cards
  | some fp =>
      Function.update cards fp.devNo (patchAll (cards fp.devNo) (layout blkSize fp.start pieces))

def FillsBlocks (q : Piece) : Prop :=
  (q.data ++ q.pad).length = blkSize * blkCount q.data.length

def bufferPiece (buf : Mem) (n : Nat) : Piece :=
  ⟨load buf 0 n, load buf n (blkSize * blkCount n - n)⟩

theorem le_blkCount (n : Nat) : n ≤ blkSize * blkCount n := by
  rw [blkCount_eq, blkSize]
  omega

theorem blocks_bufferPiece (buf : Mem) (n : Nat) :
    (bufferPiece buf n).data ++ (bufferPiece buf n).pad = load buf 0 (blkSize * blkCount n) := by
  have hLe := le_blkCount n
  have hAdd := load_add buf 0 n (blkSize * blkCount n - n)
  rw [Nat.add_sub_cancel' hLe, Nat.zero_add] at hAdd
  exact hAdd.symm

theorem fillsBlocks_bufferPiece (buf : Mem) (n : Nat) : FillsBlocks (bufferPiece buf n) := by
  rw [FillsBlocks, blocks_bufferPiece, length_load, bufferPiece, length_load]

structure Splitting (size : Nat) (name : CStr) (entry : Option FlashPart) (cards : Int → Mem)
    (pieces : List Piece) (held : List UInt8) (d : Device) : Prop where
  split : d.gadget.isDivDl = true
  part : d.gadget.divDlPart = name
  div : d.gadget.divDownloadBytes = held.length
  buf : load d.gadget.buf 0 held.length = held
  listed : d.gadget.parts.filter (·.partition = name) =
    (entry.map (·.advance (contents pieces).length)).toList
  written : d.cards = placed entry cards pieces
  room : ∀ fp ∈ entry, fp.start + 2 ^ 32 ≤ 2 ^ 64
  got_le : (contents pieces ++ held).length ≤ size
  size_lt : size < 2 ^ 32

structure Running (board : Board) (size : Nat) (name : CStr) (entry : Option FlashPart)
    (cards : Int → Mem) (pieces : List Piece) (held : List UInt8) (d : Device) : Prop
    extends Splitting size name entry cards pieces held d where
  announced : d.gadget.downloadSize = size
  bytes : d.gadget.downloadBytes = (contents pieces ++ held).length
  receiving : d.gadget.receiving = true
  request : d.gadget.reqLength = asked board.maxpacket (size - (contents pieces ++ held).length)

section
variable {board : Board} {size : Nat} {name : CStr} {entry : Option FlashPart} {cards : Int → Mem}
  {pieces : List Piece} {held : List UInt8} {d : Device}

theorem placed_snoc (q : Piece) :
    placed entry cards (pieces ++ [q]) =
      match entry with
      | none => cards
      | some fp => Function.update (placed entry cards pieces) fp.devNo
          (store (placed entry cards pieces fp.devNo)
            (blkSize * ((fp.start + (contents pieces).length) / blkSize)) (q.data ++ q.pad)) := by
  cases entry with
  | none => rfl
  | some fp =>
      simp only [placed, Function.update_self, Function.update_idem]
      rw [layout_append, patchAll_append]
      rfl

theorem Splitting.write (h : Splitting size name entry cards pieces held d) {a : Answer}
    (ha : a.found = true) (response : CStr) :
    writeAll d.gadget.buf d.cards
        (fbFlashWriteBasedPartmap true a name held.length d.gadget.parts response).1 =
      placed entry cards (pieces ++ [bufferPiece d.gadget.buf held.length]) := by
  rw [writeAll, (parts_of_split name held.length response ha _).1, h.listed, placed_snoc, h.written]
  cases entry with
  | none => rfl
  | some fp =>
      simp [writeBlocks, FlashPart.advance, blocks_bufferPiece]

theorem Splitting.moved (h : Splitting size name entry cards pieces held d) {a : Answer}
    (ha : a.found = true) (response : CStr) :
    ((fbFlashWriteBasedPartmap true a name held.length d.gadget.parts response).1.map
        PartWrite.part).filter (·.partition = name) =
      (entry.map
        (·.advance (contents (pieces ++ [bufferPiece d.gadget.buf held.length])).length)).toList := by
  have hLength : (contents (pieces ++ [bufferPiece d.gadget.buf held.length])).length =
      (contents pieces).length + held.length := by
    simp [bufferPiece]
  have hGot := h.got_le
  have hSize := h.size_lt
  rw [(parts_of_split name held.length response ha _).2, h.listed, hLength]
  rw [List.length_append] at hGot
  cases entry with
  | none => rfl
  | some fp =>
      have hRoom := h.room fp rfl
      have hMod : (fp.start + (contents pieces).length + held.length) % 2 ^ 64 =
          fp.start + ((contents pieces).length + held.length) := by
        omega
      simp only [Option.map_some, Option.toList_some, List.map_cons, List.map_nil,
        FlashPart.advance, hMod]

theorem Splitting.receive (h : Splitting size name entry cards pieces held d)
    (hSize : d.gadget.downloadSize = size)
    (hBytes : d.gadget.downloadBytes = (contents pieces ++ held).length) {data : List UInt8}
    (hData : (contents pieces ++ (held ++ data)).length ≤ size) :
    d.gadget.receive data = { d.gadget with
      buf := store d.gadget.buf held.length data
      downloadBytes := (contents pieces ++ (held ++ data)).length
      divDownloadBytes := (held ++ data).length } := by
  have hAll : data.take (d.gadget.downloadSize - d.gadget.downloadBytes) = data := by
    refine List.take_of_length_le ?_
    grind
  have hCount : (contents pieces ++ held).length + data.length =
      (contents pieces ++ (held ++ data)).length := by
    simp [Nat.add_assoc]
  rw [Gadget.receive, hAll]
  simp only [h.split, if_true, hBytes, h.div, hCount, ← List.length_append]

theorem load_held {buf : Mem} (h : load buf 0 held.length = held) (data : List UInt8) :
    load (store buf held.length data) 0 (held ++ data).length = held ++ data := by
  rw [List.length_append, load_add, load_store_disjoint _ _ _ _ _ (.inl (by omega)), h, Nat.zero_add,
    load_store_same]

/-- What a completed request may lead to: the image is complete, the buffer takes it, or the buffer
is written. -/
theorem Running.step (h : Running board size name entry cards pieces held d)
    (hPacket : board.maxpacket ≤ epBufferSize) {data : List UInt8} {a : Answer} (ha : a.found = true)
    (hData : data.length = nextLength board.maxpacket (size - (contents pieces ++ held).length)) :
    ((contents pieces ++ (held ++ data)).length = size ∧
        (d.receive board data a).gadget.receiving = false ∧
        Splitting size name entry cards pieces (held ++ data) (d.receive board data a)) ∨
      ((contents pieces ++ (held ++ data)).length < size ∧ (held ++ data).length < board.divSize ∧
        Running board size name entry cards pieces (held ++ data) (d.receive board data a)) ∨
      ((contents pieces ++ (held ++ data)).length < size ∧ board.divSize ≤ (held ++ data).length ∧
        ∃ q, q.data = held ++ data ∧ FillsBlocks q ∧
          Running board size name entry cards (pieces ++ [q]) [] (d.receive board data a)) := by
  have hLe : (contents pieces ++ (held ++ data)).length ≤ size := by
    have hGot := h.got_le
    have hMin : data.length ≤ size - (contents pieces ++ held).length := hData ▸ min_le_right ..
    grind
  have hReceive := h.toSplitting.receive h.announced h.bytes hLe
  -- the gadget with the new bytes in its buffer
  generalize hGadget : d.gadget.receive data = g at hReceive
  have hFilled : Splitting size name entry cards pieces (held ++ data) ⟨g, d.cards⟩ := by
    rw [hReceive]
    exact ⟨h.split, h.part, rfl, load_held h.buf data, h.listed, h.written, h.room, hLe, h.size_lt⟩
  have hSize : g.downloadSize = size := by
    rw [hReceive]
    exact h.announced
  have hBytes : g.downloadBytes = (contents pieces ++ (held ++ data)).length := by
    rw [hReceive]
  have hReceiving : g.receiving = true := by
    rw [hReceive]
    exact h.receiving
  have hLength := reqLength_request g board hPacket (by omega) (hSize ▸ h.size_lt)
  rw [hSize, hBytes] at hLength
  clear hReceive
  obtain ⟨length, hRequest⟩ := request_eq g board
  rw [hRequest] at hLength
  have hSplit : g.isDivDl = true := hFilled.split
  have hDiv : g.divDownloadBytes = (held ++ data).length := hFilled.div
  have hOn : ¬((0 : Int) ≠ 0 ∨ d.gadget.receiving = false) := by simp [h.receiving]
  by_cases hLast : (contents pieces ++ (held ++ data)).length = size
  · have hStep : d.gadget.rxHandlerDlImage board 0 data a =
        ({ g with downloadSize := 0, receiving := false, reqLength := epBufferSize }, [],
          some (ascii "OKAY")) := by
      rw [Gadget.rxHandlerDlImage, if_neg hOn, hGadget]
      exact if_pos (by omega)
    rw [Device.receive, hStep]
    exact .inl ⟨hLast, rfl, hFilled.split, hFilled.part, hFilled.div, hFilled.buf, hFilled.listed,
      hFilled.written, h.room, hLe, h.size_lt⟩
  · have hMore : (contents pieces ++ (held ++ data)).length < size := by omega
    have hStep : d.gadget.rxHandlerDlImage board 0 data a =
        if g.isDivDl ∧ g.divDownloadBytes ≥ board.divSize then
          let r := ({ g with reqLength := length } : Gadget).flash a g.divDlPart
            g.divDownloadBytes []
          ({ r.1 with divDownloadBytes := 0 }, r.2.1, none)
        else ({ g with reqLength := length }, [], none) := by
      rw [Gadget.rxHandlerDlImage, if_neg hOn, hGadget, ← hRequest]
      exact if_neg (by omega)
    refine .inr ?_
    by_cases hFull : board.divSize ≤ (held ++ data).length
    · refine .inr ⟨hMore, hFull, bufferPiece g.buf (held ++ data).length, hFilled.buf,
        fillsBlocks_bufferPiece _ _, ?_⟩
      have hContents : contents (pieces ++ [bufferPiece g.buf (held ++ data).length]) ++ [] =
          contents pieces ++ (held ++ data) := by
        have hPiece : (bufferPiece g.buf (held ++ data).length).data = held ++ data := hFilled.buf
        grind [contents_append, contents_cons, contents_nil]
      have hPart : g.divDlPart = name := hFilled.part
      rw [if_pos ⟨hSplit, hDiv ▸ hFull⟩, Gadget.flash, hSplit, hPart, hDiv] at hStep
      rw [Device.receive, hStep]
      refine ⟨⟨rfl, rfl, rfl, rfl, hFilled.moved ha [], hFilled.write ha [], h.room, ?_, h.size_lt⟩,
        hSize, ?_, hReceiving, ?_⟩
      · rw [hContents]
        exact hLe
      · rw [hContents]
        exact hBytes
      · rw [hContents]
        exact hLength
    · refine .inl ⟨hMore, by omega, ?_⟩
      rw [if_neg (by rw [hDiv]; exact fun hBoth => hFull hBoth.2)] at hStep
      rw [Device.receive, hStep]
      exact ⟨⟨hFilled.split, hFilled.part, hFilled.div, hFilled.buf, hFilled.listed, hFilled.written,
        h.room, hLe, h.size_lt⟩, hSize, hBytes, hReceiving, hLength⟩

end

def cutsOf : Nat → List Piece → List Nat
  | _, [] => []
  | s, q :: qs => (s + q.data.length) :: cutsOf (s + q.data.length) qs

theorem whole_of_cutsOf {s : Nat} {qs : List Piece} (hStart : 512 ∣ s)
    (h : ∀ c ∈ cutsOf s qs, 512 ∣ c) : ∀ q ∈ qs, 512 ∣ q.data.length := by
  induction qs generalizing s with
  | nil => simp
  | cons q qs ih =>
      obtain ⟨hHere, hRest⟩ := List.forall_mem_cons.mp h
      grind

theorem exists_of_mem_cutsOf {s c : Nat} {qs : List Piece} (h : c ∈ cutsOf s qs) :
    ∃ ps rest, qs = ps ++ rest ∧ s + (contents ps).length = c := by
  induction qs generalizing s with
  | nil => cases h
  | cons q qs ih =>
      obtain rfl | hMem := List.mem_cons.mp h
      · exact ⟨[q], qs, rfl, by simp⟩
      · obtain ⟨ps, rest, rfl, rfl⟩ := ih hMem
        exact ⟨q :: ps, rest, rfl, by simp [Nat.add_assoc]⟩

section
variable {board : Board} {size : Nat} {name : CStr} {entry : Option FlashPart} {cards : Int → Mem}
  {pieces : List Piece} {held : List UInt8} {d : Device} {chunks : List (List UInt8 × Answer)}

theorem nextLength_pos {maxpacket missing : Nat} (hPacket : 0 < maxpacket) (hMissing : 0 < missing) :
    0 < nextLength maxpacket missing := by
  have := le_max_left maxpacket (missing - missing % maxpacket)
  rw [nextLength, asked, epBufferSize]
  split_ifs <;> omega

theorem Running.complete (h : Running board size name entry cards pieces held d)
    (hPacket : 0 < board.maxpacket ∧ board.maxpacket ≤ epBufferSize) (hDiv : blkSize ≤ board.divSize)
    (hMore : (contents pieces ++ held).length < size) (hFull : d.CompletesInFull board chunks)
    (hSent : (contents pieces ++ held ++ sent chunks).length = size) :
    ∃ new rest, rest ≠ [] ∧ contents new ++ rest = held ++ sent chunks ∧
      Cuts board size (contents pieces ++ held).length held.length
        (cutsOf (contents pieces).length new) ∧
      (∀ q ∈ new, FillsBlocks q ∧ blkSize ≤ q.data.length) ∧
      Splitting size name entry cards (pieces ++ new) rest (d.complete board chunks) := by
  induction chunks generalizing pieces held d with
  | nil =>
      rw [sent, List.flatMap_nil, List.append_nil] at hSent
      omega
  | cons chunk chunks ih =>
      obtain ⟨data, a⟩ := chunk
      obtain ⟨⟨-, ha, hLength⟩, hRest⟩ := hFull
      rw [h.request, h.announced, h.bytes] at hLength
      have hData : data.length = nextLength board.maxpacket (size - (contents pieces ++ held).length) :=
        hLength
      have hSome : 0 < data.length := hData ▸ nextLength_pos hPacket.1 (by omega)
      have hCons : sent ((data, a) :: chunks) = data ++ sent chunks := by simp [sent]
      have hCount : (contents pieces ++ held).length +
          nextLength board.maxpacket (size - (contents pieces ++ held).length) =
          (contents pieces ++ (held ++ data)).length := by
        rw [← hData]
        simp [Nat.add_assoc]
      have hHeld : held.length + nextLength board.maxpacket (size - (contents pieces ++ held).length) =
          (held ++ data).length := by
        rw [← hData, List.length_append]
      have hAll : (contents pieces ++ (held ++ data) ++ sent chunks).length = size := by
        rw [← hSent, hCons]
        simp
      rw [hCons, ← List.append_assoc]
      obtain ⟨hLast, hOff, hNext⟩ | ⟨hLess, hSmall, hNext⟩ | ⟨hLess, hLarge, q, hq, hFills, hNext⟩ :=
        h.step hPacket.2 ha hData
      · -- no further request is completed
        have hNone : chunks = [] := by
          cases chunks with
          | nil => rfl
          | cons chunk chunks => exact absurd hRest.1.1 (by simp [hOff])
        subst hNone
        refine ⟨[], held ++ data, ?_, by simp [sent], .last (hCount.trans hLast), by simp, ?_⟩
        · exact List.ne_nil_of_length_pos (by rw [List.length_append]; omega)
        · rw [List.append_nil]
          exact hNext
      · obtain ⟨new, rest, hSome', hNew, hCuts, hFills, hEnd⟩ := ih hNext hLess hRest hAll
        refine ⟨new, rest, hSome', hNew, .keep (hCount ▸ hLess) (hHeld ▸ hSmall) ?_, hFills, hEnd⟩
        rw [hCount, hHeld]
        exact hCuts
      · have hPiece : contents (pieces ++ [q]) = contents pieces ++ (held ++ data) := by simp [hq]
        obtain ⟨new, rest, hSome', hNew, hCuts, hNewFills, hEnd⟩ := ih hNext
          (by rw [hPiece, List.append_nil]; exact hLess) hRest
          (by rw [hPiece, List.append_nil]; exact hAll)
        refine ⟨q :: new, rest, hSome', ?_, ?_, ?_, ?_⟩
        · rw [contents_cons, hq, List.append_assoc, hNew, List.nil_append]
        · rw [hPiece, List.append_nil] at hCuts
          have hEnd : (contents pieces).length + q.data.length =
              (contents pieces ++ (held ++ data)).length := by
            simp [hq]
          rw [cutsOf, hEnd, ← hCount]
          refine .cut (hCount ▸ hLess) (hHeld ▸ hLarge) ?_
          rw [hCount]
          exact hCuts
        · exact List.forall_mem_cons.mpr ⟨⟨hFills, hq ▸ hDiv.trans hLarge⟩, hNewFills⟩
        · rw [List.append_cons]
          exact hEnd

theorem Running.exists_chunks (h : Running board size name entry cards pieces held d)
    (hPacket : 0 < board.maxpacket ∧ board.maxpacket ≤ epBufferSize) (rest : List UInt8)
    (hRest : (contents pieces ++ held ++ rest).length = size) :
    ∃ chunks, d.CompletesInFull board chunks ∧ sent chunks = rest := by
  induction hSize : rest.length using Nat.strong_induction_on generalizing rest pieces held d with
  | _ n ih =>
      by_cases hNone : rest = []
      · exact ⟨[], trivial, hNone.symm⟩
      · have hPos := List.length_pos_iff.mpr hNone
        rw [List.length_append] at hRest
        set missing := size - (contents pieces ++ held).length with hMissing
        have hSome := nextLength_pos hPacket.1 (show 0 < missing by omega)
        have hLe : nextLength board.maxpacket missing ≤ missing := min_le_right _ _
        have hData : (rest.take (nextLength board.maxpacket missing)).length =
            nextLength board.maxpacket missing := List.length_take_of_le (by omega)
        have hDrop : (rest.drop (nextLength board.maxpacket missing)).length =
            rest.length - nextLength board.maxpacket missing := List.length_drop
        have hSplit := List.take_append_drop (nextLength board.maxpacket missing) rest
        have hCount : (contents pieces ++ (held ++ rest.take (nextLength board.maxpacket missing)) ++
            rest.drop (nextLength board.maxpacket missing)).length = size := by
          simp only [List.append_assoc, hSplit]
          rw [← hRest, ← List.append_assoc, List.length_append]
        have hNext : ∀ chunks, (d.receive board (rest.take (nextLength board.maxpacket missing))
              workingCard).CompletesInFull board chunks →
            sent chunks = rest.drop (nextLength board.maxpacket missing) →
            ∃ chunks, d.CompletesInFull board chunks ∧ sent chunks = rest := by
          intro chunks hFull hSent
          refine ⟨(_, workingCard) :: chunks, ⟨⟨h.receiving, rfl, ?_⟩, hFull⟩, ?_⟩
          · rw [hData, h.request, h.announced, h.bytes]
            rfl
          · rw [sent, List.flatMap_cons]
            exact (congrArg _ hSent).trans hSplit
        obtain ⟨hLast, -, -⟩ | ⟨-, -, hRun⟩ | ⟨-, -, q, hq, -, hRun⟩ :=
          h.step hPacket.2 (show workingCard.found = true from rfl) hData
        · refine hNext [] trivial (List.eq_nil_of_length_eq_zero ?_).symm
          rw [List.length_append] at hCount
          omega
        · obtain ⟨chunks, hFull, hSent⟩ := ih _ (by omega) hRun _ hCount hDrop
          exact hNext chunks hFull hSent
        · have hCut : (contents (pieces ++ [q]) ++ [] ++
              rest.drop (nextLength board.maxpacket missing)).length = size := by
            rw [contents_append, contents_cons, hq, contents_nil, List.append_nil, List.append_nil]
            exact hCount
          obtain ⟨chunks, hFull, hSent⟩ := ih _ (by omega) hRun _ hCut hDrop
          exact hNext chunks hFull hSent

theorem running_cbDownload (g : Gadget) {cmd : CStr} (hPacket : board.maxpacket ≤ epBufferSize)
    (hPart : board.partition = some name) (hSize : simpleStrtoul cmd 16 % 2 ^ 32 = size)
    (hLarge : board.bufSize < size)
    (hListed : g.parts.filter (·.partition = name) = entry.toList)
    (hRoom : ∀ fp ∈ entry, fp.start + 2 ^ 32 ≤ 2 ^ 64) :
    Running board size name entry cards [] [] ⟨(g.cbDownload board cmd).1, cards⟩ := by
  have hLt : size < 2 ^ 32 := hSize ▸ Nat.mod_lt _ (Nat.two_pow_pos 32)
  unfold Gadget.cbDownload
  rw [hSize, hPart]
  simp only
  rw [if_neg (by omega), if_pos hLarge]
  generalize hGadget : ({ g with
    downloadSize := size, downloadBytes := 0, divDownloadBytes := 0, isDivDl := true,
    divDlPart := name, receiving := true } : Gadget) = next
  have hLength := reqLength_request next board hPacket (by rw [← hGadget]; exact Nat.zero_le _)
    (by rw [← hGadget]; exact hLt)
  obtain ⟨length, hRequest⟩ := request_eq next board
  rw [hRequest] at hLength ⊢
  rw [← hGadget] at hLength ⊢
  have hStart : g.parts.filter (·.partition = name) =
      (entry.map (·.advance (contents []).length)).toList := by
    rw [hListed]
    cases entry <;> rfl
  have hPlaced : cards = placed entry cards [] := by
    cases entry with
    | none => rfl
    | some fp => exact (Function.update_eq_self fp.devNo cards).symm
  exact ⟨⟨rfl, rfl, rfl, rfl, hStart, hPlaced, hRoom, Nat.zero_le _, hLt⟩, rfl, rfl, rfl, hLength⟩

theorem Splitting.flash (h : Splitting size name entry cards pieces held d) {c : FlashCall}
    (hName : name ∉ fReservePart) (ha : c.answer.found = true) :
    (d.flash name c).cards =
      placed entry cards (pieces ++ [bufferPiece d.gadget.buf held.length]) := by
  have hStep : d.gadget.cbFlash (some name) c =
      let r := d.gadget.flash c.answer name held.length c.stack
      ({ r.1 with flashSessionId := r.1.flashSessionId + 1, parts := [] }, r.2.1,
        fastbootOkay r.2.2 []) := by
    simp only [Gadget.cbFlash, reserved_eq_none hName, remade_eq_self hName, Gadget.flashPartition,
      h.split, if_true, h.part, h.div]
  have hWrite := h.write ha c.stack
  rw [← h.split] at hWrite
  rw [Device.flash, hStep]
  exact hWrite

end

end Fire3.Fastboot

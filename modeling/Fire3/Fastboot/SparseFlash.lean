import Fire3.Fastboot.SparsePlaced

/-!
When flashing a sparse image leaves the image on the partition, and when it stays inside it.

The first question is about well-formed images and a new session, the second one about any
bytes and any session. The position of a write counts the blocks written before it but not the
blocks left out, so data behind a gap is stored too low.
-/

namespace Fire3.Fastboot
open ByteMemory

section
variable {storage : BlockStorage} {img : Mem}

def requestsAt (storage : BlockStorage) (img : Mem) : List SparseBuffer :=
  requests (imageItems storage.toSparseStorage img).1

theorem storeSparseImage_writes (hBlk : storage.blockSz ∣ (sparseParseHeader img).blkSz)
    (ok : Nat → Bool) (sessionId lastOffset : Nat) :
    (storeSparseImage ok storage.toSparseStorage sessionId lastOffset img).1 =
      (issueAll ok storage.toSparseStorage
        (firstBlock storage.toSparseStorage sessionId lastOffset) (requestsAt storage img)
        ⟨0, []⟩).1.writes :=
  (storeSparseImage_eq (Nat.mod_eq_zero_of_dvd hBlk)).1

/-- No write of the session leaves the partition, whichever writes fail. -/
def Confined (storage : BlockStorage) (sessionId lastOffset : Nat) (img : Mem) : Prop :=
  ∀ ok, ∀ w ∈ (storeSparseImage ok storage.toSparseStorage sessionId lastOffset img).1,
    Inside storage w

/-- The image is refused for the size of its blocks, or its requests stay in the partition from
the first block of the session on. -/
def Bounded (storage : BlockStorage) (sessionId lastOffset : Nat) (img : Mem) : Prop :=
  storage.blockSz ∣ (sparseParseHeader img).blkSz →
    Stays storage (firstBlock storage.toSparseStorage sessionId lastOffset) (requestsAt storage img)

theorem firstBlock_lt (storage : BlockStorage) (sessionId : Nat) (lastOffset : UInt32) :
    firstBlock storage.toSparseStorage sessionId lastOffset.toNat < 2 ^ 32 := by
  grind [firstBlock, lastOffset.toNat_lt, storage.start_lt]

theorem confined_iff_bounded (storage : BlockStorage) (sessionId : Nat) (lastOffset : UInt32)
    (img : Mem) :
    Confined storage sessionId lastOffset.toNat img ↔
      Bounded storage sessionId lastOffset.toNat img := by
  unfold Confined Bounded
  by_cases hBlk : storage.blockSz ∣ (sparseParseHeader img).blkSz
  · simp only [storeSparseImage_writes hBlk, imp_iff_right hBlk]
    exact issueAll_inside_iff (firstBlock_lt storage sessionId lastOffset) _
  · refine ⟨fun _ h => absurd h hBlk, fun _ ok w hw => ?_⟩
    rw [storeSparseImage, if_pos fun h => hBlk (Nat.dvd_of_mod_eq_zero h)] at hw
    cases hw

end

section
variable {storage : BlockStorage} {img : Mem} {cs : List SparseChunk}

theorem ChunksAt.wellFormed {h : SparseHeader} {p : Nat} (hcs : ChunksAt h img p cs) :
    ∀ c ∈ cs, c.WellFormed h.blkSz := by
  induction cs generalizing p with
  | nil => simp
  | cons c cs ih => exact List.forall_mem_cons.mpr ⟨hcs.1.wellFormed, ih hcs.2⟩

theorem imageItems_at (hImg : SparseImageAt img cs) :
    imageItems storage.toSparseStorage img =
      (cs.map (·.item storage.toSparseStorage (sparseParseHeader img).blkSz), true) := by
  rw [imageItems, hImg.totalChunks, items_at hImg.chunks]

theorem requestsAt_eq (hImg : SparseImageAt img cs) :
    requestsAt storage img = requestsOf storage (sparseParseHeader img).blkSz cs := by
  rw [requestsAt, imageItems_at hImg]
  rfl

/-- A new session with working writes returns 0 exactly if every request is accepted and the
blocks add up to those of the header, in 32 bits. -/
theorem storeSparseImage_eq_zero (hImg : SparseImageAt img cs)
    (hBlk : storage.blockSz ∣ (sparseParseHeader img).blkSz) (lastOffset : Nat) :
    (storeSparseImage (fun _ => true) storage.toSparseStorage 0 lastOffset img).2 = 0 ↔
      Accepts storage.toSparseStorage storage.start
        (requestsOf storage (sparseParseHeader img).blkSz cs) ∧
        (allBlocks storage.blockSz (requestsOf storage (sparseParseHeader img).blkSz cs) +
          skips (cs.map (·.item storage.toSparseStorage (sparseParseHeader img).blkSz))) % 2 ^ 32 =
            expandedSize (sparseParseHeader img).blkSz cs % 2 ^ 32 / storage.blockSz := by
  have hRequests : requests (cs.map (·.item storage.toSparseStorage (sparseParseHeader img).blkSz)) =
      requestsOf storage (sparseParseHeader img).blkSz cs := rfl
  have hFirst : firstBlock storage.toSparseStorage 0 lastOffset = storage.start := rfl
  rw [storeSparseImage_eq_zero_iff, acceptable_iff, imageItems_at hImg, hRequests, hFirst,
    blockSizeToStorage, hImg.totalBlks, ← expandedSize]
  simp [Nat.mod_eq_zero_of_dvd hBlk]

theorem count_iff {blkSz : Nat} (hBlk : storage.blockSz ∣ blkSz)
    (hcs : ∀ c ∈ cs, c.WellFormed blkSz)
    (hFits : expandedSize blkSz cs ≤ storage.blockSz * storage.size)
    (hData : (expandAll storage.blockSz (requestsOf storage blkSz cs)).length =
      (dataOf blkSz cs).length) :
    (allBlocks storage.blockSz (requestsOf storage blkSz cs) +
      skips (cs.map (·.item storage.toSparseStorage blkSz))) % 2 ^ 32 =
        expandedSize blkSz cs % 2 ^ 32 / storage.blockSz ↔
      (dataOf blkSz cs).length + countedGaps blkSz cs < 2 ^ 32 := by
  have hPos := storage.blockSz_pos
  have hSum : storage.blockSz * (allBlocks storage.blockSz (requestsOf storage blkSz cs) +
      skips (cs.map (·.item storage.toSparseStorage blkSz))) =
      (dataOf blkSz cs).length + countedGaps blkSz cs := by
    rw [Nat.mul_add, skips_items hBlk, ← length_expandAll, hData]
  have hLe := countedGaps_le blkSz cs
  have hSize := expandedSize_eq hcs (storage.four_dvd.trans hBlk)
  have hSmall : allBlocks storage.blockSz (requestsOf storage blkSz cs) +
      skips (cs.map (·.item storage.toSparseStorage blkSz)) < 2 ^ 32 :=
    (Nat.le_of_mul_le_mul_left (by omega) hPos).trans_lt storage.size_lt
  have hDvd : storage.blockSz ∣ expandedSize blkSz cs % 2 ^ 32 :=
    (Nat.dvd_mod_iff storage.dvd_word).mpr (Nat.dvd_mul_left_of_dvd hBlk _)
  have hMod : expandedSize blkSz cs % 2 ^ 32 =
      ((dataOf blkSz cs).length + countedGaps blkSz cs) % 2 ^ 32 := by
    grind [Nat.add_mod, countedGaps_mod]
  rw [Nat.mod_eq_of_lt hSmall, ← Nat.mul_right_inj hPos.ne', hSum, Nat.mul_div_cancel' hDvd, hMod]
  omega

theorem gapFree_of_last {blkSz : Nat} {pre post : List SparseChunk} {c : SparseChunk}
    (hPre : gaps blkSz pre = 0) (hPost : dataOf blkSz post = []) :
    GapFree blkSz (pre ++ c :: post) := by
  intro as d bs hSplit hGap
  obtain ⟨ds, rfl, hRest⟩ | ⟨ds, rfl, hRest⟩ := List.append_eq_append_iff.mp hSplit
  · cases ds with
    | nil =>
        grind
    | cons d' ds =>
        rw [List.cons_append, List.cons.injEq] at hRest
        grind [dataOf_append, dataOf_cons, List.append_eq_nil_iff]
  · cases ds with
    | nil =>
        grind
    | cons d' ds =>
        grind [List.cons.injEq, gaps_append, gaps_cons]

/-- An image is placed on every medium only if no gap lies before data, all of its data is
written and no block number wraps. -/
theorem written_of_placed {blkSz : Nat} (hBlk : storage.blockSz ∣ blkSz)
    (hcs : ∀ c ∈ cs, c.WellFormed blkSz)
    (h : ∀ dev, PlacedAt storage blkSz cs dev (patchAll dev ((allWrites storage.blockSz
      storage.start (requestsOf storage blkSz cs)).map (toPatch storage.blockSz)))) :
    GapFree blkSz cs ∧
      (expandAll storage.blockSz (requestsOf storage blkSz cs)).length = (dataOf blkSz cs).length ∧
      Addressed storage.blockSz storage.start (requestsOf storage blkSz cs) := by
  have hLe := (expandAll_requestsOf hBlk hcs).1
  have hLength := length_expandAll storage.blockSz (requestsOf storage blkSz cs)
  by_cases hSome : ∃ c ∈ cs, c.expanded blkSz ≠ []
  · obtain ⟨pre, c, post, rfl, hData, hLast⟩ := Lists.exists_last hSome
    have hPost : dataOf blkSz post = [] :=
      List.flatMap_eq_nil_iff.mpr fun d hd => not_not.mp (hLast d hd)
    have hPos : 0 < (c.expanded blkSz).length := List.length_pos_iff.mpr hData
    have hAddress := @chunk_address storage blkSz hBlk pre fun d hd =>
      hcs d (List.mem_append_left _ hd)
    -- a medium on which the last byte of the chunk is wrong beforehand
    have hCovered : ∃ w ∈ allWrites storage.blockSz storage.start
        (requestsOf storage blkSz (pre ++ c :: post)), (toPatch storage.blockSz w).Covers
          (storage.blockSz * storage.start + (dataOf blkSz pre).length + gaps blkSz pre +
            ((c.expanded blkSz).length - 1)) := by
      by_contra hNone
      push Not at hNone
      let b := (c.expanded blkSz)[(c.expanded blkSz).length - 1]
      have hPlaced := (h fun _ => b + 1).data pre c post rfl
      rw [hAddress] at hPlaced
      have hByte := (load_eq_iff _ _ _).mp hPlaced ((c.expanded blkSz).length - 1) (by omega)
      rw [patchAll_uncovered (List.forall_mem_map.mpr hNone)] at hByte
      simp [b] at hByte
    obtain ⟨hHigh, hEnd⟩ := covered_allWrites hCovered
    have hTotal : (dataOf blkSz (pre ++ c :: post)).length =
        (dataOf blkSz pre).length + (c.expanded blkSz).length := by
      rw [dataOf_append, dataOf_cons, hPost, List.append_nil, List.length_append]
    grind [Nat.mul_add, gapFree_of_last]
  · push Not at hSome
    have hNone : dataOf blkSz cs = [] := List.flatMap_eq_nil_iff.mpr hSome
    rw [hNone, List.length_nil] at hLe ⊢
    refine ⟨?_, by omega, addressed_of_empty ?_⟩
    · rintro pre c post rfl -
      grind [dataOf_append, dataOf_cons, List.append_eq_nil_iff]
    · grind [Nat.mul_eq_zero, storage.blockSz_pos.ne']

/-- Seen from the block `first`, no raw chunk is empty, the 32-bit test lets every chunk pass,
and no write starts behind block 2^32. -/
def Clears (storage : BlockStorage) (blkSz : Nat) : Nat → List SparseChunk → Prop
  | _, [] => True
  | first, .raw data :: cs =>
      let next := first + data.length / storage.blockSz
      (data ≠ [] ∧ first < 2 ^ 32 ∧ next % 2 ^ 32 ≤ storage.bound % 2 ^ 32) ∧
        Clears storage blkSz next cs
  | first, .fill count _ :: cs =>
      let next := first + count * blkSz / storage.blockSz
      ((first < next → next ≤ 2 ^ 32) ∧ next % 2 ^ 32 ≤ storage.bound % 2 ^ 32) ∧
        Clears storage blkSz next cs
  | first, .dontCare _ :: cs | first, .crc32 _ :: cs => Clears storage blkSz first cs

theorem accepts_addressed_cons {b : SparseBuffer} {bs : List SparseBuffer} {first : Nat} :
    Accepts storage.toSparseStorage first (b :: bs) ∧ Addressed storage.blockSz first (b :: bs) ↔
      (Passes storage.toSparseStorage first b ∧ b.Solid storage.blockSz ∧
        (b.blocks storage.blockSz ≠ 0 → first + b.lead storage.blockSz < 2 ^ 32)) ∧
      Accepts storage.toSparseStorage (first + b.blocks storage.blockSz) bs ∧
        Addressed storage.blockSz (first + b.blocks storage.blockSz) bs := by
  rw [Accepts, Addressed]
  tauto

theorem raw_clears {data : List UInt8} (hDvd : storage.blockSz ∣ data.length) {first : Nat} :
    (Passes storage.toSparseStorage first ⟨data, 1⟩ ∧ SparseBuffer.Solid ⟨data, 1⟩ storage.blockSz ∧
      (SparseBuffer.blocks ⟨data, 1⟩ storage.blockSz ≠ 0 →
        first + SparseBuffer.lead ⟨data, 1⟩ storage.blockSz < 2 ^ 32)) ↔
      data ≠ [] ∧ first < 2 ^ 32 ∧
        (first + data.length / storage.blockSz) % 2 ^ 32 ≤ storage.bound % 2 ^ 32 := by
  have hEmpty : data.length / storage.blockSz ≠ 0 ↔ data ≠ [] := by
    refine not_congr ⟨fun hZero => ?_, fun hNil => by rw [hNil, List.length_nil, Nat.zero_div]⟩
    exact List.eq_nil_of_length_eq_zero (Nat.eq_zero_of_dvd_of_div_eq_zero hDvd hZero)
  simp only [Passes, SparseBuffer.Solid, SparseBuffer.lead, SparseBuffer.blocks, SparseBuffer.cnt,
    Nat.mul_one, Nat.sub_self, Nat.mul_zero, Nat.add_zero, ← hEmpty]
  tauto

theorem fill_clears {count blkSz : Nat} {pattern : List UInt8} (hPattern : pattern.length = 4)
    (hSmall : count * blkSz < 2 ^ 32) {b : SparseBuffer}
    (hb : b = ⟨(List.replicate (storage.blockSz / 4) pattern).flatten,
      count * blkSz % 2 ^ 32 / storage.blockSz⟩) {first : Nat} :
    b.blocks storage.blockSz = count * blkSz / storage.blockSz ∧
    ((Passes storage.toSparseStorage first b ∧ b.Solid storage.blockSz ∧
      (b.blocks storage.blockSz ≠ 0 → first + b.lead storage.blockSz < 2 ^ 32)) ↔
      (first < first + count * blkSz / storage.blockSz →
        first + count * blkSz / storage.blockSz ≤ 2 ^ 32) ∧
        (first + count * blkSz / storage.blockSz) % 2 ^ 32 ≤ storage.bound % 2 ^ 32) := by
  have hOne : b.cnt storage.blockSz = 1 := by
    rw [SparseBuffer.cnt, hb, length_flatten_replicate _ hPattern,
      Nat.div_mul_cancel storage.four_dvd, Nat.div_self storage.blockSz_pos]
  have hRepeats : b.repeats = count * blkSz / storage.blockSz := by
    rw [hb, Nat.mod_eq_of_lt hSmall]
  simp only [Passes, SparseBuffer.Solid, SparseBuffer.lead, SparseBuffer.blocks, hOne, hRepeats,
    Nat.one_mul]
  generalize count * blkSz / storage.blockSz = n
  refine ⟨trivial, ⟨fun h => ⟨fun _ => ?_, h.1⟩, fun h =>
    ⟨h.2, .inl (by decide), fun _ => ?_⟩⟩⟩
  · have hLead := h.2.2 (by omega)
    omega
  · have hEnd := h.1 (by omega)
    omega

theorem clears_iff {blkSz : Nat} (hBlk : storage.blockSz ∣ blkSz)
    (hcs : ∀ c ∈ cs, c.WellFormed blkSz) (hSmall : (dataOf blkSz cs).length < 2 ^ 32)
    {first : Nat} :
    Accepts storage.toSparseStorage first (requestsOf storage blkSz cs) ∧
      Addressed storage.blockSz first (requestsOf storage blkSz cs) ↔
        Clears storage blkSz first cs := by
  induction cs generalizing first with
  | nil => exact ⟨fun _ => trivial, fun _ => ⟨trivial, trivial⟩⟩
  | cons c cs ih =>
      rw [List.forall_mem_cons] at hcs
      rw [dataOf_cons, List.length_append] at hSmall
      have hRest {k : Nat} := @ih hcs.2 (by omega) k
      cases c with
      | raw data =>
          refine accepts_addressed_cons.trans (and_congr (raw_clears (hBlk.trans hcs.1)) ?_)
          rw [SparseBuffer.blocks, Nat.mul_one]
          exact hRest
      | fill count pattern =>
          have hSize := length_expanded hcs.1 (storage.four_dvd.trans hBlk)
          rw [SparseChunk.count, SparseChunk.gap, Nat.add_zero] at hSize
          obtain ⟨hBlocks, hClears⟩ :=
            @fill_clears storage count blkSz pattern hcs.1 (by omega) _ rfl first
          refine accepts_addressed_cons.trans (and_congr hClears ?_)
          rw [hBlocks]
          exact hRest
      | dontCare count => exact hRest
      | crc32 value => exact hRest

/-- Which well-formed images of a fitting size a new session leaves on the partition. -/
structure Storable (storage : BlockStorage) (blkSz : Nat) (cs : List SparseChunk) : Prop where
  whole : storage.blockSz ∣ blkSz
  gapFree : GapFree blkSz cs
  counted : (dataOf blkSz cs).length + countedGaps blkSz cs < 2 ^ 32
  clears : Clears storage blkSz storage.start cs

/-- With working block writes a new session returns 0 and leaves the image on the partition,
whatever is on the medium before. -/
def StoresImage (storage : BlockStorage) (lastOffset : Nat) (img : Mem) (cs : List SparseChunk) :
    Prop :=
  let r := storeSparseImage (fun _ => true) storage.toSparseStorage 0 lastOffset img
  r.2 = 0 ∧ ∀ dev, PlacedAt storage (sparseParseHeader img).blkSz cs dev
    (patchAll dev (r.1.map (toPatch storage.blockSz)))

theorem storeSparseImage_allWrites (hImg : SparseImageAt img cs) {lastOffset : Nat}
    (h : (storeSparseImage (fun _ => true) storage.toSparseStorage 0 lastOffset img).2 = 0) :
    (storeSparseImage (fun _ => true) storage.toSparseStorage 0 lastOffset img).1 =
      allWrites storage.blockSz storage.start
        (requestsOf storage (sparseParseHeader img).blkSz cs) := by
  rw [storeSparseImage_writes_of_zero h, imageItems_at hImg]
  rfl

theorem storesImage_iff_storable (hImg : SparseImageAt img cs)
    (hFits : expandedSize (sparseParseHeader img).blkSz cs ≤ storage.blockSz * storage.size)
    (lastOffset : Nat) :
    StoresImage storage lastOffset img cs ↔ Storable storage (sparseParseHeader img).blkSz cs := by
  have hcs := hImg.chunks.wellFormed
  constructor
  · rintro ⟨hZero, hPlaced⟩
    have hBlk : storage.blockSz ∣ (sparseParseHeader img).blkSz :=
      Nat.dvd_of_mod_eq_zero (storeSparseImage_eq_zero_dvd hZero)
    obtain ⟨hAccepts, hCount⟩ := (storeSparseImage_eq_zero hImg hBlk lastOffset).mp hZero
    rw [storeSparseImage_allWrites hImg hZero] at hPlaced
    obtain ⟨hGap, hData, hAddressed⟩ := written_of_placed hBlk hcs hPlaced
    have hCounted := (count_iff hBlk hcs hFits hData).mp hCount
    exact ⟨hBlk, hGap, hCounted, (clears_iff hBlk hcs (by omega)).mp ⟨hAccepts, hAddressed⟩⟩
  · rintro ⟨hBlk, hGap, hCounted, hClears⟩
    obtain ⟨hAccepts, hAddressed⟩ := (clears_iff hBlk hcs (by omega)).mpr hClears
    have hData := (expandAll_requestsOf hBlk hcs).2 (by omega)
    have hZero := (storeSparseImage_eq_zero hImg hBlk lastOffset).mpr
      ⟨hAccepts, (count_iff hBlk hcs hFits (congrArg List.length hData)).mpr hCounted⟩
    refine ⟨hZero, fun dev => ?_⟩
    rw [storeSparseImage_allWrites hImg hZero, patchAll_allWrites hAddressed, hData]
    exact placedAt_store hBlk hcs hGap dev

end

/-- A well-formed image that fits is stored right exactly if it is storable, and arbitrary bytes
are kept inside the partition exactly if their requests stay in it. -/
theorem sparse_flash_iff (storage : BlockStorage) (lastOffset : UInt32) (img : Mem) :
    (∀ cs, SparseImageAt img cs →
      expandedSize (sparseParseHeader img).blkSz cs ≤ storage.blockSz * storage.size →
      (StoresImage storage lastOffset.toNat img cs ↔
        Storable storage (sparseParseHeader img).blkSz cs)) ∧
    ∀ sessionId, Confined storage sessionId lastOffset.toNat img ↔
      Bounded storage sessionId lastOffset.toNat img :=
  ⟨fun _ hImg hFits => storesImage_iff_storable hImg hFits lastOffset.toNat,
    fun sessionId => confined_iff_bounded storage sessionId lastOffset img⟩

def SparseChunk.bytes (blkSz : Nat) (c : SparseChunk) : List UInt8 :=
  leBytes 2 c.type ++ leBytes 2 0 ++ leBytes 4 (c.count blkSz) ++ leBytes 4 (12 + c.body.length) ++
    c.body

def sparseBytes (blkSz : Nat) (cs : List SparseChunk) : List UInt8 :=
  leBytes 4 0xed26ff3a ++ leBytes 2 1 ++ leBytes 2 0 ++ leBytes 2 28 ++ leBytes 2 12 ++
    leBytes 4 blkSz ++ leBytes 4 (cs.map (·.count blkSz)).sum ++ leBytes 4 cs.length ++
    leBytes 4 0 ++ cs.flatMap (·.bytes blkSz)

def eightBlocks : BlockStorage where
  blockSz := 512
  start := 64
  size := 8
  log := 9
  two_le_log := Nat.le_of_ble_eq_true rfl
  log_lt := Nat.le_of_ble_eq_true rfl
  blockSz_eq := rfl
  start_lt := Nat.le_of_ble_eq_true rfl
  size_lt := Nat.le_of_ble_eq_true rfl

def gapAtEnd : List SparseChunk := [.fill 2 [1, 2, 3, 4], .crc32 [0, 0, 0, 0], .dontCare 1]

theorem gapAtEnd_at : SparseImageAt (store zero 0 (sparseBytes 512 gapAtEnd)) gapAtEnd where
  sparse := by decide
  fileHdrSz := by decide
  chunkHdrSz := by decide
  blkSz_pos := by decide
  four_dvd := by decide
  totalBlks := by decide
  totalChunks := by decide
  chunks := ⟨⟨rfl, by decide, by decide, by decide, by decide⟩,
    ⟨rfl, by decide, by decide, by decide, by decide⟩,
    ⟨trivial, by decide, by decide, by decide, by decide⟩, trivial⟩

theorem sparse_flash_gap_at_end :
    StoresImage eightBlocks 0 (store zero 0 (sparseBytes 512 gapAtEnd)) gapAtEnd ∧
      Confined eightBlocks 0 0 (store zero 0 (sparseBytes 512 gapAtEnd)) := by
  obtain ⟨hStores, hConfined⟩ :=
    sparse_flash_iff eightBlocks 0 (store zero 0 (sparseBytes 512 gapAtEnd))
  have hBlk : (sparseParseHeader (store zero 0 (sparseBytes 512 gapAtEnd))).blkSz = 512 := by decide
  refine ⟨(hStores gapAtEnd gapAtEnd_at (by decide)).mpr ?_, (hConfined 0).mpr fun _ => ?_⟩
  · rw [hBlk]
    exact ⟨by decide, @gapFree_of_last 512 [.fill 2 [1, 2, 3, 4], .crc32 [0, 0, 0, 0]] [] (.dontCare 1)
      rfl rfl, by decide +kernel, ⟨fun _ => by decide, by decide⟩, trivial⟩
  · rw [requestsAt_eq gapAtEnd_at, hBlk]
    exact fun _ => ⟨fun _ => ⟨by decide, by decide +kernel, by decide +kernel⟩, fun _ => trivial⟩

def gapBefore : List SparseChunk := [.dontCare 1, .fill 2 [1, 2, 3, 4]]

theorem gapBefore_at : SparseImageAt (store zero 0 (sparseBytes 512 gapBefore)) gapBefore where
  sparse := by decide
  fileHdrSz := by decide
  chunkHdrSz := by decide
  blkSz_pos := by decide
  four_dvd := by decide
  totalBlks := by decide
  totalChunks := by decide
  chunks := ⟨⟨trivial, by decide, by decide, by decide, by decide⟩,
    ⟨rfl, by decide, by decide, by decide, by decide⟩, trivial⟩

/-- The filled blocks are stored in place of the gap, and a later session of another partition
continues at its last block. -/
theorem sparse_flash_fills_gap :
    SparseImageAt (store zero 0 (sparseBytes 512 gapBefore)) gapBefore ∧
      expandedSize 512 gapBefore ≤ eightBlocks.blockSz * eightBlocks.size ∧
      ¬StoresImage eightBlocks 0 (store zero 0 (sparseBytes 512 gapBefore)) gapBefore ∧
      ¬Confined eightBlocks 1 10 (store zero 0 (sparseBytes 512 gapBefore)) := by
  have hBlk : (sparseParseHeader (store zero 0 (sparseBytes 512 gapBefore))).blkSz = 512 := by decide
  refine ⟨gapBefore_at, by decide, fun hStores => ?_, fun hConfined => ?_⟩
  · have hStorable := (storesImage_iff_storable gapBefore_at (by decide) 0).mp hStores
    rw [hBlk] at hStorable
    have hData := hStorable.gapFree [] (.dontCare 1) [.fill 2 [1, 2, 3, 4]] rfl (by decide)
    exact absurd (congrArg List.length hData) (by decide +kernel)
  · have hStays := (confined_iff_bounded eightBlocks 1 10 _).mp hConfined (by rw [hBlk]; decide)
    rw [requestsAt_eq gapBefore_at, hBlk] at hStays
    have hPasses : Passes eightBlocks.toSparseStorage 10
        ⟨(List.replicate 128 [1, 2, 3, 4]).flatten, 2 * 512 % 2 ^ 32 / 512⟩ := by
      unfold Passes
      decide +kernel
    exact absurd ((hStays hPasses).1 (by decide +kernel)).low (by decide)

end Fire3.Fastboot

import Fire3.Dfu.Upload

/-!
What a DFU upload returns.

The bytes still to come are those left in the buffer and, behind them, those left on the medium.
A request takes its bytes from the front of them, so the answers are cut from the medium one after
the other. What the medium has left at the beginning is its size of 32 bits, so an area of 4 GiB
or more does not come back whole.
-/

namespace Fire3.Dfu
open ByteMemory Align

/-- The device is there and gives every request within the area. -/
structure ReadsWork (t : ReadTarget) : Prop where
  found : t.answers.found = true
  switches : ∀ part, t.answers.switchPart part = 0
  gives : ∀ start count, t.area.lbaStart ≤ start →
    start + count ≤ t.area.lbaStart + t.area.lbaSize → count ≤ t.given start count

section
variable {t : ReadTarget}

theorem switch_ok (h : ReadsWork t) (mmc : Mmc) (part : Nat) :
    t.mmcAccessPart mmc part = (0, { mmc with partNum := part }) := by
  rw [Target.mmcAccessPart]
  split
  · next hSame => rw [hSame]
  · simp [h.switches]

theorem blockFetch_ok (h : ReadsWork t) (mmc : Mmc) {start count : Nat}
    (hStart : t.area.lbaStart ≤ start) (hEnd : start + count ≤ t.area.lbaStart + t.area.lbaSize)
    (buf : Mem) :
    t.blockFetch mmc start count buf =
      (0, mmc, store buf 0 (load (mmc.parts (t.part mmc)) (t.area.lbaBlkSize * start)
        (t.area.lbaBlkSize * count))) := by
  have hMoved : min count (t.given start count) = count :=
    Nat.min_eq_left (h.gives start count hStart hEnd)
  simp only [ReadTarget.blockFetch, Target.part, ReadTarget.blockRead, hMoved, if_true]
  cases t.area.hwPartition with
  | none => simp
  | some part => simp [switch_ok h]

theorem mmcBlockOpRead_ok (h : ReadsWork t) (mmc : Mmc) (buf : Mem) {offset len : Nat}
    (hOffset : t.area.lbaBlkSize ∣ offset) (hLen : t.area.lbaBlkSize ∣ len)
    (hFits : offset + len ≤ t.area.bytes) :
    t.mmcBlockOpRead mmc offset buf len =
      (0, len, mmc, store buf 0 (load (mmc.parts (t.part mmc)) (t.area.base + offset) len)) := by
  have hEnd := t.area.end_lt
  have hPos := t.area.blkSize_pos
  have hAlign := align_of_dvd t.area.two_pow (t.area.add_le (show len ≤ _ by omega)) hLen
  obtain ⟨o, rfl⟩ := hOffset
  obtain ⟨n, rfl⟩ := hLen
  have hRange : o + n ≤ t.area.lbaSize := by
    apply Nat.le_of_mul_le_mul_left _ hPos
    simpa only [Nat.mul_add, Area.bytes] using hFits
  have hAddress : t.area.lbaBlkSize * (t.area.lbaStart + o) =
      t.area.base + t.area.lbaBlkSize * o := Nat.mul_add ..
  simp only [ReadTarget.mmcBlockOpRead, h.found, Bool.not_true, Bool.false_eq_true, if_false, hAlign,
    Nat.mul_div_cancel_left _ hPos]
  rw [Nat.mod_eq_of_lt (show o < 2 ^ 32 by omega),
    Nat.mod_eq_of_lt (show t.area.lbaStart + o < 2 ^ 32 by omega),
    Nat.mod_eq_of_lt (show n < 2 ^ 32 by omega), Nat.mod_eq_of_lt hEnd,
    Nat.mod_eq_of_lt (show t.area.lbaStart + o + n < 2 ^ 32 by omega), if_neg (by omega),
    blockFetch_ok h mmc (by omega) (by omega), hAddress]

end

structure Uploading (t : ReadTarget) (size : Nat) (mmc : Mmc) (s : UploadEntity)
    (rest : List UInt8) : Prop where
  inited : s.inited = true
  buffer : s.dfuBuf = some size
  bufEnd : s.iBufEnd = size
  card : s.mmc = mmc
  offset : t.area.lbaBlkSize ∣ s.offset
  left : ∃ r b : Nat, s.rLeft = r ∧ s.bLeft = b ∧ t.area.lbaBlkSize ∣ r ∧
    s.offset + r ≤ t.area.bytes ∧
    rest = load s.buf s.iBuf b ++ load (mmc.parts (t.part mmc)) (t.area.base + s.offset) r

section
variable {t : ReadTarget} {size : Nat} {mmc : Mmc} {s : UploadEntity} {rest : List UInt8}
  (hReads : ReadsWork t) (hSize : 0 < size) (hBlk : t.area.lbaBlkSize ∣ size)

theorem Uploading.consume (h : Uploading t size mmc s rest) {n : Nat} (hn : (n : Int) ≤ s.bLeft) :
    load s.buf s.iBuf n = rest.take n ∧
      Uploading t size mmc { s with iBuf := s.iBuf + n, bLeft := s.bLeft - n } (rest.drop n) := by
  obtain ⟨r, b, hr, hb, hDvd, hIn, rfl⟩ := h.left
  obtain ⟨k, rfl⟩ := Nat.exists_eq_add_of_le (show n ≤ b by omega)
  have hSplit : load s.buf s.iBuf (n + k) = load s.buf s.iBuf n ++ load s.buf (s.iBuf + n) k :=
    load_add ..
  rw [hSplit, List.append_assoc]
  constructor
  · simp
  · refine ⟨h.inited, h.buffer, h.bufEnd, h.card, h.offset, r, k, hr, ?_, hDvd, hIn, ?_⟩
    · simp only [hb]
      omega
    · simp

include hReads hSize hBlk in
theorem Uploading.refill (h : Uploading t size mmc s rest) (hNone : s.bLeft = 0)
    (hMore : s.rLeft ≠ 0) :
    ∃ s', refill t s = (0, s') ∧ 0 < s'.bLeft ∧ Uploading t size mmc s' rest ∧
      s'.iBlkSeqNum = s.iBlkSeqNum := by
  obtain ⟨r, b, hr, hb, hDvd, hIn, rfl⟩ := h.left
  have hZero : b = 0 := by omega
  subst hZero
  obtain ⟨k, j, hLength, rfl, hk, hPos⟩ : ∃ k j,
      (if (s.iBufEnd : Int) > s.rLeft then s.rLeft else s.iBufEnd).toNat = k ∧ r = k + j ∧
        t.area.lbaBlkSize ∣ k ∧ 0 < k := by
    rw [h.bufEnd, hr]
    split
    · exact ⟨r, 0, by omega, rfl, hDvd, by omega⟩
    · exact ⟨size, r - size, by omega, by omega, hBlk, hSize⟩
  have hWord := t.area.add_le hIn
  have hBlkPos := t.area.blkSize_pos
  have hOp := mmcBlockOpRead_ok hReads mmc s.buf h.offset hk (by omega)
  refine ⟨{ s with
    iBuf := 0
    bLeft := k
    mmc := mmc
    buf := store s.buf 0 (load (mmc.parts (t.part mmc)) (t.area.base + s.offset) k)
    offset := s.offset + k
    rLeft := s.rLeft - k }, ?_, ?_, ?_, rfl⟩
  · simp only [Dfu.refill, hLength, h.card, hOp]
    grind
  · simpa using hPos
  · have hNext : s.offset + k + j ≤ t.area.bytes := by omega
    refine ⟨h.inited, h.buffer, h.bufEnd, rfl, Nat.dvd_add h.offset hk, j, k, ?_, rfl,
      (Nat.dvd_add_right hk).mp hDvd, hNext, ?_⟩
    · simp only [hr]
      omega
    · have hBuf := load_store_same s.buf 0 (load (mmc.parts (t.part mmc)) (t.area.base + s.offset) k)
      grind [length_load, load_zero, load_add, Nat.add_assoc]

include hReads hSize hBlk in
/-- The loop takes the next bytes, as far as there are any. Behind a refill each turn takes one
at least, so it ends. -/
theorem dfuReadBufferFill_spec {fuel n : Nat} {got : List UInt8} (h : Uploading t size mmc s rest)
    (hFuel : n + (if s.bLeft = 0 then 2 else 1) ≤ fuel) :
    ∃ s', dfuReadBufferFill t fuel s n got =
        some (((got ++ rest.take n).length : Int), s', got ++ rest.take n) ∧
      Uploading t size mmc s' (rest.drop n) ∧ s'.iBlkSeqNum = s.iBlkSeqNum := by
  induction fuel generalizing s rest n got with
  | zero =>
      split at hFuel <;> omega
  | succ fuel ih =>
      rw [dfuReadBufferFill]
      by_cases hn : n = 0
      · grind
      · rw [if_neg hn]
        obtain ⟨r, b, hr, hb, -, -, hRest⟩ := h.left
        have hChunk : (min (n : Int) s.bLeft).toNat = min n b := by omega
        obtain ⟨hTake, hNext⟩ := h.consume (show ((min n b : Nat) : Int) ≤ s.bLeft by omega)
        simp only [hChunk, hTake]
        set s1 : UploadEntity :=
          { s with iBuf := s.iBuf + min n b, bLeft := s.bLeft - (min n b : Nat) } with hs1
        by_cases hAll : n - min n b = 0
        · -- the buffer has all that is asked for
          have hMin : min n b = n := by omega
          obtain ⟨fuel, rfl⟩ : ∃ m, fuel = m + 1 :=
            ⟨fuel - 1, by split at hFuel <;> omega⟩
          refine ⟨s1, ?_, by simpa only [hMin] using hNext, rfl⟩
          rw [if_pos hAll, dfuReadBufferFill, if_pos rfl, hMin]
        · have hMin : min n b = b := by omega
          have hEmpty : s1.bLeft = 0 := by
            simp only [hs1, hb]
            omega
          rw [if_neg hAll]
          by_cases hEnd : s1.rLeft = 0
          · -- nothing is left on the medium
            have hShort : rest.length ≤ b := by
              have hr0 : r = 0 := by
                have hLeft : s.rLeft = 0 := hEnd
                omega
              simp [hRest, hr0]
            refine ⟨s1, ?_, ?_, rfl⟩
            · rw [if_pos hEnd, hMin, List.take_of_length_le hShort,
                List.take_of_length_le (show rest.length ≤ n by omega)]
            · rw [hMin, List.drop_of_length_le hShort] at hNext
              rwa [List.drop_of_length_le (show rest.length ≤ n by omega)]
          · have hBytes : rest.take (min n b) ++ (rest.drop (min n b)).take (n - min n b) =
                rest.take n := by
              rw [← List.take_add, show min n b + (n - min n b) = n by omega]
            obtain ⟨s2, hFill, hSome, hUp2, hSeq2⟩ :=
              hNext.refill hReads hSize hBlk hEmpty hEnd
            obtain ⟨s', hRun, hUp, hSeq⟩ := @ih s2 _ (n - min n b) (got ++ rest.take (min n b)) hUp2
              (by rw [if_neg (by omega)]; split at hFuel <;> omega)
            refine ⟨s', ?_, ?_, hSeq.trans hSeq2⟩
            · rw [if_neg hEnd, hFill]
              simp only [ne_eq, not_true_eq_false, if_false, hRun, List.append_assoc, hBytes]
            · rw [List.drop_drop] at hUp
              rwa [show min n b + (n - min n b) = n by omega] at hUp

include hReads hSize hBlk in
theorem dfuRead_spec {n : Nat} (h : Uploading t size mmc s rest) :
    ∃ s', dfuRead t s n s.iBlkSeqNum = some (((rest.take n).length : Int),
        (if rest.length < n then uploadDone s' else s'), rest.take n) ∧
      Uploading t size mmc s' (rest.drop n) ∧ s'.iBlkSeqNum = (s.iBlkSeqNum + 1) &&& 0xffff := by
  let s1 : UploadEntity := { s with iBlkSeqNum := (s.iBlkSeqNum + 1) &&& 0xffff }
  have hUp : Uploading t size mmc s1 rest :=
    ⟨h.inited, h.buffer, h.bufEnd, h.card, h.offset, h.left⟩
  obtain ⟨s', hRun, hRest, hSeq⟩ := @dfuReadBufferFill_spec t size mmc s1 rest hReads hSize hBlk
    (n + 2) n [] hUp (by split <;> omega)
  refine ⟨s', ?_, hRest, hSeq⟩
  have hShort : (((rest.take n).length : Int) < n) ↔ rest.length < n := by
    rw [List.length_take]
    omega
  rw [List.nil_append] at hRun
  have hInit : uploadInit t s = some s := if_pos h.inited
  rw [dfuRead, hInit]
  dsimp only
  grind

end

def answersFor : List Nat → List UInt8 → List (List UInt8)
  | [], _ => []
  | n :: ns, contents =>
      if contents.length < n then [contents] else contents.take n :: answersFor ns (contents.drop n)

theorem flatten_answersFor {ns : List Nat} {contents : List UInt8} (h : contents.length < ns.sum) :
    (answersFor ns contents).flatten = contents := by
  induction ns generalizing contents with
  | nil => simp at h
  | cons n ns ih =>
      rw [List.sum_cons] at h
      rw [answersFor]
      split
      · simp
      · rw [List.flatten_cons, ih, List.take_append_drop]
        rw [List.length_drop]
        omega

structure Initial (s : UploadEntity) : Prop where
  inited : s.inited = false
  offset : s.offset = 0
  seqNum : s.iBlkSeqNum = 0
  buf : s.iBuf = 0
  bufEnd : s.iBufEnd = 0
  bLeft : s.bLeft = 0

section
variable {t : ReadTarget} {size : Nat} {mmc : Mmc} {s : UploadEntity} {rest : List UInt8}
  (hReads : ReadsWork t) (hSize : 0 < size) (hBlk : t.area.lbaBlkSize ∣ size)
include hReads hSize hBlk

theorem upload_spec {sizes : List Nat} (h : Uploading t size mmc s rest)
    (hSeq : s.iBlkSeqNum < 65536) :
    ∃ s', upload t sizes s.iBlkSeqNum s = some (answersFor sizes rest, s') ∧
      (rest.length < sizes.sum → Initial s' ∧ s'.mmc = mmc ∧ s'.dfuBuf = some size) := by
  induction sizes generalizing s rest with
  | nil => exact ⟨s, rfl, by simp⟩
  | cons n sizes ih =>
      obtain ⟨s', hRead, hRest, hNext⟩ := @dfuRead_spec t size mmc s rest hReads hSize hBlk n h
      have hMask : (s.iBlkSeqNum + 1) &&& 0xffff = (s.iBlkSeqNum + 1) % 65536 :=
        Nat.and_two_pow_sub_one_eq_mod _ 16
      rw [hMask] at hNext
      rw [upload, hRead, Option.bind_some, answersFor]
      simp only
      rw [if_neg (by omega)]
      by_cases hEnd : rest.length < n
      · rw [if_pos (by rw [List.length_take]; omega), if_pos hEnd, if_pos hEnd,
          List.take_of_length_le (by omega)]
        exact ⟨_, rfl, fun _ => ⟨⟨rfl, rfl, rfl, rfl, rfl, rfl⟩, hRest.card, hRest.buffer⟩⟩
      · rw [if_neg (by rw [List.length_take]; omega), if_neg hEnd, if_neg hEnd]
        obtain ⟨s2, hRun, hDone⟩ := ih hRest (hNext ▸ Nat.mod_lt _ (by decide))
        rw [hNext] at hRun
        refine ⟨s2, by rw [hRun]; rfl, fun hLong => hDone ?_⟩
        grind

theorem upload_fresh {sizes : List Nat} (hInit : s.inited = false)
    (hBuf : t.dfuGetBuf s.dfuBuf = some size) :
    ∃ s', upload t sizes 0 s = some (answersFor sizes
        (load (s.mmc.parts (t.part s.mmc)) t.area.base (t.area.bytes % 2 ^ 32)), s') ∧
      (t.area.bytes % 2 ^ 32 < sizes.sum →
        Initial s' ∧ s'.mmc = s.mmc ∧ s'.dfuBuf = some size) := by
  let s1 : UploadEntity :=
    { s with offset := 0, iBlkSeqNum := 0, iBufEnd := size, iBuf := 0, inited := true,
             dfuBuf := some size, rLeft := t.dfuGetMediumSize, bLeft := 0 }
  have hStart : uploadInit t s = some s1 := by
    simp [uploadInit, hInit, hBuf, s1]
  have hBytes : t.dfuGetMediumSize = t.area.bytes % 2 ^ 32 := by
    rw [ReadTarget.dfuGetMediumSize, Area.bytes, Nat.mul_comm]
  have hDvd : t.area.lbaBlkSize ∣ t.area.bytes % 2 ^ 32 := by
    obtain ⟨k, hk, hPow⟩ := t.area.blkSize_pow
    have hWord : t.area.lbaBlkSize ∣ 2 ^ 32 := hPow ▸ Nat.pow_dvd_pow 2 (by omega)
    exact (Nat.dvd_mod_iff hWord).mpr (Nat.dvd_mul_right ..)
  have hUp : Uploading t size s.mmc s1
      (load (s.mmc.parts (t.part s.mmc)) t.area.base (t.area.bytes % 2 ^ 32)) := by
    refine ⟨rfl, rfl, rfl, rfl, Nat.dvd_zero _, t.area.bytes % 2 ^ 32, 0, ?_, rfl, hDvd, ?_, ?_⟩
    · exact congrArg Int.ofNat hBytes
    · exact (Nat.zero_add _).trans_le (Nat.mod_le ..)
    · rfl
  cases sizes with
  | nil => exact ⟨s, rfl, by simp⟩
  | cons n sizes =>
      have hSame : dfuRead t s n 0 = dfuRead t s1 n 0 := by
        rw [dfuRead, hStart]
        rfl
      obtain ⟨s', hRun, hDone⟩ := @upload_spec t size s.mmc s1 _ hReads hSize hBlk (n :: sizes) hUp
        (show 0 < 65536 by decide)
      refine ⟨s', ?_, by simpa only [length_load] using hDone⟩
      rw [upload, hSame]
      exact hRun

end

/-- Every upload of the area through a buffer of `size` bytes, on a device that works, answers its
requests from the contents of the area; once more is asked for than the area has, the answers are
its contents and the entity is as before. -/
def UploadReturns (area : Area) (size : Nat) : Prop :=
  ∀ (t : ReadTarget) (s : UploadEntity) (sizes : List Nat), t.area = area → ReadsWork t →
    s.inited = false → t.dfuGetBuf s.dfuBuf = some size → (∀ n ∈ sizes, 0 < n ∧ n < 2 ^ 31) →
    ∃ answers s', upload t sizes 0 s = some (answers, s') ∧
      answers = answersFor sizes (load (s.mmc.parts (t.part s.mmc)) area.base area.bytes) ∧
      (area.bytes < sizes.sum →
        answers.flatten = load (s.mmc.parts (t.part s.mmc)) area.base area.bytes ∧
          Initial s' ∧ s'.mmc = s.mmc ∧ s'.dfuBuf = some size)

theorem uploadReturns_of_lt {area : Area} {size : Nat} (hSize : 0 < size)
    (hBlk : area.lbaBlkSize ∣ size) (hArea : area.bytes < 2 ^ 32) : UploadReturns area size := by
  rintro t s sizes rfl hReads hInit hBuf -
  obtain ⟨s', hRun, hDone⟩ := @upload_fresh t size s hReads hSize hBlk sizes hInit hBuf
  grind [Nat.mod_eq_of_lt, flatten_answersFor, length_load]

def readAll (area : Area) (size : Nat) : ReadTarget where
  area := area
  answers := ⟨true, fun _ => 0, fun _ count => count⟩
  bufsiz := some size
  maxBufSize := 0
  memalign := true
  given := fun _ count => count

def unread (size : Nat) : UploadEntity :=
  ⟨⟨⟨0, 0, zero, ⟨0, fun _ => zero⟩⟩, 0, 0, false, some size⟩, 0, 0⟩

/-- If single bytes are asked for until the area is at its end, the answers are as many as the
size of 32 bits says. -/
theorem lt_of_uploadReturns {area : Area} {size : Nat} (hSize : 0 < size)
    (hBlk : area.lbaBlkSize ∣ size) (h : UploadReturns area size) : area.bytes < 2 ^ 32 := by
  let sizes := List.replicate (area.bytes + 1) 1
  have hReads : ReadsWork (readAll area size) := ⟨rfl, fun _ => rfl, fun _ count _ _ => le_refl count⟩
  have hSum : sizes.sum = area.bytes + 1 := by simp [sizes]
  obtain ⟨answers, s', hRun, -, hDone⟩ := h (readAll area size) (unread size) sizes rfl hReads rfl
    rfl (fun n hn => by simp [List.eq_of_mem_replicate hn])
  obtain ⟨s2, hRun2, -⟩ := @upload_fresh (readAll area size) size (unread size) hReads hSize hBlk
    sizes rfl rfl
  obtain ⟨hAnswers, -⟩ := Prod.mk.inj (Option.some.inj (hRun.symm.trans hRun2))
  have hContents := (hDone (by omega)).1
  have hMod : area.bytes % 2 ^ 32 ≤ area.bytes := Nat.mod_le ..
  rw [hAnswers, flatten_answersFor (by rw [length_load, hSum]; exact Nat.lt_succ_of_le hMod)]
    at hContents
  have hLength := congrArg List.length hContents
  rw [length_load, length_load] at hLength
  have hLt : area.bytes % 2 ^ 32 < 2 ^ 32 := Nat.mod_lt _ (by decide)
  exact hLength ▸ hLt

/-- Uploads through a buffer of whole blocks return the area exactly if it has less than 4 GiB. -/
theorem dfu_upload_iff {area : Area} {size : Nat} (hSize : 0 < size)
    (hBlk : area.lbaBlkSize ∣ size) : UploadReturns area size ↔ area.bytes < 2 ^ 32 :=
  ⟨lt_of_uploadReturns hSize hBlk, uploadReturns_of_lt hSize hBlk⟩

def sixtyFourBlocks : Area := ⟨0, 64, 512, none, sector_pow, by decide⟩

def fourGiB : Area := ⟨2048, 8388608, 512, none, sector_pow, by decide⟩

theorem dfu_upload_small : sixtyFourBlocks.bytes < 2 ^ 32 ∧ UploadReturns sixtyFourBlocks 1024 :=
  ⟨by decide, (dfu_upload_iff (by decide) (by decide)).mpr (by decide)⟩

/-- Nothing comes back of 4 GiB. -/
theorem dfu_upload_nothing : ¬UploadReturns fourGiB 8388608 := fun h =>
  absurd (lt_of_uploadReturns (by decide) (by decide) h) (by decide)

/-- A download that is contiguous, and any upload behind it from the same hardware partition: once
more is asked for than the area has, what comes back begins with what was sent. -/
theorem dfu_round_trip {t : ReadTarget} (writes : Works t.toTarget) (reads : ReadsWork t)
    {s : DfuEntity} (fresh : s.inited = false ∧ s.iBuf = 0) {size : Nat}
    (buffer : t.dfuGetBuf s.dfuBuf = some size) {chunks : List (List UInt8)}
    (fit : ∀ c ∈ chunks, c.length ≤ size)
    (whole : WholeButLast t.area.lbaBlkSize (drained size 0 (chunks.map List.length)))
    (room : chunks.flatten.length ≤ t.area.bytes) (small : t.area.bytes < 2 ^ 32) :
    ∃ mmc, outcome (download t.toTarget chunks 0 s) = some mmc ∧
      ∀ (u : UploadEntity) (size' : Nat) (sizes : List Nat), u.mmc.parts = mmc.parts →
        t.part u.mmc = t.part s.mmc → u.inited = false → t.dfuGetBuf u.dfuBuf = some size' →
        0 < size' → t.area.lbaBlkSize ∣ size' → t.area.bytes < sizes.sum →
        ∃ answers u', upload t sizes 0 u = some (answers, u') ∧ chunks.flatten <+: answers.flatten := by
  have hSum : chunks.flatten.length = (chunks.map List.length).sum := List.length_flatten
  obtain ⟨mmc, hDownload, hLoad⟩ := contiguous_of_whole (by simpa using fit) (hSum ▸ room) whole
    t.toTarget s chunks rfl writes fresh.1 fresh.2 buffer rfl
  refine ⟨mmc, hDownload, fun u size' sizes hCard hPart hInit hBuf hSize hBlk hMore => ?_⟩
  obtain ⟨u', hUpload, -⟩ := @upload_fresh t size' u reads hSize hBlk sizes hInit hBuf
  rw [Nat.mod_eq_of_lt small, hCard, hPart] at hUpload
  refine ⟨_, u', hUpload, ?_⟩
  rw [flatten_answersFor (by rwa [length_load]), ← hLoad, ← hSum]
  exact ⟨_, by rw [← load_add, Nat.add_sub_cancel' room]⟩

def threeChunks : List (List UInt8) := [List.replicate 512 1, List.replicate 512 2, [3, 4]]

theorem dfu_round_trip_three_drains :
    let t := readAll sixtyFourBlocks 512
    drained 512 0 (threeChunks.map List.length) = [512, 512, 2] ∧
    ∃ mmc answers u', outcome (download t.toTarget threeChunks 0 (unread 512).toDfuEntity) = some mmc ∧
      upload t (List.replicate 9 4096) 0 { unread 512 with mmc := ⟨0, mmc.parts⟩ } =
        some (answers, u') ∧ threeChunks.flatten <+: answers.flatten := by
  intro t
  obtain ⟨mmc, hDownload, hUpload⟩ := @dfu_round_trip t ⟨rfl, fun _ => rfl, fun _ n _ _ => le_refl n⟩
    ⟨rfl, fun _ => rfl, fun _ n _ _ => le_refl n⟩ (unread 512).toDfuEntity ⟨rfl, rfl⟩ 512 rfl
    threeChunks (by decide +kernel) (by decide +kernel) (by decide +kernel) (by decide)
  obtain ⟨answers, u', hRun, hStart⟩ := hUpload { unread 512 with mmc := ⟨0, mmc.parts⟩ } 512
    (List.replicate 9 4096) rfl rfl rfl rfl (by decide) (by decide) (by decide)
  exact ⟨by decide +kernel, mmc, answers, u', hDownload, hRun, hStart⟩

end Fire3.Dfu

import Fire3.Dfu.Plan

/-!
What a drain leaves on the medium.

On a device that takes every request within the area, a drain that ends within the area writes
its bytes and what follows them in the buffer up to the end of the block, and the offset moves
behind that.
-/

namespace Fire3.Dfu
open ByteMemory Align

namespace Area
variable (a : Area)

def base : Nat := a.lbaBlkSize * a.lbaStart

def bytes : Nat := a.lbaBlkSize * a.lbaSize

theorem two_pow : ∃ k ≤ 64, a.lbaBlkSize = 2 ^ k := by
  grind [a.blkSize_pow]

theorem blkSize_pos : 0 < a.lbaBlkSize := two_pow_pos a.two_pow

theorem blkSize_le : a.lbaBlkSize ≤ 2 ^ 31 := by
  obtain ⟨k, hk, hPow⟩ := a.blkSize_pow
  rw [hPow]
  exact Nat.pow_le_pow_right (by decide) hk

theorem add_le {n : Nat} (h : n ≤ a.bytes) : n + a.lbaBlkSize ≤ 2 ^ 64 := by
  have hEnd := a.end_lt
  have hBytes : a.bytes ≤ 2 ^ 31 * 2 ^ 32 := Nat.mul_le_mul a.blkSize_le (by omega)
  have hBlk := a.blkSize_le
  omega

end Area

/-- The device is there and takes every request within the area. -/
structure Works (t : Target) : Prop where
  found : t.answers.found = true
  switches : ∀ part, t.answers.switchPart part = 0
  takes : ∀ start count, t.area.lbaStart ≤ start →
    start + count ≤ t.area.lbaStart + t.area.lbaSize → count ≤ t.answers.written start count

def Target.part (t : Target) (mmc : Mmc) : Nat := t.area.hwPartition.getD mmc.partNum

section
variable {t : Target}

theorem mmcAccessPart_ok (h : Works t) (mmc : Mmc) (part : Nat) :
    t.mmcAccessPart mmc part = (0, { mmc with partNum := part }) := by
  rw [Target.mmcAccessPart]
  split
  · rename_i hSame
    rw [hSame]
  · dsimp only
    rw [h.switches, if_neg (not_not_intro rfl)]

theorem blockTransfer_ok (h : Works t) (mmc : Mmc) {start count : Nat}
    (hStart : t.area.lbaStart ≤ start) (hEnd : start + count ≤ t.area.lbaStart + t.area.lbaSize)
    (buf : Mem) :
    t.blockTransfer mmc start count buf =
      (0, mmc.write (t.part mmc) (t.area.lbaBlkSize * start)
        (load buf 0 (t.area.lbaBlkSize * count))) := by
  have hMoved : min count (t.answers.written start count) = count :=
    Nat.min_eq_left (h.takes start count hStart hEnd)
  have hWrite (mmc : Mmc) : t.blockWrite mmc start count buf =
      (count, mmc.write mmc.partNum (t.area.lbaBlkSize * start)
        (load buf 0 (t.area.lbaBlkSize * count))) := by
    rw [Target.blockWrite, hMoved, if_pos rfl]
  rw [Target.blockTransfer, Target.part]
  cases t.area.hwPartition with
  | none =>
      grind
  | some part =>
      simp only [mmcAccessPart_ok h, hWrite, ne_eq, not_true_eq_false, if_false]
      rfl

theorem blockTransfer_refused (mmc : Mmc) {start count : Nat}
    (hNone : t.answers.written start count = 0) (hCount : 0 < count) (buf : Mem) :
    (t.blockTransfer mmc start count buf).1 ≠ 0 := by
  have hWrite (mmc : Mmc) : (t.blockWrite mmc start count buf).1 ≠ count := by
    rw [Target.blockWrite, hNone, Nat.min_zero, if_neg (by omega)]
    exact hCount.ne
  rw [Target.blockTransfer]
  cases t.area.hwPartition with
  | none =>
      grind
  | some part =>
      grind

theorem mmcBlockOp_blocks (h : Works t) (mmc : Mmc) (buf : Mem) {len o n : Nat}
    (ho : o ≤ t.area.lbaSize) (hn : n ≤ t.area.lbaSize)
    (hLen : align len t.area.lbaBlkSize = t.area.lbaBlkSize * n) :
    t.mmcBlockOp mmc (t.area.lbaBlkSize * o) buf len =
      if (t.area.lbaStart + o + n) % 2 ^ 32 > t.area.lbaStart + t.area.lbaSize then
        (-22, t.area.lbaBlkSize * n, mmc)
      else
        ((t.blockTransfer mmc (t.area.lbaStart + o) n buf).1, t.area.lbaBlkSize * n,
          (t.blockTransfer mmc (t.area.lbaStart + o) n buf).2) := by
  have hEnd := t.area.end_lt
  have hPos := t.area.blkSize_pos
  rw [Target.mmcBlockOp, h.found]
  simp only [Bool.not_true, Bool.false_eq_true, if_false, hLen, Nat.mul_div_cancel_left _ hPos]
  grind

theorem exists_blocks {x : Transfer} (hOffset : t.area.lbaBlkSize ∣ x.offset)
    (hIn : x.offset ≤ t.area.bytes) (hLength : x.iBuf ≤ t.area.bytes) :
    ∃ o n, x.offset = t.area.lbaBlkSize * o ∧ o ≤ t.area.lbaSize ∧
      align x.iBuf t.area.lbaBlkSize = t.area.lbaBlkSize * n ∧ n ≤ t.area.lbaSize := by
  have hPos := t.area.blkSize_pos
  have hWord := t.area.add_le hLength
  obtain ⟨o, ho⟩ := hOffset
  obtain ⟨n, hn⟩ := dvd_align t.area.two_pow hWord
  have hAlign := align_le t.area.two_pow hWord (Nat.dvd_mul_right _ t.area.lbaSize) hLength
  rw [hn] at hAlign
  rw [ho] at hIn
  exact ⟨o, n, ho, Nat.le_of_mul_le_mul_left hIn hPos, hn, Nat.le_of_mul_le_mul_left hAlign hPos⟩

def afterDrain (t : Target) (x : Transfer) : Transfer :=
  { x with
    iBuf := 0
    offset := x.offset + align x.iBuf t.area.lbaBlkSize
    mmc := x.mmc.write (t.part x.mmc) (t.area.base + x.offset)
      (load x.buf 0 (align x.iBuf t.area.lbaBlkSize)) }

theorem afterDrain_medium (t : Target) (x : Transfer) :
    (afterDrain t x).mmc.parts (t.part x.mmc) = store (x.mmc.parts (t.part x.mmc))
      (t.area.base + x.offset) (load x.buf 0 (align x.iBuf t.area.lbaBlkSize)) :=
  Function.update_self ..

theorem drain_ok (h : Works t) {x : Transfer} (hOffset : t.area.lbaBlkSize ∣ x.offset)
    (hSome : 0 < x.iBuf) (hLength : x.iBuf ≤ t.area.bytes)
    (hFits : x.offset + align x.iBuf t.area.lbaBlkSize ≤ t.area.bytes) :
    dfuWriteBufferDrain t x = (0, afterDrain t x) := by
  have hEnd := t.area.end_lt
  have hWord := t.area.add_le hFits
  have hPos := t.area.blkSize_pos
  obtain ⟨o, n, ho, hFirst, hn, hCount⟩ := exists_blocks hOffset (by omega) hLength
  have hRange : o + n ≤ t.area.lbaSize := by
    rw [ho, hn, ← Nat.mul_add] at hFits
    exact Nat.le_of_mul_le_mul_left hFits hPos
  have hAddress : t.area.lbaBlkSize * (t.area.lbaStart + o) = t.area.base + x.offset := by
    rw [Nat.mul_add, ← ho, Area.base]
  have hOp : t.mmcBlockOp x.mmc x.offset x.buf x.iBuf =
      (0, align x.iBuf t.area.lbaBlkSize, x.mmc.write (t.part x.mmc) (t.area.base + x.offset)
        (load x.buf 0 (align x.iBuf t.area.lbaBlkSize))) := by
    rw [ho, mmcBlockOp_blocks h _ _ hFirst hCount hn, Nat.mod_eq_of_lt (by omega),
      if_neg (by omega), blockTransfer_ok h _ (by omega) (by omega), hAddress, ← ho, ← hn]
  rw [dfuWriteBufferDrain, if_neg (by omega), hOp]
  grind [Nat.mod_eq_of_lt, afterDrain]

theorem fits_of_drain (h : Works t) {x : Transfer}
    (hRefuses : ∀ start count, t.area.lbaStart + t.area.lbaSize < start + count →
      t.answers.written start count = 0)
    (hOffset : t.area.lbaBlkSize ∣ x.offset) (hIn : x.offset ≤ t.area.bytes) (hSome : 0 < x.iBuf)
    (hLength : x.iBuf ≤ t.area.bytes) (hOk : (dfuWriteBufferDrain t x).1 = 0) :
    x.offset + align x.iBuf t.area.lbaBlkSize ≤ t.area.bytes := by
  obtain ⟨o, n, ho, hFirst, hn, hCount⟩ := exists_blocks hOffset hIn hLength
  have hLe := le_align t.area.two_pow (t.area.add_le hLength)
  have hOne : 0 < n := by
    grind
  rw [ho, hn, ← Nat.mul_add]
  refine Nat.mul_le_mul_left _ (Nat.le_of_not_lt fun hOut => ?_)
  have hRefused := blockTransfer_refused x.mmc (hRefuses (t.area.lbaStart + o) n (by omega)) hOne
    x.buf
  rw [dfuWriteBufferDrain, if_neg (by omega), ho, mmcBlockOp_blocks h _ _ hFirst hCount hn] at hOk
  grind

end

/-!
DFU downloads to a raw area that are contiguous.

Every drain goes on behind the blocks of the one before. If each drain that is followed by more
bytes is made of whole blocks, the chunks stand on the medium one after the other.
-/

/-- Each length is whole blocks, or nothing follows it. -/
def WholeButLast (blkSize : Nat) : List Nat → Prop
  | [] => True
  | n :: ns => (blkSize ∣ n ∨ ∀ k ∈ ns, k = 0) ∧ WholeButLast blkSize ns

instance decidableWholeButLast (blkSize : Nat) :
    (ns : List Nat) → Decidable (WholeButLast blkSize ns)
  | [] => isTrue trivial
  | _ :: ns =>
      haveI := decidableWholeButLast blkSize ns
      inferInstanceAs (Decidable (_ ∧ _))

/-- Every download of chunks of these sizes through a buffer of `size` bytes, on a device that
works, puts the chunks on the medium one after the other. -/
def Contiguous (area : Area) (size : Nat) (sizes : List Nat) : Prop :=
  ∀ (t : Target) (s : DfuEntity) (chunks : List (List UInt8)), t.area = area → Works t →
    s.inited = false → s.iBuf = 0 → t.dfuGetBuf s.dfuBuf = some size →
    chunks.map List.length = sizes →
    ∃ mmc, outcome (download t chunks 0 s) = some mmc ∧
      load (mmc.parts (t.part s.mmc)) area.base sizes.sum = chunks.flatten

section
variable {t : Target}

theorem load_filled (m : Mem) (n : Nat) (chunk : List UInt8) :
    load (store m n chunk) 0 (n + chunk.length) = load m 0 n ++ chunk := by
  simp [load_store_same, load_add, load_store_disjoint]

theorem load_drained (m : Mem) (base offset len : Nat) (buf : Mem) :
    load (store m (base + offset) (load buf 0 len)) base (offset + len) =
      load m base offset ++ load buf 0 len := by
  grind [load_store_same, length_load, load_add, load_store_disjoint, le_refl]

theorem add_align_le {area : Area} {offset n : Nat} (hOffset : area.lbaBlkSize ∣ offset)
    (h : offset + n ≤ area.bytes) : offset + align n area.lbaBlkSize ≤ area.bytes := by
  have hRest : area.lbaBlkSize ∣ area.bytes - offset := Nat.dvd_sub (Nat.dvd_mul_right ..) hOffset
  have hLe := align_le area.two_pow (area.add_le (by omega)) hRest (show n ≤ _ by omega)
  omega

theorem flatten_eq_nil_of_lengths {xs : List (List UInt8)} (h : ∀ k ∈ xs.map List.length, k = 0) :
    xs.flatten = [] := by
  grind [List.flatten_eq_nil_iff, List.length_eq_zero_iff, List.mem_map_of_mem]

/-- A drain within the area, of whole blocks or with nothing behind it: what is behind the drain
later is behind the drained bytes. -/
theorem drain_whole (h : Works t) {x : Transfer} {rest : List (List UInt8)}
    (hOffset : t.area.lbaBlkSize ∣ x.offset) (hSome : 0 < x.iBuf)
    (hFirst : t.area.lbaBlkSize ∣ x.iBuf ∨ ∀ k ∈ rest.map List.length, k = 0)
    (hFits : x.offset + (x.iBuf + rest.flatten.length) ≤ t.area.bytes) :
    dfuWriteBufferDrain t x = (0, afterDrain t x) ∧
      t.area.lbaBlkSize ∣ (afterDrain t x).offset ∧
      (afterDrain t x).offset + rest.flatten.length ≤ t.area.bytes ∧
      ∀ m : Mem, load m t.area.base ((afterDrain t x).offset + rest.flatten.length) =
          load ((afterDrain t x).mmc.parts (t.part x.mmc)) t.area.base (afterDrain t x).offset ++
            rest.flatten →
        load m t.area.base (x.offset + (x.iBuf + rest.flatten.length)) =
          load (x.mmc.parts (t.part x.mmc)) t.area.base x.offset ++
            (load x.buf 0 x.iBuf ++ rest.flatten) := by
  have hLength : x.iBuf ≤ t.area.bytes := by omega
  have hWord := t.area.add_le hLength
  have hFitsAligned := add_align_le hOffset (show x.offset + x.iBuf ≤ t.area.bytes by omega)
  have hNext : (afterDrain t x).offset = x.offset + align x.iBuf t.area.lbaBlkSize := rfl
  have hMedium := load_drained (x.mmc.parts (t.part x.mmc)) t.area.base x.offset
    (align x.iBuf t.area.lbaBlkSize) x.buf
  rw [← afterDrain_medium] at hMedium
  rw [hNext, hMedium]
  refine ⟨drain_ok h hOffset hSome hLength hFitsAligned,
    Nat.dvd_add hOffset (dvd_align t.area.two_pow hWord), ?_, fun m hLoad => ?_⟩
  · rcases hFirst with hBlocks | hEnd
    · rw [align_of_dvd t.area.two_pow hWord hBlocks]
      omega
    · grind [flatten_eq_nil_of_lengths]
  · rcases hFirst with hBlocks | hEnd
    · rw [align_of_dvd t.area.two_pow hWord hBlocks] at hLoad
      rw [← Nat.add_assoc, ← List.append_assoc]
      exact hLoad
    · -- the last drain, behind which its padding follows
      obtain ⟨k, hk⟩ := Nat.exists_eq_add_of_le (le_align t.area.two_pow hWord)
      rw [flatten_eq_nil_of_lengths hEnd] at hLoad ⊢
      rw [List.append_nil, List.length_nil, Nat.add_zero, hk, ← Nat.add_assoc, load_add,
        load_add _ 0, ← List.append_assoc] at hLoad
      rw [List.append_nil, List.length_nil, Nat.add_zero]
      exact List.append_inj_left hLoad (by simp)

theorem drain_idle {x : Transfer} (hNone : x.iBuf = 0) : dfuWriteBufferDrain t x = (0, x) := by
  rw [dfuWriteBufferDrain, if_pos hNone]

theorem runSteps_whole (h : Works t) {steps : List Step} {x : Transfer}
    (hOffset : t.area.lbaBlkSize ∣ x.offset)
    (hWhole : WholeButLast t.area.lbaBlkSize
      ((pieces (load x.buf 0 x.iBuf) steps).map List.length))
    (hFits : x.offset + (pieces (load x.buf 0 x.iBuf) steps).flatten.length ≤ t.area.bytes) :
    ∃ x', runSteps t steps x = some x' ∧
      load (x'.mmc.parts (t.part x.mmc)) t.area.base
          (x.offset + (pieces (load x.buf 0 x.iBuf) steps).flatten.length) =
        load (x.mmc.parts (t.part x.mmc)) t.area.base x.offset ++
          (pieces (load x.buf 0 x.iBuf) steps).flatten := by
  induction steps generalizing x with
  | nil => exact ⟨x, rfl, by simp [pieces]⟩
  | cons step steps ih =>
      cases step with
      | fill chunk =>
          have hHeld := load_filled x.buf x.iBuf chunk
          rw [pieces, ← hHeld] at hWhole hFits ⊢
          exact @ih { x with buf := store x.buf x.iBuf chunk, iBuf := x.iBuf + chunk.length }
            hOffset hWhole hFits
      | drain =>
          rw [pieces, List.map_cons, length_load] at hWhole
          rw [pieces, List.flatten_cons, List.length_append, length_load] at hFits ⊢
          obtain ⟨hFirst, hRest⟩ := hWhole
          rw [runSteps, Step.run]
          rcases Nat.eq_zero_or_pos x.iBuf with hNone | hSome
          · have hSame := @ih x hOffset
            rw [drain_idle hNone]
            rw [hNone, load_zero] at hSame ⊢
            grind
          · obtain ⟨hDrain, hNext, hTail, hBehind⟩ := drain_whole h hOffset hSome hFirst hFits
            obtain ⟨x', hRun, hLoad⟩ := @ih (afterDrain t x) hNext hRest hTail
            rw [hDrain]
            exact ⟨x', hRun, hBehind _ hLoad⟩

theorem contiguous_of_whole {area : Area} {size : Nat} {sizes : List Nat}
    (hFit : ∀ n ∈ sizes, n ≤ size) (hArea : sizes.sum ≤ area.bytes)
    (hWhole : WholeButLast area.lbaBlkSize (drained size 0 sizes)) :
    Contiguous area size sizes := by
  rintro t s chunks rfl h hInit hBuf hSize rfl
  obtain ⟨hBytes, hLengths⟩ := pieces_plan_empty size chunks
  have hSum : chunks.flatten.length = (chunks.map List.length).sum := List.length_flatten
  have hRun := @runSteps_whole t h (plan size 0 chunks) ⟨0, 0, s.buf, s.mmc⟩ (Nat.dvd_zero _)
  simp only [load_zero, Nat.zero_add, List.nil_append, hBytes, hLengths, hSum] at hRun
  obtain ⟨x', hRun, hLoad⟩ := hRun hWhole hArea
  refine ⟨x'.mmc, ?_, hLoad⟩
  grind [outcome_download_fresh, List.mem_map_of_mem]

end

end Fire3.Dfu

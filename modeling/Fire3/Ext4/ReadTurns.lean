import Fire3.Ext4.ReadFile

/-!
The loop of `ext4fs_read_file`, turn by turn: a block is joined to the read that is kept back, or
starts a new one, or is a hole.
-/

namespace Fire3.Ext4
open ByteMemory

section
variable {dev : Device} {file : File dev} {pos len i : Nat} {st : ReadState}

theorem segments_succ (hi : firstBlk dev pos ≤ i) :
    segments file pos len (i + 1) = segments file pos len i ++ [segment file pos len i] := by
  have hLen : i + 1 - firstBlk dev pos = i - firstBlk dev pos + 1 := by omega
  rw [segments, segments, hLen, List.range'_concat, List.map_append, List.map_singleton,
    Nat.one_mul, Nat.add_sub_cancel' hi]

theorem Run.inside {a : Nat} (hRun : Run file pos len st a i) :
    st.delayedStart * dev.sectSize + st.delayedSkipfirst + st.delayedExtent ≤
        dev.partSize * dev.sectSize ∧
      0 < st.delayedSkipfirst + st.delayedExtent := by
  have hLast := hRun.follows (i - 1) (by have := hRun.lt; omega) (by have := hRun.lt; omega)
  have hMapped : file.map (i - 1) ≠ 0 := by
    have hNe := hRun.mapped
    omega
  have hIn := Nat.mul_le_mul_right dev.sectSize (file.inside (i - 1) hMapped)
  have hEnd := @endOf_le dev pos len i
  have hLt := hRun.lt
  have hExtent := hRun.extent
  have hBlocks : (file.map (i - 1) + 1) * dev.sectPerBlk * dev.sectSize =
      file.map a * dev.sectPerBlk * dev.sectSize + dev.blocksize * (i - a) := by
    rw [hLast, dev.blocksize_eq, show file.map a + (i - 1 - a) + 1 = file.map a + (i - a) by omega]
    ring
  have hSplit : dev.blocksize * i = dev.blocksize * a + dev.blocksize * (i - a) := by
    rw [← Nat.mul_add, Nat.add_sub_cancel' hLt.le]
  rw [hRun.start, hRun.skip]
  refine ⟨by omega, ?_⟩
  have hAfter : dev.blocksize * a < endOf dev pos len i := by
    rw [endOf]
    split
    · next h => exact lt_end (by omega)
    · exact Nat.mul_lt_mul_of_pos_left hLt dev.blocksize_pos
  omega

theorem spill_run {a : Nat} (hRun : Run file pos len st a i) (hPending : st.pending = true)
    (hFits : endOf dev pos len i < dev.blocksize * a + 2 ^ 31) :
    spill dev st = .ok { st with writes := st.writes ++ st.delayed dev, pending := false } := by
  obtain ⟨hIn, hPos⟩ := hRun.inside
  have hExtent := hRun.extent
  have hSmall : ¬ st.delayedSkipfirst + st.delayedExtent ≥ 2 ^ 31 := by
    rw [hRun.skip]
    omega
  rw [spill, if_neg hSmall, ext4fsDevread_eq hPos hIn, ReadState.delayed, if_pos hPending]

theorem Run.delayed_bound {a : Nat} (hRun : Run file pos len st a i) :
    ∀ w ∈ st.delayed dev, w.1 + w.2.length + pos ≤ endOf dev pos len i := by
  intro w hw
  rw [ReadState.delayed] at hw
  split at hw
  · rw [List.mem_singleton.mp hw]
    have hOff := offOf_add_pos hRun.first_le
    have hExtent := hRun.extent
    have hBuf := hRun.buf
    dsimp only
    rw [length_load]
    omega
  · cases hw

theorem Reading.spillPending (h : Reading file pos len st i) (hi : i < blkCount dev pos len)
    (hInt : dev.blocksize * i < 2 ^ 31) :
    spillPending dev st = .ok { st with writes := st.writes ++ st.delayed dev, pending := false } ∧
      ∀ w ∈ st.writes ++ st.delayed dev, w.1 + w.2.length + pos ≤ dev.blocksize * i := by
  have hEnd := endOf_of_lt hi
  cases hPending : st.pending with
  | true =>
      obtain ⟨a, hRun⟩ := h.run hPending
      refine ⟨?_, fun w hw => ?_⟩
      · rw [Ext4.spillPending, if_pos hPending]
        exact spill_run hRun hPending (by omega)
      · rcases List.mem_append.mp hw with hOld | hNew
        · have hOldBound := h.bound w hOld
          rw [if_pos hPending] at hOldBound
          exact hOldBound.trans (Nat.mul_le_mul_left _ (Nat.sub_le i 1))
        · have hBound := hRun.delayed_bound w hNew
          omega
  | false =>
      have hNone : st.delayed dev = [] := by rw [ReadState.delayed, hPending]; rfl
      have hBound := h.bound
      rw [hPending] at hBound
      rw [Ext4.spillPending, hPending, hNone, List.append_nil]
      refine ⟨?_, hBound⟩
      rw [if_neg (by decide), ← hPending]

theorem readTurn_eq (hi : i < blkCount dev pos len) (hInt : dev.blocksize * i < 2 ^ 31) :
    readTurn dev (fun i => file.map i) pos len (blkCount dev pos len) st i =
      (if file.map i ≠ 0 then
        if st.pending then
          if st.delayedNext = file.map i * dev.sectPerBlk then
            .ok { st with
              delayedExtent := st.delayedExtent +
                (endOf dev pos len (i + 1) - (dev.blocksize * i + skipOf dev pos i))
              delayedNext := st.delayedNext +
                (endOf dev pos len (i + 1) - (dev.blocksize * i + skipOf dev pos i)) / dev.sectSize }
          else (spill dev st).map fun st => delay dev st (file.map i * dev.sectPerBlk)
            (endOf dev pos len (i + 1) - (dev.blocksize * i + skipOf dev pos i)) (skipOf dev pos i)
        else .ok (delay dev st (file.map i * dev.sectPerBlk)
          (endOf dev pos len (i + 1) - (dev.blocksize * i + skipOf dev pos i)) (skipOf dev pos i))
      else (spillPending dev st).map fun st =>
        { st with
          writes := st.writes ++ [(st.buf, List.replicate (dev.blocksize - skipOf dev pos i) 0)] }).map
        fun st => { st with buf := st.buf + (dev.blocksize - skipOf dev pos i) } := by
  have hEnd := lt_end hi
  have hPart := dev.part_lt
  have hLt : file.map i * dev.sectPerBlk < 2 ^ 64 ∧ file.map i < 2 ^ 64 := by
    have hPos := dev.sectPerBlk_pos
    by_cases hZero : file.map i = 0
    · rw [hZero]
      omega
    · have hIn := file.inside i hZero
      have hLe : file.map i ≤ file.map i * dev.sectPerBlk := Nat.le_mul_of_pos_right _ hPos
      rw [Nat.succ_mul] at hIn
      omega
  have hBlknr : (((file.map i : Nat) : Int) % 2 ^ 64).toNat * dev.sectPerBlk % 2 ^ 64 =
      file.map i * dev.sectPerBlk := by
    grind
  have hBlockend : (if i + 1 = blkCount dev pos len then
      if len + pos - dev.blocksize * i = 0 then dev.blocksize else len + pos - dev.blocksize * i
      else dev.blocksize) - skipOf dev pos i =
      endOf dev pos len (i + 1) - (dev.blocksize * i + skipOf dev pos i) := by
    rw [endOf]
    split
    · rw [if_neg (by omega)]
      omega
    · rw [Nat.mul_succ]
      omega
  have hZero : file.map i * dev.sectPerBlk ≠ 0 ↔ file.map i ≠ 0 := by
    rw [Nat.mul_ne_zero_iff]
    exact and_iff_left dev.sectPerBlk_pos.ne'
  rw [readTurn, if_neg (by omega)]
  dsimp only
  rw [hBlknr, show (if i = pos / dev.blocksize then pos - dev.blocksize * i else 0) =
    skipOf dev pos i from rfl, hBlockend]
  congr 1
  exact if_congr hZero rfl rfl

theorem Reading.delay (hi : i < blkCount dev pos len) (hFirst : firstBlk dev pos ≤ i)
    (hMapped : file.map i ≠ 0) (hBuf : st.buf = offOf dev pos i)
    (hSame : ∀ m, applyWrites m st.writes = applyWrites m (segments file pos len i))
    (hBound : ∀ w ∈ st.writes, w.1 + w.2.length + pos ≤ dev.blocksize * i)
    (hMaximal : i = firstBlk dev pos ∨ file.map (i - 1) = 0 ∨ file.map i ≠ file.map (i - 1) + 1 ∨
      skipOf dev pos (i - 1) ≠ 0) {n : Nat}
    (hn : n = endOf dev pos len (i + 1) - (dev.blocksize * i + skipOf dev pos i)) {b : Nat}
    (hb : b = st.buf + (dev.blocksize - skipOf dev pos i)) :
    Reading file pos len
      { Ext4.delay dev st (file.map i * dev.sectPerBlk) n (skipOf dev pos i) with buf := b }
      (i + 1) := by
  have hStart := start_le_end hi
  have hSkip := @skipOf_lt dev pos i
  have hMul : dev.blocksize * (i + 1) = dev.blocksize * i + dev.blocksize := Nat.mul_succ _ i
  have hOff := offOf_add_pos hFirst
  have hBelow : file.map i * dev.sectPerBlk ≠ 2 ^ 64 - 1 := by
    have hIn := file.inside i hMapped
    grind [dev.part_lt, Nat.succ_mul]
  have hPending :
      (Ext4.delay dev st (file.map i * dev.sectPerBlk) n (skipOf dev pos i)).pending = true :=
    decide_eq_true hBelow
  refine ⟨fun hNext => ?_, fun m => ?_, fun _ => ⟨i, ?_⟩, fun hIdle => ?_, fun _ hHole => ?_,
    fun w hw => ?_⟩
  · grind [offOf_add_pos, skipOf_eq_zero, firstBlk]
  · rw [segments_succ hFirst, applyWrites_append, applyWrites_append, ← hSame, ReadState.delayed,
      if_pos hPending, segment, if_neg hMapped]
    grind [Ext4.delay, applyWrites_single, dev.blocksize_eq, Nat.mul_assoc]
  · refine ⟨hFirst, Nat.lt_succ_self i, hMapped, fun j hLow hHigh => ?_, rfl, rfl, ?_, hBuf,
      fun hLt hZero => ?_, fun hNonzero => ⟨rfl, fun hLt => ?_⟩, hMaximal⟩
    · rw [show j = i by omega, Nat.sub_self, Nat.add_zero]
    · simp only [Ext4.delay]
      omega
    · have hFull := endOf_of_lt hLt
      have hSize : n = dev.blocksize := by omega
      grind [Ext4.delay, sectPerBlk_eq, Nat.add_sub_cancel_left, Nat.succ_mul]
    · have hFull := endOf_of_lt hLt
      have hSize : n = dev.blocksize - skipOf dev pos i := by omega
      simp only [Ext4.delay]
      rw [hSize]
  · grind
  · exact absurd hHole hMapped
  · rw [if_pos (show _ = true from hPending)]
    exact hBound w hw

theorem Run.next_iff {a : Nat} (hRun : Run file pos len st a i) (hi : i < blkCount dev pos len) :
    st.delayedNext = file.map i * dev.sectPerBlk ↔
      skipOf dev pos a = 0 ∧ file.map i = file.map a + (i - a) := by
  have hSpb := dev.sectPerBlk_pos
  by_cases hSkip : skipOf dev pos a = 0
  · rw [hRun.next hi hSkip]
    constructor
    · grind [Nat.eq_of_mul_eq_mul_right]
    · intro hEq
      rw [hEq.2]
  · apply iff_of_false _ (fun h => hSkip h.1)
    obtain ⟨hOne, hNext⟩ := hRun.alone hSkip
    have hLt : (dev.blocksize - skipOf dev pos a) / dev.sectSize < dev.sectPerBlk := by
      rw [Nat.div_lt_iff_lt_mul dev.sectSize_pos, ← dev.blocksize_eq]
      have hPos := dev.blocksize_pos
      omega
    rw [hNext hi]
    intro hEq
    generalize (dev.blocksize - skipOf dev pos a) / dev.sectSize = k at hLt hEq
    have hDiv : (file.map a * dev.sectPerBlk + k) / dev.sectPerBlk = file.map i := by
      rw [hEq, Nat.mul_div_cancel _ hSpb]
    rw [Nat.mul_comm, Nat.mul_add_div hSpb, Nat.div_eq_of_lt hLt, Nat.add_zero] at hDiv
    have hSame := file.inj a i hRun.mapped hDiv
    omega

theorem Reading.join {a : Nat} (h : Reading file pos len st i) (hRun : Run file pos len st a i)
    (hPending : st.pending = true) (hi : i < blkCount dev pos len) (hMapped : file.map i ≠ 0)
    (hSkip : skipOf dev pos a = 0) (hFollows : file.map i = file.map a + (i - a)) :
    Reading file pos len { st with
      delayedExtent := st.delayedExtent +
        (endOf dev pos len (i + 1) - (dev.blocksize * i + skipOf dev pos i))
      delayedNext := st.delayedNext +
        (endOf dev pos len (i + 1) - (dev.blocksize * i + skipOf dev pos i)) / dev.sectSize
      buf := st.buf + (dev.blocksize - skipOf dev pos i) } (i + 1) := by
  have hFirst : firstBlk dev pos < i := Nat.lt_of_le_of_lt hRun.first_le hRun.lt
  have hNoSkip := skipOf_eq_zero hFirst
  have hStart := start_le_end hi
  have hMul : dev.blocksize * (i + 1) = dev.blocksize * i + dev.blocksize := Nat.mul_succ _ i
  have hEnd := endOf_of_lt hi
  have hExtent := hRun.extent
  have hLt := hRun.lt
  have hSplit : dev.blocksize * i = dev.blocksize * a + dev.blocksize * (i - a) := by
    rw [← Nat.mul_add, Nat.add_sub_cancel' hLt.le]
  rw [hNoSkip, Nat.add_zero] at hStart ⊢
  refine ⟨fun hNext => ?_, fun m => ?_, fun _ => ⟨a, ?_⟩, fun hIdle => ?_, fun _ hHole => ?_,
    fun w hw => ?_⟩
  · have hOff := offOf_add_pos hFirst.le
    have hNextOff := @offOf_add_pos dev pos (i + 1) (by omega)
    rw [skipOf_eq_zero (show firstBlk dev pos < i + 1 by omega)] at hNextOff
    have hBuf := h.buf hi
    dsimp only
    omega
  · -- the longer read is the read so far and the block
    have hPlace : st.delayedStart * dev.sectSize + st.delayedSkipfirst + st.delayedExtent =
        file.map i * dev.blocksize + skipOf dev pos i := by
      rw [hRun.start, hRun.skip, hSkip, hNoSkip, hFollows, Nat.add_mul, Nat.mul_assoc,
        ← dev.blocksize_eq, Nat.mul_comm (i - a)]
      omega
    have hBufs : st.delayedBuf + st.delayedExtent = offOf dev pos i := by
      have hOffA := offOf_add_pos hRun.first_le
      have hOffI := offOf_add_pos hFirst.le
      have hBuf := hRun.buf
      omega
    have hSame := h.same m
    rw [applyWrites_append, ReadState.delayed, if_pos hPending, applyWrites_single] at hSame
    rw [segments_succ hFirst.le, applyWrites_append, applyWrites_append, ← hSame,
      ReadState.delayed, if_pos hPending, segment, if_neg hMapped, applyWrites_single,
      applyWrites_single, load_add, store_append, length_load, hPlace, hBufs, hNoSkip, Nat.add_zero]
  · refine ⟨hRun.first_le, by omega, hRun.mapped, fun j hLow hHigh => ?_, hRun.start, hRun.skip, ?_,
      hRun.buf, fun hNext _ => ?_, fun hNonzero => absurd hSkip hNonzero, hRun.maximal⟩
    · by_cases hEq : j = i
      · rw [hEq, hFollows]
      · exact hRun.follows j hLow (by omega)
    · dsimp only
      omega
    · have hFull := endOf_of_lt hNext
      dsimp only
      rw [hRun.next hi hSkip, hFull, hMul, Nat.add_zero, Nat.add_sub_cancel_left, sectPerBlk_eq,
        show i + 1 - a = i - a + 1 by omega, ← Nat.add_assoc, Nat.succ_mul]
  · exact absurd (hPending.symm.trans hIdle) (by decide)
  · exact absurd hHole hMapped
  · have hOld := h.bound w hw
    rw [if_pos hPending] at hOld
    dsimp only
    rw [if_pos hPending]
    exact hOld.trans (Nat.mul_le_mul_left _ (Nat.sub_le i 1))

theorem Reading.fill (hFirst : firstBlk dev pos ≤ i)
    (hHole : file.map i = 0) (hBuf : st.buf = offOf dev pos i) (hPending : st.pending = false)
    (hSame : ∀ m, applyWrites m st.writes = applyWrites m (segments file pos len i))
    (hBound : ∀ w ∈ st.writes, w.1 + w.2.length + pos ≤ dev.blocksize * i) :
    Reading file pos len { st with
      writes := st.writes ++ [(st.buf, List.replicate (dev.blocksize - skipOf dev pos i) 0)]
      buf := st.buf + (dev.blocksize - skipOf dev pos i) } (i + 1) := by
  have hSkip := @skipOf_lt dev pos i
  have hMul : dev.blocksize * (i + 1) = dev.blocksize * i + dev.blocksize := Nat.mul_succ _ i
  have hOff := offOf_add_pos hFirst
  have hDelayed : ReadState.delayed dev { st with
      writes := st.writes ++ [(st.buf, List.replicate (dev.blocksize - skipOf dev pos i) 0)]
      buf := st.buf + (dev.blocksize - skipOf dev pos i) } = [] := by
    rw [ReadState.delayed, hPending]
    rfl
  refine ⟨fun hNext => ?_, fun m => ?_, fun hRun => ?_, fun _ _ => hHole, fun _ _ => ⟨hPending, ?_⟩,
    fun w hw => ?_⟩
  · grind [offOf_add_pos, skipOf_eq_zero, firstBlk]
  · rw [hDelayed, List.append_nil, segments_succ hFirst, applyWrites_append, applyWrites_append,
      ← hSame, segment, if_pos hHole, hBuf]
  · exact absurd (hRun.symm.trans hPending) (by decide)
  · grind
  · dsimp only
    rw [if_neg (by rw [hPending]; decide)]
    rcases List.mem_append.mp hw with hOld | hNew
    · have hOldBound := hBound w hOld
      omega
    · grind

theorem Reading.turn (h : Reading file pos len st i) (hFirst : firstBlk dev pos ≤ i)
    (hi : i < blkCount dev pos len) (hInt : dev.blocksize * i < 2 ^ 31) :
    ∃ st', readTurn dev (fun i => file.map i) pos len (blkCount dev pos len) st i = .ok st' ∧
      Reading file pos len st' (i + 1) := by
  obtain ⟨hSpill, hBound⟩ := h.spillPending hi hInt
  have hBuf := h.buf hi
  rw [readTurn_eq hi hInt]
  by_cases hHole : file.map i = 0
  · rw [if_neg (not_not.mpr hHole), hSpill]
    exact ⟨_, rfl, @Reading.fill _ _ _ _ _
      { st with writes := st.writes ++ st.delayed dev, pending := false }
      hFirst hHole hBuf rfl h.same hBound⟩
  · rw [if_pos hHole]
    by_cases hPending : st.pending = true
    · obtain ⟨a, hRun⟩ := h.run hPending
      rw [if_pos hPending]
      by_cases hNext : st.delayedNext = file.map i * dev.sectPerBlk
      · rw [if_pos hNext]
        obtain ⟨hSkip, hFollows⟩ := (hRun.next_iff hi).mp hNext
        exact ⟨_, rfl, h.join hRun hPending hi hHole hSkip hFollows⟩
      · rw [if_neg hNext]
        rw [Ext4.spillPending, if_pos hPending] at hSpill
        rw [hSpill]
        refine ⟨_, rfl, @Reading.delay _ _ _ _ _
          { st with writes := st.writes ++ st.delayed dev, pending := false }
          hi hFirst hHole hBuf h.same hBound ?_ _ rfl _ rfl⟩
        -- the block was not joined, so it does not follow or the run starts inside of its block
        have hLt := hRun.lt
        rw [hRun.next_iff hi] at hNext
        by_cases hSkip : skipOf dev pos a = 0
        · have hLast := hRun.follows (i - 1) (by omega) (by omega)
          omega
        · obtain ⟨hOne, -⟩ := hRun.alone hSkip
          grind
    · rw [if_neg hPending]
      have hIdle := Bool.eq_false_iff.mpr hPending
      have hNone : st.delayed dev = [] := by
        rw [ReadState.delayed, if_neg hPending]
      have hSame := h.same
      rw [hNone, List.append_nil] at hSame
      have hBounds := h.bound
      rw [if_neg hPending] at hBounds
      refine ⟨_, rfl, Reading.delay hi hFirst hHole hBuf hSame hBounds ?_ rfl rfl⟩
      by_cases hEq : i = firstBlk dev pos
      · exact .inl hEq
      · exact .inr (.inl (h.idle hIdle (by omega)))

theorem Reading.turns {n : Nat} (h : Reading file pos len st i) (hFirst : firstBlk dev pos ≤ i)
    (hn : i + n = blkCount dev pos len)
    (hInt : ∀ j, i ≤ j → j < blkCount dev pos len → dev.blocksize * j < 2 ^ 31) :
    ∃ st', readTurns dev (fun i => file.map i) pos len (blkCount dev pos len) n i st = .ok st' ∧
      Reading file pos len st' (blkCount dev pos len) := by
  induction n generalizing i st with
  | zero =>
      rw [Nat.add_zero] at hn
      rw [← hn]
      exact ⟨st, rfl, h⟩
  | succ n ih =>
      obtain ⟨next, hTurn, hNext⟩ := h.turn hFirst (by omega) (hInt i (Nat.le_refl i) (by omega))
      obtain ⟨last, hTurns, hLast⟩ :=
        ih hNext (by omega) (by omega) fun j hLow hHigh => hInt j (by omega) hHigh
      refine ⟨last, ?_, hLast⟩
      rw [readTurns, hTurn]
      exact hTurns

theorem Reading.start : Reading file pos len readStart (firstBlk dev pos) := by
  refine ⟨fun _ => ?_, fun m => ?_, fun h => ?_, fun _ h => ?_, fun h => ?_, fun w hw => ?_⟩
  · rw [offOf, skipOf, if_pos rfl, Nat.add_sub_cancel' firstBlk_mul, Nat.sub_self]
    rfl
  · rw [segments, Nat.sub_self]
    rfl
  · cases h
  · exact absurd h (Nat.lt_irrefl _)
  · exact absurd h (Nat.lt_irrefl _)
  · cases hw

end

end Fire3.Ext4

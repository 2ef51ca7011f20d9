import Fire3.Ext4.ReadTurns

/-!
The windows for which `ext4fs_read_file` returns what was asked for.
-/

namespace Fire3.Ext4
open ByteMemory

section
variable {dev : Device} {file : File dev} {pos len i : Nat}

theorem segment_byte (hFirst : firstBlk dev pos ≤ i) (hi : i < blkCount dev pos len) (m : Mem)
    {x : Nat} (hLow : offOf dev pos i ≤ x) (hHigh : pos + x < endOf dev pos len (i + 1)) :
    store m (segment file pos len i).1 (segment file pos len i).2 x = file.byte (pos + x) := by
  have hOff := offOf_add_pos hFirst
  have hStart := start_le_end hi
  have hEnd := @endOf_le dev pos len (i + 1)
  have hMul : dev.blocksize * (i + 1) = dev.blocksize * i + dev.blocksize := Nat.mul_succ _ i
  have hSkip := @skipOf_lt dev pos i
  have hDiv : (pos + x) / dev.blocksize = i := by
    rw [Nat.div_eq_iff dev.blocksize_pos, Nat.mul_comm]
    omega
  have hMod : (pos + x) % dev.blocksize = pos + x - dev.blocksize * i := by
    have hAll := Nat.div_add_mod (pos + x) dev.blocksize
    rw [hDiv] at hAll
    omega
  rw [File.byte, hDiv, hMod, segment]
  dsimp only
  by_cases hHole : file.map i = 0
  · rw [if_pos hHole, if_pos hHole]
    have hInside := store_inside m (offOf dev pos i)
      (List.replicate (dev.blocksize - skipOf dev pos i) 0) (x - offOf dev pos i)
      (by rw [List.length_replicate]; omega)
    grind
  · rw [if_neg hHole, if_neg hHole, store_load_apply, if_pos (by omega)]
    congr 1
    omega

theorem segments_bytes (hFirst : firstBlk dev pos ≤ i) (hi : i ≤ blkCount dev pos len) (m : Mem)
    {x : Nat} (hx : pos + x < endOf dev pos len i) :
    applyWrites m (segments file pos len i) x = file.byte (pos + x) := by
  induction i with
  | zero =>
      have hEnd := @endOf_le dev pos len 0
      omega
  | succ i ih =>
      by_cases hEq : firstBlk dev pos = i + 1
      · have hEnd := @endOf_le dev pos len (i + 1)
        have hMul := @firstBlk_mul dev pos
        rw [hEq] at hMul
        omega
      · have hLe : firstBlk dev pos ≤ i := by omega
        rw [segments_succ hLe, applyWrites_append]
        by_cases hLow : offOf dev pos i ≤ x
        · exact segment_byte hLe (by omega) _ hLow hx
        · have hOff := offOf_add_pos hLe
          have hBefore : pos + x < endOf dev pos len i := by
            rw [endOf_of_lt (show i < blkCount dev pos len by omega)]
            by_cases hFirstEq : i = firstBlk dev pos
            · have hZero : offOf dev pos i = 0 := by
                rw [offOf, skipOf, if_pos hFirstEq, hFirstEq, Nat.add_sub_cancel' firstBlk_mul,
                  Nat.sub_self]
              omega
            · grind [skipOf_eq_zero, firstBlk]
          have hStore : applyWrites (applyWrites m (segments file pos len i))
              [segment file pos len i] x = applyWrites m (segments file pos len i) x :=
            store_below _ _ _ _ (Nat.not_le.mp hLow)
          rw [hStore, ih hLe (by omega) hBefore]

end

section
variable {dev : Device} {file : File dev} {pos len i : Nat} {st : ReadState}

theorem readTurns_undefined {lookup : Nat → Int} {blockcnt n j : Nat} (hLow : i ≤ j)
    (hHigh : j < i + n) (hInt : dev.blocksize * j ≥ 2 ^ 31) (st' : ReadState) :
    readTurns dev lookup pos len blockcnt n i st ≠ .ok st' := by
  induction n generalizing i st with
  | zero => omega
  | succ n ih =>
      rw [readTurns]
      cases hTurn : readTurn dev lookup pos len blockcnt st i with
      | error e =>
          intro h
          cases h
      | ok next =>
          by_cases hEq : j = i
          · rw [readTurn, if_pos (by rw [← hEq]; exact hInt)] at hTurn
            cases hTurn
          · exact ih (by omega) (by omega)

structure LongRun (file : File dev) (pos len : Nat) : Prop where
  pos_eq : pos = 0
  len_eq : len = 2 ^ 31
  mapped : file.map 0 ≠ 0
  follows : ∀ j < blkCount dev pos len, file.map j = file.map 0 + j

theorem blkCount_mul_le (hFirst : firstBlk dev pos < blkCount dev pos len)
    (hInt : ∀ i, firstBlk dev pos ≤ i → i < blkCount dev pos len → dev.blocksize * i < 2 ^ 31) :
    dev.blocksize * blkCount dev pos len ≤ 2 ^ 31 := by
  obtain ⟨k, hk⟩ := dev.blocksize_dvd
  have hLast := hInt (blkCount dev pos len - 1) (by omega) (by omega)
  rw [hk] at hLast ⊢
  have hLt := Nat.lt_of_mul_lt_mul_left hLast
  exact Nat.mul_le_mul_left _ (by omega)

theorem Reading.finish (h : Reading file pos len st (blkCount dev pos len))
    (hInt : ∀ i, firstBlk dev pos ≤ i → i < blkCount dev pos len → dev.blocksize * i < 2 ^ 31)
    (hShort : ¬ LongRun file pos len) :
    ∃ st', Ext4.spillPending dev st = .ok st' ∧ st'.writes = st.writes ++ st.delayed dev := by
  by_cases hPending : st.pending = true
  · obtain ⟨a, hRun⟩ := h.run hPending
    have hFirst : firstBlk dev pos < blkCount dev pos len := Nat.lt_of_le_of_lt hRun.first_le hRun.lt
    have hMul := blkCount_mul_le hFirst hInt
    have hEnd := @end_le dev pos len
    have hEndOf : endOf dev pos len (blkCount dev pos len) = pos + len := if_pos rfl
    rw [Ext4.spillPending, if_pos hPending]
    by_cases hFits : endOf dev pos len (blkCount dev pos len) < dev.blocksize * a + 2 ^ 31
    · exact ⟨_, spill_run hRun hPending hFits, rfl⟩
    · exfalso
      have hBlocks := dev.blocksize_le
      have hPos := dev.blocksize_pos
      have hZero : a = 0 := by
        have hMulZero : dev.blocksize * a = 0 := by omega
        grind [Nat.mul_eq_zero]
      have hFirstZero : firstBlk dev pos = 0 := by
        have hLe := hRun.first_le
        omega
      have hSkip : skipOf dev pos a = pos := by
        rw [skipOf, hZero, hFirstZero, if_pos rfl, Nat.mul_zero, Nat.sub_zero]
      have hPosZero : pos = 0 := by
        by_contra hNe
        obtain ⟨hOne, -⟩ := hRun.alone (by rw [hSkip]; exact hNe)
        rw [hOne, hZero] at hEnd
        omega
      apply hShort
      refine ⟨hPosZero, by omega, hZero ▸ hRun.mapped, fun j hj => ?_⟩
      have hFollows := hRun.follows j (by omega) hj
      rwa [hZero, Nat.sub_zero] at hFollows
  · refine ⟨st, by rw [Ext4.spillPending, if_neg hPending], ?_⟩
    rw [ReadState.delayed, if_neg hPending, List.append_nil]

theorem Reading.finish_long (h : Reading file pos len st (blkCount dev pos len))
    (hLong : LongRun file pos len) (st' : ReadState) : Ext4.spillPending dev st ≠ .ok st' := by
  have hFirst : firstBlk dev pos = 0 := by
    rw [firstBlk, hLong.pos_eq, Nat.zero_div]
  have hMapped : ∀ j < blkCount dev pos len, file.map j ≠ 0 := by
    intro j hj
    have hNe := hLong.mapped
    rw [hLong.follows j hj]
    omega
  have hCount : 0 < blkCount dev pos len := by
    apply Nat.pos_of_ne_zero
    intro hZero
    have hEnd := @end_le dev pos len
    have hLen := hLong.len_eq
    rw [hZero] at hEnd
    omega
  have hPending : st.pending = true := by
    by_contra hIdle
    exact hMapped _ (by omega) (h.idle (Bool.eq_false_iff.mpr hIdle) (by omega))
  obtain ⟨a, hRun⟩ := h.run hPending
  have hLt := hRun.lt
  have hSkips : ∀ j, skipOf dev pos j = 0 := by
    intro j
    rw [skipOf, hLong.pos_eq, Nat.zero_sub, ite_self]
  have hZero : a = 0 := by
    rcases hRun.maximal with hEq | hHole | hApart | hSkip
    · rw [hEq, hFirst]
    · exact absurd hHole (hMapped _ (by omega))
    · by_contra hNe
      rw [hLong.follows a hLt, hLong.follows (a - 1) (by omega)] at hApart
      omega
    · exact absurd (hSkips _) hSkip
  have hExtent := hRun.extent
  have hEndOf : endOf dev pos len (blkCount dev pos len) = pos + len := if_pos rfl
  have hPos := hLong.pos_eq
  have hLen := hLong.len_eq
  have hSkip := hRun.skip
  have hZeros := hSkips a
  rw [hZero, Nat.mul_zero] at hExtent
  rw [hZero] at hZeros hSkip
  rw [Ext4.spillPending, if_pos hPending, spill, if_pos (by omega)]
  intro hOk
  cases hOk

theorem Reading.within {n : Nat} (h : Reading file pos len st (blkCount dev pos len)) (hLen : len ≤ n)
    (hHole : firstBlk dev pos < blkCount dev pos len → file.map (blkCount dev pos len - 1) = 0 →
      dev.blocksize * blkCount dev pos len ≤ pos + n) :
    ∀ w ∈ st.writes ++ st.delayed dev, w.1 + w.2.length ≤ n := by
  intro w hw
  by_cases hPending : st.pending = true
  · obtain ⟨a, hRun⟩ := h.run hPending
    have hLt := hRun.lt
    rcases List.mem_append.mp hw with hWritten | hDelayed
    · have hBound := h.bound w hWritten
      have hEnd := @lt_end dev pos len (blkCount dev pos len - 1) (by omega)
      rw [if_pos hPending] at hBound
      omega
    · have hBound := hRun.delayed_bound w hDelayed
      rw [endOf, if_pos rfl] at hBound
      omega
  · rw [ReadState.delayed, if_neg hPending, List.append_nil] at hw
    have hBound := h.bound w hw
    rw [if_neg hPending] at hBound
    by_cases hEmpty : firstBlk dev pos < blkCount dev pos len
    · have hMul := hHole hEmpty (h.idle (Bool.eq_false_iff.mpr hPending) hEmpty)
      omega
    · have hEq : blkCount dev pos len = firstBlk dev pos := Nat.le_antisymm (by omega) blkCount_ge
      have hMul := @firstBlk_mul dev pos
      rw [hEq] at hBound
      omega

theorem Reading.hole_within {n : Nat} (h : Reading file pos len st (blkCount dev pos len))
    (hWithin : ∀ w ∈ st.writes ++ st.delayed dev, w.1 + w.2.length ≤ n)
    (hFirst : firstBlk dev pos < blkCount dev pos len)
    (hMap : file.map (blkCount dev pos len - 1) = 0) :
    dev.blocksize * blkCount dev pos len ≤ pos + n := by
  have hLe := hWithin _ (List.mem_append_left _ (h.hole hFirst hMap).2)
  have hOff := @offOf_add_pos dev pos (blkCount dev pos len - 1) (by omega)
  have hSkip := @skipOf_lt dev pos (blkCount dev pos len - 1)
  have hMul : dev.blocksize * (blkCount dev pos len - 1 + 1) =
      dev.blocksize * (blkCount dev pos len - 1) + dev.blocksize := Nat.mul_succ _ _
  grind

/-- The length that is read, and the blocks of the window, fit into the integers of the code. A
position so large that the number of its block is negative is read as the end of the file. -/
structure InRange (dev : Device) (pos len : Nat) : Prop where
  sum_lt : len + pos + dev.blocksize - 1 < 2 ^ 63
  first : 2 ^ 31 ≤ firstBlk dev pos % 2 ^ 32 ∨ firstBlk dev pos < 2 ^ 31
  block : firstBlk dev pos < 2 ^ 31 → ∀ i, firstBlk dev pos ≤ i → i < blkCount dev pos len →
    dev.blocksize * i < 2 ^ 31

theorem limited_eq (file : File dev) (len : Nat) :
    (if len > file.size then file.size else len) = min len file.size := by
  grind

theorem ext4fsReadFile_blocks (file : File dev) (pos len : Nat) :
    ext4fsReadFile dev (fun i => file.map i) file.size pos len =
      if min len file.size + pos + dev.blocksize - 1 ≥ 2 ^ 63 then .error .undefined
      else
        (readTurns dev (fun i => file.map i) pos (min len file.size)
          (blkCount dev pos (min len file.size))
          (if firstBlk dev pos % 2 ^ 32 ≥ 2 ^ 31 then 0
            else blkCount dev pos (min len file.size) - firstBlk dev pos % 2 ^ 32)
          (firstBlk dev pos % 2 ^ 32) readStart).bind fun st =>
            (spillPending dev st).map fun st => (st.writes, min len file.size) := by
  rw [ext4fsReadFile, limited_eq]
  rfl

theorem ext4fsReadFile_negative (hSum : min len file.size + pos + dev.blocksize - 1 < 2 ^ 63)
    (hFirst : 2 ^ 31 ≤ firstBlk dev pos % 2 ^ 32) :
    ext4fsReadFile dev (fun i => file.map i) file.size pos len = .ok ([], min len file.size) := by
  rw [ext4fsReadFile_blocks, if_neg (Nat.not_le.mpr hSum), if_pos hFirst]
  rfl

theorem ext4fsReadFile_eq (hSum : min len file.size + pos + dev.blocksize - 1 < 2 ^ 63)
    (hFirst : firstBlk dev pos < 2 ^ 31)
    (hInt : ∀ i, firstBlk dev pos ≤ i → i < blkCount dev pos (min len file.size) →
      dev.blocksize * i < 2 ^ 31) :
    ∃ st, Reading file pos (min len file.size) st (blkCount dev pos (min len file.size)) ∧
      ext4fsReadFile dev (fun i => file.map i) file.size pos len =
        (spillPending dev st).map fun st => (st.writes, min len file.size) := by
  have hMod : firstBlk dev pos % 2 ^ 32 = firstBlk dev pos := Nat.mod_eq_of_lt (by omega)
  obtain ⟨st, hTurns, hReading⟩ := Reading.turns (@Reading.start dev file pos (min len file.size))
    (Nat.le_refl _) (Nat.add_sub_cancel' blkCount_ge) hInt
  refine ⟨st, hReading, ?_⟩
  rw [ext4fsReadFile_blocks, if_neg (Nat.not_le.mpr hSum), hMod, if_neg (Nat.not_le.mpr hFirst),
    hTurns]
  rfl

theorem inRange_of_ok {r : List (Nat × List UInt8) × Nat}
    (h : ext4fsReadFile dev (fun i => file.map i) file.size pos len = .ok r) :
    InRange dev pos (min len file.size) := by
  rw [ext4fsReadFile_blocks] at h
  by_cases hSum : min len file.size + pos + dev.blocksize - 1 ≥ 2 ^ 63
  · rw [if_pos hSum] at h
    cases h
  · rw [if_neg hSum] at h
    by_cases hNegative : firstBlk dev pos % 2 ^ 32 ≥ 2 ^ 31
    · exact ⟨by omega, .inl hNegative, by omega⟩
    · rw [if_neg hNegative] at h
      -- the loop comes to each block from the first on
      have hReached : ∀ j, firstBlk dev pos % 2 ^ 32 ≤ j →
          j < blkCount dev pos (min len file.size) → dev.blocksize * j < 2 ^ 31 := by
        intro j hLow hHigh
        by_contra hLarge
        cases hTurns : readTurns dev (fun i => file.map i) pos (min len file.size)
            (blkCount dev pos (min len file.size))
            (blkCount dev pos (min len file.size) - firstBlk dev pos % 2 ^ 32)
            (firstBlk dev pos % 2 ^ 32) readStart with
        | error e =>
            rw [hTurns] at h
            cases h
        | ok st =>
            grind [readTurns_undefined, Nat.not_lt]
      have hFirst : firstBlk dev pos < 2 ^ 31 := by
        by_contra hLarge
        have hGe := @blkCount_ge dev pos (min len file.size)
        have hBlock := hReached (2 ^ 31) (by omega) (by omega)
        grind [Nat.mul_le_mul_right, dev.blocksize_pos]
      refine ⟨by omega, .inr hFirst, fun _ i hLow hHigh => hReached i ?_ hHigh⟩
      exact Nat.le_trans (Nat.mod_le _ _) hLow

/-- Where the window is read: its end is not cut off wrongly, the numbers are in their ranges, a hole
at its end does not go behind the buffer, and it is not one run of 2 GiB. -/
structure Readable (file : File dev) (pos len : Nat) : Prop where
  limited : min len file.size = min (pos + len) file.size - pos
  inRange : InRange dev pos (min len file.size)
  lastHole : firstBlk dev pos < 2 ^ 31 → firstBlk dev pos < blkCount dev pos (min len file.size) →
    file.map (blkCount dev pos (min len file.size) - 1) = 0 →
    dev.blocksize * blkCount dev pos (min len file.size) ≤ pos + len
  run : ¬ LongRun file pos (min len file.size)

theorem Readable.reads (h : Readable file pos len) : ReadsWindow file pos len := by
  have hSum := h.inRange.sum_lt
  rcases h.inRange.first with hNegative | hFirst
  · refine ⟨[], _, ext4fsReadFile_negative hSum hNegative, h.limited,
      fun w hw => absurd hw List.not_mem_nil, fun m x hx => ?_⟩
    -- the position is behind the end of every file
    exfalso
    have hSize := file.size_lt
    have hLimited := h.limited
    have hStart := @firstBlk_mul dev pos
    have hMul := Nat.mul_le_mul dev.blocksize_ge (show 2 ^ 31 ≤ firstBlk dev pos by omega)
    omega
  · obtain ⟨st, hReading, hEq⟩ := ext4fsReadFile_eq hSum hFirst (h.inRange.block hFirst)
    obtain ⟨last, hLast, hWrites⟩ := hReading.finish (h.inRange.block hFirst) h.run
    refine ⟨last.writes, min len file.size, ?_, h.limited, ?_, fun m x hx => ?_⟩
    · rw [hEq, hLast]
      rfl
    · rw [hWrites]
      exact hReading.within (Nat.min_le_left _ _) (h.lastHole hFirst)
    · rw [hWrites, hReading.same]
      apply segments_bytes blkCount_ge (Nat.le_refl _)
      rw [endOf, if_pos rfl]
      omega

theorem readable_of_reads (h : ReadsWindow file pos len) : Readable file pos len := by
  obtain ⟨writes, actread, hOk, hLimited, hWithin, -⟩ := h
  have hRange := inRange_of_ok hOk
  by_cases hFirst : firstBlk dev pos < 2 ^ 31
  · obtain ⟨st, hReading, hEq⟩ := ext4fsReadFile_eq hRange.sum_lt hFirst (hRange.block hFirst)
    rw [hEq] at hOk
    have hShort : ¬ LongRun file pos (min len file.size) := by
      intro hLong
      cases hSpill : spillPending dev st with
      | error e =>
          rw [hSpill] at hOk
          cases hOk
      | ok st' => exact hReading.finish_long hLong st' hSpill
    obtain ⟨last, hLast, hWrites⟩ := hReading.finish (hRange.block hFirst) hShort
    rw [hLast] at hOk
    injection hOk with hPair
    injection hPair with hList hLen
    rw [← hList, hWrites] at hWithin
    exact ⟨hLen.trans hLimited, hRange, fun _ => hReading.hole_within hWithin, hShort⟩
  · rw [ext4fsReadFile_negative hRange.sum_lt (hRange.first.resolve_right hFirst)] at hOk
    injection hOk with hPair
    injection hPair with hList hLen
    refine ⟨hLen.trans hLimited, hRange, fun h => absurd h hFirst, fun hLong => hFirst ?_⟩
    rw [firstBlk, hLong.pos_eq, Nat.zero_div]
    exact Nat.two_pow_pos _

/-- `ext4fs_read_file` returns the window exactly where it is readable. -/
theorem reads_window_iff (file : File dev) (pos len : Nat) :
    ReadsWindow file pos len ↔ Readable file pos len :=
  ⟨readable_of_reads, Readable.reads⟩

def smallDevice : Device where
  log2blksz := 9
  log2FsBlocksize := 1
  partSize := 64
  mem := zero
  block_min := by decide
  block_max := by decide
  part_lt := by decide

def hundredMap (i : Nat) : Nat := if i = 0 then 5 else 0

theorem hundredMap_ne_zero {i : Nat} (hi : hundredMap i ≠ 0) : i = 0 := by
  by_contra hNe
  exact hi (if_neg hNe)

theorem hundredMap_inside (i : Nat) (hi : hundredMap i ≠ 0) :
    (hundredMap i + 1) * smallDevice.sectPerBlk ≤ smallDevice.partSize := by
  rw [hundredMap_ne_zero hi]
  decide

theorem hundredMap_inj (i j : Nat) (hi : hundredMap i ≠ 0) (hEq : hundredMap i = hundredMap j) :
    i = j := by
  grind [hundredMap_ne_zero]

def hundredBytes : File smallDevice where
  size := 100
  map := hundredMap
  size_lt := by decide
  inside := hundredMap_inside
  inj := hundredMap_inj

/-- From the middle of the file on there are 50 bytes, and 100 are returned. -/
theorem window_behind_end :
    ¬ ReadsWindow hundredBytes 50 100 ∧
      (ext4fsReadFile smallDevice (fun i => hundredBytes.map i) hundredBytes.size 50 100).map Prod.snd =
        .ok 100 := by
  refine ⟨fun h => absurd (readable_of_reads h).limited (by decide), ?_⟩
  decide +kernel

end

end Fire3.Ext4

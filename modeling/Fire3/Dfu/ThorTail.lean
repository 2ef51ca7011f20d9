import Fire3.Dfu.ThorFile

/-!
The end of a THOR download.

An error of a write is negative, so `download_head` hands it on as an error. `download_tail` gives
the entity what is left of the store unit and flushes; both come to steps on its buffer.
-/

namespace Fire3.Dfu
open ByteMemory Align

section
variable {t : Target} (h : Card t)
include h

theorem mmcAccessPart_nonpos (mmc : Mmc) (part : Nat) : (t.mmcAccessPart mmc part).1 ≤ 0 := by
  have hSwitch := h.errors part
  rw [Target.mmcAccessPart]
  split
  · exact le_refl _
  · grind

theorem blockTransfer_nonpos (mmc : Mmc) (start count : Nat) (buf : Mem) :
    (t.blockTransfer mmc start count buf).1 ≤ 0 := by
  rw [Target.blockTransfer]
  split
  · grind
  · dsimp only
    split
    · exact mmcAccessPart_nonpos h ..
    · grind [Int.negSucc_le_zero, mmcAccessPart_nonpos]

theorem drain_nonpos (x : Transfer) : (dfuWriteBufferDrain t x).1 ≤ 0 := by
  rw [dfuWriteBufferDrain]
  split
  · exact le_refl _
  · dsimp only
    rw [Target.mmcBlockOp]
    split
    · exact Int.negSucc_le_zero 18
    · grind [Int.negSucc_le_zero, blockTransfer_nonpos]

theorem drain_if_nonpos (p : Prop) [Decidable p] (x : Transfer) :
    (if p then dfuWriteBufferDrain t x else (0, x)).1 ≤ 0 := by
  split
  · exact drain_nonpos h x
  · exact le_refl _

omit h in
theorem orCleanup_nonpos {s : DfuEntity} {r : Int × Transfer} {next : DfuEntity → Int × DfuEntity}
    (hFirst : r.1 ≤ 0) (hNext : ∀ s, (next s).1 ≤ 0) : (orCleanup s r next).1 ≤ 0 := by
  grind [orCleanup]

theorem dfuWrite_nonpos (s : DfuEntity) (chunk : List UInt8) (blkSeqNum : Nat) :
    (dfuWrite t s chunk blkSeqNum).1 ≤ 0 := by
  rw [dfuWrite]
  split
  · exact Int.negSucc_le_zero 11
  · split
    · exact Int.negSucc_le_zero 0
    · rw [dfuFill]
      refine orCleanup_nonpos (drain_if_nonpos h _ _) fun s => ?_
      split
      · exact Int.negSucc_le_zero 0
      · exact orCleanup_nonpos (drain_if_nonpos h _ _) fun _ => le_refl _

theorem headLoop_error {total fuel rcvCnt off : Nat} {s s' : Thor} {ret : Int}
    (hRun : headLoop t total fuel rcvCnt off s = some (.error (ret, s'))) : ret < 0 := by
  induction fuel generalizing rcvCnt off s with
  | zero => cases hRun
  | succ fuel ih =>
      rw [headLoop] at hRun
      split at hRun
      · cases hRun
      · obtain ⟨s1, -, hTurn⟩ := Option.bind_eq_some_iff.mp hRun
        split at hTurn
        · dsimp only at hTurn
          split at hTurn
          · rename_i hFail
            cases hTurn
            exact lt_of_le_of_ne (dfuWrite_nonpos h ..) hFail
          · exact ih hTurn
        · exact ih hTurn

end

def tailSteps (size held left : Nat) (buf : Mem) : List Step :=
  (if left = 0 then [] else chunkSteps size held (load buf 0 left)) ++ [.drain]

section
variable {t : Target} {size cnt n f left : Nat} {s : DfuEntity}

theorem filled_tailSteps (size held left : Nat) (buf : Mem) :
    filled (tailSteps size held left buf) = left := by
  rw [tailSteps, filled_append, filled, filled, Nat.add_zero]
  split
  · rename_i hNone
    rw [hNone, filled]
  · rw [filled_chunkSteps, length_load]

theorem mem_tailSteps {held : Nat} {buf : Mem} {bytes : List UInt8}
    (h : Step.fill bytes ∈ tailSteps size held left buf) : bytes = load buf 0 left := by
  rw [tailSteps, List.mem_append] at h
  rcases h with h | h
  · grind [mem_chunkSteps]
  · simp at h

theorem dfuFlush_expects (h : Expects t size cnt n f s) :
    (dfuFlush t s).1 = (dfuWriteBufferDrain t ⟨n, f, s.buf, s.mmc⟩).1 ∧
      (dfuFlush t s).2.mmc = (dfuWriteBufferDrain t ⟨n, f, s.buf, s.mmc⟩).2.mmc := by
  have hSame : (dfuWriteBufferDrain t s.toTransfer).1 =
        (dfuWriteBufferDrain t ⟨n, f, s.buf, s.mmc⟩).1 ∧
      (dfuWriteBufferDrain t s.toTransfer).2.mmc =
        (dfuWriteBufferDrain t ⟨n, f, s.buf, s.mmc⟩).2.mmc := by
    have hInit := h.init
    rw [dfuInit] at hInit
    split at hInit
    · have hAll := congrArg DfuEntity.toTransfer (Option.some.inj hInit)
      rw [hAll]
      exact ⟨rfl, rfl⟩
    · obtain ⟨size', -, hEq⟩ := Option.map_eq_some_iff.mp hInit
      have hNone : f = 0 := (congrArg (fun e => e.iBuf) hEq).symm
      rw [drain_idle (h.held.trans hNone), drain_idle hNone]
      exact ⟨rfl, rfl⟩
  rw [dfuFlush]
  dsimp only
  split
  · exact hSame
  · rename_i hOk
    exact ⟨(not_not.mp hOk).symm.trans hSame.1, hSame.2⟩

theorem downloadTail_expects (h : Expects t size cnt n f s) :
    downloadTail t left cnt s =
      let r := if left ≠ 0 then dfuWrite t s (load s.buf 0 left) cnt else (0, s)
      if r.1 ≠ 0 then r else dfuFlush t r.2 := by
  have hBuf := h.dfuBuf
  cases s
  cases hBuf
  rfl

theorem runSteps_last {steps : List Step} {x : Transfer} :
    runSteps t (steps ++ [.drain]) x =
      (runSteps t steps x).bind fun x =>
        if (dfuWriteBufferDrain t x).1 ≠ 0 then none else some (dfuWriteBufferDrain t x).2 := by
  rw [runSteps_append]
  rfl

theorem downloadTail_taken (h : Expects t size cnt n f s) (hCnt : cnt < 65535)
    (hOk : (downloadTail t left cnt s).1 = 0) :
    (left ≠ 0 → left ≤ size) ∧ ∃ x,
      runSteps t (tailSteps size f left s.buf) ⟨n, f, s.buf, s.mmc⟩ = some x ∧
      (downloadTail t left cnt s).2.mmc = x.mmc := by
  rw [downloadTail_expects h] at hOk ⊢
  rw [tailSteps, runSteps_last]
  dsimp only at hOk ⊢
  by_cases hNone : left = 0
  · rw [if_neg (not_not_intro hNone), if_neg (not_not_intro rfl)] at hOk ⊢
    obtain ⟨hRet, hMmc⟩ := dfuFlush_expects h
    rw [if_pos hNone, runSteps, Option.bind_some, if_neg (not_not_intro (hRet.symm.trans hOk))]
    grind
  · rw [if_pos hNone] at hOk ⊢
    have hFirst : (dfuWrite t s (load s.buf 0 left) cnt).1 = 0 := by
      grind
    obtain ⟨hFit, x, hRun, hWrite⟩ := dfuWrite_taken h hCnt hFirst
    rw [length_load] at hFit
    rw [hWrite, if_neg (not_not_intro rfl)] at hOk ⊢
    obtain ⟨hRet, hMmc⟩ := dfuFlush_expects (@expects_done t size (cnt + 1) x)
    rw [if_neg hNone, hRun, Option.bind_some, if_neg (not_not_intro (hRet.symm.trans hOk))]
    exact ⟨fun _ => hFit, _, rfl, hMmc⟩

theorem downloadTail_room (h : Expects t size cnt n f s) (hCnt : cnt < 65535) (hFit : left ≤ size)
    {x : Transfer}
    (hRun : runSteps t (tailSteps size f left s.buf) ⟨n, f, s.buf, s.mmc⟩ = some x) :
    (downloadTail t left cnt s).1 = 0 := by
  rw [tailSteps, runSteps_last] at hRun
  obtain ⟨x1, hFirst, hLast⟩ := Option.bind_eq_some_iff.mp hRun
  have hDrain : (dfuWriteBufferDrain t x1).1 = 0 := by
    grind
  rw [downloadTail_expects h]
  dsimp only
  by_cases hNone : left = 0
  · rw [if_pos hNone] at hFirst
    cases hFirst
    rw [if_neg (not_not_intro hNone), if_neg (not_not_intro rfl), (dfuFlush_expects h).1]
    exact hDrain
  · rw [if_neg hNone] at hFirst
    rw [if_pos hNone, dfuWrite_room h hCnt (by rw [length_load]; exact hFit) hFirst,
      if_neg (not_not_intro rfl), (dfuFlush_expects (@expects_done t size (cnt + 1) x1)).1]
    exact hDrain

theorem runSteps_empty {buf : Mem} {mmc : Mmc} {k : Nat} {x : Transfer} (hSome : 0 < k)
    (hFit : k ≤ size)
    (hRun : runSteps t (chunkSteps size 0 (load buf 0 k)) ⟨n, 0, buf, mmc⟩ = some x) :
    (k + k ≤ size ∧ x = ⟨n, k, buf, mmc⟩) ∨
      (size < k + k ∧ dfuWriteBufferDrain t ⟨n, k, buf, mmc⟩ = (0, x)) := by
  simp only [chunkSteps, length_load, Nat.zero_add, gt_iff_lt, if_neg (Nat.not_lt.mpr hFit),
    List.nil_append, runSteps, Step.run, ne_eq, not_true_eq_false, if_false, store_load,
    hSome.ne', false_or, runSteps_drain_if] at hRun
  by_cases hTwo : size < k + k
  · simp only [if_pos hTwo] at hRun
    by_cases hOk : (dfuWriteBufferDrain t ⟨n, k, buf, mmc⟩).1 = 0
    · rw [if_neg (not_not_intro hOk)] at hRun
      exact .inr ⟨hTwo, Prod.ext hOk (Option.some.inj hRun)⟩
    · rw [if_pos hOk] at hRun
      cases hRun
  · simp only [if_neg hTwo, not_true_eq_false, if_false] at hRun
    exact .inl ⟨Nat.not_lt.mp hTwo, (Option.some.inj hRun).symm⟩

end

end Fire3.Dfu

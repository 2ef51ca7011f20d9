import Fire3.Dfu.Drain

/-!
What a successful drain to an MMC card tells.

A card has blocks of at most 512 bytes and less than `2 ^ 32` of them, and it does not report
blocks as written that it does not have. So whatever else it does, a drain that succeeds has
written its bytes, and they lie within the area.
-/

namespace Fire3.Dfu
open ByteMemory Align

variable {mmc : Mmc} {x : Transfer}

structure Card (t : Target) : Prop where
  blkSize_dvd : t.area.lbaBlkSize ∣ 512
  few : ∀ start count, 0 < count → 2 ^ 32 ≤ start + count → t.answers.written start count < count
  errors : ∀ part, t.answers.switchPart part ≤ 0

structure Whole (t : Target) (x : Transfer) : Prop where
  offset : t.area.lbaBlkSize ∣ x.offset
  held : t.area.lbaBlkSize ∣ x.iBuf
  within : x.offset ≤ t.area.bytes

def filled : List Step → Nat
  | [] => 0
  | .fill chunk :: steps => chunk.length + filled steps
  | .drain :: steps => filled steps

theorem filled_append (xs ys : List Step) : filled (xs ++ ys) = filled xs + filled ys := by
  induction xs with
  | nil => exact (Nat.zero_add _).symm
  | cons step xs ih =>
      cases step with
      | fill chunk => simp only [List.cons_append, filled, ih, Nat.add_assoc]
      | drain => simpa only [List.cons_append, filled] using ih

theorem filled_drain_if (p : Prop) [Decidable p] : filled (if p then [.drain] else []) = 0 := by
  split <;> rfl

theorem filled_chunkSteps (size held : Nat) (chunk : List UInt8) :
    filled (chunkSteps size held chunk) = chunk.length := by
  rw [chunkSteps, filled_append, filled_drain_if, filled, filled_drain_if, Nat.zero_add,
    Nat.add_zero]

theorem mem_chunkSteps {size held : Nat} {chunk bytes : List UInt8}
    (h : Step.fill bytes ∈ chunkSteps size held chunk) : bytes = chunk := by
  have hNot (p : Prop) [Decidable p] : Step.fill bytes ∉ (if p then [Step.drain] else []) := by
    split <;> simp
  rw [chunkSteps, List.mem_append, List.mem_cons] at h
  grind

section
variable {t : Target}

theorem mmcAccessPart_taken {part : Nat} (hOk : (t.mmcAccessPart mmc part).1 = 0) :
    t.mmcAccessPart mmc part = (0, { mmc with partNum := part }) := by
  rw [Target.mmcAccessPart] at hOk ⊢
  split
  · rename_i hSame
    rw [hSame]
  · rename_i hOther
    rw [if_neg hOther] at hOk
    dsimp only at hOk ⊢
    split
    · grind
    · rfl

theorem blockWrite_taken {start count : Nat} {buf : Mem} (hCount : 0 < count)
    (hOk : (t.blockWrite mmc start count buf).1 = count) :
    count ≤ t.answers.written start count ∧
      t.blockWrite mmc start count buf = (count, mmc.write mmc.partNum
        (t.area.lbaBlkSize * start) (load buf 0 (t.area.lbaBlkSize * count))) := by
  rw [Target.blockWrite] at hOk ⊢
  dsimp only at hOk ⊢
  by_cases hAll : min count (t.answers.written start count) = count
  · rw [hAll, if_pos rfl]
    exact ⟨by omega, rfl⟩
  · rw [if_neg hAll] at hOk
    omega

theorem blockTransfer_taken {start count : Nat} {buf : Mem} (hCount : 0 < count)
    (hOk : (t.blockTransfer mmc start count buf).1 = 0) :
    count ≤ t.answers.written start count ∧
      t.blockTransfer mmc start count buf =
        (0, mmc.write (t.part mmc) (t.area.lbaBlkSize * start)
          (load buf 0 (t.area.lbaBlkSize * count))) := by
  rw [Target.blockTransfer] at hOk ⊢
  rw [Target.part]
  cases hPart : t.area.hwPartition with
  | none =>
      simp only [hPart] at hOk ⊢
      by_cases hAll : (t.blockWrite mmc start count buf).1 = count
      · obtain ⟨hTakes, hWrite⟩ := blockWrite_taken hCount hAll
        grind
      · grind
  | some part =>
      simp only [hPart] at hOk ⊢
      by_cases hSwitch : (t.mmcAccessPart mmc part).1 = 0
      · rw [mmcAccessPart_taken hSwitch, if_neg (not_not_intro rfl)] at hOk ⊢
        dsimp only at hOk ⊢
        by_cases hAll : (t.blockWrite { mmc with partNum := part } start count buf).1 = count
        · obtain ⟨hTakes, hWrite⟩ := blockWrite_taken hCount hAll
          rw [hWrite, if_neg (not_not_intro rfl)] at hOk ⊢
          rw [mmcAccessPart_taken hOk]
          exact ⟨hTakes, rfl⟩
        · grind
      · grind

theorem Whole.align_held (hWhole : Whole t x) (hLength : x.iBuf < 2 ^ 32) :
    align x.iBuf t.area.lbaBlkSize = x.iBuf := by
  have hBlk := t.area.blkSize_le
  exact align_of_dvd t.area.two_pow (by omega) hWhole.held

theorem drain_taken (h : Card t) (hWhole : Whole t x) (hSome : 0 < x.iBuf)
    (hLength : x.iBuf < 2 ^ 32) (hOk : (dfuWriteBufferDrain t x).1 = 0) :
    x.offset + x.iBuf ≤ t.area.bytes ∧ dfuWriteBufferDrain t x = (0, afterDrain t x) := by
  have hEnd := t.area.end_lt
  have hPos := t.area.blkSize_pos
  have hAlign := hWhole.align_held hLength
  obtain ⟨o, ho⟩ := hWhole.offset
  obtain ⟨n, hn⟩ := hWhole.held
  have hFirst : o ≤ t.area.lbaSize := by
    have hIn := hWhole.within
    rw [ho] at hIn
    exact Nat.le_of_mul_le_mul_left hIn hPos
  have hCount : n < 2 ^ 32 := (Nat.le_mul_of_pos_left n hPos).trans_lt (hn ▸ hLength)
  have hOne : 0 < n := Nat.pos_of_ne_zero fun hNone => by
    rw [hNone] at hn
    omega
  have hOp : t.mmcBlockOp x.mmc x.offset x.buf x.iBuf =
      if !t.answers.found then (-19, x.iBuf, x.mmc)
      else if (t.area.lbaStart + o + n) % 2 ^ 32 > t.area.lbaStart + t.area.lbaSize then
        (-22, x.iBuf, x.mmc)
      else
        ((t.blockTransfer x.mmc (t.area.lbaStart + o) n x.buf).1, x.iBuf,
          (t.blockTransfer x.mmc (t.area.lbaStart + o) n x.buf).2) := by
    have hBlocks : x.iBuf / t.area.lbaBlkSize = n := by rw [hn, Nat.mul_div_cancel_left _ hPos]
    have hAt : x.offset / t.area.lbaBlkSize = o := by rw [ho, Nat.mul_div_cancel_left _ hPos]
    rw [Target.mmcBlockOp, hAlign]
    grind
  rw [dfuWriteBufferDrain, if_neg (by omega), hOp] at hOk ⊢
  dsimp only at hOk
  by_cases hFound : (!t.answers.found) = true
  · grind
  rw [if_neg hFound] at hOk ⊢
  by_cases hOut : (t.area.lbaStart + o + n) % 2 ^ 32 > t.area.lbaStart + t.area.lbaSize
  · grind
  rw [if_neg hOut] at hOk ⊢
  obtain ⟨hTakes, hTransfer⟩ := blockTransfer_taken hOne hOk
  -- blocks that are taken have 32-bit numbers, so the check has seen their true end
  have hNumbers : t.area.lbaStart + o + n < 2 ^ 32 := Nat.lt_of_not_le fun hBig =>
    Nat.not_lt.mpr hTakes (h.few _ _ hOne hBig)
  rw [Nat.mod_eq_of_lt hNumbers] at hOut
  have hFits : x.offset + x.iBuf ≤ t.area.bytes := by
    rw [ho, hn, ← Nat.mul_add]
    exact Nat.mul_le_mul_left _ (by omega)
  have hWord := t.area.add_le hFits
  refine ⟨hFits, ?_⟩
  rw [hTransfer, afterDrain, hAlign]
  grind [Nat.mod_eq_of_lt, Nat.mul_add, Area.base]

theorem Whole.afterDrain (hWhole : Whole t x) (hLength : x.iBuf < 2 ^ 32)
    (hFits : x.offset + x.iBuf ≤ t.area.bytes) :
    Whole t (afterDrain t x) ∧ (Dfu.afterDrain t x).offset = x.offset + x.iBuf := by
  have hOffset : (Dfu.afterDrain t x).offset = x.offset + x.iBuf :=
    congrArg (x.offset + ·) (hWhole.align_held hLength)
  refine ⟨⟨?_, Nat.dvd_zero _, ?_⟩, hOffset⟩
  · rw [hOffset]
    exact Nat.dvd_add hWhole.offset hWhole.held
  · rw [hOffset]
    exact hFits

theorem step_taken (h : Card t) {step : Step} (hWhole : Whole t x)
    (hFill : ∀ chunk, step = .fill chunk → t.area.lbaBlkSize ∣ chunk.length)
    (hLength : x.iBuf < 2 ^ 32) (hOk : (step.run t x).1 = 0) :
    Whole t (step.run t x).2 ∧
      (step.run t x).2.offset + (step.run t x).2.iBuf = x.offset + x.iBuf + filled [step] ∧
      (step.run t x).2.iBuf ≤ x.iBuf + filled [step] ∧
      (step.run t x).2.mmc.partNum = x.mmc.partNum := by
  cases step with
  | fill chunk =>
      refine ⟨⟨hWhole.offset, Nat.dvd_add hWhole.held (hFill chunk rfl), hWhole.within⟩, ?_,
        le_refl _, rfl⟩
      exact (Nat.add_assoc ..).symm
  | drain =>
      rw [Step.run] at hOk ⊢
      rcases Nat.eq_zero_or_pos x.iBuf with hNone | hSome
      · rw [drain_idle hNone]
        exact ⟨hWhole, rfl, le_refl _, rfl⟩
      · obtain ⟨hFits, hDrain⟩ := drain_taken h hWhole hSome hLength hOk
        obtain ⟨hNext, hOffset⟩ := hWhole.afterDrain hLength hFits
        rw [hDrain]
        exact ⟨hNext, hOffset, Nat.zero_le _, rfl⟩

theorem runSteps_taken (h : Card t) {steps : List Step} {x' : Transfer} (hWhole : Whole t x)
    (hFill : ∀ chunk, Step.fill chunk ∈ steps → t.area.lbaBlkSize ∣ chunk.length)
    (hLength : x.iBuf + filled steps < 2 ^ 32) (hRun : runSteps t steps x = some x') :
    Whole t x' ∧ x'.offset + x'.iBuf = x.offset + x.iBuf + filled steps ∧
      x'.mmc.partNum = x.mmc.partNum := by
  induction steps generalizing x with
  | nil =>
      rw [← Option.some.inj hRun]
      exact ⟨hWhole, rfl, rfl⟩
  | cons step steps ih =>
      have hSum : filled (step :: steps) = filled [step] + filled steps :=
        filled_append [step] steps
      rw [runSteps] at hRun
      dsimp only at hRun
      by_cases hOk : (step.run t x).1 = 0
      · rw [if_neg (not_not_intro hOk)] at hRun
        obtain ⟨hNext, hMoved, hHeld, hPart⟩ := step_taken h hWhole
          (fun chunk hStep => hFill chunk (hStep ▸ List.mem_cons_self)) (by omega) hOk
        grind
      · rw [if_pos hOk] at hRun
        cases hRun

theorem runSteps_room (h : Card t) (hWorks : Works t) {steps : List Step} {x : Transfer}
    (hWhole : Whole t x)
    (hFill : ∀ chunk, Step.fill chunk ∈ steps → t.area.lbaBlkSize ∣ chunk.length)
    (hLength : x.iBuf + filled steps < 2 ^ 32)
    (hFits : x.offset + x.iBuf + filled steps ≤ t.area.bytes) :
    ∃ x', runSteps t steps x = some x' := by
  induction steps generalizing x with
  | nil => exact ⟨x, rfl⟩
  | cons step steps ih =>
      have hSum : filled (step :: steps) = filled [step] + filled steps :=
        filled_append [step] steps
      have hOk : (step.run t x).1 = 0 := by
        cases step with
        | fill chunk => rfl
        | drain =>
            rw [Step.run]
            rcases Nat.eq_zero_or_pos x.iBuf with hNone | hSome
            · rw [drain_idle hNone]
            · have hAlign := hWhole.align_held (by omega)
              rw [drain_ok hWorks hWhole.offset hSome (by omega) (by omega)]
      obtain ⟨hNext, hMoved, hHeld, -⟩ := step_taken h hWhole
        (fun chunk hStep => hFill chunk (hStep ▸ List.mem_cons_self)) (by omega) hOk
      rw [runSteps]
      grind

end

end Fire3.Dfu

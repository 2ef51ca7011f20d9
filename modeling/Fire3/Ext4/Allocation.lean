import Fire3.Ext4.NewBlock
import Mathlib.Algebra.BigOperators.Group.Finset.Piecewise

/-!
What a call of `ext4fs_get_new_blk_no` does to a file system whose counts are right.
-/

namespace Fire3.Ext4
open Bitmap

variable {g k : Nat}

def Fs.total (fs : Fs) : Nat := fs.noBlkgrp * fs.blocksPerGroup

def Fs.used (fs : Fs) (k : Nat) : Bool :=
  bit (fs.groups (k / fs.blocksPerGroup)).bitmap (k % fs.blocksPerGroup)

/-- The counts are the numbers of clear bits, and no bitmap is uninitialized. Block numbers have
32 bits. -/
structure Consistent (fs : Fs) : Prop where
  size : SizeOk fs.blksz
  perGroup : fs.blocksPerGroup = 8 * fs.blksz
  total_le : fs.total ≤ 2 ^ 32
  init : ∀ g < fs.noBlkgrp, (fs.groups g).uninit = false
  group : ∀ g < fs.noBlkgrp,
    (fs.groups g).freeBlocks = (clear (fs.groups g).bitmap fs.blocksPerGroup).card
  super : fs.freeBlocks = ∑ g ∈ Finset.range fs.noBlkgrp, (fs.groups g).freeBlocks

def Fs.takeBlock (fs : Fs) (k : Nat) : Fs :=
  let g := k / fs.blocksPerGroup
  { fs with
    groups := Function.update fs.groups g
      { fs.groups g with
        freeBlocks := (fs.groups g).freeBlocks - 1
        bitmap := setBit (fs.groups g).bitmap (k % fs.blocksPerGroup) }
    freeBlocks := fs.freeBlocks - 1 }

section
variable {fs : Fs} (hFs : Consistent fs)
include hFs

theorem Consistent.blksz_pos : 0 < fs.blocksPerGroup := by
  rw [hFs.perGroup]
  rcases hFs.size with h | h | h <;> omega

theorem Consistent.group_lt_iff : k / fs.blocksPerGroup < fs.noBlkgrp ↔ k < fs.total :=
  Nat.div_lt_iff_lt_mul hFs.blksz_pos

theorem Consistent.group_full (hg : g < fs.noBlkgrp) (hFull : (fs.groups g).freeBlocks = 0)
    {q : Nat} (hq : q < fs.blocksPerGroup) : bit (fs.groups g).bitmap q = true := by
  rw [hFs.group g hg, card_clear_eq_zero_iff] at hFull
  exact hFull q hq

theorem used_takeBlock {j : Nat} : (fs.takeBlock k).used j = if j = k then true else fs.used j := by
  have hPos := hFs.blksz_pos
  rw [Fs.used, Fs.takeBlock]
  dsimp only
  by_cases hGroup : j / fs.blocksPerGroup = k / fs.blocksPerGroup
  · rw [hGroup, Function.update_self]
    dsimp only
    by_cases hEq : j = k
    · rw [if_pos hEq, hEq, bit_setBit_self]
    · have hBit : j % fs.blocksPerGroup ≠ k % fs.blocksPerGroup := by
        intro hMod
        apply hEq
        rw [← Nat.div_add_mod j fs.blocksPerGroup, hGroup, hMod, Nat.div_add_mod]
      rw [if_neg hEq, bit_setBit_of_ne hBit, Fs.used, hGroup]
  · rw [Function.update_of_ne hGroup, if_neg (fun hEq : j = k => hGroup (by rw [hEq])), Fs.used]

theorem Consistent.takeBlock (hk : k < fs.total) (hFree : fs.used k = false) :
    Consistent (fs.takeBlock k) := by
  have hPos := hFs.blksz_pos
  have hGroup := hFs.group_lt_iff.mpr hk
  have hBit : k % fs.blocksPerGroup < fs.blocksPerGroup := Nat.mod_lt _ hPos
  have hSome : 0 < (fs.groups (k / fs.blocksPerGroup)).freeBlocks := by
    rw [hFs.group _ hGroup, Finset.card_pos]
    exact ⟨_, mem_clear.mpr ⟨hBit, hFree⟩⟩
  refine ⟨hFs.size, hFs.perGroup, hFs.total_le, fun g hg => ?_, fun g hg => ?_, ?_⟩
  · rw [Fs.takeBlock]
    dsimp only
    by_cases hEq : g = k / fs.blocksPerGroup
    · rw [hEq, Function.update_self]
      exact hFs.init _ hGroup
    · rw [Function.update_of_ne hEq]
      exact hFs.init g hg
  · rw [Fs.takeBlock]
    dsimp only
    by_cases hEq : g = k / fs.blocksPerGroup
    · rw [hEq, Function.update_self]
      dsimp only
      rw [card_clear_setBit hBit hFree, hFs.group _ hGroup]
    · rw [Function.update_of_ne hEq]
      exact hFs.group g hg
  · rw [Fs.takeBlock]
    dsimp only
    have hSum := Finset.sum_update_of_mem (Finset.mem_range.mpr hGroup)
      (fun g => (fs.groups g).freeBlocks) ((fs.groups (k / fs.blocksPerGroup)).freeBlocks - 1)
    have hAll := Finset.sum_eq_add_sum_sdiff_singleton_of_mem (Finset.mem_range.mpr hGroup)
      (fun g => (fs.groups g).freeBlocks)
    have hCounts : ∀ g, (Function.update fs.groups (k / fs.blocksPerGroup)
        { fs.groups (k / fs.blocksPerGroup) with
          freeBlocks := (fs.groups (k / fs.blocksPerGroup)).freeBlocks - 1
          bitmap := setBit (fs.groups (k / fs.blocksPerGroup)).bitmap
            (k % fs.blocksPerGroup) } g).freeBlocks =
        Function.update (fun g => (fs.groups g).freeBlocks) (k / fs.blocksPerGroup)
          ((fs.groups (k / fs.blocksPerGroup)).freeBlocks - 1) g := by
      grind
    rw [Finset.sum_congr rfl fun g _ => hCounts g, hSum, hFs.super, hAll]
    omega

end

/-- If the group of a block is full, the next group that is not has no free block before the same
place. -/
def NoGap (fs : Fs) (k : Nat) : Prop :=
  let n := fs.blocksPerGroup
  (fs.groups (k / n)).freeBlocks = 0 → ∀ g < fs.noBlkgrp, k / n < g →
    (∀ h, k / n < h → h < g → (fs.groups h).freeBlocks = 0) →
    ∀ q < k % n, bit (fs.groups g).bitmap q = true

section
variable {fs : Fs} (hFs : Consistent fs)
include hFs

theorem noGap_skip (hFull : (fs.groups (k / fs.blocksPerGroup)).freeBlocks = 0) (hGap : NoGap fs k)
    :
    NoGap fs (k + fs.blocksPerGroup) ∧
      ∀ j, k ≤ j → j < k + fs.blocksPerGroup → j < fs.total → fs.used j = true := by
  have hPos := hFs.blksz_pos
  have hDiv : (k + fs.blocksPerGroup) / fs.blocksPerGroup = k / fs.blocksPerGroup + 1 :=
    Nat.add_div_right k hPos
  have hMod : (k + fs.blocksPerGroup) % fs.blocksPerGroup = k % fs.blocksPerGroup :=
    Nat.add_mod_right ..
  refine ⟨?_, fun j hkj hj hTotal => ?_⟩
  · rw [NoGap, hDiv, hMod]
    intro hNext g hg hLess hBetween
    refine hGap hFull g hg (by omega) fun h hLow hHigh => ?_
    grind
  · have hjGroup := hFs.group_lt_iff.mpr hTotal
    have hBit : j % fs.blocksPerGroup < fs.blocksPerGroup := Nat.mod_lt _ hPos
    have hLow := Nat.div_le_div_right (c := fs.blocksPerGroup) hkj
    have hHigh := Nat.div_le_div_right (c := fs.blocksPerGroup) hj.le
    rw [hDiv] at hHigh
    rw [Fs.used]
    by_cases hSame : j / fs.blocksPerGroup = k / fs.blocksPerGroup
    · rw [hSame] at hjGroup ⊢
      exact hFs.group_full hjGroup hFull hBit
    · have hNext : j / fs.blocksPerGroup = k / fs.blocksPerGroup + 1 := by omega
      refine hGap hFull _ hjGroup (by omega) (fun h hl hh => absurd hh (by omega)) _ ?_
      have hj' := Nat.div_add_mod j fs.blocksPerGroup
      have hk' := Nat.div_add_mod k fs.blocksPerGroup
      rw [hNext, Nat.mul_succ] at hj'
      omega

theorem noGap_next (hSome : (fs.groups (k / fs.blocksPerGroup)).freeBlocks ≠ 0) :
    NoGap fs (k + 1) := by
  have hPos := hFs.blksz_pos
  rw [NoGap]
  intro hFull g hg hLess hBetween q hq
  exfalso
  by_cases hSame : (k + 1) / fs.blocksPerGroup = k / fs.blocksPerGroup
  · exact hSome (hSame ▸ hFull)
  · have hFirst : (k + 1) % fs.blocksPerGroup = 0 := by
      grind [Nat.succ_div, Nat.mod_eq_zero_of_dvd]
    omega

/-- The result of a search from block `k` on: the first free block, or none if there is none,
unless the search has passed a gap. -/
def Searched (fs : Fs) (k : Nat) (r : Option (Int × Fs)) : Prop :=
  (∃ k', k ≤ k' ∧ k' < fs.total ∧ fs.used k' = false ∧
    r = some (((k' + firstBlock fs.blksz : Nat) : Int),
      { fs.takeBlock k' with
        currBlkno := k' + firstBlock fs.blksz
        prevBgBitmapIndex := some (k' / fs.blocksPerGroup) }) ∧
    (NoGap fs k → ∀ j, k ≤ j → j < k' → fs.used j = true)) ∨
  (∃ c, fs.total + firstBlock fs.blksz ≤ c ∧ r = some (-1, { fs with currBlkno := c }) ∧
    (NoGap fs k → ∀ j, k ≤ j → j < fs.total → fs.used j = true))

omit hFs in
theorem Searched.mono {k₂ : Nat} {r : Option (Int × Fs)} (h : Searched fs k₂ r) (hLe : k ≤ k₂)
    (hGap : NoGap fs k → NoGap fs k₂ ∧ ∀ j, k ≤ j → j < k₂ → j < fs.total → fs.used j = true) :
    Searched fs k r := by
  rcases h with ⟨k', hk', hTotal, hFree, hr, hBefore⟩ | ⟨c, hc, hr, hBefore⟩
  · refine .inl ⟨k', hLe.trans hk', hTotal, hFree, hr, fun hNone j hkj hj => ?_⟩
    grind
  · refine .inr ⟨c, hc, hr, fun hNone j hkj hj => ?_⟩
    grind

theorem Consistent.initGroup (hg : g < fs.noBlkgrp) (c : Nat) :
    Fs.initGroup { fs with currBlkno := c } g = { fs with currBlkno := c } :=
  if_neg (by rw [hFs.init g hg]; exact Bool.false_ne_true)

theorem restart_spec {io : Io} (hIo : ∀ g, io.journal g = true) {fuel c : Nat}
    (hc : c + 1 = k + firstBlock fs.blksz) (hFuel : fs.total - k < fuel) (hk : k < 2 ^ 33) :
    Searched fs k (restart io fuel { fs with currBlkno := c }) := by
  have hPos := hFs.blksz_pos
  induction fuel generalizing k c with
  | zero => omega
  | succ fuel ih =>
      have hIdx : Fs.bgIdx { fs with currBlkno := c + 1 } (c + 1) = k / fs.blocksPerGroup := by
        rw [hc]
        exact @bgIdx_eq { fs with currBlkno := k + firstBlock fs.blksz } hFs.perGroup hFs.size k hk
      rw [restart]
      dsimp only
      rw [hIdx]
      by_cases hEnd : fs.noBlkgrp ≤ k / fs.blocksPerGroup
      · have hTotal : fs.total ≤ k := Nat.le_of_not_lt fun hLess =>
          Nat.not_le.mpr (hFs.group_lt_iff.mpr hLess) hEnd
        rw [if_pos hEnd]
        refine .inr ⟨c + 1, by omega, rfl, fun _ j hkj hj => absurd hj (by omega)⟩
      · have hGroup := Nat.lt_of_not_le hEnd
        have hLess : k < fs.total := hFs.group_lt_iff.mp hGroup
        have hMax := hFs.total_le
        have hSmall : fs.blocksPerGroup ≤ 2 ^ 15 := by
          rw [hFs.perGroup]
          rcases hFs.size with h | h | h <;> omega
        rw [if_neg hEnd]
        by_cases hFull : (fs.groups (k / fs.blocksPerGroup)).freeBlocks = 0
        · -- the group is skipped
          rw [if_pos hFull, show c + 1 + fs.blocksPerGroup - 1 = c + fs.blocksPerGroup by omega]
          have hNext := ih (k := k + fs.blocksPerGroup) (c := c + fs.blocksPerGroup) (by omega)
            (by omega) (by omega)
          exact hNext.mono (by omega) fun hGap => noGap_skip hFs hFull hGap
        · rw [if_neg hFull, hFs.initGroup hGroup]
          dsimp only
          have hBlock : c + 1 = k / fs.blocksPerGroup * (8 * fs.blksz) + k % fs.blocksPerGroup +
              firstBlock fs.blksz := by
            rw [← hFs.perGroup, Nat.div_add_mod', hc]
          rw [hBlock, ext4fsSetBlockBmap_eq, ← hBlock]
          by_cases hUsed : bit (fs.groups (k / fs.blocksPerGroup)).bitmap (k % fs.blocksPerGroup) = true
          · rw [if_pos hUsed]
            have hNext := ih (k := k + 1) (c := c + 1) (by omega) (by omega) (by omega)
            refine hNext.mono (by omega) fun _ => ⟨noGap_next hFs hFull, fun j hkj hj _ => ?_⟩
            obtain rfl : j = k := by omega
            exact hUsed
          · rw [if_neg hUsed]
            refine .inl ⟨k, le_refl _, hLess, Bool.eq_false_iff.mpr hUsed, ?_,
              fun _ j hkj hj => absurd hj (by omega)⟩
            simp only [Fs.setBitmap, Fs.decrement, Fs.takeBlock, Function.update_self,
              Function.update_idem, hc, hIo, if_true]
            split
            · rfl
            · rename_i hPrev
              rw [not_not] at hPrev
              rw [hPrev]

end

section
variable {fs : Fs} (hFs : Consistent fs)
include hFs

theorem Consistent.exists_clear (hg : g < fs.noBlkgrp) (hSome : (fs.groups g).freeBlocks ≠ 0) :
    ∃ q < fs.blocksPerGroup, bit (fs.groups g).bitmap q = false ∧
      ∀ j < q, bit (fs.groups g).bitmap j = true := by
  have hClear : ∃ q, q < fs.blocksPerGroup ∧ bit (fs.groups g).bitmap q = false := by
    rw [hFs.group g hg, Finset.card_ne_zero] at hSome
    exact hSome.imp fun q hq => mem_clear.mp hq
  refine ⟨Nat.find hClear, (Nat.find_spec hClear).1, (Nat.find_spec hClear).2, fun j hj => ?_⟩
  have hNot := Nat.find_min hClear hj
  grind

def Fs.firstBlockTaken (fs : Fs) (k : Nat) : Fs :=
  { fs.takeBlock k with
    currBlkno := k + firstBlock fs.blksz
    firstPassBbmap := fs.firstPassBbmap + 1 }

theorem firstPass_spec {io : Io} (hIo : ∀ g, io.journal g = true) {i n : Nat}
    (hEnd : i + n ≤ fs.noBlkgrp) (hBefore : ∀ g < i, (fs.groups g).freeBlocks = 0) :
    (∃ k < fs.total, fs.used k = false ∧ (∀ j < k, fs.used j = true) ∧
      firstPass io fs (List.range' i n) =
        some (((k + firstBlock fs.blksz : Nat) : Int), fs.firstBlockTaken k)) ∨
      ((∀ g < i + n, (fs.groups g).freeBlocks = 0) ∧
        firstPass io fs (List.range' i n) = some (-1, fs)) := by
  have hPos := hFs.blksz_pos
  induction n generalizing i with
  | zero => exact .inr ⟨hBefore, rfl⟩
  | succ n ih =>
      rw [List.range'_succ, firstPass]
      by_cases hFull : (fs.groups i).freeBlocks = 0
      · rw [if_neg (fun hNot => hNot hFull)]
        have hNext := ih (i := i + 1) (by omega) fun g hg => by
          grind
        grind
      · obtain ⟨q, hq, hClear, hSet⟩ := hFs.exists_clear (by omega) hFull
        have hDiv : (i * fs.blocksPerGroup + q) / fs.blocksPerGroup = i := by
          rw [Nat.add_comm, Nat.add_mul_div_right _ _ hPos, Nat.div_eq_of_lt hq, Nat.zero_add]
        have hMod : (i * fs.blocksPerGroup + q) % fs.blocksPerGroup = q := by
          rw [Nat.add_comm, Nat.add_mul_mod_self_right, Nat.mod_eq_of_lt hq]
        have hTotal : i * fs.blocksPerGroup + q < fs.total := by
          rw [← hFs.group_lt_iff, hDiv]
          omega
        have hInit : fs.initGroup i = fs := hFs.initGroup (by omega) fs.currBlkno
        have hBlock : q + firstBlock fs.blksz + i * fs.blksz * 8 % 2 ^ 32 =
            i * fs.blocksPerGroup + q + firstBlock fs.blksz := by
          have hMax := hFs.total_le
          rw [hFs.perGroup] at hTotal ⊢
          grind
        refine .inl ⟨i * fs.blocksPerGroup + q, hTotal, ?_, fun j hj => ?_, ?_⟩
        · rw [Fs.used, hDiv, hMod]
          exact hClear
        · rw [Fs.used]
          have hGroup : j / fs.blocksPerGroup ≤ i := by
            rw [← hDiv]
            exact Nat.div_le_div_right hj.le
          by_cases hEq : j / fs.blocksPerGroup = i
          · rw [hEq]
            refine hSet _ ?_
            have hSplit := Nat.div_add_mod' j fs.blocksPerGroup
            rw [hEq] at hSplit
            omega
          · refine hFs.group_full (by omega) (hBefore _ (by omega)) (Nat.mod_lt _ hPos)
        · rw [if_pos hFull, hInit]
          dsimp only
          rw [getNewBlkNo_spec (hFs.perGroup ▸ hq) hClear hSet]
          simp only [Fs.setBitmap, Fs.decrement, Fs.firstBlockTaken, Fs.takeBlock, hDiv, hMod,
            Function.update_self, Function.update_idem, hBlock, hIo, if_true]

end

end Fire3.Ext4

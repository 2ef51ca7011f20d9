import Fire3.Base.Transition
import Fire3.Ext4.Allocation

/-!
Sequences of calls of `ext4fs_get_new_blk_no`.

A group that is full is skipped by the size of a group, from wherever the search stands in it, so
that the blocks before the same place of the next group are passed over. Where no such gap has
free blocks, the calls hand out the free blocks in order until there are none.
-/

namespace Fire3.Ext4
open Bitmap Transition

structure Allocating where
  fs : Fs
  returned : List Int

def allocate (s : Allocating) (io : Io) : Option Allocating :=
  (ext4fsGetNewBlkNo io s.fs).map fun r => ⟨r.2, s.returned ++ [r.1]⟩

/-- The condition of a call: nothing fails, the first search ends in a group it can count to, and
a later one has no gap ahead. -/
structure Careful (s : Allocating) (io : Io) : Prop where
  alloc : io.alloc = true
  journal : ∀ g, io.journal g = true
  counted : s.fs.firstPassBbmap = 0 → ∀ g < s.fs.noBlkgrp, (s.fs.groups g).freeBlocks ≠ 0 →
    ∃ h < min s.fs.noBlkgrp 32768, (s.fs.groups h).freeBlocks ≠ 0
  noGap : s.fs.firstPassBbmap ≠ 0 → NoGap s.fs (s.fs.currBlkno + 1 - firstBlock s.fs.blksz)
  curr : s.fs.currBlkno + 1 < 2 ^ 33

/-- What a call has to do: take one free block of the file system that was not returned before,
and leave all other bits alone, or find that no block is free. -/
structure Allocated (s t : Allocating) : Prop where
  counts : Consistent t.fs
  block : (∃ k < s.fs.total, s.fs.used k = false ∧
      (∀ j, t.fs.used j = if j = k then true else s.fs.used j) ∧
      ((k + firstBlock s.fs.blksz : Nat) : Int) ∉ s.returned ∧
      t.returned = s.returned ++ [((k + firstBlock s.fs.blksz : Nat) : Int)]) ∨
    ((∀ k < s.fs.total, s.fs.used k = true) ∧ (∀ j, t.fs.used j = s.fs.used j) ∧
      t.returned = s.returned ++ [-1])

/-- The blocks up to the one handed out last are used, and so are all blocks returned. -/
structure Ordered (s : Allocating) : Prop where
  counts : Consistent s.fs
  passed : s.fs.firstPassBbmap ≠ 0 → ∀ k < s.fs.total,
    k + firstBlock s.fs.blksz ≤ s.fs.currBlkno → s.fs.used k = true
  returned : ∀ k : Nat, ((k + firstBlock s.fs.blksz : Nat) : Int) ∈ s.returned → s.fs.used k = true

theorem Consistent.move {fs : Fs} (hFs : Consistent fs) (c p : Nat) (b : Option Nat) :
    Consistent { fs with currBlkno := c, firstPassBbmap := p, prevBgBitmapIndex := b } :=
  ⟨hFs.size, hFs.perGroup, hFs.total_le, hFs.init, hFs.group, hFs.super⟩

theorem Consistent.all_used {fs : Fs} (hFs : Consistent fs)
    (hFull : ∀ g < fs.noBlkgrp, (fs.groups g).freeBlocks = 0) {k : Nat} (hk : k < fs.total) :
    fs.used k = true := by
  have hGroup := hFs.group_lt_iff.mpr hk
  exact hFs.group_full hGroup (hFull _ hGroup) (Nat.mod_lt _ hFs.blksz_pos)

theorem ext4fsGetNewBlkNo_spec {s : Allocating} {io : Io} (hs : Ordered s) (hOk : Careful s io) :
    (∃ k < s.fs.total, s.fs.used k = false ∧ (∀ j < k, s.fs.used j = true) ∧
      ∃ p b, ext4fsGetNewBlkNo io s.fs = some (((k + firstBlock s.fs.blksz : Nat) : Int),
        { s.fs.takeBlock k with
          currBlkno := k + firstBlock s.fs.blksz
          firstPassBbmap := p
          prevBgBitmapIndex := b })) ∨
      ((∀ k < s.fs.total, s.fs.used k = true) ∧
        ∃ c, ext4fsGetNewBlkNo io s.fs = some (-1, { s.fs with currBlkno := c })) := by
  have hFs := hs.counts
  rw [ext4fsGetNewBlkNo, if_neg (by rw [hOk.alloc]; exact Bool.noConfusion)]
  by_cases hFirst : s.fs.firstPassBbmap = 0
  · rw [if_pos hFirst, List.range_eq_range']
    have hPass := firstPass_spec hFs hOk.journal (i := 0) (n := min s.fs.noBlkgrp 32768)
      (by omega) (fun g hg => absurd hg (Nat.not_lt_zero g))
    rw [Nat.zero_add] at hPass
    rcases hPass with ⟨k, hk, hFree, hBefore, hCall⟩ | ⟨hFull, hCall⟩
    · exact .inl ⟨k, hk, hFree, hBefore, _, _, hCall⟩
    · refine .inr ⟨fun k hk => hFs.all_used (fun g hg => ?_) hk, s.fs.currBlkno, hCall⟩
      by_contra hSome
      obtain ⟨h, hh, hSome⟩ := hOk.counted hFirst g hg hSome
      exact hSome (hFull h hh)
  · rw [if_neg hFirst]
    have hBlock : s.fs.currBlkno + 1 =
        s.fs.currBlkno + 1 - firstBlock s.fs.blksz + firstBlock s.fs.blksz := by
      have hOne := firstBlock_le_one s.fs.blksz
      omega
    have hCurr := hOk.curr
    have hSearch := restart_spec hFs hOk.journal hBlock
      (by omega : s.fs.total - (s.fs.currBlkno + 1 - firstBlock s.fs.blksz) < s.fs.total + 2)
      (by omega)
    have hGap := hOk.noGap hFirst
    have hPassed : ∀ j < s.fs.total, j < s.fs.currBlkno + 1 - firstBlock s.fs.blksz →
        s.fs.used j = true := fun j hj hLess => hs.passed hFirst j hj (by omega)
    rcases hSearch with ⟨k, hFrom, hk, hFree, hCall, hBetween⟩ | ⟨c, -, hCall, hBetween⟩
    · refine .inl ⟨k, hk, hFree, fun j hj => ?_, _, _, hCall⟩
      grind
    · refine .inr ⟨fun j hj => ?_, c, hCall⟩
      grind

theorem allocate_step {s : Allocating} {io : Io} (hs : Ordered s) (hOk : Careful s io) :
    ∃ t, allocate s io = some t ∧ Allocated s t ∧ Ordered t := by
  have hFs := hs.counts
  rw [allocate]
  rcases ext4fsGetNewBlkNo_spec hs hOk with ⟨k, hk, hFree, hBefore, p, b, hCall⟩ | ⟨hFull, c, hCall⟩
  · have hUsed : ∀ j, (s.fs.takeBlock k).used j = if j = k then true else s.fs.used j :=
      fun j => used_takeBlock hFs
    have hCounts := (hFs.takeBlock hk hFree).move (k + firstBlock s.fs.blksz) p b
    have hNew : ((k + firstBlock s.fs.blksz : Nat) : Int) ∉ s.returned := by
      intro hOld
      rw [hs.returned k hOld] at hFree
      exact Bool.noConfusion hFree
    rw [hCall]
    refine ⟨_, rfl, ⟨hCounts, .inl ⟨k, hk, hFree, hUsed, hNew, rfl⟩⟩, hCounts, ?_, ?_⟩
    · intro _ j hj hLe
      refine (hUsed j).trans ?_
      by_cases hEq : j = k
      · rw [if_pos hEq]
      · rw [if_neg hEq]
        exact hBefore j (Nat.lt_of_le_of_ne (Nat.le_of_add_le_add_right hLe) hEq)
    · intro j hj
      refine (hUsed j).trans ?_
      by_cases hEq : j = k
      · rw [if_pos hEq]
      · rw [if_neg hEq]
        refine hs.returned j ?_
        rcases List.mem_append.mp hj with hOld | hLast
        · exact hOld
        · rw [List.mem_singleton, Nat.cast_inj] at hLast
          exact absurd (Nat.add_right_cancel hLast) hEq
  · have hCounts := hFs.move c s.fs.firstPassBbmap s.fs.prevBgBitmapIndex
    rw [hCall]
    refine ⟨_, rfl, ⟨hCounts, .inr ⟨hFull, fun j => rfl, rfl⟩⟩, hCounts, fun _ j hj _ => hFull j hj,
      fun j hj => hs.returned j ?_⟩
    grind

/-- In every sequence of careful calls on a file system whose counts are right, each call takes one
free block of the file system that no call returned before and leaves the other bits alone, with
counts that stay right, or returns -1 with no block free. -/
theorem block_allocation_of_careful {fs : Fs} (hFs : Consistent fs) (hFirst : fs.firstPassBbmap = 0)
    {ios : List Io} (hRun : MeetsRun allocate Careful ⟨fs, []⟩ ios) :
    ∃ s, run allocate ⟨fs, []⟩ ios = some s ∧
      ∀ io, Careful s io → ∃ t, allocate s io = some t ∧ Allocated s t := by
  have hStart : Ordered ⟨fs, []⟩ :=
    ⟨hFs, fun hNot => absurd hFirst hNot, fun k hk => absurd hk (List.not_mem_nil)⟩
  obtain ⟨s, hEnd, hs⟩ := run_of_meetsRun
    (fun s io hs hOk => (allocate_step hs hOk).imp fun t ht => ⟨ht.1, ht.2.2⟩) hRun hStart
  exact ⟨s, hEnd, fun io hOk => (allocate_step hs hOk).imp fun t ht => ⟨ht.1, ht.2.1⟩⟩

def gapFs : Fs :=
  { blksz := 1024
    blocksPerGroup := 8192
    noBlkgrp := 2
    groups := fun g =>
      if g = 0 then ⟨1, false, fun i => if i = 1023 then 0xBF else 0xFF⟩
      else ⟨1, false, fun i => if i = 0 then 0xDF else 0xFF⟩
    freeBlocks := 2
    currBlkno := 0
    firstPassBbmap := 0
    prevBgBitmapIndex := none }

theorem gapFs_consistent : Consistent gapFs := by
  refine ⟨.inl rfl, rfl, by decide, by decide, fun g hg => ?_, by decide⟩
  change g < 2 at hg
  symm
  rcases Nat.le_one_iff_eq_zero_or_eq_one.mp (Nat.le_of_lt_succ hg) with rfl | rfl
  · refine card_clear_eq_one (k := 8190) (by decide) (by decide) fun i => ?_
    by_cases hByte : i = 1023
    · subst hByte
      decide
    · simp [setBit, gapFs, hByte]
  · refine card_clear_eq_one (k := 5) (by decide) (by decide) fun i => ?_
    by_cases hByte : i = 0
    · subst hByte
      decide
    · simp [setBit, gapFs, hByte]

def ioOk : Io := ⟨true, fun _ => true⟩

/-- The first call returns block 8191. The second one passes from block 8192 to block 16384 and
returns -1, though block 8198 is free. -/
theorem free_block_passed_over : Consistent gapFs ∧ gapFs.firstPassBbmap = 0 ∧
    ((run allocate ⟨gapFs, []⟩ [ioOk]).map fun s => (s.returned, s.fs.used 8197)) =
      some ([8191], false) ∧
    ((run allocate ⟨gapFs, []⟩ [ioOk, ioOk]).map fun s => (s.returned, s.fs.used 8197)) =
      some ([8191, -1], false) :=
  ⟨gapFs_consistent, rfl, by decide +kernel, by decide +kernel⟩

def lastFs : Fs := { gapFs with noBlkgrp := 1, freeBlocks := 1 }

/-- The first call takes block 8191, and the second one returns -1. -/
theorem block_allocation_last : Consistent lastFs ∧
    MeetsRun allocate Careful ⟨lastFs, []⟩ [ioOk] ∧
    ∃ s, run allocate ⟨lastFs, []⟩ [ioOk] = some s ∧
      Careful s ioOk ∧ ∃ t, allocate s ioOk = some t ∧ Allocated s t := by
  have hFs : Consistent lastFs := by
    refine ⟨.inl rfl, rfl, by decide, by decide, fun g hg => ?_, by decide⟩
    exact gapFs_consistent.group g (Nat.lt_succ_of_lt hg)
  have hMeets : MeetsRun allocate Careful ⟨lastFs, []⟩ [ioOk] := by
    refine ⟨⟨rfl, fun _ => rfl, fun _ g hg hSome => ?_, fun hNot => absurd rfl hNot, ?_⟩,
      fun _ _ => trivial⟩
    · exact ⟨g, lt_min hg (hg.trans (by decide : 1 < 32768)), hSome⟩
    · exact (by decide : 0 + 1 < 2 ^ 33)
  obtain ⟨s, hRun, hNext⟩ := block_allocation_of_careful hFs rfl hMeets
  have hState : ((run allocate ⟨lastFs, []⟩ [ioOk]).map fun s =>
      (s.fs.firstPassBbmap, s.fs.currBlkno, s.fs.noBlkgrp)) = some (1, 8191, 1) := by
    decide +kernel
  rw [hRun, Option.map_some, Option.some_inj] at hState
  injection hState with hPass hState
  injection hState with hCurr hGroups
  have hOk : Careful s ioOk := by
    refine ⟨rfl, fun _ => rfl, fun hNot => ?_, fun _ _ g hg hLess => ?_, ?_⟩
    · omega
    · grind
    · rw [hCurr]
      decide
  exact ⟨hFs, hMeets, s, hRun, hOk, hNext ioOk hOk⟩

end Fire3.Ext4

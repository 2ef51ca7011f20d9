import Fire3.Base.Bitmap
import Mathlib.Tactic.Ring

/-!
Block allocation of `fs/ext4/ext4_common.c`.

The first block is searched from the first group on. Each later call goes on behind the block that
was handed out last; a group without free blocks is skipped by adding the size of a group to the
block number.
-/

namespace Fire3.Ext4
open Bitmap

structure Group where
  freeBlocks : Nat
  uninit : Bool
  bitmap : Nat → UInt8

structure Fs where
  blksz : Nat
  blocksPerGroup : Nat
  noBlkgrp : Nat
  groups : Nat → Group
  freeBlocks : Nat
  currBlkno : Nat
  firstPassBbmap : Nat
  prevBgBitmapIndex : Option Nat

structure Io where
  alloc : Bool
  journal : Nat → Bool

inductive Scan
  | full
  | off
  | byte (ptr count : Nat)

def skipFull (blksz : Nat) (buffer : Nat → UInt8) : Nat → Nat → Nat → Scan
  | 0, _, _ => .off
  | fuel + 1, ptr, count =>
      if buffer ptr = 255 then
        if count + 8 = blksz * 8 then .full else skipFull blksz buffer fuel (ptr + 1) (count + 8)
      else .byte ptr count

def scanBytes (buffer : Nat → UInt8) : Nat → Nat → Nat → Option (Nat × (Nat → UInt8))
  | 0, _, _ => none
  | j + 1, ptr, count =>
      match (List.range 8).find? fun i => buffer ptr &&& mask i = 0 with
      | some i => some (count + i, Function.update buffer ptr (buffer ptr ||| mask i))
      | none => scanBytes buffer j (ptr + 1) (count + 8)

/-- `_get_new_blk_no`; the outer `none` is a run off the end of the bitmap. -/
def getNewBlkNo (blksz : Nat) (buffer : Nat → UInt8) : Option (Option (Nat × (Nat → UInt8))) :=
  let count := if blksz ≠ 1024 then 0 else 1
  match skipFull blksz buffer blksz 0 count with
  | .off => none
  | .full => some none
  | .byte ptr count => some (scanBytes buffer blksz ptr count)

/-- `ext4fs_set_block_bmap`; `none` is the result -1, for a bit that is set. -/
def ext4fsSetBlockBmap (blocksize blockno : Nat) (buffer : Nat → UInt8) (index : Nat) :
    Option (Nat → UInt8) :=
  let i := blockno / 8 - index * blocksize
  let remainder := blockno % 8
  let ptr := if blocksize = 1024 ∧ remainder = 0 then i - 1 else i
  let operand :=
    if blocksize ≠ 1024 then mask remainder
    else if remainder = 0 then mask 7 else mask (remainder - 1)
  if buffer ptr &&& operand ≠ 0 then none
  else some (Function.update buffer ptr (buffer ptr ||| operand))

def Fs.initGroup (fs : Fs) (i : Nat) : Fs :=
  if (fs.groups i).uninit then
    { fs with
      groups := Function.update fs.groups i
        { fs.groups i with uninit := false, bitmap := fun _ => 0 } }
  else fs

def Fs.setBitmap (fs : Fs) (i : Nat) (bitmap : Nat → UInt8) : Fs :=
  { fs with groups := Function.update fs.groups i { fs.groups i with bitmap } }

def Fs.decrement (fs : Fs) (i : Nat) : Fs :=
  { fs with
    groups := Function.update fs.groups i
      { fs.groups i with freeBlocks := (fs.groups i).freeBlocks - 1 }
    freeBlocks := fs.freeBlocks - 1 }

/-- The search for the first block. A bitmap that turns out to be full leaves -1 in `curr_blkno`,
which no one reads. -/
def firstPass (io : Io) (fs : Fs) : List Nat → Option (Int × Fs)
  | [] => some (-1, fs)
  | i :: is =>
      if (fs.groups i).freeBlocks ≠ 0 then
        let fs := fs.initGroup i
        match getNewBlkNo fs.blksz (fs.groups i).bitmap with
        | none => none
        | some none => firstPass io fs is
        | some (some (count, bitmap)) =>
            let fs := { (fs.setBitmap i bitmap).decrement i with
              currBlkno := count + (i * fs.blksz * 8) % 2 ^ 32
              firstPassBbmap := fs.firstPassBbmap + 1 }
            if io.journal i then some (fs.currBlkno, fs) else some (-1, fs)
      else firstPass io fs is

def Fs.bgIdx (fs : Fs) (blkno : Nat) : Nat :=
  let bgIdx := blkno / fs.blocksPerGroup % 2 ^ 32
  if fs.blksz = 1024 ∧ blkno % fs.blocksPerGroup = 0 then (bgIdx + (2 ^ 32 - 1)) % 2 ^ 32 else bgIdx

def restart (io : Io) : Nat → Fs → Option (Int × Fs)
  | 0, _ => none
  | fuel + 1, fs =>
      let fs := { fs with currBlkno := fs.currBlkno + 1 }
      let bgIdx := fs.bgIdx fs.currBlkno
      if fs.noBlkgrp ≤ bgIdx then some (-1, fs)
      else if (fs.groups bgIdx).freeBlocks = 0 then
        restart io fuel { fs with currBlkno := fs.currBlkno + fs.blocksPerGroup - 1 }
      else
        let fs := fs.initGroup bgIdx
        match ext4fsSetBlockBmap fs.blksz fs.currBlkno (fs.groups bgIdx).bitmap bgIdx with
        | none => restart io fuel fs
        | some bitmap =>
            let fs := fs.setBitmap bgIdx bitmap
            if fs.prevBgBitmapIndex ≠ some bgIdx then
              if io.journal bgIdx then
                let fs := { fs with prevBgBitmapIndex := some bgIdx }
                some (fs.currBlkno, fs.decrement bgIdx)
              else some (-1, fs)
            else some (fs.currBlkno, fs.decrement bgIdx)

/-- `ext4fs_get_new_blk_no`. The first search counts the groups in a `short`, which ends it after
group 32767; the second one has at most one iteration for each block. -/
def ext4fsGetNewBlkNo (io : Io) (fs : Fs) : Option (Int × Fs) :=
  if io.alloc = false then some (-1, fs)
  else if fs.firstPassBbmap = 0 then firstPass io fs (List.range (min fs.noBlkgrp 32768))
  else restart io (fs.noBlkgrp * fs.blocksPerGroup + 2) fs

/-!
Block numbers and bits: with blocks of 1024 bytes, block 1 is the first one of group 0.

Blocks are counted from the first block of group 0 here: block `k` has bit `k % n` in the bitmap of
group `k / n`, where `n` is the number of blocks of a group.
-/

def firstBlock (blksz : Nat) : Nat := if blksz = 1024 then 1 else 0

theorem firstBlock_le_one (blksz : Nat) : firstBlock blksz ≤ 1 := by
  rw [firstBlock]
  split <;> omega

def SizeOk (blksz : Nat) : Prop := blksz = 1024 ∨ blksz = 2048 ∨ blksz = 4096

section
variable {blksz : Nat} {f : Nat → UInt8}

theorem skipFull_spec {p : Nat} (hp : p < blksz) (hByte : f p ≠ 255) (hBefore : ∀ i < p, f i = 255)
    {fuel ptr c : Nat} (hFuel : ptr + fuel = blksz) (hPtr : ptr ≤ p) (hc : c < 8) :
    skipFull blksz f fuel ptr (8 * ptr + c) = .byte p (8 * p + c) := by
  induction fuel generalizing ptr with
  | zero => omega
  | succ fuel ih =>
      rw [skipFull]
      by_cases hEq : ptr = p
      · rw [hEq, if_neg hByte]
      · grind

theorem getNewBlkNo_spec {k : Nat} (hk : k < 8 * blksz) (hClear : bit f k = false)
    (hBefore : ∀ j < k, bit f j = true) :
    getNewBlkNo blksz f = some (some (k + firstBlock blksz, setBit f k)) := by
  have hByte : f (k / 8) ≠ 255 := by
    rw [ne_eq, eq_255_iff]
    intro hAll
    have hSet := hAll (k % 8) (Nat.mod_lt _ (by decide))
    rw [Nat.div_add_mod, hClear] at hSet
    cases hSet
  have hFull : ∀ i < k / 8, f i = 255 := by
    intro i hi
    rw [eq_255_iff]
    exact fun j hj => hBefore _ (by omega)
  have hFind : (List.range 8).find? (fun i => f (k / 8) &&& mask i = 0) = some (k % 8) := by
    rw [List.find?_range_eq_some]
    refine ⟨?_, List.mem_range.mpr (Nat.mod_lt _ (by decide)), fun j hj => ?_⟩
    · rw [decide_eq_true_eq, and_mask_eq_zero_iff (Nat.mod_lt _ (by decide))]
      exact hClear
    · have hSet := hBefore (8 * (k / 8) + j) (by omega)
      rw [bit, show (8 * (k / 8) + j) / 8 = k / 8 by omega,
        show (8 * (k / 8) + j) % 8 = j by omega] at hSet
      rw [Bool.not_eq_true', decide_eq_false_iff_not, and_mask_eq_zero_iff (by omega), hSet]
      exact Bool.noConfusion
  have hScan : ∀ c < 8, skipFull blksz f blksz 0 c = .byte (k / 8) (8 * (k / 8) + c) := by
    intro c hc
    have hStart := skipFull_spec (by omega) hByte hFull (Nat.zero_add blksz)
      (Nat.zero_le _) hc
    rwa [Nat.mul_zero, Nat.zero_add] at hStart
  obtain ⟨n, rfl⟩ : ∃ n, blksz = n + 1 := ⟨blksz - 1, by omega⟩
  have hBytes : ∀ count, scanBytes f (n + 1) (k / 8) count =
      some (count + k % 8, setBit f k) := by
    intro count
    rw [scanBytes, hFind]
    rfl
  have hSplit := Nat.div_add_mod k 8
  rw [getNewBlkNo, firstBlock]
  by_cases hSmall : n + 1 = 1024
  · rw [if_neg (fun hNot => hNot hSmall), if_pos hSmall, hScan 1 (by decide)]
    dsimp only
    rw [hBytes]
    congr 3
    omega
  · grind

end

theorem ext4fsSetBlockBmap_eq {blksz : Nat} (f : Nat → UInt8) (g q : Nat) :
    ext4fsSetBlockBmap blksz (g * (8 * blksz) + q + firstBlock blksz) f g =
      if bit f q then none else some (setBit f q) := by
  have hPlace : ∀ {ptr : Nat} {operand : UInt8}, ptr = q / 8 → operand = mask (q % 8) →
      (if f ptr &&& operand ≠ 0 then none
        else some (Function.update f ptr (f ptr ||| operand))) =
        if bit f q then none else some (setBit f q) := by
    rintro ptr operand rfl rfl
    have hZero := and_mask_eq_zero_iff (b := f (q / 8)) (Nat.mod_lt q (by decide : 0 < 8))
    rw [setBit]
    by_cases hBit : bit f q = true
    · rw [if_pos hBit, if_pos]
      rw [ne_eq, hZero]
      exact Bool.eq_false_iff.not.mpr (not_not.mpr hBit)
    · rw [if_neg hBit, if_neg]
      rw [ne_eq, hZero, not_not]
      exact Bool.eq_false_iff.mpr hBit
  rw [ext4fsSetBlockBmap, firstBlock]
  by_cases hSmall : blksz = 1024
  · subst hSmall
    rw [if_pos rfl]
    apply hPlace
    · split <;> omega
    · rw [if_neg (fun hNot => hNot rfl)]
      split
      · congr 1
        omega
      · congr 1
        omega
  · have hBlock : g * (8 * blksz) + q + 0 = 8 * (g * blksz) + q := by ring
    rw [if_neg hSmall, hBlock]
    apply hPlace
    · grind
    · rw [if_pos hSmall]
      congr 1
      omega

theorem bgIdx_eq {fs : Fs} (hGroup : fs.blocksPerGroup = 8 * fs.blksz) (hSize : SizeOk fs.blksz)
    {k : Nat} (hk : k < 2 ^ 33) : fs.bgIdx (k + firstBlock fs.blksz) = k / fs.blocksPerGroup := by
  rw [Fs.bgIdx, firstBlock, hGroup]
  rcases hSize with hSize | hSize | hSize
  · rw [hSize, if_pos rfl]
    by_cases hLast : (k + 1) % (8 * 1024) = 0
    · rw [if_pos ⟨rfl, hLast⟩]
      omega
    · rw [if_neg (fun hBoth => hLast hBoth.2)]
      omega
  · grind
  · grind

end Fire3.Ext4

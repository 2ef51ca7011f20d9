import Fire3.Base.ByteMemory

/-!
Where `fs/ext4` looks for an inode.

Inode numbers start at one. `ext4fs_read_inode` takes one off before it looks up the group of the
inode, while `ext4fs_write` and `ext4fs_delete_file` look up the group first. Inode numbers are
signed 32-bit integers; the sizes and counts they are divided by are unsigned, except for the
number of inodes of a block in `ext4fs_read_inode`.
-/

namespace Fire3.Ext4
open ByteMemory

structure InodeLayout where
  disk : Mem
  blksz : Nat
  inodesz : Nat
  inodesPerGroup : Nat
  firstDataBlock : Nat
  noBlkgrp : Nat

structure Slot where
  blkno : Nat
  blkoff : Int
  deriving DecidableEq

structure InodeBit where
  index : Nat
  byte : Int
  bit : Nat
  deriving DecidableEq

namespace InodeLayout
variable (fs : InodeLayout)

def inodesPerBlock : Nat := fs.blksz / fs.inodesz

def ext4fsBlockgroup (group : Nat) : Nat :=
  let descPerBlk := fs.blksz / 32
  let blkno := fs.firstDataBlock + 1 + group / descPerBlk
  let blkoff := group % descPerBlk * 32
  readLE fs.disk (blkno * fs.blksz + blkoff + 8) 4

def gdtableBlkno : Nat := (if fs.blksz = 1024 then 1 else 0) + 1

def noBlkPergdt : Nat :=
  if fs.noBlkgrp * 32 % fs.blksz ≠ 0 then fs.noBlkgrp * 32 / fs.blksz + 1
  else fs.noBlkgrp * 32 / fs.blksz

/-- The field `inode_table_id` in the table of descriptors that `ext4fs_get_bgdtable` reads;
`none` is an access behind the table. -/
def bgd (index : Nat) : Option Nat :=
  if index * 32 + 32 ≤ fs.blksz * fs.noBlkPergdt then
    some (readLE fs.disk (fs.gdtableBlkno * fs.blksz + index * 32 + 8) 4)
  else none

def ext4fsReadInode (n : Nat) : Slot where
  blkno := (fs.ext4fsBlockgroup ((n - 1) / fs.inodesPerGroup) +
    (n - 1) % fs.inodesPerGroup / fs.inodesPerBlock) % 2 ^ 32
  blkoff := Int.bmod ((toS32 (n - 1)).tmod fs.inodesPerBlock * fs.inodesz) (2 ^ 32)

def slotIn (ibmapIdx n : Nat) : Option Slot :=
  (fs.bgd ibmapIdx).map fun table =>
    { blkno := (table + (n - 1) % fs.inodesPerGroup / fs.inodesPerBlock) % 2 ^ 32
      blkoff := ((n - 1) % fs.inodesPerBlock * fs.inodesz : Nat) }

def ext4fsWriteFile (inodeno : Nat) : Option Slot :=
  fs.slotIn (inodeno / fs.inodesPerGroup) inodeno

def ext4fsWriteParent (parentInodeno : Nat) : Option Slot :=
  fs.slotIn (parentInodeno / fs.inodesPerGroup) parentInodeno

def ext4fsDeleteFile (inodeno : Nat) : Option Slot :=
  fs.slotIn (inodeno / fs.inodesPerGroup) inodeno

def inodeBit (inodeNo index : Nat) : InodeBit :=
  let inodeNo := inodeNo - index * fs.inodesPerGroup
  let i := inodeNo / 8
  let remainder := inodeNo % 8
  if remainder = 0 then { index, byte := i - 1, bit := 7 }
  else { index, byte := i, bit := remainder - 1 }

def ext4fsSetInodeBmap (currInodeNo : Nat) : InodeBit :=
  fs.inodeBit currInodeNo (currInodeNo / fs.inodesPerGroup)

def ext4fsResetInodeBmap (inodeno : Nat) : InodeBit :=
  fs.inodeBit inodeno (inodeno / fs.inodesPerGroup)

end InodeLayout

/-- A layout of the file system format: sizes are powers of two, the tables of different groups are
different blocks, and the rest of the block behind the last descriptor is zero. -/
structure InodeLayout.Valid (fs : InodeLayout) : Prop where
  blksz_min : 1024 ∣ fs.blksz
  blksz_max : fs.blksz ∣ 2 ^ 16
  inodesz : fs.inodesz ∣ fs.blksz
  perGroup : 0 < fs.inodesPerGroup
  firstBlock : fs.firstDataBlock = if fs.blksz = 1024 then 1 else 0
  total : fs.noBlkgrp * fs.inodesPerGroup < 2 ^ 32
  tables : ∀ g < fs.noBlkgrp, ∀ h < fs.noBlkgrp,
    fs.ext4fsBlockgroup g = fs.ext4fsBlockgroup h → g = h
  nonzero : ∀ g < fs.noBlkgrp, fs.ext4fsBlockgroup g ≠ 0
  rest : ∀ g, fs.noBlkgrp ≤ g → g * 32 + 32 ≤ fs.blksz * fs.noBlkPergdt →
    fs.ext4fsBlockgroup g = 0

/-- All code finds inode `n` at the same place. -/
structure InodeLayout.FoundAt (fs : InodeLayout) (n : Nat) : Prop where
  file : fs.ext4fsWriteFile n = some (fs.ext4fsReadInode n)
  parent : fs.ext4fsWriteParent n = some (fs.ext4fsReadInode n)
  deleted : fs.ext4fsDeleteFile n = some (fs.ext4fsReadInode n)
  bit : fs.ext4fsResetInodeBmap n = fs.ext4fsSetInodeBmap n

theorem toS32_of_ge {n : Nat} (h : 2 ^ 31 ≤ n) (hn : n < 2 ^ 32) :
    toS32 n = (n : Int) - 2 ^ 32 := by
  have hMod : (n : Int) % 2 ^ 32 = n := Int.emod_eq_of_lt (by omega) (by omega)
  unfold toS32 Int.bmod
  rw [Nat.cast_pow, Nat.cast_ofNat, hMod, if_neg (by omega)]

theorem bmod_of_small {x : Int} (hLow : -2 ^ 16 < x) (hHigh : x < 2 ^ 16) :
    Int.bmod x (2 ^ 32) = x := by
  rw [Int.bmod_eq_of_le] <;> omega

theorem InodeLayout.ext4fsBlockgroup_lt (fs : InodeLayout) (g : Nat) :
    fs.ext4fsBlockgroup g < 2 ^ 32 := by
  simpa [ext4fsBlockgroup, readLE] using leValue_lt (load fs.disk _ 4)

section
variable {fs : InodeLayout} (hFs : fs.Valid)
include hFs

theorem InodeLayout.Valid.blksz_pos : 0 < fs.blksz :=
  Nat.pos_of_dvd_of_pos hFs.blksz_max (by norm_num)

theorem InodeLayout.Valid.inodesz_pos : 0 < fs.inodesz :=
  Nat.pos_of_dvd_of_pos hFs.inodesz hFs.blksz_pos

theorem InodeLayout.Valid.inodesPerBlock_mul : fs.inodesPerBlock * fs.inodesz = fs.blksz :=
  Nat.div_mul_cancel hFs.inodesz

theorem InodeLayout.Valid.inodesPerBlock_pos : 0 < fs.inodesPerBlock := by
  apply Nat.pos_of_ne_zero
  intro hZero
  have hMul := hFs.inodesPerBlock_mul
  rw [hZero, Nat.zero_mul] at hMul
  exact absurd hMul.symm hFs.blksz_pos.ne'

theorem InodeLayout.Valid.inodesPerBlock_dvd : fs.inodesPerBlock ∣ 2 ^ 32 := by
  have hBlock : fs.inodesPerBlock ∣ fs.blksz := ⟨fs.inodesz, hFs.inodesPerBlock_mul.symm⟩
  exact (hBlock.trans hFs.blksz_max).trans (by norm_num)

theorem InodeLayout.Valid.bgd_eq {g : Nat} (hg : g * 32 + 32 ≤ fs.blksz * fs.noBlkPergdt) :
    fs.bgd g = some (fs.ext4fsBlockgroup g) := by
  obtain ⟨k, hk⟩ := hFs.blksz_min
  have hPos := hFs.blksz_pos
  have hPer : fs.blksz = fs.blksz / 32 * 32 := by omega
  have hFirst : fs.firstDataBlock + 1 = fs.gdtableBlkno := by
    rw [hFs.firstBlock, gdtableBlkno]
  have hPlace : (fs.firstDataBlock + 1 + g / (fs.blksz / 32)) * fs.blksz +
      g % (fs.blksz / 32) * 32 = fs.gdtableBlkno * fs.blksz + g * 32 := by
    have hDiv := Nat.div_add_mod g (fs.blksz / 32)
    generalize fs.blksz / 32 = d at hPer hDiv ⊢
    grind
  rw [bgd, if_pos hg, ext4fsBlockgroup, hPlace]

theorem InodeLayout.Valid.table_size : fs.noBlkgrp * 32 ≤ fs.blksz * fs.noBlkPergdt := by
  have hDiv := Nat.div_add_mod (fs.noBlkgrp * 32) fs.blksz
  have hMod := Nat.mod_lt (fs.noBlkgrp * 32) hFs.blksz_pos
  rw [noBlkPergdt]
  generalize fs.noBlkgrp * 32 = size at hDiv hMod ⊢
  split
  · rw [Nat.mul_add]
    omega
  · omega

/-- Inside its group, the number of an inode that does not end the group can be looked up before or
after one is taken off. -/
theorem InodeLayout.Valid.group_eq {n : Nat} (hn : n % fs.inodesPerGroup ≠ 0) :
    n / fs.inodesPerGroup = (n - 1) / fs.inodesPerGroup := by
  have hPos := hFs.perGroup
  have hDiv := Nat.div_add_mod n fs.inodesPerGroup
  have hMod := Nat.mod_lt n hPos
  symm
  rw [Nat.div_eq_iff hPos]
  constructor
  · rw [Nat.mul_comm]
    omega
  · rw [Nat.mul_comm]
    omega

theorem InodeLayout.Valid.group_succ {n : Nat} (hn : n % fs.inodesPerGroup = 0) (hPos : 1 ≤ n) :
    n / fs.inodesPerGroup = (n - 1) / fs.inodesPerGroup + 1 := by
  have hGroup := hFs.perGroup
  have hSucc : (n - 1 + 1) / fs.inodesPerGroup = (n - 1) / fs.inodesPerGroup +
      if fs.inodesPerGroup ∣ n - 1 + 1 then 1 else 0 := Nat.succ_div
  rwa [Nat.sub_add_cancel hPos, if_pos (Nat.dvd_of_mod_eq_zero hn)] at hSucc

theorem InodeLayout.Valid.offset_lt (k : Nat) :
    k % fs.inodesPerBlock * fs.inodesz < 2 ^ 16 := by
  calc k % fs.inodesPerBlock * fs.inodesz < fs.inodesPerBlock * fs.inodesz :=
        Nat.mul_lt_mul_of_pos_right (Nat.mod_lt k hFs.inodesPerBlock_pos) hFs.inodesz_pos
    _ = fs.blksz := hFs.inodesPerBlock_mul
    _ ≤ 2 ^ 16 := Nat.le_of_dvd (by norm_num) hFs.blksz_max

/-- The signed remainder is the unsigned one up to half of the numbers, and above it only for the
first inode of a block. -/
theorem InodeLayout.Valid.blkoff_iff {n : Nat} (hPos : 1 ≤ n) (hn : n < 2 ^ 32) :
    (((n - 1) % fs.inodesPerBlock * fs.inodesz : Nat) : Int) =
        Int.bmod ((toS32 (n - 1)).tmod fs.inodesPerBlock * fs.inodesz) (2 ^ 32) ↔
      n ≤ 2 ^ 31 ∨ (n - 1) % fs.inodesPerBlock = 0 := by
  by_cases hHalf : n ≤ 2 ^ 31
  · have hSigned : toS32 (n - 1) = ((n - 1 : Nat) : Int) :=
      toS32_of_lt (show n - 1 < 2 ^ 31 by omega)
    have hLt := hFs.offset_lt (n - 1)
    rw [hSigned, ← Int.ofNat_tmod, ← Int.natCast_mul, bmod_of_small (by omega) (by omega)]
    exact iff_of_true rfl (.inl hHalf)
  · have hSigned : toS32 (n - 1) = -((2 ^ 32 - (n - 1) : Nat) : Int) := by
      rw [toS32_of_ge (by omega) (by omega)]
      omega
    have hLt := hFs.offset_lt (2 ^ 32 - (n - 1))
    have hDvd := hFs.inodesPerBlock_dvd
    rw [hSigned, Int.neg_tmod, ← Int.ofNat_tmod, Int.neg_mul, ← Int.natCast_mul,
      bmod_of_small (by omega) (by omega)]
    constructor
    · intro hEq
      have hZero : (n - 1) % fs.inodesPerBlock * fs.inodesz = 0 := by omega
      exact .inr ((Nat.mul_eq_zero.mp hZero).resolve_right hFs.inodesz_pos.ne')
    · intro hOr
      have hFirst := hOr.resolve_left hHalf
      have hRest : (2 ^ 32 - (n - 1)) % fs.inodesPerBlock = 0 :=
        Nat.mod_eq_zero_of_dvd (Nat.dvd_sub hDvd (Nat.dvd_of_mod_eq_zero hFirst))
      rw [hFirst, hRest]
      simp

theorem InodeLayout.Valid.table_ne {g k : Nat} (hg : g < fs.noBlkgrp)
    (hInside : (g + 1) * 32 + 32 ≤ fs.blksz * fs.noBlkPergdt) :
    (fs.ext4fsBlockgroup (g + 1) + k) % 2 ^ 32 ≠ (fs.ext4fsBlockgroup g + k) % 2 ^ 32 := by
  intro hEq
  have hNext := fs.ext4fsBlockgroup_lt (g + 1)
  have hThis := fs.ext4fsBlockgroup_lt g
  have hSame : fs.ext4fsBlockgroup (g + 1) = fs.ext4fsBlockgroup g := by omega
  by_cases hLast : g + 1 < fs.noBlkgrp
  · exact absurd (hFs.tables _ hLast _ hg hSame) (by omega)
  · rw [hFs.rest (g + 1) (by omega) hInside] at hSame
    exact hFs.nonzero g hg hSame.symm

theorem InodeLayout.Valid.slotIn_iff {n : Nat} (hPos : 1 ≤ n)
    (hn : n ≤ fs.noBlkgrp * fs.inodesPerGroup) :
    fs.slotIn (n / fs.inodesPerGroup) n = some (fs.ext4fsReadInode n) ↔
      n % fs.inodesPerGroup ≠ 0 ∧ (n ≤ 2 ^ 31 ∨ (n - 1) % fs.inodesPerBlock = 0) := by
  have hTotal := hFs.total
  have hGroup : (n - 1) / fs.inodesPerGroup < fs.noBlkgrp :=
    (Nat.div_lt_iff_lt_mul hFs.perGroup).mpr (by omega)
  have hSize := hFs.table_size
  rw [slotIn, ← hFs.blkoff_iff hPos (by omega)]
  by_cases hLast : n % fs.inodesPerGroup = 0
  · apply iff_of_false _ (fun h => h.1 hLast)
    intro hSlot
    rw [hFs.group_succ hLast hPos, Option.map_eq_some_iff] at hSlot
    obtain ⟨table, hTable, hEq⟩ := hSlot
    have hInside : ((n - 1) / fs.inodesPerGroup + 1) * 32 + 32 ≤ fs.blksz * fs.noBlkPergdt := by
      by_contra hOut
      rw [bgd, if_neg hOut] at hTable
      cases hTable
    rw [hFs.bgd_eq hInside, Option.some.injEq] at hTable
    rw [ext4fsReadInode, Slot.mk.injEq, ← hTable] at hEq
    exact hFs.table_ne hGroup hInside hEq.1
  · rw [hFs.group_eq hLast, hFs.bgd_eq (by omega), Option.map_some, Option.some.injEq,
      ext4fsReadInode, Slot.mk.injEq]
    exact and_congr_left' (iff_of_true rfl hLast)

/-- All code agrees on the inodes that do not end a group, as long as their numbers are not
negative as signed integers. -/
theorem inode_found_iff {n : Nat} (hPos : 1 ≤ n) (hn : n ≤ fs.noBlkgrp * fs.inodesPerGroup) :
    fs.FoundAt n ↔
      n % fs.inodesPerGroup ≠ 0 ∧ (n ≤ 2 ^ 31 ∨ (n - 1) % fs.inodesPerBlock = 0) := by
  have hSlot := hFs.slotIn_iff hPos hn
  constructor
  · intro hFound
    exact hSlot.mp hFound.file
  · intro hCond
    exact ⟨hSlot.mpr hCond, hSlot.mpr hCond, hSlot.mpr hCond, rfl⟩

end

def twoGroups : InodeLayout where
  disk := writeLE (writeLE zero 2056 4 5) 2088 4 7
  blksz := 1024
  inodesz := 128
  inodesPerGroup := 8
  firstDataBlock := 1
  noBlkgrp := 2

theorem twoGroups_valid : twoGroups.Valid where
  blksz_min := by decide
  blksz_max := by decide
  inodesz := by decide
  perGroup := by decide
  firstBlock := rfl
  total := by decide
  tables := by decide +kernel
  nonzero := by decide +kernel
  rest := by
    intro g hLow hHigh
    have hRest : ∀ g < 32, 2 ≤ g → twoGroups.ext4fsBlockgroup g = 0 := by decide +kernel
    have hSize : twoGroups.blksz * twoGroups.noBlkPergdt = 1024 := by decide
    exact hRest g (by omega) hLow

/-- The second inode of the second group. -/
theorem inode_found_tenth : twoGroups.FoundAt 10 :=
  (inode_found_iff twoGroups_valid (by decide) (by decide)).mpr ⟨by decide, .inl (by decide)⟩

/-- The last inode of the first group is stored in the table of the second one. -/
theorem last_inode_misplaced : twoGroups.Valid ∧ ¬ twoGroups.FoundAt 8 := by
  have hSlot : twoGroups.ext4fsWriteFile 8 ≠ some (twoGroups.ext4fsReadInode 8) := by decide +kernel
  exact ⟨twoGroups_valid, fun hFound => hSlot hFound.file⟩

end Fire3.Ext4

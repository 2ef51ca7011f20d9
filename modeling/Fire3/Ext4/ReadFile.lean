import Fire3.Base.ByteMemory

/-!
`ext4fs_read_file` of `fs/ext4/ext4fs.c`, and the reads of the device it makes.

Blocks that follow each other on the disk are collected and read at once. A read is kept back until
a block comes that does not follow, or a hole, or the end. The copies into the buffer of the caller
are a list of offsets and bytes. Sizes that are kept in signed integers are checked: arithmetic that
leaves their range is not defined.
-/

namespace Fire3.Ext4
open ByteMemory

structure Device where
  log2blksz : Nat
  log2FsBlocksize : Nat
  partSize : Nat
  mem : Mem
  block_min : 10 ≤ log2FsBlocksize + log2blksz
  block_max : log2FsBlocksize + log2blksz ≤ 16
  part_lt : partSize < 2 ^ 63

inductive Failure
  | error
  | undefined
  deriving DecidableEq

namespace Device
variable (dev : Device)

def sectSize : Nat := 2 ^ dev.log2blksz
def sectPerBlk : Nat := 2 ^ dev.log2FsBlocksize
def blocksize : Nat := 2 ^ (dev.log2FsBlocksize + dev.log2blksz)

def blockRead (sector n : Nat) : List UInt8 :=
  load dev.mem (sector * dev.sectSize) (n * dev.sectSize)

/-- `ext4fs_devread`; `none` is the result 0, for a read outside of the partition. -/
def ext4fsDevread (sector byteOffset byteLen : Nat) : Option (List UInt8) :=
  if ((sector : Int) + ((byteOffset + byteLen : Nat) - 1) / dev.sectSize) % 2 ^ 64 ≥ dev.partSize then
    none
  else
    let sector := sector + byteOffset / dev.sectSize
    let offset := byteOffset % dev.sectSize
    -- the first part, if it is not aligned with the start of a sector
    let readlen := if offset ≠ 0 then min (dev.sectSize - offset) byteLen else 0
    let head := ((dev.blockRead sector 1).drop offset).take readlen
    let sector := if offset ≠ 0 then sector + 1 else sector
    let byteLen := byteLen - readlen
    if byteLen = 0 then some head
    else
      let blocks := byteLen / dev.sectSize
      if blocks = 0 then some (head ++ (dev.blockRead sector 1).take byteLen)
      else
        let rest := byteLen - blocks * dev.sectSize
        some (head ++ dev.blockRead sector blocks ++ (dev.blockRead (sector + blocks) 1).take rest)

end Device

/-- The variables of the loop. `pending` is `previous_block_number != -1`, and the buffers are
offsets from the start of the caller's. -/
structure ReadState where
  writes : List (Nat × List UInt8)
  pending : Bool
  delayedStart : Nat
  delayedExtent : Nat
  delayedSkipfirst : Nat
  delayedNext : Nat
  delayedBuf : Nat
  buf : Nat

section
variable (dev : Device)

def spill (st : ReadState) : Except Failure ReadState :=
  if st.delayedSkipfirst + st.delayedExtent ≥ 2 ^ 31 then .error .undefined
  else
    match dev.ext4fsDevread st.delayedStart st.delayedSkipfirst st.delayedExtent with
    | none => .error .error
    | some bytes =>
        .ok { st with writes := st.writes ++ [(st.delayedBuf, bytes)], pending := false }

def spillPending (st : ReadState) : Except Failure ReadState :=
  if st.pending then spill dev st else .ok st

def delay (st : ReadState) (blknr blockend skipfirst : Nat) : ReadState :=
  { st with
    pending := decide (blknr ≠ 2 ^ 64 - 1)
    delayedStart := blknr
    delayedExtent := blockend
    delayedSkipfirst := skipfirst
    delayedNext := blknr + blockend / dev.sectSize
    delayedBuf := st.buf }

def readTurn (lookup : Nat → Int) (pos len blockcnt : Nat) (st : ReadState) (i : Nat) :
    Except Failure ReadState :=
  if dev.blocksize * i ≥ 2 ^ 31 then .error .undefined
  else
    let blknr := ((lookup i) % 2 ^ 64).toNat * dev.sectPerBlk % 2 ^ 64
    let blockend :=
      if i + 1 = blockcnt then
        if len + pos - dev.blocksize * i = 0 then dev.blocksize else len + pos - dev.blocksize * i
      else dev.blocksize
    let skipfirst := if i = pos / dev.blocksize then pos - dev.blocksize * i else 0
    let blockend := blockend - skipfirst
    let next := if blknr ≠ 0 then
        if st.pending then
          if st.delayedNext = blknr then
            .ok { st with
              delayedExtent := st.delayedExtent + blockend
              delayedNext := st.delayedNext + blockend / dev.sectSize }
          else (spill dev st).map fun st => delay dev st blknr blockend skipfirst
        else .ok (delay dev st blknr blockend skipfirst)
      else (spillPending dev st).map fun st =>
        { st with
          writes := st.writes ++ [(st.buf, List.replicate (dev.blocksize - skipfirst) 0)] }
    next.map fun st => { st with buf := st.buf + (dev.blocksize - skipfirst) }

def readTurns (lookup : Nat → Int) (pos len blockcnt : Nat) : Nat → Nat → ReadState →
    Except Failure ReadState
  | 0, _, st => .ok st
  | n + 1, i, st =>
      (readTurn dev lookup pos len blockcnt st i).bind
        (readTurns lookup pos len blockcnt n (i + 1))

def readStart : ReadState where
  writes := []
  pending := false
  delayedStart := 0
  delayedExtent := 0
  delayedSkipfirst := 0
  delayedNext := 0
  delayedBuf := 0
  buf := 0

def ext4fsReadFile (lookup : Nat → Int) (filesize pos len : Nat) :
    Except Failure (List (Nat × List UInt8) × Nat) :=
  let len := if len > filesize then filesize else len
  if len + pos + dev.blocksize - 1 ≥ 2 ^ 63 then .error .undefined
  else
    let blockcnt := (len + pos + dev.blocksize - 1) / dev.blocksize
    -- the number of the first block is cut to a signed integer; a negative one is not below `blockcnt`
    let first := pos / dev.blocksize % 2 ^ 32
    let turns := if first ≥ 2 ^ 31 then 0 else blockcnt - first
    (readTurns dev lookup pos len blockcnt turns first readStart).bind fun st =>
      (spillPending dev st).map fun st => (st.writes, len)

end

section
variable (dev : Device)

theorem Device.sectSize_pos : 0 < dev.sectSize := Nat.two_pow_pos _

theorem Device.sectPerBlk_pos : 0 < dev.sectPerBlk := Nat.two_pow_pos _

theorem Device.blocksize_pos : 0 < dev.blocksize := Nat.two_pow_pos _

theorem Device.blocksize_eq : dev.blocksize = dev.sectPerBlk * dev.sectSize := by
  rw [blocksize, sectPerBlk, sectSize, Nat.pow_add]

theorem Device.blocksize_ge : 1024 ≤ dev.blocksize :=
  Nat.pow_le_pow_right (n := 2) (by decide) dev.block_min

theorem Device.blocksize_le : dev.blocksize ≤ 65536 :=
  Nat.pow_le_pow_right (n := 2) (by decide) dev.block_max

theorem Device.blocksize_dvd : dev.blocksize ∣ 2 ^ 31 := by
  apply Nat.pow_dvd_pow 2
  have hMax := dev.block_max
  omega

variable {dev}

theorem blockRead_part {sector o n : Nat} (h : o + n ≤ dev.sectSize) :
    ((dev.blockRead sector 1).drop o).take n = load dev.mem (sector * dev.sectSize + o) n := by
  rw [Device.blockRead, Nat.one_mul, load_take_drop _ _ h]

theorem blockRead_take {sector n : Nat} (h : n ≤ dev.sectSize) :
    (dev.blockRead sector 1).take n = load dev.mem (sector * dev.sectSize) n := by
  have hPart := @blockRead_part dev sector 0 n (by omega)
  rwa [List.drop_zero, Nat.add_zero] at hPart

theorem ext4fsDevread_eq {sector byteOffset byteLen : Nat} (hPos : 0 < byteOffset + byteLen)
    (hIn : sector * dev.sectSize + byteOffset + byteLen ≤ dev.partSize * dev.sectSize) :
    dev.ext4fsDevread sector byteOffset byteLen =
      some (load dev.mem (sector * dev.sectSize + byteOffset) byteLen) := by
  have hSect := dev.sectSize_pos
  have hLt := dev.part_lt
  have hLast : sector + (byteOffset + byteLen - 1) / dev.sectSize < dev.partSize := by
    rw [← Nat.mul_add_div hSect, Nat.div_lt_iff_lt_mul hSect, Nat.mul_comm]
    omega
  have hCheck : ¬ ((sector : Int) + ((byteOffset + byteLen : Nat) - 1) / dev.sectSize) % 2 ^ 64 ≥
      dev.partSize := by
    have hCast : ((byteOffset + byteLen : Nat) : Int) - 1 =
        ((byteOffset + byteLen - 1 : Nat) : Int) := by
      omega
    grind
  have hOffset : dev.sectSize * (byteOffset / dev.sectSize) + byteOffset % dev.sectSize = byteOffset :=
    Nat.div_add_mod byteOffset dev.sectSize
  have hMod := Nat.mod_lt byteOffset hSect
  rw [Device.ext4fsDevread, if_neg hCheck]
  generalize byteOffset / dev.sectSize = q at hOffset ⊢
  generalize byteOffset % dev.sectSize = o at hOffset hMod ⊢
  have hBase : sector * dev.sectSize + byteOffset = (sector + q) * dev.sectSize + o := by
    grind
  rw [hBase]
  dsimp only
  -- what is left behind the first part starts at the start of a sector
  obtain ⟨readlen, first, hReadlen, hFirst, hHead, hAligned⟩ : ∃ readlen first,
      (if o ≠ 0 then min (dev.sectSize - o) byteLen else 0) = readlen ∧
      (if o ≠ 0 then sector + q + 1 else sector + q) = first ∧ readlen ≤ byteLen ∧
      o + readlen ≤ dev.sectSize ∧ (readlen < byteLen →
        (sector + q) * dev.sectSize + o + readlen = first * dev.sectSize) := by
    refine ⟨_, _, rfl, rfl, ?_⟩
    by_cases hZero : o = 0
    · grind
    · rw [if_pos hZero, if_pos hZero]
      grind
  rw [hReadlen, hFirst, blockRead_part hAligned.1]
  obtain ⟨rest, rfl⟩ := Nat.exists_eq_add_of_le hHead
  rw [Nat.add_sub_cancel_left, load_add]
  by_cases hRest : rest = 0
  · rw [if_pos hRest, hRest, load_zero, List.append_nil]
  · rw [if_neg hRest, hAligned.2 (by omega)]
    by_cases hBlocks : rest / dev.sectSize = 0
    · have hSmall : rest < dev.sectSize := (Nat.div_eq_zero_iff_lt hSect).mp hBlocks
      rw [if_pos hBlocks, blockRead_take hSmall.le]
    · have hDiv := Nat.div_add_mod rest dev.sectSize
      have hLess := Nat.mod_lt rest hSect
      rw [Nat.mul_comm] at hDiv
      generalize rest / dev.sectSize = blocks at hBlocks hDiv ⊢
      obtain ⟨last, rfl⟩ : ∃ last, rest = blocks * dev.sectSize + last := ⟨_, hDiv.symm⟩
      rw [if_neg hBlocks, Nat.add_sub_cancel_left, blockRead_take (by omega), load_add,
        Device.blockRead, Nat.add_mul first, List.append_assoc]

end

/-!
Which windows of a file `ext4fs_read_file` reads.

The copies of the collected reads come to the same as one copy for each block. The length is
limited to the size of the file, without regard to the position, and a hole is filled up to the end
of its block.
-/

/-- A file: its size, and for each of its blocks a block inside of the partition, or 0 for a hole. No
block is used twice. -/
structure File (dev : Device) where
  size : Nat
  map : Nat → Nat
  size_lt : size < 2 ^ 32
  inside : ∀ i, map i ≠ 0 → (map i + 1) * dev.sectPerBlk ≤ dev.partSize
  inj : ∀ i j, map i ≠ 0 → map i = map j → i = j

def File.byte {dev : Device} (file : File dev) (p : Nat) : UInt8 :=
  if file.map (p / dev.blocksize) = 0 then 0
  else dev.mem (file.map (p / dev.blocksize) * dev.blocksize + p % dev.blocksize)

def applyWrites (m : Mem) (writes : List (Nat × List UInt8)) : Mem :=
  writes.foldl (fun m w => store m w.1 w.2) m

theorem applyWrites_append (m : Mem) (ws vs : List (Nat × List UInt8)) :
    applyWrites m (ws ++ vs) = applyWrites (applyWrites m ws) vs :=
  List.foldl_append

@[simp] theorem applyWrites_single (m : Mem) (a : Nat) (bs : List UInt8) :
    applyWrites m [(a, bs)] = store m a bs := rfl

/-- The call returns the window: it fills the buffer with the bytes of the file up to its end or to
the length asked for, and copies nothing behind the length. -/
def ReadsWindow {dev : Device} (file : File dev) (pos len : Nat) : Prop :=
  ∃ writes actread, ext4fsReadFile dev (fun i => file.map i) file.size pos len = .ok (writes, actread) ∧
    actread = min (pos + len) file.size - pos ∧
    (∀ w ∈ writes, w.1 + w.2.length ≤ len) ∧
    ∀ m x, x < actread → applyWrites m writes x = file.byte (pos + x)

section
variable {dev : Device} (file : File dev) (pos len : Nat)

def firstBlk (dev : Device) (pos : Nat) : Nat := pos / dev.blocksize

def blkCount (dev : Device) (pos len : Nat) : Nat := (len + pos + dev.blocksize - 1) / dev.blocksize

/-- Where the bytes of block `i` start in the block and in the buffer, and where the bytes of the
blocks before `i` end in the file. -/
def skipOf (dev : Device) (pos i : Nat) : Nat :=
  if i = firstBlk dev pos then pos - dev.blocksize * i else 0

def offOf (dev : Device) (pos i : Nat) : Nat := dev.blocksize * i + skipOf dev pos i - pos

def endOf (dev : Device) (pos len i : Nat) : Nat :=
  if i = blkCount dev pos len then pos + len else dev.blocksize * i

def segment (i : Nat) : Nat × List UInt8 :=
  (offOf dev pos i,
    if file.map i = 0 then List.replicate (dev.blocksize - skipOf dev pos i) 0
    else load dev.mem (file.map i * dev.blocksize + skipOf dev pos i)
      (endOf dev pos len (i + 1) - (dev.blocksize * i + skipOf dev pos i)))

def segments (i : Nat) : List (Nat × List UInt8) :=
  (List.range' (firstBlk dev pos) (i - firstBlk dev pos)).map (segment file pos len)

def ReadState.delayed (dev : Device) (st : ReadState) : List (Nat × List UInt8) :=
  if st.pending then
    [(st.delayedBuf,
      load dev.mem (st.delayedStart * dev.sectSize + st.delayedSkipfirst) st.delayedExtent)]
  else []

/-- The read kept back before block `i` is for the blocks from `a` on. -/
structure Run (st : ReadState) (a i : Nat) : Prop where
  first_le : firstBlk dev pos ≤ a
  lt : a < i
  mapped : file.map a ≠ 0
  follows : ∀ j, a ≤ j → j < i → file.map j = file.map a + (j - a)
  start : st.delayedStart = file.map a * dev.sectPerBlk
  skip : st.delayedSkipfirst = skipOf dev pos a
  extent : dev.blocksize * a + skipOf dev pos a + st.delayedExtent = endOf dev pos len i
  buf : st.delayedBuf = offOf dev pos a
  next : i < blkCount dev pos len → skipOf dev pos a = 0 →
    st.delayedNext = (file.map a + (i - a)) * dev.sectPerBlk
  alone : skipOf dev pos a ≠ 0 → i = a + 1 ∧
    (i < blkCount dev pos len → st.delayedNext = file.map a * dev.sectPerBlk +
      (dev.blocksize - skipOf dev pos a) / dev.sectSize)
  /-- The run was not joined with the block before it. -/
  maximal : a = firstBlk dev pos ∨ file.map (a - 1) = 0 ∨ file.map a ≠ file.map (a - 1) + 1 ∨
    skipOf dev pos (a - 1) ≠ 0

structure Reading (st : ReadState) (i : Nat) : Prop where
  buf : i < blkCount dev pos len → st.buf = offOf dev pos i
  same : ∀ m, applyWrites m (st.writes ++ st.delayed dev) = applyWrites m (segments file pos len i)
  run : st.pending = true → ∃ a, Run file pos len st a i
  idle : st.pending = false → firstBlk dev pos < i → file.map (i - 1) = 0
  hole : firstBlk dev pos < i → file.map (i - 1) = 0 → st.pending = false ∧
    (offOf dev pos (i - 1), List.replicate (dev.blocksize - skipOf dev pos (i - 1)) 0) ∈ st.writes
  bound : ∀ w ∈ st.writes,
    w.1 + w.2.length + pos ≤ dev.blocksize * (if st.pending then i - 1 else i)

end

section
variable {dev : Device} {pos len i : Nat}

theorem firstBlk_mul : dev.blocksize * firstBlk dev pos ≤ pos := Nat.mul_div_le pos dev.blocksize

theorem lt_firstBlk_succ : pos < dev.blocksize * (firstBlk dev pos + 1) :=
  Nat.lt_mul_div_succ pos dev.blocksize_pos

theorem skipOf_lt : skipOf dev pos i < dev.blocksize := by
  have hPos := dev.blocksize_pos
  have hLt := @lt_firstBlk_succ dev pos
  rw [skipOf]
  split
  · next h =>
    rw [Nat.mul_succ] at hLt
    rw [h]
    omega
  · exact hPos

theorem pos_le_start (hi : firstBlk dev pos ≤ i) : pos ≤ dev.blocksize * i + skipOf dev pos i := by
  have hMul := @firstBlk_mul dev pos
  rw [skipOf]
  split
  · next h =>
    rw [h]
    omega
  · next h =>
    have hLe := Nat.mul_le_mul_left dev.blocksize (show firstBlk dev pos + 1 ≤ i by omega)
    have hLt := @lt_firstBlk_succ dev pos
    omega

theorem skipOf_eq_zero (hi : firstBlk dev pos < i) : skipOf dev pos i = 0 :=
  if_neg (by omega)

theorem end_le : pos + len ≤ dev.blocksize * blkCount dev pos len := by
  have hPos := dev.blocksize_pos
  have hDiv := Nat.div_add_mod (len + pos + dev.blocksize - 1) dev.blocksize
  have hMod := Nat.mod_lt (len + pos + dev.blocksize - 1) hPos
  rw [blkCount]
  omega

theorem lt_end (hi : i < blkCount dev pos len) : dev.blocksize * i < pos + len := by
  have hPos := dev.blocksize_pos
  have hMul := Nat.mul_div_le (len + pos + dev.blocksize - 1) dev.blocksize
  have hLe := Nat.mul_le_mul_left dev.blocksize (show i + 1 ≤ blkCount dev pos len by omega)
  rw [Nat.mul_succ] at hLe
  rw [blkCount] at hLe
  omega

theorem endOf_of_lt (hi : i < blkCount dev pos len) : endOf dev pos len i = dev.blocksize * i :=
  if_neg (by omega)

theorem endOf_le : endOf dev pos len i ≤ dev.blocksize * i := by
  rw [endOf]
  split
  · next h => rw [h]; exact end_le
  · exact Nat.le_refl _

theorem start_le_end (hi : i < blkCount dev pos len) :
    dev.blocksize * i + skipOf dev pos i ≤ endOf dev pos len (i + 1) := by
  have hSkip := @skipOf_lt dev pos i
  have hEnd := lt_end hi
  have hMul : dev.blocksize * (i + 1) = dev.blocksize * i + dev.blocksize := Nat.mul_succ _ i
  rw [endOf]
  split
  · rw [skipOf]
    grind
  · omega

theorem blkCount_ge : firstBlk dev pos ≤ blkCount dev pos len :=
  Nat.div_le_div_right (by have := dev.blocksize_pos; omega)

theorem offOf_add_pos (hi : firstBlk dev pos ≤ i) :
    offOf dev pos i + pos = dev.blocksize * i + skipOf dev pos i :=
  Nat.sub_add_cancel (pos_le_start hi)

theorem sectPerBlk_eq : dev.blocksize / dev.sectSize = dev.sectPerBlk := by
  rw [dev.blocksize_eq, Nat.mul_div_cancel _ dev.sectSize_pos]

end

end Fire3.Ext4

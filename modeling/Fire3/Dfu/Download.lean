import Fire3.Base.Align
import Fire3.Base.ByteMemory

/-!
The DFU download to a raw area of an MMC card: `dfu_write` and `dfu_flush` of `drivers/dfu/dfu.c`
on `mmc_block_op` of `drivers/dfu/dfu_mmc.c`.

The chunks of a download are collected in a buffer. It is drained before a chunk that does not
fit any more, behind a chunk that could not be followed by another one of its size, behind an
empty chunk and at the end. A drain writes whole blocks and goes on behind them, so what fills
the last block of a drain is part of what the medium holds.
-/

namespace Fire3.Dfu
open ByteMemory Align

structure Area where
  lbaStart : Nat
  lbaSize : Nat
  lbaBlkSize : Nat
  hwPartition : Option Nat
  blkSize_pow : ∃ k ≤ 31, lbaBlkSize = 2 ^ k
  end_lt : lbaStart + lbaSize < 2 ^ 32

theorem sector_pow : ∃ k ≤ 31, 512 = 2 ^ k := ⟨9, by decide, rfl⟩

structure Mmc where
  partNum : Nat
  parts : Nat → Mem

structure Answers where
  found : Bool
  switchPart : Nat → Int
  written : Nat → Nat → Nat

/-- What a download goes to: the area, the device, and what `dfu_get_buf` finds, that is the
variable `dfu_bufsiz`, the limit of the entity and whether memory is left. -/
structure Target where
  area : Area
  answers : Answers
  bufsiz : Option Nat
  maxBufSize : Nat
  memalign : Bool

def dataBufSize : Nat := 1024 * 1024 * 8

def Target.newBufSize (t : Target) : Nat :=
  let size := match t.bufsiz with
    | none => dataBufSize
    | some n => if n = 0 then dataBufSize else n
  if t.maxBufSize ≠ 0 ∧ size > t.maxBufSize then t.maxBufSize else size

def Target.dfuGetBuf (t : Target) : Option Nat → Option Nat
  | some size => some size
  | none => if t.memalign then some t.newBufSize else none

def Mmc.write (mmc : Mmc) (part a : Nat) (bytes : List UInt8) : Mmc :=
  { mmc with parts := Function.update mmc.parts part (store (mmc.parts part) a bytes) }

namespace Target
variable (t : Target)

def mmcAccessPart (mmc : Mmc) (part : Nat) : Int × Mmc :=
  if part = mmc.partNum then (0, mmc)
  else
    let ret := t.answers.switchPart part
    if ret ≠ 0 then (ret, mmc) else (0, { mmc with partNum := part })

def blockWrite (mmc : Mmc) (start count : Nat) (buf : Mem) : Nat × Mmc :=
  let moved := min count (t.answers.written start count)
  (if moved = count then count else 0,
    mmc.write mmc.partNum (t.area.lbaBlkSize * start) (load buf 0 (t.area.lbaBlkSize * moved)))

/-- The transfer of `mmc_block_op` between the switches of the hardware partition. -/
def blockTransfer (mmc : Mmc) (start count : Nat) (buf : Mem) : Int × Mmc :=
  match t.area.hwPartition with
  | none =>
      let (n, mmc) := t.blockWrite mmc start count buf
      if n ≠ count then (-5, mmc) else (0, mmc)
  | some part =>
      let partNumBkp := mmc.partNum
      let (ret, mmc) := t.mmcAccessPart mmc part
      if ret ≠ 0 then (ret, mmc)
      else
        let (n, mmc) := t.blockWrite mmc start count buf
        if n ≠ count then (-5, (t.mmcAccessPart mmc partNumBkp).2)
        else t.mmcAccessPart mmc partNumBkp

/-- `mmc_block_op` for a write: the result, the length as it leaves it, and the card. -/
def mmcBlockOp (mmc : Mmc) (offset : Nat) (buf : Mem) (len : Nat) : Int × Nat × Mmc :=
  if !t.answers.found then (-19, len, mmc)
  else
    let len := align len t.area.lbaBlkSize
    let blkStart := (t.area.lbaStart + offset / t.area.lbaBlkSize % 2 ^ 32) % 2 ^ 32
    let blkCount := len / t.area.lbaBlkSize % 2 ^ 32
    if (blkStart + blkCount) % 2 ^ 32 > (t.area.lbaStart + t.area.lbaSize) % 2 ^ 32 then
      (-22, len, mmc)
    else
      let (ret, mmc) := t.blockTransfer mmc blkStart blkCount buf
      (ret, len, mmc)

end Target

structure Transfer where
  offset : Nat
  iBuf : Nat
  buf : Mem
  mmc : Mmc

/-- The state of a download in `struct dfu_entity`; `iBufEnd` counts from `i_buf_start`, and
`dfuBuf` is the size of `dfu_buf` if there is one. -/
structure DfuEntity extends Transfer where
  iBufEnd : Nat
  iBlkSeqNum : Nat
  inited : Bool
  dfuBuf : Option Nat

def dfuWriteBufferDrain (t : Target) (x : Transfer) : Int × Transfer :=
  if x.iBuf = 0 then (0, x)
  else
    let (ret, wSize, mmc) := t.mmcBlockOp x.mmc x.offset x.buf x.iBuf
    (ret, { x with iBuf := 0, offset := (x.offset + wSize) % 2 ^ 64, mmc := mmc })

def dfuWriteTransactionCleanup (s : DfuEntity) : DfuEntity :=
  { s with offset := 0, iBlkSeqNum := 0, iBufEnd := 0, iBuf := 0, inited := false }

def dfuFlush (t : Target) (s : DfuEntity) : Int × DfuEntity :=
  let (ret, x) := dfuWriteBufferDrain t s.toTransfer
  if ret ≠ 0 then (ret, { s with toTransfer := x })
  else (0, dfuWriteTransactionCleanup { s with toTransfer := x })

def orCleanup (s : DfuEntity) (r : Int × Transfer) (next : DfuEntity → Int × DfuEntity) :
    Int × DfuEntity :=
  if r.1 ≠ 0 then (r.1, dfuWriteTransactionCleanup { s with toTransfer := r.2 })
  else next { s with toTransfer := r.2 }

def dfuInit (t : Target) (s : DfuEntity) : Option DfuEntity :=
  if s.inited then some s
  else (t.dfuGetBuf s.dfuBuf).map fun size =>
    { s with offset := 0, iBlkSeqNum := 0, iBufEnd := size, iBuf := 0, inited := true,
             dfuBuf := some size }

/-- `dfu_write` behind its initialisation and the check of the sequence number. -/
def dfuFill (t : Target) (s : DfuEntity) (chunk : List UInt8) : Int × DfuEntity :=
  let size := chunk.length
  let room := if s.iBuf + size > s.iBufEnd then dfuWriteBufferDrain t s.toTransfer
    else (0, s.toTransfer)
  orCleanup s room fun s =>
    if s.iBuf + size > s.iBufEnd then (-1, dfuWriteTransactionCleanup s)
    else
      let s := { s with buf := store s.buf s.iBuf chunk, iBuf := s.iBuf + size }
      let full := if size = 0 ∨ s.iBuf + size > s.iBufEnd then dfuWriteBufferDrain t s.toTransfer
        else (0, s.toTransfer)
      orCleanup s full fun s => (0, s)

def dfuWrite (t : Target) (s : DfuEntity) (chunk : List UInt8) (blkSeqNum : Nat) :
    Int × DfuEntity :=
  match dfuInit t s with
  | none => (-12, s)
  | some s =>
      if s.iBlkSeqNum ≠ blkSeqNum then (-1, dfuWriteTransactionCleanup s)
      else dfuFill t { s with iBlkSeqNum := (s.iBlkSeqNum + 1) &&& 0xffff } chunk

/-- The calls for the chunks of a download from block number `blkSeqNum` on, and the flush. A
failed call ends the download. -/
def download (t : Target) : List (List UInt8) → Nat → DfuEntity → Int × DfuEntity
  | [], _, s => dfuFlush t s
  | chunk :: chunks, blkSeqNum, s =>
      let (ret, s) := dfuWrite t s chunk blkSeqNum
      if ret ≠ 0 then (ret, s) else download t chunks ((blkSeqNum + 1) % 65536) s

end Fire3.Dfu

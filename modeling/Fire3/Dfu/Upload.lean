import Fire3.Dfu.Drain

/-!
The DFU upload of a raw area: `dfu_read` and `dfu_read_buffer_fill` of `drivers/dfu/dfu.c`, on the
read side of `mmc_block_op` and on `dfu_get_medium_size_mmc` of `drivers/dfu/dfu_mmc.c`.

A request is answered from the buffer, which is filled from the medium each time it is empty. The
size of the medium is a product of two 32-bit numbers, and of 32 bits itself.
-/

namespace Fire3.Dfu
open ByteMemory Align

structure ReadTarget extends Target where
  given : Nat → Nat → Nat

structure UploadEntity extends DfuEntity where
  rLeft : Int
  bLeft : Int

namespace ReadTarget
variable (t : ReadTarget)

def blockRead (mmc : Mmc) (start count : Nat) (buf : Mem) : Nat × Mem :=
  let moved := min count (t.given start count)
  (if moved = count then count else 0,
    store buf 0 (load (mmc.parts mmc.partNum) (t.area.lbaBlkSize * start)
      (t.area.lbaBlkSize * moved)))

/-- The transfer of `mmc_block_op` between the switches of the hardware partition. -/
def blockFetch (mmc : Mmc) (start count : Nat) (buf : Mem) : Int × Mmc × Mem :=
  match t.area.hwPartition with
  | none =>
      let (n, buf) := t.blockRead mmc start count buf
      if n ≠ count then (-5, mmc, buf) else (0, mmc, buf)
  | some part =>
      let partNumBkp := mmc.partNum
      let (ret, mmc) := t.mmcAccessPart mmc part
      if ret ≠ 0 then (ret, mmc, buf)
      else
        let (n, buf) := t.blockRead mmc start count buf
        if n ≠ count then (-5, (t.mmcAccessPart mmc partNumBkp).2, buf)
        else
          let (ret, mmc) := t.mmcAccessPart mmc partNumBkp
          (ret, mmc, buf)

/-- `mmc_block_op` for a read: the result, the length as it leaves it, the card and the buffer. -/
def mmcBlockOpRead (mmc : Mmc) (offset : Nat) (buf : Mem) (len : Nat) : Int × Nat × Mmc × Mem :=
  if !t.answers.found then (-19, len, mmc, buf)
  else
    let len := align len t.area.lbaBlkSize
    let blkStart := (t.area.lbaStart + offset / t.area.lbaBlkSize % 2 ^ 32) % 2 ^ 32
    let blkCount := len / t.area.lbaBlkSize % 2 ^ 32
    if (blkStart + blkCount) % 2 ^ 32 > (t.area.lbaStart + t.area.lbaSize) % 2 ^ 32 then
      (-22, len, mmc, buf)
    else
      let (ret, mmc, buf) := t.blockFetch mmc blkStart blkCount buf
      (ret, len, mmc, buf)

def dfuGetMediumSize : Nat := t.area.lbaSize * t.area.lbaBlkSize % 2 ^ 32

end ReadTarget

/-- The buffer is empty and `size` bytes are missing: read into it. -/
def refill (t : ReadTarget) (s : UploadEntity) : Int × UploadEntity :=
  let bLeft := if (s.iBufEnd : Int) > s.rLeft then s.rLeft else s.iBufEnd
  let (ret, len, mmc, buf) := t.mmcBlockOpRead s.mmc s.offset s.buf bLeft.toNat
  let s := { s with iBuf := 0, bLeft := len, mmc := mmc, buf := buf }
  if ret ≠ 0 then (ret, s)
  else (0, { s with offset := (s.offset + len) % 2 ^ 64, rLeft := s.rLeft - len })

/-- The loop of `dfu_read_buffer_fill`: the result if it ends within `fuel` turns, with the state
and the bytes that were copied. -/
def dfuReadBufferFill (t : ReadTarget) :
    Nat → UploadEntity → Nat → List UInt8 → Option (Int × UploadEntity × List UInt8)
  | 0, _, _, _ => none
  | fuel + 1, s, size, got =>
      if size = 0 then some (got.length, s, got)
      else
        let chunk := (min (size : Int) s.bLeft).toNat
        let got := got ++ load s.buf s.iBuf chunk
        let s := { s with iBuf := s.iBuf + chunk, bLeft := s.bLeft - chunk }
        let size := size - chunk
        if size = 0 then dfuReadBufferFill t fuel s 0 got
        else if s.rLeft = 0 then some (got.length, s, got)
        else
          let (ret, s) := refill t s
          if ret ≠ 0 then some (ret, s, got) else dfuReadBufferFill t fuel s size got

def uploadInit (t : ReadTarget) (s : UploadEntity) : Option UploadEntity :=
  if s.inited then some s
  else (t.dfuGetBuf s.dfuBuf).map fun size =>
    { s with offset := 0, iBlkSeqNum := 0, iBufEnd := size, iBuf := 0, inited := true,
             dfuBuf := some size, rLeft := t.dfuGetMediumSize, bLeft := 0 }

def uploadDone (s : UploadEntity) : UploadEntity :=
  { s with offset := 0, iBlkSeqNum := 0, iBufEnd := 0, iBuf := 0, inited := false, bLeft := 0 }

def dfuRead (t : ReadTarget) (s : UploadEntity) (size blkSeqNum : Nat) :
    Option (Int × UploadEntity × List UInt8) :=
  match uploadInit t s with
  | none => some (-12, s, [])
  | some s =>
      if s.iBlkSeqNum ≠ blkSeqNum then some (-1, s, [])
      else
        let s := { s with iBlkSeqNum := (s.iBlkSeqNum + 1) &&& 0xffff }
        (dfuReadBufferFill t (size + 2) s size []).map fun (ret, s, got) =>
          if ret < 0 then (-1, s, got)
          else if ret < size then (ret, uploadDone s, got)
          else (ret, s, got)

/-- The answers to requests from block number `blkSeqNum` on, up to the first short one, and the
state behind them; none if a request fails. -/
def upload (t : ReadTarget) : List Nat → Nat → UploadEntity → Option (List (List UInt8) × UploadEntity)
  | [], _, s => some ([], s)
  | size :: sizes, blkSeqNum, s =>
      (dfuRead t s size blkSeqNum).bind fun (ret, s, got) =>
        if ret < 0 then none
        else if ret < size then some ([got], s)
        else (upload t sizes ((blkSeqNum + 1) % 65536) s).map fun (answers, s) => (got :: answers, s)

end Fire3.Dfu

import Fire3.Ext4.SparseWrite
import Fire3.Fdisk.Reader

/-!
The command `ext4_img_write` of `common/cmd_ext4_img_write.c`, with its callback
`write_raw_chunk`, and the requests it hands to `mmc_bwrite`.

A compressed image is written by `mmc write` commands whose results are not looked at, any
other image by one call of `mmc_bwrite` whose result the command returns.
-/

namespace Fire3.Ext4Img
open ByteMemory Block

/-- `run_command` with the hush parser, on the result of the command: a result below -1 is
taken for the `exit` of a script. -/
def runCommand (result : Int) : Int := if result < -1 then 0 else if result ≠ 0 then 1 else 0

theorem runCommand_nonneg (result : Int) : 0 ≤ runCommand result := by
  grind [runCommand]

structure Request where
  sector : Nat
  count : Nat
  data : Nat
  deriving DecidableEq, Repr

def writeSector : Nat := 65536

/-- The loop of `write_raw_chunk` for data that is not aligned: every turn copies from the
start of the data again. -/
def pieces (data : Nat) : Nat → Nat → Nat → List Request
  | 0, _, _ => []
  | fuel + 1, sector, sectorSize =>
      if sectorSize > writeSector then
        ⟨sector, writeSector, data⟩ ::
          pieces data fuel ((sector + writeSector) % 2 ^ 32) (sectorSize - writeSector)
      else [⟨sector, sectorSize, data⟩]

def writeRawChunk (data sector sectorSize : Nat) : List Request :=
  if data % 8 ≠ 0 then pieces data (sectorSize / writeSector + 1) sector sectorSize
  else [⟨sector, sectorSize, data % 2 ^ 32⟩]

def chunkRequests (img : Mem) (blockSize : Nat) : Nat → Nat → Nat → List Request
  | 0, _, _ => []
  | totalChunks + 1, imgBase, sectorBase =>
      let sectorSize := readLE img (imgBase + 4) 4 * blockSize % 2 ^ 32 / 2 ^ 9
      let requests := match chunkType (readLE img imgBase 2) with
        | .raw => writeRawChunk (imgBase + 12) sectorBase sectorSize
        | .fill | .none | .unknown => []
      requests ++ chunkRequests img blockSize totalChunks (imgBase + readLE img (imgBase + 8) 4)
        ((sectorBase + sectorSize) % 2 ^ 32)

def compressedRequests (img : Mem) (imgBase sectorBase : Nat) : List Request :=
  chunkRequests img (readLE img (imgBase + 12) 4) (readLE img (imgBase + 20) 4) (imgBase + 28)
    sectorBase

def Request.apply (img : Mem) (dev : Mem) (r : Request) : Mem :=
  store dev (512 * r.sector) (load img r.data (512 * r.count))

theorem writeLoop_writeRawChunk (img : Mem) (blockSize n imgBase sectorBase : Nat) (dev : Mem) :
    writeLoop (fun dev img data sector size =>
        (writeRawChunk data sector size).foldl (Request.apply img) dev)
      img blockSize n imgBase sectorBase dev =
      (chunkRequests img blockSize n imgBase sectorBase).foldl (Request.apply img) dev := by
  induction n generalizing imgBase sectorBase dev with
  | zero => rfl
  | succ n ih =>
      rw [writeLoop, chunkRequests]
      grind

structure ImgArgs where
  memAddr : UInt32
  dstAddr : UInt64
  memLen : UInt64

namespace ImgArgs

def partno (args : ImgArgs) : Int := toS32 (args.dstAddr.toNat % 2 ^ 32)

def cnt (args : ImgArgs) : Nat :=
  args.memLen.toNat / 512 + if args.memLen.toNat % 512 ≠ 0 then 1 else 0

end ImgArgs

structure ImgRun where
  requests : List Request
  result : Option Int

def doWrite (mmc : Mmc) (budget : Budget) (img : Mem) (args : ImgArgs) (blk : Nat) : ImgRun :=
  if blk = 0 then ⟨[], some (-1)⟩
  else
    ⟨[⟨blk, args.cnt, args.memAddr.toNat⟩], some (toS32
      ((mmcBwrite mmc blk args.cnt budget img args.memAddr.toNat).1 % 2 ^ 32))⟩

def writePartition (mmc : Mmc) (budget : Budget) (img : Mem) (args : ImgArgs)
    (part : Fdisk.Part) : ImgRun :=
  let blk := part.start / 512
  match checkCompressExt4 img args.memAddr.toNat part.length with
  | none => ⟨[], none⟩
  | some 0 => ⟨compressedRequests img args.memAddr.toNat (blk % 2 ^ 32), some 1⟩
  | some _ => doWrite mmc budget img args blk

/-- `do_compressed_ext4_write` with all arguments: `found` tells whether the device is there,
`mmcDev` is the result of `mmc dev`, `depth` bounds the recursion over extended partitions, and
`budget` is what the card takes of a raw image. -/
def doCompressedExt4Write (found : Bool) (mmcDev : Int) (mmc : Mmc) (depth : Nat) (budget : Budget)
    (img : Mem) (args : ImgArgs) : ImgRun :=
  if !found then ⟨[], some 1⟩
  else if runCommand mmcDev < 0 then ⟨[], some (-1)⟩
  else
    match Fdisk.getPartTable mmc depth with
    | none => ⟨[], none⟩
    | some parts =>
        if args.partno > parts.length ∨ 1 > args.partno then ⟨[], some 1⟩
        else
          match parts[args.partno.toNat - 1]? with
          | none => ⟨[], some 1⟩
          | some part => writePartition mmc budget img args part

def Target (mmc : Mmc) (depth : Nat) (args : ImgArgs) (part : Fdisk.Part) : Prop :=
  ∃ parts, Fdisk.getPartTable mmc depth = some parts ∧ 1 ≤ args.partno ∧
    parts[args.partno.toNat - 1]? = some part

theorem doCompressedExt4Write_eq {mmc : Mmc} {depth : Nat} {args : ImgArgs} {part : Fdisk.Part}
    (hTarget : Target mmc depth args part) (mmcDev : Int) (budget : Budget) (img : Mem) :
    doCompressedExt4Write true mmcDev mmc depth budget img args =
      writePartition mmc budget img args part := by
  obtain ⟨parts, hTable, hNumber, hPart⟩ := hTarget
  have hDev := runCommand_nonneg mmcDev
  have hLength := (List.getElem?_eq_some_iff.mp hPart).1
  rw [doCompressedExt4Write, if_neg (by decide), if_neg (by omega), hTable]
  dsimp only
  rw [if_neg (by omega), hPart]

end Fire3.Ext4Img

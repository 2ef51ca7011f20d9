import Fire3.Fastboot.PartMap
import Fire3.Fastboot.SparseTrace

/-!
Flashing a partition of the map: `mmc_part_write` and `fb_flash_write_based_partmap` of
`drivers/usb/gadget/f_fastboot.c`.

The answers of the card are given from outside. `run_command` reports a failed command by 1
and `mmc_bwrite` a failed write by 0, so none of the tests for a negative result sees
either; only a device that is not found and a partition table that cannot be made count.
-/

namespace Fire3.Fastboot
open CString

/-- What one call of `mmc_part_write` meets: whether the device is found behind the commands that
select it, the device that `mmc write` goes to, the length that the partition table has for the
entry (none if the table cannot be read or made), and whether the write succeeds. -/
structure Answer where
  found : Bool
  current : Int
  table : Option Nat
  done : Bool
  deriving DecidableEq, Repr

structure Request where
  dev : Int
  blk : Nat
  cnt : Nat
  deriving DecidableEq, Repr

structure ImageWrite where
  dev : Int
  partNum : Option Nat
  length : Nat
  deriving DecidableEq, Repr

/-- The result of `write_part`: the value returned, the entry behind it and what the card was asked
to write. -/
structure PartWrite where
  ret : Int
  part : FlashPart
  request : Option Request
  image : Option ImageWrite
  deriving DecidableEq, Repr

def blkSize : Nat := 512

def blkCount (length : Nat) : Nat := length / blkSize + if length % blkSize ≠ 0 then 1 else 0

theorem blkCount_eq (bytes : Nat) : blkCount bytes = (bytes + 511) / blkSize := by
  unfold blkCount blkSize
  split <;> omega

def FsType.bootArea : FsType → Bool
  | .secondBoot | .boot | .env => true
  | _ => false

def mmcPartWrite (isDivDl : Bool) (a : Answer) (fp : FlashPart) (length : Nat) : PartWrite :=
  let bwrite : Request := ⟨fp.devNo, fp.start / blkSize, blkCount length⟩
  if !a.found then ⟨-1, fp, none, none⟩
  else if isDivDl then ⟨0, { fp with start := (fp.start + length) % 2 ^ 64 }, some bwrite, none⟩
  else if fp.fsType.bootArea then
    -- the command has 32 bits for the block and the count
    ⟨if a.done then 0 else 1, fp, some ⟨a.current, bwrite.blk % 2 ^ 32, bwrite.cnt % 2 ^ 32⟩, none⟩
  else if fp.fsType.inMask then
    match a.table with
    | none => ⟨-1, fp, none, none⟩
    | some size =>
        let fp := { fp with length := if fp.length = 0 then size else fp.length }
        if fp.fsType = .ext4 then
          ⟨if a.done then 0 else 1, fp, none, some ⟨fp.devNo, fp.partNum, length % 2 ^ 32⟩⟩
        else ⟨0, fp, some bwrite, none⟩
  else ⟨0, fp, some bwrite, none⟩

theorem mmcPartWrite_split (a : Answer) (fp : FlashPart) (length : Nat) :
    mmcPartWrite true a fp length =
      if a.found then
        ⟨0, { fp with start := (fp.start + length) % 2 ^ 64 },
          some ⟨fp.devNo, fp.start / blkSize, blkCount length⟩, none⟩
      else ⟨-1, fp, none, none⟩ := by
  unfold mmcPartWrite
  cases a.found <;> rfl

def responseLen : Nat := 65

def fastbootFail (_response reason : CStr) : CStr := ascii "FAIL" ++ reason.take (responseLen - 4 - 1)

def fastbootOkay (_response reason : CStr) : CStr := ascii "OKAY" ++ reason.take (responseLen - 4 - 1)

def flashEntry (isDivDl : Bool) (a : Answer) (cmd : CStr) (downloadBytes : Nat) (fp : FlashPart)
    (response : CStr) : PartWrite × CStr :=
  if fp.partition = cmd then
    let response :=
      if downloadBytes > fp.length ∧ fp.length ≠ 0 then
        fastbootFail (ascii "FAIL image too large") (ascii "cannot find partition")
      else response
    let w := mmcPartWrite isDivDl a fp downloadBytes
    let response := if w.ret < 0 then ascii "FAIL to flash" else response
    (w, fastbootOkay response [])
  else (⟨0, fp, none, none⟩, response)

def fbFlashWriteBasedPartmap (isDivDl : Bool) (a : Answer) (cmd : CStr) (downloadBytes : Nat) :
    List FlashPart → CStr → List PartWrite × CStr
  | [], response => ([], response)
  | fp :: parts, response =>
      let (w, response) := flashEntry isDivDl a cmd downloadBytes fp response
      let (ws, response) := fbFlashWriteBasedPartmap isDivDl a cmd downloadBytes parts response
      (w :: ws, response)

section
variable (isDivDl : Bool) (a : Answer) (cmd : CStr) (bytes : Nat)

theorem flashEntry_write (fp : FlashPart) (response : CStr) :
    (flashEntry isDivDl a cmd bytes fp response).1 =
      if fp.partition = cmd then mmcPartWrite isDivDl a fp bytes else ⟨0, fp, none, none⟩ := by
  unfold flashEntry
  split <;> rfl

theorem writes_of_parts (parts : List FlashPart) (response : CStr) :
    (fbFlashWriteBasedPartmap isDivDl a cmd bytes parts response).1 =
      parts.map fun fp => (flashEntry isDivDl a cmd bytes fp []).1 := by
  induction parts generalizing response with
  | nil => rfl
  | cons fp parts ih =>
      have hFirst : (flashEntry isDivDl a cmd bytes fp response).1 =
          (flashEntry isDivDl a cmd bytes fp []).1 := by
        rw [flashEntry_write, flashEntry_write]
      grind [fbFlashWriteBasedPartmap]

end

/-!
`fb_mmc_flash_write` of `common/fb_mmc.c`: flashing a partition of the GPT when there is no
partition map.

The result of `store_sparse_image` is not looked at, and a raw image that does not fit or is
not written is reported in a response that is overwritten at the end.
-/

open ByteMemory

/-- `disk_partition_t`, as far as it is used. -/
structure DiskPartition where
  start : Nat
  size : Nat
  blksz : Nat
  deriving DecidableEq, Repr

/-- What the card with the GPT answers: whether it is there, the partition of a name, the alias
of a name in the environment, whether a new table is valid and is written, and whether block
write number `k` succeeds. -/
structure GptCard where
  present : Bool
  info : CStr → Option DiskPartition
  aliased : CStr → Option CStr
  tableValid : Bool
  tableWritten : Bool
  ok : Nat → Bool

/-- `get_partition_info_efi_by_name_or_alias`; only 32 characters of the name are looked up
for an alias. -/
def partitionByNameOrAlias (card : GptCard) (name : CStr) : Option DiskPartition :=
  match card.info name with
  | some info => some info
  | none => (card.aliased (ascii "fastboot_partition_alias_" ++ name.take 32)).bind card.info

def rawBlkcnt (info : DiskPartition) (downloadBytes : Nat) : Nat :=
  (downloadBytes + (info.blksz - 1)) / info.blksz

/-- What the card is asked to write: the tables, the blocks of a raw image, or those of a sparse
image, with the result of `store_sparse_image`. -/
inductive MmcWrite
  | tables
  | raw (blk cnt : Nat)
  | sparse (writes : List (Nat × List UInt8)) (ret : Int)
  deriving DecidableEq, Repr

def writeRawImage (card : GptCard) (info : DiskPartition) (downloadBytes : Nat) (response : CStr) :
    CStr × Option MmcWrite :=
  let blkcnt := rawBlkcnt info downloadBytes
  if blkcnt > info.size then (fastbootFail response (ascii "too large for partition"), none)
  else if blkcnt ≠ 0 ∧ card.ok 0 = false then
    (fastbootFail response (ascii "failed writing to device"), some (.raw info.start blkcnt))
  else (fastbootOkay response [], some (.raw info.start blkcnt))

def DiskPartition.storage (info : DiskPartition) : SparseStorage :=
  ⟨info.blksz, info.start % 2 ^ 32, info.size % 2 ^ 32⟩

/-- The image is written by the one or the other function; `last_offset` is that of the
session. -/
def storeImage (card : GptCard) (info : DiskPartition) (sessionId lastOffset : Nat) (img : Mem)
    (downloadBytes : Nat) (response : CStr) : CStr × Option MmcWrite :=
  if isSparseImage img then
    let r := storeSparseImage card.ok info.storage sessionId lastOffset img
    (response, some (.sparse r.1 r.2))
  else writeRawImage card info downloadBytes response

def fbMmcFlashWrite (card : GptCard) (cmd : CStr) (sessionId lastOffset : Nat) (img : Mem)
    (downloadBytes : Nat) (response : CStr) : CStr × Option MmcWrite :=
  if !card.present then (fastbootFail response (ascii "invalid mmc device"), none)
  else if cmd = ascii "gpt" then
    if !card.tableValid then (fastbootFail response (ascii "invalid GPT partition"), none)
    else if !card.tableWritten then
      (fastbootFail response (ascii "writing GPT partitions failed"), some .tables)
    else (fastbootOkay response [], some .tables)
  else
    match partitionByNameOrAlias card cmd with
    | none => (fastbootFail response (ascii "cannot find partition"), none)
    | some info =>
        let (response, write) := storeImage card info sessionId lastOffset img downloadBytes response
        (fastbootOkay response [], write)

/-- The card has taken all that is to be written: the tables, the `downloadBytes` bytes of a raw
image from the start of the partition on, or all pieces of a sparse one. -/
def MmcWrite.stored (card : GptCard) (cmd : CStr) (img : Mem) (downloadBytes : Nat) :
    MmcWrite → Bool
  | .tables => card.tableWritten
  | .raw blk cnt =>
      (partitionByNameOrAlias card cmd).any fun info =>
        blk = info.start && cnt = rawBlkcnt info downloadBytes && (cnt = 0 || card.ok 0)
  | .sparse writes ret =>
      ret = 0 && (List.range writes.length).all card.ok &&
        (partitionByNameOrAlias card cmd).any fun info =>
          sparsePieces info.storage img = some (writes.map Prod.snd)

end Fire3.Fastboot

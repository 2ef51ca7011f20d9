import Fire3.Base.CString
import Fire3.Base.Records

/-!
Reading a GUID partition table: `is_gpt_valid` and `get_partition_info_efi` of `disk/part_efi.c`.

The header is read into a buffer on the stack, the entries into a buffer of the size that the
header gives. A read outside of a buffer has no result here.
-/

namespace Fire3.Gpt
open ByteMemory CString

def crcTable (n : UInt32) : UInt32 :=
  (List.range 8).foldl
    (fun c _ => if c &&& 1 = 1 then (0xedb88320 : UInt32) ^^^ (c >>> 1) else c >>> 1) n

def crc32 (crc : UInt32) (buf : List UInt8) : UInt32 :=
  buf.foldl (fun crc x => crcTable ((crc ^^^ x.toUInt32) &&& 255) ^^^ (crc >>> 8))
    (crc ^^^ 0xffffffff) ^^^ 0xffffffff

def efiCrc32 (buf : List UInt8) : Nat := (crc32 0 buf).toNat

structure BlockDev where
  lba : Nat
  log2blksz : Nat
  contents : Mem
  reads : Nat → Nat → Bool
  writes : Nat → Nat → Bool

def BlockDev.blksz (dev : BlockDev) : Nat := 2 ^ dev.log2blksz

def BlockDev.blockRead (dev : BlockDev) (start blkcnt : Nat) : Option (List UInt8) :=
  if dev.reads start blkcnt then
    some (load dev.contents (start * dev.blksz) (blkcnt * dev.blksz))
  else none

def padCount (s pad : Nat) : Nat := (s - 1) / pad + 1

def padSize (s pad : Nat) : Nat := padCount s pad * pad

/-! The fields of `gpt_header`, of 92 bytes. -/

def signature (h : Mem) : Nat := readLE h 0 8

def headerSize (h : Mem) : Nat := readLE h 12 4

def headerCrc32 (h : Mem) : Nat := readLE h 16 4

def myLba (h : Mem) : Nat := readLE h 24 8

def firstUsableLba (h : Mem) : Nat := readLE h 40 8

def lastUsableLba (h : Mem) : Nat := readLE h 48 8

def partitionEntryLba (h : Mem) : Nat := readLE h 72 8

def numPartitionEntries (h : Mem) : Nat := readLE h 80 4

def sizeofPartitionEntry (h : Mem) : Nat := readLE h 84 4

def partitionEntryArrayCrc32 (h : Mem) : Nat := readLE h 88 4

def gptHeaderSignature : Nat := 0x5452415020494645

def headerBufSize (dev : BlockDev) : Nat := (padSize 92 dev.blksz + 63) / 64 * 64

def headerCrc (h : Mem) : Nat := efiCrc32 (load (store h 16 [0, 0, 0, 0]) 0 (headerSize h))

def validateGptHeader (size : Nat) (h : Mem) (lba lastlba : Nat) : Option Bool :=
  if signature h ≠ gptHeaderSignature then some false
  else if size < headerSize h then none
  else if headerCrc h ≠ headerCrc32 h then some false
  else if myLba h ≠ lba then some false
  else if firstUsableLba h > lastlba then some false
  else if lastUsableLba h > lastlba then some false
  else some true

def entriesSize (h : Mem) : Nat := numPartitionEntries h * sizeofPartitionEntry h % 2 ^ 32

def slice (buf : List UInt8) (off len : Nat) : Option (List UInt8) :=
  if off + len ≤ buf.length then some ((buf.drop off).take len) else none

def validateGptEntries (h : Mem) (pte : List UInt8) : Option Bool :=
  (slice pte 0 (entriesSize h)).map fun bytes => efiCrc32 bytes = partitionEntryArrayCrc32 h

structure Memory where
  stack : Mem
  memalign : Nat → Bool

def allocReadGptEntries (m : Memory) (dev : BlockDev) (h : Mem) : Option (List UInt8) :=
  let count := entriesSize h
  if count = 0 ∨ m.memalign (padSize count dev.blksz) = false then none
  else dev.blockRead (partitionEntryLba h) (padCount count dev.blksz)

def validateTable (m : Memory) (dev : BlockDev) (lba : Nat) (h : Mem) :
    Option (Mem × Option (List UInt8)) :=
  match validateGptHeader (headerBufSize dev) h lba dev.lba with
  | none => none
  | some false => some (h, none)
  | some true =>
      match allocReadGptEntries m dev h with
      | none => some (h, none)
      | some pte => (validateGptEntries h pte).map fun ok => (h, if ok then some pte else none)

def isGptValid (m : Memory) (dev : BlockDev) (lba : Nat) (h : Mem) :
    Option (Mem × Option (List UInt8)) :=
  match dev.blockRead lba 1 with
  | none => some (h, none)
  | some block => validateTable m dev lba (store h 0 block)

def isPrint (c : UInt8) : Bool := (32 ≤ c && c ≤ 126) || 160 ≤ c

def printEfiname (pte : List UInt8) : CStr :=
  ofArray ((List.range 36).map fun i =>
    let c := pte.getD (56 + 2 * i) 0
    if c ≠ 0 ∧ isPrint c = false then 46 else c)

def uuidBinToStr (uuid : List UInt8) : CStr :=
  let hex (n : Nat) : UInt8 := if n < 10 then UInt8.ofNat (48 + n) else UInt8.ofNat (87 + n)
  [3, 2, 1, 0, 5, 4, 7, 6, 8, 9, 10, 11, 12, 13, 14, 15].zipIdx.flatMap fun p =>
    let b := (uuid.getD p.1 0).toNat
    [hex (b / 16), hex (b % 16)] ++ if p.2 = 3 ∨ p.2 = 5 ∨ p.2 = 7 ∨ p.2 = 9 then [45] else []

def systemGuid : List UInt8 :=
  [0x28, 0x73, 0x2a, 0xc1, 0x1f, 0xf8, 0xd2, 0x11, 0xba, 0x4b, 0x00, 0xa0, 0xc9, 0x3e, 0xc9, 0x3b]

def isBootable (pte : List UInt8) : Bool :=
  (pte.getD 48 0).toNat.testBit 2 || pte.take 16 == systemGuid

/-- `disk_partition_t` as `get_partition_info_efi` fills it; `name` is the string at the field of
this name. -/
structure DiskPartition where
  start : Nat
  size : Nat
  blksz : Nat
  name : CStr
  bootable : Bool
  uuid : CStr
  deriving DecidableEq

/-- The string at `info->name`: its array has 32 bytes, and the text "U-Boot" is written behind
them after the name. -/
def infoName (name : CStr) : CStr :=
  if name.length < 32 then name else name.take 32 ++ ascii "U-Boot"

def fillInfo (dev : BlockDev) (pte : List UInt8) : DiskPartition :=
  let start := leValue ((pte.drop 32).take 8)
  let ending := leValue ((pte.drop 40).take 8)
  { start
    size := (ending + 1 + (2 ^ 64 - start)) % 2 ^ 64
    blksz := dev.blksz
    name := infoName (printEfiname pte)
    bootable := isBootable pte
    uuid := uuidBinToStr ((pte.drop 16).take 16) }

/-- An entry of the buffer, checked with `is_pte_valid` first. -/
def getEntry (dev : BlockDev) (pte : List UInt8) (i : Nat) : Option (Option DiskPartition) :=
  match slice pte (128 * i) 16 with
  | none => none
  | some guid =>
      if guid = List.replicate 16 0 then some none
      else (slice pte (128 * i) 128).map fun e => some (fillInfo dev e)

def useEntries (dev : BlockDev) (h : Mem) (pte : List UInt8) (i : Nat) :
    Option (Option DiskPartition) :=
  if numPartitionEntries h ≤ i then some none else getEntry dev pte i

def BlockDev.lastLba (dev : BlockDev) : Nat := (dev.lba + (2 ^ 64 - 1)) % 2 ^ 64

def getPartitionInfoEfi (m : Memory) (dev : BlockDev) (part : Int) :
    Option (Option DiskPartition) :=
  if part < 1 then some none
  else
    let i := part.toNat - 1
    match isGptValid m dev 1 m.stack with
    | none => none
    | some (h, some pte) => useEntries dev h pte i
    | some (h, none) =>
        match isGptValid m dev dev.lastLba h with
        | none => none
        | some (_, none) => some none
        | some (h, some pte) => useEntries dev h pte i

/-!
Writing a GUID partition table: `gpt_restore` of `disk/part_efi.c`, and the comparison of a table
with a list of partitions, `gpt_verify_partitions`.
-/

open Records

/-- `disk_partition_t` as a caller fills it: the array of 32 bytes of its name, and its start and
size in words of 64 bits. -/
structure Request where
  start : Nat
  size : Nat
  name : List UInt8
  uuid : CStr
  bootable : Bool
  start_lt : start < 2 ^ 64
  size_lt : size < 2 ^ 64
  name_length : name.length = 32

def uuidStrValid (uuid : CStr) : Bool :=
  uuid.length = 36 &&
    uuid.zipIdx.all fun p => if p.2 ∈ [8, 13, 18, 23] then p.1 = 45 else isXDigit p.1

inductive StrFormat
  | std
  | guid
  deriving DecidableEq

def uuidStrToBin (uuid : CStr) (format : StrFormat) : Option (List UInt8) :=
  if uuidStrValid uuid then
    let be (w pos : Nat) : List UInt8 := (leBytes w (simpleStrtoul (uuid.drop pos) 16)).reverse
    let field (w pos : Nat) : List UInt8 :=
      match format with
      | .std => be w pos
      | .guid => leBytes w (simpleStrtoul (uuid.drop pos) 16)
    some (field 4 0 ++ field 2 9 ++ field 2 14 ++ be 2 19 ++ be 6 24)
  else none

def basicDataGuid : List UInt8 :=
  [0xa2, 0xa0, 0xd0, 0xeb, 0xe5, 0xb9, 0x33, 0x44, 0x87, 0xc0, 0x68, 0xb6, 0xb7, 0x26, 0x99, 0xc7]

def efiName (name : List UInt8) : List UInt8 :=
  (List.range 36).flatMap fun k => [if k < 32 then name.getD k 0 else 0, 0]

def entryBytes (uuid : List UInt8) (starting ending : Nat) (p : Request) : List UInt8 :=
  basicDataGuid ++ uuid ++ leBytes 8 starting ++ leBytes 8 ending ++
    leBytes 8 (if p.bootable then 4 else 0) ++ efiName p.name

def Request.starting (p : Request) (offset : Nat) : Nat := if p.start ≠ 0 then p.start else offset

/-- The last block of a partition that ends before `next`; the last partition takes the rest if it
has no size. -/
def Request.ending (p : Request) (lastUsable next : Nat) (last : Bool) : Nat :=
  if last ∧ p.size = 0 then lastUsable else (next + (2 ^ 64 - 1)) % 2 ^ 64

def gptFillPte (lastUsable : Nat) : Nat → List Request → Option (List (List UInt8))
  | _, [] => some []
  | offset, p :: ps =>
      if p.start ≠ 0 ∧ p.start < offset then none
      else
        let starting := p.starting offset
        let offset := (starting + p.size) % 2 ^ 64
        if lastUsable ≤ offset then none
        else
          match uuidStrToBin p.uuid .std with
          | none => none
          | some uuid =>
              (gptFillPte lastUsable offset ps).map fun es =>
                entryBytes uuid starting (p.ending lastUsable offset ps.isEmpty) p :: es

structure GptHeader where
  headerCrc32 : Nat
  myLba : Nat
  alternateLba : Nat
  lastUsableLba : Nat
  diskGuid : List UInt8
  partitionEntryLba : Nat
  partitionEntryArrayCrc32 : Nat

def GptHeader.bytes (h : GptHeader) : List UInt8 :=
  encode [(8, gptHeaderSignature), (4, 0x00010000), (4, 92), (4, h.headerCrc32), (4, 0),
    (8, h.myLba), (8, h.alternateLba), (8, 34), (8, h.lastUsableLba)] ++ h.diskGuid ++
  encode [(8, h.partitionEntryLba), (4, 128), (4, 128), (4, h.partitionEntryArrayCrc32)]

def GptHeader.sealed (h : GptHeader) : GptHeader :=
  { h with headerCrc32 := efiCrc32 { h with headerCrc32 := 0 }.bytes }

def gptFillHeader (dev : BlockDev) (strGuid : CStr) : Option GptHeader :=
  (uuidStrToBin strGuid .guid).map fun diskGuid =>
    { headerCrc32 := 0
      myLba := 1
      alternateLba := dev.lastLba
      lastUsableLba := (dev.lba + (2 ^ 64 - 34)) % 2 ^ 64
      diskGuid
      partitionEntryLba := 2
      partitionEntryArrayCrc32 := 0 }

def GptHeader.backup (h : GptHeader) : GptHeader :=
  { h with
    myLba := h.alternateLba
    alternateLba := h.myLba
    partitionEntryLba := (h.lastUsableLba + 1) % 2 ^ 64 }.sealed

def BlockDev.blockWrite (dev : BlockDev) (start blkcnt : Nat) (bytes : List UInt8) :
    Option BlockDev :=
  if dev.writes start blkcnt then
    some { dev with
      contents := store dev.contents (start * dev.blksz) (bytes.take (blkcnt * dev.blksz)) }
  else none

def padToBlocksize (dev : BlockDev) (bytes : List UInt8) (size : Nat) : List UInt8 :=
  bytes ++ List.replicate (padSize size dev.blksz - bytes.length) 0

def protectiveMbr (dev : BlockDev) : List UInt8 :=
  List.replicate 450 0 ++ [0xee, 0, 0, 0] ++ leBytes 4 1 ++
    leBytes 4 ((dev.lba + (2 ^ 32 - 1)) % 2 ^ 32) ++ List.replicate 48 0 ++ [0x55, 0xaa]

/-- `set_protective_mbr`; of a larger block, the rest is what lies behind the MBR on the stack. -/
def setProtectiveMbr (m : Memory) (dev : BlockDev) : Option BlockDev :=
  dev.blockWrite 0 1 (load (store m.stack 0 (protectiveMbr dev)) 0 dev.blksz)

/-- `write_gpt_table`, with the table in buffers that are padded to whole blocks. -/
def writeGptTable (m : Memory) (dev : BlockDev) (h : GptHeader) (entries : List (List UInt8)) :
    Option BlockDev := do
  let pteBlkCnt := padCount (128 * 128) dev.blksz
  let pte := padToBlocksize dev entries.flatten (128 * 128)
  let dev ← setProtectiveMbr m dev
  let h := { h with partitionEntryArrayCrc32 := efiCrc32 (pte.take (128 * 128)) }.sealed
  let dev ← dev.blockWrite 1 1 (padToBlocksize dev h.bytes 92)
  let dev ← dev.blockWrite 2 pteBlkCnt pte
  let h := h.backup
  let dev ← dev.blockWrite ((h.lastUsableLba + 1) % 2 ^ 64) pteBlkCnt pte
  dev.blockWrite h.myLba 1 (padToBlocksize dev h.bytes 92)

def gptRestore (m : Memory) (dev : BlockDev) (strDiskGuid : CStr) (partitions : List Request) :
    Option BlockDev := do
  let h ← gptFillHeader dev strDiskGuid
  let entries ← gptFillPte h.lastUsableLba 34 partitions
  writeGptTable m dev h entries

def gptConvertEfiNameToChar (pte : List UInt8) (i : Nat) : CStr :=
  ofArray ((List.range 37).map fun j => pte.getD (128 * i + 56 + 2 * j) 0)

def verifyLoop (num : Nat) (pte : List UInt8) : Nat → List Request → Bool
  | _, [] => true
  | i, p :: ps =>
      let starting := leValue ((pte.drop (128 * i + 32)).take 8)
      let ending := leValue ((pte.drop (128 * i + 40)).take 8)
      if i = num then false
      else if strncmpEq (gptConvertEfiNameToChar pte i) (ofArray p.name) 32 = false then false
      else if (ending + (2 ^ 64 - starting) + 1) % 2 ^ 64 ≠ p.size then false
      else if p.start ≠ 0 ∧ starting ≠ p.start then false
      else verifyLoop num pte (i + 1) ps

/-- `gpt_verify_headers`: both tables have to be valid, and the backup is returned. -/
def gptVerifyHeaders (m : Memory) (dev : BlockDev) : Option (Option (Mem × List UInt8)) :=
  match isGptValid m dev 1 m.stack with
  | none => none
  | some (_, none) => some none
  | some (h, some _) =>
      (isGptValid m dev dev.lastLba h).map fun r => r.2.map fun pte => (r.1, pte)

def gptVerifyPartitions (m : Memory) (dev : BlockDev) (partitions : List Request) : Option Bool :=
  (gptVerifyHeaders m dev).map fun r =>
    match r with
    | none => false
    | some (h, pte) => verifyLoop (numPartitionEntries h) pte 0 partitions

end Fire3.Gpt

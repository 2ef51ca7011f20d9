import Fire3.Base.CString
import Fire3.Fdisk.Writer

/-!
`get_part_table` and `get_part_table_extended` of `disk/part_dos.c`. Nothing bounds
the recursion over the extended partitions, so the model has a depth.
-/

namespace Fire3.Fdisk
open ByteMemory Block

def isExtended (sysInd : UInt8) : Bool := sysInd = 0x5 || sysInd = 0xf || sysInd = 0x85

def listed (lbaStart : Nat) (e : DosPartition) : Option Part :=
  let lbaS := ofInt e.start4
  let lbaL := ofInt e.size4
  if isExtended e.sysInd then none
  else if lbaS ≠ 0 ∧ lbaL ≠ 0 then
    some { start := (lbaStart + lbaS) * 512 % 2 ^ 64, length := lbaL * 512 % 2 ^ 64,
           start_lt := Nat.mod_lt _ (by decide), length_lt := Nat.mod_lt _ (by decide) }
  else none

def linked (relative : Nat) (e : DosPartition) : Nat := (ofInt e.start4 + relative) % 2 ^ 64

def readSector (mmc : Mmc) (l : Nat) : Mem := (mmcBread mmc l 1 none zero 0).2

/-- `none` is a recursion deeper than the given depth. -/
def getPartTableExtended (mmc : Mmc) : Nat → Nat → Nat → List Part → Option (List Part)
  | 0, _, _, _ => none
  | depth + 1, lbaStart, relative, parts =>
      let buffer := readSector mmc lbaStart
      if buffer 0x1fe ≠ 0x55 ∨ buffer 0x1ff ≠ 0xaa then some parts
      else
        let pt := entriesAt buffer 0x1be 4
        pt.foldlM (fun parts e =>
          if isExtended e.sysInd then
            let lbaS := linked relative e
            getPartTableExtended mmc depth lbaS (if lbaStart = 0 then lbaS else relative) parts
          else some parts) (parts ++ pt.filterMap (listed lbaStart))

def getPartTable (mmc : Mmc) (depth : Nat) : Option (List Part) :=
  getPartTableExtended mmc depth 0 0 []

theorem getPartTableExtended_outside {mmc : Mmc} {l : Nat} (hOut : mmc.lba ≤ l) (hl : l + 1 < 2 ^ 64)
    (depth relative : Nat) (parts : List Part) :
    getPartTableExtended mmc (depth + 1) l relative parts = some parts := by
  have hZero : readSector mmc l = zero := by
    rw [readSector, mmcBread, if_neg (by decide), if_pos (by omega)]
  rw [getPartTableExtended, hZero]
  rfl

theorem load_readSector {mmc : Mmc} {l : Nat} (hIn : l < mmc.lba) :
    load (readSector mmc l) 0 512 = sectorAt mmc l := by
  have hLba := mmc.lba_lt
  have hRange : ¬(l + 1) % 2 ^ 64 > mmc.lba := by omega
  have hSame := load_store_same zero 0 (load mmc.bytes (512 * l) 512)
  rw [length_load] at hSame
  rw [readSector, mmcBread, if_neg (by decide), if_neg hRange]
  simp only [Budget.moved_none, Nat.mul_one]
  exact hSame

theorem foldlM_extended {next : List Part → DosPartition → Option (List Part)}
    (es : List DosPartition) (parts : List Part) :
    es.foldlM (fun parts e => if isExtended e.sysInd then next parts e else some parts) parts =
      (es.filter fun e => isExtended e.sysInd).foldlM next parts := by
  induction es generalizing parts with
  | nil => rfl
  | cons e es ih =>
      rw [List.foldlM_cons, List.filter_cons]
      grind

theorem filterMap_unused (l k : Nat) :
    (List.replicate k unused).filterMap (listed l) = [] :=
  List.filterMap_replicate_of_none (by simp [listed, unused, isExtended, ofInt_of_lt])

theorem getPartTableExtended_sector {mmc : Mmc} {l : Nat} (hIn : l < mmc.lba)
    {pt : List DosPartition} (hFour : pt.length ≤ 4) (hSector : sectorAt mmc l = sectorBytes pt)
    (depth relative : Nat) (parts : List Part) :
    getPartTableExtended mmc (depth + 1) l relative parts =
      ((pt.map DosPartition.stored).filter fun e => isExtended e.sysInd).foldlM (fun parts e =>
        getPartTableExtended mmc depth (linked relative e)
          (if l = 0 then linked relative e else relative) parts)
        (parts ++ (pt.map DosPartition.stored).filterMap (listed l)) := by
  obtain ⟨hMagic, hMagic', hEntries⟩ :=
    table_of_load hFour ((load_readSector hIn).trans hSector)
  have hUnused (k : Nat) : (List.replicate k unused).filter (fun e => isExtended e.sysInd) = [] :=
    List.filter_replicate_of_neg (by decide)
  rw [getPartTableExtended]
  simp only [hMagic, hMagic', ne_eq, not_true_eq_false, or_self, if_false, hEntries]
  rw [foldlM_extended, List.filterMap_append, filterMap_unused, List.append_nil,
    List.filter_append, hUnused, List.append_nil]

section
variable {mmc : Mmc} {l : Nat} (hIn : l < mmc.lba) {data : List DosPartition}
  (hData : ∀ e ∈ data, isExtended e.sysInd = false)

include hIn hData

theorem getPartTableExtended_data (hFour : data.length ≤ 4)
    (hSector : sectorAt mmc l = sectorBytes data) (depth relative : Nat) (parts : List Part) :
    getPartTableExtended mmc (depth + 1) l relative parts =
      some (parts ++ (data.map DosPartition.stored).filterMap (listed l)) := by
  have hNone : (data.map DosPartition.stored).filter (fun e => isExtended e.sysInd) = [] := by
    simpa [DosPartition.stored] using hData
  rw [getPartTableExtended_sector hIn hFour hSector, hNone]
  rfl

theorem getPartTableExtended_link {e : DosPartition} (hFour : data.length < 4)
    (hLink : isExtended e.sysInd = true) (hSector : sectorAt mmc l = sectorBytes (data ++ [e]))
    (depth relative : Nat) (parts : List Part) :
    getPartTableExtended mmc (depth + 1) l relative parts =
      getPartTableExtended mmc depth (linked relative e.stored)
        (if l = 0 then linked relative e.stored else relative)
        (parts ++ (data.map DosPartition.stored).filterMap (listed l)) := by
  have hSkip : listed l e.stored = none := by
    simp [listed, DosPartition.stored, hLink]
  have hOne : ((data ++ [e]).map DosPartition.stored).filter (fun e => isExtended e.sysInd) =
      [e.stored] := by
    simpa [DosPartition.stored, List.filter_cons, hLink] using hData
  rw [getPartTableExtended_sector hIn (by simp; omega) hSector, hOne, List.map_append,
    List.filterMap_append, List.map_singleton, List.filterMap_cons_none hSkip, List.filterMap_nil,
    List.append_nil, List.foldlM_cons]
  exact bind_pure _

end

/-!
`get_partition_info_extended` and `test_block_type` of `disk/part_dos.c`. Block
numbers are of type `int` here: a 32-bit pattern that is widened with its sign for
the read. `part_num` counts up from 1 and is not cut to 32 bits.
-/

open CString

inductive IfType where
  | ide
  | sata
  | atapi
  | scsi
  | usb
  | doc
  | other
  deriving DecidableEq, Repr

structure BlockDev extends Mmc where
  ifType : IfType
  dev : Nat

structure DiskPartition where
  blksz : Nat
  start : Nat
  size : Nat
  name : Option CStr
  type : CStr
  bootable : Bool
  uuid : CStr
  deriving DecidableEq, Repr

def hexPadded (width n : Nat) : CStr :=
  let digits := Nat.toDigits 16 n
  (List.replicate (width - digits.length) '0' ++ digits).map fun c => UInt8.ofNat c.toNat

def IfType.namePart : IfType → String
  | .ide | .sata | .atapi => "hd"
  | .scsi => "sd"
  | .usb => "usbd"
  | .doc => "docd"
  | .other => "xx"

def partName (desc : BlockDev) (partNum : Nat) : CStr :=
  ascii desc.ifType.namePart ++ [UInt8.ofNat (97 + desc.dev)] ++ decimal partNum

inductive BlockType where
  | mbr
  | pbr
  | unknown
  deriving DecidableEq, Repr

def testBlockType (buffer : Mem) : BlockType :=
  if buffer 0x1fe ≠ 0x55 ∨ buffer 0x1ff ≠ 0xaa then .unknown
  else if buffer 0x1be ≠ 0 ∧ buffer 0x1be ≠ 0x80 then
    if load buffer 0x36 3 = ascii "FAT" ∨ load buffer 0x52 5 = ascii "FAT32" then .pbr else .unknown
  else .mbr

def bootEntries (buffer : Mem) : List (UInt8 × DosPartition) :=
  [0x1be, 0x1ce, 0x1de, 0x1ee].map fun a => (buffer a, entryAt buffer a)

def findPart (desc : BlockDev) (which : Int) (sector disksig : Nat) :
    List (UInt8 × DosPartition) → Nat → DiskPartition ⊕ Nat
  | [], partNum => .inr partNum
  | (bootInd, e) :: rest, partNum =>
      if bootInd &&& 0x7f = 0 ∧ e.sysInd ≠ 0 ∧ partNum = which ∧ isExtended e.sysInd = false then
        .inl
          { blksz := 512
            start := ofInt (sector + e.start4)
            size := ofInt e.size4
            name := some (partName desc partNum)
            type := ascii "U-Boot"
            bootable := bootInd = 0x80
            uuid := hexPadded 8 disksig ++ ascii "-" ++ hexPadded 2 partNum }
      else
        findPart desc which sector disksig rest
          (if sector = 0 ∨ (e.sysInd ≠ 0 ∧ isExtended e.sysInd = false) then partNum + 1
           else partNum)

/-- The outer `none` is a recursion deeper than the given depth, the inner one a status of -1. -/
def getPartitionInfoExtended (desc : BlockDev) (which : Int) :
    Nat → Nat → Nat → Nat → Nat → Option (Option DiskPartition)
  | 0, _, _, _, _ => none
  | depth + 1, sector, relative, partNum, disksig =>
      let (count, buffer) := mmcBread desc.toMmc (ofInt sector) 1 none zero 0
      if count ≠ 1 then some none
      else if buffer 0x1fe ≠ 0x55 ∨ buffer 0x1ff ≠ 0xaa then some none
      else
        let disksig := if sector = 0 then readLE buffer 0x1b8 4 else disksig
        match findPart desc which sector disksig (bootEntries buffer) partNum with
        | .inl info => some (some info)
        | .inr partNum =>
            match (bootEntries buffer).find? fun e => isExtended e.2.sysInd with
            | some (_, e) =>
                let lbaStart := (e.start4 + relative) % 2 ^ 32
                getPartitionInfoExtended desc which depth lbaStart
                  (if sector = 0 then lbaStart else relative) partNum disksig
            | none =>
                if testBlockType buffer = .pbr then
                  some (some
                    { blksz := 512
                      start := 0
                      size := desc.lba
                      name := none
                      type := ascii "U-Boot"
                      bootable := false
                      uuid := [] })
                else some none

def getPartitionInfoDos (desc : BlockDev) (part : Int) (depth : Nat) :
    Option (Option DiskPartition) :=
  getPartitionInfoExtended desc part depth 0 0 1 0

theorem findPart_below {desc : BlockDev} {which : Int} {sector disksig : Nat}
    {es : List (UInt8 × DosPartition)} {partNum : Nat} (h : which < partNum) :
    ∃ partNum', findPart desc which sector disksig es partNum = .inr partNum' ∧
      partNum ≤ partNum' := by
  induction es generalizing partNum with
  | nil => exact ⟨partNum, rfl, Nat.le_refl _⟩
  | cons e es ih =>
      obtain ⟨bootInd, e⟩ := e
      rw [findPart, if_neg (by omega)]
      split
      · obtain ⟨n, hFind, hLe⟩ := @ih (partNum + 1) (by omega)
        exact ⟨n, hFind, by omega⟩
      · exact ih h

end Fire3.Fdisk

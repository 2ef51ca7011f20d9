import Fire3.Base.ByteMemory
import Fire3.Fastboot.PartMap

/-!
The partition tables of a device: `part_mbr_update` and `get_parts_from_lists` of
`drivers/usb/gadget/f_fastboot.c`, and the numbers that `parse_part_fs` gives.

A table holds the filesystem entries of one device. The numbers come from one counter that
runs over the entries of all devices.
-/

namespace Fire3.Fastboot
open CString

def devPartMax : Nat := 16

/-- Rows written to an array of `FASTBOOT_DEV_PART_MAX` rows, none if one is written behind it. -/
def fillRows {α : Type} (rows : List α) : Option (List α) :=
  if rows.length ≤ devPartMax then some rows else none

def filesystems (parts : List FlashPart) : List FlashPart := parts.filter (·.fsType.inMask)

def filesystemsOn (parts : List FlashPart) (dev : Int) : List FlashPart :=
  (filesystems parts).filter (·.devNo = dev)

def FlashPart.extent (fp : FlashPart) : Nat × Nat := (fp.start, fp.length)

def getPartsFromLists (parts : List FlashPart) (dev : Int) : Option (List (Nat × Nat)) :=
  fillRows ((filesystemsOn parts dev).map FlashPart.extent)

def createParts (partDev : List ((Nat × Nat) × Int)) : Nat → Int → Nat → List (Int × List (Nat × Nat))
  -- the number is over `dev_max`
  | 0, _, _ => []
  | left + 1, dev, count =>
      if count = 0 then []
      else
        let parts := (partDev.filter (·.2 = dev)).map Prod.fst
        let calls := if parts = [] then [] else [(dev, parts)]
        calls ++ createParts partDev left (dev + 1) (count - parts.length)

def partMbrUpdate (parts : List FlashPart) : Option (List (Int × List (Nat × Nat))) :=
  (fillRows ((filesystems parts).map fun fp => (fp.extent, fp.devNo))).map fun partDev =>
    createParts partDev (mmcMax.toNat + 1) 0 partDev.length

section
variable {parts before after : List FlashPart} {e : FlashPart}

theorem fillRows_eq_some {α : Type} {rows table : List α} (h : fillRows rows = some table) :
    table = rows := by
  unfold fillRows at h
  grind

theorem filesystems_append (as bs : List FlashPart) :
    filesystems (as ++ bs) = filesystems as ++ filesystems bs :=
  List.filter_append ..

theorem filesystemsOn_append (as bs : List FlashPart) (dev : Int) :
    filesystemsOn (as ++ bs) dev = filesystemsOn as dev ++ filesystemsOn bs dev := by
  rw [filesystemsOn, filesystems_append, List.filter_append]
  rfl

theorem filesystems_cons_of_inMask (h : e.fsType.inMask = true) :
    filesystems (e :: after) = e :: filesystems after :=
  List.filter_cons_of_pos h

theorem extent_at (h : e.fsType.inMask = true) :
    ((filesystemsOn (before ++ e :: after) e.devNo).map FlashPart.extent)[
      (filesystemsOn before e.devNo).length]? = some e.extent := by
  have hCons : filesystemsOn (e :: after) e.devNo = e :: filesystemsOn after e.devNo := by
    rw [filesystemsOn, filesystems_cons_of_inMask h, List.filter_cons_of_pos (by simp)]
    rfl
  rw [filesystemsOn_append, hCons]
  simp

theorem mem_createParts {partDev : List ((Nat × Nat) × Int)} {left count : Nat} {dev d : Int}
    {table : List (Nat × Nat)} (h : (d, table) ∈ createParts partDev left dev count) :
    table = (partDev.filter (·.2 = d)).map Prod.fst := by
  induction left generalizing dev count with
  | zero => cases h
  | succ left ih =>
      rw [createParts] at h
      split at h
      · cases h
      · obtain hHere | hLater := List.mem_append.mp h
        · grind
        · exact ih hLater

theorem table_of_partMbrUpdate {calls : List (Int × List (Nat × Nat))} {dev : Int}
    {table : List (Nat × Nat)} (hCalls : partMbrUpdate parts = some calls)
    (hMem : (dev, table) ∈ calls) : table = (filesystemsOn parts dev).map FlashPart.extent := by
  obtain ⟨partDev, hRows, rfl⟩ := Option.map_eq_some_iff.mp hCalls
  rw [mem_createParts hMem, fillRows_eq_some hRows, List.filter_map, List.map_map]
  rfl

end

/-- The number of `e` is its position among the filesystem entries of its device, and so in both
tables; `before` are the entries in front of it. -/
structure Placed (parts before : List FlashPart) (e : FlashPart) : Prop where
  number : e.partNum = some ((filesystemsOn before e.devNo).length + 1)
  created : ∀ calls table, partMbrUpdate parts = some calls → (e.devNo, table) ∈ calls →
    table[(filesystemsOn before e.devNo).length]? = some e.extent
  listed : ∀ table, getPartsFromLists parts e.devNo = some table →
    table[(filesystemsOn before e.devNo).length]? = some e.extent

def NumbersMatchTables (parts : List FlashPart) : Prop :=
  ∀ before e after, parts = before ++ e :: after → e.fsType.inMask = true → Placed parts before e

def OneDevice (parts : List FlashPart) : Prop :=
  ∀ e ∈ filesystems parts, ∀ e' ∈ filesystems parts, e.devNo = e'.devNo

def Counted (parts : List FlashPart) : Prop :=
  ∀ before e after, parts = before ++ e :: after → e.fsType.inMask = true →
    e.partNum = some ((filesystems before).length + 1)

section
variable {parts : List FlashPart}

theorem Counted.snoc {part : FlashPart} (h : Counted parts)
    (hPart : part.partNum = if part.fsType.inMask then some ((filesystems parts).length + 1) else none) :
    Counted (parts ++ [part]) := by
  intro before e after hSplit hMask
  obtain rfl | ⟨after, last, rfl⟩ := List.eq_nil_or_concat after
  · obtain ⟨rfl, hEq⟩ := List.append_inj' hSplit rfl
    cases hEq
    rw [hPart, if_pos hMask]
  · have hShorter : parts ++ [part] = (before ++ e :: after) ++ [last] := by simpa using hSplit
    exact h before e after (List.append_inj' hShorter rfl).1 hMask

theorem partNum_of_parseEntry {behind : Nat → UInt8} {stale p p' : CStr} {cnt : Nat} {part : FlashPart}
    (h : parseEntry behind stale parts cnt p = .ok (part, p')) :
    part.partNum = if part.fsType.inMask then some (cnt + 1) else none := by
  unfold parseEntry at h
  obtain ⟨_, -, h⟩ := bind_eq_ok_iff.mp h
  obtain ⟨_, -, h⟩ := bind_eq_ok_iff.mp h
  obtain ⟨_, -, h⟩ := bind_eq_ok_iff.mp h
  obtain ⟨_, -, h⟩ := bind_eq_ok_iff.mp h
  cases h
  rfl

theorem counted_of_parseEntries {behind : Nat → UInt8} {heap : List CStr} {p : CStr} {cnt : Nat}
    {all : List FlashPart} (hCnt : cnt = (filesystems parts).length) (hParts : Counted parts)
    (h : parseEntries behind heap p cnt parts = .ok all) : Counted all := by
  induction heap generalizing p cnt parts with
  | nil =>
      rw [parseEntries] at h
      split at h
      · grind
      · cases h
  | cons stale heap ih =>
      rw [parseEntries] at h
      split at h
      · grind
      · obtain ⟨⟨part, rest⟩, hEntry, hRest⟩ := bind_eq_ok_iff.mp h
        have hNum := partNum_of_parseEntry hEntry
        refine ih ?_ (hParts.snoc (hCnt ▸ hNum)) hRest
        rw [hNum, filesystems_append, hCnt]
        cases hMask : part.fsType.inMask <;> simp [filesystems, hMask]

theorem counted_of_partListsMake {ptable : CStr} {behind : Nat → UInt8} {heap : List CStr}
    (h : partListsMake ptable behind heap = .ok parts) : Counted parts := by
  obtain ⟨p, -, hEntries⟩ := bind_eq_ok_iff.mp h
  refine @counted_of_parseEntries [] _ _ _ _ _ rfl ?_ hEntries
  intro before e after hSplit
  simp at hSplit

theorem oneDevice_iff_before :
    OneDevice parts ↔ ∀ before e after, parts = before ++ e :: after → e.fsType.inMask = true →
      ∀ e' ∈ filesystems before, e'.devNo = e.devNo := by
  constructor
  · grind [OneDevice, filesystems_append, filesystems_cons_of_inMask, List.mem_append_left]
  · intro h e he e' he'
    obtain ⟨hMem, hMask⟩ := List.mem_filter.mp he
    obtain ⟨before, after, rfl⟩ := List.append_of_mem hMem
    rw [filesystems_append, filesystems_cons_of_inMask hMask, List.mem_append, List.mem_cons] at he'
    obtain hBefore | rfl | hAfter := he'
    · exact (h before e after rfl hMask e' hBefore).symm
    · rfl
    · -- the other entry comes later, so it is the one that looks back
      obtain ⟨hMem', hMask'⟩ := List.mem_filter.mp hAfter
      obtain ⟨between, after, rfl⟩ := List.append_of_mem hMem'
      refine h (before ++ e :: between) e' after (by simp) hMask' e ?_
      rw [filesystems_append, filesystems_cons_of_inMask hMask]
      simp

end

theorem part_num_position_iff (ptable : CStr) (behind : Nat → UInt8) (heap : List CStr)
    (parts : List FlashPart) (h : partListsMake ptable behind heap = .ok parts) :
    NumbersMatchTables parts ↔ OneDevice parts := by
  have hCounted := counted_of_partListsMake h
  have hSame (before : List FlashPart) (dev : Int) :
      (filesystemsOn before dev).length = (filesystems before).length ↔
        ∀ e' ∈ filesystems before, e'.devNo = dev := by
    rw [filesystemsOn, List.length_filter_eq_length_iff]
    simp
  rw [oneDevice_iff_before]
  constructor
  · intro hMatch before e after hSplit hMask
    have hNumber := (hMatch before e after hSplit hMask).number
    rw [hCounted before e after hSplit hMask, Option.some.injEq] at hNumber
    exact (hSame before e.devNo).mp (by omega)
  · intro hOne before e after hSplit hMask
    refine ⟨?_, ?_, ?_⟩
    · rw [hCounted before e after hSplit hMask, (hSame before e.devNo).mpr (hOne _ _ _ hSplit hMask)]
    · grind [table_of_partMbrUpdate, extent_at]
    · intro table hTable
      rw [fillRows_eq_some hTable, hSplit]
      exact extent_at hMask

def oneDeviceMap : CStr :=
  ascii "flash=mmc,0:boot:ext4:0x200,0x200;flash=mmc,0:root:ext4:0x400,0x200;"

def twoDeviceMap : CStr :=
  ascii "flash=mmc,0:boot:ext4:0x200,0x200;flash=mmc,1:root:ext4:0x200,0x200;"

theorem part_num_position_one_device :
    ∃ parts, partListsMake oneDeviceMap (fun _ => 0) [[], []] = .ok parts ∧
      NumbersMatchTables parts := by
  have hMake : partListsMake oneDeviceMap (fun _ => 0) [[], []] =
      .ok [⟨ascii "boot", 0, 512, 512, .ext4, some 1⟩, ⟨ascii "root", 0, 1024, 512, .ext4, some 2⟩] := by
    decide +kernel
  have hDev : ∀ e ∈ filesystems [⟨ascii "boot", 0, 512, 512, .ext4, some 1⟩,
      ⟨ascii "root", 0, 1024, 512, .ext4, some 2⟩], e.devNo = 0 := by
    decide
  refine ⟨_, hMake, (part_num_position_iff _ _ _ _ hMake).mpr ?_⟩
  exact fun _ he _ he' => (hDev _ he).trans (hDev _ he').symm

theorem part_num_position_two_devices :
    ∃ parts, partListsMake twoDeviceMap (fun _ => 0) [[], []] = .ok parts ∧
      ¬NumbersMatchTables parts := by
  have hMake : partListsMake twoDeviceMap (fun _ => 0) [[], []] =
      .ok [⟨ascii "boot", 0, 512, 512, .ext4, some 1⟩, ⟨ascii "root", 1, 512, 512, .ext4, some 2⟩] := by
    decide +kernel
  refine ⟨_, hMake, fun hMatch => ?_⟩
  have hNumber := (hMatch [_] _ [] rfl rfl).number
  exact absurd hNumber (by decide)

/-!
The command `flash partmap` and the memory it works with: `cb_flash`, `part_lists_init` and
`part_lists_make` of `drivers/usb/gadget/f_fastboot.c`.

Every record has an identity of its own, whatever address it gets. A record is in the list
before its entry is parsed; when the rest of the entry is refused, it is freed and still in
the list that is freed next.
-/

open ByteMemory

inductive Fault
  /-- A record is freed that is not allocated. -/
  | doubleFree
  /-- The list leads to a record that is not allocated. -/
  | reachedAfterFree
  /-- A byte is written behind the buffer of the text. -/
  | bufferOverflow
  /-- A row is written behind a table of partitions. -/
  | tableOverflow
  /-- What the parsers of an entry do wrong. -/
  | parse (f : Failure)
  deriving DecidableEq, Repr

/-- The records that are allocated and those in the list of the device. -/
structure Records where
  next : Nat
  live : List Nat
  links : List Nat
  deriving DecidableEq, Repr

namespace Records
variable (r : Records)

def start : Records := ⟨0, [], []⟩

def malloc : Records := { r with next := r.next + 1, live := r.live ++ [r.next] }

def link (id : Nat) : Records := { r with links := r.links ++ [id] }

def free (id : Nat) : Except Fault Records :=
  if id ∈ r.live then .ok { r with live := r.live.erase id } else .error .doubleFree

def reach : Except Fault Records :=
  if ∀ id ∈ r.links, id ∈ r.live then .ok r else .error .reachedAfterFree

def freeLinks : List Nat → Records → Except Fault Records
  | [], r => .ok { r with links := [] }
  | id :: ids, r =>
      if id ∈ r.live then do
        let r ← r.free id
        freeLinks ids r
      else .error .reachedAfterFree

def partListsInit : Except Fault Records := freeLinks r.links r

end Records

/-- A text and what follows it in memory: `stack` are the bytes up to the next 0, `behind` comes
behind that. `heap` are the names in the records that `malloc` has. -/
structure MapSource where
  text : List UInt8
  stack : CStr
  behind : Nat → UInt8
  heap : List CStr

namespace MapSource
variable (c : MapSource)

def string : CStr := c.text.takeWhile (· ≠ 0)

def copied : List UInt8 := c.string ++ List.replicate (c.text.length - c.string.length) 0

def seen : CStr := if 0 ∈ c.text then c.string else c.text ++ c.stack

def frame : Mem := fun i =>
  (c.copied ++ c.stack ++ [0]).getD i (c.behind (i - (c.copied ++ c.stack ++ [0]).length))

def keptBytes (off len : Nat) : List UInt8 := (load c.frame off len).filter (!isBlank ·)

def squeezed (off len : Nat) : Mem := fun i =>
  let bytes := c.keptBytes off len
  if i < bytes.length then bytes.getD i 0 else if i = bytes.length then 0 else c.frame (off + i)

end MapSource

/-- The loop over the entries; none is the error that `part_lists_make` returns. -/
def makeEntries (behind : Nat → UInt8) :
    List CStr → Records → CStr → Nat → List FlashPart →
      Except Fault (Records × Option (List FlashPart))
  | heap, r, p, partNumCnt, parts =>
      match parsePartHead p with
      | none => .ok (r, if parts = [] then none else some parts)
      | some p =>
          match heap with
          | [] => .ok (r, none)
          | stale :: heap =>
              let id := r.next
              -- without a colon `parse_part_device` returns before it links the record
              if strchr p 58 = none then do
                let r ← r.malloc.free id
                return (r, none)
              else
                match parseEntry behind stale parts partNumCnt p with
                | .error .rejected => do
                    let r ← (r.malloc.link id).free id
                    return (r, none)
                | .error f => .error (.parse f)
                | .ok (part, p) => do
                    -- `parse_part_partition` compares the names in the list
                    let r ← (r.malloc.link id).reach
                    makeEntries behind heap r p (part.partNum.getD partNumCnt) (parts ++ [part])

def failParse (r : Records) :
    Option (List FlashPart) → Except Fault (Records × Option (List FlashPart))
  | some parts => .ok (r, some parts)
  | none => do
      let r ← r.partListsInit
      return (r, none)

/-- `part_lists_make` with the records, for a text in a buffer of `size` bytes. -/
def makeLists (r : Records) (size : Nat) (c : MapSource) :
    Except Fault (Records × Option (List FlashPart)) := do
  let r ← r.partListsInit
  match parseComment c.seen (c.seen.length + 1) c.seen c.text.length with
  | .error f => .error (.parse f)
  | .ok p => do
      let off := c.seen.length - p.length
      let bytes := c.keptBytes off (c.text.length - off)
      -- the 0 behind the squeezed text
      if off + bytes.length ≥ size then .error .bufferOverflow
      else
        let sorted := bytes.takeWhile (· ≠ 0)
        let behind := fun i => c.squeezed off (c.text.length - off) (sorted.length + 1 + i)
        let (r, made) ← makeEntries behind c.heap r sorted 0 []
        failParse r made

/-- A download that is flashed as `partmap`. Unless the map is `saved`, the list is made once more
from the variable of that name; there is none to make without it and in a split download. -/
structure PartmapCommand where
  download : MapSource
  saved : Bool
  env : Option MapSource

def flashEnv (r : Records) : Option MapSource → Except Fault Records
  | none => r.reach
  | some env => do
      let r ← r.partListsInit
      let (r, _) ← makeLists r (env.text.length + 1) env
      r.reach

def mapBuffer : Nat := 512

/-- `cb_flash` for `partmap`. -/
def flashPartmap (r : Records) (c : PartmapCommand) : Except Fault Records := do
  let r ← r.partListsInit
  -- `strncpy` writes as many bytes as were downloaded
  if c.download.text.length > mapBuffer then .error .bufferOverflow
  else
    let (r, made) ← makeLists r mapBuffer c.download
    match made with
    | none => r.partListsInit
    | some parts => do
        let r ← r.reach
        if partMbrUpdate parts = none then .error .tableOverflow
        else
          let r ← if c.saved then .ok r else flashEnv r c.env
          r.partListsInit

end Fire3.Fastboot

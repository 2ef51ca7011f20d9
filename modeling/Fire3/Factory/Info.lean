import Fire3.Base.CString
import Fire3.Mmc.Block

/-!
The `factory_info` command of `common/cmd_factory_info.c`: a list of name/value
entities kept on the heap, with a header that counts them, read from and written
to a memory buffer that is copied from and to an MMC card.

Allocations are not checked by the source. The model stops a run at the first
allocation the heap has no room for, so every list in a state fits the heap.
-/

namespace Fire3.FactoryInfo
open ByteMemory CString Block

/-- A command line argument: no character is NUL. -/
abbrev Arg := { s : CStr // 0 ∉ s }

structure FiHeader where
  magic : Nat
  major : Nat
  minor : Nat
  totalCount : Nat
  totalBytes : Nat
  deriving DecidableEq, Repr

structure Entity where
  nameLen : Nat
  valLen : Nat
  name : List UInt8
  val : List UInt8
  name_length : name.length = nameLen
  val_length : val.length = valLen

def mallocLen : Nat := 16 * 1024 + 2 ^ 20 + 2 ^ 25 * 2 + 2 ^ 23 - 0x8000

def Entity.heap (e : Entity) : Nat := 40 + (e.nameLen + 1) + (e.valLen + 1)

structure EntityList where
  entities : List Entity
  fits : (entities.map Entity.heap).sum ≤ mallocLen

def EntityList.empty : EntityList := ⟨[], Nat.zero_le _⟩

def EntityList.alloc (entities : List Entity) : Option EntityList :=
  if h : (entities.map Entity.heap).sum ≤ mallocLen then some ⟨entities, h⟩ else none

structure State where
  entityList : EntityList
  fHdr : FiHeader
  infoLoaded : Bool
  /-- The buffer at `CONFIG_FACTORY_INFO_BUF_ADDR`. -/
  buf : Mem
  mmc : Nat → Option Mmc

def headerMagic : Nat := 0x46414354

def factoryHeaderInit : FiHeader :=
  { magic := headerMagic, major := 1, minor := 0, totalCount := 0, totalBytes := 16 }

def checkHeader (hdr : FiHeader) : Bool :=
  hdr.magic = headerMagic ∧ hdr.major = 1 ∧ hdr.minor = 0

def allocNewEntity (name val : List UInt8) : Entity :=
  { nameLen := name.length, valLen := val.length, name := name, val := val
    name_length := rfl, val_length := rfl }

def Entity.named (e : Entity) (name : CStr) : Bool := ofArray e.name == name

def findEntity (l : EntityList) (name : CStr) : Option Entity :=
  l.entities.find? (·.named name)

def FiHeader.bytes (hdr : FiHeader) : List UInt8 :=
  leBytes 4 hdr.magic ++ (leBytes 2 hdr.major ++ (leBytes 2 hdr.minor ++
    (leBytes 4 hdr.totalCount ++ leBytes 4 hdr.totalBytes)))

def readHeader (buf : Mem) : FiHeader :=
  { magic := readLE buf 0 4, major := readLE buf 4 2, minor := readLE buf 6 2
    totalCount := readLE buf 8 4, totalBytes := readLE buf 12 4 }

def deserializeLoop (buf : Mem) : Nat → Nat → EntityList → Option (EntityList × Nat)
  | 0, offset, l => some (l, offset)
  | n + 1, offset, l =>
      let nameLen := readLE buf offset 4
      let valLen := readLE buf (offset + 4) 4
      let name := load buf (offset + 8) nameLen
      let val := load buf (offset + 8 + nameLen) valLen
      (EntityList.alloc (l.entities ++ [allocNewEntity name val])).bind fun l =>
        deserializeLoop buf n (offset + 8 + (nameLen + valLen)) l

/-- `fi_deserialize` appends to the list and takes the count from the buffer, or
starts an empty header when the buffer's is not valid. -/
def fiDeserialize (s : State) : Option State :=
  let hdr := readHeader s.buf
  let hdr := if checkHeader hdr then hdr else factoryHeaderInit
  (deserializeLoop s.buf hdr.totalCount 16 s.entityList).map fun (l, offset) =>
    { s with entityList := l, fHdr := { hdr with totalBytes := offset }, infoLoaded := true }

def serializeLoop (buf : Mem) (offset : Nat) : List Entity → Mem × Nat
  | [] => (buf, offset)
  | e :: es =>
      let buf := store buf offset (leBytes 4 e.nameLen ++ leBytes 4 e.valLen)
      let buf := store buf (offset + 8) e.name
      let buf := store buf (offset + 8 + e.nameLen) e.val
      serializeLoop buf (offset + 8 + e.nameLen + e.valLen) es

def fiSerialize (s : State) : State :=
  let (buf, offset) := serializeLoop s.buf 16 s.entityList.entities
  let hdr := { s.fHdr with totalBytes := offset }
  { s with fHdr := hdr, buf := store buf 0 hdr.bytes }

def factoryInfoDestroy (s : State) : State :=
  { s with entityList := .empty, fHdr := factoryHeaderInit }

structure Place where
  interface : Arg
  device : Arg
  offset : Arg
  count : Arg

def Place.isMmc (p : Place) : Bool := strncmpEq p.interface (ascii "mmc") 3

def Place.dev (p : Place) : Nat := simpleStrtoul p.device 10 % 2 ^ 32

def Place.blk (p : Place) : Nat := simpleStrtoul p.offset 16 % 2 ^ 32

def Place.cnt (p : Place) : Nat := simpleStrtoul p.count 16 % 2 ^ 32

def fiMmcLoad (s : State) (p : Place) (budget : Budget) : Bool × State :=
  match s.mmc p.dev with
  | none => (true, s)
  | some mmc =>
      let (n, buf) := mmcBread mmc p.blk p.cnt budget s.buf 0
      (n ≠ p.cnt, { s with buf := buf })

def fiMmcSave (s : State) (p : Place) (budget : Budget) : Bool × State :=
  match s.mmc p.dev with
  | none => (true, s)
  | some mmc =>
      let (n, mmc) := mmcBwrite mmc p.blk p.cnt budget s.buf 0
      (n ≠ p.cnt, { s with mmc := Function.update s.mmc p.dev (some mmc) })

def factoryInfoLoad (s : State) (p : Place) (budget : Budget) : Option (Int × State) :=
  let s := if s.infoLoaded then factoryInfoDestroy s else s
  let s := { s with entityList := .empty }
  let (err, s) := if p.isMmc then fiMmcLoad s p budget else (false, s)
  if err then some (-1, s) else (fiDeserialize s).map fun s => (0, s)

def factoryInfoSave (s : State) (p : Place) (budget : Budget) : Int × State :=
  if !s.infoLoaded then (-1, s)
  else
    let s := fiSerialize s
    let (err, s) := if p.isMmc then fiMmcSave s p budget else (false, s)
    (if err then -1 else 0, s)

def factoryInfoReadEntity (s : State) (name : Arg) : Option CStr :=
  if !s.infoLoaded then none else (findEntity s.entityList name).map fun e => ofArray e.val

def updateEntityValue (e : Entity) (value : CStr) : Entity :=
  { e with valLen := value.length, val := value, val_length := rfl }

def updateFound (name value : CStr) : List Entity → List Entity
  | [] => []
  | e :: es =>
      if e.named name then updateEntityValue e value :: es else e :: updateFound name value es

def factoryInfoWriteEntity (s : State) (name value : Arg) : Option (Int × State) :=
  if !s.infoLoaded then some (-1, s)
  else match findEntity s.entityList name with
    | some _ =>
        (EntityList.alloc (updateFound name value s.entityList.entities)).map fun l =>
          (0, { s with entityList := l })
    | none =>
        let e := allocNewEntity name value
        (EntityList.alloc (s.entityList.entities ++ [e])).map fun l =>
          (0, { s with
            entityList := l
            fHdr := { s.fHdr with
              totalCount := (s.fHdr.totalCount + 1) % 2 ^ 32
              totalBytes := (s.fHdr.totalBytes + (8 + e.nameLen + e.valLen)) % 2 ^ 32 } })

def factoryInfoClean (s : State) : Int × State :=
  if !s.infoLoaded then (-1, s) else (0, factoryInfoDestroy s)

/-- What `do_factory_info` picks from its arguments. `read` and `list` print and
change nothing, and neither does a usage error. -/
inductive Command
  | load (p : Place)
  | save (p : Place)
  | write (name value : Arg)
  | clean
  | other

def doFactoryInfo (argv : List Arg) : Command :=
  match argv with
  | [_, cmd, interface, device, offset, count] =>
      if strncmpEq cmd (ascii "load") 4 then .load ⟨interface, device, offset, count⟩
      else if strncmpEq cmd (ascii "save") 4 then .save ⟨interface, device, offset, count⟩
      else .other
  | [_, cmd, name, value] => if strncmpEq cmd (ascii "write") 5 then .write name value else .other
  | [_, cmd] =>
      if strncmpEq cmd (ascii "list") 4 then .other
      else if strncmpEq cmd (ascii "clean") 5 then .clean
      else .other
  | _ => .other

structure Invocation where
  argv : List Arg
  budget : Budget

def execute (s : State) (c : Command) (budget : Budget) : Option State :=
  match c with
  | .load p => (factoryInfoLoad s p budget).map (·.2)
  | .save p => some (factoryInfoSave s p budget).2
  | .write name value => (factoryInfoWriteEntity s name value).map (·.2)
  | .clean => some (factoryInfoClean s).2
  | .other => some s

def step (s : State) (i : Invocation) : Option State := execute s (doFactoryInfo i.argv) i.budget

def State.pairs (s : State) : List (List UInt8 × List UInt8) :=
  s.entityList.entities.map fun e => (e.name, e.val)

end Fire3.FactoryInfo

import Fire3.Base.CString

/-!
The partition map of fastboot: `part_lists_make` of `drivers/usb/gadget/f_fastboot.c` and
the parsers it calls.

A map is a sequence of entries `flash=<device>,<no>:<name>:<fs>:<start>,<length>;`. The
text behind the comments is squeezed in place, so the bytes that follow its new terminator
are the rest of the old text and then what follows that in memory. There is one device, `mmc`.
-/

namespace Fire3.Fastboot
open CString

instance lawfulBEq_cstr : LawfulBEq CStr := inferInstance

/-- The bits `FASTBOOT_FS_*`. -/
inductive FsType
  | secondBoot
  | boot
  | raw
  | env
  | fat
  | ext4
  | ubi
  | ubifs
  | rawPart
  | factory
  deriving DecidableEq, Repr

def fPartFs : List (CStr × FsType) :=
  [(ascii "2nd", .secondBoot), (ascii "boot", .boot), (ascii "env", .env),
    (ascii "factory", .factory), (ascii "raw", .raw), (ascii "fat", .fat), (ascii "ext4", .ext4),
    (ascii "emmc", .rawPart), (ascii "nand", .rawPart), (ascii "ubi", .ubi), (ascii "ubifs", .ubifs)]

def FsType.inMask : FsType → Bool
  | .ext4 | .fat | .ubi | .ubifs | .rawPart => true
  | .secondBoot | .boot | .raw | .env | .factory => false

def FsType.supported : FsType → Bool
  | .secondBoot | .boot | .raw | .env | .fat | .ext4 | .rawPart => true
  | .ubi | .ubifs | .factory => false

def fReservePart : List CStr := [ascii "partmap", ascii "mem", ascii "setenv", ascii "cmd"]

def mmcMax : Int := 3

structure FlashPart where
  partition : CStr
  devNo : Int
  start : Nat
  length : Nat
  fsType : FsType
  partNum : Option Nat
  deriving DecidableEq, Repr

inductive Failure
  /-- The error that the function returns. -/
  | rejected
  /-- A pointer that `strchr` did not set is used. -/
  | nullPointer
  /-- The terminator of a token is written behind its buffer. -/
  | strOverflow
  /-- A buffer is compared that was not filled. -/
  | notFilled
  deriving DecidableEq, Repr

/-- The loop of `parse_comment`. The length is reduced by the offset of each comment's end, not
by the length of the comment. -/
def parseComment (str : CStr) : Nat → CStr → Int → Except Failure CStr
  | 0, p, _ => .ok p
  | fuel + 1, p, len =>
      match strchr p 35 with
      | none => .ok p
      | some r =>
          match strchr (r.drop 1) 10 with
          | none => .error .nullPointer
          | some q =>
              let len := len - (str.length - (q.drop 1).length : Nat)
              if len ≤ 0 then .ok str
              else if len ≤ 1 then .ok (q.drop 1)
              else parseComment str fuel (q.drop 1) len

def sortString (p : CStr) : CStr := withoutBlanks p

def byteAt (behind : Nat → UInt8) (s : CStr) (i : Nat) : UInt8 :=
  if i = s.length then 0 else s.getD i (behind (i - s.length - 1))

def trimmed (behind : Nat → UInt8) (s : CStr) : Nat → Nat
  | 0 => 0
  | n + 1 =>
      if byteAt behind s n = 32 ∨ byteAt behind s n = 9 then trimmed behind s n else n + 1

/-- `parse_string(s, s + n, b, len)` on a text without blanks: the new contents of `b`, none if
the buffer is too small and stays as it is. -/
def parseString (behind : Nat → UInt8) (s : CStr) (n len : Nat) : Except Failure (Option CStr) :=
  let l := trimmed behind s n
  if l > len then .ok none
  else if l = len then .error .strOverflow
  else .ok (some (s.take l))

def toInt (n : Nat) : Int := (n : Int).bmod (2 ^ 32)

def parsePartDevice (behind : Nat → UInt8) (p : CStr) : Except Failure (Int × CStr) := do
  let some r := strchr p 58 | throw .rejected
  let idLen := p.length - r.length
  let some c := strchr p 44 | throw .nullPointer
  let some device ← parseString behind p (p.length - c.length) 32 | throw .notFilled
  if device ≠ ascii "mmc" then throw .rejected
  -- the number is cut at the length of the device and the number together
  let str ← parseString behind (c.drop 1) idLen 32
  let devNo := toInt (simpleStrtoul (str.getD device) 10)
  if devNo ≥ mmcMax then throw .rejected
  return (devNo, r.drop 1)

/-- `names` are those in the list, with what stands in the new record. -/
def parsePartPartition (behind : Nat → UInt8) (names : List CStr) (p : CStr) :
    Except Failure (CStr × CStr) := do
  let some r := strchr p 58 | throw .rejected
  let str ← parseString behind p (p.length - r.length) 32
  let name := str.getD []
  if name ∈ fReservePart then throw .rejected
  if name ∈ names then throw .rejected
  return (name, r.drop 1)

def parsePartFs (behind : Nat → UInt8) (p : CStr) : Except Failure (FsType × CStr) := do
  let some r := strchr p 58 | throw .rejected
  let str ← parseString behind p (p.length - r.length) 16
  let some fs := fPartFs.lookup (str.getD []) | throw .rejected
  if !fs.supported then throw .rejected
  return (fs, r.drop 1)

def parsePartAddress (behind : Nat → UInt8) (p : CStr) : Except Failure ((Nat × Nat) × CStr) := do
  let some r := (strchr p 59).or (strchr p 10) | throw .rejected
  let idLen := p.length - r.length
  let some c := strchr p 44 | throw .rejected
  let str := (← parseString behind p (p.length - c.length) 64).getD []
  let start := simpleStrtoul str 16
  -- the buffer still holds the start when the length does not fit
  let str := (← parseString behind (c.drop 1) idLen 64).getD str
  return ((start, simpleStrtoul str 16), r.drop 1)

def parsePartHead (p : CStr) : Option CStr := behindFirst (ascii "flash=") p

/-- The parsers of one entry; `stale` is the string in the name field of the record as `malloc`
returned it, and the record is in the list already. -/
def parseEntry (behind : Nat → UInt8) (stale : CStr) (parts : List FlashPart) (partNumCnt : Nat)
    (p : CStr) : Except Failure (FlashPart × CStr) := do
  let (devNo, p) ← parsePartDevice behind p
  let (name, p) ← parsePartPartition behind (parts.map FlashPart.partition ++ [stale]) p
  let (fsType, p) ← parsePartFs behind p
  let ((start, length), p) ← parsePartAddress behind p
  let partNum := if fsType.inMask then some (partNumCnt + 1) else none
  return (⟨name, devNo, start, length, fsType, partNum⟩, p)

def parseEntries (behind : Nat → UInt8) :
    List CStr → CStr → Nat → List FlashPart → Except Failure (List FlashPart)
  | heap, p, partNumCnt, parts =>
      match parsePartHead p with
      | none => if parts = [] then .error .rejected else .ok parts
      | some p =>
          match heap with
          | [] => .error .rejected
          | stale :: heap => do
              let (part, p) ← parseEntry behind stale parts partNumCnt p
              parseEntries behind heap p (part.partNum.getD partNumCnt) (parts ++ [part])

/-- `part_lists_make`: the list of the device, which is empty after an error. `behind` is the
memory behind the terminator of the text, `heap` the names in the records of the free memory. -/
def partListsMake (ptable : CStr) (behind : Nat → UInt8) (heap : List CStr) :
    Except Failure (List FlashPart) := do
  let p ← parseComment ptable (ptable.length + 1) ptable ptable.length
  let sorted := sortString p
  parseEntries (fun i => byteAt behind p (sorted.length + 1 + i)) heap sorted 0 []

theorem bind_eq_ok_iff {α β : Type} {x : Except Failure α} {f : α → Except Failure β} {r : β} :
    x >>= f = .ok r ↔ ∃ a, x = .ok a ∧ f a = .ok r := by
  cases x <;> simp [bind, Except.bind]

end Fire3.Fastboot

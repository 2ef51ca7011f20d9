import Fire3.Base.Pieces
import Fire3.Base.CString

/-!
The boot image builders `BOOT_BINGEN` and `SECURE_BINGEN`.

Both put a header, filled in from a text, before a payload. They share the text
format, the size rules of the chips and the order in which the header is patched,
and differ in the size and the fields of the header and in the CRC polynomial.
-/

namespace Fire3.Bingen
open ByteMemory CString

def nsihSize : Nat := 0x200

def nxp4330SramSize : Nat := 16 * 1024

def nxp5430SramSize : Nat := 64 * 1024

def s5p4418SramSize : Nat := 32 * 1024

def rombootStackSize : Nat := 4 * 1024

/-- The locals of `process_nsih` and the bytes written so far; `writesize` is only compared
with small numbers, so its sign does not matter. -/
structure NsihState where
  writeval : Nat
  writesize : Nat
  skipline : Bool
  out : List UInt8

/-- One character: hexadecimal digits at the start of a line make a little-endian
value of one, two or four bytes, and the rest of the line is skipped. -/
def nsihStep (s : NsihState) (ch : UInt8) : NsihState :=
  let s :=
    if s.skipline then s
    else if isXDigit ch then
      { s with
        writeval := (s.writeval * 16 + digitValue ch) % 2 ^ 32
        writesize := (s.writesize + 4) % 2 ^ 32 }
    else
      let bytes :=
        if s.writesize = 8 ∨ s.writesize = 16 ∨ s.writesize = 32 then s.writesize / 8 else 0
      { writeval := s.writeval / 256 ^ bytes
        writesize := 0
        skipline := true
        out := s.out ++ leBytes bytes s.writeval }
  if ch = 10 then { s with writeval := 0, skipline := false } else s

/-- `process_nsih`: `feof` is seen only after `fgetc` has returned the end of the file,
which the loop takes as one more character. -/
def processNsih (text : List UInt8) : List UInt8 :=
  ((text ++ [0xFF]).foldl nsihStep ⟨0, 0, false, []⟩).out

def getFcs (poly fcs : UInt32) (data : UInt8) : UInt32 :=
  (List.range 8).foldl (fun fcs _ => if fcs &&& 1 ≠ 0 then (fcs >>> 1) ^^^ poly else fcs >>> 1)
    (fcs ^^^ data.toUInt32)

def crcOf (poly : UInt32) (bytes : List UInt8) : UInt32 := bytes.foldl (getFcs poly) 0

def calcCrc (poly : UInt32) (m : Mem) (addr : Nat) (len : Int) : UInt32 :=
  crcOf poly (load m addr len.toNat)

inductive Chip where
  | nxp4330
  | nxp5430
  | s5p6818
  | s5p4418
  | unknown
deriving DecidableEq

inductive BootType where
  | secondBoot
  | thirdBoot
  | unknown
deriving DecidableEq

/-- The limits of the chips in `output_size_calcurate`; 0 is no size. -/
def imageSize (headerSize : Nat) (cpu : Chip) (option : BootType) (inputSize : Nat) : Option Nat :=
  let outSize := (inputSize + headerSize) % 2 ^ 32
  match option with
  | .secondBoot =>
      match cpu with
      | .nxp4330 =>
          if inputSize > nxp4330SramSize - headerSize then none else some nxp4330SramSize
      | .nxp5430 | .s5p6818 =>
          if outSize > nxp5430SramSize - rombootStackSize then none else some outSize
      | .s5p4418 =>
          if outSize > s5p4418SramSize - rombootStackSize then none
          else if outSize < nxp4330SramSize then some nxp4330SramSize
          else some outSize
      | .unknown => some 0
  | .thirdBoot => some outSize
  | .unknown => some 0

/-- `output_size_calcurate` for a header of `headerSize` bytes, with 32-bit sizes. -/
def outputSizeCalcurate (headerSize : Nat) (cpu : Chip) (option : BootType) (inputSize : Nat) :
    Option Nat :=
  (imageSize headerSize cpu option inputSize).bind fun outSize =>
    if outSize = 0 then none
    else if outSize ≤ nxp4330SramSize - 16 then some nxp4330SramSize
    else some outSize

inductive Outcome where
  /-- It returns an error and writes nothing. -/
  | refused
  /-- It reads more into its buffer than it has allocated. -/
  | overrun
  | written (file : List UInt8)

/-- `boot_bingen` for one of the two tools: the size of its header, and its
`nsih_user_config` as a function of the payload's size and the buffer. -/
def bootBingen (headerSize : Nat) (nsihUserConfig : Nat → Mem → Mem) (cpu : Chip)
    (option : BootType) (nsih payload : List UInt8) : Outcome :=
  let inputSize := payload.length % 2 ^ 32
  match outputSizeCalcurate headerSize cpu option inputSize with
  | none => .refused
  | some outputSize =>
      let header := processNsih nsih
      if header.length > outputSize then .overrun
      else if header.length ≠ nsihSize then .refused
      else if headerSize + inputSize > outputSize then .overrun
      else
        let outBuffer := store (store zero 0 header) headerSize (payload.take inputSize)
        .written (load (nsihUserConfig inputSize outBuffer) 0 outputSize)

structure Layout where
  headerSize : Nat
  loadsizeAt : Nat
  crcAt : Nat
  poly : UInt32

def signatureAt : Nat := 0x1FC

def headerId : List UInt8 := ascii "NSIH"

def Layout.configure (l : Layout) (fields : List Patch) (inputSize : Nat) (buffer : Mem) : Mem :=
  let buffer := patchAll buffer fields
  writeLE buffer l.crcAt 4 (calcCrc l.poly buffer l.headerSize (toS32 inputSize)).toNat

def bootLayout : Layout := ⟨nsihSize, 0x44, 0x58, 0x04C11DB7⟩

/-- The globals of `BOOT_BINGEN` its options set; all ones stands for no option. -/
structure BootOptions where
  devicePortnum : UInt32
  deviceAddr : UInt32
  loadedAddr : UInt32
  launchAddr : UInt32

def fieldUnlessOnes (v : UInt32) (field : Nat) (bytes : List UInt8) : List Patch :=
  if v ≠ 0xFFFFFFFF then [(field, bytes)] else []

def BootOptions.device (o : BootOptions) : List Patch :=
  fieldUnlessOnes o.devicePortnum 0x50 [o.devicePortnum.toUInt8] ++
    fieldUnlessOnes o.deviceAddr 0x40 (leBytes 4 o.deviceAddr.toNat)

def BootOptions.addresses (o : BootOptions) : List Patch :=
  fieldUnlessOnes o.loadedAddr 0x48 (leBytes 4 o.loadedAddr.toNat) ++
    fieldUnlessOnes o.launchAddr 0x4C (leBytes 4 o.launchAddr.toNat)

def BootOptions.fields (o : BootOptions) (inputSize : Nat) : List Patch :=
  o.device ++ (bootLayout.loadsizeAt, leBytes 4 inputSize) :: (o.addresses ++
    [(signatureAt, headerId)])

/-- `nsih_user_config` of `BOOT_BINGEN`: an image that leaves the last 16 bytes of the
first 16 KiB free gets the CRC of the rest there. -/
def BootOptions.nsihUserConfig (o : BootOptions) (inputSize : Nat) (buffer : Mem) : Mem :=
  let buffer := bootLayout.configure (o.fields inputSize) inputSize buffer
  if (inputSize + nsihSize) % 2 ^ 32 ≤ nxp4330SramSize - 16 then
    writeLE buffer (nxp4330SramSize - 16) 4
      (calcCrc bootLayout.poly buffer 0 ((nxp4330SramSize - 16 : Nat) : Int)).toNat
  else buffer

def secureLayout : Layout := ⟨nsihSize + 0x200, 0x50, 0x54, 0xEDB88320⟩

/-- The options of `SECURE_BINGEN`. A table holds what `-m`, `-b`, `-p`, `-f` or `-z` gave,
at most four values. -/
structure SecureOptions where
  loadedAddr : UInt64
  launchAddr : UInt64
  loadAddr : List UInt64
  loadDev : List UInt8
  portnum : List UInt8
  simgOfs : List UInt32
  simgSiz : List UInt32
  unified : Bool
  bootdev : Option UInt8
  entries : loadAddr.length ≤ 4 ∧ loadDev.length ≤ 4 ∧ portnum.length ≤ 4 ∧ simgOfs.length ≤ 4 ∧
    simgSiz.length ≤ 4

def SecureOptions.bootFrom (o : SecureOptions) : UInt8 := o.bootdev.getD 3

def dbiFields {α : Type} (field : Nat) (bytes : α → List UInt8) (values : List α) : List Patch :=
  values.mapIdx fun i v => (0x80 + 0x20 * i + field, bytes v)

def SecureOptions.dbi (o : SecureOptions) : List Patch :=
  dbiFields 0 (fun v => leBytes 8 v.toNat) o.loadAddr ++
    -- BOOT_FROM_USB
    if o.bootFrom = 0 then
      dbiFields 8 (fun v => leBytes 4 v.toNat) o.simgOfs ++
        dbiFields 12 (fun v => leBytes 4 v.toNat) o.simgSiz
    else
      dbiFields 15 (fun v => [v]) o.loadDev ++ dbiFields 11 (fun v => [v]) o.portnum

def SecureOptions.addresses (o : SecureOptions) : List Patch :=
  (if o.loadedAddr ≠ 0xFFFFFFFFFFFFFFFF then [(0x58, leBytes 8 o.loadedAddr.toNat)] else []) ++
    if o.launchAddr ≠ 0xFFFFFFFFFFFFFFFF then [(0x60, leBytes 8 o.launchAddr.toNat)] else []

def SecureOptions.fields (o : SecureOptions) (inputSize : Nat) : List Patch :=
  (secureLayout.loadsizeAt, leBytes 4 inputSize) :: (o.addresses ++ (o.dbi ++
    [(0x68, [if o.unified then 1 else 0]), (0x69, [o.bootFrom]), (signatureAt, headerId)]))

def SecureOptions.nsihUserConfig (o : SecureOptions) (inputSize : Nat) (buffer : Mem) : Mem :=
  secureLayout.configure (o.fields inputSize) inputSize buffer

end Fire3.Bingen

import Fire3.Base.ByteMemory

/-!
The image builder of the host tool `USB_loader/loader.c`.

The tool reads a file into a zeroed buffer, optionally behind a boot header,
pads the length to 16 bytes and patches the size field at offset `0x44`. What
the buffer then holds below `load_size` is sent in one bulk transfer.
-/

namespace Fire3.UsbLoader
open ByteMemory

inductive HeaderType
  | noHeader
  | h32
  | h64
  deriving DecidableEq, Repr

inductive Arg
  | h64
  | h32
  | inject
  | o
  | l (val : Nat)
  | s (val : Nat)
  | a (val : Nat)
  deriving DecidableEq, Repr

structure Options where
  headerType : HeaderType := .noHeader
  injectHeader : Bool := false
  emitFile : Bool := false
  setNext : Bool := false
  loadAddr : Nat := 0xffff0000
  launchAddr : Nat := 0xffff0000
  nextAddr : Nat := 0
  deriving DecidableEq, Repr

def readArg (opts : Options) : Arg → Options
  | .h64 => { opts with headerType := .h64 }
  | .h32 => { opts with headerType := .h32 }
  | .inject => { opts with injectHeader := true }
  | .o => { opts with emitFile := true }
  | .l val => { opts with loadAddr := val % 2 ^ 32, launchAddr := val % 2 ^ 32 }
  | .s val => { opts with launchAddr := val % 2 ^ 32 }
  | .a val => { opts with setNext := true, nextAddr := val % 2 ^ 32 * 512 % 2 ^ 32 }

def align : Nat := 16

def bufSize : Nat := 16 * 1024 * 1024

def minSize : Nat := 512 + align

def writeLong (buf : Mem) (addr data : Nat) : Mem := writeLE buf addr 4 data

def writeLongs (buf : Mem) (addr : Nat) : List Nat → Mem
  | [] => buf
  | w :: ws => writeLongs (writeLong buf addr w) (addr + 4) ws

def code64At0 : List Nat :=
  [0xea000015, 0xea00003c, 0xea00003b, 0xea00003a, 0xea000039, 0xea000038, 0xea000037,
    0xea000036]

def code64At5c : List Nat :=
  [0xe3010000, 0xe34c0001, 0xe30c1200, 0xe3431fff, 0xe3002000, 0xe3402000, 0xe5801140,
    0xe5802144, 0xe5801148, 0xe580214c, 0xe5801150, 0xe5802154, 0xe5801158, 0xe580215c,
    0xe5801184, 0xe5802188, 0xe580118c, 0xe5802190, 0xe5801194, 0xe5802198, 0xe580119c,
    0xe58021a0, 0xe590113c, 0xe3811a0f, 0xe580113c, 0xe5901180, 0xe38110f0, 0xe5801180,
    0xe5901138, 0xe381160f, 0xe5801138, 0xe590117c, 0xe3811a0f, 0xe580117c, 0xe3000000,
    0xe34c0001, 0xe59012ac, 0xe3811001, 0xe58012ac, 0xe320f003, 0xe30b0000, 0xe34c0001,
    0xe5901020, 0xe3c11403, 0xe3811402, 0xe5801020, 0xe5901000, 0xe3811a01, 0xe5801000,
    0xe5901004, 0xe3811a01, 0xe5801004, 0xeafffffe]

def writeHeaderFields (buf : Mem) (opts : Options) (loadSize : Nat) : Mem :=
  let buf := writeLong buf 0x44 (loadSize - 512)
  let buf := writeLong buf 0x48 opts.loadAddr
  let buf := writeLong buf 0x4c opts.launchAddr
  writeLong buf 0x1fc 0x4849534e

def mkHeader64 (buf : Mem) (opts : Options) (loadSize : Nat) : Mem :=
  writeHeaderFields (writeLongs (writeLongs buf 0 code64At0) 0x5c code64At5c) opts loadSize

def mkHeader32 (buf : Mem) (opts : Options) (loadSize : Nat) : Mem :=
  writeHeaderFields (writeLong buf 0 0xea00007e) opts loadSize

def fixSize (buf : Mem) (loadSize : Nat) : Mem := writeLong buf 0x44 (loadSize - 512)

def setNextAddr (buf : Mem) (addr : Nat) : Mem := writeLong buf 0x40 addr

def clear (buf : Mem) (n : Nat) : Mem := store buf 0 (List.replicate n 0)

/-- `readBin`: the file's bytes at `offset` and the padded size; an empty file fails. -/
def readBin (buf : Mem) (offset : Nat) (file : List UInt8) : Option (Mem × Nat) :=
  let bytes := file.take bufSize
  if bytes.length = 0 then none
  else
    let size := bytes.length
    let size := if size % align ≠ 0 then (size / align + 1) * align else size
    some (store buf offset bytes, size)

def headerOffset (opts : Options) : Nat :=
  if opts.injectHeader then 0
  else match opts.headerType with
    | .noHeader => 0
    | .h32 => 512
    | .h64 => 2048

def applyHeader (buf : Mem) (opts : Options) (loadSize : Nat) : Mem :=
  match opts.headerType with
  | .noHeader => buf
  | .h32 => mkHeader32 buf opts loadSize
  | .h64 => mkHeader64 buf opts loadSize

/-- The buffer and `load_size` when `main` hands over to the transfer. The buffer
is a zeroed global; the file need not fit it, and then bytes land behind it. -/
def buildImage (args : List Arg) (file : List UInt8) : Option (Mem × Nat) :=
  let opts := args.foldl readArg {}
  let offset := headerOffset opts
  let buf := clear (clear zero minSize) offset
  (readBin buf offset file).map fun (buf, fileSize) =>
    let loadSize := if fileSize + offset ≤ 512 then minSize else fileSize + offset
    let buf := fixSize (applyHeader buf opts loadSize) loadSize
    (if opts.setNext then setNextAddr buf opts.nextAddr else buf, loadSize)

theorem readBin_size {buf buf' : Mem} {offset size : Nat} {file : List UInt8}
    (h : readBin buf offset file = some (buf', size)) :
    size % 16 = 0 ∧ 0 < size ∧ (file.take bufSize).length ≤ size ∧
      size < (file.take bufSize).length + 16 := by
  simp only [readBin] at h
  split at h
  · simp at h
  · simp only [Option.some.injEq, Prod.mk.injEq] at h
    obtain ⟨_, hSize⟩ := h
    split at hSize <;> simp only [align] at * <;> omega

theorem headerOffset_mod (opts : Options) : headerOffset opts % 16 = 0 := by
  unfold headerOffset
  split
  · rfl
  · split <;> rfl

theorem buildImage_size {args : List Arg} {file : List UInt8} {buf : Mem} {size : Nat}
    (h : buildImage args file = some (buf, size)) :
    size % 16 = 0 ∧ 528 ≤ size ∧ readLE buf 0x44 4 = (size - 512) % 2 ^ 32 := by
  simp only [buildImage, Option.map_eq_some_iff, Prod.exists] at h
  obtain ⟨filled, fileSize, hRead, hResult⟩ := h
  have hSize := readBin_size hRead
  have hOffset := headerOffset_mod (args.foldl readArg {})
  simp only [Prod.mk.injEq] at hResult
  obtain ⟨hBuf, hLoad⟩ := hResult
  have hBounds : size % 16 = 0 ∧ 528 ≤ size := by
    have hMin : minSize = 528 := rfl
    split at hLoad <;> omega
  refine ⟨hBounds.1, hBounds.2, ?_⟩
  have hField (m : Mem) : readLE (fixSize m size) 0x44 4 = (size - 512) % 2 ^ 32 :=
    readLE_writeLE_same m 0x44 4 (size - 512)
  rw [hLoad] at hBuf
  rw [← hBuf]
  split
  · rw [setNextAddr, writeLong, writeLE, readLE_store_disjoint _ _ _ _ _ (by simp), hField]
  · exact hField _

end Fire3.UsbLoader

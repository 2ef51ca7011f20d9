import Fire3.ArmWrap.Elf
import Fire3.Base.CString

/-!
`arm_wrap`: a ROM image and an optional symbol file become an ELF file.

The string tables and the symbol table have fixed sizes and are filled without a
check. A step that would write outside its buffer has no result here, so a file
that fits the tool's tables is one for which the model has one.
-/

namespace Fire3.ArmWrap
open ByteMemory CString Records

def pgsize : Nat := 8192

def maxRomsize : Nat := 65536

def maxSym : Nat := 400

def maxline : Nat := 256

structure StringTable where
  buf : List UInt8
  within : buf.length ≤ pgsize

def initString : StringTable := ⟨[], Nat.zero_le _⟩

def addString (sp : StringTable) (s : CStr) : Option (Nat × StringTable) :=
  if h : (sp.buf ++ (s ++ [0])).length ≤ pgsize then
    some (sp.buf.length, ⟨sp.buf ++ (s ++ [0]), h⟩)
  else none

/-- `finish_string`: pad to an even size. A full page is even, so the pad byte fits. -/
def finishString (sp : StringTable) : StringTable :=
  if h : sp.buf.length % 2 = 1 then
    ⟨sp.buf ++ [0], by
      have hWithin := sp.within
      rw [List.length_append, List.length_singleton]
      unfold pgsize at hWithin ⊢
      omega⟩
  else sp

structure Symtab where
  sym : List Sym
  strings : StringTable
  within : sym.length ≤ maxSym

def nullSym : Sym := ⟨0, 0, 0, 0, 0, 0⟩

def initSymbol : Symtab := ⟨[nullSym], initString, by decide⟩

def funcSym (ix addr : Nat) : Sym := ⟨ix, addr, 0, 0x12, 0, 1⟩

def addSymbol (syms : Symtab) (name : CStr) (addr : Nat) : Option Symtab := do
  let (ix, strings) ← addString syms.strings name
  if h : (syms.sym ++ [funcSym ix addr]).length ≤ maxSym then
    some ⟨syms.sym ++ [funcSym ix addr], strings, h⟩
  else none

def finishSymbol (syms : Symtab) : Symtab := { syms with strings := finishString syms.strings }

def lineChars : Nat → List UInt8 → List UInt8
  | 0, _ | _ + 1, [] => []
  | n + 1, c :: cs => if c = 10 then [c] else c :: lineChars n cs

def fgets (input : List UInt8) : Option (List UInt8 × List UInt8) :=
  if input = [] then none
  else
    let chars := lineChars (maxline - 1) input
    some (chars, input.drop chars.length)

def isSpace (c : UInt8) : Bool := c = 32 || (9 ≤ c && c ≤ 13)

/-- `strtol(s, NULL, 16)` for a string too short to leave the range of a `long`. -/
def strtolHex (s : CStr) : Int :=
  let s := s.dropWhile isSpace
  let negative := s.head? = some 45
  let s := if s.head? = some 45 ∨ s.head? = some 43 then s.tail else s
  let value : Nat :=
    match s with
    | 48 :: x :: c :: cs =>
        if (x = 120 ∨ x = 88) ∧ isXDigit c then strtoulDigits 16 (c :: cs) 0
        else strtoulDigits 16 (48 :: x :: c :: cs) 0
    | s => strtoulDigits 16 s 0
  if negative then -value else value

/-- One line of a symbol file.
Only the characters `fgets` read and a NUL replace what `line` held before. -/
structure SymbolLine where
  line : List UInt8
  name : CStr
  addr : Nat

def parseLine (line chars : List UInt8) : Option SymbolLine :=
  let line := chars ++ 0 :: line.drop (chars.length + 1)
  let strlen := (ofArray line).length
  -- An empty string puts the NUL before the buffer.
  if strlen = 0 then none
  else
    let line := line.set (strlen - 1) 0
    let addr := (strtolHex ((ofArray line).take 8) % 2 ^ 32).toNat
    if 0 ∈ line.drop 9 then some ⟨line, ofArray (line.drop 9), addr⟩ else none

/-- The loop of `load_syms`; every turn takes at least one byte of the file. -/
def loadLines : Nat → List UInt8 → List UInt8 → Symtab → Option Symtab
  | 0, _, _, syms => some syms
  | fuel + 1, line, input, syms =>
      match fgets input with
      | none => some syms
      | some (chars, rest) => do
          let parsed ← parseLine line chars
          let syms ← addSymbol syms parsed.name parsed.addr
          loadLines fuel parsed.line rest syms

def loadSyms (line file : List UInt8) : Option Symtab :=
  (loadLines file.length line file initSymbol).map finishSymbol

/-- The section name table of `main` and the offsets of the names in it.
The last two offsets are set only with a symbol file. -/
structure SegStrings where
  table : StringTable
  sIndex : Nat
  tIndex : Nat
  syIndex : Nat
  sysIndex : Nat

def segStrings (symFile : Bool) : Option SegStrings := do
  let (_, table) ← addString initString []
  let (sIndex, table) ← addString table (ascii ".shstrtab")
  let (tIndex, table) ← addString table (ascii ".text")
  if symFile then
    let (syIndex, table) ← addString table (ascii ".symtab")
    let (sysIndex, table) ← addString table (ascii ".strtab")
    some ⟨finishString table, sIndex, tIndex, syIndex, sysIndex⟩
  else some ⟨finishString table, sIndex, tIndex, 0, 0⟩

def gnuExtra : List UInt8 := ascii "GCC: (GNU) 4.7.2" ++ [0]

structure Options where
  rombase : UInt32
  entry : UInt32

def mkEhdr (entry : UInt32) (shOff shnum : Nat) : Ehdr where
  ident := [0x7F, 0x45, 0x4C, 0x46, 1, 1, 1, 0, 0, 0, 0, 0, 0, 0, 0, 0]
  type := 2
  machine := 40
  version := 1
  entry := entry.toNat
  phoff := 52
  shoff := shOff
  flags := 0x01000000
  ehsize := 52
  phentsize := 0x20
  phnum := 1
  shentsize := 40
  shnum := shnum
  shstrndx := 3

def mkPhdr (rombase : UInt32) (romsize : Nat) : Phdr where
  type := 1
  offset := 0x2000
  vaddr := rombase.toNat
  paddr := rombase.toNat
  filesz := romsize
  memsz := romsize
  flags := 5
  align := 0x2000

def mkShdrNull : Shdr := ⟨0, 0, 0, 0, 0, 0, 0, 0, 0, 0⟩

def mkShdrT (offset tIndex : Nat) (rombase : UInt32) (romsize : Nat) : Shdr where
  name := tIndex
  type := 1
  flags := 6
  addr := rombase.toNat
  offset := offset
  size := romsize
  link := 0
  info := 0
  addralign := 4
  entsize := 0

def mkShdrG (offset : Nat) (index : UInt32) : Shdr where
  name := index.toNat
  type := 1
  flags := 0x30
  addr := 0
  offset := offset
  size := gnuExtra.length
  link := 0
  info := 0
  addralign := 1
  entsize := 1

def mkShdrS (offset sIndex size : Nat) : Shdr where
  name := sIndex
  type := 3
  flags := 0
  addr := 0
  offset := offset
  size := size
  link := 0
  info := 0
  addralign := 1
  entsize := 0

def mkShdrSy (offset sIndex size stringIndex : Nat) : Shdr where
  name := sIndex
  type := 2
  flags := 0
  addr := 0
  offset := offset
  size := size
  link := stringIndex
  info := 0
  addralign := 1
  entsize := 16

def Shdr.next (s : Shdr) : Nat := s.offset + s.size

/-- The section headers `main` makes, each at the `offset` its predecessor leaves. -/
def sectionHeaders (o : Options) (gIndex : UInt32) (romsize : Nat) (seg : SegStrings)
    (syms : Option Symtab) : List Shdr :=
  let t := mkShdrT pgsize seg.tIndex o.rombase romsize
  let g := mkShdrG t.next gIndex
  let s := mkShdrS g.next seg.sIndex seg.table.buf.length
  match syms with
  | none => [mkShdrNull, t, g, s]
  | some syms =>
      let sy := mkShdrSy s.next seg.syIndex (16 * syms.sym.length) (6 - 1)
      let sys := mkShdrS sy.next seg.sysIndex syms.strings.buf.length
      [mkShdrNull, t, g, s, sy, sys]

/-- What `main` writes, block by block. -/
structure Output where
  ehdr : Ehdr
  phdr : Phdr
  pad : List UInt8
  rom : List UInt8
  gnu : List UInt8
  shstrtab : List UInt8
  symbols : Option Symtab
  shdrs : List Shdr

def Output.symtab (out : Output) : List UInt8 :=
  match out.symbols with
  | none => []
  | some syms => syms.sym.flatMap Sym.bytes

def Output.strtab (out : Output) : List UInt8 :=
  match out.symbols with
  | none => []
  | some syms => syms.strings.buf

def Output.image (out : Output) : List UInt8 :=
  out.ehdr.bytes ++ (out.phdr.bytes ++ (out.pad ++ (out.rom ++ (out.gnu ++ (out.shstrtab ++
    (out.symtab ++ out.strtab))))))

def Output.table (out : Output) : List UInt8 := out.shdrs.flatMap Shdr.bytes

def Output.file (out : Output) : List UInt8 := out.image ++ out.table

/-- The blocks of `main` for a ROM and the symbols that were loaded, if any. -/
def wrap (o : Options) (gIndex : UInt32) (rom : List UInt8) (seg : SegStrings)
    (syms : Option Symtab) : Output :=
  let buf := rom.take maxRomsize
  let shOff := pgsize + buf.length + gnuExtra.length + seg.table.buf.length +
    match syms with
    | none => 0
    | some syms => 16 * syms.sym.length + syms.strings.buf.length
  { ehdr := mkEhdr o.entry shOff (if syms.isSome then 6 else 4)
    phdr := mkPhdr o.rombase buf.length
    pad := List.replicate (pgsize - 52 - 32) 0
    rom := buf
    gnu := gnuExtra
    shstrtab := seg.table.buf
    symbols := syms
    shdrs := sectionHeaders o gIndex buf.length seg syms }

/-- `main` after its options: the ROM, the symbol file if one is given, and the two
things the source leaves to chance, `g_index` and the first contents of `line`. -/
def main (o : Options) (gIndex : UInt32) (line rom : List UInt8) (symFile : Option (List UInt8)) :
    Option Output := do
  let syms ← match symFile with
    | none => some none
    | some file => (loadSyms line file).map some
  let seg ← segStrings symFile.isSome
  some (wrap o gIndex rom seg syms)

end Fire3.ArmWrap

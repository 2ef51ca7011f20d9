import Fire3.Base.Records

/-!
The 32-bit ELF structures of `<elf.h>` that `arm_wrap` writes, as bytes and as a
reader finds them in a file.
-/

namespace Fire3.ArmWrap
open ByteMemory Records

structure Ehdr where
  ident : List UInt8
  type : Nat
  machine : Nat
  version : Nat
  entry : Nat
  phoff : Nat
  shoff : Nat
  flags : Nat
  ehsize : Nat
  phentsize : Nat
  phnum : Nat
  shentsize : Nat
  shnum : Nat
  shstrndx : Nat
deriving DecidableEq

def Ehdr.fields (h : Ehdr) : List Field :=
  [(2, h.type), (2, h.machine), (4, h.version), (4, h.entry), (4, h.phoff), (4, h.shoff),
    (4, h.flags), (2, h.ehsize), (2, h.phentsize), (2, h.phnum), (2, h.shentsize), (2, h.shnum),
    (2, h.shstrndx)]

def Ehdr.bytes (h : Ehdr) : List UInt8 := h.ident ++ encode h.fields

def ehdrAt (m : Mem) (a : Nat) : Ehdr where
  ident := load m a 16
  type := readLE m (a + 16) 2
  machine := readLE m (a + 18) 2
  version := readLE m (a + 20) 4
  entry := readLE m (a + 24) 4
  phoff := readLE m (a + 28) 4
  shoff := readLE m (a + 32) 4
  flags := readLE m (a + 36) 4
  ehsize := readLE m (a + 40) 2
  phentsize := readLE m (a + 42) 2
  phnum := readLE m (a + 44) 2
  shentsize := readLE m (a + 46) 2
  shnum := readLE m (a + 48) 2
  shstrndx := readLE m (a + 50) 2

structure Phdr where
  type : Nat
  offset : Nat
  vaddr : Nat
  paddr : Nat
  filesz : Nat
  memsz : Nat
  flags : Nat
  align : Nat
deriving DecidableEq

def Phdr.fields (p : Phdr) : List Field :=
  [(4, p.type), (4, p.offset), (4, p.vaddr), (4, p.paddr), (4, p.filesz), (4, p.memsz),
    (4, p.flags), (4, p.align)]

def Phdr.bytes (p : Phdr) : List UInt8 := encode p.fields

def phdrAt (m : Mem) (a : Nat) : Phdr where
  type := readLE m a 4
  offset := readLE m (a + 4) 4
  vaddr := readLE m (a + 8) 4
  paddr := readLE m (a + 12) 4
  filesz := readLE m (a + 16) 4
  memsz := readLE m (a + 20) 4
  flags := readLE m (a + 24) 4
  align := readLE m (a + 28) 4

structure Shdr where
  name : Nat
  type : Nat
  flags : Nat
  addr : Nat
  offset : Nat
  size : Nat
  link : Nat
  info : Nat
  addralign : Nat
  entsize : Nat
deriving DecidableEq

def Shdr.fields (s : Shdr) : List Field :=
  [(4, s.name), (4, s.type), (4, s.flags), (4, s.addr), (4, s.offset), (4, s.size), (4, s.link),
    (4, s.info), (4, s.addralign), (4, s.entsize)]

def Shdr.bytes (s : Shdr) : List UInt8 := encode s.fields

def shdrAt (m : Mem) (a : Nat) : Shdr where
  name := readLE m a 4
  type := readLE m (a + 4) 4
  flags := readLE m (a + 8) 4
  addr := readLE m (a + 12) 4
  offset := readLE m (a + 16) 4
  size := readLE m (a + 20) 4
  link := readLE m (a + 24) 4
  info := readLE m (a + 28) 4
  addralign := readLE m (a + 32) 4
  entsize := readLE m (a + 36) 4

structure Sym where
  name : Nat
  value : Nat
  size : Nat
  info : Nat
  other : Nat
  shndx : Nat
deriving DecidableEq

def Sym.fields (s : Sym) : List Field :=
  [(4, s.name), (4, s.value), (4, s.size), (1, s.info), (1, s.other), (2, s.shndx)]

def Sym.bytes (s : Sym) : List UInt8 := encode s.fields

def symAt (m : Mem) (a : Nat) : Sym where
  name := readLE m a 4
  value := readLE m (a + 4) 4
  size := readLE m (a + 8) 4
  info := readLE m (a + 12) 1
  other := readLE m (a + 13) 1
  shndx := readLE m (a + 14) 2

@[simp] theorem Ehdr.length_bytes (h : Ehdr) (ident : h.ident.length = 16) :
    h.bytes.length = 52 := by
  simp [bytes, fields, ident]

@[simp] theorem Phdr.length_bytes (p : Phdr) : p.bytes.length = 32 := by
  simp [bytes, fields]

@[simp] theorem Shdr.length_bytes (s : Shdr) : s.bytes.length = 40 := by
  simp [bytes, fields]

@[simp] theorem Sym.length_bytes (s : Sym) : s.bytes.length = 16 := by
  simp [bytes, fields]

section

variable {m : Mem} {a n : Nat} {post : List UInt8}

theorem ehdrAt_of_load {h : Ehdr} (ident : h.ident.length = 16) (fits : Fits h.fields)
    (stored : load m a n = h.bytes ++ post) : ehdrAt m a = h := by
  rw [Ehdr.bytes, List.append_assoc] at stored
  obtain ⟨hIdent, hTail⟩ := load_split stored
  rw [ident] at hIdent hTail
  have hFields := decode_of_load hTail fits
  simp only [Ehdr.fields, List.map_cons, List.map_nil, decode, Nat.add_assoc, Nat.reduceAdd,
    List.cons.injEq, and_true] at hFields
  cases h
  simpa only [ehdrAt, Ehdr.mk.injEq, hIdent, true_and] using hFields

theorem Phdr.fields_injective : Function.Injective Phdr.fields := by
  rintro ⟨⟩ ⟨⟩ h
  simpa [Phdr.fields] using h

theorem Shdr.fields_injective : Function.Injective Shdr.fields := by
  rintro ⟨⟩ ⟨⟩ h
  simpa [Shdr.fields] using h

theorem Sym.fields_injective : Function.Injective Sym.fields := by
  rintro ⟨⟩ ⟨⟩ h
  simpa [Sym.fields] using h

end

def sections (m : Mem) : List Shdr :=
  let e := ehdrAt m 0
  (List.range e.shnum).map fun i => shdrAt m (e.shoff + e.shentsize * i)

end Fire3.ArmWrap

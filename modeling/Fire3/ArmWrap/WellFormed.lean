import Fire3.ArmWrap.Wrap

/-!
The file `arm_wrap` writes, parsed by its own headers.

Every offset, size and index in it is right. The one header field the source never
sets is the name of the section of the gnu string, so the file is well formed
exactly when the value that happened to be there is an offset of the name table.
-/

namespace Fire3.ArmWrap
open ByteMemory CString Records

def Output.contents (rom : List UInt8) (out : Output) : List (List UInt8) :=
  [[], rom, gnuExtra, out.shstrtab] ++ if out.symbols.isSome then [out.symtab, out.strtab] else []

def Output.names (out : Output) : List (Option CStr) :=
  [none, some (ascii ".text"), none, some (ascii ".shstrtab")] ++
    if out.symbols.isSome then [some (ascii ".symtab"), some (ascii ".strtab")] else []

def Output.mem (out : Output) : Mem := store zero 0 out.file

def Output.header (out : Output) : Ehdr := ehdrAt out.mem 0

def Output.segment (out : Output) : Phdr := phdrAt out.mem out.header.phoff

structure NameValid (strtab : List UInt8) (s : Shdr) (name : Option CStr) : Prop where
  inside : s.name ≠ 0 → s.name < strtab.length
  spells : ∀ n, name = some n → s.name ≠ 0 ∧ ofArray (strtab.drop s.name) = n

/-- The file written for `rom` says of itself what was written. -/
structure WellFormed (rom : List UInt8) (out : Output) : Prop where
  shoff : out.header.shoff = out.image.length
  shnum : out.header.shnum = out.shdrs.length
  shentsize : out.header.shentsize * out.header.shnum = out.table.length
  entries : sections out.mem = out.shdrs
  delimits : (sections out.mem).map (fun s => load out.mem s.offset s.size) = out.contents rom
  loads : load out.mem out.segment.offset out.segment.filesz = rom
  shstrndx : (out.contents rom)[out.header.shstrndx]? = some out.shstrtab
  link : ∀ s ∈ sections out.mem, s.type = 2 → (out.contents rom)[s.link]? = some out.strtab
  named : List.Forall₂ (NameValid out.shstrtab) (sections out.mem) out.names

def nameTable (symFile : Bool) : List UInt8 :=
  0 :: (ascii ".shstrtab" ++ 0 :: (ascii ".text" ++ 0 ::
    (if symFile then ascii ".symtab" ++ 0 :: (ascii ".strtab" ++ [0, 0]) else [0])))

structure SegStrings.Built (seg : SegStrings) (symFile : Bool) : Prop where
  buf : seg.table.buf = nameTable symFile
  sIndex : seg.sIndex = 1
  tIndex : seg.tIndex = 11
  symIndices : symFile = true → seg.syIndex = 17 ∧ seg.sysIndex = 25

theorem segStrings_eq (symFile : Bool) :
    ∃ seg, segStrings symFile = some seg ∧ seg.Built symFile := by
  cases symFile with
  | false => exact ⟨_, rfl, by decide, rfl, rfl, by decide⟩
  | true => exact ⟨_, rfl, by decide, rfl, rfl, by decide⟩

theorem length_nameTable (symFile : Bool) :
    (nameTable symFile).length = if symFile then 34 else 18 := by
  cases symFile <;> decide

theorem main_eq_some {o : Options} {gIndex : UInt32} {line rom : List UInt8}
    {symFile : Option (List UInt8)} {out : Output} (h : main o gIndex line rom symFile = some out) :
    ∃ seg syms, seg.Built syms.isSome ∧ out = wrap o gIndex rom seg syms ∧
      ((symFile = none ∧ syms = none) ∨
        ∃ file t, symFile = some file ∧ syms = some t ∧ loadSyms line file = some t) := by
  obtain ⟨seg, hSeg, hBuilt⟩ := segStrings_eq symFile.isSome
  cases symFile with
  | none =>
      simp only [main, hSeg, Option.bind_eq_bind, Option.bind_some, Option.some.injEq] at h
      grind
  | some file =>
      cases hLoad : loadSyms line file with
      | none => simp [main, hLoad] at h
      | some t =>
          simp only [main, hSeg, hLoad, Option.map_some, Option.bind_eq_bind, Option.bind_some,
            Option.some.injEq] at h
          grind

theorem length_symtab (out : Output) :
    out.symtab.length = match out.symbols with
      | none => 0
      | some syms => 16 * syms.sym.length := by
  unfold Output.symtab
  cases out.symbols with
  | none => rfl
  | some syms => exact length_flatMap_bytes fun s _ => s.length_bytes

theorem length_gnuExtra : gnuExtra.length = 17 := by decide

section

variable (o : Options) (gIndex : UInt32) (rom : List UInt8) (seg : SegStrings)
  (syms : Option Symtab)

theorem length_wrap_pad : (wrap o gIndex rom seg syms).pad.length = 8108 :=
  List.length_replicate

theorem wrap_shoff : (wrap o gIndex rom seg syms).ehdr.shoff =
    (wrap o gIndex rom seg syms).image.length := by
  have hIdent : (wrap o gIndex rom seg syms).ehdr.ident.length = 16 := rfl
  simp only [Output.image, List.length_append, Ehdr.length_bytes _ hIdent, Phdr.length_bytes,
    length_wrap_pad, length_symtab]
  cases syms <;> simp only [wrap, mkEhdr, Output.strtab, pgsize, List.length_nil] <;> omega

theorem length_wrap_shdrs : (wrap o gIndex rom seg syms).shdrs.length =
    (wrap o gIndex rom seg syms).ehdr.shnum := by
  cases syms <;> rfl

theorem wrap_shoff_lt (hSeg : seg.Built syms.isSome) :
    (wrap o gIndex rom seg syms).ehdr.shoff < 100000 := by
  have hRom : (rom.take maxRomsize).length ≤ 65536 := List.length_take_le _ _
  have hBuf : seg.table.buf.length ≤ 34 := by
    rw [hSeg.buf, length_nameTable]
    split <;> decide
  cases syms with
  | none =>
      simp only [wrap, mkEhdr, length_gnuExtra, pgsize]
      omega
  | some t =>
      have hSym : t.sym.length ≤ 400 := t.within
      have hStr : t.strings.buf.length ≤ 8192 := t.strings.within
      simp only [wrap, mkEhdr, length_gnuExtra, pgsize]
      omega

theorem fits_ehdr (hSeg : seg.Built syms.isSome) :
    Fits (wrap o gIndex rom seg syms).ehdr.fields := by
  have hOff := wrap_shoff_lt o gIndex rom seg syms hSeg
  have hEntry : o.entry.toNat < 4294967296 := o.entry.toNat_lt
  have hNum : (if syms.isSome then 6 else 4) < 65536 := by split <;> decide
  simp only [wrap, mkEhdr] at hOff
  simp only [wrap, Ehdr.fields, mkEhdr, fits_cons, fits_nil, and_true, Nat.reducePow, Nat.reduceLT,
    true_and]
  exact ⟨hEntry, by omega, hNum⟩

theorem fits_phdr : Fits (wrap o gIndex rom seg syms).phdr.fields := by
  have hBase : o.rombase.toNat < 4294967296 := o.rombase.toNat_lt
  have hRom : (rom.take maxRomsize).length ≤ 65536 := List.length_take_le _ _
  simp only [wrap, Phdr.fields, mkPhdr, fits_cons, fits_nil, and_true, Nat.reducePow, Nat.reduceLT,
    true_and]
  omega

theorem fits_shdrs (hSeg : seg.Built syms.isSome) :
    ∀ s ∈ (wrap o gIndex rom seg syms).shdrs, Fits s.fields := by
  have hOff := wrap_shoff_lt o gIndex rom seg syms hSeg
  have hBase : o.rombase.toNat < 4294967296 := o.rombase.toNat_lt
  have hIndex : gIndex.toNat < 4294967296 := gIndex.toNat_lt
  cases syms with
  | none =>
      simp only [wrap, mkEhdr, pgsize] at hOff
      simp only [wrap, sectionHeaders, List.forall_mem_cons, List.not_mem_nil, false_implies,
        implies_true, and_true, Shdr.fields, fits_cons, fits_nil, mkShdrNull, mkShdrT, mkShdrG,
        mkShdrS, Shdr.next, hSeg.tIndex, hSeg.sIndex, Nat.reducePow, Nat.reduceLT, true_and, pgsize]
      omega
  | some t =>
      obtain ⟨hSy, hSys⟩ := hSeg.symIndices rfl
      simp only [wrap, mkEhdr, pgsize] at hOff
      simp only [wrap, sectionHeaders, List.forall_mem_cons, List.not_mem_nil, false_implies,
        implies_true, and_true, Shdr.fields, fits_cons, fits_nil, mkShdrNull, mkShdrT, mkShdrG,
        mkShdrS, mkShdrSy, Shdr.next, hSeg.tIndex, hSeg.sIndex, hSy, hSys, Nat.reducePow,
        Nat.reduceLT, true_and, pgsize]
      omega

structure Blocks (out : Output) : Prop where
  ehdr : out.header = out.ehdr
  phdr : phdrAt out.mem 52 = out.phdr
  rom : load out.mem 8192 out.rom.length = out.rom
  gnu : load out.mem (8192 + out.rom.length) out.gnu.length = out.gnu
  shstrtab : load out.mem (8192 + out.rom.length + out.gnu.length) out.shstrtab.length =
    out.shstrtab
  symtab : load out.mem (8192 + out.rom.length + out.gnu.length + out.shstrtab.length)
    out.symtab.length = out.symtab
  strtab : load out.mem (8192 + out.rom.length + out.gnu.length + out.shstrtab.length +
    out.symtab.length) out.strtab.length = out.strtab
  entries : sections out.mem = out.shdrs

theorem wrap_blocks (hSeg : seg.Built syms.isSome) : Blocks (wrap o gIndex rom seg syms) := by
  have hFits := fits_shdrs o gIndex rom seg syms hSeg
  have hIdent : (wrap o gIndex rom seg syms).ehdr.ident.length = 16 := rfl
  have hPad := length_wrap_pad o gIndex rom seg syms
  have hEhdrFits := fits_ehdr o gIndex rom seg syms hSeg
  have hPhdrFits := fits_phdr o gIndex rom seg syms
  have hShoff := wrap_shoff o gIndex rom seg syms
  have hShnum := length_wrap_shdrs o gIndex rom seg syms
  have hEntsize : (wrap o gIndex rom seg syms).ehdr.shentsize = 40 := rfl
  generalize wrap o gIndex rom seg syms = out at *
  have hFile : load out.mem 0 out.file.length = out.image ++ out.table := load_store_same zero 0 _
  have hTable := (load_split hFile).2
  simp only [Output.image, List.append_assoc] at hFile
  have hEhdr : out.header = out.ehdr := ehdrAt_of_load hIdent hEhdrFits hFile
  obtain ⟨-, hAfterEhdr⟩ := load_split hFile
  rw [Ehdr.length_bytes _ hIdent] at hAfterEhdr
  obtain ⟨-, hAfterPhdr⟩ := load_split hAfterEhdr
  obtain ⟨-, hAfterPad⟩ := load_split hAfterPhdr
  rw [Phdr.length_bytes, hPad] at hAfterPad
  obtain ⟨hRom, hAfterRom⟩ := load_split hAfterPad
  obtain ⟨hGnu, hAfterGnu⟩ := load_split hAfterRom
  obtain ⟨hShstrtab, hAfterShstrtab⟩ := load_split hAfterGnu
  obtain ⟨hSymtab, hAfterSymtab⟩ := load_split hAfterShstrtab
  obtain ⟨hStrtab, -⟩ := load_split hAfterSymtab
  refine ⟨hEhdr, eq_of_load Phdr.fields_injective hPhdrFits hAfterEhdr rfl, hRom, hGnu, hShstrtab,
    hSymtab, hStrtab, ?_⟩
  have hShdr : ∀ s ∈ out.shdrs, ∀ a n post, load out.mem a n = s.bytes ++ post →
      shdrAt out.mem a = s := fun s hs _ _ _ stored =>
    eq_of_load Shdr.fields_injective (hFits s hs) stored rfl
  have hEntries := map_read_of_load (fun s _ => s.length_bytes) hShdr
    (hTable.trans (List.append_nil _).symm)
  rw [Nat.zero_add] at hEntries
  rwa [sections, ← Output.header, hEhdr, ← hShnum, hShoff, hEntsize]

theorem wrap_delimits (hSeg : seg.Built syms.isSome) (hSize : rom.length ≤ maxRomsize) :
    (wrap o gIndex rom seg syms).shdrs.map
      (fun s => load (wrap o gIndex rom seg syms).mem s.offset s.size) =
      (wrap o gIndex rom seg syms).contents rom := by
  have hBlocks := wrap_blocks o gIndex rom seg syms hSeg
  have hRom : (wrap o gIndex rom seg syms).rom = rom := List.take_of_length_le hSize
  have hGnu : (wrap o gIndex rom seg syms).gnu = gnuExtra := rfl
  have hSymbols : (wrap o gIndex rom seg syms).symbols = syms := rfl
  have hShdrs : (wrap o gIndex rom seg syms).shdrs = sectionHeaders o gIndex
    (wrap o gIndex rom seg syms).rom.length seg (wrap o gIndex rom seg syms).symbols := rfl
  have hTable : seg.table.buf = (wrap o gIndex rom seg syms).shstrtab := rfl
  generalize wrap o gIndex rom seg syms = out at *
  subst hSymbols
  have hRomAt := hBlocks.rom
  have hGnuAt := hBlocks.gnu
  have hShstrtabAt := hBlocks.shstrtab
  have hSymtabAt := hBlocks.symtab
  have hStrtabAt := hBlocks.strtab
  rw [length_symtab] at hSymtabAt hStrtabAt
  rw [hRom] at hRomAt hGnuAt hShstrtabAt hSymtabAt hStrtabAt
  rw [hGnu] at hGnuAt hShstrtabAt hSymtabAt hStrtabAt
  rw [hShdrs, hRom, Output.contents]
  cases hSyms : out.symbols with
  | none =>
      simp [sectionHeaders, mkShdrNull, mkShdrT, mkShdrG, mkShdrS, Shdr.next, pgsize, hTable,
        hRomAt, hGnuAt, hShstrtabAt]
  | some t =>
      have hStrtab : out.strtab = t.strings.buf := by
        rw [Output.strtab, hSyms]
      rw [hSyms] at hSymtabAt hStrtabAt
      rw [hStrtab] at hStrtabAt
      simp [sectionHeaders, mkShdrNull, mkShdrT, mkShdrG, mkShdrS, mkShdrSy, Shdr.next, pgsize,
        hTable, hRomAt, hGnuAt, hShstrtabAt, hSymtabAt, hStrtabAt, hStrtab]

theorem nameValid_none_iff {strtab : List UInt8} (h : 0 < strtab.length) (s : Shdr) :
    NameValid strtab s none ↔ s.name < strtab.length := by
  constructor
  · intro hValid
    by_cases hZero : s.name = 0
    · rwa [hZero]
    · exact hValid.inside hZero
  · exact fun hLt => ⟨fun _ => hLt, nofun⟩

theorem nameValid_some {strtab : List UInt8} {s : Shdr} {off : Nat} {name : CStr}
    (hName : s.name = off)
    (h : off ≠ 0 ∧ off < strtab.length ∧ ofArray (strtab.drop off) = name) :
    NameValid strtab s (some name) := by
  subst hName
  refine ⟨fun _ => h.2.1, ?_⟩
  rintro n ⟨⟩
  exact ⟨h.1, h.2.2⟩

theorem wrap_named_iff (hSeg : seg.Built syms.isSome) :
    List.Forall₂ (NameValid (wrap o gIndex rom seg syms).shstrtab)
      (wrap o gIndex rom seg syms).shdrs (wrap o gIndex rom seg syms).names ↔
      gIndex.toNat < (wrap o gIndex rom seg syms).shstrtab.length := by
  have hTable : (wrap o gIndex rom seg syms).shstrtab = nameTable syms.isSome := hSeg.buf
  have hShdrs : (wrap o gIndex rom seg syms).shdrs =
    sectionHeaders o gIndex (rom.take maxRomsize).length seg syms := rfl
  have hNames : (wrap o gIndex rom seg syms).names =
    [none, some (ascii ".text"), none, some (ascii ".shstrtab")] ++
      if syms.isSome then [some (ascii ".symtab"), some (ascii ".strtab")] else [] := rfl
  have hPos : 0 < (nameTable syms.isSome).length := Nat.succ_pos _
  have hNull := (nameValid_none_iff hPos mkShdrNull).mpr hPos
  have hText : ∀ n, NameValid (nameTable syms.isSome) (mkShdrT pgsize seg.tIndex o.rombase n)
      (some (ascii ".text")) := by
    intro n
    apply nameValid_some hSeg.tIndex
    cases syms.isSome <;> decide
  have hShstrtab : ∀ off n, NameValid (nameTable syms.isSome) (mkShdrS off seg.sIndex n)
      (some (ascii ".shstrtab")) := by
    intro off n
    apply nameValid_some hSeg.sIndex
    cases syms.isSome <;> decide
  have hGnu : ∀ off, NameValid (nameTable syms.isSome) (mkShdrG off gIndex) none ↔
      gIndex.toNat < (nameTable syms.isSome).length :=
    fun off => nameValid_none_iff hPos (mkShdrG off gIndex)
  rw [hTable, hShdrs, hNames]
  cases syms with
  | none =>
      rw [Option.isSome_none] at *
      simp [sectionHeaders, hNull, hText, hShstrtab, hGnu]
  | some t =>
      obtain ⟨hSy, hSys⟩ := hSeg.symIndices rfl
      have hSymtab : ∀ off n i, NameValid (nameTable true) (mkShdrSy off seg.syIndex n i)
          (some (ascii ".symtab")) := fun off n i => nameValid_some hSy (by decide)
      have hStrtab : ∀ off n, NameValid (nameTable true) (mkShdrS off seg.sysIndex n)
          (some (ascii ".strtab")) := fun off n => nameValid_some hSys (by decide)
      rw [Option.isSome_some] at *
      simp [sectionHeaders, hNull, hText, hShstrtab, hGnu, hSymtab, hStrtab]

theorem wrap_link : ∀ s ∈ (wrap o gIndex rom seg syms).shdrs, s.type = 2 →
    ((wrap o gIndex rom seg syms).contents rom)[s.link]? =
      some (wrap o gIndex rom seg syms).strtab := by
  have hShdrs : (wrap o gIndex rom seg syms).shdrs =
    sectionHeaders o gIndex (rom.take maxRomsize).length seg syms := rfl
  rw [hShdrs]
  cases syms with
  | none => simp [sectionHeaders, mkShdrNull, mkShdrT, mkShdrG, mkShdrS]
  | some t =>
      have hContents : ((wrap o gIndex rom seg (some t)).contents rom)[5]? =
        some (wrap o gIndex rom seg (some t)).strtab := rfl
      simp [sectionHeaders, mkShdrNull, mkShdrT, mkShdrG, mkShdrS, mkShdrSy, hContents]

theorem wellFormed_wrap_iff (hSeg : seg.Built syms.isSome) (hSize : rom.length ≤ maxRomsize) :
    WellFormed rom (wrap o gIndex rom seg syms) ↔
      gIndex.toNat < (wrap o gIndex rom seg syms).shstrtab.length := by
  have hBlocks := wrap_blocks o gIndex rom seg syms hSeg
  have hHeader := hBlocks.ehdr
  have hEntries := hBlocks.entries
  constructor
  · intro hWell
    have hNamed := hWell.named
    rw [hEntries] at hNamed
    exact (wrap_named_iff o gIndex rom seg syms hSeg).mp hNamed
  · intro hIndex
    have hRom : (wrap o gIndex rom seg syms).rom = rom := List.take_of_length_le hSize
    have hSegment : (wrap o gIndex rom seg syms).segment = (wrap o gIndex rom seg syms).phdr := by
      rw [Output.segment, hHeader]
      exact hBlocks.phdr
    have hShnum := length_wrap_shdrs o gIndex rom seg syms
    have hTable : (wrap o gIndex rom seg syms).table.length =
      40 * (wrap o gIndex rom seg syms).shdrs.length :=
        length_flatMap_bytes fun s _ => s.length_bytes
    refine ⟨?_, ?_, ?_, hEntries, ?_, ?_, ?_, ?_, ?_⟩
    · rw [hHeader, wrap_shoff]
    · rw [hHeader, hShnum]
    · rw [hHeader, hTable, hShnum]
      rfl
    · rw [hEntries]
      exact wrap_delimits o gIndex rom seg syms hSeg hSize
    · have hLoad := hBlocks.rom
      rw [hRom] at hLoad
      rw [hSegment]
      have hFilesz : (wrap o gIndex rom seg syms).phdr.filesz = rom.length :=
        congrArg List.length hRom
      rw [hFilesz]
      exact hLoad
    · rw [hHeader]
      rfl
    · rw [hEntries]
      exact wrap_link o gIndex rom seg syms
    · rw [hEntries]
      exact (wrap_named_iff o gIndex rom seg syms hSeg).mpr hIndex

end

/-- For every ROM of at most 64 KiB and every symbol file that fits the tables of
`arm_wrap`, the file it writes is well formed exactly when the name of the gnu
section, which `main` passes on without ever setting it, is an offset of the name
table. -/
theorem arm_wrap_well_formed_iff {o : Options} {gIndex : UInt32} {line rom : List UInt8}
    {symFile : Option (List UInt8)} {out : Output} (size : rom.length ≤ maxRomsize)
    (fits : main o gIndex line rom symFile = some out) :
    WellFormed rom out ↔ gIndex.toNat < out.shstrtab.length := by
  obtain ⟨seg, syms, hSeg, rfl, -⟩ := main_eq_some fits
  exact wellFormed_wrap_iff o gIndex rom seg syms hSeg size

/-- A ROM of one word with the symbols `start` and `main`. -/
theorem arm_wrap_well_formed_iff_two_symbols :
    ∃ out, main ⟨0xffff0000, 0xffff0000⟩ 0 [] [0, 0, 0xa0, 0xe1]
        (some (ascii "ffff0000 start\nffff0004 main\n")) = some out ∧
      (WellFormed [0, 0, 0xa0, 0xe1] out ↔ (0 : UInt32).toNat < out.shstrtab.length) := by
  have hSome : (main ⟨0xffff0000, 0xffff0000⟩ 0 [] [0, 0, 0xa0, 0xe1]
      (some (ascii "ffff0000 start\nffff0004 main\n"))).isSome = true := by decide +kernel
  obtain ⟨out, hOut⟩ := Option.isSome_iff_exists.mp hSome
  exact ⟨out, hOut, arm_wrap_well_formed_iff (by decide) hOut⟩

/-- With 64 where `g_index` happens to be, the gnu section has a name outside the
table of names. -/
theorem arm_wrap_ill_formed :
    ∃ out, main ⟨0, 0⟩ 64 [] [] none = some out ∧ ¬WellFormed [] out := by
  obtain ⟨seg, hSome, hSeg⟩ := segStrings_eq false
  refine ⟨wrap ⟨0, 0⟩ 64 [] seg none, by simp [main, hSome], ?_⟩
  rw [wellFormed_wrap_iff ⟨0, 0⟩ 64 [] seg none hSeg (Nat.zero_le _)]
  have hTable : (wrap ⟨0, 0⟩ 64 [] seg none).shstrtab = nameTable false := hSeg.buf
  rw [hTable]
  decide

end Fire3.ArmWrap

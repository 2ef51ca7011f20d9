import Fire3.Gpt.Entries
import Fire3.Gpt.Safety

/-!
A table on the device as `write_gpt_table` writes it is one that `is_gpt_valid` accepts, and its
entries are those that were written.
-/

namespace Fire3.Gpt
open ByteMemory CString Records

theorem efiCrc32_lt (buf : List UInt8) : efiCrc32 buf < 2 ^ 32 := (crc32 0 buf).toNat_lt

section
variable (g : GptHeader)

structure GptHeader.Fits : Prop where
  crc : g.headerCrc32 < 2 ^ 32
  my : g.myLba < 2 ^ 64
  alternate : g.alternateLba < 2 ^ 64
  last : g.lastUsableLba < 2 ^ 64
  guid : g.diskGuid.length = 16
  entry : g.partitionEntryLba < 2 ^ 64
  array : g.partitionEntryArrayCrc32 < 2 ^ 32

def GptHeader.front : List UInt8 := encode [(8, gptHeaderSignature), (4, 0x00010000), (4, 92)]

def GptHeader.rest : List UInt8 :=
  encode [(4, 0), (8, g.myLba), (8, g.alternateLba), (8, 34), (8, g.lastUsableLba)] ++
    (g.diskGuid ++ encode [(8, g.partitionEntryLba), (4, 128), (4, 128),
      (4, g.partitionEntryArrayCrc32)])

theorem GptHeader.bytes_eq : g.bytes = front ++ (leBytes 4 g.headerCrc32 ++ g.rest) := by
  simp only [GptHeader.bytes, front, GptHeader.rest, encode_cons, encode_nil, List.append_nil,
    List.append_assoc]

variable {g} (hg : g.Fits)
include hg

theorem GptHeader.Fits.sealed : g.sealed.Fits :=
  ⟨efiCrc32_lt _, hg.my, hg.alternate, hg.last, hg.guid, hg.entry, hg.array⟩

theorem GptHeader.Fits.length_rest : g.rest.length = 72 := by
  simp [GptHeader.rest, hg.guid]

theorem GptHeader.Fits.length_bytes : g.bytes.length = 92 := by
  rw [GptHeader.bytes_eq, List.length_append, List.length_append, length_leBytes, hg.length_rest]
  simp [GptHeader.front]

variable {h : Mem} (hLoad : load h 0 92 = g.bytes)
include hLoad

theorem GptHeader.Fits.fields :
    signature h = gptHeaderSignature ∧ headerSize h = 92 ∧ Gpt.headerCrc32 h = g.headerCrc32 ∧
      Gpt.myLba h = g.myLba ∧ firstUsableLba h = 34 ∧ Gpt.lastUsableLba h = g.lastUsableLba := by
  have hFields := decode_of_load (hLoad.trans (List.append_assoc ..)) (by
    simp only [fits_cons, fits_nil, and_true]
    exact ⟨by decide, by decide, by decide, hg.crc, by decide, hg.my, hg.alternate, by decide,
      hg.last⟩)
  simp only [List.map_cons, List.map_nil, decode, List.cons.injEq] at hFields
  obtain ⟨h₁, -, h₂, h₃, -, h₄, -, h₅, h₆, -⟩ := hFields
  exact ⟨h₁, h₂, h₃, h₄, h₅, h₆⟩

theorem GptHeader.Fits.entry_fields :
    Gpt.partitionEntryLba h = g.partitionEntryLba ∧ numPartitionEntries h = 128 ∧
      sizeofPartitionEntry h = 128 ∧
      Gpt.partitionEntryArrayCrc32 h = g.partitionEntryArrayCrc32 := by
  have hTail := (load_split hLoad).2
  rw [List.length_append, hg.guid] at hTail
  have hFields := decode_of_load (hTail.trans (List.append_nil _).symm) (by
    simp only [fits_cons, fits_nil, and_true]
    exact ⟨hg.entry, by decide, by decide, hg.array⟩)
  simp only [List.map_cons, List.map_nil, decode, List.cons.injEq] at hFields
  obtain ⟨h₁, h₂, h₃, h₄, -⟩ := hFields
  exact ⟨h₁, h₂, h₃, h₄⟩

theorem GptHeader.Fits.headerCrc : Gpt.headerCrc h = efiCrc32 { g with headerCrc32 := 0 }.bytes := by
  have hClear : load (store h 16 [0, 0, 0, 0]) 0 92 = { g with headerCrc32 := 0 }.bytes := by
    rw [GptHeader.bytes_eq] at hLoad ⊢
    have hFront := (load_split hLoad).1
    have hRest := (load_split (load_split hLoad).2).2
    have hMid : load (store h 16 [0, 0, 0, 0]) 16 4 = leBytes 4 0 :=
      load_store_same h 16 [0, 0, 0, 0]
    rw [length_leBytes, hg.length_rest] at hRest
    rw [show 92 = 16 + (4 + 72) from rfl, load_add, load_add,
      load_store_disjoint _ _ _ 0 16 (.inl (by decide)),
      load_store_disjoint _ _ _ (0 + 16 + 4) 72 (.inr (by decide))]
    exact congrArg₂ _ hFront (congrArg₂ _ hMid hRest)
  rw [Gpt.headerCrc, (hg.fields hLoad).2.1, hClear]

end

structure Copy (dev : BlockDev) (pte : List UInt8) (g : GptHeader) : Prop where
  fits : g.Fits
  header : load dev.contents (g.myLba * dev.blksz) 92 = g.sealed.bytes
  entries : load dev.contents (g.partitionEntryLba * dev.blksz)
    (padCount (128 * 128) dev.blksz * dev.blksz) = pte
  array : g.partitionEntryArrayCrc32 = efiCrc32 (pte.take (128 * 128))
  first : 34 ≤ dev.lba
  last : g.lastUsableLba ≤ dev.lba
  header_in : g.myLba + 1 ≤ dev.lba
  entries_in : g.partitionEntryLba + padCount (128 * 128) dev.blksz ≤ dev.lba

structure Works (m : Memory) (dev : BlockDev) : Prop where
  reads : ∀ start blkcnt, dev.reads start blkcnt = true ↔ start + blkcnt ≤ dev.lba
  writes : ∀ start blkcnt, dev.writes start blkcnt = true → start + blkcnt ≤ dev.lba
  memalign : ∀ size, m.memalign size = true

section
variable {m : Memory} {dev : BlockDev} {pte : List UInt8} {g : GptHeader} (hCopy : Copy dev pte g)
  (hSector : 512 ≤ dev.blksz)
include hCopy hSector

theorem Copy.load_headerRead (h : Mem) : load (headerRead dev g.myLba h) 0 92 = g.sealed.bytes := by
  have hBlock := load_store_inside h 0 (load dev.contents (g.myLba * dev.blksz) (1 * dev.blksz))
    (show 0 + 92 ≤ _ by rw [length_load]; omega)
  rw [Nat.zero_add] at hBlock
  rw [headerRead, hBlock, load_take_drop _ _ (by omega), Nat.add_zero, hCopy.header]

theorem Copy.entriesSize (h : Mem) : entriesSize (headerRead dev g.myLba h) = 128 * 128 := by
  obtain ⟨-, hNum, hSize, -⟩ := hCopy.fits.sealed.entry_fields (hCopy.load_headerRead hSector h)
  grind [Gpt.entriesSize, Nat.mod_eq_of_lt]

theorem Copy.entriesAt (h : Mem) : entriesAt dev (headerRead dev g.myLba h) = pte := by
  obtain ⟨hLba, -⟩ := hCopy.fits.sealed.entry_fields (hCopy.load_headerRead hSector h)
  rw [Gpt.entriesAt, hLba, hCopy.entriesSize hSector]
  exact hCopy.entries

theorem Copy.headerFitsAt (h : Mem) : HeaderFitsAt dev g.myLba h := by
  intro _ _
  obtain ⟨-, hSize, -⟩ := hCopy.fits.sealed.fields (hCopy.load_headerRead hSector h)
  have hPad := le_padSize 92 dev
  rw [hSize, headerBufSize, padSize]
  omega

theorem Copy.tableAt (hWorks : Works m dev) (h : Mem) : TableAt m dev g.myLba h := by
  have hLoad := hCopy.load_headerRead hSector h
  obtain ⟨hSignature, hSize, hCrc, hMy, hFirst, hLast⟩ := hCopy.fits.sealed.fields hLoad
  obtain ⟨hLba, hNum, -, hArray⟩ := hCopy.fits.sealed.entry_fields hLoad
  have hEntries := hCopy.entriesSize hSector h
  refine ⟨(hWorks.reads _ _).mpr hCopy.header_in, hSignature, ?_, hMy, ?_, ?_, ?_,
    hWorks.memalign _, ?_, ?_⟩
  · rw [hCopy.fits.sealed.headerCrc hLoad, hCrc]
    rfl
  · rw [hFirst]
    exact hCopy.first
  · rw [hLast]
    exact hCopy.last
  · rw [hEntries]
    decide
  · rw [hEntries, hLba]
    exact (hWorks.reads _ _).mpr hCopy.entries_in
  · rw [hEntries, hCopy.entriesAt hSector, hArray]
    exact hCopy.array.symm

end

/-!
The device after `gpt_restore`: a copy of the table at each end of it.
-/

section
variable {mem : Mem} {b s n a k len : Nat} {bytes : List UInt8}

theorem load_store_blocks (hLen : len ≤ k * b) (hApart : a + k ≤ s ∨ s + n ≤ a) :
    load (store mem (s * b) (bytes.take (n * b))) (a * b) len = load mem (a * b) len := by
  apply load_store_disjoint
  rw [List.length_take]
  rcases hApart with hBelow | hAbove
  · left
    have hMul := Nat.mul_le_mul_right b hBelow
    rw [Nat.add_mul] at hMul
    omega
  · right
    have hMul := Nat.mul_le_mul_right b hAbove
    rw [Nat.add_mul] at hMul
    omega

theorem load_store_same_blocks (hLen : len ≤ bytes.length) (hBlocks : len ≤ n * b) :
    load (store mem (s * b) (bytes.take (n * b))) (s * b) len = bytes.take len := by
  have hIn := load_store_inside mem (s * b) (bytes.take (n * b))
    (show 0 + len ≤ _ by rw [List.length_take]; omega)
  grind

theorem load_written {lba cnt : Nat} {mbr first pte second : List UInt8} (hLarge : 67 ≤ lba)
    (hCnt : cnt ≤ 32) (hSector : 512 ≤ b) (hFirst : 92 ≤ first.length)
    (hPte : pte.length = cnt * b) (hSecond : 92 ≤ second.length) :
    let written := store (store (store (store (store mem (0 * b) (mbr.take (1 * b)))
      (1 * b) (first.take (1 * b))) (2 * b) (pte.take (cnt * b)))
      ((lba - 33) * b) (pte.take (cnt * b))) ((lba - 1) * b) (second.take (1 * b))
    load written (1 * b) 92 = first.take 92 ∧ load written (2 * b) (cnt * b) = pte ∧
      load written ((lba - 33) * b) (cnt * b) = pte ∧
      load written ((lba - 1) * b) 92 = second.take 92 := by
  have hBlock : 92 ≤ 1 * b := by omega
  have hAll : pte.take (cnt * b) = pte := by rw [← hPte, List.take_length]
  refine ⟨?_, ?_, ?_, load_store_same_blocks hSecond hBlock⟩
  · rw [load_store_blocks hBlock (.inl (by omega)), load_store_blocks hBlock (.inl (by omega)),
      load_store_blocks hBlock (.inl (by omega)), load_store_same_blocks hFirst hBlock]
  · rw [load_store_blocks (le_refl _) (.inl (by omega)),
      load_store_blocks (le_refl _) (.inl (by omega)), load_store_same_blocks hPte.ge (le_refl _), hAll]
  · rw [load_store_blocks (le_refl _) (.inl (by omega)), load_store_same_blocks hPte.ge (le_refl _),
      hAll]

end

theorem blockWrite_eq_some {dev dev' : BlockDev} {start blkcnt : Nat} {bytes : List UInt8} :
    dev.blockWrite start blkcnt bytes = some dev' ↔ dev.writes start blkcnt = true ∧
      dev' = { dev with
        contents := store dev.contents (start * dev.blksz) (bytes.take (blkcnt * dev.blksz)) } := by
  rw [BlockDev.blockWrite]
  split
  · rename_i hWrite
    rw [Option.some_inj, eq_comm]
    exact (and_iff_right hWrite).symm
  · rename_i hWrite
    exact iff_of_false (Option.some_ne_none _).symm fun hSome => hWrite hSome.1

theorem sector_of_padCount {dev : BlockDev} (h : padCount (128 * 128) dev.blksz ≤ 33) :
    512 ≤ dev.blksz ∧ padCount (128 * 128) dev.blksz ≤ 32 := by
  rw [padCount, BlockDev.blksz] at h ⊢
  have hNine : 9 ≤ dev.log2blksz := by
    by_contra hNot
    have hPow : 2 ^ dev.log2blksz ≤ 2 ^ 8 := Nat.pow_le_pow_right (by decide) (by omega)
    have hDiv := Nat.div_le_div_left (a := 128 * 128 - 1) hPow (Nat.two_pow_pos _)
    omega
  have hPow : 2 ^ 9 ≤ 2 ^ dev.log2blksz := Nat.pow_le_pow_right (by decide) hNine
  have hDiv := Nat.div_le_div_left (a := 128 * 128 - 1) hPow (Nat.two_pow_pos _)
  omega

theorem length_padToBlocksize {dev : BlockDev} {bytes : List UInt8} {size : Nat}
    (h : bytes.length ≤ size) :
    (padToBlocksize dev bytes size).length = padCount size dev.blksz * dev.blksz := by
  have hPad := le_padSize size dev
  rw [padToBlocksize, List.length_append, List.length_replicate, padSize]
  omega

section
variable {m : Memory} {dev dev' : BlockDev} {strDiskGuid : CStr} {partitions : List Request}

def primaryHeader (dev : BlockDev) (diskGuid pte : List UInt8) : GptHeader :=
  { headerCrc32 := 0
    myLba := 1
    alternateLba := dev.lba - 1
    lastUsableLba := dev.lba - 34
    diskGuid
    partitionEntryLba := 2
    partitionEntryArrayCrc32 := efiCrc32 (pte.take (128 * 128)) }

def backupHeader (dev : BlockDev) (diskGuid pte : List UInt8) : GptHeader :=
  { headerCrc32 := efiCrc32 (primaryHeader dev diskGuid pte).bytes
    myLba := dev.lba - 1
    alternateLba := 1
    lastUsableLba := dev.lba - 34
    diskGuid
    partitionEntryLba := dev.lba - 33
    partitionEntryArrayCrc32 := efiCrc32 (pte.take (128 * 128)) }

theorem primaryHeader_fits {diskGuid pte : List UInt8} (hWord : dev.lba < 2 ^ 64)
    (hGuid : diskGuid.length = 16) : (primaryHeader dev diskGuid pte).Fits :=
  ⟨(by decide : 0 < 2 ^ 32), (by decide : 1 < 2 ^ 64), (by omega : dev.lba - 1 < 2 ^ 64),
    (by omega : dev.lba - 34 < 2 ^ 64), hGuid, (by decide : 2 < 2 ^ 64), efiCrc32_lt _⟩

theorem backupHeader_fits {diskGuid pte : List UInt8} (hWord : dev.lba < 2 ^ 64)
    (hGuid : diskGuid.length = 16) : (backupHeader dev diskGuid pte).Fits :=
  ⟨efiCrc32_lt _, (by omega : dev.lba - 1 < 2 ^ 64), (by decide : 1 < 2 ^ 64),
    (by omega : dev.lba - 34 < 2 ^ 64), hGuid, (by omega : dev.lba - 33 < 2 ^ 64), efiCrc32_lt _⟩

theorem gptRestore_copies (hWorks : Works m dev) (hLarge : 67 ≤ dev.lba) (hWord : dev.lba < 2 ^ 64)
    (hSmall : ∀ es, gptFillPte (dev.lba - 34) 34 partitions = some es → es.flatten.length ≤ 128 * 128)
    (hRestore : gptRestore m dev strDiskGuid partitions = some dev') :
    ∃ es diskGuid contents, gptFillPte (dev.lba - 34) 34 partitions = some es ∧
      dev' = { dev with contents } ∧ 512 ≤ dev.blksz ∧
      let pte := padToBlocksize dev es.flatten (128 * 128)
      Copy dev' pte (primaryHeader dev diskGuid pte) ∧
        Copy dev' pte (backupHeader dev diskGuid pte) := by
  have hLast : dev.lastLba = dev.lba - 1 := by
    rw [BlockDev.lastLba]
    omega
  have hUsable : (dev.lba + (2 ^ 64 - 34)) % 2 ^ 64 = dev.lba - 34 := by omega
  have hBackup : (dev.lba - 34 + 1) % 2 ^ 64 = dev.lba - 33 := by omega
  rw [gptRestore, Option.bind_eq_bind, Option.bind_eq_some_iff] at hRestore
  obtain ⟨g, hHeader, hRestore⟩ := hRestore
  rw [gptFillHeader, hLast, hUsable, Option.map_eq_some_iff] at hHeader
  obtain ⟨diskGuid, hGuid, rfl⟩ := hHeader
  have hGuidLength := length_uuidStrToBin hGuid
  rw [Option.bind_eq_bind, Option.bind_eq_some_iff] at hRestore
  obtain ⟨es, hFill, hRestore⟩ := hRestore
  have hPteLength : (padToBlocksize dev es.flatten (128 * 128)).length =
      padCount (128 * 128) dev.blksz * dev.blksz := length_padToBlocksize (hSmall es hFill)
  refine ⟨es, diskGuid, ?_⟩
  simp only [writeGptTable, Option.bind_eq_bind] at hRestore
  generalize hPte : padToBlocksize dev es.flatten (128 * 128) = pte at hRestore hPteLength ⊢
  rw [Option.bind_eq_some_iff] at hRestore
  obtain ⟨dev₁, hMbr, hRestore⟩ := hRestore
  obtain ⟨hWrite₁, rfl⟩ := blockWrite_eq_some.mp hMbr
  rw [Option.bind_eq_some_iff] at hRestore
  obtain ⟨dev₂, hFirst, hRestore⟩ := hRestore
  obtain ⟨hWrite₂, rfl⟩ := blockWrite_eq_some.mp hFirst
  rw [Option.bind_eq_some_iff] at hRestore
  obtain ⟨dev₃, hEntries, hRestore⟩ := hRestore
  obtain ⟨hWrite₃, rfl⟩ := blockWrite_eq_some.mp hEntries
  rw [Option.bind_eq_some_iff] at hRestore
  obtain ⟨dev₄, hSecond, hRestore⟩ := hRestore
  obtain ⟨hWrite₄, rfl⟩ := blockWrite_eq_some.mp hSecond
  obtain ⟨hWrite₅, rfl⟩ := blockWrite_eq_some.mp hRestore
  simp only [GptHeader.backup, GptHeader.sealed, hBackup] at hWrite₄ hWrite₅ ⊢
  have hCnt := hWorks.writes _ _ hWrite₄
  obtain ⟨hSector, hCnt⟩ := sector_of_padCount (by omega : padCount (128 * 128) dev.blksz ≤ 33)
  have hPrimary : (primaryHeader dev diskGuid pte).Fits := primaryHeader_fits hWord hGuidLength
  have hSecondary : (backupHeader dev diskGuid pte).Fits := backupHeader_fits hWord hGuidLength
  have hPad : ∀ g : GptHeader, g.Fits →
      92 ≤ (padToBlocksize dev g.sealed.bytes 92).length ∧
        (padToBlocksize dev g.sealed.bytes 92).take 92 = g.sealed.bytes := by
    intro g hg
    rw [padToBlocksize, List.take_left' hg.sealed.length_bytes, List.length_append,
      hg.sealed.length_bytes]
    exact ⟨Nat.le_add_right .., rfl⟩
  have hWritten := @load_written dev.contents dev.blksz dev.lba _
    (load (store m.stack 0 (protectiveMbr dev)) 0 dev.blksz) _ _ _
    hLarge hCnt hSector (hPad _ hPrimary).1 hPteLength (hPad _ hSecondary).1
  rw [(hPad _ hPrimary).2, (hPad _ hSecondary).2] at hWritten
  obtain ⟨h₁, h₂, h₃, h₄⟩ := hWritten
  refine ⟨_, hFill, rfl, hSector, ⟨hPrimary, h₁, h₂, rfl, ?_, ?_, ?_, ?_⟩,
    ⟨hSecondary, h₄, h₃, rfl, ?_, ?_, ?_, ?_⟩⟩
  · exact (by omega : 34 ≤ dev.lba)
  · exact (by omega : dev.lba - 34 ≤ dev.lba)
  · exact (by omega : 1 + 1 ≤ dev.lba)
  · exact (by omega : 2 + padCount (128 * 128) dev.blksz ≤ dev.lba)
  · exact (by omega : 34 ≤ dev.lba)
  · exact (by omega : dev.lba - 34 ≤ dev.lba)
  · exact (by omega : dev.lba - 1 + 1 ≤ dev.lba)
  · exact (by omega : dev.lba - 33 + padCount (128 * 128) dev.blksz ≤ dev.lba)

end

end Fire3.Gpt

import Fire3.Gpt.Reader

/-!
Where `get_partition_info_efi` reads: for every contents of the device, which header sizes and
entry numbers keep its accesses inside of the buffers.
-/

namespace Fire3.Gpt
open ByteMemory

section
variable (m : Memory) (dev : BlockDev) (lba : Nat) (h : Mem)

def HeaderFits : Prop := signature h = gptHeaderSignature → headerSize h ≤ headerBufSize dev

def entriesAt : List UInt8 :=
  load dev.contents (partitionEntryLba h * dev.blksz)
    (padCount (entriesSize h) dev.blksz * dev.blksz)

structure TableValid : Prop where
  signature_eq : signature h = gptHeaderSignature
  header_crc : headerCrc h = headerCrc32 h
  my_lba : myLba h = lba
  first_usable : firstUsableLba h ≤ dev.lba
  last_usable : lastUsableLba h ≤ dev.lba
  some_entries : entriesSize h ≠ 0
  allocated : m.memalign (padSize (entriesSize h) dev.blksz) = true
  entries_read : dev.reads (partitionEntryLba h) (padCount (entriesSize h) dev.blksz) = true
  entries_crc : efiCrc32 ((entriesAt dev h).take (entriesSize h)) = partitionEntryArrayCrc32 h

/-- Entry `i` lies in what is read, as far as it is looked at: the rest of an entry of type 0 is
not. -/
def EntryFits (i : Nat) : Prop :=
  i < numPartitionEntries h →
    128 * i + 16 ≤ (entriesAt dev h).length ∧
      (((entriesAt dev h).drop (128 * i)).take 16 ≠ List.replicate 16 0 →
        128 * i + 128 ≤ (entriesAt dev h).length)

end

section
variable {m : Memory} {dev : BlockDev} {lba : Nat} {h : Mem}

theorem le_padSize (s : Nat) (dev : BlockDev) : s ≤ padCount s dev.blksz * dev.blksz := by
  have hPos : 0 < dev.blksz := Nat.two_pow_pos _
  have hDiv := Nat.lt_div_mul_add (a := s - 1) hPos
  rw [padCount, Nat.succ_mul]
  omega

theorem slice_zero {buf : List UInt8} {n : Nat} (hn : n ≤ buf.length) :
    slice buf 0 n = some (buf.take n) := by
  rw [slice, Nat.zero_add, if_pos hn, List.drop_zero]

theorem validateGptHeader_eq_none {size lastlba : Nat} :
    validateGptHeader size h lba lastlba = none ↔
      signature h = gptHeaderSignature ∧ size < headerSize h := by
  rw [validateGptHeader]
  by_cases hSignature : signature h = gptHeaderSignature
  · rw [if_neg (not_not.mpr hSignature)]
    by_cases hSize : size < headerSize h
    · simp [hSignature, hSize]
    · grind
  · simp [hSignature]

theorem validateGptHeader_eq_true {size lastlba : Nat} :
    validateGptHeader size h lba lastlba = some true ↔
      signature h = gptHeaderSignature ∧ headerSize h ≤ size ∧ headerCrc h = headerCrc32 h ∧
        myLba h = lba ∧ firstUsableLba h ≤ lastlba ∧ lastUsableLba h ≤ lastlba := by
  rw [validateGptHeader]
  simp only [gt_iff_lt]
  constructor
  · intro hValid
    split_ifs at hValid with h₁ h₂ h₃ h₄ h₅ h₆ <;> simp at hValid
    omega
  · grind

theorem validateGptEntries_eq :
    validateGptEntries h (entriesAt dev h) = some (decide
      (efiCrc32 ((entriesAt dev h).take (entriesSize h)) = partitionEntryArrayCrc32 h)) := by
  have hLength : entriesSize h ≤ (entriesAt dev h).length := by
    rw [entriesAt, length_load]
    exact le_padSize _ dev
  rw [validateGptEntries, slice_zero hLength, Option.map_some]

theorem allocReadGptEntries_eq :
    allocReadGptEntries m dev h =
      if entriesSize h ≠ 0 ∧ m.memalign (padSize (entriesSize h) dev.blksz) = true ∧
          dev.reads (partitionEntryLba h) (padCount (entriesSize h) dev.blksz) = true
      then some (entriesAt dev h) else none := by
  rw [allocReadGptEntries]
  by_cases hCount : entriesSize h = 0
  · grind
  · cases hAlloc : m.memalign (padSize (entriesSize h) dev.blksz) with
    | false => simp
    | true =>
        rw [if_neg (by simp [hCount]), BlockDev.blockRead]
        simp [hCount, entriesAt]

theorem validateTable_eq_none : validateTable m dev lba h = none ↔ ¬HeaderFits dev h := by
  rw [HeaderFits, Classical.not_imp, Nat.not_le, ← validateGptHeader_eq_none, validateTable,
    allocReadGptEntries_eq]
  cases hHeader : validateGptHeader (headerBufSize dev) h lba dev.lba with
  | none => simp
  | some ok =>
      cases ok with
      | false => simp
      | true =>
          split_ifs
          · simp [validateGptEntries_eq]
          · simp

theorem validateTable_of_valid (hFits : HeaderFits dev h) (hValid : TableValid m dev lba h) :
    validateTable m dev lba h = some (h, some (entriesAt dev h)) := by
  have hHeader := validateGptHeader_eq_true.mpr ⟨hValid.signature_eq, hFits hValid.signature_eq,
    hValid.header_crc, hValid.my_lba, hValid.first_usable, hValid.last_usable⟩
  rw [validateTable, hHeader, allocReadGptEntries_eq,
    if_pos ⟨hValid.some_entries, hValid.allocated, hValid.entries_read⟩]
  dsimp only
  rw [validateGptEntries_eq, Option.map_some, decide_eq_true hValid.entries_crc, if_pos rfl]

theorem validateTable_of_not_valid (hFits : HeaderFits dev h) (hNot : ¬TableValid m dev lba h) :
    validateTable m dev lba h = some (h, none) := by
  rw [validateTable, allocReadGptEntries_eq]
  cases hHeader : validateGptHeader (headerBufSize dev) h lba dev.lba with
  | none =>
      have hLarge := validateGptHeader_eq_none.mp hHeader
      exact absurd hLarge.2 (Nat.not_lt.mpr (hFits hLarge.1))
  | some ok =>
      cases ok with
      | false => rfl
      | true =>
          obtain ⟨hSignature, -, hCrc, hLba, hFirst, hLast⟩ := validateGptHeader_eq_true.mp hHeader
          split_ifs with hEntries
          · have hBad : ¬efiCrc32 ((entriesAt dev h).take (entriesSize h)) =
                partitionEntryArrayCrc32 h := fun hGood => hNot
              ⟨hSignature, hCrc, hLba, hFirst, hLast, hEntries.1, hEntries.2.1, hEntries.2.2, hGood⟩
            simp [validateGptEntries_eq, hBad]
          · rfl

end

section
variable (m : Memory) (dev : BlockDev) (lba : Nat) (h : Mem)

def headerRead : Mem := store h 0 (load dev.contents (lba * dev.blksz) (1 * dev.blksz))

def headerLeft : Mem := if dev.reads lba 1 then headerRead dev lba h else h

def TableAt : Prop := dev.reads lba 1 = true ∧ TableValid m dev lba (headerRead dev lba h)

def HeaderFitsAt : Prop := dev.reads lba 1 = true → HeaderFits dev (headerRead dev lba h)

/-- The condition for entry `i`: the headers that are looked at fit their buffer, and the entry lies
in the table that is used, which is the backup if the primary one is not valid. -/
structure AccessFits (i : Nat) : Prop where
  primary : HeaderFitsAt dev 1 m.stack
  entry : TableAt m dev 1 m.stack → EntryFits dev (headerRead dev 1 m.stack) i
  backup : ¬TableAt m dev 1 m.stack → HeaderFitsAt dev dev.lastLba (headerLeft dev 1 m.stack)
  backup_entry : ¬TableAt m dev 1 m.stack →
    TableAt m dev dev.lastLba (headerLeft dev 1 m.stack) →
      EntryFits dev (headerRead dev dev.lastLba (headerLeft dev 1 m.stack)) i

/-- No access is outside of its buffer, and an entry that is returned was read from the device. -/
def SafeRead (part : Int) : Prop :=
  ∃ r, getPartitionInfoEfi m dev part = some r ∧
    ∀ info, r = some info → ∃ start blkcnt off, dev.reads start blkcnt = true ∧
      off + 128 ≤ blkcnt * dev.blksz ∧
      info = fillInfo dev (load dev.contents (start * dev.blksz + off) 128)

variable {m dev lba h}

theorem isGptValid_eq_none : isGptValid m dev lba h = none ↔ ¬HeaderFitsAt dev lba h := by
  rw [isGptValid, BlockDev.blockRead, HeaderFitsAt]
  cases hRead : dev.reads lba 1 with
  | false => simp
  | true =>
      rw [if_pos rfl]
      dsimp only
      rw [validateTable_eq_none, headerRead, imp_iff_right rfl]

theorem isGptValid_of_tableAt (hFits : HeaderFitsAt dev lba h) (hTable : TableAt m dev lba h) :
    isGptValid m dev lba h =
      some (headerRead dev lba h, some (entriesAt dev (headerRead dev lba h))) := by
  rw [isGptValid, BlockDev.blockRead, if_pos hTable.1]
  exact validateTable_of_valid (hFits hTable.1) hTable.2

theorem isGptValid_of_not_tableAt (hFits : HeaderFitsAt dev lba h) (hNot : ¬TableAt m dev lba h) :
    isGptValid m dev lba h = some (headerLeft dev lba h, none) := by
  rw [isGptValid, BlockDev.blockRead, headerLeft]
  cases hRead : dev.reads lba 1 with
  | false => rfl
  | true => exact validateTable_of_not_valid (hFits hRead) fun hValid => hNot ⟨hRead, hValid⟩

theorem slice_entriesAt {off n : Nat} (hIn : off + n ≤ (entriesAt dev h).length) :
    slice (entriesAt dev h) off n =
      some (load dev.contents (partitionEntryLba h * dev.blksz + off) n) := by
  rw [slice, if_pos hIn]
  grind [entriesAt, length_load, load_take_drop]

theorem useEntries_eq_none {i : Nat} :
    useEntries dev h (entriesAt dev h) i = none ↔ ¬EntryFits dev h i := by
  rw [useEntries, EntryFits]
  by_cases hNum : numPartitionEntries h ≤ i
  · simp [hNum]
  · rw [if_neg hNum, imp_iff_right (Nat.lt_of_not_le hNum), getEntry]
    by_cases hGuid : 128 * i + 16 ≤ (entriesAt dev h).length
    · rw [slice, if_pos hGuid]
      dsimp only
      by_cases hZero : ((entriesAt dev h).drop (128 * i)).take 16 = List.replicate 16 0
      · simp [hZero, hGuid]
      · rw [if_neg hZero, slice]
        grind
    · rw [slice, if_neg hGuid]
      simp [hGuid]

theorem info_of_useEntries {i : Nat} {info : DiskPartition}
    (hInfo : useEntries dev h (entriesAt dev h) i = some (some info)) :
    128 * i + 128 ≤ padCount (entriesSize h) dev.blksz * dev.blksz ∧
      info = fillInfo dev (load dev.contents (partitionEntryLba h * dev.blksz + 128 * i) 128) := by
  have hLength : (entriesAt dev h).length = padCount (entriesSize h) dev.blksz * dev.blksz := by
    rw [entriesAt, length_load]
  rw [useEntries] at hInfo
  split at hInfo
  · cases hInfo
  · rw [getEntry] at hInfo
    split at hInfo
    · cases hInfo
    · split at hInfo
      · cases hInfo
      · by_cases hEntry : 128 * i + 128 ≤ (entriesAt dev h).length
        · grind [slice_entriesAt, Option.some_inj]
        · rw [slice, if_neg hEntry] at hInfo
          cases hInfo

theorem useEntries_safe_iff {i : Nat} (hValid : TableValid m dev lba h) :
    (∃ r, useEntries dev h (entriesAt dev h) i = some r ∧
      ∀ info, r = some info → ∃ start blkcnt off, dev.reads start blkcnt = true ∧
        off + 128 ≤ blkcnt * dev.blksz ∧
        info = fillInfo dev (load dev.contents (start * dev.blksz + off) 128)) ↔
      EntryFits dev h i := by
  constructor
  · rintro ⟨r, hSome, -⟩
    by_contra hNot
    rw [useEntries_eq_none.mpr hNot] at hSome
    cases hSome
  · intro hFits
    obtain ⟨r, hSome⟩ := Option.ne_none_iff_exists'.mp (mt useEntries_eq_none.mp (not_not.mpr hFits))
    refine ⟨r, hSome, fun info hInfo => ?_⟩
    rw [hInfo] at hSome
    obtain ⟨hIn, hEq⟩ := info_of_useEntries hSome
    exact ⟨_, _, 128 * i, hValid.entries_read, hIn, hEq⟩

end

/-- For every contents of the device and every number, the accesses are inside of the buffers, and
an entry that is returned was read from the device, exactly if the headers that are looked at fit
their buffer and the entry lies in the table that is used. -/
theorem get_partition_info_safe_iff (m : Memory) (dev : BlockDev) (part : Int) :
    SafeRead m dev part ↔ (1 ≤ part → AccessFits m dev (part.toNat - 1)) := by
  rw [SafeRead, getPartitionInfoEfi]
  by_cases hPart : part < 1
  · rw [if_pos hPart]
    refine iff_of_true ⟨none, rfl, fun info hInfo => ?_⟩ fun hNot => absurd hPart (by omega)
    cases hInfo
  · rw [if_neg hPart, imp_iff_right (Int.not_lt.mp hPart)]
    generalize part.toNat - 1 = i
    by_cases hPrimary : HeaderFitsAt dev 1 m.stack
    · by_cases hTable : TableAt m dev 1 m.stack
      · rw [isGptValid_of_tableAt hPrimary hTable]
        dsimp only
        rw [useEntries_safe_iff hTable.2]
        exact ⟨fun hEntry => ⟨hPrimary, fun _ => hEntry, fun hNot => absurd hTable hNot,
          fun hNot => absurd hTable hNot⟩, fun hFits => hFits.entry hTable⟩
      · rw [isGptValid_of_not_tableAt hPrimary hTable]
        dsimp only
        by_cases hBackup : HeaderFitsAt dev dev.lastLba (headerLeft dev 1 m.stack)
        · by_cases hSecond : TableAt m dev dev.lastLba (headerLeft dev 1 m.stack)
          · rw [isGptValid_of_tableAt hBackup hSecond]
            dsimp only
            rw [useEntries_safe_iff hSecond.2]
            exact ⟨fun hEntry => ⟨hPrimary, fun hYes => absurd hYes hTable, fun _ => hBackup,
              fun _ _ => hEntry⟩, fun hFits => hFits.backup_entry hTable hSecond⟩
          · rw [isGptValid_of_not_tableAt hBackup hSecond]
            refine iff_of_true ⟨none, rfl, fun info hInfo => ?_⟩ ⟨hPrimary,
              fun hYes => absurd hYes hTable, fun _ => hBackup, fun _ hYes => absurd hYes hSecond⟩
            cases hInfo
        · rw [isGptValid_eq_none.mpr hBackup]
          refine iff_of_false ?_ fun hFits => hBackup (hFits.backup hTable)
          rintro ⟨r, hNone, -⟩
          cases hNone
    · rw [isGptValid_eq_none.mpr hPrimary]
      refine iff_of_false ?_ fun hFits => hPrimary hFits.primary
      rintro ⟨r, hNone, -⟩
      cases hNone

def hugeHeader : BlockDev :=
  { lba := 2048
    log2blksz := 9
    contents := store zero 512 (leBytes 8 gptHeaderSignature ++ leBytes 4 0x10000 ++ leBytes 4 513)
    reads := fun start blkcnt => start + blkcnt ≤ 2048
    writes := fun _ _ => false }

/-- The CRC of a header of 513 bytes in a buffer of 512 bytes reads behind its end. -/
theorem header_crc_outside : ¬SafeRead ⟨zero, fun _ => true⟩ hugeHeader 1 := by
  rintro ⟨r, hSome, -⟩
  have hNone : getPartitionInfoEfi ⟨zero, fun _ => true⟩ hugeHeader 1 = none := by decide +kernel
  rw [hNone] at hSome
  cases hSome

end Fire3.Gpt

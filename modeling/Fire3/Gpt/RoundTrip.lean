import Fire3.Gpt.Restored

/-!
A table that `gpt_restore` has written, read back with `get_partition_info_efi` and compared with
`gpt_verify_partitions`.

The comparison takes a size of 0 literally, also for the last partition. The sum of a start and a
size may wrap around, and a name is returned only if it is printable and has room for its NUL.
-/

namespace Fire3.Gpt
open ByteMemory CString

/-- What writing a list and reading it back is for: both tables are valid and agree with the list,
and the partitions that are read are those asked for, apart from each other in the usable blocks. -/
structure RoundTrip (m : Memory) (dev : BlockDev) (ps : List Request) : Prop where
  primary : ∃ h pte, isGptValid m dev 1 m.stack = some (h, some pte) ∧
    verifyLoop (numPartitionEntries h) pte 0 ps = true
  backup : ∃ h pte, isGptValid m dev (dev.lba - 1) m.stack = some (h, some pte) ∧
    verifyLoop (numPartitionEntries h) pte 0 ps = true
  verify : gptVerifyPartitions m dev ps = some true
  info : ∀ (k : Nat) p q, ps[k]? = some p → (requested (dev.lba - 34) 34 ps)[k]? = some q →
    ∃ info, getPartitionInfoEfi m dev (k + 1) = some (some info) ∧ info.name = ofArray p.name ∧
      info.start = q.1 ∧ info.size = q.2
  inside : ∀ q ∈ requested (dev.lba - 34) 34 ps, 34 ≤ q.1 ∧ q.1 + q.2 ≤ dev.lba - 34 + 1
  apart : (requested (dev.lba - 34) 34 ps).Pairwise fun a b => a.1 + a.2 ≤ b.1

/-- The lists that survive: the last size is given, no partition reaches the end of the words, and
the names are printable and terminated. -/
structure Plain (lastUsable : Nat) (ps : List Request) : Prop where
  last : ∀ p, ps.getLast? = some p → p.size ≠ 0
  noWrap : ∀ q ∈ requested lastUsable 34 ps, q.1 + q.2 < 2 ^ 64
  names : ∀ p ∈ ps, (ofArray p.name).length < 32 ∧ ∀ c ∈ ofArray p.name, isPrint c = true

section
variable {m : Memory} {dev : BlockDev} {pte : List UInt8} {g : GptHeader} (hWorks : Works m dev)
  (hCopy : Copy dev pte g) (hSector : 512 ≤ dev.blksz)
include hWorks hCopy hSector

theorem Copy.isGptValid (h : Mem) :
    ∃ h', isGptValid m dev g.myLba h = some (h', some pte) ∧ numPartitionEntries h' = 128 := by
  obtain ⟨-, hNum, -⟩ := hCopy.fits.sealed.entry_fields (hCopy.load_headerRead hSector h)
  have hTable := isGptValid_of_tableAt (hCopy.headerFitsAt hSector h)
    (hCopy.tableAt hSector hWorks h)
  rw [hCopy.entriesAt hSector] at hTable
  exact ⟨_, hTable, hNum⟩

theorem Copy.getPartitionInfoEfi (hFirst : g.myLba = 1) {k : Nat} (hk : k < 128)
    {uuid : List UInt8} {starting ending : Nat} {p : Request}
    (hEntry : entryAt pte k = entryBytes uuid starting ending p) :
    getPartitionInfoEfi m dev (k + 1) =
      some (some (fillInfo dev (entryBytes uuid starting ending p))) := by
  obtain ⟨h, hValid, hNum⟩ := hCopy.isGptValid hWorks hSector m.stack
  have hLength : 128 * k + 128 ≤ pte.length := by
    have hPad := le_padSize (128 * 128) dev
    rw [← hCopy.entries, length_load]
    omega
  have hGuid : slice pte (128 * k) 16 = some basicDataGuid := by
    have hTake : (pte.drop (128 * k + 0)).take 16 = ((entryAt pte k).drop 0).take 16 :=
      take_drop_entryAt (by decide)
    rw [Nat.add_zero, List.drop_zero, hEntry, take_entryBytes] at hTake
    rw [slice, if_pos (by omega), hTake]
  rw [hFirst] at hValid
  rw [Gpt.getPartitionInfoEfi, if_neg (by omega), hValid]
  dsimp only
  rw [useEntries, hNum, if_neg (by omega), show ((k : Int) + 1).toNat - 1 = k by omega, getEntry, hGuid]
  dsimp only
  rw [if_neg (by decide), slice, if_pos hLength, Option.map_some, ← hEntry]
  rfl

end

theorem fillInfo_entryBytes {dev : BlockDev} {uuid : List UInt8} {p : Request} {q : Nat × Nat}
    (hUuid : uuid.length = 16) (hq : q.1 + q.2 < 2 ^ 64) :
    let info := fillInfo dev (entryBytes uuid q.1 ((q.1 + q.2 + (2 ^ 64 - 1)) % 2 ^ 64) p)
    info.start = q.1 ∧ info.size = q.2 := by
  grind [fillInfo, lbas_entryBytes, Nat.mod_lt]

structure Written (m : Memory) (dev : BlockDev) (ps : List Request) (es : List (List UInt8))
    (pte : List UInt8) : Prop where
  entries : ∀ k e, es[k]? = some e → entryAt pte (0 + k) = e
  primary : ∀ h, ∃ h', isGptValid m dev 1 h = some (h', some pte) ∧ numPartitionEntries h' = 128
  backup : ∀ h, ∃ h', isGptValid m dev (dev.lba - 1) h = some (h', some pte) ∧
    numPartitionEntries h' = 128
  info : ∀ (k : Nat) p uuid starting ending, ps[k]? = some p →
    es[k]? = some (entryBytes uuid starting ending p) →
    getPartitionInfoEfi m dev (k + 1) =
      some (some (fillInfo dev (entryBytes uuid starting ending p)))

section
variable {m : Memory} {dev dev' : BlockDev} {strDiskGuid : CStr} {ps : List Request}
  (works : Works m dev) (large : 67 ≤ dev.lba) (word : dev.lba < 2 ^ 64)
  (count : 1 ≤ ps.length ∧ ps.length ≤ 128)
  (restored : gptRestore m dev strDiskGuid ps = some dev')
include works large word count restored

theorem written_of_gptRestore :
    dev'.lba = dev.lba ∧ ∃ es pte, gptFillPte (dev.lba - 34) 34 ps = some es ∧
      Written m dev' ps es pte := by
  have hSmall : ∀ es, gptFillPte (dev.lba - 34) 34 ps = some es →
      es.flatten.length ≤ 128 * 128 := by
    intro es hFill
    obtain ⟨hLength, hSize⟩ := gptFillPte_lengths hFill
    have hMap : (es.flatMap id).length = 128 * es.length := Records.length_flatMap_bytes hSize
    rw [List.flatMap_id] at hMap
    omega
  obtain ⟨es, diskGuid, contents, hFill, rfl, hSector, hPrimary, hBackup⟩ :=
    gptRestore_copies works large word hSmall restored
  obtain ⟨hLength, hSize⟩ := gptFillPte_lengths hFill
  have hWorks : Works m { dev with contents } := ⟨works.reads, works.writes, works.memalign⟩
  have hEntries : ∀ k e, es[k]? = some e →
      entryAt (padToBlocksize dev es.flatten (128 * 128)) (0 + k) = e := by
    intro k e he
    rw [padToBlocksize, Nat.zero_add]
    exact entryAt_flatten hSize _ he
  refine ⟨rfl, es, _, hFill, hEntries, hPrimary.isGptValid hWorks hSector,
    hBackup.isGptValid hWorks hSector, fun k p uuid starting ending hk he => ?_⟩
  have hLt := (List.getElem?_eq_some_iff.mp hk).1
  have hEntry := hEntries k _ he
  rw [Nat.zero_add] at hEntry
  exact hPrimary.getPartitionInfoEfi hWorks hSector rfl (by omega) hEntry

omit works count restored in
theorem Written.verify {es : List (List UInt8)} {pte : List UInt8} (hLba : dev'.lba = dev.lba)
    (hWritten : Written m dev' ps es pte) :
    gptVerifyPartitions m dev' ps = some (verifyLoop 128 pte 0 ps) := by
  have hLast : dev'.lastLba = dev'.lba - 1 := by
    rw [BlockDev.lastLba]
    omega
  obtain ⟨h, hOne, -⟩ := hWritten.primary m.stack
  obtain ⟨h', hTwo, hNum⟩ := hWritten.backup h
  rw [gptVerifyPartitions, gptVerifyHeaders, hOne]
  grind

theorem last_size_of_verify (hVerify : gptVerifyPartitions m dev' ps = some true) :
    ∀ p, ps.getLast? = some p → p.size ≠ 0 := by
  obtain ⟨hLba, es, pte, hFill, hWritten⟩ := written_of_gptRestore works large word count restored
  rw [hWritten.verify large word hLba, Option.some_inj] at hVerify
  exact last_size_of_verifyLoop hFill (by decide) (by omega) (by omega) hWritten.entries hVerify

/-- For every list of 1 to 128 partitions that `gpt_restore` accepts and writes, the table that is
read back and verified is the one asked for exactly if the list is plain. -/
theorem gpt_round_trip_iff : RoundTrip m dev' ps ↔ Plain (dev.lba - 34) ps := by
  obtain ⟨hLba, es, pte, hFill, hWritten⟩ := written_of_gptRestore works large word count restored
  have hVerify := hWritten.verify large word hLba
  constructor
  · intro hTrip
    refine ⟨last_size_of_verify works large word count restored hTrip.verify, fun q hq => ?_,
      fun p hp => ?_⟩
    · rw [← hLba] at hq
      have hIn := (hTrip.inside q hq).2
      omega
    · obtain ⟨k, hk⟩ := List.mem_iff_getElem?.mp hp
      obtain ⟨uuid, starting, ending, hUuid, he⟩ := gptFillPte_entry hFill hk
      obtain ⟨q, hq⟩ : ∃ q, (requested (dev'.lba - 34) 34 ps)[k]? = some q := by
        have hLt := (List.getElem?_eq_some_iff.mp hk).1
        rw [← length_requested] at hLt
        exact ⟨_, List.getElem?_eq_getElem hLt⟩
      obtain ⟨info, hRead, hName, -⟩ := hTrip.info k p q hk hq
      rw [hWritten.info k p uuid starting ending hk he, Option.some_inj, Option.some_inj] at hRead
      rw [← hRead, fillInfo] at hName
      dsimp only at hName
      rw [printEfiname_entryBytes hUuid] at hName
      refine (infoName_eq_iff (zero_notMem_ofArray _) ?_).mp hName
      rw [← p.name_length]
      exact (List.takeWhile_sublist _).length_le
  · intro hPlain
    obtain ⟨hInside, hApart⟩ := requested_inside hFill hPlain.noWrap
    have hLoop := verifyLoop_of_requested hFill hPlain.noWrap (by decide) (by omega)
      (show 0 + ps.length ≤ 128 by omega) hWritten.entries hPlain.last
    refine ⟨?_, ?_, ?_, fun k p q hk hq => ?_, hLba ▸ hInside, hLba ▸ hApart⟩
    · obtain ⟨h, hOne, hNum⟩ := hWritten.primary m.stack
      exact ⟨h, pte, hOne, by rw [hNum, hLoop]⟩
    · obtain ⟨h, hTwo, hNum⟩ := hWritten.backup m.stack
      exact ⟨h, pte, hTwo, by rw [hNum, hLoop]⟩
    · rw [hVerify, hLoop]
    · rw [hLba] at hq
      obtain ⟨uuid, hUuid, he⟩ := gptFillPte_requested hFill hPlain.noWrap hk hq
      refine ⟨_, hWritten.info k p uuid _ _ hk he, ?_,
        fillInfo_entryBytes hUuid (hPlain.noWrap q (List.mem_of_getElem? hq))⟩
      rw [fillInfo]
      dsimp only
      rw [printEfiname_entryBytes hUuid]
      have hNames := hPlain.names p (List.mem_of_getElem? hk)
      grind [infoName_eq_iff, zero_notMem_ofArray]

end

def emptyDisk : BlockDev :=
  { lba := 2048
    log2blksz := 9
    contents := zero
    reads := fun start blkcnt => start + blkcnt ≤ 2048
    writes := fun start blkcnt => start + blkcnt ≤ 2048 }

def someMemory : Memory := ⟨zero, fun _ => true⟩

theorem emptyDisk_works : Works someMemory emptyDisk :=
  ⟨fun _ _ => decide_eq_true_iff, fun _ _ => of_decide_eq_true, fun _ => rfl⟩

def someGuid : CStr := ascii "b4b84b8a-04e3-48c7-8536-aff5c9c495b1"

theorem length_systemName : (ascii "system" ++ List.replicate 26 (0 : UInt8)).length = 32 := by decide

theorem systemSize_lt (size : Fin 2049) : size.val < 2 ^ 64 :=
  Nat.lt_of_lt_of_le size.isLt (by decide)

def systemPart (size : Fin 2049) : Request :=
  { start := 0
    size := size
    name := ascii "system" ++ List.replicate 26 0
    uuid := someGuid
    bootable := false
    start_lt := Nat.two_pow_pos 64
    size_lt := systemSize_lt size
    name_length := length_systemName }

def threeParts : List Request := [systemPart 100, systemPart 1, systemPart 1500]

theorem gpt_round_trip_three :
    ∃ dev', gptRestore someMemory emptyDisk someGuid threeParts = some dev' ∧
      RoundTrip someMemory dev' threeParts := by
  have hRestore : (gptRestore someMemory emptyDisk someGuid threeParts).isSome = true := by
    decide +kernel
  obtain ⟨dev', hRestore⟩ := Option.isSome_iff_exists.mp hRestore
  refine ⟨dev', hRestore, (gpt_round_trip_iff emptyDisk_works (by decide) (by decide) (by decide)
    hRestore).mpr ⟨fun p hp => ?_, ?_, ?_⟩⟩
  · cases hp
    decide
  · decide
  · decide +kernel

/-- A partition that takes the rest is written, but not found again by the comparison. -/
theorem gpt_verify_rejects_rest :
    ∃ dev', gptRestore someMemory emptyDisk someGuid [systemPart 0] = some dev' ∧
      gptVerifyPartitions someMemory dev' [systemPart 0] ≠ some true := by
  have hRestore : (gptRestore someMemory emptyDisk someGuid [systemPart 0]).isSome = true := by
    decide +kernel
  obtain ⟨dev', hRestore⟩ := Option.isSome_iff_exists.mp hRestore
  exact ⟨dev', hRestore, fun hVerify => last_size_of_verify emptyDisk_works (by decide) (by decide)
    (by decide) hRestore hVerify _ rfl rfl⟩

end Fire3.Gpt

import Fire3.Recovery.SdUpdate

/-!
Partition numbers of the `sd_recovery` command against the table it creates.

Numbers are given while parsing, by counting filesystem entries from the start of
the map. The `fdisk` command lists all entries from the first filesystem entry
that is not a dummy. The two agree for an entry when as many filesystem entries
stand before that first one as other entries stand between the two.
-/

namespace Fire3.SdRecovery
open CString

variable {parts : List Part} {m : Nat} {fp : Part}

structure LogInv (table beyond : List Part) (i : Nat) (first : Bool) (log : List Issued) : Prop where
  writes : ∀ m dev addr n len, ⟨m, .ext4ImgWrite dev addr n len⟩ ∈ log →
    first = true ∧ firstFs table ≤ m ∧ m < i ∧
      ∃ fp, table[m]? = some fp ∧ fp.fsType.inMask = true ∧ n = fp.partNum
  tables : ∀ k dev args, ⟨k, .fdisk dev args⟩ ∈ log →
    k = firstFs table ∧ args = fdiskArgs (table.drop k ++ beyond)
  issued : first = true → firstFs table < i ∧
    ∃ dev args, ⟨firstFs table, .fdisk dev args⟩ ∈ log
  before : first = false → ∀ fp ∈ table.take i, fp.startsTable = false
  devices : ∀ fp ∈ table.take i, fp.device ≠ []

section
variable {table beyond : List Part} {i : Nat} {first : Bool} {log : List Issued} {fp : Part}

theorem take_succ_of_getElem? (hi : table[i]? = some fp) :
    table.take (i + 1) = table.take i ++ [fp] := by
  rw [List.take_add_one, hi]
  rfl

theorem forall_take_succ {P : Part → Prop} (hi : table[i]? = some fp)
    (hOld : ∀ x ∈ table.take i, P x) (hNew : P fp) : ∀ x ∈ table.take (i + 1), P x := by
  intro x hx
  rw [take_succ_of_getElem? hi, List.mem_append, List.mem_singleton] at hx
  grind

theorem LogInv.skip (h : LogInv table beyond i first log) (hi : table[i]? = some fp)
    (hDevice : fp.device ≠ []) (hStarts : first = false → fp.startsTable = false) :
    LogInv table beyond (i + 1) first log where
  writes := fun m dev addr n len hMem => by
    obtain ⟨hFirst, hLow, hHigh, hEntry⟩ := h.writes m dev addr n len hMem
    exact ⟨hFirst, hLow, by omega, hEntry⟩
  tables := h.tables
  issued := fun hFirst => by
    obtain ⟨hLow, hIssued⟩ := h.issued hFirst
    exact ⟨by omega, hIssued⟩
  before := fun hFirst => forall_take_succ hi (h.before hFirst) (hStarts hFirst)
  devices := forall_take_succ hi h.devices hDevice

theorem firstFs_eq (hBefore : ∀ x ∈ table.take i, x.startsTable = false)
    (hi : table[i]? = some fp) (hStarts : fp.startsTable = true) : firstFs table = i := by
  have hLength : i < table.length := (List.getElem?_eq_some_iff.mp hi).1
  have hSplit : table = table.take i ++ fp :: table.drop (i + 1) := by
    rw [← List.singleton_append, ← List.append_assoc, ← take_succ_of_getElem? hi,
      List.take_append_drop]
  have hNone : (table.take i).findIdx Part.startsTable = (table.take i).length :=
    List.findIdx_eq_length_of_false hBefore
  rw [firstFs, hSplit, List.findIdx_append, hNone, if_neg (lt_irrefl _), List.findIdx_cons, hStarts,
    List.length_take]
  simp only [cond_true]
  omega

theorem LogInv.makeTable (h : LogInv table beyond i false log) (hi : table[i]? = some fp)
    (hDevice : fp.device ≠ []) (hStarts : fp.startsTable = true) :
    LogInv table beyond (i + 1) true
      (makeMmcPartition log i fp (table.drop (i + 1) ++ beyond)) := by
  have hFirst := firstFs_eq (h.before rfl) hi hStarts
  have hDrop : table.drop i = fp :: table.drop (i + 1) := by
    grind [List.getElem?_eq_some_iff, List.drop_eq_getElem_cons]
  refine ⟨?_, ?_, ?_, by simp, forall_take_succ hi h.devices hDevice⟩
  · intro m dev addr n len hMem
    rw [makeMmcPartition, List.mem_append] at hMem
    cases hMem with
    | inl hOld => simpa using (h.writes m dev addr n len hOld).1
    | inr hNew => simp at hNew
  · intro k dev args hMem
    rw [makeMmcPartition, List.mem_append] at hMem
    cases hMem with
    | inl hOld => exact h.tables k dev args hOld
    | inr hNew =>
        grind
  · intro _
    rw [hFirst]
    exact ⟨by omega, fp.devNo, _, List.mem_append_right _ (List.mem_singleton.mpr rfl)⟩

theorem LogInv.append (h : LogInv table beyond (i + 1) first log) (hi : table[i]? = some fp)
    (hFirst : fp.fsType.inMask = true → first = true) {new : List Issued}
    (hNew : ∀ x ∈ new, x.entry = i ∧ WriteOf fp x.cmd) :
    LogInv table beyond (i + 1) first (log ++ new) where
  writes := fun m dev addr n len hMem => by
    cases List.mem_append.mp hMem with
    | inl hOld => exact h.writes m dev addr n len hOld
    | inr hIn =>
        obtain ⟨hEntry, hMask, rfl⟩ := hNew _ hIn
        obtain rfl : m = i := hEntry
        obtain ⟨hLow, -⟩ := h.issued (hFirst hMask)
        exact ⟨hFirst hMask, by omega, by omega, fp, hi, hMask, rfl⟩
  tables := fun k dev args hMem => by
    cases List.mem_append.mp hMem with
    | inl hOld => exact h.tables k dev args hOld
    | inr hIn => exact (hNew _ hIn).2.elim
  issued := fun hTrue => by
    obtain ⟨hLow, dev, args, hMem⟩ := h.issued hTrue
    exact ⟨hLow, dev, args, List.mem_append_left _ hMem⟩
  before := h.before
  devices := h.devices

end

theorem updateLoop_inv (env : Env) (addr : Nat) {table beyond rest : List Part} {i : Nat}
    {first : Bool} {log : List Issued} (ret : Int) (hRest : table.drop i = rest)
    (h : LogInv table beyond i first log) :
    ∃ i' first', LogInv table beyond i' first'
      (updateLoop env addr beyond i rest first log ret).1 := by
  induction rest generalizing i first log ret with
  | nil => exact ⟨i, first, h⟩
  | cons fp rest ih =>
      have hi : table[i]? = some fp := by
        have hHead := congrArg (·[0]?) hRest
        simpa using hHead
      have hNext : table.drop (i + 1) = rest := by
        rw [← List.drop_drop, hRest]
        rfl
      simp only [updateLoop]
      split
      · exact ⟨i, first, h⟩
      · rename_i hDevice
        split
        · rename_i hDummy
          exact ih _ hNext (h.skip hi hDevice fun _ => by simp [Part.startsTable, hDummy])
        · rename_i hFile
          split
          · exact ⟨i, first, h⟩
          · have hTable : LogInv table beyond (i + 1) (first || fp.fsType.inMask)
                (if !first && fp.fsType.inMask then
                  makeMmcPartition log i fp (rest ++ beyond) else log) := by
              cases first with
              | true => simpa using h.skip hi hDevice (by simp)
              | false =>
                  cases hMask : fp.fsType.inMask with
                  | true =>
                      have hStarts : fp.startsTable = true := by
                        simp [Part.startsTable, hMask, hFile]
                      rw [← hNext]
                      simpa using h.makeTable hi hDevice hStarts
                  | false =>
                      simpa using h.skip hi hDevice fun _ => by simp [Part.startsTable, hMask]
            split
            · exact ih _ hNext hTable
            · obtain ⟨new, hLog, hNew⟩ := updateSdImgWirte_log env
                (if !first && fp.fsType.inMask then
                  makeMmcPartition log i fp (rest ++ beyond) else log) i fp addr
                (env.fsRead log fp.fileName).2.toNat
              rw [hLog]
              exact ih _ hNext (hTable.append hi (by simp +contextual) hNew)

theorem sdcardUpdate_inv (env : Env) (addr : Nat) (parts beyond : List Part) :
    ∃ i first, LogInv (sdcardTable parts) beyond i first (sdcardUpdate env addr parts beyond).1 :=
  updateLoop_inv env addr 0 rfl
    { writes := by simp, tables := by simp, issued := by simp, before := by simp, devices := by simp }

theorem getElem?_takeWhile {p : Part → Bool} {l : List Part} {n : Nat}
    (h : ∀ x ∈ l.take (n + 1), p x = true) : (l.takeWhile p)[n]? = l[n]? := by
  induction l generalizing n with
  | nil => rfl
  | cons a l ih =>
      rw [List.take_succ_cons] at h
      rw [List.takeWhile_cons_of_pos (h a List.mem_cons_self)]
      cases n with
      | zero => rfl
      | succ n =>
          grind

theorem length_sdcardTable (h : parts.length ≤ devPartMax) :
    (sdcardTable parts).length = devPartMax := by
  rw [sdcardTable, List.length_append, List.length_replicate]
  omega

theorem fdiskArgs_getElem? {table : List Part} (beyond : List Part) {k : Nat}
    (hTable : table.length = devPartMax) (hk : k ≤ m) (hm : table[m]? = some fp)
    (hDevices : ∀ x ∈ table.take (m + 1), x.device ≠ []) :
    (fdiskArgs (table.drop k ++ beyond))[m - k]? = some (fp.start, fp.length) := by
  have hLength : m < table.length := (List.getElem?_eq_some_iff.mp hm).1
  have hEntry : ((table.drop k ++ beyond).take devPartMax)[m - k]? = some fp := by
    grind
  have hPrefix : ∀ x ∈ ((table.drop k ++ beyond).take devPartMax).take (m - k + 1),
      (decide (x.device ≠ [])) = true := by
    intro x hx
    rw [List.take_take, List.take_append_of_le_length (by simp; omega), List.take_drop] at hx
    have hMember : x ∈ table.take (m + 1) := by
      refine List.take_subset_take_left table ?_ (List.mem_of_mem_drop hx)
      omega
    simpa using hDevices x hMember
  rw [fdiskArgs, List.getElem?_map, getElem?_takeWhile hPrefix, hEntry, Option.map_some]

def otherCount (parts : List Part) : Nat := parts.countP (!·.fsType.inMask)

theorem fsCount_add_otherCount (parts : List Part) :
    fsCount parts + otherCount parts = parts.length := by
  simpa [fsCount, otherCount] using
    (List.length_eq_countP_add_countP fun fp : Part => fp.fsType.inMask).symm

/-- The number of an entry is its place from `k` on exactly when the filesystem
entries before `k` are as many as the other entries from there to it. -/
theorem fsCount_eq_iff {k : Nat} (hk : k ≤ m) (hm : parts[m]? = some fp)
    (hFs : fp.fsType.inMask = true) :
    fsCount (parts.take (m + 1)) = m - k + 1 ↔
      fsCount (parts.take k) = otherCount ((parts.drop k).take (m - k)) := by
  have hLength : m < parts.length := (List.getElem?_eq_some_iff.mp hm).1
  have hSplit : parts.take (m + 1) = parts.take k ++ ((parts.drop k).take (m - k) ++ [fp]) := by
    rw [take_succ_of_getElem? hm, ← List.append_assoc, ← List.take_add, Nat.add_sub_cancel' hk]
  have hParts : ((parts.drop k).take (m - k)).length = m - k := by
    rw [List.length_take, List.length_drop]
    omega
  have hCounts := fsCount_add_otherCount ((parts.drop k).take (m - k))
  have hSum : fsCount (parts.take (m + 1)) =
      fsCount (parts.take k) + (fsCount ((parts.drop k).take (m - k)) + 1) := by
    rw [hSplit]
    simp [fsCount, hFs]
  omega

theorem getElem?_of_sdcardTable (h : (sdcardTable parts)[m]? = some fp)
    (hFs : fp.fsType.inMask = true) : parts[m]? = some fp := by
  by_cases hm : m < parts.length
  · rwa [sdcardTable, List.getElem?_append_left hm] at h
  · rw [sdcardTable, List.getElem?_append_right (by omega), List.getElem?_replicate] at h
    split at h
    · grind [Option.some.injEq, Part.zero, FsType.inMask]
    · simp at h

theorem firstFs_sdcardTable (hm : m < parts.length) (h : firstFs (sdcardTable parts) ≤ m) :
    firstFs (sdcardTable parts) = firstFs parts := by
  rw [firstFs, sdcardTable, List.findIdx_append] at h ⊢
  split at h
  · rw [if_pos ‹_›, firstFs]
  · omega

/-- Every image written by partition number goes to the place its entry has in the
`fdisk` command of the run. -/
def PartNumbersMatch (parts : List Part) (log : List Issued) : Prop :=
  ∀ m dev addr n len, ⟨m, .ext4ImgWrite dev addr n len⟩ ∈ log →
    ∃ fp k dev' args, parts[m]? = some fp ∧ ⟨k, .fdisk dev' args⟩ ∈ log ∧ k ≤ m ∧
      args[m - k]? = some (fp.start, fp.length) ∧ n = m - k + 1

/-- The partition numbers of a run match its table exactly when, for every image it
writes by number, the filesystem entries before the first one that is not a dummy
are as many as the other entries between that one and the written one. -/
theorem sd_recovery_part_numbers_iff {text : CStr} {parts : List Part}
    (parsed : partListsMake text = .ok parts) (env : Env) (addr : Nat) (beyond : List Part) :
    PartNumbersMatch parts (sdcardUpdate env addr parts beyond).1 ↔
      ∀ m dev a n len, ⟨m, .ext4ImgWrite dev a n len⟩ ∈ (sdcardUpdate env addr parts beyond).1 →
        fsCount (parts.take (firstFs parts)) =
          otherCount ((parts.drop (firstFs parts)).take (m - firstFs parts)) := by
  obtain ⟨_, -, hEntries⟩ := bind_ok parsed
  have hTable := length_sdcardTable (length_parseEntries hEntries)
  obtain ⟨i, first, hInv⟩ := sdcardUpdate_inv env addr parts beyond
  generalize (sdcardUpdate env addr parts beyond).1 = log at hInv
  have hEntry : ∀ m dev a n len, ⟨m, .ext4ImgWrite dev a n len⟩ ∈ log →
      ∃ fp dev' args, parts[m]? = some fp ∧ fp.fsType.inMask = true ∧ firstFs parts ≤ m ∧
        ⟨firstFs parts, .fdisk dev' args⟩ ∈ log ∧
        args[m - firstFs parts]? = some (fp.start, fp.length) ∧
        n = fsCount (parts.take (m + 1)) := by
    intro m dev a n len hMem
    obtain ⟨hFirst, hLow, hHigh, fp, hGet, hFs, rfl⟩ := hInv.writes m dev a n len hMem
    have hParsed := getElem?_of_sdcardTable hGet hFs
    have hIndex := firstFs_sdcardTable (List.getElem?_eq_some_iff.mp hParsed).1 hLow
    obtain ⟨-, dev', args, hFdisk⟩ := hInv.issued hFirst
    obtain ⟨-, hArgs⟩ := hInv.tables _ dev' args hFdisk
    have hDevices : ∀ x ∈ (sdcardTable parts).take (m + 1), x.device ≠ [] := fun x hx =>
      hInv.devices x (List.take_subset_take_left _ (by omega) hx)
    have hPlace := fdiskArgs_getElem? beyond hTable hLow hGet hDevices
    rw [← hArgs, hIndex] at hPlace
    rw [hIndex] at hLow hFdisk
    refine ⟨fp, dev', args, hParsed, hFs, hLow, hFdisk, hPlace, ?_⟩
    rw [parseEntries_numbered hEntries hParsed hFs, Nat.zero_add]
  constructor
  · intro hMatch m dev a n len hMem
    obtain ⟨fp, -, -, hGet, hFs, hLow, -, -, hNum⟩ := hEntry m dev a n len hMem
    obtain ⟨fp', k, dev', args, -, hFdisk, -, -, hPlace⟩ := hMatch m dev a n len hMem
    have hk : k = firstFs parts := by
      obtain ⟨rfl, -⟩ := hInv.tables k dev' args hFdisk
      obtain ⟨-, hLow', -⟩ := hInv.writes m dev a n len hMem
      exact firstFs_sdcardTable (List.getElem?_eq_some_iff.mp hGet).1 hLow'
    rw [hk, hNum] at hPlace
    exact (fsCount_eq_iff hLow hGet hFs).mp hPlace
  · intro hCounts m dev a n len hMem
    grind [firstFs, fsCount_eq_iff]

def workingEnv : Env :=
  { fsSetBlkDev := fun _ => false, fsRead := fun _ _ => (0, 1024), getDevice := fun _ _ => 0
    runCommand := fun _ _ => 0 }

theorem sd_recovery_part_numbers_iff_one_image :
    ∃ parts, partListsMake
        (ascii "flash=mmc,2:b:2nd:200,8000:b.bin; flash=mmc,2:s:ext4:100000,200000:s.img;") =
        .ok parts ∧
      PartNumbersMatch parts (sdcardUpdate workingEnv 0x48000000 parts []).1 := by
  have parsed : partListsMake
      (ascii "flash=mmc,2:b:2nd:200,8000:b.bin; flash=mmc,2:s:ext4:100000,200000:s.img;") =
      .ok [⟨ascii "mmc", 2, ascii "b", .secondBoot, 0x200, 0x8000, ascii "b.bin", 0⟩,
        ⟨ascii "mmc", 2, ascii "s", .ext4, 0x100000, 0x200000, ascii "s.img", 1⟩] := by
    rfl
  refine ⟨_, parsed, (sd_recovery_part_numbers_iff parsed workingEnv 0x48000000 []).mpr ?_⟩
  intro m dev a n len hMem
  have hLog : (sdcardUpdate workingEnv 0x48000000
      [⟨ascii "mmc", 2, ascii "b", .secondBoot, 0x200, 0x8000, ascii "b.bin", 0⟩,
        ⟨ascii "mmc", 2, ascii "s", .ext4, 0x100000, 0x200000, ascii "s.img", 1⟩] []).1 =
      [⟨0, .mmcDev 2⟩, ⟨0, .mmcWrite 0x48000000 1 2⟩, ⟨1, .fdisk 2 [(0x100000, 0x200000)]⟩,
        ⟨1, .mmcDev 2⟩, ⟨1, .ext4ImgWrite 2 0x48000000 1 1024⟩] := by
    rfl
  rw [hLog] at hMem
  obtain rfl : m = 1 := by
    simp at hMem
    exact hMem.1
  rfl

/-- A dummy filesystem entry is counted, but the table starts behind it. -/
theorem sd_recovery_counts_dummy :
    ∃ parts, partListsMake
        (ascii "flash=mmc,2:s:ext4:100000,200000:dummy;flash=mmc,2:u:ext4:300000,100000:u.img;") =
        .ok parts ∧
      ¬PartNumbersMatch parts (sdcardUpdate workingEnv 0x48000000 parts []).1 := by
  refine ⟨[⟨ascii "mmc", 2, ascii "s", .ext4, 0x100000, 0x200000, ascii "dummy", 1⟩,
    ⟨ascii "mmc", 2, ascii "u", .ext4, 0x300000, 0x100000, ascii "u.img", 2⟩], rfl, ?_⟩
  have hLog : (sdcardUpdate workingEnv 0x48000000
      [⟨ascii "mmc", 2, ascii "s", .ext4, 0x100000, 0x200000, ascii "dummy", 1⟩,
        ⟨ascii "mmc", 2, ascii "u", .ext4, 0x300000, 0x100000, ascii "u.img", 2⟩] []).1 =
      [⟨1, .fdisk 2 [(0x300000, 0x100000)]⟩, ⟨1, .mmcDev 2⟩,
        ⟨1, .ext4ImgWrite 2 0x48000000 2 1024⟩] := by
    rfl
  rw [hLog]
  intro hMatch
  obtain ⟨fp, k, dev, args, -, hFdisk, -, -, hPlace⟩ :=
    hMatch 1 2 0x48000000 2 1024 (by simp)
  simp at hFdisk
  omega

end Fire3.SdRecovery

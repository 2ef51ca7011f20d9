import Fire3.Base.Links
import Fire3.Fdisk.PartTables

/-!
The readers of partition tables on a card with any contents. Both are a walk along
the links from sector 0: `get_part_table` follows every extended entry of a sector,
`get_partition_info` the first one.
-/

namespace Fire3.Fdisk
open ByteMemory Block Links Relation

def hasMagic (buffer : Mem) : Bool := buffer 0x1fe = 0x55 && buffer 0x1ff = 0xaa

/-- The calls that `get_part_table_extended` makes for a sector and a base. -/
def tableLinks (mmc : Mmc) (s : Nat × Nat) : List (Nat × Nat) :=
  let buffer := readSector mmc s.1
  if hasMagic buffer then
    ((entriesAt buffer 0x1be 4).filter fun e => isExtended e.sysInd).map fun e =>
      (linked s.2 e, if s.1 = 0 then linked s.2 e else s.2)
  else []

def tableParts (mmc : Mmc) (s : Nat × Nat) : List Part :=
  let buffer := readSector mmc s.1
  if hasMagic buffer then (entriesAt buffer 0x1be 4).filterMap (listed s.1) else []

def infoLink (mmc : Mmc) (s : Nat × Nat) : Option (Nat × Nat) :=
  let (count, buffer) := mmcBread mmc (ofInt s.1) 1 none zero 0
  if count = 1 ∧ hasMagic buffer then
    ((bootEntries buffer).find? fun e => isExtended e.2.sysInd).map fun e =>
      ((e.2.start4 + s.2) % 2 ^ 32, if s.1 = 0 then (e.2.start4 + s.2) % 2 ^ 32 else s.2)
  else none

def infoLinks (mmc : Mmc) (s : Nat × Nat) : List (Nat × Nat) := (infoLink mmc s).toList

theorem hasMagic_iff {buffer : Mem} :
    hasMagic buffer = false ↔ buffer 0x1fe ≠ 0x55 ∨ buffer 0x1ff ≠ 0xaa := by
  simp [hasMagic, or_iff_not_imp_left]

theorem getPartTableExtended_eq_walk (mmc : Mmc) (depth l relative : Nat) (parts : List Part) :
    getPartTableExtended mmc depth l relative parts =
      (walk (tableLinks mmc) depth (l, relative)).map fun visited =>
        parts ++ visited.flatMap (tableParts mmc) := by
  induction depth generalizing l relative parts with
  | zero => rfl
  | succ depth ih =>
      rw [getPartTableExtended, walk]
      cases hMagic : hasMagic (readSector mmc l) with
      | false =>
          simp [hasMagic_iff.mp hMagic, tableLinks, tableParts, hMagic, gather]
      | true =>
          have hTest : ¬(readSector mmc l 0x1fe ≠ 0x55 ∨ readSector mmc l 0x1ff ≠ 0xaa) := by
            rw [← hasMagic_iff, hMagic]
            simp
          have hLinks : tableLinks mmc (l, relative) =
              ((entriesAt (readSector mmc l) 0x1be 4).filter fun e => isExtended e.sysInd).map
                fun e => (linked relative e, if l = 0 then linked relative e else relative) := by
            simp only [tableLinks, hMagic, if_true]
          have hParts : tableParts mmc (l, relative) =
              (entriesAt (readSector mmc l) 0x1be 4).filterMap (listed l) := by
            simp only [tableParts, hMagic, if_true]
          dsimp only
          rw [if_neg hTest, foldlM_extended, ← hParts, hLinks, Option.map_map]
          have hFold := @foldlM_gather (Nat × Nat) Part (Nat × Nat) (walk (tableLinks mmc) depth)
            (fun parts s => getPartTableExtended mmc depth s.1 s.2 parts) (tableParts mmc)
            (((entriesAt (readSector mmc l) 0x1be 4).filter fun e => isExtended e.sysInd).map
              fun e => (linked relative e, if l = 0 then linked relative e else relative))
            (fun s _ acc => ih s.1 s.2 acc) (parts ++ tableParts mmc (l, relative))
          rw [List.foldlM_map] at hFold
          rw [hFold]
          congr 1
          funext visited
          simp

section
variable {desc : BlockDev} {which : Int} {sector relative : Nat}

theorem getPartitionInfoExtended_last (h : infoLink desc.toMmc (sector, relative) = none)
    (depth partNum disksig : Nat) :
    (getPartitionInfoExtended desc which (depth + 1) sector relative partNum disksig).isSome := by
  rw [getPartitionInfoExtended]
  dsimp only [infoLink] at h ⊢
  generalize mmcBread desc.toMmc (ofInt sector) 1 none zero 0 = r at h ⊢
  split
  · rfl
  · split
    · rfl
    · rename_i hCount hTest
      rw [if_pos ⟨by omega, by rwa [← Bool.not_eq_false, hasMagic_iff]⟩] at h
      split
      · rfl
      · grind

theorem getPartitionInfoExtended_next {r : Nat × Mem}
    (hRead : mmcBread desc.toMmc (ofInt sector) 1 none zero 0 = r) (hCount : r.1 = 1)
    (hMagic : hasMagic r.2 = true) {partNum partNum' disksig disksig' : Nat}
    (hSig : (if sector = 0 then readLE r.2 0x1b8 4 else disksig) = disksig')
    (hPart : findPart desc which sector disksig' (bootEntries r.2) partNum = .inr partNum')
    {e : UInt8 × DosPartition}
    (hFind : (bootEntries r.2).find? (fun e => isExtended e.2.sysInd) = some e) (depth : Nat) :
    getPartitionInfoExtended desc which (depth + 1) sector relative partNum disksig =
      getPartitionInfoExtended desc which depth ((e.2.start4 + relative) % 2 ^ 32)
        (if sector = 0 then (e.2.start4 + relative) % 2 ^ 32 else relative) partNum' disksig' := by
  have hTest : ¬(r.2 0x1fe ≠ 0x55 ∨ r.2 0x1ff ≠ 0xaa) := by
    rw [← hasMagic_iff, hMagic]
    simp
  rw [getPartitionInfoExtended, hRead]
  grind

theorem getPartitionInfoExtended_link {t : Nat × Nat}
    (h : infoLink desc.toMmc (sector, relative) = some t) (depth partNum disksig : Nat) :
    (¬which < partNum ∧
        (getPartitionInfoExtended desc which (depth + 1) sector relative partNum disksig).isSome) ∨
      ∃ partNum' disksig' : Nat, (which < partNum → which < partNum') ∧
        getPartitionInfoExtended desc which (depth + 1) sector relative partNum disksig =
          getPartitionInfoExtended desc which depth t.1 t.2 partNum' disksig' := by
  dsimp only [infoLink] at h
  generalize hRead : mmcBread desc.toMmc (ofInt sector) 1 none zero 0 = r at h
  split at h
  · rename_i hMagic
    obtain ⟨e, hFind, rfl⟩ := Option.map_eq_some_iff.mp h
    generalize hSig : (if sector = 0 then readLE r.2 0x1b8 4 else disksig) = disksig'
    cases hPart : findPart desc which sector disksig' (bootEntries r.2) partNum with
    | inl info =>
        refine .inl ⟨fun hBelow => ?_, ?_⟩
        · obtain ⟨n, hNext, -⟩ :=
            @findPart_below desc which sector disksig' (bootEntries r.2) _ hBelow
          rw [hPart] at hNext
          cases hNext
        · have hTest : ¬(r.2 0x1fe ≠ 0x55 ∨ r.2 0x1ff ≠ 0xaa) := by
            grind [hasMagic_iff]
          rw [getPartitionInfoExtended, hRead]
          grind
    | inr n =>
        refine .inr ⟨n, disksig', fun hBelow => ?_,
          getPartitionInfoExtended_next hRead hMagic.1 hMagic.2 hSig hPart hFind depth⟩
        obtain ⟨n', hNext, hLe⟩ :=
          @findPart_below desc which sector disksig' (bootEntries r.2) _ hBelow
        rw [hPart, Sum.inr.injEq] at hNext
        omega
  · cases h

theorem walk_infoLinks_last {mmc : Mmc} {s : Nat × Nat} (h : infoLink mmc s = none) (depth : Nat) :
    (walk (infoLinks mmc) (depth + 1) s).isSome := by
  rw [walk_isSome_succ, infoLinks, h]
  simp

theorem walk_infoLinks_link {mmc : Mmc} {s t : Nat × Nat} (h : infoLink mmc s = some t)
    {depth : Nat} :
    (walk (infoLinks mmc) (depth + 1) s).isSome ↔ (walk (infoLinks mmc) depth t).isSome := by
  rw [walk_isSome_succ, infoLinks, h]
  simp

theorem info_isSome_of_walk {depth : Nat}
    (h : (walk (infoLinks desc.toMmc) depth (sector, relative)).isSome) (partNum disksig : Nat) :
    (getPartitionInfoExtended desc which depth sector relative partNum disksig).isSome := by
  induction depth generalizing sector relative partNum disksig with
  | zero => simp [walk] at h
  | succ depth ih =>
      cases hLink : infoLink desc.toMmc (sector, relative) with
      | none => exact getPartitionInfoExtended_last hLink depth partNum disksig
      | some t =>
          rcases @getPartitionInfoExtended_link desc which sector relative t hLink depth partNum
            disksig with ⟨-, hFound⟩ | ⟨n, sig, -, hNext⟩
          · exact hFound
          · grind [walk_infoLinks_link]

theorem walk_of_info_isSome {depth partNum disksig : Nat} (hBelow : which < partNum)
    (h : (getPartitionInfoExtended desc which depth sector relative partNum disksig).isSome) :
    (walk (infoLinks desc.toMmc) depth (sector, relative)).isSome := by
  induction depth generalizing sector relative partNum disksig with
  | zero => simp [getPartitionInfoExtended] at h
  | succ depth ih =>
      cases hLink : infoLink desc.toMmc (sector, relative) with
      | none => exact walk_infoLinks_last hLink depth
      | some t =>
          rcases @getPartitionInfoExtended_link desc which sector relative t hLink depth partNum
            disksig with ⟨hNot, -⟩ | ⟨n, sig, hNumber, hNext⟩
          · exact absurd hBelow hNot
          · grind [walk_infoLinks_link]

end

theorem finite_pairs (n : Nat) : (Set.Iio n ×ˢ Set.Iio n).Finite :=
  (Set.finite_Iio n).prod (Set.finite_Iio n)

theorem finite_tableLinks (mmc : Mmc) :
    {t | ReflTransGen (Step (tableLinks mmc)) (0, 0) t}.Finite := by
  refine finite_reached (finite_pairs (2 ^ 64)) ⟨by simp, by simp⟩ fun s t hStep hs => ?_
  simp only [tableLinks] at hStep
  split at hStep
  · obtain ⟨e, -, rfl⟩ := List.mem_map.mp hStep
    have hLinked : linked s.2 e < 2 ^ 64 := Nat.mod_lt _ (by decide)
    refine ⟨hLinked, ?_⟩
    grind
  · simp at hStep

theorem finite_infoLinks (mmc : Mmc) :
    {t | ReflTransGen (Step (infoLinks mmc)) (0, 0) t}.Finite := by
  refine finite_reached (finite_pairs (2 ^ 32)) ⟨by simp, by simp⟩ fun s t hStep hs => ?_
  rw [infoLinks, Option.mem_toList] at hStep
  simp only [infoLink] at hStep
  split at hStep
  · obtain ⟨e, -, rfl⟩ := Option.map_eq_some_iff.mp hStep
    have hLinked : (e.2.start4 + s.2) % 2 ^ 32 < 2 ^ 32 := Nat.mod_lt _ (by decide)
    refine ⟨hLinked, ?_⟩
    grind
  · simp at hStep

/-- Both readers come back, and the table of the caller is large enough. -/
structure ReadsSafely (desc : BlockDev) : Prop where
  table : ∃ depth parts, getPartTable desc.toMmc depth = some parts ∧ parts.length ≤ 8
  info : ∀ which, ∃ depth, (getPartitionInfoDos desc which depth).isSome

theorem getPartTable_eq_walk (mmc : Mmc) (depth : Nat) :
    getPartTable mmc depth =
      (walk (tableLinks mmc) depth (0, 0)).map fun visited => visited.flatMap (tableParts mmc) := by
  rw [getPartTable, getPartTableExtended_eq_walk]
  rfl

theorem info_terminates_iff (desc : BlockDev) :
    (∀ which, ∃ depth, (getPartitionInfoDos desc which depth).isSome) ↔
      NoCycle (infoLinks desc.toMmc) (0, 0) := by
  rw [← exists_walk_iff_noCycle (finite_infoLinks desc.toMmc)]
  constructor
  · intro h
    obtain ⟨depth, hSome⟩ := h 0
    exact ⟨depth, walk_of_info_isSome (by decide) hSome⟩
  · rintro ⟨depth, hSome⟩ which
    exact ⟨depth, info_isSome_of_walk hSome 1 0⟩

/-- The readers are safe exactly on the cards whose links have no cycle and whose sectors,
counted once for every way that leads to them, have no more than eight partitions. -/
theorem part_dos_reads_safely_iff (desc : BlockDev) :
    ReadsSafely desc ↔
      NoCycle (tableLinks desc.toMmc) (0, 0) ∧ NoCycle (infoLinks desc.toMmc) (0, 0) ∧
        ∀ depth visited, walk (tableLinks desc.toMmc) depth (0, 0) = some visited →
          (visited.flatMap (tableParts desc.toMmc)).length ≤ 8 := by
  have hTable := exists_walk_iff_noCycle (finite_tableLinks desc.toMmc)
  constructor
  · rintro ⟨⟨depth, parts, hRead, hEight⟩, hInfo⟩
    rw [getPartTable_eq_walk, Option.map_eq_some_iff] at hRead
    obtain ⟨visited, hWalk, rfl⟩ := hRead
    refine ⟨hTable.mp ⟨depth, by rw [hWalk]; rfl⟩, (info_terminates_iff desc).mp hInfo,
      fun depth' visited' hWalk' => ?_⟩
    have hSame : visited' = visited := by
      have hDeep := walk_mono (Nat.le_add_right depth depth') hWalk
      rw [walk_mono (Nat.le_add_left depth' depth) hWalk'] at hDeep
      exact Option.some.inj hDeep
    rwa [hSame]
  · rintro ⟨hNoCycle, hInfo, hEight⟩
    obtain ⟨depth, hSome⟩ := hTable.mpr hNoCycle
    obtain ⟨visited, hWalk⟩ := Option.isSome_iff_exists.mp hSome
    refine ⟨⟨depth, visited.flatMap (tableParts desc.toMmc), ?_, hEight depth visited hWalk⟩,
      (info_terminates_iff desc).mpr hInfo⟩
    rw [getPartTable_eq_walk, hWalk, Option.map_some]

def cardOf (sectors : List (List DosPartition)) : BlockDev :=
  { blankCard with
    ifType := .other
    dev := 0
    bytes := store zero 0 (sectors.flatMap sectorBytes) }

def selfLinked : BlockDev := cardOf [[⟨0x05, 0, 0⟩]]

def threeParts : List DosPartition := [⟨0x83, 100, 1⟩, ⟨0x83, 101, 1⟩, ⟨0x83, 102, 1⟩]

def nextSector : DosPartition := ⟨0x05, 1, 1⟩

def crowdedSectors : List (List DosPartition) :=
  [threeParts ++ [nextSector], threeParts ++ [nextSector], threeParts]

def crowded : BlockDev := cardOf crowdedSectors

theorem getPartTable_crowded : (getPartTable crowded.toMmc 3).map List.length = some 9 := by
  decide +kernel

/-- On the first card neither reader ends, on the second the table of eight entries gets nine. -/
theorem part_dos_reads_unsafely :
    (∀ depth, getPartTable selfLinked.toMmc depth = none) ∧
      (∀ depth, getPartitionInfoDos selfLinked 1 depth = none) ∧
      (getPartTable crowded.toMmc 3).map List.length = some 9 := by
  have hTable : Step (tableLinks selfLinked.toMmc) (0, 0) (0, 0) := by
    change (0, 0) ∈ tableLinks selfLinked.toMmc (0, 0)
    decide +kernel
  have hInfo : Step (infoLinks selfLinked.toMmc) (0, 0) (0, 0) := by
    change (0, 0) ∈ infoLinks selfLinked.toMmc (0, 0)
    decide +kernel
  refine ⟨fun depth => ?_, fun depth => ?_, getPartTable_crowded⟩
  · grind [not_walk_of_cycle, Option.not_isSome_iff_eq_none, getPartTable_eq_walk]
  · cases depth with
    | zero => rfl
    | succ depth =>
        -- the first round counts the four slots of sector 0
        have hFirst := @getPartitionInfoExtended_next selfLinked 1 0 0 _ rfl (by decide +kernel)
          (by decide +kernel) 1 5 0 0 (by decide +kernel) (by decide +kernel) (0, ⟨0x05, 0, 0⟩)
          (by decide +kernel) depth
        rw [getPartitionInfoDos, hFirst, ← Option.not_isSome_iff_eq_none]
        exact fun hSome => not_walk_of_cycle (.single hInfo) depth
          (walk_of_info_isSome (by decide) hSome)

end Fire3.Fdisk

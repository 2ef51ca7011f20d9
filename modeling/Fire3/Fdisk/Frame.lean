import Fire3.Fdisk.PartTables

/-!
The sectors that an accepted request of `fdisk` writes, against the requested
partitions. Behind its last EBR the writer puts one more table, at the start of the
first logical partition.
-/

namespace Fire3.Fdisk
open ByteMemory Block Align

variable {lba partType l : Nat} {p : Part} {parts : List Part} {ws : List Write}

def Part.Covers (lba : Nat) (p : Part) (l : Nat) : Prop :=
  p.start < 512 * (l + 1) ∧ if p.length = 0 then l < lba else 512 * l < p.start + p.length

def reached (lba : Nat) (ws : List Write) : List Nat :=
  (ws.map Write.sector).filter fun l => blockWriteRet lba l = 1

theorem blockWriteRet_eq_one_iff (hl : l + 1 < 2 ^ 64) :
    blockWriteRet lba l = 1 ↔ l < lba := by
  rw [blockWriteRet, Nat.mod_eq_of_lt hl]
  split <;> omega

theorem mem_reached :
    l ∈ reached lba ws ↔ l ∈ ws.map Write.sector ∧ blockWriteRet lba l = 1 := by
  rw [reached, List.mem_filter, decide_eq_true_eq]

theorem blockWrite_refused {mmc : Mmc} {w : Write} (h : blockWriteRet mmc.lba w.sector ≠ 1) :
    (blockWrite mmc w).2 = mmc := by
  have hOne : min 1 mmc.bMax = 1 := by
    have := mmc.bMax_pos
    omega
  have hOut : (w.sector + 1) % 2 ^ 64 > mmc.lba := by
    grind [blockWriteRet]
  simp only [blockWrite, mmcBwrite, bwriteLoop, hOne, hOut, ne_eq, one_ne_zero, not_false_eq_true,
    and_self, if_true]

theorem sectorAt_applied_unreached {mmc : Mmc} (h : l ∉ reached mmc.lba ws) :
    sectorAt (applied mmc ws) l = sectorAt mmc l := by
  induction ws generalizing mmc with
  | nil => rfl
  | cons w ws ih =>
      rw [mem_reached, List.map_cons, List.mem_cons] at h
      have hRest : l ∉ reached (blockWrite mmc w).2.lba ws := fun hMem =>
        h ⟨.inr (mem_reached.mp hMem).1, (mem_reached.mp hMem).2⟩
      refine (ih hRest).trans ?_
      by_cases hSame : w.sector = l
      · grind [blockWrite_refused]
      · exact sectorAt_blockWrite_other mmc hSame

def logicalParts (parts : List Part) : List Part := parts.drop (mbrTables parts.length)

def ebrSector (p : Part) : Nat := p.lba - ebrBlock

/-- The sectors written are sector 0 and one EBR for each logical partition, all of them outside
the partitions. -/
structure OnlyTables (lba : Nat) (parts : List Part) (ws : List Write) : Prop where
  written : ∀ l, l ∈ reached lba ws ↔ l ∈ 0 :: (logicalParts parts).map ebrSector
  apart : (0 :: (logicalParts parts).map ebrSector).Nodup
  outside : ∀ l ∈ reached lba ws, ∀ p ∈ parts, ¬p.Covers lba l

/-- What keeps the EBRs of a request apart from each other and from the partitions. The surplus
table is harmless only behind the end of the card. -/
structure Apart (lba : Nat) (parts : List Part) (first : Part) (rest : List Part) : Prop where
  surplus : lba ≤ first.lba
  distinct : (0 :: (first :: rest).map ebrSector).Nodup
  onCard : ∀ p ∈ first :: rest, ebrSector p < lba
  outside : ∀ p ∈ first :: rest, ∀ q ∈ parts, ¬q.Covers lba (ebrSector p)

theorem sectors_ebrWrites (lba first : Nat) (xs : List Part) :
    (ebrWrites lba first xs).map Write.sector = xs.map ebrSector := by
  induction xs with
  | nil => rfl
  | cons p xs ih => rw [ebrWrites, List.map_cons, ih, List.map_cons, ebrSector]

theorem accepted_sectors (accepted : 0 ≤ (mmcMakePartTable lba parts partType).status) :
    (∀ p ∈ parts, 0 < p.lba) ∧
      ((parts.length ≤ 4 ∧ logicalParts parts = [] ∧
          (mmcMakePartTable lba parts partType).writes.map Write.sector = [0]) ∨
        ∃ first rest, logicalParts parts = first :: rest ∧ parts.drop 3 = first :: rest ∧
          rest ≠ [] ∧ (mmcMakePartTable lba parts partType).writes.map Write.sector =
            0 :: ((first :: rest).map ebrSector ++ [first.lba])) := by
  obtain ⟨pt, last, hPrimary, -, hCases⟩ := accepted_cases accepted
  have hBlock := ebrBlock_eq
  obtain ⟨-, -, hTake⟩ := primaryTables_entries hPrimary
  have hPos : (∀ p ∈ logicalParts parts, 0 < p.lba) → ∀ p ∈ parts, 0 < p.lba := by
    intro hLogical p hp
    rw [← List.take_append_drop (mbrTables parts.length) parts, List.mem_append] at hp
    exact hp.elim (hTake p) (hLogical p)
  rcases hCases with ⟨hFew, hWrites⟩ | ⟨first, rest, hDrop, hRest, -, hLow, -, hWrites⟩
  · grind [logicalParts, mbrTables_few, List.drop_length, List.map_singleton]
  · have hLogical : logicalParts parts = first :: rest := by
      grind [logicalParts, mbrTables_many]
    grind [sectors_ebrWrites, List.map_singleton]

theorem not_covers_zero (h : 0 < p.lba) : ¬p.Covers lba 0 := by
  rintro ⟨hStart, -⟩
  unfold Part.lba at h
  omega

theorem ebrSector_lt (p : Part) : ebrSector p + 1 < 2 ^ 64 := by
  have := p.lba_lt
  unfold ebrSector
  omega

theorem Part.covers_lba (h : p.lba < lba) : p.Covers lba p.lba := by
  unfold Covers Part.lba at *
  split <;> omega

theorem onlyTables_few (hPos : ∀ p ∈ parts, 0 < p.lba) (hNone : logicalParts parts = [])
    (hSectors : ws.map Write.sector = [0]) : OnlyTables lba parts ws ↔ 0 < lba := by
  have hReached : ∀ l, l ∈ reached lba ws ↔ l = 0 ∧ 0 < lba := by
    intro l
    rw [mem_reached, hSectors, List.mem_singleton]
    refine and_congr_right fun hl => ?_
    rw [hl, blockWriteRet_eq_one_iff (by decide)]
  constructor
  · intro hOnly
    exact ((hReached 0).mp ((hOnly.written 0).mpr List.mem_cons_self)).2
  · intro hCard
    refine ⟨fun l => ?_, by simp [hNone], fun l hl p hp => ?_⟩
    · grind
    · grind [not_covers_zero]

theorem onlyTables_many {first : Part} {rest : List Part}
    (hPos : ∀ p ∈ parts, 0 < p.lba) (hFirst : first ∈ parts)
    (hLogical : logicalParts parts = first :: rest)
    (hSectors : ws.map Write.sector = 0 :: ((first :: rest).map ebrSector ++ [first.lba])) :
    OnlyTables lba parts ws ↔ 0 < lba ∧ Apart lba parts first rest := by
  have hLba := first.lba_lt
  have hStart := hPos first hFirst
  have hReached : ∀ l, l ∈ reached lba ws ↔
      (l ∈ 0 :: (first :: rest).map ebrSector ∨ l = first.lba) ∧ l < lba := by
    intro l
    rw [mem_reached, hSectors, ← List.cons_append, List.mem_append, List.mem_singleton]
    refine and_congr_right fun hl => blockWriteRet_eq_one_iff ?_
    rcases hl with hl | rfl
    · grind [ebrSector_lt]
    · omega
  constructor
  · rintro ⟨hWritten, hApart, hOutside⟩
    rw [hLogical] at hWritten hApart
    have hEbr : ∀ p ∈ first :: rest, ebrSector p ∈ reached lba ws := fun p hp =>
      (hWritten _).mpr (List.mem_cons_of_mem _ (List.mem_map_of_mem hp))
    refine ⟨((hReached 0).mp ((hWritten 0).mpr List.mem_cons_self)).2, ⟨?_, hApart,
      fun p hp => ((hReached _).mp (hEbr p hp)).2, fun p hp => hOutside _ (hEbr p hp)⟩⟩
    -- on the card, the surplus table is in the first logical partition
    by_contra hIn
    have hOn : first.lba < lba := not_le.mp hIn
    exact hOutside _ ((hReached _).mpr ⟨.inr rfl, hOn⟩) _ hFirst (Part.covers_lba hOn)
  · rintro ⟨hCard, hApart⟩
    have hOn : ∀ l ∈ 0 :: (first :: rest).map ebrSector, l < lba := by
      refine List.forall_mem_cons.mpr ⟨hCard, fun l hl => ?_⟩
      obtain ⟨p, hp, rfl⟩ := List.mem_map.mp hl
      exact hApart.onCard p hp
    have hWritten : ∀ l, l ∈ reached lba ws ↔ l ∈ 0 :: (first :: rest).map ebrSector := by
      intro l
      rw [hReached]
      refine ⟨?_, fun hl => ⟨.inl hl, hOn l hl⟩⟩
      rintro ⟨hl | rfl, hIn⟩
      · exact hl
      · exact absurd hApart.surplus (not_le.mpr hIn)
    refine ⟨by rwa [hLogical], by rw [hLogical]; exact hApart.distinct, fun l hl p hp => ?_⟩
    rcases List.mem_cons.mp ((hWritten l).mp hl) with rfl | hMem
    · exact not_covers_zero (hPos p hp)
    · obtain ⟨q, hq, rfl⟩ := List.mem_map.mp hMem
      exact hApart.outside q hq p hp

/-- An accepted request keeps to its tables exactly when it has no EBRs or they are apart. -/
theorem fdisk_only_tables_iff {lba : Nat} {parts : List Part} {partType : Nat}
    (accepted : 0 ≤ (mmcMakePartTable lba parts partType).status) :
    OnlyTables lba parts (mmcMakePartTable lba parts partType).writes ↔
      0 < lba ∧ (parts.length ≤ 4 ∨
        ∃ first rest, parts.drop 3 = first :: rest ∧ Apart lba parts first rest) := by
  obtain ⟨hPos, ⟨hFew, hNone, hSectors⟩ | ⟨first, rest, hLogical, hDrop, hRest, hSectors⟩⟩ :=
    accepted_sectors accepted
  · rw [onlyTables_few hPos hNone hSectors, and_iff_left (Or.inl hFew)]
  · have hMem : first ∈ parts := List.mem_of_mem_drop (hDrop ▸ List.mem_cons_self)
    rw [onlyTables_many hPos hMem hLogical hSectors]
    refine and_congr_right fun _ => ⟨fun hApart => .inr ⟨first, rest, hDrop, hApart⟩, ?_⟩
    rintro (hFew | ⟨first', rest', hDrop', hApart⟩)
    · grind [List.length, List.length_pos_of_ne_nil, List.length_drop, List.length_cons]
    · grind

theorem fdisk_only_tables_iff_three :
    0 ≤ (mmcMakePartTable blankCard.lba (spaced.take 3) partTypeDos).status ∧
      OnlyTables blankCard.lba (spaced.take 3)
        (mmcMakePartTable blankCard.lba (spaced.take 3) partTypeDos).writes := by
  have hAccepted : 0 ≤ (mmcMakePartTable blankCard.lba (spaced.take 3) partTypeDos).status := by
    decide +kernel
  exact ⟨hAccepted, (fdisk_only_tables_iff hAccepted).mpr ⟨by decide, .inl (by decide)⟩⟩

/-- With five partitions and more, a first logical partition that starts on the card loses its
first sector. -/
theorem fdisk_clears_first_logical {parts : List Part}
    (accepted : 0 ≤ (mmcMakePartTable lba parts partType).status) {first : Part} {rest : List Part}
    (hLogical : logicalParts parts = first :: rest) (hIn : first.lba < lba) :
    first.lba ∈ reached lba (mmcMakePartTable lba parts partType).writes ∧
      first.Covers lba first.lba := by
  have hLba := first.lba_lt
  refine ⟨mem_reached.mpr ⟨?_, (blockWriteRet_eq_one_iff (by omega)).mpr hIn⟩,
    Part.covers_lba hIn⟩
  obtain ⟨-, ⟨-, hNone, -⟩ | ⟨first', rest', hLogical', -, -, hSectors⟩⟩ :=
    accepted_sectors accepted
  · rw [hLogical] at hNone
    simp at hNone
  · grind

/-- The fourth of five partitions is overwritten, though each EBR is in a gap. -/
theorem fdisk_only_tables_spaced :
    spaced.Pairwise (fun p q => p.start + p.length ≤ q.start) ∧
      0 ≤ (mmcMakePartTable blankCard.lba spaced partTypeDos).status ∧
      ¬OnlyTables blankCard.lba spaced (mmcMakePartTable blankCard.lba spaced partTypeDos).writes := by
  have hAccepted : 0 ≤ (mmcMakePartTable blankCard.lba spaced partTypeDos).status := by
    decide +kernel
  refine ⟨by decide, hAccepted, fun hOnly => ?_⟩
  obtain ⟨hReached, hCovers⟩ := @fdisk_clears_first_logical _ _ _ hAccepted
    (ofBlocks 10240 2048) [ofBlocks 14336 2048] rfl (by decide)
  exact hOnly.outside _ hReached _ (by decide) hCovers

/-!
Requests that `fdisk` refuses. The tests on the primary partitions come before the
first block write, those on the logical ones between the writes.
-/

/-- The tests before the first block write: the primary partitions and the start of the
extended one. -/
def mbrAccepted (lba : Nat) (parts : List Part) : Bool :=
  match primaryTables lba (ofInt ((parts.map Part.lba).headD 0))
      (parts.take (mbrTables parts.length)) with
  | none => false
  | some (_, last) =>
      (logicalParts parts).head?.all fun first => last ≤ sub64 first.lba ebrBlock

theorem mbrAccepted_of_primary {last : Nat} {pt : List DosPartition}
    (h : primaryTables lba (ofInt ((parts.map Part.lba).headD 0))
      (parts.take (mbrTables parts.length)) = some (pt, last)) :
    mbrAccepted lba parts =
      (logicalParts parts).head?.all fun first => last ≤ sub64 first.lba ebrBlock := by
  rw [mbrAccepted, h]

theorem writes_of_refused (h : partType ≠ partTypeDos ∨ mbrAccepted lba parts = false) :
    (mmcMakePartTable lba parts partType).writes = [] := by
  obtain ⟨hRejected, -⟩ | ⟨pt, last, hType, -, hPrimary, hEnd⟩ :=
    mmcMakePartTable_cases lba parts partType
  · rw [hRejected, Outcome.rejected]
  · have hMbr := h.resolve_left (not_not.mpr hType)
    grind [mbrAccepted_of_primary, logicalParts]

theorem ebrTable_bounds {lbaStart relative : Nat} {next : Option Part}
    {table : List DosPartition × Nat} (h : ebrTable lba lbaStart relative p next = some table) :
    lbaStart ≤ p.lba ∧ table.1.length ≤ 4 ∧ (next = none → table.2 ≤ p.lba) := by
  have hLba := p.lba_lt
  simp only [ebrTable] at h
  split at h
  · rename_i hPlaced
    simp only [placed, Bool.and_eq_true, decide_eq_true_eq] at hPlaced
    have hStart := hPlaced.1.2
    cases next with
    | none =>
        rw [Option.some.injEq] at h
        grind [sub64_of_le]
    | some q =>
        dsimp only at h
        split at h
        · grind
        · simp at h
  · simp at h

def Write.Plain (w : Write) : Prop := w.sector < 2 ^ 56 ∧ w.pt.length ≤ 4

theorem plain_extended {relative : Nat} (hRel : relative < 2 ^ 55) {lbaStart : Nat}
    {ps : List Part} (hStart : ps = [] → lbaStart < 2 ^ 56) :
    ∀ w ∈ (mmcMakePartTableExtended lba relative lbaStart ps).writes, w.Plain := by
  induction ps generalizing lbaStart with
  | nil =>
      intro w hw
      rw [mmcMakePartTableExtended, List.mem_singleton] at hw
      subst hw
      exact ⟨hStart rfl, by simp⟩
  | cons p rest ih =>
      have hLba := p.lba_lt
      cases hTable : ebrTable lba lbaStart relative p rest.head? with
      | none => simp [mmcMakePartTableExtended, hTable, Outcome.rejected]
      | some table =>
          obtain ⟨hLow, hFour, hNext⟩ := ebrTable_bounds hTable
          rw [extended_cons hTable, Outcome.after_writes]
          refine List.forall_mem_cons.mpr ⟨⟨?_, hFour⟩, ih fun hRest => ?_⟩
          · dsimp only
            omega
          · grind

theorem length_primaries {parts : List Part} :
    (parts.take (mbrTables parts.length)).length ≤ 4 ∧
      (logicalParts parts ≠ [] → (parts.take (mbrTables parts.length)).length ≤ 3) := by
  unfold logicalParts mbrTables
  grind

theorem writes_of_mbrAccepted (hCount : 1 ≤ parts.length ∧ parts.length ≤ 8)
    (hMbr : mbrAccepted lba parts = true) :
    (∃ w ∈ (mmcMakePartTable lba parts partTypeDos).writes, w.sector = 0) ∧
      ∀ w ∈ (mmcMakePartTable lba parts partTypeDos).writes, w.Plain := by
  obtain ⟨-, hWhy⟩ | ⟨pt, last, -, -, hPrimary, hEnd⟩ :=
    mmcMakePartTable_cases lba parts partTypeDos
  · cases hPrimary : primaryTables lba (ofInt ((parts.map Part.lba).headD 0))
        (parts.take (mbrTables parts.length)) with
    | none =>
        grind [mbrAccepted]
    | some table =>
        obtain ⟨first, rest, hDrop, hLast⟩ := hWhy rfl hCount table.1 table.2 hPrimary
        rw [mbrAccepted_of_primary hPrimary, logicalParts, hDrop] at hMbr
        grind
  · obtain ⟨hLength, -, -⟩ := primaryTables_entries hPrimary
    obtain ⟨hFour, hThree⟩ := @length_primaries parts
    obtain ⟨hDrop, hOne⟩ | ⟨first, rest, hDrop, -, hChained⟩ := hEnd
    · rw [hOne]
      refine ⟨by simp, fun w hw => ?_⟩
      rw [List.mem_singleton.mp hw]
      exact ⟨by simp, by rw [hLength]; exact hFour⟩
    · rw [hChained, Outcome.after_writes]
      refine ⟨by simp, List.forall_mem_cons.mpr ⟨⟨by simp, ?_⟩, ?_⟩⟩
      · grind [logicalParts, List.length_append, List.length_singleton]
      · -- a start below 2048 is refused by the first call of the recursion
        by_cases hRejected : mmcMakePartTableExtended lba (sub64 first.lba ebrBlock)
            (sub64 first.lba ebrBlock) (first :: rest) = .rejected
        · simp [hRejected, Outcome.rejected]
        · have hLow := ebrBlock_le_of_extended hRejected
          have hLba := first.lba_lt
          refine plain_extended ?_ (by simp)
          rw [sub64_of_le hLow (by omega)]
          omega

theorem sectorBytes_ne_zeros (pt : List DosPartition) : sectorBytes pt ≠ List.replicate 512 0 := by
  intro h
  have hMem : (0xaa : UInt8) ∈ sectorBytes pt := by
    rw [sectorBytes, List.mem_append, List.mem_append]
    exact .inr (.inr (by simp))
  rw [h] at hMem
  exact absurd (List.eq_of_mem_replicate hMem) (by decide)

def zeroCard (lba : Nat) (h : lba < 2 ^ 64) : Mmc :=
  { lba := lba, bMax := 1, bytes := zero, bMax_pos := Nat.one_pos, lba_lt := h }

theorem sectorAt_zeroCard (h : lba < 2 ^ 64) (l : Nat) :
    sectorAt (zeroCard lba h) l = List.replicate 512 0 := by
  rw [sectorAt, List.eq_replicate_iff]
  refine ⟨length_load _ _ _, fun b hb => ?_⟩
  simp only [load, List.mem_map] at hb
  obtain ⟨i, -, rfl⟩ := hb
  rfl

theorem sectorAt_zeroCard_changed (hLba : lba < 2 ^ 64) (hCard : lba ≠ 0)
    (hCount : 1 ≤ parts.length ∧ parts.length ≤ 8) (hMbr : mbrAccepted lba parts = true) :
    sectorAt (applied (zeroCard lba hLba) (mmcMakePartTable lba parts partTypeDos).writes) 0 ≠
      sectorAt (zeroCard lba hLba) 0 := by
  obtain ⟨hZero, hPlain⟩ := writes_of_mbrAccepted hCount hMbr
  obtain ⟨pre, w, post, hSplit, hw, hLast⟩ := Lists.exists_last hZero
  have hFour : w.pt.length ≤ 4 := (hPlain w (by rw [hSplit]; simp)).2
  have hStored := @sectorAt_applied_last (zeroCard lba hLba) pre post w hFour
    (by rw [hw]; exact Nat.pos_of_ne_zero hCard) (fun v hv hSector => hLast v hv (hSector.trans hw))
  rw [hSplit, ← hw, hStored, sectorAt_zeroCard]
  exact sectorBytes_ne_zeros w.pt

/-- A refused request leaves every card as it is exactly when the tests before the first write
refuse it. -/
theorem fdisk_rejected_unchanged_iff {lba : Nat} (hLba : lba < 2 ^ 64) {parts : List Part}
    (hCount : 1 ≤ parts.length ∧ parts.length ≤ 8) {partType : Nat}
    (rejected : (mmcMakePartTable lba parts partType).status < 0) :
    (∀ mmc : Mmc, mmc.lba = lba → ∀ l,
      sectorAt (applied mmc (mmcMakePartTable lba parts partType).writes) l = sectorAt mmc l) ↔
      lba = 0 ∨ partType ≠ partTypeDos ∨ mbrAccepted lba parts = false := by
  constructor
  · intro hSame
    by_contra hNot
    obtain ⟨hCard, rfl, hMbr⟩ :
        lba ≠ 0 ∧ partType = partTypeDos ∧ mbrAccepted lba parts = true := by
      simpa using hNot
    exact sectorAt_zeroCard_changed hLba hCard hCount hMbr (hSame _ rfl 0)
  · rintro hRefused mmc rfl l
    by_cases hTests : partType ≠ partTypeDos ∨ mbrAccepted mmc.lba parts = false
    · rw [writes_of_refused hTests]
      rfl
    · have hEmpty : mmc.lba = 0 := hRefused.resolve_right hTests
      obtain ⟨rfl, hMbr⟩ : partType = partTypeDos ∧ mbrAccepted mmc.lba parts = true := by
        simpa using hTests
      refine sectorAt_applied_unreached fun hReached => ?_
      obtain ⟨hMem, hRet⟩ := mem_reached.mp hReached
      obtain ⟨w, hw, rfl⟩ := List.mem_map.mp hMem
      have hSector := ((writes_of_mbrAccepted hCount hMbr).2 w hw).1
      grind [blockWriteRet_eq_one_iff]

def earlyError : List Part :=
  [(2048, 2048), (4096, 2048), (5000, 2048), (10240, 2048), (14336, 2048)].map
    fun b => ofBlocks b.1 b.2

theorem fdisk_rejected_unchanged_iff_five :
    (mmcMakePartTable 40000 earlyError partTypeDos).status < 0 ∧
      ∀ l, sectorAt (applied blankCard (mmcMakePartTable 40000 earlyError partTypeDos).writes) l =
        sectorAt blankCard l := by
  have hRejected : (mmcMakePartTable 40000 earlyError partTypeDos).status < 0 := by
    decide +kernel
  exact ⟨hRejected, (fdisk_rejected_unchanged_iff (by decide) (by decide) hRejected).mpr
    (.inr (.inr (by decide +kernel))) blankCard rfl⟩

def lateError : List Part :=
  [(2048, 2048), (4096, 2048), (6144, 2048), (10240, 2048), (1024, 1024)].map
    fun b => ofBlocks b.1 b.2

/-- The request is refused by the EBR call, behind the write of sector 0. -/
theorem fdisk_rejected_writes_mbr :
    (mmcMakePartTable blankCard.lba lateError partTypeDos).status < 0 ∧
      sectorAt (applied blankCard (mmcMakePartTable blankCard.lba lateError partTypeDos).writes) 0 ≠
        sectorAt blankCard 0 := by
  exact ⟨by decide +kernel,
    sectorAt_zeroCard_changed (by decide) (by decide) (by decide) (by decide +kernel)⟩

end Fire3.Fdisk

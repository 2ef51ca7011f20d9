import Fire3.Fdisk.ReadBack
import Mathlib.Data.Bool.AllAny

/-!
The partition table of an accepted request, as the reader finds it on the card.
-/

namespace Fire3.Fdisk
open ByteMemory Block Align

variable {mmc : Mmc} {parts ps : List Part}

def primaryEntry (p : Part) : DosPartition := ⟨0x83, p.lba, p.length / 512⟩

theorem isExtended_primary : ∀ e ∈ ps.map primaryEntry, isExtended e.sysInd = false := by
  intro e he
  obtain ⟨p, -, rfl⟩ := List.mem_map.mp he
  rfl

theorem primaryTables_sized {lba last last' : Nat} {pt : List DosPartition}
    (hSized : ∀ p ∈ ps, Sized p) (h : primaryTables lba last ps = some (pt, last')) :
    pt = ps.map primaryEntry ∧ (ps ≠ [] → 0 < last') := by
  induction ps generalizing last pt with
  | nil =>
      grind [primaryTables]
  | cons p ps ih =>
      obtain ⟨hNonzero, -, -, pt', rfl, hRest⟩ := primaryTables_cons h
      have hp := hSized p List.mem_cons_self
      have hLba := hp.lba_lt
      have hBlocks := hp.blocks_range
      have hLength : primaryLength lba last p = p.length / 512 := by
        rw [primaryLength, if_pos hp.length_pos.ne']
      rw [hLength] at hRest ⊢
      obtain ⟨hPt, hLast⟩ := ih (fun q hq => hSized q (List.mem_cons_of_mem _ hq)) hRest
      refine ⟨by rw [hPt]; rfl, fun _ => ?_⟩
      cases ps with
      | nil =>
          have hEnd : (p.lba + p.length / 512) % 2 ^ 64 = last' := by
            simpa [primaryTables] using congrArg (Option.map Prod.snd) hRest
          omega
      | cons q ps => exact hLast (by simp)

theorem listed_primaries (hSized : ∀ p ∈ ps, Sized p) (hPos : ∀ p ∈ ps, 0 < p.lba) :
    ((ps.map primaryEntry).map DosPartition.stored).filterMap (listed 0) =
      ps.map Part.rounded := by
  induction ps with
  | nil => rfl
  | cons p ps ih =>
      have hp : listed 0 (primaryEntry p).stored = some p.rounded :=
        listed_data (hSized p List.mem_cons_self) (hPos p List.mem_cons_self) (Nat.zero_add p.lba)
      grind

/-- When the reader finds the requested partitions: starts on block boundaries, a card with a
sector 0, and an unbroken chain of EBRs. -/
structure Readable (lba : Nat) (parts : List Part) : Prop where
  aligned : ∀ p ∈ parts, 512 ∣ p.start
  card : 0 < lba
  chain : ∀ first rest, parts.drop 3 = first :: rest → rest ≠ [] →
    Linked lba first.lba (first :: rest)

theorem not_readable_empty (hSome : parts ≠ []) (hEmpty : mmc.lba = 0) (depth : Nat) :
    getPartTable mmc (depth + 1) ≠ some parts := by
  grind [getPartTable, getPartTableExtended_outside, Option.some.inj]

theorem read_mbr (hCard : 0 < mmc.lba) (hFew : ps.length ≤ 4) (hSized : ∀ p ∈ ps, Sized p)
    (hPos : ∀ p ∈ ps, 0 < p.lba) (depth : Nat) :
    getPartTable (applied mmc [⟨0, ps.map primaryEntry⟩]) (depth + 1) =
      some (ps.map Part.rounded) := by
  have hFour : (ps.map primaryEntry).length ≤ 4 := by
    rwa [List.length_map]
  have hSector : sectorAt (applied mmc [⟨0, ps.map primaryEntry⟩]) 0 =
      sectorBytes (ps.map primaryEntry) :=
    @sectorAt_applied_last mmc [] [] ⟨0, ps.map primaryEntry⟩ hFour hCard (by simp)
  rw [getPartTable, getPartTableExtended_data (by rwa [applied_lba]) isExtended_primary hFour hSector,
    listed_primaries hSized hPos, List.nil_append]

theorem read_ext {mmc : Mmc} (hCard : 0 < mmc.lba) {ps : List Part} (hThree : ps.length = 3)
    {first : Part} {rest : List Part} (hSized : ∀ p ∈ ps ++ first :: rest, Sized p)
    (hPos : ∀ p ∈ ps, 0 < p.lba) (hLow : ∀ p ∈ first :: rest, ebrBlock < p.lba) {size depth : Nat}
    (hDepth : rest.length + 1 < depth) :
    ∃ ys, getPartTable (chained mmc
        ⟨0, ps.map primaryEntry ++ [⟨0x05, first.lba - ebrBlock, size⟩]⟩ first (first :: rest)) depth =
        some (ps.map Part.rounded ++ ys) ∧
      Adds mmc.lba first.lba (first :: rest) ys := by
  obtain ⟨depth, rfl⟩ : ∃ d, depth = d + 1 := ⟨depth - 1, by omega⟩
  have hBlock := ebrBlock_eq
  have hFirst := (hSized first (by simp)).lba_lt
  have hLogical : ∀ p ∈ first :: first :: rest, p ∈ first :: rest := by
    intro p hp
    grind
  have hSector := @sectorAt_chained_mbr mmc first (first :: rest)
    (ps.map primaryEntry ++ [⟨0x05, first.lba - ebrBlock, size⟩]) (by simp [hThree]) hCard
    (fun p hp => hLow p (hLogical p hp))
  have hStart : ofInt ((first.lba - ebrBlock) % 2 ^ 32) = first.lba - ebrBlock := by
    rw [Nat.mod_eq_of_lt (by omega), ofInt_of_lt (by omega)]
  have hLink : linked 0 (DosPartition.stored ⟨0x05, first.lba - ebrBlock, size⟩) =
      first.lba - ebrBlock := by
    simp only [linked, DosPartition.stored, hStart, Nat.add_zero]
    omega
  obtain ⟨ys, hRead, hAdds⟩ := @read_chain mmc
    ⟨0, ps.map primaryEntry ++ [⟨0x05, first.lba - ebrBlock, size⟩]⟩ first (first :: rest)
    (fun p hp => hSized p (List.mem_append_right _ (hLogical p hp)))
    (fun p hp => hLow p (hLogical p hp)) depth first rest [] rfl (by omega) (ps.map Part.rounded)
  refine ⟨ys, ?_, hAdds⟩
  rw [getPartTable, getPartTableExtended_link (by rwa [chained_lba]) isExtended_primary
    (by simp [hThree]) rfl hSector, hLink, if_pos rfl, List.nil_append,
    listed_primaries (fun p hp => hSized p (List.mem_append_left _ hp)) hPos, hRead]

/-- What the reader finds behind an accepted request: the primary partitions, and of the
logical ones what the chain leads to. -/
theorem read_accepted (hCard : 0 < mmc.lba) {partType : Nat} (hSized : ∀ p ∈ parts, Sized p)
    (accepted : 0 ≤ (mmcMakePartTable mmc.lba parts partType).status) {depth : Nat}
    (hDepth : parts.length < depth) :
    (parts.length ≤ 4 ∧ getPartTable (applied mmc (mmcMakePartTable mmc.lba parts partType).writes)
        depth = some (parts.map Part.rounded)) ∨
      ∃ first rest ys, parts.drop 3 = first :: rest ∧ rest ≠ [] ∧
        getPartTable (applied mmc (mmcMakePartTable mmc.lba parts partType).writes) depth =
          some ((parts.take 3).map Part.rounded ++ ys) ∧
        Adds mmc.lba first.lba (first :: rest) ys := by
  obtain ⟨pt, last, hPrimary, hSome, hCases⟩ := accepted_cases accepted
  have hTake : ∀ n, ∀ p ∈ parts.take n, Sized p := fun n p hp => hSized p (List.mem_of_mem_take hp)
  obtain ⟨-, -, hPos⟩ := primaryTables_entries hPrimary
  obtain ⟨rfl, hLast⟩ := primaryTables_sized (hTake _) hPrimary
  rcases hCases with ⟨hFew, hWrites⟩ | ⟨first, rest, hDrop, hRest, hFirst, hLow, hChain, hWrites⟩
  · have hAll : parts.take (mbrTables parts.length) = parts := by
      rw [mbrTables_few hFew, List.take_length]
    obtain ⟨depth, rfl⟩ : ∃ d, depth = d + 1 := ⟨depth - 1, by omega⟩
    grind [read_mbr]
  · obtain ⟨hLength, hThree⟩ := mbrTables_many hDrop hRest
    rw [hThree] at hWrites hPos hLast
    have hSplit : parts.take 3 ++ first :: rest = parts := by
      rw [← hDrop, List.take_append_drop]
    have hLogical : ∀ p ∈ first :: rest, Sized p := fun p hp =>
      hSized p (hSplit ▸ List.mem_append_right _ hp)
    have hTaken : (parts.take 3).length = 3 := by
      rw [List.length_take]
      omega
    have hAbove : ∀ p ∈ first :: rest, ebrBlock < p.lba := by
      have hBlock := ebrBlock_eq
      have hPrimaryEnd := hLast (List.ne_nil_of_length_pos (by omega))
      refine List.forall_mem_cons.mpr ⟨by omega, fun q hq => ?_⟩
      -- the test against the relative end of the partition before
      obtain ⟨p, hp, hEnd⟩ := Lists.exists_before_of_isChain hChain hq
      have hBlocks := (hLogical p hp).blocks_range
      grind [ebrLast, ebrData_eq]
    obtain ⟨ys, hRead, hAdds⟩ := @read_ext mmc hCard (parts.take 3) hTaken first rest
      (by rwa [hSplit]) hPos hAbove (sub64 mmc.lba last) depth (by omega)
    refine .inr ⟨first, rest, ys, hDrop, hRest, ?_, hAdds⟩
    rw [hWrites]
    exact hRead

theorem readable_of_read_back {partType : Nat} (hSized : ∀ p ∈ parts, Sized p)
    (accepted : 0 ≤ (mmcMakePartTable mmc.lba parts partType).status) {depth : Nat}
    (hDepth : parts.length < depth)
    (hRead : getPartTable (applied mmc (mmcMakePartTable mmc.lba parts partType).writes) depth =
      some parts) : Readable mmc.lba parts := by
  by_cases hCard : 0 < mmc.lba
  · rcases read_accepted hCard hSized accepted hDepth with ⟨hFew, hFound⟩ |
      ⟨first, rest, ys, hDrop, hRest, hFound, hAdds⟩
    · rw [hRead, Option.some.injEq] at hFound
      refine ⟨map_rounded_eq_self_iff.mp hFound.symm, hCard, fun first rest hDrop hRest => ?_⟩
      have hLength := congrArg List.length hDrop
      have := List.length_pos_of_ne_nil hRest
      rw [List.length_drop, List.length_cons] at hLength
      omega
    · rw [hRead, Option.some.injEq] at hFound
      have hSplit : parts.take 3 ++ first :: rest = parts := by
        rw [← hDrop, List.take_append_drop]
      have hParts := List.append_inj (hSplit.trans hFound) (by simp)
      have hLinked := hAdds.linked (congrArg List.length hParts.2).symm
      refine ⟨map_rounded_eq_self_iff.mp ?_, hCard, fun first' rest' hDrop' _ => ?_⟩
      · rw [← hSplit, List.map_append, ← hAdds.all hLinked, ← hParts.1, hParts.2]
      · rw [hDrop, List.cons.injEq] at hDrop'
        rwa [← hDrop'.1, ← hDrop'.2]
  · obtain ⟨depth, rfl⟩ : ∃ d, depth = d + 1 := ⟨depth - 1, by omega⟩
    grind [accepted_cases, not_readable_empty, applied_lba]

/-- The reader returns the requested partitions exactly when the request is readable. -/
theorem fdisk_read_back_iff {mmc : Mmc} {parts : List Part} {partType : Nat}
    (hSized : ∀ p ∈ parts, Sized p)
    (accepted : 0 ≤ (mmcMakePartTable mmc.lba parts partType).status) {depth : Nat}
    (hDepth : parts.length < depth) :
    getPartTable (applied mmc (mmcMakePartTable mmc.lba parts partType).writes) depth =
      some parts ↔ Readable mmc.lba parts := by
  refine ⟨readable_of_read_back hSized accepted hDepth, fun hReadable => ?_⟩
  have hAligned := map_rounded_eq_self_iff.mpr hReadable.aligned
  rcases read_accepted hReadable.card hSized accepted hDepth with ⟨-, hFound⟩ |
    ⟨first, rest, ys, hDrop, hRest, hFound, hAdds⟩
  · rw [hFound, hAligned]
  · rw [hFound, hAdds.all (hReadable.chain first rest hDrop hRest), ← List.map_append, ← hDrop,
      List.take_append_drop, hAligned]

def ofBlocks (start length : Fin (2 ^ 31)) : Part :=
  { start := start * 512, length := length * 512,
    start_lt := by have := start.isLt; omega, length_lt := by have := length.isLt; omega }

instance neZero_blocks : NeZero (2 ^ 31) := ⟨by decide⟩

theorem sized_ofBlocks {bs : List (Fin (2 ^ 31) × Fin (2 ^ 31))} (h : ∀ b ∈ bs, 0 < b.2.val) :
    ∀ p ∈ bs.map (fun b => ofBlocks b.1 b.2), Sized p := by
  intro p hp
  obtain ⟨b, hb, rfl⟩ := List.mem_map.mp hp
  have hPos := h b hb
  exact ⟨by simp only [ofBlocks]; omega, by simp only [ofBlocks]; omega,
    ⟨b.2, Nat.mul_comm _ _⟩, by simp only [ofBlocks]; omega⟩

def blankCard : Mmc :=
  { lba := 40000, bMax := 1, bytes := zero, bMax_pos := by decide, lba_lt := by decide }

def spaced : List Part :=
  [(2048, 2048), (4096, 2048), (6144, 2048), (10240, 2048), (14336, 2048)].map
    fun b => ofBlocks b.1 b.2

theorem fdisk_read_back_iff_spaced :
    0 ≤ (mmcMakePartTable blankCard.lba spaced partTypeDos).status ∧
      getPartTable (applied blankCard (mmcMakePartTable blankCard.lba spaced partTypeDos).writes) 6 =
        some spaced := by
  have hAccepted : 0 ≤ (mmcMakePartTable blankCard.lba spaced partTypeDos).status := by
    decide +kernel
  have hSized : ∀ p ∈ spaced, Sized p := sized_ofBlocks (List.all_iff_forall_prop.mp (by decide))
  refine ⟨hAccepted, (fdisk_read_back_iff hSized hAccepted (by decide)).mpr
    ⟨by decide, by decide, fun first rest hDrop _ => ?_⟩⟩
  have hLogical : first = ofBlocks 10240 2048 ∧ rest = [ofBlocks 14336 2048] := by
    simpa [spaced, eq_comm] using hDrop
  obtain ⟨rfl, rfl⟩ := hLogical
  exact ⟨by decide +kernel, by decide +kernel, by decide⟩

/-- The same partitions without the gap between the logical ones: the EBR of the last is the
first block of the one before, which the last call of the writer clears. -/
def adjacent : List Part :=
  [(2048, 2048), (4096, 2048), (6144, 2048), (10240, 2048), (12288, 2048)].map
    fun b => ofBlocks b.1 b.2

theorem fdisk_read_back_adjacent :
    (∀ p ∈ adjacent, Sized p) ∧
      0 ≤ (mmcMakePartTable blankCard.lba adjacent partTypeDos).status ∧
      ∀ depth, 5 < depth → getPartTable
        (applied blankCard (mmcMakePartTable blankCard.lba adjacent partTypeDos).writes) depth ≠
          some adjacent := by
  have hAccepted : 0 ≤ (mmcMakePartTable blankCard.lba adjacent partTypeDos).status := by
    decide +kernel
  have hSized : ∀ p ∈ adjacent, Sized p := sized_ofBlocks (List.all_iff_forall_prop.mp (by decide))
  refine ⟨hSized, hAccepted, fun depth hDepth hRead => ?_⟩
  have hChain := (readable_of_read_back hSized hAccepted hDepth hRead).chain (ofBlocks 10240 2048)
    [ofBlocks 12288 2048] rfl (by simp)
  exact hChain.not_emptied (ofBlocks 12288 2048) (by simp) (by decide +kernel)

end Fire3.Fdisk

import Fire3.Base.Align
import Fire3.Fdisk.Sector

/-!
`mmc_make_part_table` and `mmc_make_part_table_extended` of
`common/cmd_mmc_fdisk.c`, for a card with blocks of 512 bytes.

The functions never read the card, so a run is its status and the list of its
block writes. The EBR of a logical partition is placed 2048 blocks before it; the
last call of the recursion has no partition left and writes one more sector.
-/

namespace Fire3.Fdisk
open Align

structure Part where
  start : Nat
  length : Nat
  start_lt : start < 2 ^ 64
  length_lt : length < 2 ^ 64
  deriving DecidableEq

variable {p : Part} {pt : List DosPartition}

def Part.lba (p : Part) : Nat := p.start / 512

theorem Part.lba_lt (p : Part) : p.lba < 2 ^ 55 := by
  have := p.start_lt
  unfold lba
  omega

@[irreducible] def ofInt (n : Nat) : Nat :=
  if n % 2 ^ 32 < 2 ^ 31 then n % 2 ^ 32 else n % 2 ^ 32 + (2 ^ 64 - 2 ^ 32)

theorem ofInt_of_lt {n : Nat} (h : n < 2 ^ 31) : ofInt n = n := by
  unfold ofInt
  split <;> omega

@[irreducible] def ebrBlock : Nat := 2048

theorem ebrBlock_eq : ebrBlock = 2048 := by
  rw [ebrBlock]

def partTypeDos : Nat := 2

structure Outcome where
  status : Int
  writes : List Write
  deriving DecidableEq, Repr

def Outcome.rejected : Outcome := { status := -1, writes := [] }

def Outcome.after (w : Write) (o : Outcome) : Outcome := { o with writes := w :: o.writes }

@[simp] theorem Outcome.after_status (w : Write) (o : Outcome) : (o.after w).status = o.status := rfl

@[simp] theorem Outcome.after_writes (w : Write) (o : Outcome) :
    (o.after w).writes = w :: o.writes := rfl

def blockWriteRet (lba sector : Nat) : Int := if (sector + 1) % 2 ^ 64 > lba then 0 else 1

theorem blockWriteRet_nonneg (lba sector : Nat) : ¬blockWriteRet lba sector < 0 := by
  unfold blockWriteRet
  split <;> omega

def placed (lba last lbaS lbaL : Nat) : Bool :=
  lbaS ≠ 0 && last ≤ lbaS && lbaL ≤ sub64 lba last

/-- The length of a primary partition; 0 takes the rest of the card behind `last_lba`. -/
def primaryLength (lba last : Nat) (p : Part) : Nat :=
  if p.length ≠ 0 then p.length / 512 else sub64 lba last

/-- The loop over the primary partitions: their entries and the last `last_lba`. -/
def primaryTables (lba : Nat) : Nat → List Part → Option (List DosPartition × Nat)
  | last, [] => some ([], last)
  | last, p :: rest =>
      let lbaL := primaryLength lba last p
      if placed lba last p.lba lbaL then
        (primaryTables lba ((p.lba + lbaL) % 2 ^ 64) rest).map fun (pt, last) =>
          ({ sysInd := 0x83, start4 := p.lba, size4 := lbaL } :: pt, last)
      else none

def ebrLength (lba last : Nat) (p : Part) : Nat :=
  if p.length / 512 = 0 then sub64 (sub64 lba last) ebrBlock else p.length / 512

/-- The loop over the two entries of an EBR; the second one links to the EBR of the next
partition. The result has the last `lba_s`, relative as it was stored. -/
def ebrTable (lba lbaStart relative : Nat) (p : Part) (next : Option Part) :
    Option (List DosPartition × Nat) :=
  let lbaL := ebrLength lba lbaStart p
  if placed lba lbaStart p.lba lbaL then
    let lbaS := sub64 p.lba lbaStart
    let data : DosPartition := { sysInd := 0x83, start4 := lbaS, size4 := lbaL }
    -- from here on last_lba is relative
    let last := (lbaS + lbaL) % 2 ^ 64
    match next with
    | none => some ([data], lbaS)
    | some q =>
        let lbaL := ebrLength lba last q
        if placed lba last q.lba lbaL then
          let lbaS := sub64 q.lba (relative + ebrBlock)
          some ([data, { sysInd := 0x05, start4 := lbaS, size4 := (lbaL + ebrBlock) % 2 ^ 64 }],
            lbaS)
        else none
  else none

def mmcMakePartTableExtended (lba relative : Nat) : Nat → List Part → Outcome
  | lbaStart, [] =>
      { status := blockWriteRet lba lbaStart, writes := [{ sector := lbaStart, pt := [] }] }
  | lbaStart, p :: rest =>
      match ebrTable lba lbaStart relative p rest.head? with
      | none => .rejected
      | some (pt, lbaS) =>
          if blockWriteRet lba lbaStart < 0 then
            { status := blockWriteRet lba lbaStart, writes := [{ sector := lbaStart, pt := pt }] }
          else
            (mmcMakePartTableExtended lba relative ((lbaS + relative) % 2 ^ 64) rest).after
              { sector := lbaStart, pt := pt }

def mbrTables (count : Nat) : Nat := if count > 4 then 3 else count

def mmcMakePartTable (lba : Nat) (parts : List Part) (partType : Nat) : Outcome :=
  if partType ≠ partTypeDos then .rejected
  else if parts.length < 1 ∨ parts.length > 8 then .rejected
  else
    let last := ofInt ((parts.map Part.lba).headD 0)
    match primaryTables lba last (parts.take (mbrTables parts.length)) with
    | none => .rejected
    | some (pt, last) =>
        match parts.drop (mbrTables parts.length) with
        | [] => { status := blockWriteRet lba 0, writes := [{ sector := 0, pt := pt }] }
        | first :: rest =>
            let lbaS := sub64 first.lba ebrBlock
            let lbaL := sub64 lba last
            if last > lbaS then .rejected
            else
              let mbr : Write :=
                { sector := 0, pt := pt ++ [{ sysInd := 0x05, start4 := lbaS, size4 := lbaL }] }
              if blockWriteRet lba 0 < 0 then { status := blockWriteRet lba 0, writes := [mbr] }
              else (mmcMakePartTableExtended lba lbaS lbaS (first :: rest)).after mbr

def ebrData (lba : Nat) (p : Part) : DosPartition :=
  { sysInd := 0x83, start4 := ebrBlock, size4 := ebrLength lba (p.lba - ebrBlock) p }

/-- `last_lba` behind the first entry of the EBR of `p`. -/
def ebrLast (lba : Nat) (p : Part) : Nat := (ebrBlock + (ebrData lba p).size4) % 2 ^ 64

def ebrLink (lba first : Nat) (p q : Part) : DosPartition :=
  { sysInd := 0x05, start4 := sub64 q.lba first,
    size4 := (ebrLength lba (ebrLast lba p) q + ebrBlock) % 2 ^ 64 }

def ebrWrites (lba first : Nat) : List Part → List Write
  | [] => []
  | p :: rest =>
      { sector := p.lba - ebrBlock,
        pt := ebrData lba p :: (rest.head?.map (ebrLink lba first p)).toList } ::
      ebrWrites lba first rest

theorem primaryTables_cons {lba last last' : Nat} {rest : List Part}
    (h : primaryTables lba last (p :: rest) = some (pt, last')) :
    p.lba ≠ 0 ∧ last ≤ p.lba ∧ primaryLength lba last p ≤ sub64 lba last ∧
      ∃ pt', pt = ⟨0x83, p.lba, primaryLength lba last p⟩ :: pt' ∧
        primaryTables lba ((p.lba + primaryLength lba last p) % 2 ^ 64) rest = some (pt', last') := by
  rw [primaryTables] at h
  dsimp only at h
  split at h
  · rename_i hPlaced
    simp only [placed, Bool.and_eq_true, decide_eq_true_eq] at hPlaced
    grind [Option.map_eq_some_iff, Prod.mk.injEq]
  · simp at h

theorem primaryTables_entries {lba last last' : Nat} {ps : List Part}
    (h : primaryTables lba last ps = some (pt, last')) :
    pt.length = ps.length ∧ (∀ e ∈ pt, e.sysInd = 0x83) ∧ ∀ p ∈ ps, 0 < p.lba := by
  induction ps generalizing last pt with
  | nil =>
      grind [primaryTables]
  | cons p ps ih =>
      obtain ⟨hPos, -, -, pt', rfl, hRest⟩ := primaryTables_cons h
      grind

theorem mbrTables_few {count : Nat} (h : count ≤ 4) : mbrTables count = count :=
  if_neg (by omega)

theorem mbrTables_many {parts rest : List Part} {first : Part}
    (hDrop : parts.drop 3 = first :: rest) (hRest : rest ≠ []) :
    parts.length = 3 + (rest.length + 1) ∧ mbrTables parts.length = 3 := by
  have hLength := congrArg List.length hDrop
  have hPos := List.length_pos_of_ne_nil hRest
  rw [List.length_drop, List.length_cons] at hLength
  exact ⟨by omega, if_pos (by omega)⟩

theorem ebrTable_eq_some {lba relative : Nat} {next : Option Part} {lbaS : Nat}
    (h : ebrTable lba (sub64 p.lba ebrBlock) relative p next = some (pt, lbaS)) :
    (ebrBlock ≤ p.lba ∧ (ebrData lba p).size4 ≤ sub64 lba (p.lba - ebrBlock)) ∧
      (∀ q ∈ next, ebrLast lba p ≤ q.lba) ∧
      pt = ebrData lba p :: (next.map (ebrLink lba (relative + ebrBlock) p)).toList ∧
      lbaS = next.elim ebrBlock fun q => sub64 q.lba (relative + ebrBlock) := by
  have hLba := p.lba_lt
  have hBlock := ebrBlock_eq
  simp only [ebrTable] at h
  split at h
  · rename_i hPlaced
    simp only [placed, Bool.and_eq_true, decide_eq_true_eq] at hPlaced
    -- a start below 2048 gives an EBR far behind it
    have hLow : ebrBlock ≤ p.lba := by
      by_contra hBelow
      grind [sub64_of_lt]
    have hStart : sub64 p.lba ebrBlock = p.lba - ebrBlock := sub64_of_le hLow (by omega)
    have hRel : sub64 p.lba (p.lba - ebrBlock) = ebrBlock := by
      rw [sub64_of_le (by omega) (by omega)]
      omega
    have hShort : (ebrData lba p).size4 ≤ sub64 lba (p.lba - ebrBlock) := by
      rw [hStart] at hPlaced
      exact hPlaced.2
    rw [hStart, hRel] at h
    cases next with
    | none =>
        rw [Option.some.injEq, Prod.mk.injEq] at h
        exact ⟨⟨hLow, hShort⟩, by simp, h.1.symm, h.2.symm⟩
    | some q =>
        dsimp only at h
        split at h
        · rename_i hNext
          simp only [placed, Bool.and_eq_true, decide_eq_true_eq] at hNext
          rw [Option.some.injEq, Prod.mk.injEq] at h
          refine ⟨⟨hLow, hShort⟩, fun q' hq' => ?_, ?_, ?_⟩
          · rw [← Option.mem_some.mp hq']
            exact hNext.1.2
          · grind [ebrLink, ebrLast, ebrData, Option.toList_some]
          · rw [← h.2, Option.elim_some]
        · simp at h
  · simp at h

theorem extended_cons {lba relative lbaStart : Nat} {p : Part} {rest : List Part}
    {table : List DosPartition × Nat}
    (hTable : ebrTable lba lbaStart relative p rest.head? = some table) :
    mmcMakePartTableExtended lba relative lbaStart (p :: rest) =
      (mmcMakePartTableExtended lba relative ((table.2 + relative) % 2 ^ 64) rest).after
        { sector := lbaStart, pt := table.1 } := by
  rw [mmcMakePartTableExtended, hTable]
  simp only [blockWriteRet_nonneg, if_false]

theorem extended_accepted {lba relative : Nat} (hRel : relative + ebrBlock < 2 ^ 64)
    {rest : List Part}
    (h : 0 ≤ (mmcMakePartTableExtended lba relative (sub64 p.lba ebrBlock) (p :: rest)).status) :
    (∀ q ∈ p :: rest, ebrBlock ≤ q.lba ∧ (ebrData lba q).size4 ≤ sub64 lba (q.lba - ebrBlock)) ∧
      (p :: rest).IsChain (fun p q => ebrLast lba p ≤ q.lba) ∧
      (mmcMakePartTableExtended lba relative (sub64 p.lba ebrBlock) (p :: rest)).writes =
        ebrWrites lba (relative + ebrBlock) (p :: rest) ++
          [{ sector := relative + ebrBlock, pt := [] }] := by
  induction rest generalizing p with
  | nil =>
      cases hTable : ebrTable lba (sub64 p.lba ebrBlock) relative p none with
      | none => simp [mmcMakePartTableExtended, hTable, Outcome.rejected] at h
      | some table =>
          obtain ⟨⟨hLow, hShort⟩, -, hPt, hLbaS⟩ := ebrTable_eq_some hTable
          have hLba := p.lba_lt
          have hSector : (table.2 + relative) % 2 ^ 64 = relative + ebrBlock := by
            rw [hLbaS, Option.elim_none]
            omega
          refine ⟨by simpa using ⟨hLow, hShort⟩, by simp, ?_⟩
          rw [extended_cons hTable, hSector, Outcome.after_writes, mmcMakePartTableExtended, hPt,
            sub64_of_le hLow (by omega)]
          simp only [ebrWrites, List.head?_nil, List.cons_append, List.nil_append]
  | cons q rest ih =>
      cases hTable : ebrTable lba (sub64 p.lba ebrBlock) relative p (some q) with
      | none =>
          grind [mmcMakePartTableExtended, List.head?_cons, Outcome.rejected]
      | some table =>
          obtain ⟨⟨hLow, hShort⟩, hChain, hPt, hLbaS⟩ := ebrTable_eq_some hTable
          have hLba := p.lba_lt
          have hLba' := q.lba_lt
          -- the link, added to the base again, is the EBR of the next partition
          have hNext : (table.2 + relative) % 2 ^ 64 = sub64 q.lba ebrBlock := by
            rw [hLbaS, Option.elim_some]
            unfold sub64
            omega
          have hRun := @extended_cons lba relative (sub64 p.lba ebrBlock) p (q :: rest) table hTable
          rw [hNext] at hRun
          rw [hRun] at h ⊢
          obtain ⟨hAll, hLinks, hWrites⟩ := ih h
          refine ⟨List.forall_mem_cons.mpr ⟨⟨hLow, hShort⟩, hAll⟩,
            List.isChain_cons_cons.mpr ⟨hChain q rfl, hLinks⟩, ?_⟩
          grind [Outcome.after_writes, sub64_of_le, ebrWrites, List.head?_cons]

/-- A request is refused before any write, or writes sector 0 alone, or sector 0 and then
the chain of EBRs. -/
theorem mmcMakePartTable_cases (lba : Nat) (parts : List Part) (partType : Nat) :
    (mmcMakePartTable lba parts partType = .rejected ∧
      (partType = partTypeDos → 1 ≤ parts.length ∧ parts.length ≤ 8 → ∀ pt last,
        primaryTables lba (ofInt ((parts.map Part.lba).headD 0))
          (parts.take (mbrTables parts.length)) = some (pt, last) →
        ∃ first rest, parts.drop (mbrTables parts.length) = first :: rest ∧
          sub64 first.lba ebrBlock < last)) ∨
      ∃ pt last, partType = partTypeDos ∧ parts ≠ [] ∧
        primaryTables lba (ofInt ((parts.map Part.lba).headD 0))
          (parts.take (mbrTables parts.length)) = some (pt, last) ∧
        ((parts.drop (mbrTables parts.length) = [] ∧ mmcMakePartTable lba parts partType =
            { status := blockWriteRet lba 0, writes := [{ sector := 0, pt := pt }] }) ∨
          ∃ first rest, parts.drop (mbrTables parts.length) = first :: rest ∧
            last ≤ sub64 first.lba ebrBlock ∧
            mmcMakePartTable lba parts partType =
              (mmcMakePartTableExtended lba (sub64 first.lba ebrBlock) (sub64 first.lba ebrBlock)
                (first :: rest)).after
                { sector := 0, pt := pt ++ [⟨0x05, sub64 first.lba ebrBlock, sub64 lba last⟩] }) := by
  unfold mmcMakePartTable
  by_cases hType : partType ≠ partTypeDos
  · grind
  rw [if_neg hType]
  by_cases hCount : parts.length < 1 ∨ parts.length > 8
  · grind
  rw [if_neg hCount]
  have hSome : parts ≠ [] := by
    rintro rfl
    simp at hCount
  dsimp only
  cases hPrimary : primaryTables lba (ofInt ((parts.map Part.lba).headD 0))
      (parts.take (mbrTables parts.length)) with
  | none => exact .inl ⟨rfl, by simp⟩
  | some table =>
      obtain ⟨pt, last⟩ := table
      cases hDrop : parts.drop (mbrTables parts.length) with
      | nil => exact .inr ⟨pt, last, not_not.mp hType, hSome, rfl, .inl ⟨rfl, rfl⟩⟩
      | cons first rest =>
          dsimp only
          by_cases hLast : last > sub64 first.lba ebrBlock
          · refine .inl ⟨if_pos hLast, fun _ _ pt' last' hEq => ⟨first, rest, rfl, ?_⟩⟩
            cases hEq
            exact hLast
          · rw [if_neg hLast, if_neg (blockWriteRet_nonneg _ _)]
            grind

theorem ebrBlock_le_of_extended {lba relative : Nat} {first : Part} {rest : List Part}
    (h : (mmcMakePartTableExtended lba relative (sub64 first.lba ebrBlock) (first :: rest)) ≠
      .rejected) : ebrBlock ≤ first.lba := by
  cases hTable : ebrTable lba (sub64 first.lba ebrBlock) relative first rest.head? with
  | none => simp [mmcMakePartTableExtended, hTable] at h
  | some table => exact (ebrTable_eq_some hTable).1.1

/-- An accepted request of at most four partitions writes one sector, a longer one also its
chain of EBRs and a last, empty table. -/
theorem accepted_cases {lba : Nat} {parts : List Part} {partType : Nat}
    (h : 0 ≤ (mmcMakePartTable lba parts partType).status) :
    ∃ pt last, primaryTables lba (ofInt ((parts.map Part.lba).headD 0))
        (parts.take (mbrTables parts.length)) = some (pt, last) ∧ parts ≠ [] ∧
      ((parts.length ≤ 4 ∧
          (mmcMakePartTable lba parts partType).writes = [{ sector := 0, pt := pt }]) ∨
        ∃ first rest, parts.drop 3 = first :: rest ∧ rest ≠ [] ∧ ebrBlock + last ≤ first.lba ∧
          (∀ q ∈ first :: rest, ebrBlock ≤ q.lba ∧
            (ebrData lba q).size4 ≤ sub64 lba (q.lba - ebrBlock)) ∧
          (first :: rest).IsChain (fun p q => ebrLast lba p ≤ q.lba) ∧
          (mmcMakePartTable lba parts partType).writes =
            { sector := 0,
              pt := pt ++ [⟨0x05, first.lba - ebrBlock, sub64 lba last⟩] } ::
            (ebrWrites lba first.lba (first :: rest) ++ [{ sector := first.lba, pt := [] }])) := by
  obtain ⟨hRejected, -⟩ | ⟨pt, last, -, hSome, hPrimary, hEnd⟩ :=
    mmcMakePartTable_cases lba parts partType
  · rw [hRejected] at h
    simp [Outcome.rejected] at h
  refine ⟨pt, last, hPrimary, hSome, ?_⟩
  obtain ⟨hDrop, hOne⟩ | ⟨first, rest, hDrop, hLast, hChained⟩ := hEnd
  · have hFew : parts.length ≤ 4 := by
      grind [List.drop_eq_nil_iff, mbrTables]
    exact .inl ⟨hFew, by rw [hOne]⟩
  · have hMany : mbrTables parts.length = 3 ∧ rest ≠ [] := by
      have hLength := congrArg List.length hDrop
      rw [List.length_drop, List.length_cons, mbrTables] at hLength
      rw [mbrTables]
      split at hLength
      · grind
      · omega
    rw [hChained, Outcome.after_status] at h
    have hLba := first.lba_lt
    have hBlock := ebrBlock_eq
    have hLow : ebrBlock ≤ first.lba := by
      refine @ebrBlock_le_of_extended lba (sub64 first.lba ebrBlock) first rest fun hRejected => ?_
      simp [hRejected, Outcome.rejected] at h
    have hStart : sub64 first.lba ebrBlock = first.lba - ebrBlock := sub64_of_le hLow (by omega)
    obtain ⟨hAll, hChain, hWrites⟩ := extended_accepted (by rw [hStart]; omega) h
    grind [Outcome.after_writes, Nat.sub_add_cancel]

end Fire3.Fdisk

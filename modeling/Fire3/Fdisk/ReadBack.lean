import Fire3.Base.Lists
import Fire3.Fdisk.Reader

/-!
Reading back what `fdisk` has written. The reader follows the chain of EBRs as long
as every EBR is on the card and was not written over; where two EBRs coincide it
goes on from the later one.
-/

namespace Fire3.Fdisk
open ByteMemory Block Align

variable {p : Part} {xs : List Part}

/-- A request inside the ranges of the reader: whole blocks, fewer than 2^31. -/
structure Sized (p : Part) : Prop where
  start_lt : p.start < 2 ^ 31 * 512
  length_pos : 0 < p.length
  length_blocks : 512 ∣ p.length
  length_lt : p.length < 2 ^ 31 * 512

theorem Sized.lba_lt (h : Sized p) : p.lba < 2 ^ 31 := by
  have := h.start_lt
  unfold Part.lba
  omega

theorem Sized.blocks_range (h : Sized p) :
    0 < p.length / 512 ∧ p.length / 512 < 2 ^ 31 ∧ p.length / 512 * 512 = p.length := by
  have hPos := h.length_pos
  have hLt := h.length_lt
  obtain ⟨n, hn⟩ := h.length_blocks
  omega

def Part.rounded (p : Part) : Part :=
  { p with start := p.lba * 512, start_lt := by have := p.lba_lt; omega }

theorem Part.rounded_eq_self_iff : p.rounded = p ↔ 512 ∣ p.start := by
  cases p with
  | mk start length start_lt length_lt =>
      simp only [rounded, lba, Part.mk.injEq, and_true]
      omega

theorem map_rounded_eq_self_iff {ps : List Part} :
    ps.map Part.rounded = ps ↔ ∀ p ∈ ps, 512 ∣ p.start := by
  have hMap := @List.map_inj_left _ _ ps Part.rounded id
  rw [List.map_id] at hMap
  simpa only [id_eq, Part.rounded_eq_self_iff] using hMap

theorem listed_data (hSized : Sized p) {l offset : Nat} (hPos : 0 < offset)
    (hSum : l + offset = p.lba) :
    listed l (DosPartition.stored ⟨0x83, offset, p.length / 512⟩) = some p.rounded := by
  have hLba := hSized.lba_lt
  obtain ⟨hBlocks, hBlocks', hLength⟩ := hSized.blocks_range
  have hStart : ofInt (offset % 2 ^ 32) = offset := by
    rw [Nat.mod_eq_of_lt (by omega), ofInt_of_lt (by omega)]
  have hSize : ofInt (p.length / 512 % 2 ^ 32) = p.length / 512 := by
    rw [Nat.mod_eq_of_lt (by omega), ofInt_of_lt (by omega)]
  have hBytes : p.lba * 512 % 2 ^ 64 = p.lba * 512 := Nat.mod_eq_of_lt (by omega)
  have hBytes' : p.length % 2 ^ 64 = p.length := Nat.mod_eq_of_lt p.length_lt
  have hData : isExtended 0x83 = false := by decide
  simp only [listed, DosPartition.stored, hData, hStart, hSize, hSum, hLength, hBytes, hBytes',
    Bool.false_eq_true, if_false]
  rw [if_pos (by omega)]
  rfl

theorem linked_ebrLink {lba first : Nat} {q : Part} (hFirst : first < 2 ^ 31) (hq : q.lba < 2 ^ 31)
    (hLow : ebrBlock ≤ first) (hLow' : ebrBlock ≤ q.lba) :
    linked (first - ebrBlock) (ebrLink lba first p q).stored = q.lba - ebrBlock := by
  have hBlock := ebrBlock_eq
  simp only [linked, ebrLink, DosPartition.stored]
  unfold ofInt sub64
  split <;> omega

theorem ebrData_eq {lba : Nat} (hSized : Sized p) :
    ebrData lba p = ⟨0x83, ebrBlock, p.length / 512⟩ := by
  have := hSized.blocks_range
  rw [ebrData, ebrLength, if_neg (by omega)]

theorem ebrWrites_append (lba first : Nat) (front xs : List Part) :
    ∃ ws, ebrWrites lba first (front ++ xs) = ws ++ ebrWrites lba first xs := by
  induction front with
  | nil => exact ⟨[], rfl⟩
  | cons p front ih =>
      grind [ebrWrites]

theorem sector_of_mem_ebrWrites {lba first : Nat} {w : Write} (hw : w ∈ ebrWrites lba first xs) :
    ∃ p ∈ xs, w.sector = p.lba - ebrBlock := by
  induction xs with
  | nil => simp [ebrWrites] at hw
  | cons p xs ih =>
      rw [ebrWrites, List.mem_cons] at hw
      cases hw with
      | inl hHead => exact ⟨p, List.mem_cons_self, by rw [hHead]⟩
      | inr hTail =>
          grind

structure Linked (lba first : Nat) (xs : List Part) : Prop where
  on_card : ∀ p ∈ xs, p.lba < lba + ebrBlock
  not_emptied : ∀ p ∈ xs, p.lba ≠ first + ebrBlock
  distinct : (xs.map Part.lba).Nodup

theorem linked_nil (lba first : Nat) : Linked lba first [] := ⟨by simp, by simp, by simp⟩

theorem linked_cons {lba first : Nat} :
    Linked lba first (p :: xs) ↔ p.lba < lba + ebrBlock ∧ p.lba ≠ first + ebrBlock ∧
      (∀ q ∈ xs, q.lba ≠ p.lba) ∧ Linked lba first xs := by
  constructor
  · rintro ⟨hCard, hKept, hDistinct⟩
    rw [List.map_cons, List.nodup_cons] at hDistinct
    refine ⟨hCard p List.mem_cons_self, hKept p List.mem_cons_self, fun q hq hSame => ?_,
      fun q hq => hCard q (List.mem_cons_of_mem _ hq),
      fun q hq => hKept q (List.mem_cons_of_mem _ hq), hDistinct.2⟩
    exact hDistinct.1 (hSame ▸ List.mem_map_of_mem hq)
  · rintro ⟨hCard, hKept, hNew, hRest⟩
    refine ⟨List.forall_mem_cons.mpr ⟨hCard, hRest.on_card⟩,
      List.forall_mem_cons.mpr ⟨hKept, hRest.not_emptied⟩, ?_⟩
    rw [List.map_cons, List.nodup_cons]
    refine ⟨fun hMem => ?_, hRest.distinct⟩
    grind

structure Adds (lba first : Nat) (xs ys : List Part) : Prop where
  length_le : ys.length ≤ xs.length
  all : Linked lba first xs → ys = xs.map Part.rounded
  linked : ys.length = xs.length → Linked lba first xs

section
variable {mmc : Mmc} {mbr : Write} {first : Part} {logical : List Part}

def chained (mmc : Mmc) (mbr : Write) (first : Part) (logical : List Part) : Mmc :=
  applied mmc (mbr :: (ebrWrites mmc.lba first.lba logical ++ [{ sector := first.lba, pt := [] }]))

theorem chained_lba : (chained mmc mbr first logical).lba = mmc.lba := applied_lba _ _

theorem sectorAt_chained_mbr {pt : List DosPartition} (hFour : pt.length ≤ 4) (hCard : 0 < mmc.lba)
    (hLow : ∀ p ∈ first :: logical, ebrBlock < p.lba) :
    sectorAt (chained mmc ⟨0, pt⟩ first logical) 0 = sectorBytes pt := by
  refine @sectorAt_applied_last mmc [] _ ⟨0, pt⟩ hFour hCard fun w hw => ?_
  rcases List.mem_append.mp hw with hMem | hMem
  · grind [sector_of_mem_ebrWrites, List.mem_cons_of_mem]
  · grind

theorem sectorAt_chained_empty (hIn : first.lba < mmc.lba) :
    sectorAt (chained mmc mbr first logical) first.lba = sectorBytes [] := by
  rw [chained, ← List.cons_append]
  exact sectorAt_applied_last (w := ⟨first.lba, []⟩) (by simp) hIn (by simp)

theorem sectorAt_chained_ebr {front post : List Part} {q : Part}
    (hLogical : logical = front ++ q :: post) (hIn : q.lba - ebrBlock < mmc.lba)
    (hKept : first.lba ≠ q.lba - ebrBlock)
    (hLast : ∀ r ∈ post, r.lba - ebrBlock ≠ q.lba - ebrBlock) :
    sectorAt (chained mmc mbr first logical) (q.lba - ebrBlock) =
      sectorBytes (ebrData mmc.lba q :: (post.head?.map (ebrLink mmc.lba first.lba q)).toList) := by
  obtain ⟨ws, hWrites⟩ := ebrWrites_append mmc.lba first.lba front (q :: post)
  have hFour : (ebrData mmc.lba q ::
      (post.head?.map (ebrLink mmc.lba first.lba q)).toList).length ≤ 4 := by
    cases post <;> simp
  rw [chained, hLogical, hWrites, ebrWrites, List.append_assoc, List.cons_append,
    ← List.cons_append]
  refine @sectorAt_applied_last mmc (mbr :: ws) _ ⟨q.lba - ebrBlock, _⟩ hFour hIn fun v hv => ?_
  rcases List.mem_append.mp hv with hMem | hMem
  · grind [sector_of_mem_ebrWrites]
  · rw [List.mem_singleton.mp hMem]
    exact hKept

theorem read_ebr {front post : List Part} {q : Part} (hLogical : logical = front ++ q :: post)
    (hSized : ∀ p ∈ first :: logical, Sized p) (hLow : ∀ p ∈ first :: logical, ebrBlock < p.lba)
    (hIn : q.lba - ebrBlock < mmc.lba) (hKept : first.lba ≠ q.lba - ebrBlock)
    (hLast : ∀ r ∈ post, r.lba - ebrBlock ≠ q.lba - ebrBlock) {l : Nat} (hl : l = q.lba - ebrBlock)
    (depth : Nat) (parts : List Part) :
    getPartTableExtended (chained mmc mbr first logical) (depth + 1) l (first.lba - ebrBlock) parts =
      post.head?.elim (some (parts ++ [q.rounded])) fun r =>
        getPartTableExtended (chained mmc mbr first logical) depth (r.lba - ebrBlock)
          (first.lba - ebrBlock) (parts ++ [q.rounded]) := by
  subst hl
  have hMem : q ∈ first :: logical := by simp [hLogical]
  have hqLow := hLow q hMem
  have hBlock := ebrBlock_eq
  have hData : isExtended (ebrData mmc.lba q).sysInd = false := rfl
  have hListed : ([ebrData mmc.lba q].map DosPartition.stored).filterMap
      (listed (q.lba - ebrBlock)) = [q.rounded] := by
    rw [ebrData_eq (hSized q hMem), List.map_singleton, List.filterMap_cons_some
      (listed_data (hSized q hMem) (by omega) (by omega)), List.filterMap_nil]
  have hSector := @sectorAt_chained_ebr mmc mbr first logical front post q hLogical hIn hKept hLast
  have hIn' : q.lba - ebrBlock < (chained mmc mbr first logical).lba := by
    rwa [chained_lba]
  cases post with
  | nil =>
      have hRead := @getPartTableExtended_data _ _ hIn' [ebrData mmc.lba q] (by simpa using hData)
        (by simp) hSector depth (first.lba - ebrBlock) parts
      rwa [hListed] at hRead
  | cons r post =>
      have hr : r ∈ first :: logical := by simp [hLogical]
      have hRead := @getPartTableExtended_link _ _ hIn' [ebrData mmc.lba q] (by simpa using hData)
        (ebrLink mmc.lba first.lba q r) (by simp) rfl hSector depth (first.lba - ebrBlock) parts
      have hFirst := List.mem_cons_self (a := first) (l := logical)
      rwa [hListed, linked_ebrLink (hSized first hFirst).lba_lt (hSized r hr).lba_lt
        (hLow first hFirst).le (hLow r hr).le, if_neg (by omega)] at hRead

theorem adds_nil (hBroken : ¬(p.lba < mmc.lba + ebrBlock ∧ p.lba ≠ first.lba + ebrBlock)) :
    Adds mmc.lba first.lba (p :: xs) [] where
  length_le := Nat.zero_le _
  all := fun hLinked => by
    obtain ⟨hCard, hKept, -⟩ := linked_cons.mp hLinked
    exact absurd ⟨hCard, hKept⟩ hBroken
  linked := fun hLength => by simp at hLength

theorem adds_cons {q : Part} {pre post ys : List Part} (hSplit : p :: xs = pre ++ q :: post)
    (hSame : q.lba = p.lba) (hCard : p.lba < mmc.lba + ebrBlock)
    (hKept : p.lba ≠ first.lba + ebrBlock) (hLast : ∀ r ∈ post, r.lba ≠ p.lba)
    (hAdds : Adds mmc.lba first.lba post ys) :
    Adds mmc.lba first.lba (p :: xs) (q.rounded :: ys) := by
  have hLength := congrArg List.length hSplit
  have hLe := hAdds.length_le
  rw [List.length_append, List.length_cons, List.length_cons] at hLength
  -- every index is visited only if the EBR is the one of p itself
  have hOwn : pre = [] → p = q ∧ xs = post := by
    rintro rfl
    simpa using hSplit
  refine ⟨by simp only [List.length_cons]; omega, fun hLinked => ?_, fun hAll => ?_⟩
  · obtain ⟨-, -, hNew, hRest⟩ := linked_cons.mp hLinked
    cases pre with
    | nil =>
        obtain ⟨rfl, rfl⟩ := hOwn rfl
        rw [List.map_cons, hAdds.all hRest]
    | cons p' pre =>
        grind
  · rw [List.length_cons, List.length_cons] at hAll
    obtain ⟨rfl, rfl⟩ := hOwn (List.eq_nil_of_length_eq_zero (by omega))
    exact linked_cons.mpr ⟨hCard, hKept, hLast, hAdds.linked (by omega)⟩

theorem read_chain (hSized : ∀ p ∈ first :: logical, Sized p)
    (hLow : ∀ p ∈ first :: logical, ebrBlock < p.lba) {depth : Nat} {p : Part} {xs front : List Part}
    (hLogical : logical = front ++ p :: xs) (hDepth : xs.length < depth) (parts : List Part) :
    ∃ ys, getPartTableExtended (chained mmc mbr first logical) depth (p.lba - ebrBlock)
        (first.lba - ebrBlock) parts = some (parts ++ ys) ∧
      Adds mmc.lba first.lba (p :: xs) ys := by
  induction depth generalizing p xs front parts with
  | zero => omega
  | succ depth ih =>
      have hBlock := ebrBlock_eq
      have hFirst := hSized first List.mem_cons_self
      have hpMem : p ∈ first :: logical := by simp [hLogical]
      have hpLba := (hSized p hpMem).lba_lt
      have hpLow := hLow p hpMem
      by_cases hCard : p.lba - ebrBlock < mmc.lba
      · by_cases hKept : first.lba = p.lba - ebrBlock
        · -- the empty table of the last call
          refine ⟨[], ?_, adds_nil (by omega)⟩
          have hIn : first.lba < mmc.lba := by omega
          have hRead := @getPartTableExtended_data (chained mmc mbr first logical) first.lba
            (by rwa [chained_lba]) [] (by simp) (by simp) (sectorAt_chained_empty hIn) depth
            (first.lba - ebrBlock) parts
          rw [← hKept]
          simpa using hRead
        · obtain ⟨pre, q, post, hSplit, hSame, hLast⟩ := @Lists.exists_last _
            (fun q : Part => q.lba = p.lba) (p :: xs) ⟨p, List.mem_cons_self, rfl⟩
          have hLogical' : logical = (front ++ pre) ++ q :: post := by
            rw [hLogical, hSplit, List.append_assoc]
          have hMem : ∀ r ∈ q :: post, r ∈ first :: logical := fun r hr => by
            grind
          have hRead := @read_ebr mmc mbr first logical (front ++ pre) post q hLogical' hSized hLow
            (hSame ▸ hCard) (hSame ▸ hKept) (fun r hr hEq => hLast r hr (by
              have := hLow r (hMem r (List.mem_cons_of_mem _ hr))
              omega)) (p.lba - ebrBlock) (congrArg (· - ebrBlock) hSame.symm) depth parts
          have hShorter : post.length ≤ xs.length := by
            grind [List.length, List.length_append, List.length_cons]
          cases post with
          | nil =>
              have hEnd : Adds mmc.lba first.lba [] [] :=
                ⟨Nat.le_refl 0, fun _ => rfl, fun _ => linked_nil _ _⟩
              exact ⟨[q.rounded], hRead, adds_cons hSplit hSame (by omega) (by omega) hLast hEnd⟩
          | cons r post =>
              obtain ⟨ys, hRest, hAdds⟩ := @ih r post (front ++ pre ++ [q]) (by simp [hLogical'])
                (by rw [List.length_cons] at hShorter; omega) (parts ++ [q.rounded])
              refine ⟨q.rounded :: ys, ?_, adds_cons hSplit hSame (by omega) (by omega) hLast hAdds⟩
              grind
      · refine ⟨[], ?_, adds_nil (by omega)⟩
        grind [getPartTableExtended_outside, chained_lba]

end

end Fire3.Fdisk

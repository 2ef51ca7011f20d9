import Fire3.Base.Align

/-!
`fastboot erase`: `fb_mmc_erase` of `common/fb_mmc.c`, which rounds a partition to erase
groups, and `mmc_berase` of `drivers/mmc/mmc_write.c`, which erases group by group.

The rounding is done with a mask and so relies on a group size that is a power of two; the
cutting into groups works with any size.
-/

namespace Fire3.Erase
open Align

structure Card where
  highCapacity : Bool
  writeBlLen : Nat
  lba : Nat
  blLen_pos : 0 < writeBlLen
  addressable : lba * (if highCapacity then 1 else writeBlLen) ≤ 2 ^ 32

def Card.unit (c : Card) : Nat := if c.highCapacity then 1 else c.writeBlLen

structure Reply where
  startErr : Bool
  endErr : Bool
  eraseErr : Bool
  statusErr : Bool
deriving DecidableEq

/-- `mmc_erase_t`: the arguments for the range if `MMC_CMD_ERASE` is sent, and whether there
was an error. -/
def mmcEraseT (c : Card) (start blkcnt : Nat) (r : Reply) : List (Nat × Nat) × Bool :=
  let last := (start + blkcnt - 1) * c.unit % 2 ^ 64
  let first := start * c.unit % 2 ^ 64
  if r.startErr || r.endErr then ([], true)
  else ([(first % 2 ^ 32, last % 2 ^ 32)], r.eraseErr)

def beraseLoop (c : Card) (grp start blkcnt : Nat) (reply : Nat → Reply) :
    Nat → Nat → List (Nat × Nat) × Nat
  | 0, blk => ([], blk)
  | fuel + 1, blk =>
      if blk < blkcnt then
        let blkR := if blkcnt - blk > grp then grp else blkcnt - blk
        let e := mmcEraseT c (start + blk) blkR (reply blk)
        if e.2 then (e.1, blk)
        else if (reply blk).statusErr then (e.1, 0)
        else
          let rest := beraseLoop c grp start blkcnt reply fuel (blk + blkR)
          (e.1 ++ rest.1, rest.2)
      else ([], blk)

def mmcBerase (c : Card) (grp start blkcnt : Nat) (reply : Nat → Reply) :
    List (Nat × Nat) × Nat :=
  beraseLoop c grp start blkcnt reply (blkcnt + 1) 0

def blksSize (grp start size : Nat) : Nat :=
  if size ≥ grp then
    alignDown ((size + 2 ^ 64 - (align start grp + 2 ^ 64 - start) % 2 ^ 64) % 2 ^ 64) grp
  else 0

def fbMmcErase (c : Card) (grp start size : Nat) (reply : Nat → Reply) : List (Nat × Nat) × Bool :=
  let r := mmcBerase c grp (align start grp) (blksSize grp start size) reply
  (r.1, r.2 == blksSize grp start size)

def Card.range (c : Card) (a b : Nat) : Nat × Nat := (a * c.unit, (b - 1) * c.unit)

/-- What is erased are whole groups inside of the partition; if nothing fails the answer is
OKAY, and behind OKAY all such groups are erased. -/
structure ErasesGroups (c : Card) (grp start size : Nat) : Prop where
  inside : ∀ reply, ∀ cmd ∈ (fbMmcErase c grp start size reply).1, ∃ a b, cmd = c.range a b ∧
    a < b ∧ start ≤ a ∧ b ≤ start + size ∧ grp ∣ a ∧ grp ∣ b
  whole : ∀ reply, (fbMmcErase c grp start size reply).2 = true → ∀ g, start ≤ grp * g →
    grp * (g + 1) ≤ start + size → ∃ a b, c.range a b ∈ (fbMmcErase c grp start size reply).1 ∧
      a ≤ grp * g ∧ grp * (g + 1) ≤ b
  okay : (fbMmcErase c grp start size fun _ => ⟨false, false, false, false⟩).2 = true

section
variable {c : Card} {grp start m : Nat}

theorem Card.unit_pos (c : Card) : 0 < c.unit := by
  unfold Card.unit
  split
  · exact Nat.one_pos
  · exact c.blLen_pos

theorem Card.arg_lt (c : Card) {a : Nat} (h : a < c.lba) : a * c.unit < 2 ^ 32 :=
  (Nat.mul_lt_mul_of_pos_right h c.unit_pos).trans_le c.addressable

theorem mmcEraseT_eq {a n : Nat} (hn : 0 < n) (h : a + n ≤ c.lba) (r : Reply) :
    mmcEraseT c a n r =
      if r.startErr || r.endErr then ([], true) else ([c.range a (a + n)], r.eraseErr) := by
  have hFirst := c.arg_lt (show a < c.lba by omega)
  have hLast := c.arg_lt (show a + n - 1 < c.lba by omega)
  simp only [mmcEraseT, Card.range]
  rw [Nat.mod_eq_of_lt (hFirst.trans (by decide)), Nat.mod_eq_of_lt hFirst,
    Nat.mod_eq_of_lt (hLast.trans (by decide)), Nat.mod_eq_of_lt hLast]

/-- A turn of the loop on a range of whole groups erases one of them. -/
theorem beraseLoop_turn {j : Nat} (hGrp : 0 < grp) (hj : j < m) (hLba : start + grp * m ≤ c.lba)
    (reply : Nat → Reply) (fuel : Nat) :
    beraseLoop c grp start (grp * m) reply (fuel + 1) (grp * j) =
      if (reply (grp * j)).startErr || (reply (grp * j)).endErr then ([], grp * j)
      else
        let cmd := c.range (start + grp * j) (start + grp * (j + 1))
        if (reply (grp * j)).eraseErr then ([cmd], grp * j)
        else if (reply (grp * j)).statusErr then ([cmd], 0)
        else
          let rest := beraseLoop c grp start (grp * m) reply fuel (grp * (j + 1))
          (cmd :: rest.1, rest.2) := by
  have hNext : grp * (j + 1) = grp * j + grp := Nat.mul_succ ..
  have hLe : grp * (j + 1) ≤ grp * m := Nat.mul_le_mul_left grp hj
  have hBlk : (if grp * m - grp * j > grp then grp else grp * m - grp * j) = grp := by
    split <;> omega
  rw [beraseLoop, if_pos (by omega)]
  simp only [hBlk]
  rw [mmcEraseT_eq hGrp (by omega), hNext, ← Nat.add_assoc]
  split <;> simp

/-- On whole groups the loop erases groups of the range, and all of them if it goes through. -/
theorem beraseLoop_groups {j fuel : Nat} (hGrp : 0 < grp) (hj : j ≤ m) (hFuel : m - j < fuel)
    (hLba : 0 < m → start + grp * m ≤ c.lba) (reply : Nat → Reply) :
    (∀ cmd ∈ (beraseLoop c grp start (grp * m) reply fuel (grp * j)).1,
        ∃ i < m, cmd = c.range (start + grp * i) (start + grp * (i + 1))) ∧
      ((beraseLoop c grp start (grp * m) reply fuel (grp * j)).2 = grp * m → ∀ i, j ≤ i → i < m →
        c.range (start + grp * i) (start + grp * (i + 1)) ∈
          (beraseLoop c grp start (grp * m) reply fuel (grp * j)).1) := by
  induction fuel generalizing j with
  | zero => omega
  | succ fuel ih =>
      rcases Nat.eq_or_lt_of_le hj with rfl | hLt
      · rw [beraseLoop, if_neg (Nat.lt_irrefl _)]
        exact ⟨fun cmd hCmd => absurd hCmd List.not_mem_nil, fun _ i hi hi' => by omega⟩
      · have hNe : grp * j < grp * m := Nat.mul_lt_mul_of_pos_left hLt hGrp
        obtain ⟨hInside, hAll⟩ := ih (show j + 1 ≤ m from hLt) (by omega)
        rw [beraseLoop_turn hGrp hLt (hLba (Nat.zero_lt_of_lt hLt))]
        refine ⟨fun cmd hCmd => ?_, fun hEnd i hi hi' => ?_⟩
        · by_cases hFirst : cmd = c.range (start + grp * j) (start + grp * (j + 1))
          · exact ⟨j, hLt, hFirst⟩
          · apply hInside
            grind
        · split_ifs at hEnd ⊢
          · exact absurd hEnd (by omega)
          · exact absurd hEnd (by simp; omega)
          · exact absurd hEnd (by simp; omega)
          · rcases Nat.eq_or_lt_of_le hi with rfl | hLater
            · exact List.mem_cons_self
            · exact List.mem_cons_of_mem _ (hAll hEnd i hLater hi')

theorem beraseLoop_okay {j fuel : Nat} (hGrp : 0 < grp) (hj : j ≤ m) (hFuel : m - j < fuel)
    (hLba : 0 < m → start + grp * m ≤ c.lba) :
    (beraseLoop c grp start (grp * m) (fun _ => ⟨false, false, false, false⟩) fuel (grp * j)).2 =
      grp * m := by
  induction fuel generalizing j with
  | zero => omega
  | succ fuel ih =>
      rcases Nat.eq_or_lt_of_le hj with rfl | hLt
      · rw [beraseLoop, if_neg (Nat.lt_irrefl _)]
      · rw [beraseLoop_turn hGrp hLt (hLba (Nat.zero_lt_of_lt hLt))]
        exact ih (show j + 1 ≤ m from hLt) (by omega)

end

section
variable {grp start size : Nat}

theorem fbMmcErase_eq (c : Card) (reply : Nat → Reply) : fbMmcErase c grp start size reply =
    ((mmcBerase c grp (align start grp) (blksSize grp start size) reply).1,
      (mmcBerase c grp (align start grp) (blksSize grp start size) reply).2 ==
        blksSize grp start size) := rfl

/-- With a power of two, the partition is cut to the groups that lie in it. -/
theorem rounded (hPow : ∃ k ≤ 64, grp = 2 ^ k) (hWord : start + size + grp ≤ 2 ^ 64) :
    ∃ s m, align start grp = grp * s ∧ blksSize grp start size = grp * m ∧ start ≤ grp * s ∧
      (0 < m → grp * s + grp * m ≤ start + size) ∧
      ∀ g, start ≤ grp * g → grp * (g + 1) ≤ start + size → s ≤ g ∧ g < s + m := by
  have hPos := two_pow_pos hPow
  have hFits : start + grp ≤ 2 ^ 64 := by omega
  obtain ⟨s, hs⟩ := dvd_align hPow hFits
  have hLow := le_align hPow hFits
  have hFirst (g : Nat) (hg : start ≤ grp * g) : s ≤ g := by
    refine Nat.le_of_mul_le_mul_left ?_ hPos
    rw [← hs]
    exact align_le hPow hFits (Nat.dvd_mul_right grp g) hg
  by_cases hSize : grp ≤ size
  · have hHigh : align start grp ≤ start + (grp - 1) := by
      rw [align_eq hPow hFits]
      exact Nat.div_mul_le_self ..
    have hLeft : (size + 2 ^ 64 - (align start grp + 2 ^ 64 - start) % 2 ^ 64) % 2 ^ 64 =
        size - (align start grp - start) := by omega
    have hDown : blksSize grp start size = grp * ((size - (align start grp - start)) / grp) := by
      rw [blksSize, if_pos hSize, hLeft, Nat.mul_comm]
      obtain ⟨k, hk, rfl⟩ := hPow
      exact and_mask _ hk (by omega)
    have hLe := Nat.mul_div_le (size - (align start grp - start)) grp
    refine ⟨s, _, hs, hDown, by omega, fun _ => by omega, fun g hg hg' => ⟨hFirst g hg, ?_⟩⟩
    have hWhole : g + 1 - s ≤ (size - (align start grp - start)) / grp := by
      rw [Nat.le_div_iff_mul_le hPos, Nat.mul_comm, Nat.mul_sub]
      omega
    have := hFirst g hg
    omega
  · refine ⟨s, 0, hs, if_neg hSize, by omega, fun h => absurd h (Nat.lt_irrefl 0),
      fun g hg hg' => ?_⟩
    rw [Nat.mul_succ] at hg'
    omega

theorem testBit_not {x : Nat} (hx : x < 2 ^ 64) (i : Nat) :
    (2 ^ 64 - 1 - x).testBit i = (decide (i < 64) && !x.testBit i) := by
  rw [show 2 ^ 64 - 1 - x = 2 ^ 64 - (x + 1) by omega, Nat.testBit_two_pow_sub_succ hx]

theorem align_zero (hGrp : grp ≤ 2 ^ 64) (hPos : 0 < grp) : align 0 grp = 0 := by
  rw [align, Nat.zero_add, Nat.mod_eq_of_lt (by omega)]
  refine Nat.eq_of_testBit_eq fun i => ?_
  rw [Nat.testBit_and, testBit_not (by omega), Nat.zero_testBit]
  cases (grp - 1).testBit i <;> simp

/-- A number that the mask made from it keeps is a power of two. -/
theorem two_pow_of_alignDown (hGrp : grp ≤ 2 ^ 64) (hPos : 0 < grp)
    (h : alignDown grp grp = grp) : ∃ k, grp = 2 ^ k := by
  refine (Nat.and_sub_one_eq_zero_iff_isPowerOfTwo (by omega)).mp ?_
  refine Nat.eq_of_testBit_eq fun i => ?_
  have hBit := congrArg (Nat.testBit · i) h
  simp only [alignDown, Nat.testBit_and, testBit_not (show grp - 1 < 2 ^ 64 by omega)] at hBit
  rw [Nat.testBit_and, Nat.zero_testBit]
  revert hBit
  cases grp.testBit i <;> cases (grp - 1).testBit i <;> simp

end

theorem erasesGroups_of_two_pow {c : Card} {grp start size : Nat} (hPow : ∃ k ≤ 64, grp = 2 ^ k)
    (hWord : start + size + grp ≤ 2 ^ 64) (hLba : start + size ≤ c.lba) :
    ErasesGroups c grp start size := by
  have hPos := two_pow_pos hPow
  obtain ⟨s, m, hs, hm, hLow, hHigh, hGroups⟩ := rounded hPow hWord
  have hLoop := @beraseLoop_groups c grp (grp * s) m 0 (grp * m + 1) hPos (Nat.zero_le m)
    (Nat.lt_succ_of_le (Nat.le_mul_of_pos_left m hPos)) fun h => (hHigh h).trans hLba
  refine ⟨fun reply cmd hCmd => ?_, fun reply hOk g hg hg' => ?_, ?_⟩
  · rw [fbMmcErase_eq, hs, hm] at hCmd
    obtain ⟨i, hi, rfl⟩ := (hLoop reply).1 cmd hCmd
    have hEnd := hHigh (Nat.zero_lt_of_lt hi)
    have hLe : grp * (i + 1) ≤ grp * m := Nat.mul_le_mul_left grp hi
    have hNext : grp * (i + 1) = grp * i + grp := Nat.mul_succ ..
    exact ⟨_, _, rfl, by omega, by omega, by omega,
      Nat.dvd_add (Nat.dvd_mul_right ..) (Nat.dvd_mul_right ..),
      Nat.dvd_add (Nat.dvd_mul_right ..) (Nat.dvd_mul_right ..)⟩
  · rw [fbMmcErase_eq, hs, hm] at hOk ⊢
    obtain ⟨hFirst, hLast⟩ := hGroups g hg hg'
    have hMem := (hLoop reply).2 (beq_iff_eq.mp hOk) (g - s) (Nat.zero_le _) (by omega)
    rw [← Nat.mul_add, ← Nat.mul_add] at hMem
    exact ⟨_, _, hMem, Nat.mul_le_mul_left grp (by omega), Nat.mul_le_mul_left grp (by omega)⟩
  · rw [fbMmcErase_eq, hs, hm, beq_iff_eq]
    exact beraseLoop_okay hPos (Nat.zero_le m)
      (Nat.lt_succ_of_le (Nat.le_mul_of_pos_left m hPos)) fun h => (hHigh h).trans hLba

theorem mmcBerase_short {c : Card} {grp n : Nat} (hPos : 0 < n) (hShort : n ≤ grp)
    (hLba : n ≤ c.lba) :
    (mmcBerase c grp 0 n fun _ => ⟨false, false, false, false⟩).1 = [c.range 0 n] := by
  obtain ⟨fuel, rfl⟩ := Nat.exists_eq_add_one_of_ne_zero hPos.ne'
  rw [mmcBerase, beraseLoop, if_pos hPos, Nat.sub_zero, if_neg (Nat.not_lt.mpr hShort)]
  dsimp only
  rw [mmcEraseT_eq hPos (by omega), beraseLoop]
  simp

/-- On a partition of one group at the start of the card, less than a group is erased. -/
theorem two_pow_of_erasesGroups {c : Card} {grp : Nat} (hPos : 0 < grp) (hWord : grp < 2 ^ 64)
    (hLba : grp ≤ c.lba) (h : ErasesGroups c grp 0 grp) : ∃ k, grp = 2 ^ k := by
  have hStart := align_zero hWord.le hPos
  have hLeft : (grp + 2 ^ 64 - (align 0 grp + 2 ^ 64 - 0) % 2 ^ 64) % 2 ^ 64 = grp := by omega
  have hSize : blksSize grp 0 grp = alignDown grp grp := by
    rw [blksSize, if_pos (le_refl grp), hLeft]
  have hLe := alignDown_le grp grp
  apply two_pow_of_alignDown hWord.le hPos
  obtain ⟨a, b, hMem, -, hb⟩ := h.whole _ h.okay 0 (Nat.zero_le _) (by omega)
  rw [fbMmcErase_eq, hStart, hSize] at hMem
  rcases Nat.eq_zero_or_pos (alignDown grp grp) with hNone | hSome
  · rw [hNone] at hMem
    exact absurd hMem List.not_mem_nil
  · rw [mmcBerase_short hSome hLe (hLe.trans hLba), List.mem_singleton] at hMem
    have hLast := Nat.eq_of_mul_eq_mul_right c.unit_pos (Prod.mk.inj hMem).2
    omega

/-- Erasing keeps to the whole groups of every partition exactly if the size of a group is a
power of two, or no partition holds a group. -/
theorem erase_confined_iff (c : Card) {grp : Nat} (pos : 0 < grp) (word : grp < 2 ^ 32) :
    (∀ start size, start + size ≤ c.lba → ErasesGroups c grp start size) ↔
      (∃ k, grp = 2 ^ k) ∨ c.lba < grp := by
  have hLba : c.lba ≤ 2 ^ 32 :=
    (Nat.le_mul_of_pos_right c.lba c.unit_pos).trans c.addressable
  constructor
  · intro h
    by_cases hGroup : c.lba < grp
    · exact .inr hGroup
    · refine .inl (two_pow_of_erasesGroups pos (by omega) (Nat.not_lt.mp hGroup) (h 0 grp ?_))
      omega
  · rintro (⟨k, hk⟩ | hGroup) start size hIn
    · refine erasesGroups_of_two_pow ⟨k, ?_, hk⟩ (by omega) hIn
      rw [hk] at word
      exact ((Nat.pow_lt_pow_iff_right (by decide)).mp word).le.trans (by decide)
    · have hNone : blksSize grp start size = 0 := if_neg (by omega)
      have hEmpty (reply : Nat → Reply) : fbMmcErase c grp start size reply = ([], true) := by
        rw [fbMmcErase_eq, hNone]
        rfl
      refine ⟨fun reply cmd hCmd => ?_, fun reply _ g hg hg' => ?_, by rw [hEmpty]⟩
      · rw [hEmpty] at hCmd
        exact absurd hCmd List.not_mem_nil
      · rw [Nat.mul_succ] at hg'
        omega

def card4g : Card :=
  ⟨true, 512, 2 ^ 23, Nat.le_of_ble_eq_true rfl, Nat.le_of_ble_eq_true rfl⟩

theorem erase_confined_1024 : ErasesGroups card4g 1024 1000 5000 :=
  (erase_confined_iff card4g (by decide) (by decide)).mpr (.inl ⟨10, rfl⟩) 1000 5000 (by decide)

/-- With groups of 1536 blocks, only 512 blocks of a partition of one group are erased. -/
theorem erase_part_of_group :
    fbMmcErase card4g 1536 0 1536 (fun _ => ⟨false, false, false, false⟩) = ([(0, 511)], true) ∧
      ¬ErasesGroups card4g 1536 0 1536 := by
  refine ⟨by decide +kernel, fun h => ?_⟩
  obtain ⟨k, hk⟩ := two_pow_of_erasesGroups (by decide) (by decide) (by decide) h
  have hLow : 10 < k := (Nat.pow_lt_pow_iff_right (by decide : 1 < 2)).mp (by omega)
  have hHigh : k < 11 := (Nat.pow_lt_pow_iff_right (by decide : 1 < 2)).mp (by omega)
  omega

end Fire3.Erase

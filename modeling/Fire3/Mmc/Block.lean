import Fire3.Base.ByteMemory

/-!
Block access to an MMC card: `mmc_bread` of `drivers/mmc/mmc.c` and `mmc_bwrite`
of `drivers/mmc/mmc_write.c`.

A request is cut into commands of at most `b_max` blocks. A read checks the whole
range first; a write checks each command alone, so a request that runs over the
end of the card writes its leading commands before it fails. A card may also fail
by itself: a budget says how many more blocks it moves before that.
-/

namespace Fire3.Block
open ByteMemory

structure Mmc where
  lba : Nat
  bMax : Nat
  bytes : Mem
  bMax_pos : 0 < bMax
  lba_lt : lba < 2 ^ 64

/-- Blocks the card still moves before a command fails; `none` is a card that works. -/
abbrev Budget := Option Nat

variable {mmc : Mmc} {fuel start todo blkcnt addr : Nat} {bytes : Mem} {budget : Budget}

def Budget.moved : Budget → Nat → Nat
  | none, n => n
  | some k, n => min k n

@[simp] theorem Budget.moved_none (n : Nat) : Budget.moved none n = n := rfl

@[simp] theorem Budget.moved_zero (b : Budget) : b.moved 0 = 0 := by
  cases b <;> simp [moved]

def Budget.spend (b : Budget) (n : Nat) : Budget := b.map (· - n)

/-- The count read and the memory at `addr` after `mmc_bread`. The commands of one
request are contiguous, so together they move a run of leading blocks. -/
def mmcBread (mmc : Mmc) (start blkcnt : Nat) (budget : Budget) (dst : Mem) (addr : Nat) :
    Nat × Mem :=
  if blkcnt = 0 then (0, dst)
  else if (start + blkcnt) % 2 ^ 64 > mmc.lba then (0, dst)
  else
    let moved := budget.moved blkcnt
    (if moved = blkcnt then blkcnt else 0,
      store dst addr (load mmc.bytes (512 * start) (512 * moved)))

/-- The command loop of `mmc_bwrite`; the flag tells whether every command succeeded. -/
def bwriteLoop (mmc : Mmc) (src : Mem) :
    Nat → Budget → Mem → Nat → Nat → Nat → Bool × Mem
  | 0, _, bytes, _, _, _ => (true, bytes)
  | fuel + 1, budget, bytes, start, todo, addr =>
      let cur := min todo mmc.bMax
      if (start + cur) % 2 ^ 64 > mmc.lba ∧ cur ≠ 0 then (false, bytes)
      else
        let moved := budget.moved cur
        let bytes := store bytes (512 * start) (load src addr (512 * moved))
        if moved ≠ cur then (false, bytes)
        else if todo - cur = 0 then (true, bytes)
        else bwriteLoop mmc src fuel (budget.spend cur) bytes (start + cur) (todo - cur)
          (addr + 512 * cur)

def mmcBwrite (mmc : Mmc) (start blkcnt : Nat) (budget : Budget) (src : Mem) (addr : Nat) :
    Nat × Mmc :=
  let (ok, bytes) := bwriteLoop mmc src (blkcnt + 1) budget mmc.bytes start blkcnt addr
  (if ok then blkcnt else 0, { mmc with bytes := bytes })

theorem bwriteLoop_bytes (mmc : Mmc) (src : Mem)
    (hFuel : todo < fuel) (hOk : (bwriteLoop mmc src fuel budget bytes start todo addr).1 = true) :
    (bwriteLoop mmc src fuel budget bytes start todo addr).2 =
      store bytes (512 * start) (load src addr (512 * todo)) := by
  induction fuel generalizing budget bytes start todo addr with
  | zero => omega
  | succ fuel ih =>
      have hMax := mmc.bMax_pos
      simp only [bwriteLoop] at hOk ⊢
      split at hOk
      · simp at hOk
      · rw [if_neg ‹_›]
        split at hOk
        · simp at hOk
        · rename_i hMoved
          rw [if_neg hMoved, not_not.mp hMoved]
          split at hOk
          · grind
          · rw [not_not.mp hMoved] at hOk
            rw [if_neg ‹_›, ih (by omega) hOk]
            have hParts : 512 * todo = 512 * min todo mmc.bMax + 512 * (todo - min todo mmc.bMax) := by
              omega
            rw [hParts, load_add, store_append, length_load, ← Nat.mul_add]

theorem mmcBwrite_bytes {src : Mem}
    (h : (mmcBwrite mmc start blkcnt budget src addr).1 = blkcnt) :
    (mmcBwrite mmc start blkcnt budget src addr).2 =
      { mmc with bytes := store mmc.bytes (512 * start) (load src addr (512 * blkcnt)) } := by
  simp only [mmcBwrite] at h ⊢
  congr 1
  by_cases hOk : (bwriteLoop mmc src (blkcnt + 1) budget mmc.bytes start blkcnt addr).1 = true
  · exact bwriteLoop_bytes mmc src (by omega) hOk
  · -- only an empty request can report its count after a failed command
    rw [if_neg hOk] at h
    subst h
    simp [bwriteLoop]

theorem bwriteLoop_in_range (mmc : Mmc) (src : Mem)
    (hRange : start + todo ≤ mmc.lba) :
    (bwriteLoop mmc src fuel none bytes start todo addr).1 = true := by
  induction fuel generalizing bytes start todo addr with
  | zero => rfl
  | succ fuel ih =>
      have hLba := mmc.lba_lt
      have hSum : (start + min todo mmc.bMax) % 2 ^ 64 ≤ mmc.lba :=
        (Nat.mod_le _ _).trans (by omega)
      have hMoved : ¬(Budget.moved none (min todo mmc.bMax) ≠ min todo mmc.bMax) := by simp
      simp only [bwriteLoop]
      rw [if_neg (by omega), if_neg hMoved]
      split
      · rfl
      · exact ih (by omega)

theorem mmcBwrite_in_range (mmc : Mmc) (src : Mem) (addr : Nat)
    (hRange : start + blkcnt ≤ mmc.lba) :
    mmcBwrite mmc start blkcnt none src addr =
      (blkcnt, { mmc with bytes := store mmc.bytes (512 * start) (load src addr (512 * blkcnt)) }) := by
  have hCount : (mmcBwrite mmc start blkcnt none src addr).1 = blkcnt := by
    simp [mmcBwrite, bwriteLoop_in_range mmc src hRange]
  grind [Prod.ext_iff, mmcBwrite_bytes]

theorem mmcBread_bytes {dst : Mem}
    (h : (mmcBread mmc start blkcnt budget dst addr).1 = blkcnt) :
    (mmcBread mmc start blkcnt budget dst addr).2 =
      store dst addr (load mmc.bytes (512 * start) (512 * blkcnt)) := by
  simp only [mmcBread] at h ⊢
  split at h
  · rename_i hNone
    simp [hNone]
  · rename_i hSome
    rw [if_neg hSome]
    split at h
    · exact absurd h.symm hSome
    · rw [if_neg ‹_›]
      grind

/-!
How far `mmc_bwrite` gets: the blocks it has moved when it returns, on any card and on one that
works. A request over the end of the card is taken up to the last command that fits.
-/

def bwriteMoved (mmc : Mmc) : Nat → Budget → Nat → Nat → Nat
  | 0, _, _, _ => 0
  | fuel + 1, budget, start, todo =>
      let cur := min todo mmc.bMax
      if (start + cur) % 2 ^ 64 > mmc.lba ∧ cur ≠ 0 then 0
      else if budget.moved cur ≠ cur then budget.moved cur
      else if todo - cur = 0 then cur
      else cur + bwriteMoved mmc fuel (budget.spend cur) (start + cur) (todo - cur)

theorem bwriteLoop_moved (mmc : Mmc) (src : Mem) {budget : Budget}
    {addr : Nat} :
    (bwriteLoop mmc src fuel budget bytes start todo addr).2 =
      store bytes (512 * start) (load src addr (512 * bwriteMoved mmc fuel budget start todo)) := by
  induction fuel generalizing budget bytes start todo addr with
  | zero => simp [bwriteLoop, bwriteMoved]
  | succ fuel ih =>
      simp only [bwriteLoop, bwriteMoved]
      split
      · simp
      · split
        · rfl
        · rename_i hMoved
          rw [not_not.mp hMoved]
          split
          · rfl
          · rw [ih, Nat.mul_add 512 (min todo mmc.bMax), load_add, store_append, length_load,
              Nat.mul_add]

theorem Budget.moved_le (budget : Budget) (n : Nat) : budget.moved n ≤ n := by
  cases budget with
  | none => exact le_refl n
  | some k => exact Nat.min_le_right k n

theorem bwriteMoved_le (mmc : Mmc) (fuel : Nat) (budget : Budget) (start todo : Nat) :
    bwriteMoved mmc fuel budget start todo ≤ bwriteMoved mmc fuel none start todo := by
  induction fuel generalizing budget start todo with
  | zero => exact le_refl _
  | succ fuel ih =>
      have hMoved := budget.moved_le (min todo mmc.bMax)
      have hRest := ih (budget.spend (min todo mmc.bMax)) (start + min todo mmc.bMax)
        (todo - min todo mmc.bMax)
      simp only [bwriteMoved, Budget.moved_none, ne_eq, not_true_eq_false, if_false, Budget.spend,
        Option.map_none] at hRest ⊢
      split_ifs <;> omega

/-- The blocks a working card takes of a request. -/
def reach (mmc : Mmc) (start blkcnt : Nat) : Nat :=
  if start + blkcnt ≤ mmc.lba then blkcnt else (mmc.lba - start) / mmc.bMax * mmc.bMax

theorem reach_step (hFits : start + mmc.bMax ≤ mmc.lba)
    (hMore : mmc.bMax < todo) :
    mmc.bMax + reach mmc (start + mmc.bMax) (todo - mmc.bMax) = reach mmc start todo := by
  have hSplit : mmc.lba - start = mmc.lba - (start + mmc.bMax) + mmc.bMax := by omega
  simp only [reach]
  by_cases hEnd : start + todo ≤ mmc.lba
  · rw [if_pos hEnd, if_pos (by omega)]
    omega
  · rw [if_neg hEnd, if_neg (by omega), hSplit, Nat.add_div_right _ mmc.bMax_pos, Nat.succ_mul]
    omega

theorem bwriteMoved_none (mmc : Mmc) (hFuel : todo < fuel)
    (hSum : start + todo < 2 ^ 64) : bwriteMoved mmc fuel none start todo = reach mmc start todo := by
  induction fuel generalizing start todo with
  | zero => omega
  | succ fuel ih =>
      have hMax := mmc.bMax_pos
      have hCur : (start + min todo mmc.bMax) % 2 ^ 64 = start + min todo mmc.bMax :=
        Nat.mod_eq_of_lt (by omega)
      simp only [bwriteMoved, Budget.moved_none, hCur, ne_eq, not_true_eq_false, if_false]
      split
      · rename_i hOver
        rw [reach, if_neg (by omega), Nat.div_eq_of_lt (by omega), Nat.zero_mul]
      · split
        · rename_i hIn hLast
          rw [reach]
          split
          · omega
          · rw [show mmc.lba - start = 0 by omega, Nat.zero_div, Nat.zero_mul]
            omega
        · rw [show min todo mmc.bMax = mmc.bMax by omega]
          grind [Budget.spend, reach_step]

def moved (mmc : Mmc) (start blkcnt : Nat) (budget : Budget) : Nat :=
  bwriteMoved mmc (blkcnt + 1) budget start blkcnt

theorem moved_le_reach (mmc : Mmc) {blkcnt : Nat} (hSum : start + blkcnt < 2 ^ 64)
    (budget : Budget) : moved mmc start blkcnt budget ≤ reach mmc start blkcnt :=
  (bwriteMoved_le ..).trans_eq (bwriteMoved_none mmc (Nat.lt_succ_self _) hSum)

theorem moved_none (mmc : Mmc) {blkcnt : Nat} (hSum : start + blkcnt < 2 ^ 64) :
    moved mmc start blkcnt none = reach mmc start blkcnt :=
  bwriteMoved_none mmc (Nat.lt_succ_self _) hSum

theorem bwriteMoved_of_ok (mmc : Mmc) (src : Mem) {budget : Budget}
    {addr : Nat} (hFuel : todo < fuel)
    (hOk : (bwriteLoop mmc src fuel budget bytes start todo addr).1 = true) :
    bwriteMoved mmc fuel budget start todo = todo := by
  induction fuel generalizing budget bytes start todo addr with
  | zero => omega
  | succ fuel ih =>
      have hMax := mmc.bMax_pos
      grind [bwriteLoop, bwriteMoved]

/-- Wherever the card fails, `mmc_bwrite` has stored a run of leading blocks of the request, no
further than the last command that fits the card, and it returns the count only if these are all. -/
theorem mmc_bwrite_leading (mmc : Mmc) {start blkcnt : Nat} (sum : start + blkcnt < 2 ^ 64)
    (budget : Budget) (src : Mem) (addr : Nat) :
    let r := mmcBwrite mmc start blkcnt budget src addr
    ∃ n ≤ reach mmc start blkcnt, (budget = none → n = reach mmc start blkcnt) ∧
      r.2 = { mmc with bytes := store mmc.bytes (512 * start) (load src addr (512 * n)) } ∧
      (r.1 = blkcnt → n = blkcnt) := by
  refine ⟨moved mmc start blkcnt budget, moved_le_reach mmc sum budget, ?_, ?_, fun hCount => ?_⟩
  · rintro rfl
    exact moved_none mmc sum
  · simp only [mmcBwrite, bwriteLoop_moved, moved]
  · by_cases hOk : (bwriteLoop mmc src (blkcnt + 1) budget mmc.bytes start blkcnt addr).1 = true
    · exact bwriteMoved_of_ok mmc src (Nat.lt_add_one _) hOk
    · simp only [mmcBwrite, if_neg hOk] at hCount
      subst hCount
      simp [moved, bwriteMoved]

def tenBlocks : Mmc := ⟨10, 5, zero, by decide, by decide⟩

/-- The second command does not fit. -/
theorem mmc_bwrite_over_end : (mmcBwrite tenBlocks 4 8 none (fun _ => 1) 0).2 =
    { tenBlocks with bytes := store zero (512 * 4) (load (fun _ => 1) 0 (512 * 5)) } := by
  obtain ⟨n, -, hWorks, hWrite, -⟩ := mmc_bwrite_leading tenBlocks (by decide : 4 + 8 < 2 ^ 64) none
    (fun _ => 1) 0
  obtain rfl : n = 5 := hWorks rfl
  exact hWrite

end Fire3.Block

import Fire3.Lmb.Reservations
import Mathlib.Order.Bounds.Basic

/-!
The search of `__lmb_alloc_base` for a free range, from the end of the memory downwards.

The inner loop steps below the first region it collides with, so its base falls until it ends. The
result lies where it should unless the end of the search, `max_addr` or the end of the region, is
below the size: then the subtraction wraps around.
-/

namespace Fire3.LogicalMemory
open Ranges Align

/-- The regions are words, in order and disjoint. -/
structure Ordered (rgn : Region) : Prop where
  cnt_le : rgn.cnt ≤ maxLmbRegions
  word : ∀ i < rgn.cnt, (rgn.region i).base < 2 ^ 64 ∧ (rgn.region i).size < 2 ^ 64
  stop_le : ∀ i < rgn.cnt, (rgn.region i).stop ≤ 2 ^ 64
  apart : ∀ i j, i < j → j < rgn.cnt → (rgn.region i).stop ≤ (rgn.region j).base

/-- No region ends at the end of the address space. -/
def BelowTop (rgn : Region) : Prop := ∀ i < rgn.cnt, (rgn.region i).stop < 2 ^ 64

def Free (rgn : Region) (base size : Nat) : Prop :=
  ∀ j < rgn.cnt, base + size ≤ (rgn.region j).base ∨ (rgn.region j).stop ≤ base

/-- The bases that the loop in a memory region can come to from `start` on: multiples of the
alignment, below the start without a wrap, for which `lmb_overlaps_region` finds nothing. -/
def Offered (reserved : Region) (lmbbase size align start : Nat) : Set Nat :=
  {b | align ∣ b ∧ b ≠ 0 ∧ lmbbase ≤ b ∧ (b = start ∨ b < start ∧ b + size < 2 ^ 64) ∧
    lmbOverlapsRegion reserved b size = none}

structure Sound (lmb : Lmb) (size align maxAddr base : Nat) : Prop where
  aligned : align ∣ base
  inside : ∃ i < lmb.memory.cnt,
    (lmb.memory.region i).base ≤ base ∧ base + size ≤ (lmb.memory.region i).stop
  below : maxAddr ≠ 0 → base + size ≤ maxAddr
  free : Free lmb.reserved base size

section
variable {rgn : Region} {base size : Nat}

theorem free_of_overlaps (hTop : BelowTop rgn) (hEnd : base + size < 2 ^ 64)
    (h : lmbOverlapsRegion rgn base size = none) : Free rgn base size := by
  intro j hj
  have hNot := List.find?_eq_none.mp h j (List.mem_range.mpr hj)
  rw [lmbAddrsOverlap, add64_of_lt (hTop j hj), add64_of_lt hEnd] at hNot
  simp only [Bool.and_eq_true, decide_eq_true_eq, not_and, Nat.not_lt] at hNot
  rw [Range.stop]
  omega

theorem overlaps_some {j : Nat} (h : lmbOverlapsRegion rgn base size = some j) :
    j < rgn.cnt ∧ (rgn.region j).base < add64 base size := by
  have hOverlap := List.find?_some h
  rw [lmbAddrsOverlap, Bool.and_eq_true, decide_eq_true_eq, decide_eq_true_eq] at hOverlap
  exact ⟨List.mem_range.mp (List.mem_of_find?_eq_some h), hOverlap.2⟩

theorem next_lt (hWord : ∀ i < rgn.cnt, (rgn.region i).base < 2 ^ 64 ∧ (rgn.region i).size < 2 ^ 64)
    (hBase : base < 2 ^ 64) (hSize : size < 2 ^ 64) {j : Nat}
    (h : lmbOverlapsRegion rgn base size = some j) (hRoom : size ≤ (rgn.region j).base)
    (align : Nat) : lmbAlignDown (sub64 (rgn.region j).base size) align < base := by
  obtain ⟨hj, hLt⟩ := overlaps_some h
  rw [add64] at hLt
  rw [sub64_of_le hRoom (hWord j hj).1]
  have hDown := alignDown_le ((rgn.region j).base - size) align
  rw [lmbAlignDown]
  omega

end

section
variable {reserved : Region} {lmbbase size align : Nat}

/-- What is offered lies below a region that its start collides with. -/
theorem offered_below (hTop : BelowTop reserved) {base b j : Nat}
    (hOverlap : lmbOverlapsRegion reserved base size = some j)
    (hb : b ∈ Offered reserved lmbbase size align base) : b + size ≤ (reserved.region j).base := by
  obtain ⟨-, -, -, rfl | ⟨hLt, hEnd⟩, hFree⟩ := hb
  · rw [hFree] at hOverlap
    cases hOverlap
  · have hHit := List.find?_some hOverlap
    have hj := (overlaps_some hOverlap).1
    have hNot := free_of_overlaps hTop hEnd hFree j hj
    rw [lmbAddrsOverlap, add64_of_lt (hTop j hj), Bool.and_eq_true, decide_eq_true_eq] at hHit
    rw [Range.stop] at hNot
    omega

variable
  (hWord : ∀ i < reserved.cnt, (reserved.region i).base < 2 ^ 64 ∧ (reserved.region i).size < 2 ^ 64)
  (hSize : size < 2 ^ 64)
include hWord hSize

theorem allocLoop_ends {base : Nat} (hBase : base < 2 ^ 64) :
    ∃ r, ∀ fuel, base < fuel → allocLoop reserved lmbbase size align fuel base = some r := by
  induction base using Nat.strongRecOn with
  | ind base ih =>
      by_cases hMore : base ≠ 0 ∧ lmbbase ≤ base
      · cases hOverlap : lmbOverlapsRegion reserved base size with
        | none =>
            refine ⟨some base, fun fuel hFuel => ?_⟩
            obtain ⟨fuel, rfl⟩ := Nat.exists_eq_add_one_of_ne_zero (Nat.ne_zero_of_lt hFuel)
            rw [allocLoop, if_pos hMore, hOverlap]
        | some j =>
            by_cases hRoom : (reserved.region j).base < size
            · refine ⟨none, fun fuel hFuel => ?_⟩
              obtain ⟨fuel, rfl⟩ := Nat.exists_eq_add_one_of_ne_zero (Nat.ne_zero_of_lt hFuel)
              rw [allocLoop, if_pos hMore, hOverlap]
              exact if_pos hRoom
            · have hNext := next_lt hWord hBase hSize hOverlap (Nat.le_of_not_lt hRoom) align
              obtain ⟨r, hr⟩ := ih _ hNext (hNext.trans hBase)
              refine ⟨r, fun fuel hFuel => ?_⟩
              obtain ⟨fuel, rfl⟩ := Nat.exists_eq_add_one_of_ne_zero (Nat.ne_zero_of_lt hFuel)
              rw [allocLoop, if_pos hMore, hOverlap]
              grind
      · refine ⟨none, fun fuel hFuel => ?_⟩
        obtain ⟨fuel, rfl⟩ := Nat.exists_eq_add_one_of_ne_zero (Nat.ne_zero_of_lt hFuel)
        rw [allocLoop, if_neg hMore]

theorem offered_next (hTop : BelowTop reserved) (hAlign : ∃ k ≤ 64, align = 2 ^ k) {base j : Nat}
    (hBase : base < 2 ^ 64) (hOverlap : lmbOverlapsRegion reserved base size = some j)
    (hRoom : size ≤ (reserved.region j).base) :
    Offered reserved lmbbase size align (lmbAlignDown (sub64 (reserved.region j).base size) align) =
      Offered reserved lmbbase size align base := by
  obtain ⟨hj, -⟩ := overlaps_some hOverlap
  have hNext := next_lt hWord hBase hSize hOverlap hRoom align
  have hDown := alignDown_le (sub64 (reserved.region j).base size) align
  have hDiff := sub64_of_le hRoom (hWord j hj).1
  have hTopBase := (hWord j hj).1
  rw [hDiff] at hDown hNext ⊢
  rw [lmbAlignDown] at hNext ⊢
  ext b
  constructor
  · rintro ⟨hDvd, hNe, hLow, hPlace, hFree⟩
    exact ⟨hDvd, hNe, hLow, .inr (by omega), hFree⟩
  · intro hb
    have hEnd := offered_below hTop hOverlap hb
    obtain ⟨hDvd, hNe, hLow, -, hFree⟩ := hb
    have hLe := le_alignDown hAlign (by omega) hDvd (Nat.le_sub_of_add_le hEnd)
    exact ⟨hDvd, hNe, hLow, by omega, hFree⟩

/-- The loop finds the highest base that is offered. -/
theorem allocLoop_greatest (hTop : BelowTop reserved) (hAlign : ∃ k ≤ 64, align = 2 ^ k)
    {fuel base : Nat} {r : Option Nat} (hBase : base < 2 ^ 64) (hDvd : align ∣ base)
    (h : allocLoop reserved lmbbase size align fuel base = some r) (b : Nat) :
    r = some b ↔ IsGreatest (Offered reserved lmbbase size align base) b := by
  induction fuel generalizing base with
  | zero => cases h
  | succ fuel ih =>
      rw [allocLoop] at h
      split at h
      · rename_i hMore
        split at h
        · rename_i hFree
          obtain rfl := Option.some.inj h
          have hGreatest : IsGreatest (Offered reserved lmbbase size align base) base :=
            ⟨⟨hDvd, hMore.1, hMore.2, .inl rfl, hFree⟩, fun c hc => hc.2.2.2.1.elim Eq.le (·.1.le)⟩
          exact ⟨fun hEq => Option.some.inj hEq ▸ hGreatest,
            fun hb => congrArg some (hGreatest.unique hb)⟩
        · rename_i j hOverlap
          dsimp only at h
          split at h
          · rename_i hBreak
            obtain rfl := Option.some.inj h
            refine ⟨nofun, fun hb => ?_⟩
            have hEnd := offered_below hTop hOverlap hb.1
            omega
          · rename_i hRoom
            have hNext := next_lt hWord hBase hSize hOverlap (Nat.le_of_not_lt hRoom) align
            rw [ih (hNext.trans hBase) (dvd_alignDown hAlign (sub64_lt ..)) h,
              offered_next hWord hSize hTop hAlign hBase hOverlap (Nat.le_of_not_lt hRoom)]
      · rename_i hEnd
        obtain rfl := Option.some.inj h
        refine ⟨nofun, fun ⟨⟨_, hNe, hLow, hPlace, _⟩, _⟩ => ?_⟩
        omega

end

section
variable {rgn : Region}

theorem lmbRemoveRegion_isSome (hCnt : rgn.cnt ≠ 0) (r : Nat) :
    (lmbRemoveRegion rgn r).isSome = true := by
  rw [lmbRemoveRegion, if_neg hCnt]
  rfl

theorem addRest_isSome {cnt : Nat} {region : Nat → Property}
    (h : cnt = 0 → lmbRegionsAdjacent ⟨cnt, region⟩ 0 1 = 0) {i : Nat} (hi : i ≤ cnt)
    (base size : Nat) (coalesced : Int) :
    (addRest ⟨cnt, region⟩ base size i coalesced).isSome = true := by
  rw [addRest]
  split
  · rename_i hBoth
    rw [Option.isSome_map]
    refine lmbRemoveRegion_isSome (fun hCnt => hBoth.2 ?_) _
    grind
  · split
    · rfl
    · split <;> rfl

theorem findStop_lt {base size i : Nat} {stop : Stop} (hStop : stop = .above i ∨ stop = .below i)
    (h : (List.range rgn.cnt).findSome? (addStop rgn base size) = some stop) : i < rgn.cnt := by
  obtain ⟨j, hj, hAt⟩ := List.exists_of_findSome?_eq_some h
  rw [List.mem_range] at hj
  have hIndex : stop = .same ∨ stop = .above j ∨ stop = .below j := by
    rw [addStop] at hAt
    split at hAt
    · exact .inl (Option.some.inj hAt).symm
    · split at hAt
      · exact .inr (.inl (Option.some.inj hAt).symm)
      · grind
  grind

theorem lmbAddRegion_isSome (h : rgn.cnt = 0 → lmbRegionsAdjacent rgn 0 1 = 0) (base size : Nat) :
    (lmbAddRegion rgn base size).isSome = true := by
  rw [lmbAddRegion]
  split
  · rfl
  · split
    · rfl
    · rename_i i hSome
      have hi := findStop_lt (.inl rfl) hSome
      grind [addRest_isSome, Nat.ne_zero_of_lt]
    · rename_i i hSome
      have hi := findStop_lt (.inr rfl) hSome
      grind [addRest_isSome, Nat.ne_zero_of_lt]
    · exact addRest_isSome h (le_refl _) _ _ _

end

section
variable {lmb : Lmb} {size align maxAddr : Nat}

theorem allocStart_lt {m : Property} {base : Nat} (h : allocStart m size align maxAddr = some base) :
    base < 2 ^ 64 := by
  have hDown : ∀ a b, lmbAlignDown (sub64 a b) align < 2 ^ 64 := fun a b =>
    (alignDown_le _ _).trans_lt (sub64_lt ..)
  rw [allocStart] at h
  split at h
  · cases h
  · split at h
    · exact Option.some.inj h ▸ hDown _ _
    · grind

theorem allocStart_spec {m : Property} (hWord : m.base < 2 ^ 64 ∧ m.size < 2 ^ 64)
    (hStop : m.stop ≤ 2 ^ 64) (hTop : maxAddr = 0 → m.stop < 2 ^ 64) (hSize : 0 < size)
    (hMax : maxAddr < 2 ^ 64) (hOk : maxAddr = 0 ∨ size ≤ maxAddr)
    (hAlign : ∃ k ≤ 64, align = 2 ^ k) {base : Nat}
    (h : allocStart m size align maxAddr = some base) :
    base + size ≤ m.stop ∧ (maxAddr ≠ 0 → base + size ≤ maxAddr) ∧ base + size < 2 ^ 64 ∧
      align ∣ base := by
  have hStopEq : m.stop = m.base + m.size := rfl
  have hDvd : ∀ a, align ∣ lmbAlignDown (sub64 a size) align := fun a =>
    dvd_alignDown hAlign (sub64_lt ..)
  rw [allocStart] at h
  split at h
  · cases h
  · rename_i hFits
    split at h
    · rename_i hAnywhere
      have hBelow := hTop hAnywhere
      rw [add64_of_lt hBelow] at h
      obtain rfl := Option.some.inj h
      have hDown := alignDown_le (sub64 (m.base + m.size) size) align
      have hDvd' := hDvd (m.base + m.size)
      rw [lmbAlignDown] at hDvd' ⊢
      rw [sub64_of_le (by omega) (by omega)] at hDown hDvd' ⊢
      omega
    · rename_i hGiven
      split at h
      · rename_i hLow
        obtain rfl := Option.some.inj h
        generalize hEnd : min (if add64 m.base m.size < m.base then 2 ^ 64 - 1
          else add64 m.base m.size) maxAddr = stop
        have hSizeMax : size ≤ maxAddr := hOk.resolve_left hGiven
        have hLimits : stop ≤ m.stop ∧ stop ≤ maxAddr ∧ size ≤ stop := by
          rw [← hEnd, add64]
          split <;> omega
        have hDown := alignDown_le (sub64 stop size) align
        rw [sub64_of_le hLimits.2.2 (by omega)] at hDown
        rw [lmbAlignDown, sub64_of_le hLimits.2.2 (by omega)]
        refine ⟨by omega, fun _ => by omega, by omega, ?_⟩
        have hDvd' := hDvd stop
        rwa [lmbAlignDown, sub64_of_le hLimits.2.2 (by omega)] at hDvd'
      · cases h

theorem allocRegions_ends (hReserved : Ordered lmb.reserved) (hSize : size < 2 ^ 64)
    (hStale : lmb.reserved.cnt = 0 → lmbRegionsAdjacent lmb.reserved 0 1 = 0) (i : Nat) :
    ∃ base lmb', ∀ fuel, 2 ^ 64 ≤ fuel →
      allocRegions fuel lmb size align maxAddr i = some (base, lmb') := by
  induction i with
  | zero => exact ⟨0, lmb, fun fuel _ => rfl⟩
  | succ i ih =>
      cases hStart : allocStart (lmb.memory.region i) size align maxAddr with
      | none =>
          obtain ⟨base, lmb', hRest⟩ := ih
          refine ⟨base, lmb', fun fuel hFuel => ?_⟩
          grind [allocRegions]
      | some start =>
          have hLt := allocStart_lt hStart
          obtain ⟨r, hLoop⟩ := @allocLoop_ends lmb.reserved (lmb.memory.region i).base size
            align hReserved.word hSize _ hLt
          cases r with
          | none =>
              obtain ⟨base, lmb', hRest⟩ := ih
              refine ⟨base, lmb', fun fuel hFuel => ?_⟩
              grind [allocRegions]
          | some base =>
              obtain ⟨⟨ret, reserved⟩, hAdd⟩ := Option.isSome_iff_exists.mp
                (lmbAddRegion_isSome hStale base (lmbAlignUp size align))
              by_cases hRet : ret < 0
              · refine ⟨0, { lmb with reserved }, fun fuel hFuel => ?_⟩
                rw [allocRegions, hStart]
                dsimp only
                grind
              · refine ⟨base, { lmb with reserved }, fun fuel hFuel => ?_⟩
                rw [allocRegions, hStart]
                dsimp only
                grind

theorem allocRegions_sound (hMemory : Ordered lmb.memory) (hReserved : Ordered lmb.reserved)
    (hTop : BelowTop lmb.reserved) (hTop' : maxAddr = 0 → BelowTop lmb.memory) (hPos : 0 < size)
    (hSize : size < 2 ^ 64) (hMax : maxAddr < 2 ^ 64) (hOk : maxAddr = 0 ∨ size ≤ maxAddr)
    (hAlign : ∃ k ≤ 64, align = 2 ^ k) {fuel i base : Nat} {lmb' : Lmb} (hi : i ≤ lmb.memory.cnt)
    (h : allocRegions fuel lmb size align maxAddr i = some (base, lmb')) (hBase : base ≠ 0) :
    Sound lmb size align maxAddr base := by
  induction i with
  | zero =>
      grind [allocRegions, Option.some.injEq, Prod.mk.injEq]
  | succ i ih =>
      rw [allocRegions] at h
      split at h
      · exact ih (by omega) h
      · rename_i start hStart
        obtain ⟨hInside, hBelow, hEnd, hDvd⟩ := allocStart_spec (hMemory.word i hi)
          (hMemory.stop_le i hi) (fun hAny => hTop' hAny i hi) hPos hMax hOk hAlign hStart
        split at h
        · cases h
        · exact ih (by omega) h
        · rename_i b hLoop
          have hFound :=
            (allocLoop_greatest hReserved.word hSize hTop hAlign (by omega) hDvd hLoop b).mp rfl
          obtain ⟨hDvd', hNe, hLow, hPlace, hNone⟩ := hFound.1
          have hFree := free_of_overlaps hTop (by omega) hNone
          split at h
          · cases h
          · split at h
            · grind
            · rw [Option.some.injEq, Prod.mk.injEq] at h
              obtain ⟨rfl, -⟩ := h
              exact ⟨hDvd', ⟨i, hi, hLow, by omega⟩, fun hGiven => by
                have hLimit := hBelow hGiven
                omega, hFree⟩

def oneRegion (x : Range) : Region := ⟨1, fun _ => x⟩

theorem ordered_oneRegion {x : Range} (hBase : x.base < 2 ^ 64) (hSize : x.size < 2 ^ 64)
    (hStop : x.stop ≤ 2 ^ 64) : Ordered (oneRegion x) :=
  ⟨(by decide : 1 ≤ 8), fun _ _ => ⟨hBase, hSize⟩, fun _ _ => hStop, fun i j hij hj => by
    change j < 1 at hj
    omega⟩

end

section
variable {calls : List Call} {lmb : Lmb} {size align maxAddr : Nat}

theorem allocRegions_reserves {fuel i base : Nat} {lmb' : Lmb} (hBase : base ≠ 0)
    (h : allocRegions fuel lmb size align maxAddr i = some (base, lmb')) :
    lmb'.memory = lmb.memory ∧ ∃ ret, 0 ≤ ret ∧
      lmbAddRegion lmb.reserved base (lmbAlignUp size align) = some (ret, lmb'.reserved) := by
  induction i with
  | zero => grind [allocRegions]
  | succ i ih => grind [allocRegions]

/-- In a careful run in which something is held, an allocation of a multiple of its alignment ends,
and the run goes on with the range that it gets as the next reservation. -/
theorem lmb_alloc_extends_run (run : Run Careful calls lmb.reserved) (held : ∃ a, Held calls a)
    (memory : Ordered lmb.memory) (top : maxAddr = 0 → BelowTop lmb.memory) (positive : 0 < size)
    (word : size + align ≤ 2 ^ 64 ∧ maxAddr < 2 ^ 64) (power : ∃ k ≤ 64, align = 2 ^ k)
    (multiple : align ∣ size) (fits : maxAddr = 0 ∨ size ≤ maxAddr) :
    ∃ base lmb', (∀ fuel, 2 ^ 64 ≤ fuel →
        lmbAllocBase fuel lmb size align maxAddr = some (base, lmb')) ∧
      (base ≠ 0 → Sound lmb size align maxAddr base ∧ lmb'.memory = lmb.memory ∧
        Run Careful (calls ++ [.reserve ⟨base, size⟩]) lmb'.reserved) := by
  obtain ⟨b, hHeld⟩ := held
  rcases run_invariant run with ⟨rfl, -⟩ | ⟨-, hValid, hCovers⟩
  · exact absurd hHeld not_held_nil
  · obtain ⟨i, hi, -⟩ := (hCovers b).mpr hHeld
    have hReserved : Ordered lmb.reserved := ⟨hValid.cnt_le, fun i hi => by
      have hStop := hValid.stop_lt i hi
      rw [Range.stop] at hStop
      omega, fun i hi => (hValid.stop_lt i hi).le, hValid.sorted.apart⟩
    have hSize : size < 2 ^ 64 :=
      (Nat.lt_add_of_pos_right (Align.two_pow_pos power)).trans_le word.1
    obtain ⟨base, lmb', hEnds⟩ := @allocRegions_ends lmb size align maxAddr hReserved hSize
      (fun hNone => by omega) lmb.memory.cnt
    have hRun := hEnds _ (le_refl _)
    refine ⟨base, lmb', hEnds, fun hBase => ?_⟩
    have hSound := allocRegions_sound memory hReserved hValid.stop_lt top positive hSize word.2 fits
      power (le_refl _) hRun hBase
    have hStop : base + size < 2 ^ 64 := by
      by_cases hAny : maxAddr = 0
      · obtain ⟨j, hj, -, hEnd⟩ := hSound.inside
        exact hEnd.trans_lt (top hAny j hj)
      · exact (hSound.below hAny).trans_lt word.2
    have hOut : ∀ a ∈ (⟨base, size⟩ : Range), ¬Held calls a := by
      intro a ha hOld
      obtain ⟨j, hj, hIn⟩ := (hCovers a).mpr hOld
      grind [hSound.free j hj, mem_def, Range.stop]
    obtain ⟨hMemory, ret, hRet, hAdd⟩ := allocRegions_reserves hBase hRun
    rw [lmbAlignUp, Align.align_of_dvd power word.1 multiple] at hAdd
    exact ⟨hSound, hMemory, run.reserve ⟨positive, hStop, .inr ⟨b, hHeld⟩⟩ hOut hAdd hRet⟩

end

def bootMemory : Lmb := ⟨oneRegion ⟨0x40000000, 0x40000000⟩,
  afterCall (lmbInit fun _ => ⟨0, 0⟩) (.reserve ⟨0x7f000000, 0x1000000⟩)⟩

theorem lmb_alloc_below_held :
    ∃ lmb', lmbAllocBase (2 ^ 64) bootMemory 0x2000 0x1000 0 = some (0x7effe000, lmb') ∧
      Run Careful [.reserve ⟨0x7f000000, 0x1000000⟩, .reserve ⟨0x7effe000, 0x2000⟩] lmb'.reserved := by
  have hRun : Run Careful [.reserve ⟨0x7f000000, 0x1000000⟩] bootMemory.reserved :=
    .reserve_next (.init fun _ => ⟨0, 0⟩) ⟨by decide, by decide, .inl rfl⟩
      (fun a _ hHeld => not_held_nil hHeld) (by decide +kernel)
  obtain ⟨base, lmb', hEnds, hNext⟩ := @lmb_alloc_extends_run _ bootMemory 0x2000 0x1000 0 hRun
    ⟨0x7f000000, (held_single _ _).mpr (by decide)⟩
    (ordered_oneRegion (by decide) (by decide) (by decide))
    (fun _ i _ => (by decide : Range.stop ⟨0x40000000, 0x40000000⟩ < 2 ^ 64)) (by decide) (by decide)
    ⟨12, by decide, by decide⟩ (by decide) (.inl rfl)
  have hBase : (lmbAllocBase (2 ^ 64) bootMemory 0x2000 0x1000 0).map Prod.fst = some 0x7effe000 := by
    decide +kernel
  rw [hEnds _ (le_refl _), Option.map_some, Option.some.injEq] at hBase
  subst hBase
  exact ⟨lmb', hEnds _ (le_refl _), (hNext (by decide)).2.2⟩

end Fire3.LogicalMemory

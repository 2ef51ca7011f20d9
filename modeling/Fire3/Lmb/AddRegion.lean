import Fire3.Lmb.Regions

/-!
What `lmb_add_region` does to a table that is sorted: the new range is joined with what the table
covers, unless there is no entry left for it.
-/

namespace Fire3.LogicalMemory
open Ranges Align

variable {x y : Range} {i : Nat}

structure Valid (rgn : Region) : Prop where
  cnt_le : rgn.cnt ≤ maxLmbRegions
  sorted : Sorted rgn.cnt rgn.region
  stop_lt : ∀ i < rgn.cnt, (rgn.region i).stop < 2 ^ 64

def Region.Covers (rgn : Region) (a : Nat) : Prop := Ranges.Covers rgn.cnt rgn.region a

section

theorem adjacent_pos (hx : x.stop < 2 ^ 64) :
    lmbAddrsAdjacent x.base x.size y.base y.size > 0 ↔ y.base = x.stop := by
  rw [lmbAddrsAdjacent, add64_of_lt hx]
  split
  · exact iff_of_true (by decide) ‹_›
  · refine iff_of_false ?_ ‹_›
    split <;> decide

theorem adjacent_neg (hx : x.stop < 2 ^ 64) (hy : y.stop < 2 ^ 64)
    (h : lmbAddrsAdjacent x.base x.size y.base y.size < 0) : x.base = y.stop := by
  rw [lmbAddrsAdjacent, add64_of_lt hx, add64_of_lt hy] at h
  split at h
  · exact absurd h (by decide)
  · split at h
    · assumption
    · exact absurd h (by decide)

theorem adjacent_ne_zero (hx : x.stop < 2 ^ 64) (hy : y.stop < 2 ^ 64)
    (h : lmbAddrsAdjacent x.base x.size y.base y.size ≠ 0) : y.base = x.stop ∨ x.base = y.stop := by
  rcases Int.lt_or_gt_of_ne h with hNeg | hPos
  · exact .inr (adjacent_neg hx hy hNeg)
  · exact .inl ((adjacent_pos hx).mp hPos)

end

section

theorem shift_eq (f : Nat → Property) (r k : Nat) :
    (List.range' r k).foldl (fun f i => Function.update f i (f (i + 1))) f =
      fun i => if r ≤ i ∧ i < r + k then f (i + 1) else f i := by
  induction k generalizing r f with
  | zero =>
      funext i
      rw [if_neg (by omega)]
      rfl
  | succ k ih =>
      rw [List.range'_succ, List.foldl_cons, ih]
      funext i
      by_cases hIn : r + 1 ≤ i ∧ i < r + 1 + k
      · grind
      · grind

theorem lmbRemoveRegion_eq {rgn : Region} {n : Nat} (hCnt : rgn.cnt = n + 1) {r : Nat}
    (hr : r ≤ n) :
    ∃ region, lmbRemoveRegion rgn r = some ⟨n, region⟩ ∧
      ∀ i < n, region i = removeAt r rgn.region i := by
  refine ⟨_, by rw [lmbRemoveRegion, if_neg (by omega), hCnt, Nat.add_sub_cancel], fun i hi => ?_⟩
  rw [shift_eq, removeAt]
  grind

theorem Valid.remove {rgn : Region} (hValid : Valid rgn) {r : Nat} (hr : r < rgn.cnt) :
    ∃ rgn', lmbRemoveRegion rgn r = some rgn' ∧ Valid rgn' ∧
      ∀ a, rgn'.Covers a ↔ rgn.Covers a ∧ a ∉ rgn.region r := by
  obtain ⟨n, hn⟩ : ∃ n, rgn.cnt = n + 1 := ⟨rgn.cnt - 1, by omega⟩
  obtain ⟨region, hRemove, hRegion⟩ := lmbRemoveRegion_eq hn (Nat.lt_succ_iff.mp (hn ▸ hr))
  have hSorted := hValid.sorted
  rw [hn] at hSorted
  have hMax := hValid.cnt_le
  refine ⟨_, hRemove, ⟨by dsimp only; omega, hSorted.removeAt.congr hRegion, fun i hi => ?_⟩,
    fun a => ?_⟩
  · dsimp only at hi ⊢
    rw [hRegion i hi, removeAt]
    split
    · exact hValid.stop_lt i (by omega)
    · exact hValid.stop_lt (i + 1) (by omega)
  · rw [Region.Covers, covers_congr hRegion, covers_removeAt hSorted (by omega), Region.Covers, hn]

end

section
variable {rgn : Region} (hValid : Valid rgn) {i : Nat} (hi : i + 1 < rgn.cnt)
  (hAdjacent : lmbRegionsAdjacent rgn i (i + 1) ≠ 0)
include hValid hi hAdjacent

theorem stop_eq_of_adjacent : (rgn.region (i + 1)).base = (rgn.region i).stop := by
  refine (adjacent_ne_zero (hValid.stop_lt i (by omega)) (hValid.stop_lt (i + 1) hi)
    hAdjacent).resolve_right fun hEq => ?_
  have hLt := hValid.sorted.lt (Nat.lt_add_one i) hi
  have hStop : (rgn.region (i + 1)).base ≤ (rgn.region (i + 1)).stop := Nat.le_add_right ..
  omega

theorem Valid.coalesce :
    ∃ rgn', lmbCoalesceRegions rgn i (i + 1) = some rgn' ∧ rgn'.cnt ≠ 0 ∧ Valid rgn' ∧
      ∀ a, rgn'.Covers a ↔ rgn.Covers a := by
  have hEq := stop_eq_of_adjacent hValid hi hAdjacent
  have hStop := hValid.stop_lt (i + 1) hi
  have hMax := hValid.cnt_le
  obtain ⟨n, hn⟩ : ∃ n, rgn.cnt = n + 1 := ⟨rgn.cnt - 1, by omega⟩
  have hSorted := hValid.sorted
  rw [hn] at hSorted
  generalize hy : (⟨(rgn.region i).base, (rgn.region i).size + (rgn.region (i + 1)).size⟩ : Range) = y
  have hyStop : y.stop = (rgn.region (i + 1)).stop := by
    grind [Range.stop]
  have hySize : add64 (rgn.region i).size (rgn.region (i + 1)).size =
      (rgn.region i).size + (rgn.region (i + 1)).size := by
    grind [add64_of_lt, Range.stop]
  obtain ⟨region, hRemove, hRegion⟩ := @lmbRemoveRegion_eq
    { rgn with region := Function.update rgn.region i y } n hn (i + 1) (by omega)
  have hUpdate : ∀ k < n, region k = Function.update (removeAt (i + 1) rgn.region) i y k := by
    intro k hk
    rw [hRegion k hk, removeAt]
    dsimp only
    by_cases hki : k = i
    · grind
    · conv_rhs => rw [Function.update_of_ne hki, removeAt]
      grind
  have hRemoved : Sorted n (removeAt (i + 1) rgn.region) := hSorted.removeAt
  have hBelow : ∀ j < i, (removeAt (i + 1) rgn.region j).stop ≤ y.base := by
    intro j hj
    rw [removeAt, if_pos (by omega), ← hy]
    exact hSorted.apart j i hj (by omega)
  have hAbove : ∀ j, i < j → j < n → y.stop ≤ (removeAt (i + 1) rgn.region j).base := by
    intro j hj hjn
    rw [removeAt, if_neg (by omega), hyStop]
    exact hSorted.apart (i + 1) (j + 1) (by omega) (by omega)
  have hPos : 0 < y.size := by
    rw [← hy]
    exact Nat.add_pos_left (hSorted.pos i (by omega)) _
  refine ⟨⟨n, region⟩, ?_, by dsimp only; omega,
    ⟨by dsimp only; omega, (hRemoved.update hPos hBelow hAbove).congr hUpdate, fun k hk => ?_⟩,
    fun a => ?_⟩
  · rw [lmbCoalesceRegions, hySize, hy]
    exact hRemove
  · dsimp only at hk ⊢
    rw [hUpdate k hk]
    by_cases hki : k = i
    · grind
    · rw [Function.update_of_ne hki, removeAt]
      split
      · exact hValid.stop_lt k (by omega)
      · exact hValid.stop_lt (k + 1) (by omega)
  · have hIn : a ∈ y ↔ a ∈ rgn.region i ∨ a ∈ rgn.region (i + 1) := by
      grind [mem_def, Range.stop]
    rw [Region.Covers, covers_congr hUpdate, covers_update hRemoved (by omega),
      covers_removeAt hSorted (by omega), hIn, Region.Covers, hn, removeAt,
      if_pos (Nat.lt_add_one i)]
    constructor
    · rintro ((hFirst | hSecond) | ⟨⟨hCovers, -⟩, -⟩)
      · exact ⟨i, by omega, hFirst⟩
      · exact ⟨i + 1, by omega, hSecond⟩
      · exact hCovers
    · intro hCovers
      by_cases hFirst : a ∈ rgn.region i
      · exact .inl (.inl hFirst)
      · grind

end

section

/-- The loop finds the place of the new region; at the beginning of the table the entry itself is
left to the code behind the loop. -/
theorem insertLoop_spec (x : Range) (n : Nat) (f : Nat → Property) :
    ∃ p ≤ n, (∀ j, p ≤ j → j < n → x.base < (f j).base) ∧
      (p ≠ 0 → (f (p - 1)).base ≤ x.base) ∧
      ∀ i, insertLoop x.base x.size n f i =
        if n < i ∨ (p = 0 ∧ i = 0) then f i else insertAt p x f i := by
  induction n generalizing f with
  | zero =>
      refine ⟨0, le_refl _, fun j _ hj => absurd hj (Nat.not_lt_zero j), fun h => absurd rfl h,
        fun i => ?_⟩
      rw [if_pos (by omega)]
      rfl
  | succ n ih =>
      rw [insertLoop]
      split
      · rename_i hLess
        obtain ⟨p, hp, hAbove, hBelow, hLoop⟩ := ih (Function.update f (n + 1) (f n))
        refine ⟨p, by omega, fun j hpj hj => ?_, fun hp0 => ?_, fun i => ?_⟩
        · grind
        · grind
        · rw [hLoop, insertAt, insertAt]
          by_cases hin : i = n + 1
          · grind
          · rw [Function.update_of_ne hin]
            grind
      · rename_i hNot
        refine ⟨n + 1, le_refl _, fun j hpj hj => absurd hj (by omega), fun _ => by
          rw [Nat.add_sub_cancel]; exact Nat.le_of_not_lt hNot, fun i => ?_⟩
        rw [insertAt]
        by_cases hin : i = n + 1
        · rw [if_neg (by omega), hin, Function.update_self, if_neg (Nat.lt_irrefl _), if_pos rfl]
        · grind

theorem Valid.insert {rgn : Region} (hValid : Valid rgn) (hCnt : rgn.cnt ≠ 0)
    (hRoom : rgn.cnt < maxLmbRegions) (hPos : 0 < x.size) (hStop : x.stop < 2 ^ 64)
    (hOut : Outside rgn.cnt rgn.region x) :
    let region := insertLoop x.base x.size rgn.cnt rgn.region
    let rgn' : Region := ⟨rgn.cnt + 1,
      if x.base < (region 0).base then Function.update region 0 x else region⟩
    Valid rgn' ∧ ∀ a, rgn'.Covers a ↔ rgn.Covers a ∨ a ∈ x := by
  obtain ⟨p, hp, hAbove, hBelow, hLoop⟩ := insertLoop_spec x rgn.cnt rgn.region
  intro region rgn'
  have hZero : region 0 = rgn.region 0 := by
    change insertLoop _ _ _ _ 0 = _
    rw [hLoop, insertAt]
    grind
  have hRegion : ∀ i < rgn.cnt + 1, rgn'.region i = insertAt p x rgn.region i := by
    intro i hi
    change (if x.base < (region 0).base then Function.update region 0 x else region) i = _
    rw [hZero]
    by_cases hp0 : p = 0
    · rw [if_pos (hAbove 0 (by omega) (by omega))]
      by_cases hi0 : i = 0
      · rw [hi0, Function.update_self, insertAt, if_neg (by omega), if_pos hp0.symm]
      · grind
    · have hFirst : (rgn.region 0).base ≤ (rgn.region (p - 1)).base := by
        by_cases hp1 : p - 1 = 0
        · rw [hp1]
        · exact (hValid.sorted.lt (by omega) (by omega)).le
      grind
  have hSide : ∀ j < rgn.cnt, x.stop ≤ (rgn.region j).base ∨ (rgn.region j).stop ≤ x.base :=
    fun j hj => hValid.sorted.side hOut hPos hj
  have hBelow' : ∀ j < p, (rgn.region j).stop ≤ x.base := by
    intro j hj
    refine (hSide j (by omega)).resolve_left fun hAfter => ?_
    have hLow : (rgn.region j).base ≤ (rgn.region (p - 1)).base := by
      by_cases hjp : j = p - 1
      · rw [hjp]
      · exact (hValid.sorted.lt (by omega) (by omega)).le
    grind [Range.stop]
  have hAbove' : ∀ j, p ≤ j → j < rgn.cnt → x.stop ≤ (rgn.region j).base := by
    intro j hpj hj
    grind [Range.stop]
  refine ⟨⟨by change rgn.cnt + 1 ≤ _; omega,
    (hValid.sorted.insertAt hp hPos hBelow' hAbove').congr hRegion, fun i hi => ?_⟩, fun a => ?_⟩
  · change i < rgn.cnt + 1 at hi
    rw [hRegion i hi, insertAt]
    split
    · exact hValid.stop_lt i (by omega)
    · split
      · exact hStop
      · exact hValid.stop_lt (i - 1) (by omega)
  · rw [Region.Covers]
    exact (covers_congr hRegion a).trans (covers_insertAt hp a)

end

section
variable {rgn : Region} (hValid : Valid rgn) (hCnt : rgn.cnt ≠ 0)

theorem addStop_some (hStop : x.stop < 2 ^ 64) (hValid : Valid rgn) (hi : i < rgn.cnt) {stop : Stop}
    (h : addStop rgn x.base x.size i = some stop) :
    (stop = .same ∧ rgn.region i = x) ∨
      (stop = .above i ∧ (rgn.region i).base = x.stop) ∨
      (stop = .below i ∧ x.base = (rgn.region i).stop) := by
  rw [addStop] at h
  split at h
  · rename_i hSame
    exact .inl ⟨(Option.some.inj h).symm, Range.ext hSame.1 hSame.2⟩
  · split at h
    · rename_i hAbove
      exact .inr (.inl ⟨(Option.some.inj h).symm, (adjacent_pos hStop).mp hAbove⟩)
    · split at h
      · rename_i hBelow
        exact .inr (.inr ⟨(Option.some.inj h).symm,
          adjacent_neg hStop (hValid.stop_lt i hi) hBelow⟩)
      · cases h

theorem Valid.update (hValid : Valid rgn) (hPos : 0 < y.size) (hStop : y.stop < 2 ^ 64)
    (hBelow : ∀ j < i, (rgn.region j).stop ≤ y.base)
    (hAbove : ∀ j, i < j → j < rgn.cnt → y.stop ≤ (rgn.region j).base) :
    Valid { rgn with region := Function.update rgn.region i y } := by
  refine ⟨hValid.cnt_le, hValid.sorted.update hPos hBelow hAbove, fun j hj => ?_⟩
  change (Function.update rgn.region i y j).stop < _
  by_cases hji : j = i
  · rw [hji, Function.update_self]
    exact hStop
  · rw [Function.update_of_ne hji]
    exact hValid.stop_lt j hj

def Added (rgn : Region) (x : Range) (r : Option (Int × Region)) : Prop :=
  ∃ ret rgn', r = some (ret, rgn') ∧
    ((ret < 0 ∧ rgn' = rgn) ∨
      (0 ≤ ret ∧ rgn'.cnt ≠ 0 ∧ Valid rgn' ∧ ∀ a, rgn'.Covers a ↔ rgn.Covers a ∨ a ∈ x))

theorem addRest_grown (hi : i < rgn.cnt) (hSorted : Sorted rgn.cnt rgn.region)
    (hGrown : Valid { rgn with region := Function.update rgn.region i y })
    (hy : ∀ a, a ∈ y ↔ a ∈ rgn.region i ∨ a ∈ x) (base size : Nat) :
    Added rgn x (addRest { rgn with region := Function.update rgn.region i y } base size i 1) := by
  have hMax : rgn.cnt ≤ 8 := hGrown.cnt_le
  have hCovers : ∀ a, Ranges.Covers rgn.cnt (Function.update rgn.region i y) a ↔
      rgn.Covers a ∨ a ∈ x := by
    intro a
    rw [covers_update hSorted hi, hy, Region.Covers]
    constructor
    · rintro ((hIn | hIn) | ⟨hIn, -⟩)
      · exact .inl ⟨i, hi, hIn⟩
      · exact .inr hIn
      · exact .inl hIn
    · rintro (hIn | hIn)
      · grind
      · exact .inl (.inr hIn)
  rw [addRest, sub64_of_le (by dsimp only; omega) (by dsimp only; omega)]
  split
  · rename_i hBoth
    obtain ⟨rgn', hCoalesce, hCnt', hValid', hSame⟩ := hGrown.coalesce
      (by have hLt := hBoth.1; dsimp only at hLt ⊢; omega) hBoth.2
    rw [hCoalesce]
    exact ⟨_, _, rfl, .inr ⟨by decide, hCnt', hValid', fun a => (hSame a).trans (hCovers a)⟩⟩
  · rw [if_pos (by decide)]
    exact ⟨_, _, rfl, .inr ⟨by decide, by dsimp only; omega, hGrown, hCovers⟩⟩

theorem addRest_above (hValid : Valid rgn) (hPos : 0 < x.size) (hOut : Outside rgn.cnt rgn.region x)
    (hi : i < rgn.cnt) (hBase : (rgn.region i).base = x.stop) :
    Added rgn x (addRest { rgn with
      region := Function.update rgn.region i
        ⟨sub64 (rgn.region i).base x.size, add64 (rgn.region i).size x.size⟩ } x.base x.size i 1) := by
  have hStopI := hValid.stop_lt i hi
  have hSizeI := hValid.sorted.pos i hi
  have hy : (⟨sub64 (rgn.region i).base x.size, add64 (rgn.region i).size x.size⟩ : Range) =
      ⟨x.base, (rgn.region i).size + x.size⟩ := by
    grind [Range.stop, sub64_of_le, add64_of_lt, Nat.add_sub_cancel]
  have hyStop : Range.stop ⟨x.base, (rgn.region i).size + x.size⟩ = (rgn.region i).stop := by
    grind [Range.stop]
  rw [hy]
  refine addRest_grown hi hValid.sorted (hValid.update (Nat.add_pos_right _ hPos) ?_
    (fun j hj => ?_) fun j hij hj => ?_) (fun a => ?_) _ _
  · rw [hyStop]
    exact hStopI
  · refine (hValid.sorted.side hOut hPos (hj.trans hi)).resolve_left fun hAfter => ?_
    have hLt := hValid.sorted.lt hj hi
    omega
  · rw [hyStop]
    exact hValid.sorted.apart i j hij hj
  · grind [mem_def, Range.stop]

theorem addRest_below (hValid : Valid rgn) (hPos : 0 < x.size) (hStop : x.stop < 2 ^ 64)
    (hOut : Outside rgn.cnt rgn.region x) (hi : i < rgn.cnt) (hBase : x.base = (rgn.region i).stop)
    :
    Added rgn x (addRest { rgn with
      region := Function.update rgn.region i
        ⟨(rgn.region i).base, add64 (rgn.region i).size x.size⟩ } x.base x.size i 1) := by
  have hSizeI := hValid.sorted.pos i hi
  have hy : add64 (rgn.region i).size x.size = (rgn.region i).size + x.size := by
    grind [Range.stop, add64_of_lt]
  have hyStop : Range.stop ⟨(rgn.region i).base, (rgn.region i).size + x.size⟩ = x.stop := by
    grind [Range.stop]
  rw [hy]
  refine addRest_grown hi hValid.sorted (hValid.update (Nat.add_pos_right _ hPos) ?_
    (fun j hj => ?_) fun j hij hj => ?_) (fun a => ?_) _ _
  · rw [hyStop]
    exact hStop
  · exact hValid.sorted.apart j i hj hi
  · rw [hyStop]
    refine (hValid.sorted.side hOut hPos hj).resolve_right fun hBefore => ?_
    have hApart := hValid.sorted.apart i j hij hj
    have hSizeJ := hValid.sorted.pos j hj
    rw [Range.stop] at hBefore
    omega
  · grind [mem_def, Range.stop]

include hValid hCnt

theorem lmbAddRegion_spec (hPos : 0 < x.size) (hStop : x.stop < 2 ^ 64)
    (hOut : Outside rgn.cnt rgn.region x) : Added rgn x (lmbAddRegion rgn x.base x.size) := by
  have hMax := hValid.cnt_le
  rw [maxLmbRegions] at hMax
  have hFresh : ¬(rgn.cnt = 1 ∧ (rgn.region 0).size = 0) := fun hBoth =>
    Nat.ne_of_gt (hValid.sorted.pos 0 (by omega)) hBoth.2
  rw [lmbAddRegion, if_neg hFresh]
  split
  · -- the region itself would not be outside
    rename_i hSome
    obtain ⟨i, hi, hAt⟩ := List.exists_of_findSome?_eq_some hSome
    rw [List.mem_range] at hi
    rcases addStop_some hStop hValid hi hAt with ⟨-, hSame⟩ | ⟨hNot, -⟩ | ⟨hNot, -⟩
    · have hBase : x.base ∈ x := ⟨le_refl _, Nat.lt_add_of_pos_right hPos⟩
      exact absurd ⟨i, hi, hSame ▸ hBase⟩ (hOut x.base hBase)
    · cases hNot
    · cases hNot
  · rename_i k hSome
    obtain ⟨i, hi, hAt⟩ := List.exists_of_findSome?_eq_some hSome
    rw [List.mem_range] at hi
    rcases addStop_some hStop hValid hi hAt with ⟨hNot, -⟩ | ⟨hEq, hBase⟩ | ⟨hNot, -⟩
    · cases hNot
    · grind [addRest_above]
    · cases hNot
  · rename_i k hSome
    obtain ⟨i, hi, hAt⟩ := List.exists_of_findSome?_eq_some hSome
    rw [List.mem_range] at hi
    rcases addStop_some hStop hValid hi hAt with ⟨hNot, -⟩ | ⟨hNot, -⟩ | ⟨hEq, hBase⟩
    · cases hNot
    · cases hNot
    · grind [addRest_below]
  · -- the regions are searched in vain
    rw [addRest, sub64_of_le (by omega) (by omega), if_neg (fun hBoth => by omega),
      if_neg (fun hNot => hNot rfl)]
    split
    · exact ⟨_, _, rfl, .inl ⟨by decide, rfl⟩⟩
    · obtain ⟨hValid', hCovers⟩ := hValid.insert hCnt (by omega) hPos hStop hOut
      exact ⟨_, _, rfl, .inr ⟨Int.le_refl 0, Nat.succ_ne_zero _, hValid', hCovers⟩⟩

end

end Fire3.LogicalMemory

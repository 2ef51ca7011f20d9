import Fire3.Lmb.AddRegion

/-!
Runs of `lmb_reserve` and `lmb_free`.

A table with regions covers what was reserved and not freed again. Two states are not of this kind:
the dummy of size zero that `lmb_init` leaves, and the table without regions after everything was
freed, into which the next reservation may not be entered.
-/

namespace Fire3.LogicalMemory
open Ranges Align

variable {x : Range} {rgn' : Region} {ret : Int}

theorem lmbIsReserved_iff {rgn : Region} (hValid : Valid rgn) (a : Nat) :
    lmbIsReserved rgn a = true ↔ rgn.Covers a := by
  rw [lmbIsReserved, List.any_eq_true, Region.Covers, Ranges.Covers]
  refine exists_congr fun i => ?_
  rw [List.mem_range, Bool.and_eq_true, decide_eq_true_eq, decide_eq_true_eq]
  refine and_congr_right fun hi => and_congr_right fun _ => ?_
  have hPos := hValid.sorted.pos i hi
  have hStop := hValid.stop_lt i hi
  rw [Range.stop] at hStop ⊢
  rw [add64_of_lt hStop, sub64_of_le (by omega) hStop]
  omega

section
variable {rgn : Region} (hValid : Valid rgn) {i : Nat} (hi : i < rgn.cnt)
include hValid hi

theorem Valid.shrink {y : Range} (hPos : 0 < y.size) (hBase : (rgn.region i).base ≤ y.base)
    (hStop : y.stop ≤ (rgn.region i).stop) :
    Valid { rgn with region := Function.update rgn.region i y } := by
  refine hValid.update hPos (hStop.trans_lt (hValid.stop_lt i hi)) (fun j hj => ?_) fun j hij hj => ?_
  · exact (hValid.sorted.apart j i hj hi).trans hBase
  · exact hStop.trans (hValid.sorted.apart i j hij hj)

theorem covers_shrunk {y : Range} (hSub : ∀ a ∈ x, a ∈ rgn.region i)
    (hy : ∀ a, a ∈ y ↔ a ∈ rgn.region i ∧ a ∉ x) (a : Nat) :
    Ranges.Covers rgn.cnt (Function.update rgn.region i y) a ↔ rgn.Covers a ∧ a ∉ x := by
  rw [covers_update hValid.sorted hi, hy, Region.Covers]
  constructor
  · rintro (⟨hIn, hOut⟩ | ⟨hCovers, hNot⟩)
    · exact ⟨⟨i, hi, hIn⟩, hOut⟩
    · exact ⟨hCovers, fun hIn => hNot (hSub a hIn)⟩
  · rintro ⟨hCovers, hOut⟩
    by_cases hIn : a ∈ rgn.region i
    · exact .inl ⟨hIn, hOut⟩
    · exact .inr ⟨hCovers, hIn⟩

theorem split_spec (hLow : (rgn.region i).base < x.base) (hHigh : x.stop < (rgn.region i).stop)
    (hAdd : lmbAddRegion { rgn with
      region := Function.update rgn.region i
        ⟨(rgn.region i).base, x.base - (rgn.region i).base⟩ } x.stop
          ((rgn.region i).stop - x.stop) = some (ret, rgn')) (hRet : 0 ≤ ret) :
    Valid rgn' ∧ ∀ a, rgn'.Covers a ↔ rgn.Covers a ∧ a ∉ x := by
  have hStopI := hValid.stop_lt i hi
  have hxStop : x.stop = x.base + x.size := rfl
  have hiStop : (rgn.region i).stop = (rgn.region i).base + (rgn.region i).size := rfl
  generalize hy : (⟨(rgn.region i).base, x.base - (rgn.region i).base⟩ : Range) = y at hAdd
  generalize hz : (⟨x.stop, (rgn.region i).stop - x.stop⟩ : Range) = z
  have hyStop : y.stop = x.base := by
    rw [← hy, Range.stop]
    dsimp only
    omega
  have hzStop : z.stop = (rgn.region i).stop := by
    rw [← hz, Range.stop]
    dsimp only
    omega
  have hy' : ∀ a, a ∈ y ↔ (rgn.region i).base ≤ a ∧ a < x.base := by
    intro a
    rw [mem_def, ← Range.stop, hyStop, ← hy]
  have hz' : ∀ a, a ∈ z ↔ x.stop ≤ a ∧ a < (rgn.region i).stop := by
    intro a
    rw [mem_def, ← Range.stop, hzStop, ← hz]
  have hShrunk : Valid { rgn with region := Function.update rgn.region i y } :=
    hValid.shrink hi (by rw [← hy]; dsimp only; omega) (by rw [← hy]) (by omega)
  have hOut : Outside rgn.cnt (Function.update rgn.region i y) z := by
    intro a ha hCovers
    rw [hz'] at ha
    rw [covers_update hValid.sorted hi, hy'] at hCovers
    rcases hCovers with hIn | ⟨-, hNot⟩
    · omega
    · exact hNot (mem_def.mpr (by omega))
  have hAdded := lmbAddRegion_spec hShrunk (Nat.ne_zero_of_lt hi) (x := z)
    (by rw [← hz]; dsimp only; omega) (by omega) hOut
  rw [← hz] at hAdded
  obtain ⟨ret', rgn₁, hSome, hCase⟩ := hAdded
  rw [hAdd, Option.some.injEq, Prod.mk.injEq] at hSome
  obtain ⟨rfl, rfl⟩ := hSome
  rcases hCase with ⟨hNeg, -⟩ | ⟨-, -, hValid', hCovers⟩
  · omega
  · refine ⟨hValid', fun a => ?_⟩
    rw [hCovers, hz, hz', Region.Covers, covers_update hValid.sorted hi, hy', Region.Covers]
    rw [mem_def, mem_def, ← Range.stop, ← Range.stop]
    constructor
    · rintro ((hIn | ⟨hIn, hNot⟩) | hIn)
      · exact ⟨⟨i, hi, mem_def.mpr (by omega)⟩, by omega⟩
      · exact ⟨hIn, by omega⟩
      · exact ⟨⟨i, hi, mem_def.mpr (by omega)⟩, by omega⟩
    · rintro ⟨hIn, hNot⟩
      by_cases hHere : (rgn.region i).base ≤ a ∧ a < (rgn.region i).stop
      · by_cases hLeft : a < x.base
        · exact .inl (.inl ⟨hHere.1, hLeft⟩)
        · exact .inr ⟨by omega, hHere.2⟩
      · exact .inl (.inr ⟨hIn, hHere⟩)

end

theorem lmbFree_spec {rgn : Region} (hValid : Valid rgn) (hStop : x.stop < 2 ^ 64)
    (hFree : lmbFree rgn x.base x.size = some (ret, rgn')) (hRet : 0 ≤ ret) :
    Valid rgn' ∧ ∀ a, rgn'.Covers a ↔ rgn.Covers a ∧ a ∉ x := by
  rw [lmbFree] at hFree
  dsimp only at hFree
  split at hFree
  · rw [Option.some.injEq, Prod.mk.injEq] at hFree
    exact absurd (hFree.1 ▸ hRet) (by decide)
  · rename_i i hFind
    have hi : i < rgn.cnt := List.mem_range.mp (List.mem_of_find?_eq_some hFind)
    have hStopI := hValid.stop_lt i hi
    have hxStop : x.stop = x.base + x.size := rfl
    have hiStop : (rgn.region i).stop = (rgn.region i).base + (rgn.region i).size := rfl
    have hIn := List.find?_some hFind
    rw [Bool.and_eq_true, decide_eq_true_eq, decide_eq_true_eq, add64_of_lt hStop,
      add64_of_lt hStopI, ← hxStop, ← hiStop] at hIn
    rw [add64_of_lt hStop, add64_of_lt hStopI, ← hxStop, ← hiStop] at hFree
    have hSub : ∀ a ∈ x, a ∈ rgn.region i := by
      intro a ha
      exact ⟨hIn.1.trans ha.1, ha.2.trans_le hIn.2⟩
    split at hFree
    · -- the whole region
      rename_i hWhole
      obtain ⟨rgn₁, hRemove, hValid₁, hCovers⟩ := hValid.remove hi
      rw [hRemove, Option.map_some, Option.some.injEq, Prod.mk.injEq] at hFree
      obtain ⟨-, rfl⟩ := hFree
      refine ⟨hValid₁, fun a => ?_⟩
      rw [hCovers]
      refine and_congr_right fun _ => not_congr ?_
      rw [mem_def, mem_def]
      omega
    · split at hFree
      · -- its front
        rw [sub64_of_le (by omega) (by omega), Option.some.injEq, Prod.mk.injEq] at hFree
        obtain ⟨-, rfl⟩ := hFree
        refine ⟨hValid.shrink hi ?_ ?_ ?_, covers_shrunk hValid hi hSub fun a => ?_⟩
        · dsimp only
          omega
        · exact hIn.1.trans (Nat.le_add_right ..)
        · rw [Range.stop]
          dsimp only
          omega
        · rw [mem_def, mem_def, mem_def]
          dsimp only
          omega
      · split at hFree
        · -- its end
          rw [sub64_of_le (by omega) (by omega), Option.some.injEq, Prod.mk.injEq] at hFree
          obtain ⟨-, rfl⟩ := hFree
          refine ⟨hValid.shrink hi ?_ (le_refl _) ?_, covers_shrunk hValid hi hSub fun a => ?_⟩
          · dsimp only
            omega
          · rw [Range.stop]
            dsimp only
            omega
          · rw [mem_def, mem_def, mem_def]
            dsimp only
            omega
        · rw [sub64_of_le hIn.1 (by omega), sub64_of_le hIn.2 hStopI] at hFree
          exact split_spec hValid hi (by omega) (by omega) hFree hRet

inductive Call
  | reserve (x : Range)
  | free (x : Range)

def Held (calls : List Call) (a : Nat) : Prop :=
  ∃ before x after, calls = before ++ .reserve x :: after ∧ a ∈ x ∧ ∀ y, .free y ∈ after → a ∉ y

/-- Calls after `lmb_init` that all report success: reservations of ranges that are not held, and
frees of ranges that are. Each call meets `ok` after the calls before it. -/
inductive Run (ok : List Call → Call → Prop) : List Call → Region → Prop
  | init (region : Nat → Property) : Run ok [] (lmbInit region)
  | reserve {calls : List Call} {rgn rgn' : Region} {x : Range} {ret : Int} :
      Run ok calls rgn → ok calls (.reserve x) → (∀ a ∈ x, ¬Held calls a) →
      lmbReserve rgn x.base x.size = some (ret, rgn') → 0 ≤ ret →
      Run ok (calls ++ [.reserve x]) rgn'
  | free {calls : List Call} {rgn rgn' : Region} {x : Range} {ret : Int} :
      Run ok calls rgn → ok calls (.free x) → (∀ a ∈ x, Held calls a) →
      lmbFree rgn x.base x.size = some (ret, rgn') → 0 ≤ ret →
      Run ok (calls ++ [.free x]) rgn'

/-- Ranges end below the end of the address space. What is reserved is not empty, and no
reservation follows after everything was freed. -/
def Careful (calls : List Call) : Call → Prop
  | .reserve x => 0 < x.size ∧ x.stop < 2 ^ 64 ∧ (calls = [] ∨ ∃ a, Held calls a)
  | .free x => x.stop < 2 ^ 64

section
variable {calls : List Call} {a : Nat}

theorem not_held_nil : ¬Held [] a := by
  rintro ⟨before, x, after, hCalls, -⟩
  exact absurd hCalls (by simp)

theorem held_append (c : Call) : Held (calls ++ [c]) a ↔
    (∃ x, c = .reserve x ∧ a ∈ x) ∨ Held calls a ∧ ∀ x, c = .free x → a ∉ x := by
  constructor
  · rintro ⟨before, y, after, hCalls, hIn, hAfter⟩
    rcases List.eq_nil_or_concat after with rfl | ⟨after, last, rfl⟩
    · exact .inl ⟨y, by simpa using (List.append_inj' hCalls rfl).2, hIn⟩
    · rw [List.concat_eq_append] at hAfter hCalls
      rw [← List.cons_append, ← List.append_assoc] at hCalls
      obtain ⟨hInit, hLast⟩ := List.append_inj' hCalls rfl
      refine .inr ⟨⟨before, y, after, hInit, hIn, fun z hz => hAfter z (by simp [hz])⟩, ?_⟩
      rintro x rfl
      exact hAfter x (List.mem_append_right _ (hLast ▸ List.mem_cons_self))
  · rintro (⟨x, rfl, hIn⟩ | ⟨⟨before, y, after, rfl, hIn, hAfter⟩, hNot⟩)
    · exact ⟨calls, x, [], rfl, hIn, by simp⟩
    · refine ⟨before, y, after ++ [c], by simp, hIn, fun z hz => ?_⟩
      rcases List.mem_append.mp hz with hOld | hNew
      · exact hAfter z hOld
      · exact hNot z (List.mem_singleton.mp hNew).symm

theorem held_reserve (x : Range) : Held (calls ++ [.reserve x]) a ↔ Held calls a ∨ a ∈ x := by
  simp [held_append, or_comm]

theorem held_free (x : Range) : Held (calls ++ [.free x]) a ↔ Held calls a ∧ a ∉ x := by
  simp [held_append]

end

section
variable {calls : List Call} {rgn : Region}

theorem lmbInit_region (region : Nat → Property) : (lmbInit region).region 0 = ⟨0, 0⟩ := by
  simp [lmbInit]

theorem reserve_first {region : Nat → Property} (hPos : 0 < x.size) (hStop : x.stop < 2 ^ 64)
    (hReserve : lmbReserve (lmbInit region) x.base x.size = some (ret, rgn')) :
    Valid rgn' ∧ ∀ a, rgn'.Covers a ↔ a ∈ x := by
  rw [lmbReserve, lmbAddRegion, if_pos ⟨rfl, by rw [lmbInit_region]⟩,
    Option.some.injEq, Prod.mk.injEq] at hReserve
  obtain ⟨-, rfl⟩ := hReserve
  have hFirst : ∀ i < 1, Function.update (lmbInit region).region 0 ⟨x.base, x.size⟩ i = x := by
    intro i hi
    obtain rfl : i = 0 := by omega
    rw [Function.update_self]
  refine ⟨⟨(by decide : 1 ≤ 8), ⟨fun i hi => ?_, fun i j hij hj => ?_⟩, fun i hi => ?_⟩, fun a => ?_⟩
  · exact (congrArg Range.size (hFirst i hi)).symm ▸ hPos
  · change j < 1 at hj
    omega
  · exact (congrArg Range.stop (hFirst i hi)).symm ▸ hStop
  · constructor
    · rintro ⟨i, hi, hIn⟩
      exact hFirst i hi ▸ hIn
    · intro hIn
      exact ⟨0, Nat.one_pos, (hFirst 0 Nat.one_pos).symm ▸ hIn⟩

theorem free_first {region : Nat → Property} (hStop : x.stop < 2 ^ 64)
    (hFree : lmbFree (lmbInit region) x.base x.size = some (ret, rgn')) (hRet : 0 ≤ ret) :
    Valid rgn' ∧ ∀ a, ¬rgn'.Covers a := by
  rw [lmbFree] at hFree
  dsimp only at hFree
  split at hFree
  · rw [Option.some.injEq, Prod.mk.injEq] at hFree
    exact absurd (hFree.1 ▸ hRet) (by decide)
  · rename_i i hFind
    obtain rfl : i = 0 :=
      Nat.lt_one_iff.mp (List.mem_range.mp (List.mem_of_find?_eq_some hFind))
    have hIn := List.find?_some hFind
    rw [lmbInit_region, Bool.and_eq_true, decide_eq_true_eq, decide_eq_true_eq,
      add64_of_lt hStop] at hIn
    have hZero : x.base = 0 ∧ x.size = 0 := by
      have hLe : x.base + x.size ≤ 0 := hIn.2
      omega
    rw [lmbInit_region, hZero.1, hZero.2, if_pos ⟨rfl, rfl⟩, lmbRemoveRegion,
      if_neg (by change ¬1 = 0; decide), Option.map_some, Option.some.injEq, Prod.mk.injEq] at hFree
    obtain ⟨-, rfl⟩ := hFree
    refine ⟨⟨(by decide : 0 ≤ 8), ⟨fun i hi => ?_, fun i j _ hj => ?_⟩, fun i hi => ?_⟩, ?_⟩
    · exact absurd hi (Nat.not_lt_zero i)
    · exact absurd hj (Nat.not_lt_zero j)
    · exact absurd hi (Nat.not_lt_zero i)
    · rintro a ⟨i, hi, -⟩
      exact absurd hi (Nat.not_lt_zero i)

theorem run_invariant (hRun : Run Careful calls rgn) :
    (calls = [] ∧ ∃ region, rgn = lmbInit region) ∨
      (calls ≠ [] ∧ Valid rgn ∧ ∀ a, rgn.Covers a ↔ Held calls a) := by
  induction hRun with
  | init region => exact .inl ⟨rfl, region, rfl⟩
  | @reserve calls rgn rgn' x ret _ hOk hOut hReserve hRet ih =>
      refine .inr ⟨by simp, ?_⟩
      rcases ih with ⟨rfl, region, rfl⟩ | ⟨hSome, hValid, hCovers⟩
      · obtain ⟨hValid', hCovers'⟩ := reserve_first hOk.1 hOk.2.1 hReserve
        refine ⟨hValid', fun a => ?_⟩
        rw [hCovers', held_reserve]
        exact (or_iff_right not_held_nil).symm
      · obtain ⟨b, i, hi, -⟩ : ∃ b, rgn.Covers b :=
          (hOk.2.2.resolve_left hSome).imp fun b => (hCovers b).mpr
        have hOut' : Outside rgn.cnt rgn.region x := fun a ha hIn => hOut a ha ((hCovers a).mp hIn)
        obtain ⟨ret', rgn₁, hAdd, hCase⟩ := lmbAddRegion_spec hValid (Nat.ne_zero_of_lt hi) hOk.1
          hOk.2.1 hOut'
        rw [lmbReserve, hAdd, Option.some.injEq, Prod.mk.injEq] at hReserve
        obtain ⟨rfl, rfl⟩ := hReserve
        rcases hCase with ⟨hNeg, -⟩ | ⟨-, -, hValid', hCovers'⟩
        · omega
        · refine ⟨hValid', fun a => ?_⟩
          rw [hCovers', hCovers, held_reserve]
  | @free calls rgn rgn' x ret _ hOk hIn hFree hRet ih =>
      refine .inr ⟨by simp, ?_⟩
      rcases ih with ⟨rfl, region, rfl⟩ | ⟨hSome, hValid, hCovers⟩
      · obtain ⟨hValid', hNone⟩ := free_first hOk hFree hRet
        refine ⟨hValid', fun a => ?_⟩
        rw [held_free]
        exact iff_of_false (hNone a) fun hHeld => not_held_nil hHeld.1
      · obtain ⟨hValid', hCovers'⟩ := lmbFree_spec hValid hOk hFree hRet
        refine ⟨hValid', fun a => ?_⟩
        rw [hCovers', hCovers, held_free]

/-- In a careful run, after the first call, exactly the addresses that are held are reserved. -/
theorem lmb_reserved_iff_held (run : Run Careful calls rgn) (called : calls ≠ []) (a : Nat) :
    lmbIsReserved rgn a = true ↔ Held calls a := by
  rcases run_invariant run with ⟨hNone, -⟩ | ⟨-, hValid, hCovers⟩
  · exact absurd hNone called
  · rw [lmbIsReserved_iff hValid, hCovers]

def afterCall (rgn : Region) : Call → Region
  | .reserve x => ((lmbReserve rgn x.base x.size).getD (0, rgn)).2
  | .free x => ((lmbFree rgn x.base x.size).getD (0, rgn)).2

theorem Run.reserve_next {ok : List Call → Call → Prop} (hRun : Run ok calls rgn)
    (hOk : ok calls (.reserve x)) (hOut : ∀ a ∈ x, ¬Held calls a)
    (hSome : (lmbReserve rgn x.base x.size).any (fun r => 0 ≤ r.1) = true) :
    Run ok (calls ++ [.reserve x]) (afterCall rgn (.reserve x)) := by
  rw [Option.any_eq_true] at hSome
  obtain ⟨r, hReserve, hRet⟩ := hSome
  rw [afterCall, hReserve]
  exact .reserve hRun hOk hOut hReserve (of_decide_eq_true hRet)

theorem Run.free_next {ok : List Call → Call → Prop} (hRun : Run ok calls rgn)
    (hOk : ok calls (.free x)) (hIn : ∀ a ∈ x, Held calls a)
    (hSome : (lmbFree rgn x.base x.size).any (fun r => 0 ≤ r.1) = true) :
    Run ok (calls ++ [.free x]) (afterCall rgn (.free x)) := by
  rw [Option.any_eq_true] at hSome
  obtain ⟨r, hFree, hRet⟩ := hSome
  rw [afterCall, hFree]
  exact .free hRun hOk hIn hFree (of_decide_eq_true hRet)

theorem held_single (x : Range) (a : Nat) : Held [.reserve x] a ↔ a ∈ x :=
  (@held_reserve [] _ x).trans (or_iff_right not_held_nil)

/-- Two ranges are joined, and a part of them is freed. -/
theorem lmb_reserved_iff_held_split :
    ∃ rgn, Run Careful [.reserve ⟨0x1000, 0x1000⟩, .reserve ⟨0x2000, 0x1000⟩,
        .free ⟨0x1800, 0x1000⟩] rgn ∧ lmbIsReserved rgn 0x2800 = true ∧
      lmbIsReserved rgn 0x2000 = false := by
  have hFirst : Run Careful [.reserve ⟨0x1000, 0x1000⟩] _ :=
    .reserve_next (.init fun _ => ⟨0, 0⟩) ⟨by decide, by decide, .inl rfl⟩
      (fun a _ hHeld => not_held_nil hHeld) (by decide +kernel)
  have hSecond : Run Careful [.reserve ⟨0x1000, 0x1000⟩, .reserve ⟨0x2000, 0x1000⟩] _ :=
    .reserve_next hFirst ⟨by decide, by decide, .inr ⟨0x1000, (held_single _ _).mpr (by decide)⟩⟩
      (fun a ha hOld => by
        rw [held_single, mem_def] at hOld
        rw [mem_def] at ha
        dsimp only at hOld ha
        omega) (by decide +kernel)
  have hHeld : ∀ a, Held [.reserve ⟨0x1000, 0x1000⟩, .reserve ⟨0x2000, 0x1000⟩] a ↔
      a ∈ (⟨0x1000, 0x1000⟩ : Range) ∨ a ∈ (⟨0x2000, 0x1000⟩ : Range) := by
    intro a
    rw [← held_single]
    exact @held_reserve [.reserve ⟨0x1000, 0x1000⟩] _ _
  have hRun : Run Careful [.reserve ⟨0x1000, 0x1000⟩, .reserve ⟨0x2000, 0x1000⟩,
      .free ⟨0x1800, 0x1000⟩] _ :=
    .free_next hSecond (by change 0x2800 < 2 ^ 64; decide)
      (fun a ha => by
        rw [hHeld, mem_def, mem_def]
        rw [mem_def] at ha
        dsimp only at ha ⊢
        omega) (by decide +kernel)
  have hHeld' : ∀ a, Held [.reserve ⟨0x1000, 0x1000⟩, .reserve ⟨0x2000, 0x1000⟩,
      .free ⟨0x1800, 0x1000⟩] a ↔
      (a ∈ (⟨0x1000, 0x1000⟩ : Range) ∨ a ∈ (⟨0x2000, 0x1000⟩ : Range)) ∧
        a ∉ (⟨0x1800, 0x1000⟩ : Range) := by
    intro a
    rw [← hHeld]
    exact @held_free [.reserve ⟨0x1000, 0x1000⟩, .reserve ⟨0x2000, 0x1000⟩] _ _
  refine ⟨_, hRun, (lmb_reserved_iff_held hRun (by simp) _).mpr ((hHeld' _).mpr (by decide)), ?_⟩
  rw [Bool.eq_false_iff, ne_eq, lmb_reserved_iff_held hRun (by simp), hHeld']
  decide

/-- After `lmb_init` every address is reserved; and a reservation after everything was freed is
forgotten, while what was freed counts as reserved again. -/
theorem lmb_reservation_forgotten :
    (Run (fun _ _ => True) [] (lmbInit fun _ => ⟨0, 0⟩) ∧
      lmbIsReserved (lmbInit fun _ => ⟨0, 0⟩) 0x1000 = true ∧ ¬Held [] 0x1000) ∧
    ∃ rgn, Run (fun _ _ => True) [.reserve ⟨0x1000, 0x1000⟩, .free ⟨0x1000, 0x1000⟩,
        .reserve ⟨0x2000, 0x1000⟩] rgn ∧
      Held [.reserve ⟨0x1000, 0x1000⟩, .free ⟨0x1000, 0x1000⟩, .reserve ⟨0x2000, 0x1000⟩] 0x2000 ∧
      lmbIsReserved rgn 0x2000 = false ∧ lmbIsReserved rgn 0x1000 = true := by
  refine ⟨⟨.init _, by decide +kernel, not_held_nil⟩, ?_⟩
  have hFirst : Run (fun _ _ => True) [.reserve ⟨0x1000, 0x1000⟩] _ :=
    .reserve_next (.init fun _ => ⟨0, 0⟩) trivial (fun a _ hHeld => not_held_nil hHeld)
      (by decide +kernel)
  have hSecond : Run (fun _ _ => True) [.reserve ⟨0x1000, 0x1000⟩, .free ⟨0x1000, 0x1000⟩] _ :=
    .free_next hFirst trivial (fun a ha => (held_single _ a).mpr ha) (by decide +kernel)
  have hNone : ∀ a, ¬Held [.reserve ⟨0x1000, 0x1000⟩, .free ⟨0x1000, 0x1000⟩] a := by
    intro a hOld
    have hBoth := (@held_free [.reserve ⟨0x1000, 0x1000⟩] _ _).mp hOld
    exact hBoth.2 ((held_single _ a).mp hBoth.1)
  have hRun : Run (fun _ _ => True) [.reserve ⟨0x1000, 0x1000⟩, .free ⟨0x1000, 0x1000⟩,
      .reserve ⟨0x2000, 0x1000⟩] _ :=
    .reserve_next hSecond trivial (fun a _ => hNone a) (by decide +kernel)
  refine ⟨_, hRun, ?_, by decide +kernel, by decide +kernel⟩
  exact (@held_reserve [.reserve ⟨0x1000, 0x1000⟩, .free ⟨0x1000, 0x1000⟩] _ _).mpr
    (.inr (by decide))

end

end Fire3.LogicalMemory

import Fire3.Base.Align
import Fire3.Base.Ranges

/-!
The logical memory blocks of `lib/lmb.c`: tables of regions, and the reserved memory.

Addresses are words of 64 bits. An entry that was removed stays in the array behind the count, and
a table whose last region was freed has the count zero: the code then compares with the greatest
word, and reads entries that are no longer there.
-/

namespace Fire3.LogicalMemory
open Ranges Align

abbrev Property := Range

structure Region where
  cnt : Nat
  region : Nat → Property

def maxLmbRegions : Nat := 8

def lmbAddrsOverlap (base1 size1 base2 size2 : Nat) : Bool :=
  base1 < add64 base2 size2 && base2 < add64 base1 size1

def lmbAddrsAdjacent (base1 size1 base2 size2 : Nat) : Int :=
  if base2 = add64 base1 size1 then 1 else if base1 = add64 base2 size2 then -1 else 0

def lmbRegionsAdjacent (rgn : Region) (r1 r2 : Nat) : Int :=
  lmbAddrsAdjacent (rgn.region r1).base (rgn.region r1).size (rgn.region r2).base
    (rgn.region r2).size

/-- `lmb_remove_region`; in a table without regions the loop has no bound within the array, and
runs off its end. -/
def lmbRemoveRegion (rgn : Region) (r : Nat) : Option Region :=
  if rgn.cnt = 0 then none
  else
    some {
      cnt := rgn.cnt - 1
      region := (List.range' r (rgn.cnt - 1 - r)).foldl
        (fun region i => Function.update region i (region (i + 1))) rgn.region }

def lmbCoalesceRegions (rgn : Region) (r1 r2 : Nat) : Option Region :=
  lmbRemoveRegion
    { rgn with
      region := Function.update rgn.region r1
        ⟨(rgn.region r1).base, add64 (rgn.region r1).size (rgn.region r2).size⟩ } r2

def lmbInit (region : Nat → Property) : Region :=
  { cnt := 1, region := Function.update region 0 ⟨0, 0⟩ }

inductive Stop
  | same
  | above (i : Nat)
  | below (i : Nat)

def addStop (rgn : Region) (base size i : Nat) : Option Stop :=
  let rgnbase := (rgn.region i).base
  let rgnsize := (rgn.region i).size
  if rgnbase = base ∧ rgnsize = size then some .same
  else if lmbAddrsAdjacent base size rgnbase rgnsize > 0 then some (.above i)
  else if lmbAddrsAdjacent base size rgnbase rgnsize < 0 then some (.below i)
  else none

def insertLoop (base size : Nat) : Nat → (Nat → Property) → Nat → Property
  | 0, region => region
  | i + 1, region =>
      if base < (region i).base then
        insertLoop base size i (Function.update region (i + 1) (region i))
      else Function.update region (i + 1) ⟨base, size⟩

/-- The end of `lmb_add_region`, from the search for a second adjacent region on. -/
def addRest (rgn : Region) (base size i : Nat) (coalesced : Int) : Option (Int × Region) :=
  -- the comparison is one of unsigned words
  if i < sub64 rgn.cnt 1 ∧ lmbRegionsAdjacent rgn i (i + 1) ≠ 0 then
    (lmbCoalesceRegions rgn i (i + 1)).map fun rgn => (coalesced + 1, rgn)
  else if coalesced ≠ 0 then some (coalesced, rgn)
  else if rgn.cnt ≥ maxLmbRegions then some (-1, rgn)
  else
    let region := insertLoop base size rgn.cnt rgn.region
    let region := if base < (region 0).base then Function.update region 0 ⟨base, size⟩ else region
    some (0, { cnt := rgn.cnt + 1, region := region })

def lmbAddRegion (rgn : Region) (base size : Nat) : Option (Int × Region) :=
  if rgn.cnt = 1 ∧ (rgn.region 0).size = 0 then
    some (0, { rgn with region := Function.update rgn.region 0 ⟨base, size⟩ })
  else
    match (List.range rgn.cnt).findSome? (addStop rgn base size) with
    | some .same => some (0, rgn)
    | some (.above i) =>
        addRest { rgn with
          region := Function.update rgn.region i
            ⟨sub64 (rgn.region i).base size, add64 (rgn.region i).size size⟩ } base size i 1
    | some (.below i) =>
        addRest { rgn with
          region := Function.update rgn.region i
            ⟨(rgn.region i).base, add64 (rgn.region i).size size⟩ } base size i 1
    | none => addRest rgn base size rgn.cnt 0

def lmbReserve (rgn : Region) (base size : Nat) : Option (Int × Region) := lmbAddRegion rgn base size

def lmbFree (rgn : Region) (base size : Nat) : Option (Int × Region) :=
  let stop := add64 base size
  match (List.range rgn.cnt).find? fun i =>
      (rgn.region i).base ≤ base && stop ≤ add64 (rgn.region i).base (rgn.region i).size with
  | none => some (-1, rgn)
  | some i =>
      let rgnbegin := (rgn.region i).base
      let rgnend := add64 rgnbegin (rgn.region i).size
      if rgnbegin = base ∧ rgnend = stop then (lmbRemoveRegion rgn i).map fun rgn => (0, rgn)
      else if rgnbegin = base then
        some (0, { rgn with
          region := Function.update rgn.region i ⟨stop, sub64 (rgn.region i).size size⟩ })
      else if rgnend = stop then
        some (0, { rgn with
          region := Function.update rgn.region i ⟨rgnbegin, sub64 (rgn.region i).size size⟩ })
      else
        lmbAddRegion { rgn with
          region := Function.update rgn.region i ⟨rgnbegin, sub64 base rgnbegin⟩ } stop
            (sub64 rgnend stop)

def lmbIsReserved (rgn : Region) (addr : Nat) : Bool :=
  (List.range rgn.cnt).any fun i =>
    (rgn.region i).base ≤ addr &&
      addr ≤ sub64 (add64 (rgn.region i).base (rgn.region i).size) 1

def lmbOverlapsRegion (rgn : Region) (base size : Nat) : Option Nat :=
  (List.range rgn.cnt).find? fun i =>
    lmbAddrsOverlap base size (rgn.region i).base (rgn.region i).size

def lmbAlignDown (addr size : Nat) : Nat := Align.alignDown addr size

def lmbAlignUp (addr size : Nat) : Nat := Align.align addr size

structure Lmb where
  memory : Region
  reserved : Region

/-- The search within one region of the memory: a base that is free, or none. The outer `none` is a
loop that has not ended. -/
def allocLoop (reserved : Region) (lmbbase size align : Nat) : Nat → Nat → Option (Option Nat)
  | 0, _ => none
  | fuel + 1, base =>
      if base ≠ 0 ∧ lmbbase ≤ base then
        match lmbOverlapsRegion reserved base size with
        | none => some (some base)
        | some j =>
            let resBase := (reserved.region j).base
            if resBase < size then some none
            else allocLoop reserved lmbbase size align fuel (lmbAlignDown (sub64 resBase size) align)
      else some none

def allocStart (m : Property) (size align maxAddr : Nat) : Option Nat :=
  if m.size < size then none
  else if maxAddr = 0 then some (lmbAlignDown (sub64 (add64 m.base m.size) size) align)
  else if m.base < maxAddr then
    let base := add64 m.base m.size
    let base := if base < m.base then 2 ^ 64 - 1 else base
    some (lmbAlignDown (sub64 (min base maxAddr) size) align)
  else none

def allocRegions (fuel : Nat) (lmb : Lmb) (size align maxAddr : Nat) : Nat → Option (Nat × Lmb)
  | 0 => some (0, lmb)
  | i + 1 =>
      match allocStart (lmb.memory.region i) size align maxAddr with
      | none => allocRegions fuel lmb size align maxAddr i
      | some base =>
          match allocLoop lmb.reserved (lmb.memory.region i).base size align fuel base with
          | none => none
          | some none => allocRegions fuel lmb size align maxAddr i
          | some (some base) =>
              match lmbAddRegion lmb.reserved base (lmbAlignUp size align) with
              | none => none
              | some (ret, reserved) =>
                  if ret < 0 then some (0, { lmb with reserved })
                  else some (base, { lmb with reserved })

def lmbAllocBase (fuel : Nat) (lmb : Lmb) (size align maxAddr : Nat) : Option (Nat × Lmb) :=
  allocRegions fuel lmb size align maxAddr lmb.memory.cnt

end Fire3.LogicalMemory

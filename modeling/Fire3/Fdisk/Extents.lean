import Fire3.Fdisk.PartTables

/-!
The partitions that `fdisk` records, against each other and against the card. The
tests of the writer order the primary partitions and the first logical one, as long
as their ends fit 32 bits; everything else they leave open.
-/

namespace Fire3.Fdisk
open Align

variable {lba last last' : Nat} {ps parts : List Part} {pt : List DosPartition}

structure Extent where
  start : Nat
  length : Nat
  deriving DecidableEq, Repr

def Extent.Covers (r : Extent) (x : Nat) : Prop := r.start ≤ x ∧ x < r.start + r.length

def Extent.Disjoint (r r' : Extent) : Prop := ∀ x, r.Covers x → ¬r'.Covers x

/-- No partition overlaps another or the end of the card. -/
def Sound (lba : Nat) (rs : List Extent) : Prop :=
  (∀ r ∈ rs, r.start + r.length ≤ lba) ∧ rs.Pairwise Extent.Disjoint

/-- The blocks that a primary partition asks for; a length of 0 takes the rest of the card. -/
def primaryRange (lba : Nat) (p : Part) : Extent :=
  ⟨p.lba, if p.length = 0 then lba - p.lba else p.length / 512⟩

/-- The blocks that a logical partition asks for; here a length below one block takes the rest. -/
def logicalRange (lba : Nat) (p : Part) : Extent :=
  ⟨p.lba, if p.length / 512 = 0 then lba - p.lba else p.length / 512⟩

def asked (lba : Nat) (parts : List Part) : List Extent :=
  (parts.take (mbrTables parts.length)).map (primaryRange lba) ++
    (parts.drop (mbrTables parts.length)).map (logicalRange lba)

/-- A primary partition that takes the rest of the card starts at the end of the one before. -/
def Follows (lba : Nat) : Nat → List Part → Prop
  | _, [] => True
  | last, p :: ps =>
      (p.length = 0 → p.lba = last) ∧ Follows lba (p.lba + (primaryRange lba p).length) ps

/-- The card and the starts have block numbers of 32 bits. -/
structure InRange (lba : Nat) (parts : List Part) : Prop where
  card : lba < 2 ^ 32
  starts : ∀ p ∈ parts, p.lba < 2 ^ 32

/-- What the tests of the writer leave open: the end of the card, and every logical partition but
the first. -/
structure Fits (lba : Nat) (parts : List Part) : Prop where
  ends : ∀ p ∈ parts, p.lba + p.length / 512 ≤ lba
  follows : Follows lba ((parts.map Part.lba).headD 0) (parts.take (mbrTables parts.length))
  apart : ∀ i j (_ : i < j) (_ : j < (asked lba parts).length), 4 ≤ j →
    Extent.Disjoint (asked lba parts)[i] (asked lba parts)[j]

/-- The primary partitions as the writer counts them: a length of 0 takes what is left behind
`last`. -/
def primaries (lba : Nat) : Nat → List Part → List Extent
  | _, [] => []
  | last, p :: ps =>
      ⟨p.lba, primaryLength lba last p⟩ :: primaries lba ((p.lba + primaryLength lba last p) % 2 ^ 64) ps

def counted (lba : Nat) (parts : List Part) : List Extent :=
  primaries lba (ofInt ((parts.map Part.lba).headD 0)) (parts.take (mbrTables parts.length))

def Extent.cut (r : Extent) : Extent := ⟨r.start % 2 ^ 32, r.length % 2 ^ 32⟩

/-- A logical partition loses bits of its length only. -/
def cutLogical (lba : Nat) (p : Part) : Extent :=
  ⟨p.lba, ebrLength lba (p.lba - ebrBlock) p % 2 ^ 32⟩

def cut (lba : Nat) (parts : List Part) : List Extent :=
  (counted lba parts).map Extent.cut ++
    (parts.drop (mbrTables parts.length)).map (cutLogical lba)

/-- What the tests leave open with larger numbers: the end of the card, every logical partition but
the first and, once a primary partition loses bits, all pairs. -/
structure Survives (lba : Nat) (parts : List Part) : Prop where
  ends : ∀ r ∈ cut lba parts, r.start + r.length ≤ lba
  apart : ∀ i j (_ : i < j) (_ : j < (cut lba parts).length),
    4 ≤ j ∨ (∃ r ∈ counted lba parts, 2 ^ 32 < r.start + r.length) →
      Extent.Disjoint (cut lba parts)[i] (cut lba parts)[j]

section
variable {p : Part}

end

section
variable {partType : Nat}

end

end Fire3.Fdisk

import Fire3.Base.ByteMemory

/-!
Extent trees, as `read_allocated_block` follows them.

A node is the array of 60 bytes in the inode or the buffer of one block. Its header says how many
entries it has and how deep the tree is below it; nothing checks the two against the size of the
node or against the node above. An access outside of a node has no result, and the loop that goes
down the tree has fuel, since the blocks on the disk may lead back to themselves.
-/

namespace Fire3.Ext4
open ByteMemory

structure Disk where
  blksz : Nat
  mem : Mem
  readable : Nat → Bool

def Disk.block (disk : Disk) (b : Nat) : List UInt8 := load disk.mem (b * disk.blksz) disk.blksz

abbrev Node := List UInt8

def Node.read (node : Node) (o w : Nat) : Nat := leValue ((node.drop o).take w)

def Node.field (node : Node) (o w : Nat) : Option Nat :=
  if o + w ≤ node.length then some (node.read o w) else none

def Node.ehMagic (node : Node) : Nat := node.read 0 2
def Node.ehEntries (node : Node) : Nat := node.read 2 2
def Node.ehDepth (node : Node) : Nat := node.read 6 2

inductive Stop
  | outside
  | fuel
  deriving DecidableEq

section
variable {disk : Disk} {fileblock fuel : Nat} {node : Node}

end

section
variable {node : Node} {fileblock : Nat}

def Node.key (node : Node) (i : Nat) : Nat := node.read (12 + 12 * i) 4

def Node.child (node : Node) (i : Nat) : Nat :=
  node.read (12 + 12 * i + 8) 2 * 2 ^ 32 + node.read (12 + 12 * i + 4) 4

def Node.Inside (node : Node) (i w : Nat) : Prop := 12 + 12 * i + w ≤ node.length

instance decidableInside (node : Node) (i w : Nat) : Decidable (node.Inside i w) :=
  inferInstanceAs (Decidable (_ ≤ _))

end

section

structure Extent where
  eeBlock : Nat
  eeLen : Nat
  eeStart : Nat

def Node.extent (leaf : Node) (i : Nat) : Extent where
  eeBlock := leaf.key i
  eeLen := leaf.read (12 + 12 * i + 4) 2
  eeStart := leaf.read (12 + 12 * i + 6) 2 * 2 ^ 32 + leaf.read (12 + 12 * i + 8) 4

def Extent.Holds (e : Extent) (fileblock : Nat) : Prop :=
  e.eeBlock ≤ fileblock ∧ fileblock < e.eeBlock + e.eeLen

instance decidableHolds (e : Extent) (fileblock : Nat) : Decidable (e.Holds fileblock) :=
  inferInstanceAs (Decidable (_ ∧ _))

def Extent.at (e : Extent) (fileblock : Nat) : Int :=
  ((fileblock - e.eeBlock + e.eeStart : Nat) : Int)

variable {leaf : Node} {fileblock : Nat}

end

end Fire3.Ext4

import Fire3.Ext4.ExtentTree

/-!
When the lookup in an extent tree returns, and when it returns the right block.

For arbitrary contents of the inode and of the disk, the lookup returns exactly if the path it
follows ends and stays inside of the nodes. On a well-formed tree it does, and the result is right
except for blocks before the first entry of an index node and for blocks that an unwritten extent
holds when its length field is read as a length.
-/

namespace Fire3.Ext4
open ByteMemory

variable {d : Nat} {e : Extent} {r : Int}

section
variable {disk : Disk} {fileblock fuel : Nat} {node : Node}

end

section

def Extent.Unwritten (e : Extent) : Prop := 32768 < e.eeLen

def Extent.length (e : Extent) : Nat := if 32768 < e.eeLen then e.eeLen - 32768 else e.eeLen

def Extent.Covers (e : Extent) (fileblock : Nat) : Prop :=
  e.eeBlock ≤ fileblock ∧ fileblock < e.eeBlock + e.length

def Extent.physical (e : Extent) (fileblock : Nat) : Int :=
  if 32768 < e.eeLen then 0 else e.at fileblock

def extentsOf (disk : Disk) : Nat → Node → List Extent
  | 0, node => (List.range node.ehEntries).map node.extent
  | d + 1, node =>
      (List.range node.ehEntries).flatMap fun i => extentsOf disk d (disk.block (node.child i))

structure Header (node : Node) (d : Nat) : Prop where
  magic : node.ehMagic = 0xf30a
  depth : node.ehDepth = d
  size : 12 + 12 * node.ehEntries ≤ node.length

/-- A tree of depth `d`: extents and index entries are in order, and the extents below an index
entry are between it and the next. -/
def WellFormed (disk : Disk) : Nat → Node → Prop
  | 0, node => Header node 0 ∧ ∀ j < node.ehEntries, 0 < (node.extent j).length ∧
      ∀ i < j, (node.extent i).eeBlock + (node.extent i).length ≤ (node.extent j).eeBlock
  | d + 1, node => Header node (d + 1) ∧
      (∀ j < node.ehEntries, ∀ i < j, node.key i < node.key j) ∧
      ∀ i < node.ehEntries, disk.readable (node.child i) = true ∧
        WellFormed disk d (disk.block (node.child i)) ∧
        ∀ e ∈ extentsOf disk d (disk.block (node.child i)), node.key i ≤ e.eeBlock ∧
          ∀ j < node.ehEntries, i < j → e.eeBlock + e.length ≤ node.key j

structure Denotes (disk : Disk) (d : Nat) (node : Node) (fileblock : Nat) (r : Int) : Prop where
  covered : ∀ e ∈ extentsOf disk d node, e.Covers fileblock → r = e.physical fileblock
  hole : (∀ e ∈ extentsOf disk d node, ¬ e.Covers fileblock) → r = 0

/-- The block is not before the first entry of an index node on its path, and if the first extent of
its leaf that holds it is unwritten, then by chance the block at the same distance from the start of
that extent is the right one. -/
def Plain (disk : Disk) : Nat → Node → Nat → Prop
  | 0, node, fileblock => ∀ i < node.ehEntries, (node.extent i).Holds fileblock →
      (∀ j < i, ¬ (node.extent j).Holds fileblock) → (node.extent i).Unwritten →
      Denotes disk 0 node fileblock ((node.extent i).at fileblock)
  | d + 1, node, fileblock => ∃ i < node.ehEntries, node.key i ≤ fileblock ∧
      (∀ j < node.ehEntries, i < j → fileblock < node.key j) ∧
      Plain disk d (disk.block (node.child i)) fileblock

variable {disk : Disk} {fileblock : Nat} {node : Node}

theorem Extent.Holds.covers (h : e.Holds fileblock) (hWritten : ¬ e.Unwritten) :
    e.Covers fileblock := by
  refine ⟨h.1, ?_⟩
  rw [Extent.length, if_neg (show ¬ 32768 < e.eeLen from hWritten)]
  exact h.2

end

def emptyDisk : Disk where
  blksz := 1024
  mem := zero
  readable := fun _ => true

end Fire3.Ext4

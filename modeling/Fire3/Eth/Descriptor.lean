import Fire3.Base.ByteMemory
import Fire3.Base.RingBuffer

/-!
DMA descriptors of the Ethernet controller, `drivers/net/designware.h`.

The two layouts of `CONFIG_DW_ALTDESCRIPTOR` differ in the place of the flags and the
width of the size field. A descriptor table and the buffers behind it are set up by
`drivers/net/designware.c`; pointers from one descriptor to the next are modelled as
the slot they point to.
-/

namespace Fire3.Eth

abbrev descrNum : Nat := 16

instance neZero_descrNum : NeZero descrNum := ⟨by decide⟩

def ethBufsize : Nat := 2048

def macMaxFrameSz : Nat := 1600

structure Dmamacdescr where
  txrxStatus : BitVec 32
  dmamacCntl : BitVec 32
  dmamacAddr : BitVec 32
  dmamacNext : Fin descrNum
  deriving DecidableEq

def ownByDma : BitVec 32 := 0x80000000

def size1Mask (alt : Bool) : BitVec 32 := if alt then 0x1fff else 0x7ff

def Dmamacdescr.owned (d : Dmamacdescr) : Bool := d.txrxStatus &&& ownByDma ≠ 0

def Dmamacdescr.size (alt : Bool) (d : Dmamacdescr) : Nat := (d.dmamacCntl &&& size1Mask alt).toNat

def bufferAddr (buffs : Nat) (i : Fin descrNum) : BitVec 32 :=
  BitVec.ofNat 32 (buffs + i.val * ethBufsize)

theorem bufferAddr_disjoint (buffs : Nat) {i j : Fin descrNum} (h : i ≠ j) :
    (bufferAddr buffs i).toNat + ethBufsize ≤ (bufferAddr buffs j).toNat ∨
      (bufferAddr buffs j).toNat + ethBufsize ≤ (bufferAddr buffs i).toNat := by
  have hi := i.isLt
  have hj := j.isLt
  have hNe : i.val ≠ j.val := fun hSame => h (Fin.ext hSame)
  simp only [bufferAddr, BitVec.toNat_ofNat, ethBufsize, descrNum] at *
  omega

end Fire3.Eth

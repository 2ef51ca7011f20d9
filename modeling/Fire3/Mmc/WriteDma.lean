import Fire3.Base.ByteMemory

/-!
The commands and transfers of a block write: `mmc_bwrite` of `drivers/mmc/mmc_write.c` cuts a
request into commands, and `dwmci_prepare_data` of `drivers/mmc/dw_mmc.c` cuts the data of a
command into DMA descriptors.
-/

namespace Fire3.Dwmci
open ByteMemory

structure Desc where
  flags : Nat
  cnt : Nat
  addr : Nat
  nextAddr : Nat

def setIdmaDesc (idmac desc0 desc1 desc2 : Nat) : Desc :=
  ⟨desc0, desc1, desc2 % 2 ^ 32, (idmac + 64) % 2 ^ 32⟩

def prepareLoop (blocksize bounce : Nat) : Nat → Nat → Nat → Nat → List (Nat × Desc)
  | 0, _, _, _ => []
  | fuel + 1, idmac, i, blkCnt =>
      let flags := 2 ^ 31 ||| 2 ^ 4 ||| (if i = 0 then 2 ^ 3 else 0)
      if blkCnt ≤ 8 then
        [(idmac, setIdmaDesc idmac (flags ||| 2 ^ 2) (blocksize * blkCnt % 2 ^ 32)
          (bounce + i * 4096 % 2 ^ 32))]
      else
        (idmac, setIdmaDesc idmac flags (blocksize * 8 % 2 ^ 32) (bounce + i * 4096 % 2 ^ 32)) ::
          prepareLoop blocksize bounce fuel (idmac + 64) (i + 1) (blkCnt - 8)

def prepareData (blocksize blocks idmac bounce : Nat) : List (Nat × Desc) :=
  prepareLoop blocksize bounce (blocks + 1) idmac 0 blocks

/-- The bytes that the DMA engine takes from a chain, from the descriptor at `a` up to the one
with the flag `LD`. -/
def deliver (mem : Mem) : List (Nat × Desc) → Nat → Option (List UInt8)
  | [], _ => none
  | (b, d) :: chain, a =>
      if a ≠ b then none
      else if d.flags &&& 2 ^ 2 ≠ 0 then some (load mem d.addr d.cnt)
      else (deliver mem chain d.nextAddr).map (load mem d.addr d.cnt ++ ·)

structure Host where
  highCapacity : Bool
  lba : Nat
  bMax : Nat
  bMax_pos : 0 < bMax

def Host.unit (h : Host) : Nat := if h.highCapacity then 1 else 512

theorem Host.unit_pos (h : Host) : 0 < h.unit := by
  unfold Host.unit
  split <;> decide

structure Reply where
  dataErr : Bool
  stopErr : Bool
  statusErr : Bool

def Reply.Clean (r : Reply) : Prop :=
  r.dataErr = false ∧ r.stopErr = false ∧ r.statusErr = false

structure WriteCmd where
  multiple : Bool
  arg : Nat
  blocks : Nat
  src : Nat
deriving DecidableEq

/-- `mmc_write_blocks`: the command, unless the range is refused, and whether it succeeds. -/
def writeBlocks (h : Host) (start blkcnt src : Nat) (r : Reply) : Option WriteCmd × Bool :=
  if (start + blkcnt) % 2 ^ 64 > h.lba then (none, false)
  else if blkcnt = 0 then (none, true)
  else
    (some ⟨blkcnt ≠ 1, start * h.unit % 2 ^ 64 % 2 ^ 32, blkcnt % 2 ^ 32, src⟩,
      !(r.dataErr || (decide (blkcnt > 1) && r.stopErr) || r.statusErr))

def bwriteLoop (h : Host) (reply : Nat → Reply) :
    Nat → Nat → Nat → Nat → List (Option WriteCmd × Bool) × Bool
  | 0, _, _, _ => ([], false)
  | fuel + 1, start, todo, src =>
      let cur := if todo > h.bMax then h.bMax else todo
      let e := writeBlocks h start cur src (reply start)
      if e.2 = false then ([e], false)
      else if todo - cur > 0 then
        let rest := bwriteLoop h reply fuel (start + cur) (todo - cur) (src + cur * 512)
        (e :: rest.1, rest.2)
      else ([e], true)

def mmcBwrite (h : Host) (start blkcnt src : Nat) (blocklenErr : Bool) (reply : Nat → Reply) :
    List (Option WriteCmd × Bool) × Nat :=
  if blocklenErr then ([], 0)
  else
    let r := bwriteLoop h reply (blkcnt + 1) start blkcnt src
    (r.1, if r.2 then blkcnt else 0)

/-- The commands write consecutive blocks from `a` up to `b`. The chain for each of them, made for
a copy of its data, delivers the bytes of the buffer at `p` that belong to its blocks. -/
def Covers (h : Host) (mem : Mem) : Nat → Nat → List WriteCmd → Nat → Prop
  | a, _, [], b => a = b
  | a, p, c :: cs, b =>
      c.arg = a * h.unit ∧ 0 < c.blocks ∧ c.blocks ≤ h.bMax ∧
        (∀ idmac bounce, idmac + 64 * ((c.blocks + 7) / 8) ≤ 2 ^ 32 →
          bounce + 512 * c.blocks ≤ 2 ^ 32 →
          load mem bounce (512 * c.blocks) = load mem c.src (512 * c.blocks) →
          deliver mem (prepareData 512 c.blocks idmac bounce) idmac =
            some (load mem p (512 * c.blocks))) ∧
        Covers h mem (a + c.blocks) (p + 512 * c.blocks) cs b

section
variable (h : Host) (mem : Mem) (reply : Nat → Reply)

end

end Fire3.Dwmci

import Fire3.Base.ByteMemory
import Fire3.Base.Lists
import Mathlib.Algebra.BigOperators.Group.List.Basic

/-!
The sparse image writer of `common/cmd_ext4_img_write.c`, the format it reads,
and what a faithful write of an image leaves on the device.

The writer walks the chunk headers of an image in memory. The image position
advances by `total_size`, the device position by the number of sectors computed
from `chunk_size * block_size` in 32 bits.
-/

namespace Fire3.Ext4Img
open ByteMemory

structure FileHeader where
  magic : UInt32
  major : UInt16
  minor : UInt16
  fileHeaderSize : UInt16
  chunkHeaderSize : UInt16
  blockSize : UInt32
  crc32 : UInt32
  deriving DecidableEq, Repr

/-- A chunk of an image with 4096-byte blocks. The 32-bit `total_size` of a raw
chunk bounds its block count. -/
inductive Chunk
  | raw (count : Nat) (data : List UInt8) (length_data : data.length = 4096 * count)
      (total_lt : 12 + data.length < 2 ^ 32)
  | fill (count : Nat) (pattern : List UInt8) (length_pattern : pattern.length = 4)
      (count_lt : count < 2 ^ 32)
  | dontCare (count : Nat) (count_lt : count < 2 ^ 32)
  | crc32 (value : Nat)

namespace Chunk

def count : Chunk → Nat
  | raw count _ _ _ | fill count _ _ _ | dontCare count _ => count
  | crc32 _ => 0

def type : Chunk → Nat
  | raw .. => 0xCAC1
  | fill .. => 0xCAC2
  | dontCare .. => 0xCAC3
  | crc32 _ => 0xCAC4

def body : Chunk → List UInt8
  | raw _ data _ _ => data
  | fill _ pattern _ _ => pattern
  | dontCare .. => []
  | crc32 value => leBytes 4 value

def bytes (c : Chunk) : List UInt8 :=
  leBytes 2 c.type ++ (leBytes 2 0 ++ (leBytes 4 c.count ++ (leBytes 4 (12 + c.body.length) ++
    c.body)))

end Chunk

def blocks (cs : List Chunk) : Nat := (cs.map Chunk.count).sum

structure SparseImage where
  header : FileHeader
  chunks : List Chunk
  blocks_lt : blocks chunks < 2 ^ 32
  chunks_lt : chunks.length < 2 ^ 32

def SparseImage.headerBytes (i : SparseImage) : List UInt8 :=
  leBytes 4 i.header.magic.toNat ++ (leBytes 2 i.header.major.toNat ++
    (leBytes 2 i.header.minor.toNat ++ (leBytes 2 i.header.fileHeaderSize.toNat ++
    (leBytes 2 i.header.chunkHeaderSize.toNat ++ (leBytes 4 i.header.blockSize.toNat ++
    (leBytes 4 (blocks i.chunks) ++ (leBytes 4 i.chunks.length ++
    leBytes 4 i.header.crc32.toNat)))))))

def SparseImage.bytes (i : SparseImage) : List UInt8 :=
  i.headerBytes ++ i.chunks.flatMap Chunk.bytes

/-- `check_compress_ext4`: an image larger than the partition hangs. -/
def checkCompressExt4 (img : Mem) (imgBase partiSize : Nat) : Option Int :=
  if readLE img imgBase 4 ≠ 0xED26FF3A then some (-1)
  else if readLE img (imgBase + 4) 2 ≠ 1 then some (-1)
  else if readLE img (imgBase + 8) 2 ≠ 28 then some (-1)
  else if readLE img (imgBase + 10) 2 ≠ 12 then some (-1)
  else if readLE img (imgBase + 12) 4 ≠ 0x1000 then some (-1)
  else if partiSize / readLE img (imgBase + 12) 4 < readLE img (imgBase + 16) 4 then none
  else some 0

/-- `WRITE_RAW_CHUNK_CB`: device contents, image memory and data address, sector and
sector count. -/
abbrev WriteRawChunkCb := Mem → Mem → Nat → Nat → Nat → Mem

def storeSectors : WriteRawChunkCb := fun dev img data sector sectorSize =>
  store dev (512 * sector) (load img data (512 * sectorSize))

inductive ChunkType
  | raw
  | fill
  | none
  | unknown
  deriving DecidableEq, Repr

def chunkType (type : Nat) : ChunkType :=
  if type = 0xCAC1 then .raw
  else if type = 0xCAC2 then .fill
  else if type = 0xCAC3 then .none
  else .unknown

/-- The chunk loop of `write_compressed_ext4`. Only a raw chunk reaches the device;
all types advance the sector in the same way. -/
def writeLoop (cb : WriteRawChunkCb) (img : Mem) (blockSize : Nat) : Nat → Nat → Nat → Mem → Mem
  | 0, _, _, dev => dev
  | totalChunks + 1, imgBase, sectorBase, dev =>
      let sectorSize := readLE img (imgBase + 4) 4 * blockSize % 2 ^ 32 / 2 ^ 9
      let dev := match chunkType (readLE img imgBase 2) with
        | .raw => cb dev img (imgBase + 12) sectorBase sectorSize
        | .fill => dev
        | .none => dev
        | .unknown => dev
      writeLoop cb img blockSize totalChunks (imgBase + readLE img (imgBase + 8) 4)
        ((sectorBase + sectorSize) % 2 ^ 32) dev

def writeCompressedExt4 (cb : WriteRawChunkCb) (img : Mem) (imgBase sectorBase : Nat) (dev : Mem) :
    Mem :=
  writeLoop cb img (readLE img (imgBase + 12) 4) (readLE img (imgBase + 20) 4) (imgBase + 28)
    sectorBase dev

def chunkAddr (base : Nat) (pre : List Chunk) : Nat := 512 * (base + 8 * blocks pre)

def Chunk.covers (addr : Nat) (c : Chunk) (x : Nat) : Prop :=
  addr ≤ x ∧ x < addr + 4096 * c.count

/-- What the image means for a device: raw data and fill patterns in place, every
other byte as before. -/
structure Faithful (cs : List Chunk) (base : Nat) (dev dev' : Mem) : Prop where
  raw : ∀ pre count data h h' post, cs = pre ++ Chunk.raw count data h h' :: post →
    load dev' (chunkAddr base pre) data.length = data
  fill : ∀ pre count pattern h h' post, cs = pre ++ Chunk.fill count pattern h h' :: post →
    load dev' (chunkAddr base pre) (4096 * count) = (List.replicate (1024 * count) pattern).flatten
  other : ∀ x, (∀ pre c post, cs = pre ++ c :: post → (c.type = 0xCAC1 ∨ c.type = 0xCAC2) →
    ¬c.covers (chunkAddr base pre) x) → dev' x = dev x

/-!
When the sparse image writer is faithful.

Over the chunks of an image the writer is a walk that puts each raw chunk at a
sector and moves on. The walk of the source advances in 32 bits and never beyond
the place the format assigns; a chunk that is put too low leaves the last sector
of its proper place untouched.
-/

variable {sector x : Nat} {c : Chunk} {cs : List Chunk}

namespace Chunk

def stores (c : Chunk) : Prop := c.type = 0xCAC1 ∧ 0 < c.count

def put (c : Chunk) (sector : Nat) (dev : Mem) : Mem :=
  match c with
  | raw _ data _ _ => store dev (512 * sector) data
  | fill .. | dontCare .. | crc32 _ => dev

theorem put_below (c : Chunk) (dev : Mem) (h : x < 512 * sector) : c.put sector dev x = dev x := by
  cases c with
  | raw count data => exact store_below _ _ _ _ h
  | fill | dontCare | crc32 => rfl

theorem put_above (c : Chunk) (dev : Mem) (h : 512 * (sector + 8 * c.count) ≤ x) :
    c.put sector dev x = dev x := by
  cases c with
  | raw count data length_data =>
      rw [Chunk.count] at h
      exact store_above _ _ _ _ (by omega)
  | fill | dontCare | crc32 => rfl

theorem put_of_not_stores (h : ¬c.stores) (sector : Nat) (dev : Mem) : c.put sector dev = dev := by
  cases c with
  | raw count data length_data =>
      have hEmpty : data = [] := by
        apply List.eq_nil_of_length_eq_zero
        simp only [stores, type, Chunk.count, true_and, Nat.not_lt] at h
        omega
      simp [put, hEmpty]
  | fill | dontCare | crc32 => rfl

end Chunk

@[simp] theorem blocks_nil : blocks [] = 0 := rfl

@[simp] theorem blocks_cons (c : Chunk) (cs : List Chunk) :
    blocks (c :: cs) = c.count + blocks cs := by
  simp [blocks]

@[simp] theorem blocks_append (as bs : List Chunk) : blocks (as ++ bs) = blocks as + blocks bs := by
  simp [blocks]

def runWith (next : Nat → Chunk → Nat) : Nat → Mem → List Chunk → Mem
  | _, dev, [] => dev
  | sector, dev, c :: cs => runWith next (next sector c) (c.put sector dev) cs

def advance (sector : Nat) (c : Chunk) : Nat := (sector + 8 * (c.count % 2 ^ 20)) % 2 ^ 32

def exact (sector : Nat) (c : Chunk) : Nat := sector + 8 * c.count

theorem advance_le (sector : Nat) (c : Chunk) : advance sector c ≤ exact sector c := by
  have hCount : c.count % 2 ^ 20 ≤ c.count := Nat.mod_le _ _
  exact (Nat.mod_le _ _).trans (by unfold exact; omega)

section
variable {next : Nat → Chunk → Nat}

theorem runWith_append (sector : Nat) (dev : Mem) (as bs : List Chunk) :
    runWith next sector dev (as ++ bs) =
      runWith next (as.foldl next sector) (runWith next sector dev as) bs := by
  induction as generalizing sector dev with
  | nil => rfl
  | cons a as ih => simp only [List.cons_append, runWith, List.foldl_cons, ih]

theorem runWith_of_not_stores (h : ∀ c ∈ cs, ¬c.stores) (sector : Nat) (dev : Mem) :
    runWith next sector dev cs = dev := by
  induction cs generalizing sector dev with
  | nil => rfl
  | cons c cs ih =>
      grind [runWith, Chunk.put_of_not_stores, List.mem_cons_self, List.mem_cons_of_mem]

theorem runWith_above (hNext : ∀ s c, next s c ≤ exact s c) {pos : Nat} (hPos : sector ≤ pos)
    (dev : Mem) (cs : List Chunk) (hx : 512 * (pos + 8 * blocks cs) ≤ x) :
    runWith next sector dev cs x = dev x := by
  induction cs generalizing sector pos dev with
  | nil => rfl
  | cons c cs ih =>
      have hStep := hNext sector c
      unfold exact at hStep
      rw [blocks_cons] at hx
      rw [runWith, ih (show next sector c ≤ pos + 8 * c.count by omega) _ (by omega),
        c.put_above dev (by omega)]

theorem foldl_next_le (hNext : ∀ s c, next s c ≤ exact s c) (sector : Nat) (cs : List Chunk) :
    cs.foldl next sector ≤ sector + 8 * blocks cs := by
  induction cs generalizing sector with
  | nil => simp
  | cons c cs ih =>
      have hStep := hNext sector c
      have hRest := ih (next sector c)
      unfold exact at hStep
      rw [List.foldl_cons, blocks_cons]
      omega

end

theorem runWith_exact_below (dev : Mem) (cs : List Chunk) (h : x < 512 * sector) :
    runWith exact sector dev cs x = dev x := by
  induction cs generalizing sector dev with
  | nil => rfl
  | cons c cs ih =>
      rw [runWith, ih _ (by unfold exact; omega), c.put_below dev h]

theorem foldl_exact (sector : Nat) (cs : List Chunk) :
    cs.foldl exact sector = sector + 8 * blocks cs := by
  induction cs generalizing sector with
  | nil => simp
  | cons c cs ih =>
      rw [List.foldl_cons, ih, blocks_cons, exact]
      omega

theorem runWith_exact_at (base : Nat) (dev : Mem) (pre post : List Chunk) (c : Chunk)
    (h : x < chunkAddr base pre + 4096 * c.count) :
    runWith exact base dev (pre ++ c :: post) x =
      c.put (base + 8 * blocks pre) (runWith exact base dev pre) x := by
  unfold chunkAddr at h
  rw [runWith_append, foldl_exact, runWith, runWith_exact_below _ _ (by unfold exact; omega)]

theorem runWith_exact_unchanged {base : Nat} {dev : Mem}
    (h : ∀ pre c post, cs = pre ++ c :: post → (c.type = 0xCAC1 ∨ c.type = 0xCAC2) →
      ¬c.covers (chunkAddr base pre) x) : runWith exact base dev cs x = dev x := by
  induction cs generalizing base dev with
  | nil => rfl
  | cons c cs ih =>
      have hRest : ∀ pre d post, cs = pre ++ d :: post → (d.type = 0xCAC1 ∨ d.type = 0xCAC2) →
          ¬d.covers (chunkAddr (exact base c) pre) x := by
        intro pre d post hSplit hType
        have hHere := h (c :: pre) d post (by rw [hSplit]; rfl) hType
        simpa only [chunkAddr, exact, blocks_cons, Nat.mul_add, Nat.add_assoc] using hHere
      rw [runWith, ih hRest]
      by_cases hType : c.type = 0xCAC1
      · have hHere := h [] c cs rfl (.inl hType)
        grind [Chunk.covers, chunkAddr, blocks_nil, c.put_below, c.put_above]
      · exact congrFun (Chunk.put_of_not_stores (fun hStores => hType hStores.1) _ _) x

/-- Every raw chunk with data is behind chunks of fewer than 2^20 blocks and starts
below sector 2^32. -/
def Placed (base : Nat) (cs : List Chunk) : Prop :=
  ∀ pre c post, cs = pre ++ c :: post → c.stores →
    (∀ d ∈ pre, d.count < 2 ^ 20) ∧ base + 8 * blocks pre < 2 ^ 32

theorem Placed.tail {base : Nat} (h : Placed base (c :: cs)) : Placed (exact base c) cs := by
  intro pre d post hSplit hStores
  obtain ⟨hCounts, hStart⟩ := h (c :: pre) d post (by rw [hSplit]; rfl) hStores
  refine ⟨fun e he => hCounts e (List.mem_cons_of_mem _ he), ?_⟩
  rw [blocks_cons] at hStart
  unfold exact
  omega

theorem runWith_advance {base : Nat} (h : Placed base cs) (dev : Mem)
    (hSector : sector = base ∨ ∀ c ∈ cs, ¬c.stores) :
    runWith advance sector dev cs = runWith exact base dev cs := by
  induction cs generalizing base sector dev with
  | nil => rfl
  | cons c cs ih =>
      by_cases hNone : ∀ d ∈ c :: cs, ¬d.stores
      · grind [runWith_of_not_stores]
      · obtain rfl : sector = base := hSector.resolve_right hNone
        rw [runWith, runWith]
        refine ih h.tail _ ?_
        by_cases hRest : ∀ d ∈ cs, ¬d.stores
        · exact .inr hRest
        · -- a later chunk is stored, so this one still counts in 32 bits
          push Not at hRest
          obtain ⟨d, hd, hStores⟩ := hRest
          obtain ⟨pre, post, hSplit⟩ := List.append_of_mem hd
          obtain ⟨hCounts, hStart⟩ := h (c :: pre) d post (by rw [hSplit]; rfl) hStores
          have hCount := hCounts c List.mem_cons_self
          rw [blocks_cons] at hStart
          left
          unfold advance exact
          omega

theorem foldl_advance_eq {base : Nat} (hBase : base < 2 ^ 32) {pre : List Chunk}
    (h : pre.foldl advance base = base + 8 * blocks pre) :
    (∀ d ∈ pre, d.count < 2 ^ 20) ∧ base + 8 * blocks pre < 2 ^ 32 := by
  induction pre using List.reverseRecOn with
  | nil => simpa using hBase
  | append_singleton pre c ih =>
      have hBelow := foldl_next_le advance_le base pre
      simp only [List.foldl_append, List.foldl_cons, List.foldl_nil, blocks_append, blocks_cons,
        blocks_nil, advance] at h
      have hWrap : (pre.foldl advance base + 8 * (c.count % 2 ^ 20)) % 2 ^ 32 ≤
          pre.foldl advance base + 8 * (c.count % 2 ^ 20) := Nat.mod_le _ _
      have hCount : c.count % 2 ^ 20 ≤ c.count := Nat.mod_le _ _
      have hSum : base + 8 * blocks (pre ++ [c]) < 2 ^ 32 := by
        simp only [blocks_append, blocks_cons, blocks_nil]
        omega
      refine ⟨fun d hd => ?_, hSum⟩
      rw [List.mem_append, List.mem_singleton] at hd
      cases hd with
      | inl hPre => exact (ih (by omega)).1 d hPre
      | inr hLast =>
          grind

/-- The last sector of the last stored chunk is written only if the source puts the
chunk where the format does. -/
theorem advance_of_faithful {base : Nat} {pre post : List Chunk} (hStores : c.stores)
    (hLast : ∀ d ∈ post, ¬d.stores) (h : ∀ dev, Faithful (pre ++ c :: post) base dev
      (runWith advance base dev (pre ++ c :: post))) :
    pre.foldl advance base = base + 8 * blocks pre := by
  cases c with
  | fill | dontCare | crc32 => simp [Chunk.stores, Chunk.type] at hStores
  | raw count data length_data total_lt =>
      have hCount : 0 < count := hStores.2
      by_contra hMoved
      have hBelow := foldl_next_le advance_le base pre
      have hIndex : data.length - 1 < data.length := by omega
      let dev : Mem := fun _ => data[data.length - 1] + 1
      have hData := (load_eq_iff _ _ _).mp ((h dev).raw pre count data length_data total_lt post rfl)
        (data.length - 1) hIndex
      have hUntouched : runWith advance base dev
          (pre ++ Chunk.raw count data length_data total_lt :: post)
          (chunkAddr base pre + (data.length - 1)) = dev 0 := by
        unfold chunkAddr
        rw [runWith_append, runWith, runWith_of_not_stores hLast, Chunk.put_above,
          runWith_above advance_le le_rfl dev pre]
        · omega
        · simp only [Chunk.count]
          omega
      rw [hUntouched] at hData
      simp [dev] at hData

theorem placed_of_faithful {base : Nat} (hBase : base < 2 ^ 32)
    (h : ∀ dev, Faithful cs base dev (runWith advance base dev cs)) : Placed base cs := by
  intro pre c post hSplit hStores
  obtain ⟨mid, d, tail, hTail, hStored, hLast⟩ :=
    @Lists.exists_last _ Chunk.stores (c :: post) ⟨c, List.mem_cons_self, hStores⟩
  rw [hSplit, hTail, ← List.append_assoc] at h
  obtain ⟨hCounts, hStart⟩ := foldl_advance_eq hBase (advance_of_faithful hStored hLast h)
  rw [blocks_append] at hStart
  grind

def noFill (cs : List Chunk) : Prop := ∀ c ∈ cs, c.type = 0xCAC2 → c.count = 0

theorem noFill_of_faithful {base : Nat} {cs : List Chunk}
    (h : ∀ dev, Faithful cs base dev (runWith exact base dev cs)) : noFill cs := by
  intro c hc hType
  obtain ⟨pre, post, hSplit⟩ := List.append_of_mem hc
  cases c with
  | raw | dontCare | crc32 => simp [Chunk.type] at hType
  | fill count pattern length_pattern count_lt =>
      by_contra hCount
      simp only [Chunk.count] at hCount
      obtain ⟨b, rest, rfl⟩ : ∃ b rest, pattern = b :: rest :=
        List.exists_cons_of_length_pos (by omega)
      let dev : Mem := fun _ => b + 1
      have hFill := (h dev).fill pre count (b :: rest) length_pattern count_lt post hSplit
      obtain ⟨k, hk⟩ : ∃ k, 1024 * count = k + 1 := ⟨1024 * count - 1, by omega⟩
      obtain ⟨n, hn⟩ : ∃ n, 4096 * count = n + 1 := ⟨4096 * count - 1, by omega⟩
      rw [hk, hn, List.replicate_succ, List.flatten_cons, List.cons_append, load_succ,
        List.cons.injEq] at hFill
      have hSame : runWith exact base dev cs (chunkAddr base pre) = b + 1 := by
        rw [hSplit, runWith_exact_at _ _ _ _ _ (by simp only [Chunk.count]; omega)]
        exact runWith_above (fun _ _ => le_rfl) le_rfl dev pre le_rfl
      rw [hSame] at hFill
      have hOne : (1 : UInt8) = 0 := by simpa using hFill.1
      exact absurd hOne (by decide)

theorem faithful_exact {base : Nat} (h : noFill cs) (dev : Mem) :
    Faithful cs base dev (runWith exact base dev cs) where
  raw := by
    intro pre count data length_data total_lt post hSplit
    apply (load_eq_iff _ _ _).mpr
    intro i hi
    rw [hSplit, runWith_exact_at _ _ _ _ _ (by simp only [Chunk.count]; omega)]
    exact store_inside _ _ _ _ hi
  fill := by
    intro pre count pattern length_pattern count_lt post hSplit
    have hEmpty : count = 0 := h (.fill count pattern length_pattern count_lt) (by simp [hSplit]) rfl
    subst hEmpty
    rfl
  other := fun _ hOutside => runWith_exact_unchanged hOutside

/-- Over the chunks, the writer is faithful on every device exactly for images
without filled blocks whose raw chunks are all placed. -/
theorem runWith_faithful_iff {base : Nat} (hBase : base < 2 ^ 32) (cs : List Chunk) :
    (∀ dev, Faithful cs base dev (runWith advance base dev cs)) ↔ noFill cs ∧ Placed base cs := by
  constructor
  · intro h
    have hPlaced := placed_of_faithful hBase h
    refine ⟨@noFill_of_faithful base cs fun dev => ?_, hPlaced⟩
    rw [← runWith_advance hPlaced dev (.inl rfl)]
    exact h dev
  · rintro ⟨hNoFill, hPlaced⟩ dev
    rw [runWith_advance hPlaced dev (.inl rfl)]
    exact faithful_exact hNoFill dev

end Fire3.Ext4Img

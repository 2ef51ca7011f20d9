import Fire3.Base.Pieces
import Fire3.Fastboot.SparseConfined

/-!
The sparse image format, and what the requests of a well-formed image come to.

An image is given by its chunks; the two header sizes are free above their first version. The
requests of the chunks follow each other without the blocks between them, and a filled chunk of
4 GiB or more is cut by the 32-bit product.
-/

namespace Fire3.Fastboot
open ByteMemory

inductive SparseChunk
  | raw (data : List UInt8)
  | fill (count : Nat) (pattern : List UInt8)
  | dontCare (count : Nat)
  | crc32 (value : List UInt8)

namespace SparseChunk

def type : SparseChunk → Nat
  | raw _ => 0xCAC1
  | fill .. => 0xCAC2
  | dontCare _ => 0xCAC3
  | crc32 _ => 0xCAC4

def count (blkSz : Nat) : SparseChunk → Nat
  | raw data => data.length / blkSz
  | fill count _ | dontCare count => count
  | crc32 _ => 0

def body : SparseChunk → List UInt8
  | raw data => data
  | fill _ pattern => pattern
  | dontCare _ => []
  | crc32 value => value

def WellFormed (blkSz : Nat) : SparseChunk → Prop
  | raw data => blkSz ∣ data.length
  | fill _ pattern => pattern.length = 4
  | dontCare _ => True
  | crc32 value => value.length = 4

def expanded (blkSz : Nat) : SparseChunk → List UInt8
  | raw data => data
  | fill count pattern => (List.replicate (count * blkSz / 4) pattern).flatten
  | dontCare _ | crc32 _ => []

def gap (blkSz : Nat) : SparseChunk → Nat
  | dontCare count => count * blkSz
  | raw _ | fill .. | crc32 _ => 0

structure At (h : SparseHeader) (img : Mem) (p : Nat) (c : SparseChunk) : Prop where
  wellFormed : c.WellFormed h.blkSz
  type : readLE img p 2 = c.type
  count : readLE img (p + 4) 4 = c.count h.blkSz
  total : readLE img (p + 8) 4 = h.chunkHdrSz + c.body.length
  body : load img (p + h.chunkHdrSz) c.body.length = c.body

def item (storage : SparseStorage) (blkSz : Nat) : SparseChunk → Item
  | raw data => .write ⟨data, 1⟩
  | fill count pattern =>
      .write ⟨(List.replicate (storage.blockSz / 4) pattern).flatten,
        count * blkSz % 2 ^ 32 / storage.blockSz⟩
  | dontCare count => .skip (count * blkSz % 2 ^ 32 / storage.blockSz)
  | crc32 _ => .nothing

end SparseChunk

def ChunksAt (h : SparseHeader) (img : Mem) : Nat → List SparseChunk → Prop
  | _, [] => True
  | p, c :: cs => c.At h img p ∧ ChunksAt h img (p + h.chunkHdrSz + c.body.length) cs

/-- A well-formed sparse image with the chunks `cs` lies in memory. -/
structure SparseImageAt (img : Mem) (cs : List SparseChunk) : Prop where
  sparse : isSparseImage img = true
  fileHdrSz : 28 ≤ (sparseParseHeader img).fileHdrSz
  chunkHdrSz : 12 ≤ (sparseParseHeader img).chunkHdrSz
  blkSz_pos : 0 < (sparseParseHeader img).blkSz
  four_dvd : 4 ∣ (sparseParseHeader img).blkSz
  totalBlks : (sparseParseHeader img).totalBlks =
    (cs.map (·.count (sparseParseHeader img).blkSz)).sum
  totalChunks : (sparseParseHeader img).totalChunks = cs.length
  chunks : ChunksAt (sparseParseHeader img) img (sparseParseHeader img).fileHdrSz cs

theorem readLE_lt (m : Mem) (a w : Nat) : readLE m a w < 256 ^ w := by
  have h := leValue_lt (load m a w)
  rwa [length_load] at h

theorem sparseParseChunk_at {h : SparseHeader} {img : Mem} {p : Nat} {c : SparseChunk}
    (hc : c.At h img p) (storage : SparseStorage) :
    ∃ ch, sparseParseChunk h img p = some ch ∧
      itemOf storage h img (p + h.chunkHdrSz) ch =
        (c.item storage h.blkSz, p + h.chunkHdrSz + c.body.length) := by
  have hSize (t : ChunkType) (n : Nat) :
      chunkDataSize h ⟨t, n, readLE img (p + 8) 4⟩ = c.body.length := by
    have hTotal := readLE_lt img (p + 8) 4
    rw [hc.total] at hTotal
    simp only [chunkDataSize, hc.total]
    omega
  have hType := hc.type
  have hBody := hc.body
  cases c with
  | raw data =>
      have hCount : data.length / h.blkSz = readLE img (p + 4) 4 := hc.count.symm
      have hWhole : data.length % h.blkSz = 0 := Nat.mod_eq_zero_of_dvd hc.wellFormed
      simp only [SparseChunk.type, SparseChunk.body] at hType hSize hBody
      refine ⟨⟨.raw, readLE img (p + 4) 4, readLE img (p + 8) 4⟩, ?_, ?_⟩
      · simp [sparseParseChunk, hType, chunkTypeOf, hSize, hWhole, hCount]
      · simp [itemOf, sparseGetDataBuffer, hSize, hBody, SparseChunk.item, SparseChunk.body]
  | fill count pattern =>
      have hFour : pattern.length = 4 := hc.wellFormed
      have hCount : readLE img (p + 4) 4 = count := hc.count
      simp only [SparseChunk.type, SparseChunk.body, hFour] at hType hSize hBody
      refine ⟨⟨.fill, readLE img (p + 4) 4, readLE img (p + 8) 4⟩, ?_, ?_⟩
      · simp [sparseParseChunk, hType, chunkTypeOf, hSize]
      · grind [itemOf, sparseGetDataBuffer, SparseChunk.item, SparseChunk.body]
  | dontCare count =>
      have hCount : readLE img (p + 4) 4 = count := hc.count
      simp only [SparseChunk.type] at hType
      refine ⟨⟨.dontCare, readLE img (p + 4) 4, readLE img (p + 8) 4⟩, ?_, ?_⟩
      · simp [sparseParseChunk, hType, chunkTypeOf]
      · simp [itemOf, blockSizeToStorage, hCount, SparseChunk.item, SparseChunk.body]
  | crc32 value =>
      simp only [SparseChunk.type, SparseChunk.body] at hType hSize
      refine ⟨⟨.crc32, readLE img (p + 4) 4, readLE img (p + 8) 4⟩, ?_, ?_⟩
      · simp [sparseParseChunk, hType, chunkTypeOf]
      · simp [itemOf, sparseGetDataBuffer, hSize, SparseChunk.item, SparseChunk.body]

theorem items_at {h : SparseHeader} {img : Mem} {p : Nat} {cs : List SparseChunk}
    (hcs : ChunksAt h img p cs) (storage : SparseStorage) :
    items storage h img cs.length p = (cs.map (·.item storage h.blkSz), true) := by
  induction cs generalizing p with
  | nil => rfl
  | cons c cs ih =>
      obtain ⟨ch, hParse, hItem⟩ := sparseParseChunk_at hcs.1 storage
      rw [List.length_cons, items, hParse]
      dsimp only
      rw [hItem, ih hcs.2]
      rfl

section
variable (blkSz : Nat)

def dataOf (cs : List SparseChunk) : List UInt8 := cs.flatMap (·.expanded blkSz)

def gaps (cs : List SparseChunk) : Nat := (cs.map (·.gap blkSz)).sum

def expandedSize (cs : List SparseChunk) : Nat := (cs.map (·.count blkSz)).sum * blkSz

@[simp] theorem dataOf_cons (c : SparseChunk) (cs : List SparseChunk) :
    dataOf blkSz (c :: cs) = c.expanded blkSz ++ dataOf blkSz cs := List.flatMap_cons ..

@[simp] theorem dataOf_append (as bs : List SparseChunk) :
    dataOf blkSz (as ++ bs) = dataOf blkSz as ++ dataOf blkSz bs := List.flatMap_append ..

@[simp] theorem gaps_cons (c : SparseChunk) (cs : List SparseChunk) :
    gaps blkSz (c :: cs) = c.gap blkSz + gaps blkSz cs := by simp [gaps]

@[simp] theorem gaps_append (as bs : List SparseChunk) :
    gaps blkSz (as ++ bs) = gaps blkSz as + gaps blkSz bs := by simp [gaps]

variable {blkSz}

theorem length_expanded {c : SparseChunk} (hc : c.WellFormed blkSz) (hFour : 4 ∣ blkSz) :
    c.count blkSz * blkSz = (c.expanded blkSz).length + c.gap blkSz := by
  cases c with
  | raw data => exact Nat.div_mul_cancel hc
  | fill count pattern =>
      have hPattern : pattern.length = 4 := hc
      simp only [SparseChunk.count, SparseChunk.expanded, SparseChunk.gap, List.length_flatten,
        List.map_replicate, List.sum_replicate_nat, hPattern, Nat.add_zero]
      grind
  | dontCare count => simp [SparseChunk.count, SparseChunk.expanded, SparseChunk.gap]
  | crc32 value => simp [SparseChunk.count, SparseChunk.expanded, SparseChunk.gap]

theorem expandedSize_eq {cs : List SparseChunk} (hcs : ∀ c ∈ cs, c.WellFormed blkSz)
    (hFour : 4 ∣ blkSz) : expandedSize blkSz cs = (dataOf blkSz cs).length + gaps blkSz cs := by
  induction cs with
  | nil => simp [expandedSize, dataOf, gaps]
  | cons c cs ih =>
      rw [List.forall_mem_cons] at hcs
      have hRest := ih hcs.2
      have hHead := length_expanded hcs.1 hFour
      unfold expandedSize at hRest ⊢
      grind [Nat.add_mul, dataOf_cons, gaps_cons, List.length_append]

end

end Fire3.Fastboot

import Fire3.Ext4.SparseWrite

/-!
From the bytes of a sparse image to the walk over its chunks, and the exact
condition under which `write_compressed_ext4` is faithful to an accepted image.
-/

namespace Fire3.Ext4Img
open ByteMemory

theorem Chunk.type_lt (c : Chunk) : c.type < 256 ^ 2 := by
  cases c <;> simp [type]

theorem Chunk.count_lt (c : Chunk) : c.count < 256 ^ 4 := by
  cases c with
  | raw count data length_data total_lt => simp only [Chunk.count]; omega
  | fill count pattern length_pattern count_lt | dontCare count count_lt => exact count_lt
  | crc32 value => simp [Chunk.count]

theorem Chunk.total_lt (c : Chunk) : 12 + c.body.length < 256 ^ 4 := by
  cases c with
  | raw count data length_data total_lt => exact total_lt
  | fill count pattern length_pattern count_lt => simp only [body, length_pattern]; decide
  | dontCare count count_lt | crc32 value => simp [body]

theorem writeLoop_chunks {img : Mem} {cs : List Chunk} {p : Nat}
    (h : load img p (cs.flatMap Chunk.bytes).length = cs.flatMap Chunk.bytes) (sector : Nat)
    (dev : Mem) :
    writeLoop storeSectors img 4096 cs.length p sector dev = runWith advance sector dev cs := by
  induction cs generalizing p sector dev with
  | nil => rfl
  | cons c cs ih =>
      simp only [List.flatMap_cons, Chunk.bytes, List.append_assoc] at h
      have hType : readLE img p 2 = c.type := readLE_of_head h c.type_lt
      rw [← List.append_assoc] at h
      have hCount : readLE img (p + 4) 4 = c.count := by simpa using readLE_of_append h c.count_lt
      rw [← List.append_assoc] at h
      have hTotal : readLE img (p + 8) 4 = 12 + c.body.length := by
        simpa using readLE_of_append h c.total_lt
      rw [← List.append_assoc] at h
      have hBody : load img (p + 12) c.body.length = c.body := by simpa using load_of_append h
      rw [← List.append_assoc, ← List.append_nil (cs.flatMap Chunk.bytes)] at h
      have hRest : load img (p + (12 + c.body.length)) (cs.flatMap Chunk.bytes).length =
          cs.flatMap Chunk.bytes := by
        have hTail := load_of_append h
        simpa only [List.length_append, length_leBytes, Nat.reduceAdd] using hTail
      have hSize : c.count * 4096 % 2 ^ 32 / 2 ^ 9 = 8 * (c.count % 2 ^ 20) := by omega
      simp only [List.length_cons, writeLoop, hType, hCount, hTotal, hSize, ih hRest]
      rw [runWith, advance]
      congr 1
      cases c with
      | fill | dontCare | crc32 => rfl
      | raw count data length_data total_lt =>
          simp only [Chunk.body] at hBody
          have hBytes : 512 * (8 * (count % 2 ^ 20)) = data.length := by omega
          simp only [Chunk.type, chunkType, if_true, storeSectors, Chunk.count, hBytes, hBody,
            Chunk.put]

structure HeaderAt (img : Mem) (p : Nat) (i : SparseImage) : Prop where
  magic : readLE img p 4 = i.header.magic.toNat
  major : readLE img (p + 4) 2 = i.header.major.toNat
  fileHeaderSize : readLE img (p + 8) 2 = i.header.fileHeaderSize.toNat
  chunkHeaderSize : readLE img (p + 10) 2 = i.header.chunkHeaderSize.toNat
  blockSize : readLE img (p + 12) 4 = i.header.blockSize.toNat
  totalBlocks : readLE img (p + 16) 4 = blocks i.chunks
  totalChunks : readLE img (p + 20) 4 = i.chunks.length
  chunks : load img (p + 28) (i.chunks.flatMap Chunk.bytes).length = i.chunks.flatMap Chunk.bytes

theorem headerAt_of_load {img : Mem} {p : Nat} {i : SparseImage}
    (h : load img p i.bytes.length = i.bytes) : HeaderAt img p i := by
  simp only [SparseImage.bytes, SparseImage.headerBytes, List.append_assoc] at h
  have hMagic := readLE_of_head h i.header.magic.toNat_lt
  have hMajor := readLE_of_append h i.header.major.toNat_lt
  rw [← List.append_assoc, ← List.append_assoc] at h
  have hFile := readLE_of_append h i.header.fileHeaderSize.toNat_lt
  rw [← List.append_assoc] at h
  have hChunk := readLE_of_append h i.header.chunkHeaderSize.toNat_lt
  rw [← List.append_assoc] at h
  have hBlock := readLE_of_append h i.header.blockSize.toNat_lt
  rw [← List.append_assoc] at h
  have hBlocks := readLE_of_append h i.blocks_lt
  rw [← List.append_assoc] at h
  have hChunks := readLE_of_append h i.chunks_lt
  rw [← List.append_assoc, ← List.append_assoc,
    ← List.append_nil (i.chunks.flatMap Chunk.bytes)] at h
  have hBody := load_of_append h
  simp only [List.length_append, length_leBytes, Nat.reduceAdd] at hMajor hFile hChunk hBlock
  simp only [List.length_append, length_leBytes, Nat.reduceAdd] at hBlocks hChunks
  refine ⟨hMagic, hMajor, hFile, hChunk, hBlock, hBlocks, hChunks, ?_⟩
  simpa only [List.append_nil, List.length_append, length_leBytes, Nat.reduceAdd] using hBody

theorem checkCompressExt4_eq_zero {img : Mem} {p : Nat} {i : SparseImage} (h : HeaderAt img p i)
    (partiSize : Nat) :
    checkCompressExt4 img p partiSize = some 0 ↔
      i.header.magic = 0xED26FF3A ∧ i.header.major = 1 ∧ i.header.fileHeaderSize = 28 ∧
      i.header.chunkHeaderSize = 12 ∧ i.header.blockSize = 0x1000 ∧
      blocks i.chunks ≤ partiSize / 4096 := by
  simp only [checkCompressExt4, h.magic, h.major, h.fileHeaderSize, h.chunkHeaderSize, h.blockSize,
    h.totalBlocks, ← UInt32.toNat_inj, ← UInt16.toNat_inj]
  have hLiterals : (0xED26FF3A : UInt32).toNat = 0xED26FF3A ∧ (1 : UInt16).toNat = 1 ∧
      (28 : UInt16).toNat = 28 ∧ (12 : UInt16).toNat = 12 ∧ (0x1000 : UInt32).toNat = 4096 := by
    decide
  obtain ⟨hA, hB, hC, hD, hE⟩ := hLiterals
  rw [hA, hB, hC, hD, hE]
  constructor
  · intro hCheck
    split_ifs at hCheck <;> simp_all
  · grind

/-- `write_compressed_ext4` is faithful to an accepted image, on every device, exactly
when no fill chunk has blocks and every raw chunk with data lies below sector 2^32
behind chunks of fewer than 2^20 blocks. -/
theorem write_compressed_ext4_faithful_iff (image : SparseImage) {img : Mem} {p : Nat}
    (stored : load img p image.bytes.length = image.bytes) {partiSize : Nat}
    (accepted : checkCompressExt4 img p partiSize = some 0) {base : Nat} (hBase : base < 2 ^ 32) :
    (∀ dev, Faithful image.chunks base dev (writeCompressedExt4 storeSectors img p base dev)) ↔
      noFill image.chunks ∧ Placed base image.chunks := by
  have hHeader := headerAt_of_load stored
  obtain ⟨-, -, -, -, hBlock, -⟩ := (checkCompressExt4_eq_zero hHeader partiSize).mp accepted
  have hWrite : ∀ dev, writeCompressedExt4 storeSectors img p base dev =
      runWith advance base dev image.chunks := by
    intro dev
    rw [writeCompressedExt4, hHeader.blockSize, hHeader.totalChunks, hBlock]
    exact writeLoop_chunks hHeader.chunks base dev
  simp only [hWrite]
  exact runWith_faithful_iff hBase image.chunks

def acceptedHeader : FileHeader :=
  { magic := 0xED26FF3A, major := 1, minor := 0, fileHeaderSize := 28, chunkHeaderSize := 12
    blockSize := 0x1000, crc32 := 0 }

theorem write_compressed_ext4_faithful_iff_two_blocks :
    ∃ (image : SparseImage) (img : Mem), load img 0 image.bytes.length = image.bytes ∧
      checkCompressExt4 img 0 8192 = some 0 ∧ blocks image.chunks = 2 ∧
      ∀ dev, Faithful image.chunks 64 dev (writeCompressedExt4 storeSectors img 0 64 dev) := by
  obtain ⟨data, hData⟩ : ∃ data : List UInt8, data.length = 4096 * 1 :=
    ⟨List.replicate 4096 0xaa, List.length_replicate⟩
  let cs : List Chunk := [.dontCare 1 (by decide), .raw 1 data hData (by omega)]
  let image : SparseImage := ⟨acceptedHeader, cs, by simp [cs, Chunk.count], by simp [cs]⟩
  have stored := load_store_same zero 0 image.bytes
  have accepted : checkCompressExt4 (store zero 0 image.bytes) 0 8192 = some 0 :=
    (checkCompressExt4_eq_zero (headerAt_of_load stored) 8192).mpr
      ⟨rfl, rfl, rfl, rfl, rfl, by simp [image, cs, Chunk.count]⟩
  refine ⟨image, store zero 0 image.bytes, stored, accepted, rfl,
    (write_compressed_ext4_faithful_iff image stored accepted (by decide)).mpr ⟨?_, ?_⟩⟩
  · simp [noFill, image, cs, Chunk.type]
  · intro pre c post hSplit hStores
    have hBlocks : blocks pre ≤ blocks image.chunks := by
      rw [show image.chunks = pre ++ c :: post from hSplit, blocks_append]
      omega
    have hTwo : blocks image.chunks = 2 := rfl
    refine ⟨fun d hd => ?_, by omega⟩
    have hMember : d ∈ cs := by
      grind
    have hCounts : ∀ e ∈ cs, e.count < 2 ^ 20 := by simp [cs, Chunk.count]
    exact hCounts d hMember

/-- A filled block never reaches the device. -/
theorem write_compressed_ext4_skips_fill :
    ∃ (image : SparseImage) (img : Mem), load img 0 image.bytes.length = image.bytes ∧
      checkCompressExt4 img 0 4096 = some 0 ∧
      ¬Faithful image.chunks 64 zero (writeCompressedExt4 storeSectors img 0 64 zero) := by
  let cs : List Chunk := [.fill 1 [1, 2, 3, 4] rfl (by decide)]
  let image : SparseImage := ⟨acceptedHeader, cs, by decide, by decide⟩
  have stored := load_store_same zero 0 image.bytes
  have hHeader := headerAt_of_load stored
  refine ⟨image, store zero 0 image.bytes, stored,
    (checkCompressExt4_eq_zero hHeader 4096).mpr (by decide), fun hFaithful => ?_⟩
  have hWrite : writeCompressedExt4 storeSectors (store zero 0 image.bytes) 0 64 zero = zero := by
    rw [writeCompressedExt4, hHeader.blockSize, hHeader.totalChunks]
    exact writeLoop_chunks hHeader.chunks 64 zero
  have hFill := hFaithful.fill [] 1 [1, 2, 3, 4] rfl (by decide) [] rfl
  rw [hWrite, load_succ, List.replicate_succ, List.flatten_cons, List.cons_append,
    List.cons.injEq] at hFill
  exact absurd hFill.1 (by decide)

end Fire3.Ext4Img

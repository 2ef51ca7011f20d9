import Fire3.Base.ByteMemory

/-!
`store_sparse_image` of `common/image-sparse.c`: the chunks of a sparse image in memory are
written to a storage one after the other, in blocks of the storage. The writes that were issued
are kept also if it fails later on.

All counts are 32 bits wide. There is memory for the buffers of the chunks, blocks of the
storage have a multiple of 4 bytes, and a block write reports all of its blocks or none.
-/

namespace Fire3.Fastboot
open ByteMemory

structure SparseStorage where
  blockSz : Nat
  start : Nat
  size : Nat
  deriving DecidableEq, Repr

structure SparseHeader where
  fileHdrSz : Nat
  chunkHdrSz : Nat
  blkSz : Nat
  totalBlks : Nat
  totalChunks : Nat
  deriving DecidableEq, Repr

def sparseParseHeader (img : Mem) : SparseHeader where
  fileHdrSz := readLE img 8 2
  chunkHdrSz := readLE img 10 2
  blkSz := readLE img 12 4
  totalBlks := readLE img 16 4
  totalChunks := readLE img 20 4

def isSparseImage (img : Mem) : Bool := readLE img 0 4 = 0xed26ff3a ∧ readLE img 4 2 = 1

inductive ChunkType
  | raw
  | fill
  | dontCare
  | crc32
  deriving DecidableEq, Repr

structure ChunkHeader where
  chunkType : ChunkType
  chunkSz : Nat
  totalSz : Nat
  deriving DecidableEq, Repr

def chunkTypeOf (n : Nat) : Option ChunkType :=
  if n = 0xCAC1 then some .raw
  else if n = 0xCAC2 then some .fill
  else if n = 0xCAC3 then some .dontCare
  else if n = 0xCAC4 then some .crc32
  else none

def chunkDataSize (h : SparseHeader) (c : ChunkHeader) : Nat :=
  (c.totalSz + 2 ^ 32 - h.chunkHdrSz) % 2 ^ 32

def sparseParseChunk (h : SparseHeader) (img : Mem) (data : Nat) : Option ChunkHeader := do
  let chunkType ← chunkTypeOf (readLE img data 2)
  let c : ChunkHeader := ⟨chunkType, readLE img (data + 4) 4, readLE img (data + 8) 4⟩
  match c.chunkType with
  | .raw =>
      if chunkDataSize h c % h.blkSz ≠ 0 then none
      else if chunkDataSize h c / h.blkSz ≠ c.chunkSz then none
      else some c
  | .fill => if chunkDataSize h c ≠ 4 then none else some c
  | .dontCare | .crc32 => some c

def blockSizeToStorage (size : Nat) (storage : SparseStorage) (h : SparseHeader) : Nat :=
  size * h.blkSz % 2 ^ 32 / storage.blockSz

structure SparseBuffer where
  data : List UInt8
  repeats : Nat

def sparseGetDataBuffer (h : SparseHeader) (c : ChunkHeader) (blkSz : Nat) (img : Mem) (data : Nat) :
    Option SparseBuffer :=
  match c.chunkType with
  | .raw => some ⟨load img data (chunkDataSize h c), 1⟩
  | .fill =>
      some ⟨(List.replicate (blkSz / 4) (load img data 4)).flatten,
        c.chunkSz * h.blkSz % 2 ^ 32 / blkSz⟩
  | .dontCare | .crc32 => none

def einval : Int := 22
def eio : Int := 5

structure Written where
  totalBlocks : Nat
  writes : List (Nat × List UInt8)

/-- The writes of one buffer; `ok k` tells whether write number `k` succeeds. An empty write
reports 0 blocks, which is a failure. -/
def issueBuffer (ok : Nat → Bool) (storage : SparseStorage) (start : Nat) (data : List UInt8) :
    Nat → Written → Written × Option Int
  | 0, w => (w, none)
  | n + 1, w =>
      let cnt := data.length / storage.blockSz
      let writes := w.writes ++
        [((start + w.totalBlocks) % 2 ^ 32, data.take (cnt * storage.blockSz))]
      if cnt = 0 ∨ ok w.writes.length = false then (⟨w.totalBlocks, writes⟩, some (-eio))
      else issueBuffer ok storage start data n ⟨(w.totalBlocks + cnt) % 2 ^ 32, writes⟩

def issueRequest (ok : Nat → Bool) (storage : SparseStorage) (start : Nat) (b : SparseBuffer)
    (w : Written) : Written × Option Int :=
  let blkcnt := b.data.length / storage.blockSz * b.repeats % 2 ^ 32
  if (start + w.totalBlocks + blkcnt) % 2 ^ 32 > (storage.start + storage.size) % 2 ^ 32 then
    (w, some (-einval))
  else issueBuffer ok storage start b.data b.repeats w

def issueChunks (ok : Nat → Bool) (storage : SparseStorage) (h : SparseHeader) (img : Mem)
    (start : Nat) : Nat → Nat → Nat → Written → (Nat × Written) × Option Int
  | 0, _, skipped, w => ((skipped, w), none)
  | n + 1, data, skipped, w =>
      match sparseParseChunk h img data with
      | none => ((skipped, w), some (-einval))
      | some c =>
          let data := data + h.chunkHdrSz
          if c.chunkType = .dontCare then
            issueChunks ok storage h img start n data
              ((skipped + blockSizeToStorage c.chunkSz storage h) % 2 ^ 32) w
          else
            match sparseGetDataBuffer h c storage.blockSz img data with
            | none => issueChunks ok storage h img start n (data + chunkDataSize h c) skipped w
            | some b =>
                match issueRequest ok storage start b w with
                | (w, some e) => ((skipped, w), some e)
                | (w, none) =>
                    issueChunks ok storage h img start n (data + chunkDataSize h c) skipped w

def firstBlock (storage : SparseStorage) (sessionId lastOffset : Nat) : Nat :=
  if sessionId > 0 then lastOffset else storage.start

def storeSparseImage (ok : Nat → Bool) (storage : SparseStorage) (sessionId lastOffset : Nat)
    (img : Mem) : List (Nat × List UInt8) × Int :=
  let h := sparseParseHeader img
  if h.blkSz % storage.blockSz ≠ 0 then ([], -einval)
  else
    match issueChunks ok storage h img (firstBlock storage sessionId lastOffset) h.totalChunks
      h.fileHdrSz 0 ⟨0, []⟩ with
    | ((_, w), some e) => (w.writes, e)
    | ((skipped, w), none) =>
        if (w.totalBlocks + skipped) % 2 ^ 32 ≠ blockSizeToStorage h.totalBlks storage h then
          (w.writes, -eio)
        else (w.writes, 0)

end Fire3.Fastboot

import Fire3.Fastboot.SparseStore

/-!
What `store_sparse_image` asks the storage to write. The chunks are read apart from the writing:
what a chunk stands for depends on the image alone.
-/

namespace Fire3.Fastboot
open ByteMemory

namespace SparseBuffer

def cnt (b : SparseBuffer) (blockSz : Nat) : Nat := b.data.length / blockSz

def blocks (b : SparseBuffer) (blockSz : Nat) : Nat := b.cnt blockSz * b.repeats

def part (b : SparseBuffer) (blockSz : Nat) : List UInt8 := b.data.take (b.cnt blockSz * blockSz)

end SparseBuffer

inductive Item
  | skip (blocks : Nat)
  | write (b : SparseBuffer)
  | nothing

def itemOf (storage : SparseStorage) (h : SparseHeader) (img : Mem) (data : Nat) (c : ChunkHeader) :
    Item × Nat :=
  if c.chunkType = .dontCare then (.skip (blockSizeToStorage c.chunkSz storage h), data)
  else
    match sparseGetDataBuffer h c storage.blockSz img data with
    | none => (.nothing, data + chunkDataSize h c)
    | some b => (.write b, data + chunkDataSize h c)

/-- The items of `n` chunks, up to the first chunk that is rejected; false if there is one. -/
def items (storage : SparseStorage) (h : SparseHeader) (img : Mem) : Nat → Nat → List Item × Bool
  | 0, _ => ([], true)
  | n + 1, data =>
      match sparseParseChunk h img data with
      | none => ([], false)
      | some c =>
          let item := itemOf storage h img (data + h.chunkHdrSz) c
          let rest := items storage h img n item.2
          (item.1 :: rest.1, rest.2)

def requests (is : List Item) : List SparseBuffer :=
  is.filterMap fun
    | .write b => some b
    | .skip _ | .nothing => none

def skips (is : List Item) : Nat :=
  (is.map fun
    | .skip n => n
    | .write _ | .nothing => 0).sum

section
variable (n : Nat) (b : SparseBuffer) (is : List Item)

@[simp] theorem requests_skip : requests (.skip n :: is) = requests is := rfl

@[simp] theorem requests_nothing : requests (.nothing :: is) = requests is := rfl

@[simp] theorem requests_write : requests (.write b :: is) = b :: requests is := rfl

@[simp] theorem skips_skip : skips (.skip n :: is) = n + skips is := by simp [skips]

@[simp] theorem skips_nothing : skips (.nothing :: is) = skips is := by simp [skips]

@[simp] theorem skips_write : skips (.write b :: is) = skips is := by simp [skips]

end

def issueAll (ok : Nat → Bool) (storage : SparseStorage) (start : Nat) :
    List SparseBuffer → Written → Written × Option Int
  | [], w => (w, none)
  | b :: bs, w =>
      match issueRequest ok storage start b w with
      | (w, some e) => (w, some e)
      | (w, none) => issueAll ok storage start bs w

structure EndsAs (is : List Item) (accepted : Bool) (skipped : Nat) (all : Written × Option Int)
    (r : (Nat × Written) × Option Int) : Prop where
  written : r.1.2 = all.1
  result : r.2 = all.2.or (if accepted then none else some (-einval))
  skipped : r.2 = none → r.1.1 % 2 ^ 32 = (skipped + skips is) % 2 ^ 32

theorem issueChunks_endsAs (ok : Nat → Bool) (storage : SparseStorage) (h : SparseHeader)
    (img : Mem) (start n data skipped : Nat) (w : Written) :
    EndsAs (items storage h img n data).1 (items storage h img n data).2 skipped
      (issueAll ok storage start (requests (items storage h img n data).1) w)
      (issueChunks ok storage h img start n data skipped w) := by
  induction n generalizing data skipped w with
  | zero => exact ⟨rfl, rfl, fun _ => rfl⟩
  | succ n ih =>
      rw [items, issueChunks]
      cases sparseParseChunk h img data with
      | none => exact ⟨rfl, rfl, fun hNone => by cases hNone⟩
      | some c =>
          dsimp only [itemOf]
          split
          · have hRest := ih (data + h.chunkHdrSz)
              ((skipped + blockSizeToStorage c.chunkSz storage h) % 2 ^ 32) w
            refine ⟨hRest.written, hRest.result, fun hNone => ?_⟩
            rw [hRest.skipped hNone, skips_skip, Nat.mod_add_mod, Nat.add_assoc]
          · cases sparseGetDataBuffer h c storage.blockSz img (data + h.chunkHdrSz) with
            | none =>
                have hRest := ih (data + h.chunkHdrSz + chunkDataSize h c) skipped w
                refine ⟨hRest.written, hRest.result, ?_⟩
                dsimp only
                rw [skips_nothing]
                exact hRest.skipped
            | some b =>
                dsimp only [requests_write, issueAll]
                obtain ⟨w', _ | e⟩ := issueRequest ok storage start b w
                · have hRest := ih (data + h.chunkHdrSz + chunkDataSize h c) skipped w'
                  refine ⟨hRest.written, hRest.result, ?_⟩
                  rw [skips_write]
                  exact hRest.skipped
                · exact ⟨rfl, rfl, fun hNone => by cases hNone⟩

section
variable {ok : Nat → Bool} {storage : SparseStorage} {start : Nat} {b : SparseBuffer} {w : Written}

theorem issueAll_of_error (h : (issueRequest ok storage start b w).2 ≠ none)
    (bs : List SparseBuffer) :
    issueAll ok storage start (b :: bs) w = issueRequest ok storage start b w := by
  rw [issueAll]
  grind

theorem issueAll_of_none {w' : Written} (h : issueRequest ok storage start b w = (w', none))
    (bs : List SparseBuffer) :
    issueAll ok storage start (b :: bs) w = issueAll ok storage start bs w' := by
  rw [issueAll, h]

theorem issueBuffer_error {n : Nat} {data : List UInt8} :
    (issueBuffer ok storage start data n w).2 ≠ some 0 := by
  induction n generalizing w with
  | zero => simp [issueBuffer]
  | succ n ih =>
      rw [issueBuffer]
      split
      · simp [eio]
      · exact ih

theorem issueAll_error {bs : List SparseBuffer} : (issueAll ok storage start bs w).2 ≠ some 0 := by
  induction bs generalizing w with
  | nil => simp [issueAll]
  | cons b bs ih =>
      by_cases hEnd : (issueRequest ok storage start b w).2 = none
      · rw [issueAll_of_none (Prod.ext rfl hEnd)]
        exact ih
      · rw [issueAll_of_error hEnd, issueRequest]
        split
        · simp [einval]
        · exact issueBuffer_error

end

def imageItems (storage : SparseStorage) (img : Mem) : List Item × Bool :=
  let h := sparseParseHeader img
  items storage h img h.totalChunks h.fileHdrSz

def pieces (blockSz : Nat) (bs : List SparseBuffer) : List (List UInt8) :=
  bs.flatMap fun b => List.replicate b.repeats (b.part blockSz)

def sparsePieces (storage : SparseStorage) (img : Mem) : Option (List (List UInt8)) :=
  if (imageItems storage img).2 then
    some (pieces storage.blockSz (requests (imageItems storage img).1))
  else none

section
variable {ok : Nat → Bool} {storage : SparseStorage} {sessionId lastOffset : Nat} {img : Mem}

/-- `store_sparse_image` in terms of the items: it issues the requests, and returns 0 if there is
no error and the blocks add up. -/
theorem storeSparseImage_eq (hBlk : (sparseParseHeader img).blkSz % storage.blockSz = 0) :
    let r := storeSparseImage ok storage sessionId lastOffset img
    let all := issueAll ok storage (firstBlock storage sessionId lastOffset)
      (requests (imageItems storage img).1) ⟨0, []⟩
    r.1 = all.1.writes ∧
      (r.2 = 0 ↔ all.2 = none ∧ (imageItems storage img).2 = true ∧
        (all.1.totalBlocks + skips (imageItems storage img).1) % 2 ^ 32 =
          blockSizeToStorage (sparseParseHeader img).totalBlks storage (sparseParseHeader img)) := by
  have hEnd := issueChunks_endsAs ok storage (sparseParseHeader img) img
    (firstBlock storage sessionId lastOffset) (sparseParseHeader img).totalChunks
    (sparseParseHeader img).fileHdrSz 0 ⟨0, []⟩
  have hError := @issueAll_error ok storage (firstBlock storage sessionId lastOffset) ⟨0, []⟩
    (requests (imageItems storage img).1)
  rw [← imageItems] at hEnd
  dsimp only
  rw [storeSparseImage, if_neg (not_not.mpr hBlk)]
  generalize issueChunks ok storage (sparseParseHeader img) img _ _ _ _ _ = r at hEnd ⊢
  generalize issueAll ok storage _ _ _ = all at hEnd hError ⊢
  obtain ⟨⟨skipped, w⟩, result⟩ := r
  obtain ⟨rfl, hResult, hSkipped⟩ := hEnd
  dsimp only at hResult hSkipped ⊢
  cases result with
  | some e =>
      -- neither an error of a request nor that of a chunk is 0
      have hNonzero : e ≠ 0 := by
        rintro rfl
        rcases Option.or_eq_some_iff.mp hResult.symm with hAll | ⟨-, hRejected⟩
        · exact hError hAll
        · split at hRejected <;> simp [einval] at hRejected
      refine ⟨rfl, fun h => absurd h hNonzero, fun ⟨hAll, hAccepted, _⟩ => ?_⟩
      simp [hAll, hAccepted] at hResult
  | none =>
      obtain ⟨hAll, hAccepted⟩ := Option.or_eq_none_iff.mp hResult.symm
      have hCount : (all.1.totalBlocks + skipped) % 2 ^ 32 =
          (all.1.totalBlocks + skips (imageItems storage img).1) % 2 ^ 32 := by
        rw [Nat.add_mod, hSkipped rfl, Nat.zero_add, ← Nat.add_mod]
      dsimp only
      rw [hCount, hAll]
      split_ifs with hTotal
      · exact ⟨rfl, fun h => absurd h (by simp [eio]), fun h => absurd h.2.2 hTotal⟩
      · exact ⟨rfl, fun _ => ⟨rfl, by simpa using hAccepted, not_not.mp hTotal⟩, fun _ => rfl⟩

theorem storeSparseImage_eq_zero_dvd
    (h : (storeSparseImage ok storage sessionId lastOffset img).2 = 0) :
    (sparseParseHeader img).blkSz % storage.blockSz = 0 := by
  by_contra hBlk
  rw [storeSparseImage, if_pos hBlk] at h
  simp [einval] at h

end

end Fire3.Fastboot

import Fire3.Base.Lists
import Fire3.Fastboot.SparseFormat
import Mathlib.Algebra.Order.BigOperators.Group.List

/-!
When a sparse image is stored where it belongs.

The writer puts the data of all chunks one behind the other, so an image is stored right only
if no gap lies before data. Then the counts must not wrap, and the test against the end of the
partition must let every request pass.
-/

namespace Fire3.Fastboot
open ByteMemory

variable {blockSz : Nat} {cs : List SparseChunk} {bs : List SparseBuffer}

section
variable {storage : BlockStorage}

def toPatch (blockSz : Nat) (w : Nat × List UInt8) : Patch := (blockSz * w.1, w.2)

def SparseBuffer.expand (b : SparseBuffer) (blockSz : Nat) : List UInt8 :=
  (List.replicate b.repeats (b.part blockSz)).flatten

def expandAll (blockSz : Nat) (bs : List SparseBuffer) : List UInt8 :=
  bs.flatMap (·.expand blockSz)

@[simp] theorem expandAll_cons (blockSz : Nat) (b : SparseBuffer) (bs : List SparseBuffer) :
    expandAll blockSz (b :: bs) = b.expand blockSz ++ expandAll blockSz bs := List.flatMap_cons ..

theorem length_expand (b : SparseBuffer) (blockSz : Nat) :
    (b.expand blockSz).length = blockSz * b.blocks blockSz := by
  simp only [SparseBuffer.expand, List.length_flatten, List.map_replicate, List.sum_replicate_nat,
    length_part, SparseBuffer.blocks]
  ring

theorem length_expandAll (blockSz : Nat) (bs : List SparseBuffer) :
    (expandAll blockSz bs).length = blockSz * allBlocks blockSz bs := by
  induction bs with
  | nil => rfl
  | cons b bs ih =>
      rw [expandAll_cons, List.length_append, ih, length_expand, allBlocks_cons, Nat.mul_add]

def Addressed (blockSz : Nat) : Nat → List SparseBuffer → Prop
  | _, [] => True
  | first, b :: bs =>
      (b.blocks blockSz ≠ 0 → first + b.lead blockSz < 2 ^ 32) ∧
        Addressed blockSz (first + b.blocks blockSz) bs

theorem addressed_of_empty {first : Nat} (h : allBlocks blockSz bs = 0) :
    Addressed blockSz first bs := by
  induction bs generalizing first with
  | nil => trivial
  | cons b bs ih =>
      rw [allBlocks_cons] at h
      exact ⟨fun hBlocks => absurd (by omega) hBlocks, ih (by omega)⟩

theorem patchAll_writesAt {cnt : Nat} {data : List UInt8} (hData : data.length = cnt * blockSz)
    {n first : Nat} (h : cnt * n ≠ 0 → first + cnt * (n - 1) < 2 ^ 32) (m : Mem) :
    patchAll m ((writesAt cnt data n first).map (toPatch blockSz)) =
      store m (blockSz * first) (List.replicate n data).flatten := by
  induction n generalizing first m with
  | zero => simp [writesAt, patchAll]
  | succ n ih =>
      have hStore : store m (blockSz * (first % 2 ^ 32)) data = store m (blockSz * first) data := by
        by_cases hCnt : cnt = 0
        · rw [hCnt, Nat.zero_mul] at hData
          rw [List.eq_nil_of_length_eq_zero hData, store_nil, store_nil]
        · grind
      rw [writesAt, List.map_cons]
      change patchAll (store m (blockSz * (first % 2 ^ 32)) data) _ = _
      rw [hStore, ih, List.replicate_succ, List.flatten_cons, store_append, hData, Nat.mul_add,
        Nat.mul_comm cnt]
      intro hRest
      have hCnt : cnt ≠ 0 := fun h0 => hRest (by rw [h0, Nat.zero_mul])
      have hFirst := h (Nat.mul_ne_zero hCnt (Nat.succ_ne_zero n))
      obtain ⟨k, rfl⟩ : ∃ k, n = k + 1 :=
        Nat.exists_eq_succ_of_ne_zero fun h0 => hRest (by rw [h0, Nat.mul_zero])
      grind

theorem patchAll_allWrites {first : Nat} (h : Addressed blockSz first bs) (m : Mem) :
    patchAll m ((allWrites blockSz first bs).map (toPatch blockSz)) =
      store m (blockSz * first) (expandAll blockSz bs) := by
  induction bs generalizing first m with
  | nil => simp [allWrites, patchAll, expandAll]
  | cons b bs ih =>
      rw [allWrites, List.map_append, patchAll_append, SparseBuffer.writes,
        patchAll_writesAt (length_part b blockSz) h.1, ih h.2, expandAll_cons, store_append,
        length_expand, Nat.mul_add, SparseBuffer.expand]

/-- A byte that is written lies below the end of the requests; the last byte of all is written
only if no block number wraps. -/
theorem covered_allWrites {first x : Nat}
    (h : ∃ w ∈ allWrites blockSz first bs, (toPatch blockSz w).Covers x) :
    x < blockSz * (first + allBlocks blockSz bs) ∧
      (blockSz * (first + allBlocks blockSz bs) ≤ x + 1 →
        first < 2 ^ 32 ∧ Addressed blockSz first bs) := by
  induction bs generalizing first with
  | nil => simp [allWrites] at h
  | cons b bs ih =>
      obtain ⟨w, hw, hCovers⟩ := h
      rw [allBlocks_cons, ← Nat.add_assoc]
      rw [allWrites, List.mem_append] at hw
      cases hw with
      | inl hHead =>
          obtain ⟨i, hi, rfl⟩ := mem_writesAt.mp hHead
          obtain ⟨hLow, hHigh⟩ := hCovers
          dsimp only [toPatch] at hLow hHigh
          rw [length_part, Nat.mul_comm (b.cnt blockSz) blockSz, ← Nat.mul_add] at hHigh
          have hWrap : (first + b.cnt blockSz * i) % 2 ^ 32 ≤ first + b.cnt blockSz * i :=
            Nat.mod_le _ _
          have hNumber : (first + b.cnt blockSz * i) % 2 ^ 32 < 2 ^ 32 := Nat.mod_lt _ (by decide)
          have hBlocks : b.cnt blockSz * i + b.cnt blockSz ≤ b.blocks blockSz :=
            (Nat.mul_succ ..).symm.trans_le (Nat.mul_le_mul_left _ hi)
          generalize (first + b.cnt blockSz * i) % 2 ^ 32 = a at hWrap hNumber hLow hHigh
          refine ⟨hHigh.trans_le (Nat.mul_le_mul_left _ (by omega)), fun hEnd => ?_⟩
          -- the write ends where the requests end, so its number did not wrap
          have hReach := Nat.le_of_mul_le_mul_left (hEnd.trans hHigh)
            (Nat.pos_of_mul_pos_right (Nat.zero_lt_of_lt hHigh))
          have hLead : b.lead blockSz + b.cnt blockSz = b.blocks blockSz := by
            unfold SparseBuffer.lead SparseBuffer.blocks
            rw [← Nat.mul_succ, Nat.succ_eq_add_one, Nat.sub_add_cancel (by omega)]
          exact ⟨by omega, fun _ => by omega, addressed_of_empty (by omega)⟩
      | inr hTail =>
          obtain ⟨hHigh, hLast⟩ := ih ⟨w, hTail, hCovers⟩
          refine ⟨hHigh, fun hEnd => ?_⟩
          obtain ⟨hFirst, hRest⟩ := hLast hEnd
          have hLead : b.lead blockSz ≤ b.blocks blockSz :=
            Nat.mul_le_mul_left _ (Nat.sub_le ..)
          exact ⟨by omega, fun _ => by omega, hRest⟩

end

section
variable {storage : BlockStorage} {blkSz : Nat}

theorem BlockStorage.four_dvd (storage : BlockStorage) : 4 ∣ storage.blockSz := by
  rw [storage.blockSz_eq]
  exact pow_dvd_pow 2 storage.two_le_log

theorem BlockStorage.dvd_word (storage : BlockStorage) : storage.blockSz ∣ 2 ^ 32 := by
  rw [storage.blockSz_eq]
  exact pow_dvd_pow 2 storage.log_lt.le

def requestsOf (storage : BlockStorage) (blkSz : Nat) (cs : List SparseChunk) : List SparseBuffer :=
  requests (cs.map (·.item storage.toSparseStorage blkSz))

theorem expand_of_dvd {b : SparseBuffer} {blockSz : Nat} (h : blockSz ∣ b.data.length) :
    b.expand blockSz = (List.replicate b.repeats b.data).flatten := by
  rw [SparseBuffer.expand, SparseBuffer.part, SparseBuffer.cnt, Nat.div_mul_cancel h,
    List.take_length]

theorem flatten_replicate_flatten (r k : Nat) (p : List UInt8) :
    (List.replicate r (List.replicate k p).flatten).flatten =
      (List.replicate (r * k) p).flatten := by
  rw [← List.flatten_replicate_replicate, List.flatten_flatten, List.map_replicate]

theorem length_flatten_replicate (k : Nat) {p : List UInt8} (hp : p.length = 4) :
    (List.replicate k p).flatten.length = k * 4 := by
  rw [List.length_flatten, List.map_replicate, List.sum_replicate_nat, hp]

theorem expandAll_item (hBlk : storage.blockSz ∣ blkSz) {c : SparseChunk}
    (hc : c.WellFormed blkSz) :
    (expandAll storage.blockSz (requestsOf storage blkSz [c])).length ≤ (c.expanded blkSz).length ∧
      ((c.expanded blkSz).length < 2 ^ 32 →
        expandAll storage.blockSz (requestsOf storage blkSz [c]) = c.expanded blkSz) := by
  cases c with
  | raw data =>
      have hSame : expandAll storage.blockSz (requestsOf storage blkSz [.raw data]) = data := by
        have hDvd : storage.blockSz ∣ data.length := hBlk.trans hc
        simp [requestsOf, SparseChunk.item, requests, expandAll,
          @expand_of_dvd ⟨data, 1⟩ storage.blockSz hDvd]
      rw [hSame]
      exact ⟨le_refl _, fun _ => rfl⟩
  | fill count pattern =>
      have hFour : storage.blockSz / 4 * 4 = storage.blockSz := Nat.div_mul_cancel storage.four_dvd
      have hSize : (count * blkSz) / 4 * 4 = count * blkSz :=
        Nat.div_mul_cancel (Nat.dvd_mul_left_of_dvd (storage.four_dvd.trans hBlk) _)
      have hBlock := length_flatten_replicate (storage.blockSz / 4) hc
      rw [hFour] at hBlock
      have hFill : expandAll storage.blockSz (requestsOf storage blkSz [.fill count pattern]) =
          (List.replicate (count * blkSz % 2 ^ 32 / storage.blockSz * (storage.blockSz / 4))
            pattern).flatten := by
        change expandAll _ [⟨(List.replicate (storage.blockSz / 4) pattern).flatten, _⟩] = _
        rw [expandAll, List.flatMap_singleton, expand_of_dvd (dvd_of_eq hBlock.symm),
          flatten_replicate_flatten]
      rw [hFill, SparseChunk.expanded, length_flatten_replicate _ hc, length_flatten_replicate _ hc,
        hSize, Nat.mul_assoc, hFour]
      refine ⟨(Nat.div_mul_le_self ..).trans (Nat.mod_le ..), fun hSmall => ?_⟩
      rw [Nat.mod_eq_of_lt hSmall]
      grind [Nat.eq_of_mul_eq_mul_right, Nat.mul_assoc, Nat.div_mul_cancel, Nat.dvd_mul_left_of_dvd]
  | dontCare count => exact ⟨le_refl _, fun _ => rfl⟩
  | crc32 value => exact ⟨le_refl _, fun _ => rfl⟩

theorem requestsOf_cons (storage : BlockStorage) (blkSz : Nat) (c : SparseChunk)
    (cs : List SparseChunk) :
    requestsOf storage blkSz (c :: cs) =
      requestsOf storage blkSz [c] ++ requestsOf storage blkSz cs := by
  cases c <;> rfl

theorem expandAll_requestsOf (hBlk : storage.blockSz ∣ blkSz) (hcs : ∀ c ∈ cs, c.WellFormed blkSz) :
    (expandAll storage.blockSz (requestsOf storage blkSz cs)).length ≤ (dataOf blkSz cs).length ∧
      ((dataOf blkSz cs).length < 2 ^ 32 →
        expandAll storage.blockSz (requestsOf storage blkSz cs) = dataOf blkSz cs) := by
  induction cs with
  | nil => exact ⟨le_refl _, fun _ => rfl⟩
  | cons c cs ih =>
      rw [List.forall_mem_cons] at hcs
      obtain ⟨hLe, hSame⟩ := expandAll_item hBlk hcs.1
      obtain ⟨hLeRest, hSameRest⟩ := ih hcs.2
      rw [requestsOf_cons, expandAll, List.flatMap_append, dataOf_cons, List.length_append,
        List.length_append]
      refine ⟨Nat.add_le_add hLe hLeRest, fun hSmall => ?_⟩
      exact congrArg₂ _ (hSame (by omega)) (hSameRest (by omega))

def countedGaps (blkSz : Nat) (cs : List SparseChunk) : Nat :=
  (cs.map fun c => c.gap blkSz % 2 ^ 32).sum

theorem countedGaps_le (blkSz : Nat) (cs : List SparseChunk) :
    countedGaps blkSz cs ≤ gaps blkSz cs :=
  List.sum_le_sum fun _ _ => Nat.mod_le ..

theorem countedGaps_mod (blkSz : Nat) (cs : List SparseChunk) :
    countedGaps blkSz cs % 2 ^ 32 = gaps blkSz cs % 2 ^ 32 := by
  induction cs with
  | nil => rfl
  | cons c cs ih =>
      grind [gaps_cons, Nat.add_mod, countedGaps]

theorem skips_items (hBlk : storage.blockSz ∣ blkSz) (cs : List SparseChunk) :
    storage.blockSz * skips (cs.map (·.item storage.toSparseStorage blkSz)) =
      countedGaps blkSz cs := by
  induction cs with
  | nil => rfl
  | cons c cs ih =>
      rw [countedGaps, List.map_cons, List.map_cons, List.sum_cons, ← countedGaps, ← ih]
      cases c with
      | raw data | fill count pattern | crc32 value => simp [SparseChunk.item, SparseChunk.gap]
      | dontCare count =>
          have hDvd : storage.blockSz ∣ count * blkSz % 2 ^ 32 :=
            (Nat.dvd_mod_iff storage.dvd_word).mpr (Nat.dvd_mul_left_of_dvd hBlk _)
          rw [SparseChunk.item, skips_skip, Nat.mul_add, Nat.mul_div_cancel' hDvd, SparseChunk.gap]

def GapFree (blkSz : Nat) (cs : List SparseChunk) : Prop :=
  ∀ pre c post, cs = pre ++ c :: post → c.gap blkSz ≠ 0 → dataOf blkSz post = []

theorem gaps_eq_zero {pre post : List SparseChunk} {c : SparseChunk} (h : GapFree blkSz cs)
    (hSplit : cs = pre ++ c :: post) (hData : c.expanded blkSz ≠ []) : gaps blkSz pre = 0 := by
  refine List.sum_eq_zero fun n hn => ?_
  obtain ⟨d, hd, rfl⟩ := List.mem_map.mp hn
  by_contra hGap
  obtain ⟨as, bs, rfl⟩ := List.append_of_mem hd
  have hNone := h as d (bs ++ c :: post) (by simp [hSplit]) hGap
  simp [hData] at hNone

structure PlacedAt (storage : BlockStorage) (blkSz : Nat) (cs : List SparseChunk) (dev dev' : Mem) :
    Prop where
  data : ∀ pre c post, cs = pre ++ c :: post →
    load dev' (storage.blockSz * (storage.start + expandedSize blkSz pre / storage.blockSz))
      (c.expanded blkSz).length = c.expanded blkSz
  other : ∀ x, (∀ pre c post, cs = pre ++ c :: post →
    ¬Patch.Covers (storage.blockSz * (storage.start + expandedSize blkSz pre / storage.blockSz),
      c.expanded blkSz) x) → dev' x = dev x

theorem chunk_address (hBlk : storage.blockSz ∣ blkSz) {pre : List SparseChunk}
    (hPre : ∀ c ∈ pre, c.WellFormed blkSz) :
    storage.blockSz * (storage.start + expandedSize blkSz pre / storage.blockSz) =
      storage.blockSz * storage.start + (dataOf blkSz pre).length + gaps blkSz pre := by
  have hDvd : storage.blockSz ∣ expandedSize blkSz pre := Nat.dvd_mul_left_of_dvd hBlk _
  rw [Nat.mul_add, Nat.mul_div_cancel' hDvd, expandedSize_eq hPre (storage.four_dvd.trans hBlk),
    Nat.add_assoc]

theorem exists_chunk {cs : List SparseChunk} {i : Nat} (h : i < (dataOf blkSz cs).length) :
    ∃ pre c post, cs = pre ++ c :: post ∧ (dataOf blkSz pre).length ≤ i ∧
      i < (dataOf blkSz pre).length + (c.expanded blkSz).length := by
  induction cs generalizing i with
  | nil => simp [dataOf] at h
  | cons c cs ih =>
      rw [dataOf_cons, List.length_append] at h
      by_cases hHead : i < (c.expanded blkSz).length
      · exact ⟨[], c, cs, rfl, Nat.zero_le _, by simpa [dataOf] using hHead⟩
      · obtain ⟨pre, d, post, rfl, hLow, hHigh⟩ := @ih (i - (c.expanded blkSz).length) (by omega)
        grind [dataOf_cons, List.length_append]

theorem placedAt_store (hBlk : storage.blockSz ∣ blkSz) (hcs : ∀ c ∈ cs, c.WellFormed blkSz)
    (hGap : GapFree blkSz cs) (dev : Mem) :
    PlacedAt storage blkSz cs dev
      (store dev (storage.blockSz * storage.start) (dataOf blkSz cs)) where
  data := by
    rintro pre c post rfl
    by_cases hData : c.expanded blkSz = []
    · rw [hData]
      rfl
    · rw [chunk_address hBlk fun d hd => hcs d (List.mem_append_left _ hd),
        gaps_eq_zero hGap rfl hData, Nat.add_zero]
      have hLoad := load_store_same dev (storage.blockSz * storage.start)
        (dataOf blkSz (pre ++ c :: post))
      rw [dataOf_append, dataOf_cons] at hLoad ⊢
      exact load_of_append hLoad
  other := by
    intro x hOutside
    by_cases hLow : x < storage.blockSz * storage.start
    · exact store_below _ _ _ _ hLow
    · refine store_above _ _ _ _ (Nat.not_lt.mp fun hHigh => ?_)
      obtain ⟨pre, c, post, rfl, hFirst, hLast⟩ :=
        @exists_chunk blkSz cs (x - storage.blockSz * storage.start) (by omega)
      have hData : c.expanded blkSz ≠ [] := by
        grind
      refine hOutside pre c post rfl ?_
      rw [chunk_address hBlk fun d hd => hcs d (List.mem_append_left _ hd),
        gaps_eq_zero hGap rfl hData]
      constructor
      · dsimp only
        omega
      · dsimp only
        omega

end

end Fire3.Fastboot

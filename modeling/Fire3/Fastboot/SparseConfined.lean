import Fire3.Fastboot.SparseTrace
import Mathlib.Algebra.Order.Group.Nat
import Mathlib.Algebra.Order.Monoid.Canonical.Basic

/-!
Which blocks a sparse image reaches.

The requests of an image follow each other on the storage, from the first block of the session
on. Block numbers are counted in 32 bits, and so is the test against the end of the partition:
a request is inside if it starts in the partition and ends there without a wrap.
-/

namespace Fire3.Fastboot
open ByteMemory

variable {t : Nat} {b : SparseBuffer}

def writesAt (cnt : Nat) (data : List UInt8) : Nat → Nat → List (Nat × List UInt8)
  | 0, _ => []
  | n + 1, first => (first % 2 ^ 32, data) :: writesAt cnt data n (first + cnt)

theorem mem_writesAt {cnt n first : Nat} {data : List UInt8} {w : Nat × List UInt8} :
    w ∈ writesAt cnt data n first ↔ ∃ i < n, w = ((first + cnt * i) % 2 ^ 32, data) := by
  induction n generalizing first with
  | zero => simp [writesAt]
  | succ n ih =>
      rw [writesAt, List.mem_cons, ih]
      constructor
      · rintro (rfl | ⟨i, hi, rfl⟩)
        · exact ⟨0, by omega, by rw [Nat.mul_zero, Nat.add_zero]⟩
        · exact ⟨i + 1, by omega, by rw [Nat.mul_succ, Nat.add_assoc, Nat.add_comm cnt]⟩
      · rintro ⟨_ | i, hi, rfl⟩
        · exact .inl (by rw [Nat.mul_zero, Nat.add_zero])
        · exact .inr ⟨i, by omega, by rw [Nat.mul_succ, Nat.add_assoc, Nat.add_comm cnt]⟩

theorem writesAt_snd (cnt : Nat) (data : List UInt8) (n first : Nat) :
    (writesAt cnt data n first).map Prod.snd = List.replicate n data := by
  induction n generalizing first with
  | zero => rfl
  | succ n ih => rw [writesAt, List.map_cons, ih, List.replicate_succ]

theorem length_writesAt (cnt : Nat) (data : List UInt8) (n first : Nat) :
    (writesAt cnt data n first).length = n := by
  rw [← List.length_map Prod.snd, writesAt_snd, List.length_replicate]

namespace SparseBuffer

def writes (b : SparseBuffer) (blockSz first : Nat) : List (Nat × List UInt8) :=
  writesAt (b.cnt blockSz) (b.part blockSz) b.repeats first

def lead (b : SparseBuffer) (blockSz : Nat) : Nat := b.cnt blockSz * (b.repeats - 1)

def Solid (b : SparseBuffer) (blockSz : Nat) : Prop := b.cnt blockSz ≠ 0 ∨ b.repeats = 0

end SparseBuffer

section
variable {ok : Nat → Bool} {storage : SparseStorage} {start : Nat}

theorem issueBuffer_writes (b : SparseBuffer) (n t : Nat) (ws : List (Nat × List UInt8)) :
    let r := issueBuffer ok storage start b.data n ⟨t % 2 ^ 32, ws⟩
    (∃ k ≤ n, r.1.writes =
      ws ++ writesAt (b.cnt storage.blockSz) (b.part storage.blockSz) k (start + t)) ∧
    (r.2 = none → (b.cnt storage.blockSz ≠ 0 ∨ n = 0) ∧
      r.1 = ⟨(t + b.cnt storage.blockSz * n) % 2 ^ 32,
        ws ++ writesAt (b.cnt storage.blockSz) (b.part storage.blockSz) n (start + t)⟩) := by
  induction n generalizing t ws with
  | zero => exact ⟨⟨0, le_refl _, by simp [issueBuffer, writesAt]⟩,
      fun _ => ⟨.inr rfl, by simp [issueBuffer, writesAt]⟩⟩
  | succ n ih =>
      dsimp only
      rw [issueBuffer]
      dsimp only
      rw [Nat.add_mod_mod, Nat.mod_add_mod]
      split
      · exact ⟨⟨1, by omega, rfl⟩, fun hNone => by cases hNone⟩
      · obtain ⟨⟨k, hk, hWrites⟩, hEnd⟩ := ih (t + b.data.length / storage.blockSz)
          (ws ++ [((start + t) % 2 ^ 32, b.data.take (b.data.length / storage.blockSz *
            storage.blockSz))])
        refine ⟨⟨k + 1, by omega, ?_⟩, fun hNone => ?_⟩
        · rw [hWrites, List.append_assoc, ← Nat.add_assoc]
          rfl
        · rename_i hGood
          rw [not_or] at hGood
          rw [(hEnd hNone).2, List.append_assoc, ← Nat.add_assoc]
          refine ⟨.inl hGood.1, ?_⟩
          congr 2
          unfold SparseBuffer.cnt
          ring

theorem issueBuffer_none_iff (b : SparseBuffer) (n : Nat) (w : Written) :
    (issueBuffer ok storage start b.data n w).2 = none ↔
      (b.cnt storage.blockSz ≠ 0 ∨ n = 0) ∧ ∀ k < n, ok (w.writes.length + k) = true := by
  induction n generalizing w with
  | zero => simp [issueBuffer]
  | succ n ih =>
      rw [issueBuffer, Nat.forall_lt_succ_left]
      rw [← SparseBuffer.cnt]
      split_ifs with hFail
      · grind
      · rw [not_or, Bool.not_eq_false] at hFail
        rw [ih]
        simp only [List.length_append, List.length_singleton, hFail, Nat.add_zero]
        grind

end

section
variable {storage : SparseStorage}

def Passes (storage : SparseStorage) (first : Nat) (b : SparseBuffer) : Prop :=
  (first + b.blocks storage.blockSz) % 2 ^ 32 ≤ (storage.start + storage.size) % 2 ^ 32

def Accepts (storage : SparseStorage) : Nat → List SparseBuffer → Prop
  | _, [] => True
  | first, b :: bs =>
      Passes storage first b ∧ b.Solid storage.blockSz ∧
        Accepts storage (first + b.blocks storage.blockSz) bs

def allWrites (blockSz : Nat) : Nat → List SparseBuffer → List (Nat × List UInt8)
  | _, [] => []
  | first, b :: bs => b.writes blockSz first ++ allWrites blockSz (first + b.blocks blockSz) bs

def allBlocks (blockSz : Nat) (bs : List SparseBuffer) : Nat := (bs.map (·.blocks blockSz)).sum

@[simp] theorem allBlocks_nil (blockSz : Nat) : allBlocks blockSz [] = 0 := rfl

@[simp] theorem allBlocks_cons (blockSz : Nat) (b : SparseBuffer) (bs : List SparseBuffer) :
    allBlocks blockSz (b :: bs) = b.blocks blockSz + allBlocks blockSz bs := by
  simp [allBlocks]

theorem issueRequest_of_not_passes (ok : Nat → Bool) {start : Nat}
    (h : ¬Passes storage (start + t) b) (ws : List (Nat × List UInt8)) :
    issueRequest ok storage start b ⟨t % 2 ^ 32, ws⟩ =
      (⟨t % 2 ^ 32, ws⟩, some (-einval)) := by
  unfold Passes SparseBuffer.blocks SparseBuffer.cnt at h
  rw [issueRequest]
  grind

theorem issueRequest_of_passes (ok : Nat → Bool) {start : Nat} (h : Passes storage (start + t) b)
    (ws : List (Nat × List UInt8)) :
    issueRequest ok storage start b ⟨t % 2 ^ 32, ws⟩ =
      issueBuffer ok storage start b.data b.repeats ⟨t % 2 ^ 32, ws⟩ := by
  unfold Passes SparseBuffer.blocks SparseBuffer.cnt at h
  rw [issueRequest]
  grind

theorem issueRequest_cases (ok : Nat → Bool) (start t : Nat) (b : SparseBuffer)
    (ws : List (Nat × List UInt8)) :
    let r := issueRequest ok storage start b ⟨t % 2 ^ 32, ws⟩
    (r.2 ≠ none ∧ ∃ k ≤ b.repeats, (k ≠ 0 → Passes storage (start + t) b) ∧ r.1.writes =
      ws ++ writesAt (b.cnt storage.blockSz) (b.part storage.blockSz) k (start + t)) ∨
    (Passes storage (start + t) b ∧ b.Solid storage.blockSz ∧
      r = (⟨(t + b.blocks storage.blockSz) % 2 ^ 32,
        ws ++ b.writes storage.blockSz (start + t)⟩, none)) := by
  by_cases hPass : Passes storage (start + t) b
  · rw [issueRequest_of_passes ok hPass]
    obtain ⟨⟨k, hk, hSome⟩, hAll⟩ :=
      @issueBuffer_writes ok storage start b b.repeats t ws
    cases hEnd : (issueBuffer ok storage start b.data b.repeats
        ⟨t % 2 ^ 32, ws⟩).2 with
    | some e =>
        have hError : (issueBuffer ok storage start b.data b.repeats
            ⟨t % 2 ^ 32, ws⟩).2 ≠ none := by
          rw [hEnd]
          exact Option.some_ne_none e
        grind
    | none => exact .inr ⟨hPass, (hAll hEnd).1, Prod.ext (hAll hEnd).2 hEnd⟩
  · rw [issueRequest_of_not_passes ok hPass]
    exact .inl ⟨by simp, 0, Nat.zero_le _, fun h => absurd rfl h, by simp [writesAt]⟩

theorem mem_issueAll (ok : Nat → Bool) (start t : Nat) (bs : List SparseBuffer)
    {ws : List (Nat × List UInt8)} {w : Nat × List UInt8} (hw : w ∈ ws) :
    w ∈ (issueAll ok storage start bs ⟨t % 2 ^ 32, ws⟩).1.writes := by
  induction bs generalizing t ws with
  | nil => exact hw
  | cons b bs ih =>
      obtain ⟨hEnd, k, -, -, hSome⟩ | ⟨-, -, hAll⟩ :=
        @issueRequest_cases storage ok start t b ws
      · grind [issueAll_of_error, List.mem_append_left]
      · grind [issueAll_of_none, List.mem_append_left]

theorem issueRequest_none_iff (ok : Nat → Bool) (start t : Nat) (b : SparseBuffer)
    (ws : List (Nat × List UInt8)) :
    (issueRequest ok storage start b ⟨t % 2 ^ 32, ws⟩).2 = none ↔
      Passes storage (start + t) b ∧ b.Solid storage.blockSz ∧
        ∀ k < b.repeats, ok (ws.length + k) = true := by
  by_cases hPass : Passes storage (start + t) b
  · rw [issueRequest_of_passes ok hPass, issueBuffer_none_iff, and_iff_right hPass]
    rfl
  · rw [issueRequest_of_not_passes ok hPass]
    simp [hPass]

theorem issueAll_none_iff {ok : Nat → Bool} {start t : Nat} {bs : List SparseBuffer}
    {ws : List (Nat × List UInt8)} :
    (issueAll ok storage start bs ⟨t % 2 ^ 32, ws⟩).2 = none ↔
      Accepts storage (start + t) bs ∧
        ∀ k < (pieces storage.blockSz bs).length, ok (ws.length + k) = true := by
  induction bs generalizing t ws with
  | nil => simp [issueAll, Accepts, pieces]
  | cons b bs ih =>
      have hFirst := @issueRequest_none_iff storage ok start t b ws
      have hLength : (pieces storage.blockSz (b :: bs)).length =
          b.repeats + (pieces storage.blockSz bs).length := by
        simp [pieces]
      have hSplit : (∀ k < (pieces storage.blockSz (b :: bs)).length, ok (ws.length + k) = true) ↔
          (∀ k < b.repeats, ok (ws.length + k) = true) ∧
            ∀ k < (pieces storage.blockSz bs).length, ok (ws.length + b.repeats + k) = true := by
        simp only [hLength, forall_lt_add_iff_lt_left, Nat.add_assoc]
      rw [Accepts, hSplit]
      obtain ⟨hEnd, -⟩ | ⟨hPass, hSolid, hAll⟩ := @issueRequest_cases storage ok start t b ws
      · rw [issueAll_of_error hEnd]
        tauto
      · have hDone := hFirst.mp (congrArg Prod.snd hAll)
        rw [issueAll_of_none hAll, ih, List.length_append, SparseBuffer.writes, length_writesAt,
          ← Nat.add_assoc]
        tauto

theorem issueAll_written {ok : Nat → Bool} {start t : Nat} {bs : List SparseBuffer}
    {ws : List (Nat × List UInt8)}
    (h : (issueAll ok storage start bs ⟨t % 2 ^ 32, ws⟩).2 = none) :
    (issueAll ok storage start bs ⟨t % 2 ^ 32, ws⟩).1 =
      ⟨(t + allBlocks storage.blockSz bs) % 2 ^ 32,
        ws ++ allWrites storage.blockSz (start + t) bs⟩ := by
  induction bs generalizing t ws with
  | nil => simp [issueAll, allWrites]
  | cons b bs ih =>
      obtain ⟨hEnd, -⟩ | ⟨-, -, hAll⟩ := @issueRequest_cases storage ok start t b ws
      · exact absurd (issueAll_of_error hEnd bs ▸ h) hEnd
      · rw [issueAll_of_none hAll] at h ⊢
        rw [ih h, allBlocks_cons, allWrites, List.append_assoc, Nat.add_assoc, Nat.add_assoc]

/-- What `store_sparse_image` asks of an image, with the block it starts at. -/
@[mk_iff]
structure Acceptable (storage : SparseStorage) (first : Nat) (img : Mem) : Prop where
  whole : (sparseParseHeader img).blkSz % storage.blockSz = 0
  parsed : (imageItems storage img).2 = true
  accepts : Accepts storage first (requests (imageItems storage img).1)
  counted : (allBlocks storage.blockSz (requests (imageItems storage img).1) +
    skips (imageItems storage img).1) % 2 ^ 32 =
      blockSizeToStorage (sparseParseHeader img).totalBlks storage (sparseParseHeader img)

/-- `store_sparse_image` returns 0 exactly if the image is acceptable and all pieces are written
with success. -/
theorem storeSparseImage_eq_zero_iff {ok : Nat → Bool} {sessionId lastOffset : Nat} {img : Mem} :
    (storeSparseImage ok storage sessionId lastOffset img).2 = 0 ↔
      Acceptable storage (firstBlock storage sessionId lastOffset) img ∧
        ∀ k < (pieces storage.blockSz (requests (imageItems storage img).1)).length, ok k = true := by
  have hNone := @issueAll_none_iff storage ok (firstBlock storage sessionId lastOffset) 0
    (requests (imageItems storage img).1) []
  have hWritten := @issueAll_written storage ok (firstBlock storage sessionId lastOffset) 0
    (requests (imageItems storage img).1) []
  rw [Nat.zero_mod, Nat.add_zero] at hNone
  simp only [List.length_nil, Nat.zero_add] at hNone
  rw [Nat.zero_mod, Nat.zero_add] at hWritten
  constructor
  · intro hZero
    have hBlk := storeSparseImage_eq_zero_dvd hZero
    obtain ⟨hAll, hParsed, hCount⟩ := (storeSparseImage_eq hBlk).2.mp hZero
    rw [hWritten hAll, Nat.mod_add_mod] at hCount
    obtain ⟨hAccepts, hOk⟩ := hNone.mp hAll
    exact ⟨⟨hBlk, hParsed, hAccepts, hCount⟩, hOk⟩
  · rintro ⟨⟨hBlk, hParsed, hAccepts, hCount⟩, hOk⟩
    have hAll := hNone.mpr ⟨hAccepts, hOk⟩
    refine (storeSparseImage_eq hBlk).2.mpr ⟨hAll, hParsed, ?_⟩
    rw [hWritten hAll, Nat.mod_add_mod, hCount]

/-- If `store_sparse_image` returns 0, it has issued all writes of the image. -/
theorem storeSparseImage_writes_of_zero {ok : Nat → Bool} {sessionId lastOffset : Nat} {img : Mem}
    (h : (storeSparseImage ok storage sessionId lastOffset img).2 = 0) :
    (storeSparseImage ok storage sessionId lastOffset img).1 =
      allWrites storage.blockSz (firstBlock storage sessionId lastOffset)
        (requests (imageItems storage img).1) := by
  obtain ⟨hWrites, hEnd⟩ := @storeSparseImage_eq ok storage sessionId lastOffset img
    (storeSparseImage_eq_zero_dvd h)
  have hAll := @issueAll_written storage ok (firstBlock storage sessionId lastOffset) 0
    (requests (imageItems storage img).1) []
  rw [Nat.zero_mod] at hAll
  rw [hWrites, hAll (hEnd.mp h).1, List.nil_append, Nat.add_zero]

end

structure BlockStorage extends SparseStorage where
  log : Nat
  two_le_log : 2 ≤ log
  log_lt : log < 32
  blockSz_eq : blockSz = 2 ^ log
  start_lt : start < 2 ^ 32
  size_lt : size < 2 ^ 32

namespace BlockStorage

def bound (storage : BlockStorage) : Nat := storage.start + storage.size

theorem blockSz_pos (storage : BlockStorage) : 0 < storage.blockSz := by
  rw [storage.blockSz_eq]
  exact Nat.two_pow_pos _

end BlockStorage

def Inside (storage : BlockStorage) (w : Nat × List UInt8) : Prop :=
  ∀ x, w.1 ≤ x → x < w.1 + w.2.length / storage.blockSz →
    storage.start ≤ x ∧ x < storage.bound

section
variable {storage : BlockStorage}

structure Holds (storage : BlockStorage) (first : Nat) (b : SparseBuffer) : Prop where
  low : storage.start ≤ first
  high : first + b.blocks storage.blockSz ≤ storage.bound
  small : first + b.lead storage.blockSz < 2 ^ 32

def Stays (storage : BlockStorage) : Nat → List SparseBuffer → Prop
  | _, [] => True
  | first, b :: bs =>
      Passes storage.toSparseStorage first b →
        (b.blocks storage.blockSz ≠ 0 → Holds storage first b) ∧
        (b.Solid storage.blockSz → Stays storage (first + b.blocks storage.blockSz) bs)

theorem length_part (b : SparseBuffer) (blockSz : Nat) :
    (b.part blockSz).length = b.cnt blockSz * blockSz := by
  rw [SparseBuffer.part, List.length_take, SparseBuffer.cnt]
  exact Nat.min_eq_left (Nat.div_mul_le_self ..)

theorem inside_part_iff (b : SparseBuffer) (a : Nat) :
    Inside storage (a, b.part storage.blockSz) ↔
      (b.cnt storage.blockSz ≠ 0 →
        storage.start ≤ a ∧ a + b.cnt storage.blockSz ≤ storage.bound) := by
  unfold Inside
  rw [length_part, Nat.mul_div_cancel _ storage.blockSz_pos]
  dsimp only
  constructor
  · intro h hCnt
    have hFirst := h a (le_refl _) (by omega)
    grind
  · omega

/-- Writes that follow each other are inside exactly if the first one starts in the partition,
the last one ends there, and none starts behind block 2^32. -/
theorem writesAt_inside_iff (b : SparseBuffer) {first : Nat}
    (hFirst : first < 2 ^ 32 ∨ first ≤ storage.bound) (hCnt : b.cnt storage.blockSz ≠ 0) (n : Nat) :
    (∀ w ∈ writesAt (b.cnt storage.blockSz) (b.part storage.blockSz) n first, Inside storage w) ↔
      (n ≠ 0 → storage.start ≤ first ∧ first + b.cnt storage.blockSz * n ≤ storage.bound ∧
        first + b.cnt storage.blockSz * (n - 1) < 2 ^ 32) := by
  have hSize := storage.size_lt
  induction n generalizing first with
  | zero => simp [writesAt]
  | succ n ih =>
      rw [writesAt, List.forall_mem_cons, inside_part_iff, imp_iff_right hCnt,
        imp_iff_right (Nat.succ_ne_zero n), Nat.add_sub_cancel, Nat.mul_succ]
      generalize b.cnt storage.blockSz = c at ih ⊢
      constructor
      · rintro ⟨⟨hLow, hHigh⟩, hRest⟩
        -- a wrapped number is below the partition, which has fewer than 2^32 blocks
        have hSmall : first < 2 ^ 32 := by
          unfold BlockStorage.bound at hFirst
          omega
        rw [Nat.mod_eq_of_lt hSmall] at hLow hHigh
        have hNext := (ih (.inr hHigh)).mp hRest
        cases n with
        | zero => simp_all
        | succ m =>
            obtain ⟨-, hEnd, hLast⟩ := hNext (Nat.succ_ne_zero m)
            rw [Nat.add_sub_cancel] at hLast
            rw [Nat.mul_succ] at hEnd ⊢
            omega
      · rintro ⟨hLow, hEnd, hLast⟩
        rw [Nat.mod_eq_of_lt (by omega)]
        refine ⟨⟨hLow, by omega⟩, (ih (.inr (by omega))).mpr fun hn => ?_⟩
        obtain ⟨m, rfl⟩ := Nat.exists_eq_succ_of_ne_zero hn
        rw [Nat.succ_eq_add_one, Nat.mul_succ] at hEnd hLast
        rw [Nat.succ_eq_add_one, Nat.add_sub_cancel, Nat.mul_succ]
        omega

theorem writes_inside_iff (b : SparseBuffer) {first : Nat}
    (hFirst : first < 2 ^ 32 ∨ first ≤ storage.bound) :
    (∀ w ∈ b.writes storage.blockSz first, Inside storage w) ↔
      (b.blocks storage.blockSz ≠ 0 → Holds storage first b) := by
  unfold SparseBuffer.writes SparseBuffer.blocks
  by_cases hCnt : b.cnt storage.blockSz = 0
  · rw [hCnt, Nat.zero_mul]
    grind [mem_writesAt, inside_part_iff]
  · rw [writesAt_inside_iff b hFirst hCnt, Nat.mul_ne_zero_iff, and_iff_right hCnt]
    exact imp_congr_right fun _ => ⟨fun ⟨hLow, hHigh, hSmall⟩ => ⟨hLow, hHigh, hSmall⟩,
      fun h => ⟨h.low, h.high, h.small⟩⟩

theorem next_first {first : Nat} (hFirst : first < 2 ^ 32 ∨ first ≤ storage.bound)
    (h : b.blocks storage.blockSz ≠ 0 → Holds storage first b) :
    first + b.blocks storage.blockSz < 2 ^ 32 ∨ first + b.blocks storage.blockSz ≤ storage.bound := by
  by_cases hBlocks : b.blocks storage.blockSz = 0
  · rw [hBlocks]
    exact hFirst
  · exact .inr (h hBlocks).high

theorem inside_of_stays (ok : Nat → Bool) {start t : Nat} {bs : List SparseBuffer}
    (hFirst : start + t < 2 ^ 32 ∨ start + t ≤ storage.bound) (h : Stays storage (start + t) bs)
    {ws : List (Nat × List UInt8)} (hWritten : ∀ w ∈ ws, Inside storage w) :
    ∀ w ∈ (issueAll ok storage.toSparseStorage start bs ⟨t % 2 ^ 32, ws⟩).1.writes,
      Inside storage w := by
  induction bs generalizing t ws with
  | nil => exact hWritten
  | cons b bs ih =>
      obtain ⟨hEnd, k, hk, hPass, hSome⟩ | ⟨hPass, hSolid, hAll⟩ :=
        issueRequest_cases ok start t b ws
      · rw [issueAll_of_error hEnd, hSome]
        refine List.forall_mem_append.mpr ⟨hWritten, fun w hw => ?_⟩
        obtain ⟨i, hi, rfl⟩ := mem_writesAt.mp hw
        exact (writes_inside_iff b hFirst).mpr (h (hPass (by omega))).1 _
          (mem_writesAt.mpr ⟨i, by omega, rfl⟩)
      · obtain ⟨hHolds, hRest⟩ := h hPass
        rw [issueAll_of_none hAll]
        refine @ih (t + b.blocks storage.blockSz) ?_ ?_ _ ?_
        · rw [← Nat.add_assoc]
          exact next_first hFirst hHolds
        · grind
        · exact List.forall_mem_append.mpr ⟨hWritten, (writes_inside_iff b hFirst).mpr hHolds⟩

theorem stays_of_inside {start t : Nat} {bs : List SparseBuffer} {ws : List (Nat × List UInt8)}
    (hFirst : start + t < 2 ^ 32 ∨ start + t ≤ storage.bound)
    (h : ∀ w ∈ (issueAll (fun _ => true) storage.toSparseStorage start bs
      ⟨t % 2 ^ 32, ws⟩).1.writes, Inside storage w) : Stays storage (start + t) bs := by
  induction bs generalizing t ws with
  | nil => trivial
  | cons b bs ih =>
      intro hPass
      obtain ⟨hEnd, -⟩ | ⟨-, -, hAll⟩ :=
        @issueRequest_cases storage.toSparseStorage (fun _ => true) start t b ws
      · have hEmpty : ¬b.Solid storage.blockSz := fun hSolid =>
          hEnd ((issueRequest_none_iff _ _ _ _ _).mpr ⟨hPass, hSolid, fun _ _ => rfl⟩)
        refine ⟨fun hBlocks => absurd (.inl ?_) hEmpty, fun hSolid => absurd hSolid hEmpty⟩
        exact fun hCnt => hBlocks (by rw [SparseBuffer.blocks, hCnt, Nat.zero_mul])
      · rw [issueAll_of_none hAll] at h
        have hHolds := (writes_inside_iff b hFirst).mp fun w hw =>
          h w (mem_issueAll _ _ _ _ (List.mem_append_right _ hw))
        refine ⟨hHolds, fun _ => ?_⟩
        have hRest := @ih (t + b.blocks storage.blockSz) _
          (by rw [← Nat.add_assoc]; exact next_first hFirst hHolds) h
        rwa [← Nat.add_assoc] at hRest

theorem issueAll_inside_iff {start : Nat} (hStart : start < 2 ^ 32) (bs : List SparseBuffer) :
    (∀ ok, ∀ w ∈ (issueAll ok storage.toSparseStorage start bs ⟨0, []⟩).1.writes,
      Inside storage w) ↔ Stays storage start bs :=
  ⟨fun h => @stays_of_inside storage start 0 bs [] (.inl hStart) (h _),
    fun h ok => @inside_of_stays storage ok start 0 bs (.inl hStart) h [] (by simp)⟩

end

end Fire3.Fastboot

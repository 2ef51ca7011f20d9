import Fire3.Ext4.ImgWrite

/-!
Which sectors `ext4_img_write` reaches.

Only the end of the card bounds a request. The size of a compressed image is checked by its
header, its sectors are those of its chunks; the length of a raw image is the one given on the
command line and is not checked at all.
-/

namespace Fire3.Ext4Img
open ByteMemory Block

variable {img : Mem} {p sector : Nat}

def pieceAt (data sector size j : Nat) : Request where
  sector := (sector + j * 65536) % 2 ^ 32
  count := min 65536 (size - j * 65536)
  data := data

section
variable {data : Nat} {r : Request}

theorem pieceAt_zero {size : Nat} (hSector : sector < 2 ^ 32) :
    pieceAt data sector size 0 = ⟨sector, min 65536 size, data⟩ := by
  rw [pieceAt, Nat.zero_mul, Nat.add_zero, Nat.sub_zero, Nat.mod_eq_of_lt hSector]

theorem pieceAt_succ (sector size j : Nat) :
    pieceAt data ((sector + 65536) % 2 ^ 32) (size - 65536) j = pieceAt data sector size (j + 1) := by
  simp only [pieceAt, Request.mk.injEq, and_true]
  omega

theorem mem_pieces {fuel size : Nat} (hFuel : size / 65536 < fuel) (hSector : sector < 2 ^ 32) :
    r ∈ pieces data fuel sector size ↔
      ∃ j, (j = 0 ∨ j * 65536 < size) ∧ r = pieceAt data sector size j := by
  induction fuel generalizing sector size with
  | zero => exact absurd hFuel (Nat.not_lt_zero _)
  | succ fuel ih =>
      rw [pieces, writeSector]
      split
      · rename_i hMore
        have hWhole : min 65536 size = 65536 := Nat.min_eq_left (Nat.le_of_lt hMore)
        rw [List.mem_cons, ih (by omega) (Nat.mod_lt _ (by decide))]
        constructor
        · rintro (rfl | ⟨j, hj, rfl⟩)
          · exact ⟨0, .inl rfl, by rw [pieceAt_zero hSector, hWhole]⟩
          · exact ⟨j + 1, .inr (by omega), pieceAt_succ ..⟩
        · rintro ⟨_ | j, hj, rfl⟩
          · exact .inl (by rw [pieceAt_zero hSector, hWhole])
          · exact .inr ⟨j, by omega, (pieceAt_succ ..).symm⟩
      · rename_i hLast
        have hRest : min 65536 size = size := Nat.min_eq_right (Nat.not_lt.mp hLast)
        rw [List.mem_singleton]
        constructor
        · grind [pieceAt_zero]
        · rintro ⟨j, hj, rfl⟩
          obtain rfl : j = 0 := by omega
          rw [pieceAt_zero hSector, hRest]

def sectorsOf (img : Mem) (p : Nat) : Nat := readLE img (p + 4) 4 * 4096 % 2 ^ 32 / 2 ^ 9

def chunkAt (img : Mem) : Nat → Nat → Nat
  | p, 0 => p
  | p, k + 1 => chunkAt img (p + readLE img (p + 8) 4) k

/-- The sector of chunk `k`, counted in 32 bits. -/
def sectorAt (img : Mem) : Nat → Nat → Nat → Nat
  | _, sector, 0 => sector
  | p, sector, k + 1 =>
      sectorAt img (p + readLE img (p + 8) 4) ((sector + sectorsOf img p) % 2 ^ 32) k

theorem sectorAt_lt (img : Mem) (hSector : sector < 2 ^ 32) (k : Nat) :
    sectorAt img p sector k < 2 ^ 32 := by
  induction k generalizing p sector with
  | zero => exact hSector
  | succ k ih => exact ih (Nat.mod_lt _ (by decide))

theorem mem_chunkRequests {n : Nat} :
    r ∈ chunkRequests img 4096 n p sector ↔ ∃ k < n, readLE img (chunkAt img p k) 2 = 0xCAC1 ∧
      r ∈ writeRawChunk (chunkAt img p k + 12) (sectorAt img p sector k)
        (sectorsOf img (chunkAt img p k)) := by
  have hRaw (t : Nat) : chunkType t = .raw ↔ t = 0xCAC1 := by
    unfold chunkType
    split_ifs <;> simp_all
  induction n generalizing p sector with
  | zero => simp [chunkRequests]
  | succ n ih =>
      have hHere : r ∈ chunkRequests img 4096 (n + 1) p sector ↔
          (readLE img p 2 = 0xCAC1 ∧ r ∈ writeRawChunk (p + 12) sector (sectorsOf img p)) ∨
            r ∈ chunkRequests img 4096 n (p + readLE img (p + 8) 4)
              ((sector + sectorsOf img p) % 2 ^ 32) := by
        rw [chunkRequests, List.mem_append, ← hRaw]
        grind [chunkType, readLE, sectorsOf]
      refine (hHere.trans (or_congr_right ih)).trans ?_
      constructor
      · rintro (hHere | ⟨k, hk, hLater⟩)
        · exact ⟨0, Nat.succ_pos n, hHere⟩
        · exact ⟨k + 1, Nat.succ_lt_succ hk, hLater⟩
      · rintro ⟨_ | k, hk, hChunk⟩
        · exact .inl hChunk
        · exact .inr ⟨k, Nat.lt_of_succ_lt_succ hk, hChunk⟩

end

section
variable (mmc : Mmc) (part : Fdisk.Part)

def InPartition (part : Fdisk.Part) (x : Nat) : Prop :=
  part.start ≤ 512 * x ∧ 512 * x + 512 ≤ part.start + part.length

/-- The sector `x` is written by a run on a card that takes `budget k` of request `k`. -/
def Writes (run : ImgRun) (budget : Nat → Budget) (x : Nat) : Prop :=
  ∃ k r, run.requests[k]? = some r ∧ r.sector ≤ x ∧
    x < r.sector + moved mmc r.sector r.count (budget k)

def Kept (sector count : Nat) : Prop :=
  reach mmc sector count ≠ 0 →
    part.start ≤ 512 * sector ∧ 512 * (sector + reach mmc sector count) ≤ part.start + part.length

variable {mmc part}

theorem kept_zero (sector : Nat) : Kept mmc part sector 0 := by
  intro hReach
  rw [reach] at hReach
  split at hReach
  · exact absurd rfl hReach
  · rw [show mmc.lba - sector = 0 by omega, Nat.zero_div, Nat.zero_mul] at hReach
    exact absurd rfl hReach

theorem kept_iff {count : Nat} (hSum : sector + count < 2 ^ 64) :
    (∀ budget x, sector ≤ x → x < sector + moved mmc sector count budget → InPartition part x) ↔
      Kept mmc part sector count := by
  unfold Kept InPartition
  constructor
  · intro h hReach
    rw [← moved_none mmc hSum] at hReach ⊢
    have hFirst := h none sector (le_refl _) (by omega)
    have hLast := h none (sector + moved mmc sector count none - 1) (by omega) (by omega)
    omega
  · grind [moved_le_reach]

theorem writes_iff {requests : List Request} {result : Budget → Option Int}
    (hSum : ∀ r ∈ requests, r.sector + r.count < 2 ^ 64) :
    (∀ budget x, Writes mmc ⟨requests, result (budget 0)⟩ budget x → InPartition part x) ↔
      ∀ r ∈ requests, Kept mmc part r.sector r.count := by
  constructor
  · intro h r hr
    obtain ⟨k, hk⟩ := List.getElem?_of_mem hr
    refine (kept_iff (hSum r hr)).mp fun b x hLow hHigh => ?_
    exact h (fun _ => b) x ⟨k, r, hk, hLow, hHigh⟩
  · rintro h budget x ⟨k, r, hk, hLow, hHigh⟩
    grind [List.mem_of_getElem?, kept_iff]

/-- The raw chunk with its header at `p` and its first sector `sector` lies in the partition.
Data that is not aligned goes in pieces, whose sectors wrap one by one. -/
def ChunkKept (mmc : Mmc) (part : Fdisk.Part) (img : Mem) (p sector : Nat) : Prop :=
  if (p + 12) % 8 = 0 then Kept mmc part sector (sectorsOf img p)
  else
    ∀ j, j * 65536 < sectorsOf img p →
      Kept mmc part ((sector + j * 65536) % 2 ^ 32) (min 65536 (sectorsOf img p - j * 65536))

theorem chunkKept_iff (hSector : sector < 2 ^ 32) :
    (∀ r ∈ writeRawChunk (p + 12) sector (sectorsOf img p), Kept mmc part r.sector r.count) ↔
      ChunkKept mmc part img p sector := by
  rw [writeRawChunk, ChunkKept]
  by_cases hAligned : (p + 12) % 8 = 0
  · rw [if_neg (not_not.mpr hAligned), if_pos hAligned, List.forall_mem_singleton]
  · rw [if_pos hAligned, if_neg hAligned]
    constructor
    · intro h j hj
      exact h _ ((mem_pieces (Nat.lt_succ_self _) hSector).mpr ⟨j, .inr hj, rfl⟩)
    · intro h r hr
      obtain ⟨j, hj, rfl⟩ := (mem_pieces (Nat.lt_succ_self _) hSector).mp hr
      by_cases hInside : j * 65536 < sectorsOf img p
      · exact h j hInside
      · have hNone : min 65536 (sectorsOf img p - j * 65536) = 0 := by omega
        rw [pieceAt, hNone]
        exact kept_zero _

/-- The image keeps to the partition: it is refused, or each raw chunk of a compressed image
does, or a raw image does with its length in sectors. -/
def Fitting (mmc : Mmc) (part : Fdisk.Part) (img : Mem) (args : ImgArgs) : Prop :=
  match checkCompressExt4 img args.memAddr.toNat part.length with
  | none => True
  | some 0 =>
      let first := args.memAddr.toNat + 28
      ∀ k < readLE img (args.memAddr.toNat + 20) 4, readLE img (chunkAt img first k) 2 = 0xCAC1 →
        ChunkKept mmc part img (chunkAt img first k)
          (sectorAt img first (part.start / 512 % 2 ^ 32) k)
  | some _ => part.start / 512 ≠ 0 → Kept mmc part (part.start / 512) args.cnt

theorem ImgArgs.cnt_le (args : ImgArgs) : args.cnt ≤ 2 ^ 55 := by
  have hLen := args.memLen.toNat_lt
  unfold cnt
  split <;> omega

theorem sectorsOf_lt (img : Mem) (p : Nat) : sectorsOf img p < 2 ^ 32 := by
  unfold sectorsOf
  omega

theorem request_lt (hSector : sector < 2 ^ 32) {r : Request}
    (hr : r ∈ writeRawChunk (p + 12) sector (sectorsOf img p)) : r.sector + r.count < 2 ^ 64 := by
  have hSize := sectorsOf_lt img p
  rw [writeRawChunk] at hr
  split at hr
  · obtain ⟨j, hj, rfl⟩ := (mem_pieces (Nat.lt_succ_self _) hSector).mp hr
    simp only [pieceAt]
    omega
  · grind

theorem checkCompressExt4_cases (img : Mem) (p size : Nat) :
    checkCompressExt4 img p size = none ∨ checkCompressExt4 img p size = some 0 ∨
      checkCompressExt4 img p size = some (-1) := by
  unfold checkCompressExt4
  split_ifs <;> simp

theorem blockSize_of_check {size : Nat} (h : checkCompressExt4 img p size = some 0) :
    readLE img (p + 12) 4 = 4096 := by
  unfold checkCompressExt4 at h
  by_contra hSize
  split_ifs at h <;> simp_all

/-- On every card, for every image and length: `ext4_img_write` writes sectors of the target
partition only, whatever the card takes, exactly if the image is fitting. -/
theorem img_write_confined_iff (mmc : Mmc) {depth : Nat} {args : ImgArgs} {part : Fdisk.Part}
    (hTarget : Target mmc depth args part) (mmcDev : Int) (img : Mem) :
    (∀ budget x, Writes mmc (doCompressedExt4Write true mmcDev mmc depth (budget 0) img args)
      budget x → InPartition part x) ↔ Fitting mmc part img args := by
  simp only [doCompressedExt4Write_eq hTarget, writePartition, Fitting]
  have hBlk : part.start / 512 < 2 ^ 55 := part.lba_lt
  obtain hCheck | hCheck | hCheck := checkCompressExt4_cases img args.memAddr.toNat part.length
  · rw [hCheck]
    refine ⟨fun _ => trivial, ?_⟩
    rintro - budget x ⟨k, r, hk, -⟩
    simp at hk
  · rw [hCheck]
    have hFirst : part.start / 512 % 2 ^ 32 < 2 ^ 32 := Nat.mod_lt _ (by decide)
    rw [compressedRequests, blockSize_of_check hCheck]
    refine (@writes_iff mmc part _ (fun _ => some 1) ?_).trans ?_
    · intro r hr
      obtain ⟨k, -, -, hChunk⟩ := mem_chunkRequests.mp hr
      exact request_lt (sectorAt_lt img hFirst k) hChunk
    · constructor
      · grind [chunkKept_iff, sectorAt_lt, mem_chunkRequests]
      · grind [mem_chunkRequests, chunkKept_iff, sectorAt_lt]
  · rw [hCheck]
    change (∀ budget x, Writes mmc (doWrite mmc (budget 0) img args (part.start / 512)) budget x →
      InPartition part x) ↔ (part.start / 512 ≠ 0 → Kept mmc part (part.start / 512) args.cnt)
    unfold doWrite
    by_cases hZero : part.start / 512 = 0
    · simp only [if_pos hZero]
      refine ⟨fun _ h => absurd hZero h, ?_⟩
      rintro - budget x ⟨k, r, hk, -⟩
      simp at hk
    · simp only [if_neg hZero]
      have hCnt := args.cnt_le
      refine (@writes_iff mmc part _ (fun b => some (toS32 ((mmcBwrite mmc (part.start / 512)
        args.cnt b img args.memAddr.toNat).1 % 2 ^ 32))) ?_).trans ?_
      · rw [List.forall_mem_singleton]
        dsimp only
        omega
      · rw [List.forall_mem_singleton, imp_iff_right hZero]

end

def oneParted : Mmc where
  lba := 8192
  bMax := 256
  bytes := store zero 0 (Fdisk.sectorBytes [⟨0x83, 2048, 8⟩])
  bMax_pos := Nat.le_of_ble_eq_true rfl
  lba_lt := Nat.le_of_ble_eq_true rfl

def eightSectors : Fdisk.Part where
  start := 2048 * 512
  length := 8 * 512
  start_lt := Nat.le_of_ble_eq_true rfl
  length_lt := Nat.le_of_ble_eq_true rfl

theorem getPartTable_oneParted : Fdisk.getPartTable oneParted 1 = some [eightSectors] := by
  have hSector : Fdisk.sectorAt oneParted 0 = Fdisk.sectorBytes [⟨0x83, 2048, 8⟩] := by
    have hLoad := load_store_same zero 0 (Fdisk.sectorBytes [⟨0x83, 2048, 8⟩])
    rwa [Fdisk.length_sectorBytes (by decide)] at hLoad
  have hStart : Fdisk.ofInt 2048 = 2048 := Fdisk.ofInt_of_lt (by decide)
  have hSize : Fdisk.ofInt 8 = 8 := Fdisk.ofInt_of_lt (by decide)
  rw [Fdisk.getPartTable, Fdisk.getPartTableExtended_data (by decide) (by decide) (by decide) hSector]
  have hListed : Fdisk.listed 0 (Fdisk.DosPartition.stored ⟨0x83, 2048, 8⟩) = some eightSectors := by
    change Fdisk.listed 0 ⟨0x83, 2048, 8⟩ = some eightSectors
    simp only [Fdisk.listed, hStart, hSize]
    rfl
  rw [List.nil_append, List.map_singleton, List.filterMap_cons_some hListed, List.filterMap_nil]

def imgArgs (memLen : UInt64) : ImgArgs := ⟨0x48000000, 1, memLen⟩

theorem target_oneParted (memLen : UInt64) :
    Target oneParted 1 (imgArgs memLen) eightSectors := by
  have hOne : (imgArgs memLen).partno = 1 := by
    change toS32 ((1 : UInt64).toNat % 2 ^ 32) = 1
    decide
  refine ⟨[eightSectors], getPartTable_oneParted, ?_, ?_⟩
  · rw [hOne]
  · rw [hOne]
    rfl

theorem img_write_confined_eight_sectors :
    Target oneParted 1 (imgArgs 4096) eightSectors ∧
      ∀ budget x, Writes oneParted
        (doCompressedExt4Write true 0 oneParted 1 (budget 0) zero (imgArgs 4096)) budget x →
          InPartition eightSectors x := by
  refine ⟨target_oneParted 4096,
    (img_write_confined_iff oneParted (target_oneParted 4096) 0 zero).mpr ?_⟩
  have hCheck : checkCompressExt4 zero (imgArgs 4096).memAddr.toNat eightSectors.length =
      some (-1) := by decide
  rw [Fitting, hCheck]
  exact fun _ _ => ⟨by decide, by decide⟩

def overlongImage : Mem :=
  store zero 0x48000000 (leBytes 4 0xED26FF3A ++ leBytes 2 1 ++ leBytes 2 0 ++ leBytes 2 28 ++
    leBytes 2 12 ++ leBytes 4 4096 ++ leBytes 4 1 ++ leBytes 4 1 ++ leBytes 4 0 ++
    leBytes 2 0xCAC1 ++ leBytes 2 0 ++ leBytes 4 2 ++ leBytes 4 8204)

/-- The sector behind the partition is written, by a raw image that is one byte too long and by
a chunk that is longer than its header says. -/
theorem img_write_leaves_partition :
    Target oneParted 1 (imgArgs 4097) eightSectors ∧
      Writes oneParted (doCompressedExt4Write true 0 oneParted 1 none zero (imgArgs 4097))
        (fun _ => none) 2056 ∧
      Writes oneParted (doCompressedExt4Write true 0 oneParted 1 none overlongImage (imgArgs 8232))
        (fun _ => none) 2056 ∧
      ¬InPartition eightSectors 2056 := by
  refine ⟨target_oneParted 4097, ?_, ?_, by unfold InPartition; decide⟩
  · rw [doCompressedExt4Write_eq (target_oneParted 4097)]
    refine ⟨0, ⟨2048, 9, 0x48000000⟩, ?_, by decide, by decide⟩
    decide +kernel
  · rw [doCompressedExt4Write_eq (target_oneParted 8232)]
    refine ⟨0, ⟨2048, 16, 0x48000000 + 40⟩, ?_, by decide, by decide⟩
    decide +kernel

end Fire3.Ext4Img

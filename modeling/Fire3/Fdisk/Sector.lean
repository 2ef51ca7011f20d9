import Fire3.Mmc.Block

/-!
Sectors with a DOS partition table, as `common/cmd_mmc_fdisk.c` writes them and
`disk/part_dos.c` reads them: four entries of 16 bytes at 0x1be and the signature
at 0x1fe.
-/

namespace Fire3.Fdisk
open ByteMemory Block

structure DosPartition where
  sysInd : UInt8
  start4 : Nat
  size4 : Nat
  deriving DecidableEq, Repr

variable {a : Nat} {pt : List DosPartition}

/-- An entry with the default CHS values of `part_mmc_chs`; `int_to_le32` keeps the low
32 bits of start and size. -/
def DosPartition.bytes (e : DosPartition) : List UInt8 :=
  [0, 1, 1, 0, e.sysInd, 254, 255, 255] ++ (leBytes 4 e.start4 ++ leBytes 4 e.size4)

def sectorBytes (pt : List DosPartition) : List UInt8 :=
  List.replicate 0x1be 0 ++
    (pt.flatMap DosPartition.bytes ++ List.replicate (16 * (4 - pt.length)) 0 ++ [0x55, 0xaa])

def entryAt (buffer : Mem) (a : Nat) : DosPartition :=
  { sysInd := buffer (a + 4), start4 := readLE buffer (a + 8) 4, size4 := readLE buffer (a + 12) 4 }

def entriesAt (buffer : Mem) : Nat → Nat → List DosPartition
  | _, 0 => []
  | a, k + 1 => entryAt buffer a :: entriesAt buffer (a + 16) k

def unused : DosPartition := { sysInd := 0, start4 := 0, size4 := 0 }

def DosPartition.stored (e : DosPartition) : DosPartition :=
  { e with start4 := e.start4 % 2 ^ 32, size4 := e.size4 % 2 ^ 32 }

@[simp] theorem DosPartition.length_bytes (e : DosPartition) : e.bytes.length = 16 := by
  simp [bytes]

theorem length_flatMap_bytes (pt : List DosPartition) :
    (pt.flatMap DosPartition.bytes).length = 16 * pt.length := by
  simp [List.length_flatMap, Nat.mul_comm]

theorem length_sectorBytes (hFour : pt.length ≤ 4) : (sectorBytes pt).length = 512 := by
  simp only [sectorBytes, List.length_append, List.length_replicate, length_flatMap_bytes,
    List.length_cons, List.length_nil]
  omega

theorem entryAt_bytes {buffer : Mem} {n : Nat} {e : DosPartition} {rest : List UInt8}
    (h : load buffer a n = e.bytes ++ rest) : entryAt buffer a = e.stored := by
  have hSys : load buffer (a + 4) 1 = [e.sysInd] := @load_of_append buffer a n [0, 1, 1, 0]
    [e.sysInd] ([254, 255, 255] ++ (leBytes 4 e.start4 ++ leBytes 4 e.size4) ++ rest) (by
      rw [h]
      rfl)
  have hStart : load buffer (a + 8) 4 = leBytes 4 e.start4 := by
    have hPart := @load_of_append buffer a n [0, 1, 1, 0, e.sysInd, 254, 255, 255]
      (leBytes 4 e.start4) (leBytes 4 e.size4 ++ rest) (by simpa [DosPartition.bytes] using h)
    rwa [length_leBytes] at hPart
  have hSize : load buffer (a + 12) 4 = leBytes 4 e.size4 := by
    have hPart := @load_of_append buffer a n
      ([0, 1, 1, 0, e.sysInd, 254, 255, 255] ++ leBytes 4 e.start4) (leBytes 4 e.size4) rest
      (by simpa [DosPartition.bytes] using h)
    rwa [length_leBytes, List.length_append, length_leBytes] at hPart
  have hByte : buffer (a + 4) = e.sysInd := by
    simpa [load] using hSys
  rw [entryAt, readLE, readLE, hByte, hStart, hSize, leValue_leBytes, leValue_leBytes]
  rfl

theorem readLE_of_zeros {buffer : Mem} {w : Nat} (h : ∀ i < w, buffer (a + i) = 0) :
    readLE buffer a w = 0 := by
  induction w generalizing a with
  | zero => rfl
  | succ w ih =>
      have hHead : buffer a = 0 := h 0 (by omega)
      have hRest := ih fun i hi => by
        have hNext := h (i + 1) (by omega)
        rwa [← Nat.add_assoc, Nat.add_right_comm] at hNext
      rw [readLE] at hRest ⊢
      rw [load_succ, leValue, hRest, hHead]
      rfl

theorem entriesAt_zeros {buffer : Mem} {k : Nat} (h : ∀ i < 16 * k, buffer (a + i) = 0) :
    entriesAt buffer a k = List.replicate k unused := by
  induction k generalizing a with
  | zero => rfl
  | succ k ih =>
      have hField : ∀ o w, o + w ≤ 16 → ∀ i < w, buffer (a + o + i) = 0 := by
        intro o w hIn i hi
        rw [Nat.add_assoc]
        exact h (o + i) (by omega)
      have hRest := @ih (a + 16) fun i hi => by
        rw [Nat.add_assoc]
        exact h (16 + i) (by omega)
      rw [entriesAt, hRest, entryAt, readLE_of_zeros (hField 8 4 (by omega)),
        readLE_of_zeros (hField 12 4 (by omega)), hField 4 1 (by omega) 0 (by omega)]
      rfl

theorem entriesAt_bytes {buffer : Mem} {k n : Nat} {post : List UInt8} (hRoom : pt.length ≤ k)
    (h : load buffer a n = pt.flatMap DosPartition.bytes ++
      List.replicate (16 * (k - pt.length)) 0 ++ post) :
    entriesAt buffer a k =
      pt.map DosPartition.stored ++ List.replicate (k - pt.length) unused := by
  induction pt generalizing a k n with
  | nil =>
      have hZeros : load buffer a (16 * k) = List.replicate (16 * k) 0 := by
        have hPart := @load_of_append buffer a n [] (List.replicate (16 * k) 0) post (by simpa using h)
        simpa using hPart
      refine entriesAt_zeros fun i hi => ?_
      have hByte := congrArg (fun bs => bs[i]?) hZeros
      simpa [load, hi] using hByte
  | cons e pt ih =>
      obtain ⟨k, rfl⟩ : ∃ j, k = j + 1 := ⟨k - 1, by rw [List.length_cons] at hRoom; omega⟩
      rw [List.length_cons, Nat.add_sub_add_right] at h
      rw [List.length_cons] at hRoom
      have hLength : n = 16 + (n - 16) := by
        have := congrArg List.length h
        grind [length_load, List.length_append, DosPartition.length_bytes]
      have hSplit : load buffer a 16 = e.bytes ∧ load buffer (a + 16) (n - 16) =
          pt.flatMap DosPartition.bytes ++ List.replicate (16 * (k - pt.length)) 0 ++ post := by
        rw [hLength, load_add, List.flatMap_cons, List.append_assoc, List.append_assoc] at h
        have hParts := List.append_inj h (by simp)
        exact ⟨hParts.1, by rw [hParts.2, List.append_assoc]⟩
      rw [entriesAt, ih (by omega) hSplit.2,
        entryAt_bytes (hSplit.1.trans (List.append_nil _).symm), List.length_cons,
        Nat.add_sub_add_right]
      rfl

theorem table_of_load {buffer : Mem} (hFour : pt.length ≤ 4)
    (h : load buffer 0 512 = sectorBytes pt) :
    buffer 0x1fe = 0x55 ∧ buffer 0x1ff = 0xaa ∧ entriesAt buffer 0x1be 4 =
      pt.map DosPartition.stored ++ List.replicate (4 - pt.length) unused := by
  have hTable : load buffer 0x1be 66 = pt.flatMap DosPartition.bytes ++
      List.replicate (16 * (4 - pt.length)) 0 ++ [0x55, 0xaa] := by
    have hSplit := (load_add buffer 0 0x1be 66).symm.trans h
    exact (List.append_inj hSplit (by rw [length_load, List.length_replicate])).2
  have hMagic : load buffer 0x1fe 2 = [0x55, 0xaa] := by
    have hSplit := (load_add buffer 0x1be 64 2).symm.trans hTable
    refine (List.append_inj hSplit ?_).2
    simp only [length_load, List.length_append, length_flatMap_bytes, List.length_replicate]
    omega
  have hBytes : buffer 0x1fe = 0x55 ∧ buffer 0x1ff = 0xaa := by
    simpa [load, List.range_succ] using hMagic
  exact ⟨hBytes.1, hBytes.2, entriesAt_bytes hFour hTable⟩

structure Write where
  sector : Nat
  pt : List DosPartition
  deriving DecidableEq, Repr

def blockWrite (mmc : Mmc) (w : Write) : Nat × Mmc :=
  mmcBwrite mmc w.sector 1 none (store zero 0 (sectorBytes w.pt)) 0

def applied (mmc : Mmc) (ws : List Write) : Mmc := ws.foldl (fun mmc w => (blockWrite mmc w).2) mmc

def sectorAt (mmc : Mmc) (l : Nat) : List UInt8 := load mmc.bytes (512 * l) 512

@[simp] theorem applied_lba (mmc : Mmc) (ws : List Write) : (applied mmc ws).lba = mmc.lba := by
  induction ws generalizing mmc with
  | nil => rfl
  | cons w ws ih => exact ih _

theorem load_sectorBytes (hFour : pt.length ≤ 4) :
    load (store zero 0 (sectorBytes pt)) 0 512 = sectorBytes pt := by
  have hSame := load_store_same zero 0 (sectorBytes pt)
  rwa [length_sectorBytes hFour] at hSame

theorem sectorAt_blockWrite_same {mmc : Mmc} {w : Write} (hFour : w.pt.length ≤ 4)
    (hIn : w.sector < mmc.lba) : sectorAt (blockWrite mmc w).2 w.sector = sectorBytes w.pt := by
  rw [blockWrite, mmcBwrite_in_range mmc _ 0 (by omega), sectorAt]
  simp only [Nat.mul_one]
  rw [load_sectorBytes hFour]
  have hSame := load_store_same mmc.bytes (512 * w.sector) (sectorBytes w.pt)
  rwa [length_sectorBytes hFour] at hSame

theorem sectorAt_blockWrite_other (mmc : Mmc) {w : Write} {l : Nat} (hOther : w.sector ≠ l) :
    sectorAt (blockWrite mmc w).2 l = sectorAt mmc l := by
  have hOne : min 1 mmc.bMax = 1 := by
    have := mmc.bMax_pos
    omega
  simp only [blockWrite, mmcBwrite, bwriteLoop, hOne, Budget.moved_none, sectorAt]
  split
  · rfl
  · simp only [ne_eq, not_true_eq_false, if_false, Nat.sub_self, if_true]
    grind [load_store_disjoint, length_load]

theorem sectorAt_applied_other {mmc : Mmc} {ws : List Write} {l : Nat}
    (h : ∀ w ∈ ws, w.sector ≠ l) : sectorAt (applied mmc ws) l = sectorAt mmc l := by
  induction ws generalizing mmc with
  | nil => rfl
  | cons w ws ih =>
      exact (ih fun v hv => h v (List.mem_cons_of_mem _ hv)).trans
        (sectorAt_blockWrite_other mmc (h w List.mem_cons_self))

theorem sectorAt_applied_last {mmc : Mmc} {pre post : List Write} {w : Write}
    (hFour : w.pt.length ≤ 4) (hIn : w.sector < mmc.lba) (hLast : ∀ v ∈ post, v.sector ≠ w.sector) :
    sectorAt (applied mmc (pre ++ w :: post)) w.sector = sectorBytes w.pt := by
  have hSplit : applied mmc (pre ++ w :: post) =
      applied (blockWrite (applied mmc pre) w).2 post := by
    simp [applied]
  rw [hSplit, sectorAt_applied_other hLast, sectorAt_blockWrite_same hFour (by simpa using hIn)]

end Fire3.Fdisk

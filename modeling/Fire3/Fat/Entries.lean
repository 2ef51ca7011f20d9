import Fire3.Base.ByteMemory
import Fire3.Base.Transition

/-!
Entries of the file allocation table, as `fs/fat/fat_write.c` reads and sets them.

The table is seen through a buffer of six sectors, the window. A call for an entry outside the
window writes the window back to both copies of the table and reads another one.
-/

namespace Fire3.Fat
open ByteMemory

inductive FatSize
  | fat12
  | fat16
  | fat32
  deriving DecidableEq

/-- The geometry of a volume, in sectors of the partition; the copies of the table are inside of the
volume and the volume is inside of the device. -/
structure Volume where
  fatsize : FatSize
  fatlength : Nat
  fatSect : Nat
  sectSize : Nat
  numOfFats : Nat
  totalSector : Nat
  devSectors : Nat
  sect_dvd : 512 ∣ sectSize
  sect_pos : 0 < sectSize
  length_pos : 0 < fatlength
  fats : numOfFats = 1 ∨ numOfFats = 2
  inside : fatSect + numOfFats * fatlength ≤ totalSector
  device : totalSector ≤ devSectors
  device_lt : devSectors < 2 ^ 32

structure FsData where
  disk : Mem
  writes : List (Nat × Nat)
  fatbuf : Mem
  fatbufnum : Int

section
variable (vol : Volume) (s : FsData)

def diskRead (block nrBlocks : Nat) : Option FsData :=
  if nrBlocks = 0 ∨ block + nrBlocks ≤ vol.devSectors then
    some { s with
      fatbuf := store s.fatbuf 0 (load s.disk (block * vol.sectSize) (nrBlocks * vol.sectSize)) }
  else none

def diskWrite (block nrBlocks : Nat) : Option FsData :=
  if block + nrBlocks > vol.totalSector then none
  else some { s with
    disk := store s.disk (block * vol.sectSize) (load s.fatbuf 0 (nrBlocks * vol.sectSize))
    writes := s.writes ++ [(block, nrBlocks)] }

def startblock (bufnum : Int) : Nat := ((bufnum * 6 + vol.fatSect) % 2 ^ 32).toNat

def windowSize : Nat := if 6 > vol.fatlength then vol.fatlength else 6

def flushFatBuffer : Bool × FsData :=
  let start := startblock vol s.fatbufnum
  match diskWrite vol s start (windowSize vol) with
  | none => (false, s)
  | some s =>
      if vol.numOfFats = 2 then
        match diskWrite vol s ((start + vol.fatlength) % 2 ^ 32) (windowSize vol) with
        | none => (false, s)
        | some s => (true, s)
      else (true, s)

inductive Move
  | flushFailed (s : FsData)
  | readFailed (s : FsData)
  | done (s : FsData)

def moveWindow (bufnum getsize : Nat) : Move :=
  if (bufnum : Int) = s.fatbufnum then .done s
  else
    let flushed := if s.fatbufnum ≠ -1 then flushFatBuffer vol s else (true, s)
    if flushed.1 then
      match diskRead vol flushed.2 (startblock vol bufnum) getsize with
      | none => .readFailed flushed.2
      | some t => .done { t with fatbufnum := bufnum }
    else .flushFailed flushed.2

def bufsize : Nat :=
  match vol.fatsize with
  | .fat12 => vol.sectSize * 6 * 2 / 3
  | .fat16 => vol.sectSize * 6 / 2
  | .fat32 => vol.sectSize * 6 / 4

def checkClust (x : Nat) : Prop :=
  x ≤ 1 ∨ x ≥ match vol.fatsize with
    | .fat12 => 0xff0
    | .fat16 => 0xfff0
    | .fat32 => 0xffffff0

instance decidableCheckClust (x : Nat) : Decidable (checkClust vol x) :=
  inferInstanceAs (Decidable (_ ∨ _))

def windowEntry (fatbuf : Mem) (offset : Nat) : Nat :=
  match vol.fatsize with
  | .fat32 => readLE fatbuf (4 * offset) 4
  | .fat16 => readLE fatbuf (2 * offset) 2
  | .fat12 =>
      let off16 := offset * 3 / 4
      let val1 := readLE fatbuf (2 * off16) 2
      let val2 := readLE fatbuf (2 * (off16 + 1)) 2
      match offset % 4 with
      | 0 => val1 % 0x1000
      | 1 => val2 % 0x100 * 16 + val1 / 0x1000
      | 2 => val2 % 0x10 * 256 + val1 / 0x100
      | _ => val1 / 16

def getFatentValue (entry : Nat) : Nat × FsData :=
  if checkClust vol entry then (0, s)
  else
    let bufnum := entry / bufsize vol
    let offset := entry - bufnum * bufsize vol
    match moveWindow vol s bufnum (windowSize vol) with
    | .flushFailed s => (2 ^ 32 - 1, s)
    | .readFailed s => (0, s)
    | .done s => (windowEntry vol s.fatbuf offset, s)

def entryWidth : Nat :=
  match vol.fatsize with
  | .fat32 => 4
  | _ => 2

/-- `set_fatent_value`, whose size of the window is compared with the length of the table in
bytes. -/
def setFatentValue (entry entryValue : Nat) : Bool × FsData :=
  if vol.fatsize = .fat12 then (false, s)
  else
    let bufnum := entry / bufsize vol
    let offset := entry - bufnum * bufsize vol
    let fatlength := vol.fatlength * vol.sectSize % 2 ^ 32
    let getsize := if 6 > fatlength then fatlength else 6
    match moveWindow vol s bufnum getsize with
    | .flushFailed s => (false, s)
    | .readFailed s => (false, s)
    | .done s =>
        (true, { s with
          fatbuf := writeLE s.fatbuf (entryWidth vol * offset) (entryWidth vol) entryValue })

end

inductive Call
  | get (entry : Nat)
  | set (entry entryValue : Nat)

def call (vol : Volume) (s : FsData) : Call → Option FsData
  | .get entry => some (getFatentValue vol s entry).2
  | .set entry v => if (setFatentValue vol s entry v).1 then some (setFatentValue vol s entry v).2
      else none

/-!
The window over the file allocation table.

Together, the buffer and the first copy on the disk hold one table: the window is in the buffer and
the rest is on the disk. Changes of the window keep that table as long as no window reaches beyond
the end of the copy, and each sector written is written to both copies.
-/

section
variable (vol : Volume)

def fatBytes : Nat := vol.fatlength * vol.sectSize

def fatStart : Nat := vol.fatSect * vol.sectSize

def windowStart (k : Nat) : Nat := k * 6 * vol.sectSize

def windowBytes : Nat := windowSize vol * vol.sectSize

def WindowInside (k : Nat) : Prop := k * 6 + windowSize vol ≤ vol.fatlength

instance decidableWindowInside (k : Nat) : Decidable (WindowInside vol k) :=
  inferInstanceAs (Decidable (_ ≤ _))

theorem windowSize_le : windowSize vol ≤ 6 := by
  rw [windowSize]
  split <;> omega

theorem windowSize_pos : 0 < windowSize vol := by
  grind [vol.length_pos, windowSize]

variable {vol}

theorem WindowInside.bytes {k : Nat} (h : WindowInside vol k) :
    windowStart vol k + windowBytes vol ≤ fatBytes vol := by
  rw [windowStart, windowBytes, fatBytes, ← Nat.add_mul]
  exact Nat.mul_le_mul_right _ h

variable (vol) in
theorem window_disjoint {j k : Nat} (h : j ≠ k) :
    windowStart vol j + windowBytes vol ≤ windowStart vol k ∨
      windowStart vol k + windowBytes vol ≤ windowStart vol j := by
  have hSize := windowSize_le vol
  rw [windowStart, windowStart, windowBytes, ← Nat.add_mul, ← Nat.add_mul]
  rcases Nat.lt_or_gt_of_ne h with hLt | hGt
  · exact .inl (Nat.mul_le_mul_right _ (by omega))
  · exact .inr (Nat.mul_le_mul_right _ (by omega))

variable (vol) in
theorem length_le_total : vol.fatSect + vol.fatlength ≤ vol.totalSector := by
  grind [vol.inside, vol.fats]

theorem twice_le_total (hFats : vol.numOfFats = 2) :
    vol.fatSect + 2 * vol.fatlength ≤ vol.totalSector := by
  have hInside := vol.inside
  rwa [hFats] at hInside

theorem WindowInside.startblock {k : Nat} (h : WindowInside vol k) :
    startblock vol k = vol.fatSect + k * 6 := by
  have hTotal := length_le_total vol
  have hDevice := vol.device
  grind [vol.device_lt, WindowInside, Fat.startblock]

end

def WindowOf (vol : Volume) (w : Nat × Nat) (k copy : Nat) : Prop :=
  w = (vol.fatSect + copy * vol.fatlength + k * 6, windowSize vol)

theorem windowOf_unique {vol : Volume} {w : Nat × Nat} {j k c d : Nat} (hj : WindowInside vol j)
    (hk : WindowInside vol k) (hLeft : WindowOf vol w j c) (hRight : WindowOf vol w k d) : j = k := by
  have hSize := windowSize_pos vol
  have hEq : c * vol.fatlength + j * 6 = d * vol.fatlength + k * 6 := by
    have hFst := congrArg Prod.fst (hLeft.symm.trans hRight)
    dsimp only at hFst
    omega
  rw [WindowInside] at hj hk
  have hMod : (c * vol.fatlength + j * 6) % vol.fatlength =
      (d * vol.fatlength + k * 6) % vol.fatlength := by rw [hEq]
  grind [Nat.mul_add_mod_of_lt]

structure Seen (vol : Volume) (want : Mem) (s : FsData) : Prop where
  /-- Every write was the write of a window inside of a copy. -/
  writes : ∀ w ∈ s.writes, ∃ k copy, WindowInside vol k ∧ copy < vol.numOfFats ∧ WindowOf vol w k copy
  /-- The copies agree on the windows that were written. -/
  copies : vol.numOfFats = 2 → ∀ w ∈ s.writes, ∀ k copy, WindowInside vol k → WindowOf vol w k copy →
    ∀ x < windowBytes vol, s.disk (fatStart vol + windowStart vol k + x) =
      s.disk (fatStart vol + fatBytes vol + windowStart vol k + x)
  /-- The disk holds the table, except for the window. -/
  disk : ∀ x < fatBytes vol,
    (∀ k : Nat, s.fatbufnum = k → x < windowStart vol k ∨ windowStart vol k + windowBytes vol ≤ x) →
    s.disk (fatStart vol + x) = want x
  /-- The buffer holds the window. -/
  buffer : s.fatbufnum = -1 ∨ ∃ k : Nat, s.fatbufnum = k ∧ WindowInside vol k ∧
    ∀ x < windowBytes vol, s.fatbuf x = want (windowStart vol k + x)

section
variable {vol : Volume} {want : Mem} {s : FsData}

def flushedDisk (vol : Volume) (s : FsData) (k : Nat) : Mem :=
  let first := store s.disk (fatStart vol + windowStart vol k) (load s.fatbuf 0 (windowBytes vol))
  if vol.numOfFats = 2 then
    store first (fatStart vol + fatBytes vol + windowStart vol k) (load s.fatbuf 0 (windowBytes vol))
  else first

theorem flushFatBuffer_eq {k : Nat} (hNum : s.fatbufnum = k) (hk : WindowInside vol k) :
    flushFatBuffer vol s = (true, { s with
      disk := flushedDisk vol s k
      writes := s.writes ++ if vol.numOfFats = 2 then
          [(vol.fatSect + k * 6, windowSize vol),
            (vol.fatSect + vol.fatlength + k * 6, windowSize vol)]
        else [(vol.fatSect + k * 6, windowSize vol)] }) := by
  have hStart : startblock vol s.fatbufnum = vol.fatSect + k * 6 := by rw [hNum, hk.startblock]
  have hTotal := length_le_total vol
  have hDevice := vol.device
  have hLt := vol.device_lt
  have hInside := hk
  rw [WindowInside] at hInside
  have hFirst : (vol.fatSect + k * 6) * vol.sectSize = fatStart vol + windowStart vol k := by
    rw [fatStart, windowStart, Nat.add_mul]
  have hSecond : (vol.fatSect + k * 6 + vol.fatlength) * vol.sectSize =
      fatStart vol + fatBytes vol + windowStart vol k := by
    rw [fatStart, fatBytes, windowStart]
    ring
  rw [flushFatBuffer, hStart, diskWrite, if_neg (by omega)]
  dsimp only
  by_cases hFats : vol.numOfFats = 2
  · have hTwice := twice_le_total hFats
    rw [if_pos hFats, Nat.mod_eq_of_lt (by omega), diskWrite, if_neg (by omega), flushedDisk,
      if_pos hFats, if_pos hFats, hFirst, hSecond, Nat.add_right_comm vol.fatSect vol.fatlength]
    simp [windowBytes]
  · rw [if_neg hFats, flushedDisk, if_neg hFats, if_neg hFats, hFirst]
    rfl

theorem windowOf_flushed {k : Nat} {w : Nat × Nat}
    (hw : w ∈ if vol.numOfFats = 2 then
        [(vol.fatSect + k * 6, windowSize vol),
          (vol.fatSect + vol.fatlength + k * 6, windowSize vol)]
      else [(vol.fatSect + k * 6, windowSize vol)]) :
    ∃ copy < vol.numOfFats, WindowOf vol w k copy := by
  have hFirst : WindowOf vol (vol.fatSect + k * 6, windowSize vol) k 0 := by
    rw [WindowOf, Nat.zero_mul, Nat.add_zero]
  have hSecond : WindowOf vol (vol.fatSect + vol.fatlength + k * 6, windowSize vol) k 1 := by
    rw [WindowOf, Nat.one_mul]
  split at hw
  · next hFats =>
    grind
  · have hFats := vol.fats
    grind

theorem flushedDisk_first {k x : Nat} (hk : WindowInside vol k) (hx : x < fatBytes vol) :
    flushedDisk vol s k (fatStart vol + x) =
      if windowStart vol k ≤ x ∧ x < windowStart vol k + windowBytes vol then
        s.fatbuf (x - windowStart vol k)
      else s.disk (fatStart vol + x) := by
  have hBytes := hk.bytes
  have hFirst : store s.disk (fatStart vol + windowStart vol k)
      (load s.fatbuf 0 (windowBytes vol)) (fatStart vol + x) =
      if windowStart vol k ≤ x ∧ x < windowStart vol k + windowBytes vol then
        s.fatbuf (x - windowStart vol k)
      else s.disk (fatStart vol + x) := by
    rw [store_load_apply, Nat.zero_add, Nat.add_sub_add_left]
    exact if_congr (by omega) rfl rfl
  rw [flushedDisk]
  split
  · rw [store_load_apply, if_neg (by omega), hFirst]
  · exact hFirst

theorem flushedDisk_second {k x : Nat} (hk : WindowInside vol k) (hFats : vol.numOfFats = 2) :
    flushedDisk vol s k (fatStart vol + fatBytes vol + x) =
      if windowStart vol k ≤ x ∧ x < windowStart vol k + windowBytes vol then
        s.fatbuf (x - windowStart vol k)
      else s.disk (fatStart vol + fatBytes vol + x) := by
  have hBytes := hk.bytes
  rw [flushedDisk, if_pos hFats, store_load_apply, store_load_apply,
    if_neg (show ¬ (_ ∧ fatStart vol + fatBytes vol + x <
      fatStart vol + windowStart vol k + _) by omega),
    Nat.zero_add, Nat.add_sub_add_left]
  exact if_congr (by omega) rfl rfl

theorem Seen.flush {k : Nat} (hSeen : Seen vol want s) (hNum : s.fatbufnum = k) :
    ∃ t, flushFatBuffer vol s = (true, t) ∧ Seen vol want t ∧ t.fatbufnum = s.fatbufnum ∧
      ∀ x < fatBytes vol, t.disk (fatStart vol + x) = want x := by
  have hWindow : WindowInside vol k ∧
      ∀ x < windowBytes vol, s.fatbuf x = want (windowStart vol k + x) := by
    rcases hSeen.buffer with hNone | ⟨j, hj, hBuffer⟩
    · omega
    · grind
  obtain ⟨hk, hBuffer⟩ := hWindow
  have hDisk : ∀ x < fatBytes vol, flushedDisk vol s k (fatStart vol + x) = want x := by
    intro x hx
    rw [flushedDisk_first hk hx]
    split
    · next hIn =>
      grind
    · next hOut =>
      apply hSeen.disk x hx
      grind
  refine ⟨_, flushFatBuffer_eq hNum hk, ⟨?_, ?_, fun x hx _ => hDisk x hx, hSeen.buffer⟩, rfl, hDisk⟩
  · intro w hw
    rcases List.mem_append.mp hw with hOld | hNew
    · exact hSeen.writes w hOld
    · obtain ⟨copy, hCopy, hOf⟩ := windowOf_flushed hNew
      exact ⟨k, copy, hk, hCopy, hOf⟩
  · intro hFats w hw j copy hj hOf x hx
    have hBytes := hj.bytes
    have hBytes' := hk.bytes
    dsimp only
    rw [Nat.add_assoc, Nat.add_assoc (_ + _), flushedDisk_first hk (by omega),
      flushedDisk_second hk hFats]
    by_cases hEq : j = k
    · rw [hEq, if_pos (by omega), if_pos (by omega)]
    · have hDisjoint := window_disjoint vol hEq
      rw [if_neg (by omega), if_neg (by omega), ← Nat.add_assoc, ← Nat.add_assoc]
      rcases List.mem_append.mp hw with hOld | hNew
      · exact hSeen.copies hFats w hOld j copy hj hOf x hx
      · obtain ⟨copy', -, hOf'⟩ := windowOf_flushed hNew
        exact absurd (windowOf_unique hj hk hOf hOf') hEq

end

section
variable {vol : Volume} {want : Mem} {s : FsData}

theorem Seen.move (hSeen : Seen vol want s) {k getsize : Nat} (hk : WindowInside vol k)
    (hSize : windowSize vol ≤ getsize) :
    ∃ t, Seen vol want t ∧
      (moveWindow vol s k getsize = .done t ∧ t.fatbufnum = k ∨
        moveWindow vol s k getsize = .readFailed t ∧
          vol.devSectors < vol.fatSect + k * 6 + getsize) := by
  rw [moveWindow]
  by_cases hSame : (k : Int) = s.fatbufnum
  · grind
  · rw [if_neg hSame]
    have hFlushed : ∃ t, (if s.fatbufnum ≠ -1 then flushFatBuffer vol s else (true, s)) = (true, t) ∧
        Seen vol want t ∧ ∀ x < fatBytes vol, t.disk (fatStart vol + x) = want x := by
      rcases hSeen.buffer with hNone | ⟨j, hj, -⟩
      · refine ⟨s, if_neg (not_not.mpr hNone), hSeen, fun x hx => hSeen.disk x hx fun j hj => ?_⟩
        omega
      · obtain ⟨t, hFlush, hKept, -, hDisk⟩ := hSeen.flush hj
        grind
    obtain ⟨t, hFlush, hKept, hDisk⟩ := hFlushed
    dsimp only
    rw [hFlush, if_pos rfl, diskRead, hk.startblock]
    by_cases hRead : getsize = 0 ∨ vol.fatSect + k * 6 + getsize ≤ vol.devSectors
    · rw [if_pos hRead]
      refine ⟨_, ?_, .inl ⟨rfl, rfl⟩⟩
      refine ⟨hKept.writes, hKept.copies, fun x hx _ => hDisk x hx, .inr ⟨k, rfl, hk, ?_⟩⟩
      intro x hx
      have hBytes := hk.bytes
      have hLoaded : windowBytes vol ≤ getsize * vol.sectSize := Nat.mul_le_mul_right _ hSize
      have hPlace : (vol.fatSect + k * 6) * vol.sectSize + x =
          fatStart vol + (windowStart vol k + x) := by
        rw [fatStart, windowStart]
        ring
      dsimp only
      rw [store_load_apply, if_pos (by omega), Nat.sub_zero, hPlace, hDisk _ (by omega)]
    · grind

end

end Fire3.Fat

import Fire3.Base.Transition
import Fire3.Fastboot.Calls
import Fire3.Fastboot.SparseConfined

/-!
Whether the reply to a flash command is true.

For a partition of the map, and behind a split download, the reply is `OKAY` whatever became
of the image; without a map it is `FAIL` even if the image was written. If the map does not
have the name, the reply is what stood in the buffer on the stack.
-/

namespace Fire3.Fastboot
open CString ByteMemory Transition

/-- Without a map: the tables are valid and written, or the partition is there, a raw image fits or
a sparse one is acceptable, and the card takes all writes. -/
def GptCard.Takes (card : GptCard) (cmd : CStr) (sessionId lastOffset : Nat) (img : Mem)
    (downloadBytes : Nat) : Prop :=
  card.present = true ∧
    if cmd = ascii "gpt" then card.tableValid = true ∧ card.tableWritten = true
    else ∃ info, partitionByNameOrAlias card cmd = some info ∧
      if isSparseImage img then
        Acceptable info.storage (firstBlock info.storage sessionId lastOffset) img ∧
          ∀ k < (pieces info.blksz (requests (imageItems info.storage img).1)).length,
            card.ok k = true
      else rawBlkcnt info downloadBytes ≤ info.size ∧
        (rawBlkcnt info downloadBytes = 0 ∨ card.ok 0 = true)

theorem blkCount_lt {bytes : Nat} (h : bytes < 2 ^ 32) : blkCount bytes < 2 ^ 32 := by
  rw [blkCount_eq, blkSize]
  omega

section
variable {card : GptCard} {info : DiskPartition} {cmd : CStr} {img : Mem} {downloadBytes : Nat}

end

section
variable {s : Session} {c : FlashCall} {cmd : CStr}

end

theorem kept_start (buf : Mem) : Kept (Session.start buf).made (Session.start buf).gadget :=
  ⟨.nil, Nat.two_pow_pos 32, Nat.two_pow_pos 32⟩

def FsType.rawType (t : FsType) : Bool := t.bootArea || t = .raw

def Write.Proper (w : Write) : Prop :=
  w.entry.length ≠ 0 → w.split = true ∨ w.entry.fsType.rawType = true → w.request.cnt ≠ 0 →
    w.image ≤ w.entry.length ∧ w.request.dev = w.entry.devNo ∧
      ∀ sector, w.request.blk ≤ sector → sector < w.request.blk + w.request.cnt →
        w.entry.start ≤ blkSize * sector ∧
          blkSize * (sector + 1) ≤ w.entry.start + w.entry.length

/-- The image fits, and so do the blocks that the bytes of this call touch, counted from the
block that holds the start. For `mmc write` the device must be selected and the number of the
block must have 32 bits. -/
def Call.Fits (c : Call) (m p : FlashPart) : Prop :=
  c.image ≤ m.length ∧ m.start ≤ blkSize * (p.start / blkSize) ∧
    blkSize * (p.start / blkSize + blkCount c.bytes) ≤ m.start + m.length ∧
    (c.isDivDl = false → p.fsType.bootArea = true →
      c.answer.current = m.devNo ∧ p.start / blkSize < 2 ^ 32)

def Call.Allowed (c : Call) : Prop :=
  ∀ e ∈ c.made.zip c.parts, e.2.partition = c.cmd → c.answer.found = true →
    c.isDivDl = true ∨ e.2.fsType.rawType = true → e.1.length ≠ 0 → c.bytes ≠ 0 → c.Fits e.1 e.2

/-- Nothing was written outside a partition, and nothing of an image that is too large. -/
def Session.Inside (s : Session) : Prop := ∀ w ∈ s.writes, w.Proper

def Session.Allows (board : Board) (s : Session) (e : Event) : Prop :=
  ∀ c, s.call board e = some c → c.Allowed

theorem blkCount_ne_zero {bytes : Nat} : blkCount bytes ≠ 0 ↔ bytes ≠ 0 := by
  rw [blkCount_eq, blkSize]
  omega

theorem blocks_inside_iff {start length blk cnt : Nat} (h : cnt ≠ 0) :
    (∀ sector, blk ≤ sector → sector < blk + cnt →
        start ≤ blkSize * sector ∧ blkSize * (sector + 1) ≤ start + length) ↔
      start ≤ blkSize * blk ∧ blkSize * (blk + cnt) ≤ start + length := by
  unfold blkSize
  constructor
  · intro hAll
    have hFirst := hAll blk (Nat.le_refl blk) (by omega)
    have hLast := hAll (blk + cnt - 1) (by omega) (by omega)
    omega
  · intro hEnds sector hLow hHigh
    omega

section
variable {c : Call} {m p : FlashPart}

theorem mem_writes {w : Write} :
    w ∈ c.writes ↔ ∃ e ∈ c.made.zip c.parts, ∃ r,
      (flashEntry c.isDivDl c.answer c.cmd c.bytes e.2 []).1.request = some r ∧
        w = ⟨e.1, c.isDivDl, c.image, r⟩ := by
  unfold Call.writes logWrites
  rw [writes_of_parts, List.zip_map_right]
  simp only [List.mem_filterMap, List.mem_map, Option.map_eq_some_iff]
  constructor
  · grind
  · grind

theorem proper_iff {r : Request} (hKind : c.isDivDl = true ∨ m.fsType.rawType = true) :
    Write.Proper ⟨m, c.isDivDl, c.image, r⟩ ↔
      (m.length ≠ 0 → r.cnt ≠ 0 → c.image ≤ m.length ∧ r.dev = m.devNo ∧
        m.start ≤ blkSize * r.blk ∧ blkSize * (r.blk + r.cnt) ≤ m.start + m.length) := by
  unfold Write.Proper
  constructor
  · intro h hLength hCnt
    rw [← blocks_inside_iff hCnt]
    exact h hLength hKind hCnt
  · intro h hLength _ hCnt
    rw [blocks_inside_iff hCnt]
    exact h hLength hCnt

theorem bwrite_allowed_iff (hKind : c.isDivDl = true ∨ m.fsType.rawType = true)
    (hOwn : c.isDivDl = true ∨ p.fsType.bootArea = false) (hDev : p.devNo = m.devNo) :
    Write.Proper ⟨m, c.isDivDl, c.image, ⟨p.devNo, p.start / blkSize, blkCount c.bytes⟩⟩ ↔
      (m.length ≠ 0 → c.bytes ≠ 0 → c.Fits m p) := by
  have hCommand : c.isDivDl = false → p.fsType.bootArea = true →
      c.answer.current = m.devNo ∧ p.start / blkSize < 2 ^ 32 := by
    intro hSplit hArea
    simp [hSplit, hArea] at hOwn
  rw [proper_iff hKind]
  simp only [Call.Fits, blkCount_ne_zero, hDev, true_and, iff_true_intro hCommand, and_true]

/-- The types that are written by `mmc write`: the numbers have 32 bits, and a block that has lost
some of them lies before the entry. -/
theorem bootArea_allowed_iff (hSplit : c.isDivDl = false) (hArea : m.fsType.bootArea = true)
    (hBytes : c.bytes < 2 ^ 32) :
    Write.Proper ⟨m, c.isDivDl, c.image,
        ⟨c.answer.current, m.start / blkSize % 2 ^ 32, blkCount c.bytes % 2 ^ 32⟩⟩ ↔
      (m.length ≠ 0 → c.bytes ≠ 0 → c.Fits m m) := by
  rw [proper_iff (.inr (by simp [FsType.rawType, hArea])), Nat.mod_eq_of_lt (blkCount_lt hBytes)]
  simp only [Call.Fits, blkCount_ne_zero, hSplit, hArea, forall_const]
  refine imp_congr_right fun _ => imp_congr_right fun _ => ?_
  have hBlock := Nat.div_mul_le_self m.start blkSize
  constructor
  · rintro ⟨hImage, hDev, hStart, hEnd⟩
    have hSmall : m.start / blkSize < 2 ^ 32 := by
      unfold blkSize at *
      omega
    grind
  · grind

theorem split_allowed_iff (hSplit : c.isDivDl = true) (hFound : c.answer.found = true)
    (hMoved : Moved m p) :
    (∀ r, (mmcPartWrite c.isDivDl c.answer p c.bytes).request = some r →
        Write.Proper ⟨m, c.isDivDl, c.image, r⟩) ↔
      (m.length ≠ 0 → c.bytes ≠ 0 → c.Fits m p) := by
  have hDev : p.devNo = m.devNo := by rw [hMoved]
  have hRequest : (mmcPartWrite c.isDivDl c.answer p c.bytes).request =
      some ⟨p.devNo, p.start / blkSize, blkCount c.bytes⟩ := by
    rw [hSplit, mmcPartWrite_split, if_pos hFound]
  simp only [hRequest, Option.some.injEq, forall_eq']
  grind [bwrite_allowed_iff]

theorem whole_allowed_iff (hSplit : c.isDivDl = false) (hFound : c.answer.found = true)
    (hBytes : c.bytes < 2 ^ 32) :
    (∀ r, (mmcPartWrite c.isDivDl c.answer m c.bytes).request = some r →
        Write.Proper ⟨m, c.isDivDl, c.image, r⟩) ↔
      (m.fsType.rawType = true → m.length ≠ 0 → c.bytes ≠ 0 → c.Fits m m) := by
  cases hRaw : m.fsType.rawType with
  | false => simp [Write.Proper, hSplit, hRaw]
  | true =>
      cases hArea : m.fsType.bootArea with
      | true =>
          have hRequest : (mmcPartWrite c.isDivDl c.answer m c.bytes).request =
              some ⟨c.answer.current, m.start / blkSize % 2 ^ 32, blkCount c.bytes % 2 ^ 32⟩ := by
            simp [mmcPartWrite, hSplit, hFound, hArea]
          simp only [hRequest, Option.some.injEq, forall_eq', forall_const]
          exact bootArea_allowed_iff hSplit hArea hBytes
      | false =>
          have hType : m.fsType = .raw := by simpa [FsType.rawType, hArea] using hRaw
          have hRequest : (mmcPartWrite c.isDivDl c.answer m c.bytes).request =
              some ⟨m.devNo, m.start / blkSize, blkCount c.bytes⟩ := by
            grind [mmcPartWrite, FsType.bootArea, FsType.inMask]
          simp only [hRequest, Option.some.injEq, forall_eq', forall_const]
          grind [bwrite_allowed_iff]

theorem entry_allowed_iff (hEntry : if c.isDivDl then Moved m p else p = m)
    (hBytes : c.isDivDl = false → c.bytes < 2 ^ 32) :
    (∀ r, (flashEntry c.isDivDl c.answer c.cmd c.bytes p []).1.request = some r →
        Write.Proper ⟨m, c.isDivDl, c.image, r⟩) ↔
      (p.partition = c.cmd → c.answer.found = true →
        c.isDivDl = true ∨ p.fsType.rawType = true → m.length ≠ 0 → c.bytes ≠ 0 → c.Fits m p) := by
  rw [flashEntry_write]
  by_cases hName : p.partition = c.cmd
  case neg => simp [hName]
  simp only [hName, if_true, forall_const]
  cases hFound : c.answer.found with
  | false => simp [mmcPartWrite, hFound]
  | true =>
      cases hSplit : c.isDivDl with
      | true =>
          rw [hSplit, if_pos rfl] at hEntry
          grind [split_allowed_iff]
      | false =>
          rw [hSplit, if_neg Bool.false_ne_true] at hEntry
          grind [whole_allowed_iff]

theorem writes_allowed_iff (hSound : c.Sound) : (∀ w ∈ c.writes, w.Proper) ↔ c.Allowed := by
  have hEntries {e : FlashPart × FlashPart} (hMem : e ∈ c.made.zip c.parts) :=
    (List.forall₂_iff_zip.mp hSound.entries).2 hMem
  unfold Call.Allowed
  constructor
  · intro hAll e hMem
    rw [← entry_allowed_iff (hEntries hMem) hSound.bytes_lt]
    intro r hRequest
    exact hAll _ (mem_writes.mpr ⟨e, hMem, r, hRequest, rfl⟩)
  · intro hAll w hMem
    obtain ⟨e, hZip, r, hRequest, rfl⟩ := mem_writes.mp hMem
    exact (entry_allowed_iff (hEntries hZip) hSound.bytes_lt).mpr (hAll e hZip) r hRequest

end

theorem inside_step {board : Board} {s : Session} (e : Event) (hKept : Kept s.made s.gadget)
    (hInside : s.Inside) : (s.step board e).Inside ↔ s.Allows board e := by
  unfold Session.Inside Session.Allows at *
  rw [step_writes, List.forall_mem_append]
  cases hCall : s.call board e with
  | none => simpa using hInside
  | some call =>
      have hAllowed := writes_allowed_iff (sound_call hKept hCall)
      simpa [hAllowed] using fun _ => hInside

/-- Every write of a session, after any number of steps, lies in the partition of its entry, and
there is none for an image that is too large, exactly if each call fits. -/
theorem flash_inside_iff_allowed (board : Board) (buf : Mem) (events : List Event) :
    (∀ k, ((events.take k).foldl (Session.step board) (Session.start buf)).Inside) ↔
      Meets (Session.step board) (Session.Allows board) (Session.start buf) events :=
  @always_iff_meets _ _ (Session.step board) (Session.Allows board)
    (fun s => Kept s.made s.gadget) Session.Inside (fun _ e => kept_step e)
    (fun _ e => inside_step e) (Session.start buf) (kept_start buf) (fun _ h => nomatch h) events

/-- Two blocks are written to the partition of one. -/
theorem flash_oversized_image :
    ¬ ((flashRun 1024 workingCard).foldl (Session.step s5p6818) (Session.start fun _ => 0)).Inside := by
  have hWrites : ((flashRun 1024 workingCard).foldl (Session.step s5p6818)
      (Session.start fun _ => 0)).writes = [⟨oneBlock, false, 1024, ⟨0, 1, 2⟩⟩] := by
    decide +kernel
  intro hInside
  have hProper := hInside ⟨oneBlock, false, 1024, ⟨0, 1, 2⟩⟩ (by simp [hWrites])
  exact absurd (hProper (by decide) (by decide) (by decide)).1 (by decide)

end Fire3.Fastboot

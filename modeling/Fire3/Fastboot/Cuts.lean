import Fire3.Fastboot.Download

/-!
Where a split download is cut when the host completes every request in full.

The buffer is written once it has reached the threshold. As long as the requests have whole
blocks, so have the cuts. At full speed a request asks for one packet while more than 2 GiB
are missing and for 4096 bytes from then on, and the change may come at any packet.
-/

namespace Fire3.Fastboot

def nextLength (maxpacket missing : Nat) : Nat := min (asked maxpacket missing) missing

inductive Cuts (board : Board) (size : Nat) : Nat → Nat → List Nat → Prop
  | last {bytes held : Nat} (done : bytes + nextLength board.maxpacket (size - bytes) = size) :
      Cuts board size bytes held []
  | keep {bytes held : Nat} {cs : List Nat}
      (more : bytes + nextLength board.maxpacket (size - bytes) < size)
      (small : held + nextLength board.maxpacket (size - bytes) < board.divSize)
      (rest : Cuts board size (bytes + nextLength board.maxpacket (size - bytes))
        (held + nextLength board.maxpacket (size - bytes)) cs) :
      Cuts board size bytes held cs
  | cut {bytes held : Nat} {cs : List Nat}
      (more : bytes + nextLength board.maxpacket (size - bytes) < size)
      (full : board.divSize ≤ held + nextLength board.maxpacket (size - bytes))
      (rest : Cuts board size (bytes + nextLength board.maxpacket (size - bytes)) 0 cs) :
      Cuts board size bytes held ((bytes + nextLength board.maxpacket (size - bytes)) :: cs)

section
variable {board : Board} {size bytes held : Nat} {cs : List Nat}

theorem Cuts.forall_of_invariant (inv : Nat → Nat → Prop) {good : Nat → Prop}
    (hKeep : ∀ bytes held, inv bytes held →
      bytes + nextLength board.maxpacket (size - bytes) < size →
      held + nextLength board.maxpacket (size - bytes) < board.divSize →
      inv (bytes + nextLength board.maxpacket (size - bytes))
        (held + nextLength board.maxpacket (size - bytes)))
    (hCut : ∀ bytes held, inv bytes held →
      bytes + nextLength board.maxpacket (size - bytes) < size →
      board.divSize ≤ held + nextLength board.maxpacket (size - bytes) →
      good (bytes + nextLength board.maxpacket (size - bytes)) ∧
        inv (bytes + nextLength board.maxpacket (size - bytes)) 0)
    (h : Cuts board size bytes held cs) (hInv : inv bytes held) : ∀ c ∈ cs, good c := by
  induction h with
  | last => simp
  | keep more small _ ih => exact ih (hKeep _ _ hInv more small)
  | cut more full _ ih =>
      obtain ⟨hGood, hNext⟩ := hCut _ _ hInv more full
      exact List.forall_mem_cons.mpr ⟨hGood, ih hNext⟩

theorem Cuts.lt (h : Cuts board size bytes held cs) : ∀ c ∈ cs, c < size :=
  Cuts.forall_of_invariant (fun _ _ => True) (fun _ _ _ _ _ => trivial)
    (fun _ _ _ more _ => ⟨more, trivial⟩) h trivial

theorem cuts_highSpeed (hPacket : board.maxpacket = 512) (h : Cuts board size bytes held cs)
    (hBytes : 512 ∣ bytes) : ∀ c ∈ cs, 512 ∣ c := by
  have hNext (bytes : Nat) (hBytes : 512 ∣ bytes)
      (hMore : bytes + nextLength board.maxpacket (size - bytes) < size) :
      512 ∣ bytes + nextLength board.maxpacket (size - bytes) := by
    rw [nextLength, hPacket, asked, epBufferSize] at hMore ⊢
    split_ifs at hMore ⊢ <;> omega
  exact Cuts.forall_of_invariant (fun bytes _ => 512 ∣ bytes)
    (fun bytes _ hInv more _ => hNext bytes hInv more)
    (fun bytes _ hInv more _ => ⟨hNext bytes hInv more, hNext bytes hInv more⟩) h hBytes

end

section
variable {board : Board} {size bytes held : Nat} {cs : List Nat}

def Late (size bytes held : Nat) : Prop :=
  size - bytes < 2 ^ 31 ∧ held < 0x10000000 ∧
    ((512 ∣ bytes ∧ 4096 ∣ held) ∨ size - bytes < 64)

def Changed (off size bytes held : Nat) : Prop :=
  size - bytes < 2 ^ 31 ∧ held < 0x10000000 ∧ 2 ^ 31 - 64 ≤ size - bytes + held ∧ bytes % 512 = off

def Early (size bytes held : Nat) : Prop :=
  2 ^ 31 ≤ size - bytes ∧ 64 ∣ bytes ∧ held = bytes % 0x10000000

def changeOffset (size : Nat) : Nat := 64 * ((size - 2 ^ 31) / 64 + 1) % 512

theorem nextLength_early (h : Early size bytes held) : nextLength 64 (size - bytes) = 64 := by
  have hMissing := h.1
  rw [nextLength, asked, if_pos hMissing]
  omega

theorem early_next (h : Early size bytes held) :
    (2 ^ 31 ≤ size - (bytes + 64) ∨
      (size - (bytes + 64) < 2 ^ 31 ∧ 2 ^ 31 - 64 ≤ size - (bytes + 64) ∧
        (bytes + 64) % 512 = changeOffset size)) := by
  obtain ⟨hMissing, hBytes, -⟩ := h
  rw [changeOffset]
  by_cases hLong : 2 ^ 31 ≤ size - (bytes + 64)
  · exact .inl hLong
  · have hCount : bytes = 64 * ((size - 2 ^ 31) / 64) := by omega
    exact .inr ⟨by omega, by omega, by omega⟩

theorem nextLength_changed {off : Nat} (h : Changed off size bytes held) :
    nextLength 64 (size - bytes) = 4096 := by
  obtain ⟨hMissing, hHeld, hFar, -⟩ := h
  rw [nextLength, asked, if_neg (by omega), if_pos (by rw [epBufferSize]; omega), epBufferSize]
  omega

theorem late_next (h : Late size bytes held) (hMore : bytes + nextLength 64 (size - bytes) < size) :
    (512 ∣ bytes + nextLength 64 (size - bytes) ∧ 4096 ∣ held + nextLength 64 (size - bytes)) ∨
      (size - (bytes + nextLength 64 (size - bytes)) < 64 ∧
        held + nextLength 64 (size - bytes) < 0x10000000) := by
  obtain ⟨hMissing, hHeld, hWhole⟩ := h
  rw [nextLength, asked, if_neg (by omega), epBufferSize] at hMore ⊢
  split_ifs at hMore ⊢ <;> omega

theorem cuts_late (hPacket : board.maxpacket = 64) (hDiv : board.divSize = 0x10000000)
    (h : Cuts board size bytes held cs) (hLate : Late size bytes held) : ∀ c ∈ cs, 512 ∣ c := by
  refine Cuts.forall_of_invariant (Late size) ?_ ?_ h hLate
  · intro bytes held hInv more small
    rw [hPacket] at more small ⊢
    rw [hDiv] at small
    refine ⟨by have := hInv.1; omega, small, ?_⟩
    grind [late_next]
  · intro bytes held hInv more full
    rw [hPacket] at more full ⊢
    rw [hDiv] at full
    obtain hWhole | hEnd := late_next hInv more
    · exact ⟨hWhole.1, by have := hInv.1; omega, by omega, .inl ⟨hWhole.1, by omega⟩⟩
    · omega

theorem cuts_changed {off : Nat} (hPacket : board.maxpacket = 64) (hDiv : board.divSize = 0x10000000)
    (h : Cuts board size bytes held cs) (hChanged : Changed off size bytes held) :
    if off = 0 then ∀ c ∈ cs, 512 ∣ c else ∃ c ∈ cs, ¬512 ∣ c := by
  induction h with
  | last done =>
      rw [hPacket, nextLength_changed hChanged] at done
      have := hChanged.2
      omega
  | keep more small _ ih =>
      rw [hPacket, nextLength_changed hChanged] at more small ih
      rw [hDiv] at small
      obtain ⟨hMissing, -, hFar, hOff⟩ := hChanged
      exact ih ⟨by omega, small, by omega, by omega⟩
  | cut more full rest ih =>
      rw [hPacket, nextLength_changed hChanged] at more full rest ⊢
      obtain ⟨hMissing, -, hFar, hOff⟩ := hChanged
      split_ifs with hZero
      · exact List.forall_mem_cons.mpr ⟨by omega, cuts_late hPacket hDiv rest
          ⟨by omega, by omega, .inl ⟨by omega, by omega⟩⟩⟩
      · exact ⟨_, List.mem_cons_self, by omega⟩

theorem cuts_early (hPacket : board.maxpacket = 64) (hDiv : board.divSize = 0x10000000)
    (h : Cuts board size bytes held cs) (hEarly : Early size bytes held) :
    if changeOffset size = 0 then ∀ c ∈ cs, 512 ∣ c else ∃ c ∈ cs, ¬512 ∣ c := by
  induction h with
  | last done =>
      rw [hPacket, nextLength_early hEarly] at done
      have := hEarly.1
      omega
  | keep more small rest ih =>
      rw [hPacket, nextLength_early hEarly] at more small rest ih
      rw [hDiv] at small
      obtain ⟨hMissing, hBytes, hHeld⟩ := hEarly
      obtain hLong | ⟨hShort, hFar, hOff⟩ := early_next ⟨hMissing, hBytes, hHeld⟩
      · exact ih ⟨hLong, by omega, by omega⟩
      · exact cuts_changed hPacket hDiv rest ⟨hShort, small, by omega, hOff⟩
  | @cut bytes held cs more full rest ih =>
      rw [hPacket, nextLength_early hEarly] at more full rest ih ⊢
      rw [hDiv] at full
      obtain ⟨hMissing, hBytes, hHeld⟩ := hEarly
      have hHere : 512 ∣ bytes + 64 := by omega
      have hRest : if changeOffset size = 0 then ∀ c ∈ cs, 512 ∣ c else ∃ c ∈ cs, ¬512 ∣ c := by
        obtain hLong | ⟨hShort, hFar, hOff⟩ := early_next ⟨hMissing, hBytes, hHeld⟩
        · exact ih ⟨hLong, by omega, by omega⟩
        · exact cuts_changed hPacket hDiv rest ⟨hShort, by omega, by omega, hOff⟩
      split_ifs at hRest ⊢ with hZero
      · exact List.forall_mem_cons.mpr ⟨hHere, hRest⟩
      · grind

end

/-- The requests have whole blocks, or they change at the end of one. -/
def WholeBlocks (maxpacket size : Nat) : Prop :=
  maxpacket = 512 ∨ size < 2 ^ 31 ∨ (size - 2 ^ 31) / 64 % 8 = 7

theorem cuts_whole_iff {board : Board} {size : Nat} {cs : List Nat}
    (hPacket : board.maxpacket = 64 ∨ board.maxpacket = 512) (hDiv : board.divSize = 0x10000000)
    (h : Cuts board size 0 0 cs) : (∀ c ∈ cs, 512 ∣ c) ↔ WholeBlocks board.maxpacket size := by
  obtain hFull | hHigh := hPacket
  · by_cases hSmall : size < 2 ^ 31
    · have hLate : Late size 0 0 := ⟨by omega, by omega, .inl ⟨by omega, by omega⟩⟩
      exact iff_of_true (cuts_late hFull hDiv h hLate) (.inr (.inl hSmall))
    · have hCuts := cuts_early hFull hDiv h ⟨by omega, by omega, rfl⟩
      have hOffset : changeOffset size = 0 ↔ (size - 2 ^ 31) / 64 % 8 = 7 := by
        rw [changeOffset]
        omega
      rw [WholeBlocks, hFull, ← hOffset]
      split_ifs at hCuts with hZero
      · exact iff_of_true hCuts (.inr (.inr hZero))
      · obtain ⟨c, hc, hOdd⟩ := hCuts
        refine iff_of_false (fun hAll => hOdd (hAll c hc)) ?_
        omega
  · exact iff_of_true (cuts_highSpeed hHigh h (by omega)) (.inl hHigh)

end Fire3.Fastboot

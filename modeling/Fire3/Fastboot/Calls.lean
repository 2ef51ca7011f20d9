import Fire3.Fastboot.Session

/-!
The calls of `fb_flash_write_based_partmap` in a session: what a step writes is what its call
writes, and what every state of a run keeps.
-/

namespace Fire3.Fastboot
open CString ByteMemory

def Moved (m p : FlashPart) : Prop := p = { m with start := p.start }

structure Kept (made : List FlashPart) (g : Gadget) : Prop where
  entries : List.Forall₂ Moved made g.parts
  size_lt : g.downloadSize < 2 ^ 32
  bytes_lt : g.downloadBytes < 2 ^ 32

structure Call.Sound (c : Call) : Prop where
  entries : List.Forall₂ (fun m p => if c.isDivDl then Moved m p else p = m) c.made c.parts
  bytes_lt : c.isDivDl = false → c.bytes < 2 ^ 32

theorem writes_remade_parts (g : Gadget) (a : Answer) (cmd : CStr) (bytes : Nat) (response : CStr) :
    (g.flash a cmd bytes response).2.1 =
      (fbFlashWriteBasedPartmap g.isDivDl a cmd bytes g.parts []).1 := by
  rw [writes_of_parts, ← writes_of_parts g.isDivDl a cmd bytes g.parts response]
  rfl

theorem receive_fields (g : Gadget) (data : List UInt8) :
    (g.receive data).isDivDl = g.isDivDl ∧ (g.receive data).parts = g.parts ∧
      (g.receive data).downloadSize = g.downloadSize := by
  grind [Gadget.receive]

theorem request_eq (g : Gadget) (board : Board) :
    ∃ length, g.request board = { g with reqLength := length } :=
  ⟨_, rfl⟩

section
variable {board : Board} {s : Session} {status : Int} {data : List UInt8} {a : Answer}

theorem rxHandlerDlImage_quiet (h : s.chunkCall board status data a = none) :
    (s.gadget.rxHandlerDlImage board status data a).2.1 = [] ∧
      (s.gadget.rxHandlerDlImage board status data a).1.parts = s.gadget.parts := by
  have hParts := (receive_fields s.gadget data).2.1
  obtain ⟨length, hRequest⟩ := request_eq (s.gadget.receive data) board
  unfold Session.chunkCall at h
  unfold Gadget.rxHandlerDlImage
  simp only [hRequest] at h ⊢
  split_ifs with hBad hAll hFull
  · exact ⟨rfl, rfl⟩
  · exact ⟨rfl, hParts⟩
  · grind
  · exact ⟨rfl, hParts⟩

theorem rxHandlerDlImage_call {call : Call} (h : s.chunkCall board status data a = some call) :
    (s.gadget.rxHandlerDlImage board status data a).2.1 =
        (fbFlashWriteBasedPartmap true a call.cmd call.bytes s.gadget.parts []).1 ∧
      (s.gadget.rxHandlerDlImage board status data a).1.parts =
        ((s.gadget.rxHandlerDlImage board status data a).2.1).map PartWrite.part ∧
      call = ⟨s.made, s.gadget.parts, true, a, call.cmd, call.bytes, s.gadget.downloadSize⟩ ∧
      s.gadget.isDivDl = true := by
  obtain ⟨hSplit, hParts, hSize⟩ := receive_fields s.gadget data
  obtain ⟨length, hRequest⟩ := request_eq (s.gadget.receive data) board
  unfold Session.chunkCall at h
  dsimp only at h
  split_ifs at h with hCall
  obtain ⟨hStatus, hReceiving, hMore, hDiv, hFull⟩ := hCall
  obtain rfl := Option.some.inj h
  unfold Gadget.rxHandlerDlImage
  simp only [hRequest]
  rw [if_neg (by simp [hStatus, hReceiving]), if_neg (not_le.mpr hMore), if_pos ⟨hDiv, hFull⟩]
  refine ⟨?_, rfl, by rw [hParts, hSize], hSplit ▸ hDiv⟩
  rw [writes_remade_parts, hDiv, hParts]

theorem remade_eq (g : Gadget) (cmd : CStr) (c : FlashCall) :
    ∃ parts, g.remade cmd c = { g with parts := parts } := by
  unfold Gadget.remade
  split
  · exact ⟨_, rfl⟩
  · exact ⟨g.parts, rfl⟩

theorem cbFlash_writes (cmd : Option CStr) (c : FlashCall) :
    logWrites (if s.gadget.isDivDl then cmd.elim s.made (s.remade · c) else c.partmap.getD [])
        s.gadget.isDivDl s.gadget.downloadBytes (s.gadget.cbFlash cmd c).2.1 =
      ((s.flashCall cmd c).map Call.writes).getD [] := by
  cases cmd with
  | none => simp [Gadget.cbFlash, Session.flashCall, logWrites]
  | some cmd =>
      cases hReserved : c.reserved cmd with
      | some response => simp [Gadget.cbFlash, Session.flashCall, hReserved, logWrites]
      | none =>
          obtain ⟨parts, hRemade⟩ := remade_eq s.gadget cmd c
          cases hSplit : s.gadget.isDivDl with
          | true =>
              simp [Gadget.cbFlash, Session.flashCall, hReserved, hRemade, Gadget.flashPartition,
                hSplit, writes_remade_parts, Call.writes]
          | false =>
              cases hMap : c.partmap <;>
              simp [Gadget.cbFlash, Session.flashCall, hReserved, hRemade, Gadget.flashPartition,
                hSplit, hMap, writes_remade_parts, Call.writes, logWrites]

theorem step_writes (e : Event) :
    (s.step board e).writes = s.writes ++ ((s.call board e).map Call.writes).getD [] := by
  cases e with
  | getvar parts => exact (List.append_nil _).symm
  | download cmd => exact (List.append_nil _).symm
  | data status data a =>
      rw [Session.step, Session.call]
      refine congrArg (s.writes ++ ·) ?_
      cases hCall : s.chunkCall board status data a with
      | none => simp [rxHandlerDlImage_quiet hCall, logWrites]
      | some call =>
          obtain ⟨hWrites, -, hFields, hSplit⟩ := rxHandlerDlImage_call hCall
          rw [hWrites, hSplit, hFields]
          rfl
  | flash cmd c => exact congrArg (s.writes ++ ·) (cbFlash_writes cmd c)

theorem moved_refl (parts : List FlashPart) : List.Forall₂ Moved parts parts :=
  List.forall₂_same.mpr fun _ _ => rfl

theorem moved_entry {m p : FlashPart} (cmd : CStr) (bytes : Nat) (h : Moved m p) :
    Moved m (flashEntry true a cmd bytes p []).1.part := by
  have hStart (start : Nat) : Moved m { p with start := start } := by
    show { p with start := start } = { m with start := start }
    rw [h]
  rw [flashEntry_write, mmcPartWrite_split]
  split_ifs
  · exact hStart _
  · exact h
  · exact h

theorem cbFlash_counts (g : Gadget) (cmd : CStr) (c : FlashCall) :
    (g.cbFlash (some cmd) c).1.downloadSize = g.downloadSize ∧
      (g.cbFlash (some cmd) c).1.downloadBytes = g.downloadBytes := by
  obtain ⟨parts, hRemade⟩ := remade_eq g cmd c
  unfold Gadget.cbFlash Gadget.flashPartition
  simp only [hRemade]
  cases c.reserved cmd with
  | some response => exact ⟨rfl, rfl⟩
  | none =>
      cases g.isDivDl with
      | true => exact ⟨rfl, rfl⟩
      | false => cases c.partmap <;> exact ⟨rfl, rfl⟩

namespace Kept
variable {made : List FlashPart} {g : Gadget}

theorem request (h : Kept made g) : Kept made (g.request board) := by
  obtain ⟨length, hRequest⟩ := request_eq g board
  rw [hRequest]
  exact ⟨h.entries, h.size_lt, h.bytes_lt⟩

theorem cbDownload (cmd : CStr) (h : Kept made g) : Kept made (g.cbDownload board cmd).1 := by
  have hSize := Nat.mod_lt (simpleStrtoul cmd 16) (Nat.two_pow_pos 32)
  unfold Gadget.cbDownload
  dsimp only
  split_ifs
  · exact ⟨h.entries, hSize, Nat.two_pow_pos 32⟩
  · cases board.partition with
    | none => exact ⟨h.entries, Nat.two_pow_pos 32, Nat.two_pow_pos 32⟩
    | some part => exact request ⟨h.entries, hSize, Nat.two_pow_pos 32⟩
  · exact request ⟨h.entries, hSize, Nat.two_pow_pos 32⟩

theorem receive (data : List UInt8) (h : Kept made g) : Kept made (g.receive data) := by
  have hTransfer := List.length_take_le (g.downloadSize - g.downloadBytes) data
  have hBytes : g.downloadBytes + (data.take (g.downloadSize - g.downloadBytes)).length < 2 ^ 32 := by
    have := h.size_lt
    have := h.bytes_lt
    omega
  unfold Gadget.receive
  dsimp only
  split_ifs
  · exact ⟨h.entries, h.size_lt, hBytes⟩
  · exact ⟨h.entries, h.size_lt, hBytes⟩

theorem flash (cmd : CStr) (bytes : Nat) (response : CStr) (hSplit : g.isDivDl = true)
    (h : Kept made g) : Kept made (g.flash a cmd bytes response).1 := by
  refine ⟨?_, h.size_lt, h.bytes_lt⟩
  show List.Forall₂ Moved made
    ((fbFlashWriteBasedPartmap g.isDivDl a cmd bytes g.parts response).1.map PartWrite.part)
  rw [hSplit, writes_of_parts, List.map_map, List.forall₂_map_right_iff]
  exact h.entries.imp fun m p hMoved => moved_entry cmd bytes hMoved

theorem rxHandlerDlImage (h : Kept made g) :
    Kept made (g.rxHandlerDlImage board status data a).1 := by
  have hReceived := h.receive data
  have hNext : Kept made ((g.receive data).request board) := hReceived.request
  unfold Gadget.rxHandlerDlImage
  dsimp only
  generalize (g.receive data).request board = next at hNext ⊢
  split_ifs with hBad hAll hFull
  · exact h
  · exact ⟨hReceived.entries, Nat.two_pow_pos 32, hReceived.bytes_lt⟩
  · obtain ⟨hEntries, hSize, hBytes⟩ := hNext.flash next.divDlPart next.divDownloadBytes [] hFull.1
    exact ⟨hEntries, hSize, hBytes⟩
  · exact hNext

theorem cbFlash (cmd : CStr) (c : FlashCall) (h : Kept made g) : Kept [] (g.cbFlash (some cmd) c).1 := by
  refine ⟨.nil, ?_, ?_⟩
  · rw [(cbFlash_counts g cmd c).1]
    exact h.size_lt
  · rw [(cbFlash_counts g cmd c).2]
    exact h.bytes_lt

end Kept

theorem kept_step (e : Event) (h : Kept s.made s.gadget) :
    Kept (s.step board e).made (s.step board e).gadget := by
  cases e with
  | getvar parts => exact ⟨moved_refl parts, h.size_lt, h.bytes_lt⟩
  | download cmd => exact h.cbDownload cmd
  | data status data a => exact h.rxHandlerDlImage
  | flash cmd c =>
      cases cmd with
      | none => exact h
      | some cmd => exact h.cbFlash cmd c

theorem sound_flashCall {cmd : Option CStr} {c : FlashCall} {call : Call} (h : Kept s.made s.gadget)
    (hCall : s.flashCall cmd c = some call) : call.Sound := by
  obtain ⟨name, -, hName⟩ := Option.bind_eq_some_iff.mp hCall
  split_ifs at hName
  · cases hName
    refine ⟨?_, nofun⟩
    show List.Forall₂ Moved (s.remade name c) (s.gadget.remade name c).parts
    unfold Session.remade Gadget.remade
    split_ifs
    · exact moved_refl c.newMap
    · exact h.entries
  · obtain ⟨parts, -, hParts⟩ := Option.bind_eq_some_iff.mp hName
    cases hParts
    exact ⟨List.forall₂_same.mpr fun _ _ => rfl, fun _ => h.bytes_lt⟩

theorem sound_call {e : Event} {call : Call} (h : Kept s.made s.gadget)
    (hCall : s.call board e = some call) : call.Sound := by
  cases e with
  | getvar parts => cases hCall
  | download cmd => cases hCall
  | data status data a =>
      rw [(rxHandlerDlImage_call hCall).2.2.1]
      exact ⟨h.entries, nofun⟩
  | flash cmd c => exact sound_flashCall h hCall

end

end Fire3.Fastboot

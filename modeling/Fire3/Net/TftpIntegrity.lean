import Fire3.Net.TftpTransfer

/-!
Integrity of a TFTP download. The client stores a block at its place when it reads
the 16-bit number in the round of the server; a run in which it always does ends
with the file, if it ends with success.
-/

namespace Fire3.Tftp
open ByteMemory CString

/-- The packet is read in the right round. A client in state DATA takes number 0 for the start of
the next round and any other number for one of its own, unless it ignores the packet; a client
behind an OACK starts over with number 1, which is right only in the first round. -/
def Fresh (s : Sys) : Event → Prop
  | .data k _ =>
      s.client.netState = .netloopContinue → 1 ≤ k → k ≤ s.sent →
        (s.client.tftpState = .data → k % 65536 ≠ s.client.prevBlock →
          k / 65536 = if k % 65536 = 0 then s.client.blockWrap + 1 else s.client.blockWrap) ∧
        (s.client.tftpState = .oack → k % 65536 = 1 → s.sent < 65536 ∨ s.client.blockWrap = 0)
  | .oack _ | .timeout | .send => True

instance (s : Sys) : ∀ e, Decidable (Fresh s e)
  | .data k _ => inferInstanceAs (Decidable (s.client.netState = .netloopContinue → 1 ≤ k →
      k ≤ s.sent →
        (s.client.tftpState = .data → k % 65536 ≠ s.client.prevBlock →
          k / 65536 = if k % 65536 = 0 then s.client.blockWrap + 1 else s.client.blockWrap) ∧
        (s.client.tftpState = .oack → k % 65536 = 1 → s.sent < 65536 ∨ s.client.blockWrap = 0)))
  | .oack _ | .timeout | .send => isTrue trivial

section
variable {srv : Server} {c : Client} {k : Nat}

structure Located (srv : Server) (c : Client) (k : Nat) : Prop where
  blockSize : c.blockSize = srv.blockSize
  number : c.curBlock < 65536
  offset : c.blockWrapOffset = srv.blockSize * 65536 * c.blockWrap
  index : 65536 * c.blockWrap + c.curBlock = k
  pos : 1 ≤ k
  le_blocks : k ≤ srv.blocks

theorem storeBlock_eq (h : Located srv c k) (hFile : srv.file.length < 2 ^ 32) :
    storeBlock c (srv.block k) =
      { c with
        mem := store c.mem ((k - 1) * srv.blockSize) (srv.block k)
        netBootFileSize := max c.netBootFileSize
          ((k - 1) * srv.blockSize + (srv.block k).length) } := by
  have hEnd := block_end_le h.le_blocks
  have hSize : c.blockSize ≤ 32768 := h.blockSize ▸ srv.blockSize_le
  have hIndex := h.index
  have hPos := h.pos
  have hPlace : blockOffset c = (k - 1) * srv.blockSize := by
    rw [blockOffset_eq h.number hSize (h.blockSize ▸ h.offset) (by omega)
      (by rw [hIndex, h.blockSize]; omega), hIndex, h.blockSize]
  have hNewsize : ((k - 1) * srv.blockSize + (srv.block k).length) % 2 ^ 64 =
      (k - 1) * srv.blockSize + (srv.block k).length := Nat.mod_eq_of_lt (by omega)
  have hNewsize' : ((k - 1) * srv.blockSize + (srv.block k).length) % 2 ^ 32 =
      (k - 1) * srv.blockSize + (srv.block k).length := Nat.mod_eq_of_lt (by omega)
  simp only [storeBlock, hPlace, hNewsize, hNewsize', max_def_lt]

theorem acceptBlock_new (hState : c.tftpState = .data) (hNumber : c.curBlock < 65536)
    (hNew : c.curBlock ≠ c.prevBlock) (src : List UInt8) :
    acceptBlock c src =
      ({ storeBlock { c with prevBlock := c.curBlock, timeoutCountMax := c.tftpTimeoutCountMax } src
         with netState := if src.length < c.blockSize then .netloopSuccess else c.netState },
        [.ack c.curBlock]) := by
  rw [acceptBlock, if_neg hNew]
  dsimp only
  rw [tftpSend_ack]
  · simp only [storeBlock]
    split <;> rfl
  · simp [storeBlock, hState]
  · exact hNumber

theorem acceptBlock_eq (h : Located srv c k) (hFile : srv.file.length < 2 ^ 32)
    (hState : c.tftpState = .data) (hNew : c.curBlock ≠ c.prevBlock) :
    acceptBlock c (srv.block k) =
      ({ c with
         prevBlock := c.curBlock
         timeoutCountMax := c.tftpTimeoutCountMax
         mem := store c.mem ((k - 1) * srv.blockSize) (srv.block k)
         netBootFileSize := max c.netBootFileSize
           ((k - 1) * srv.blockSize + (srv.block k).length)
         netState := if (srv.block k).length < srv.blockSize then .netloopSuccess
           else c.netState }, [.ack c.curBlock]) := by
  rw [acceptBlock_new hState h.number hNew, @storeBlock_eq srv { c with
    prevBlock := c.curBlock
    timeoutCountMax := c.tftpTimeoutCountMax } k { h with } hFile, h.blockSize]

theorem inv_acceptBlock (h : Located srv c k) (hFile : srv.file.length < 2 ^ 32)
    (hState : c.tftpState = .data) (hNew : c.curBlock ≠ c.prevBlock)
    (hSize : c.netBootFileSize ≤ srv.file.length) (hContinue : c.netState = .netloopContinue)
    (hPort : c.remotePort = srv.port) {s : Sys} (hSent : s.sent ≤ srv.blocks) (hLast : k ≤ s.sent)
    (lock : LockStep.Inv 65536 ((view srv c s.sent s.acked).take k)) :
    Inv srv (s.hear (acceptBlock c (srv.block k))) := by
  have hEnd := block_end_le h.le_blocks
  rw [acceptBlock_eq h hFile hState hNew, hear_ack]
  -- the lock-step state behind the store
  have hTaken : LockStep.Inv 65536 {
      sent := s.sent
      acked := s.acked
      pos := k
      stored := fun j => 1 ≤ j ∧
        Stored srv (store c.mem ((k - 1) * srv.blockSize) (srv.block k)) j } := by
    refine lock.mono fun j hj => ?_
    rcases hj with rfl | ⟨hj, hOld⟩
    · exact ⟨h.pos, stored_store h.pos h.pos (.inl rfl)⟩
    · exact ⟨hj, stored_store h.pos hj (.inr hOld)⟩
  by_cases hShort : (srv.block k).length < srv.blockSize
  · simp only [Inv, hShort, if_true]
    obtain ⟨hFinal, hWhole⟩ := eq_blocks_of_short h.le_blocks hShort
    have hPos := h.pos
    have hAll : s.sent = k := by omega
    refine ⟨by dsimp only; omega, load_file fun j hj hj' => ?_⟩
    by_cases hEq : j = k
    · exact hEq ▸ hTaken.last.2
    · exact (hTaken.before j hj (by dsimp only; omega)).2
  · simp only [Inv, hShort, if_false, hContinue]
    refine .inr ⟨by simp [hState], hPort, h.blockSize, rfl, h.number, h.offset,
      by dsimp only; omega, hSent, ?_⟩
    dsimp only
    rw [@view_ack srv { c with
      prevBlock := c.curBlock
      timeoutCountMax := c.tftpTimeoutCountMax
      mem := store c.mem ((k - 1) * srv.blockSize) (srv.block k)
      netBootFileSize := max c.netBootFileSize ((k - 1) * srv.blockSize + (srv.block k).length)
      netState := .netloopContinue } s.sent s.acked h.number]
    refine LockStep.Inv.ack ?_ (by decide)
    simp only [view, h.index]
    exact hTaken

end

section
variable {c : Client} {port number : Nat} {src : List UInt8}

theorem receiveData_inData (hState : c.tftpState = .data) :
    receiveData c port number src =
      acceptBlock (updateBlockNumber { c with curBlock := number }) src := by
  have hUpdated : (updateBlockNumber { c with curBlock := number }).tftpState = .data := by
    rw [updateBlockNumber]
    split <;> exact hState
  rw [receiveData, if_neg (by simp [hUpdated])]

theorem receiveData_first (hState : c.tftpState ≠ .data) :
    receiveData c port 1 src =
      acceptBlock (newTransfer { c with curBlock := 1, tftpState := .data, remotePort := port })
        src := by
  have hSame : updateBlockNumber { c with curBlock := 1 } = { c with curBlock := 1 } :=
    if_neg (by simp)
  have hOpen : c.tftpState = .sendRrq ∨ c.tftpState = .oack := by
    cases hCase : c.tftpState <;> simp_all
  rw [receiveData, hSame, if_pos hOpen]
  rfl

theorem receiveData_other (hState : c.tftpState ≠ .data) (hNumber : number ≠ 1) :
    (receiveData c port number src).1.netState = .netloopRestart := by
  have hOpen : (updateBlockNumber { c with curBlock := number }).tftpState = .sendRrq ∨
      (updateBlockNumber { c with curBlock := number }).tftpState = .oack := by
    rw [updateBlockNumber]
    split <;> cases hCase : c.tftpState <;> simp_all
  have hCur : (updateBlockNumber { c with curBlock := number }).curBlock ≠ 1 := by
    rw [updateBlockNumber]
    split <;> exact hNumber
  rw [receiveData, if_pos hOpen, if_pos (by simpa [newTransfer] using hCur)]
  rfl

end

section
variable {srv : Server} {s : Sys} {k : Nat}

theorem inv_of_live (hOpen : s.client.netState ≠ .netloopSuccess)
    (h : Waiting srv s ∨ Running srv s) : Inv srv s := by
  rw [Inv]
  split
  · exact h
  · exact absurd ‹_› hOpen
  · trivial
  · trivial

theorem inv_of_restart (h : s.client.netState = .netloopRestart) : Inv srv s := by
  simp only [Inv, h]

theorem updateBlockNumber_frame (c : Client) :
    ∃ w o t, updateBlockNumber c =
      { c with blockWrap := w, blockWrapOffset := o, timeoutCount := t } := by
  rw [updateBlockNumber]
  split
  · exact ⟨_, _, _, rfl⟩
  · grind

theorem Running.located (h : Running srv s) (hFile : srv.file.length < 2 ^ 32) (hPos : 1 ≤ k)
    (hSent : k ≤ s.sent) (hNew : k % 65536 ≠ s.client.prevBlock)
    (hRound : k / 65536 = if k % 65536 = 0 then s.client.blockWrap + 1 else s.client.blockWrap) :
    Located srv (updateBlockNumber { s.client with curBlock := k % 65536 }) k := by
  have hBlocks : k ≤ srv.blocks := hSent.trans h.sent_le
  have hNumber := Nat.div_add_mod k 65536
  have hLess : k % 65536 < 65536 := Nat.mod_lt _ (by decide)
  rw [updateBlockNumber]
  split
  · rename_i hWrap
    obtain ⟨hZero, -⟩ := hWrap
    dsimp only at hZero
    rw [if_pos hZero] at hRound
    -- the offset of the new round is below the end of block k
    have hStart := block_start_le hBlocks
    have hLe := srv.blockSize_le
    have hEnd : srv.blockSize * 65536 * (s.client.blockWrap + 1) =
        (k - 1) * srv.blockSize + srv.blockSize := by
      grind [Nat.succ_mul, Nat.succ_eq_add_one, Nat.sub_add_cancel, Nat.mul_assoc, Nat.mul_comm]
    have hSmall : k ≤ srv.file.length + 1 :=
      hBlocks.trans (Nat.succ_le_succ (Nat.div_le_self _ _))
    have hWrapMod : (s.client.blockWrap + 1) % 2 ^ 64 = s.client.blockWrap + 1 :=
      Nat.mod_eq_of_lt (by omega)
    have hOffset : (s.client.blockWrapOffset + s.client.blockSize * sequenceSize) % 2 ^ 64 =
        srv.blockSize * 65536 * (s.client.blockWrap + 1) := by
      rw [h.offset, h.blockSize, sequenceSize, ← Nat.mul_succ]
      exact Nat.mod_eq_of_lt (by rw [Nat.succ_eq_add_one, hEnd]; omega)
    refine ⟨h.blockSize, hLess, ?_, ?_, hPos, hBlocks⟩
    · rw [hOffset, hWrapMod]
    · rw [hWrapMod]
      dsimp only
      omega
  · rename_i hWrap
    dsimp only at hWrap
    rw [if_neg (by omega)] at hRound
    refine ⟨h.blockSize, hLess, h.offset, ?_, hPos, hBlocks⟩
    dsimp only
    omega

theorem Running.readAs (h : Running srv s) (hNew : k % 65536 ≠ s.client.prevBlock)
    (hRound : k / 65536 = if k % 65536 = 0 then s.client.blockWrap + 1 else s.client.blockWrap) :
    LockStep.ReadAs 65536 (view srv s.client s.sent s.acked).pos k := by
  have hNumber := h.number
  simp only [LockStep.ReadAs, view]
  split at hRound <;> omega

theorem Running.data (h : Running srv s) (hFile : srv.file.length < 2 ^ 32)
    (hContinue : s.client.netState = .netloopContinue) (hPos : 1 ≤ k) (hSent : k ≤ s.sent)
    (hState : s.client.tftpState = .data)
    (hRound : k % 65536 ≠ s.client.prevBlock →
      k / 65536 = if k % 65536 = 0 then s.client.blockWrap + 1 else s.client.blockWrap) :
    Inv srv (s.hear (receiveData s.client srv.port (k % 65536) (srv.block k))) := by
  rw [receiveData_inData hState]
  by_cases hSame : k % 65536 = s.client.prevBlock
  · -- the same block again
    have hUnchanged : updateBlockNumber { s.client with curBlock := k % 65536 } = s.client := by
      rw [updateBlockNumber, if_neg (by dsimp only; omega), hSame, ← h.cur]
    have hHear : s.hear (s.client, []) = s := by
      simp [Sys.hear]
    rw [hUnchanged, acceptBlock, if_pos h.cur, hHear]
    exact inv_of_live (by simp [hContinue]) (.inr h)
  · have hLocated := h.located hFile hPos hSent hSame (hRound hSame)
    have hLock := h.lock.take (h.readAs hSame (hRound hSame)) hPos hSent
    obtain ⟨w, o, t, hFrame⟩ := updateBlockNumber_frame { s.client with curBlock := k % 65536 }
    rw [hFrame] at hLocated ⊢
    exact inv_acceptBlock hLocated hFile hState hSame h.size hContinue h.port h.sent_le hSent hLock

theorem located_first {c : Client} (hBlockSize : c.blockSize = srv.blockSize) :
    Located srv
      (newTransfer { c with curBlock := 1, tftpState := .data, remotePort := srv.port }) 1 :=
  ⟨hBlockSize, Nat.one_lt_succ_succ 65534, rfl, rfl, le_rfl, Nat.le_add_left _ _⟩

theorem Running.first (h : Running srv s) (hFile : srv.file.length < 2 ^ 32)
    (hContinue : s.client.netState = .netloopContinue) (hState : s.client.tftpState = .oack)
    (hSent : k ≤ s.sent) (hOne : k % 65536 = 1)
    (hRound : s.sent < 65536 ∨ s.client.blockWrap = 0) :
    Inv srv (s.hear (receiveData s.client srv.port (k % 65536) (srv.block k))) := by
  have hNumber := h.number
  have hLock := h.lock
  have hEarly : s.sent ≤ 65536 ∧ (s.acked = true → s.sent < 65536) := by
    rcases hRound with hLess | hWrap
    · exact ⟨hLess.le, fun _ => hLess⟩
    · have hUpper := hLock.round
      have hSettled := hLock.settled
      simp only [view, hWrap] at hUpper hSettled
      grind
  have hk : k = 1 := by omega
  subst hk
  rw [receiveData_first (by simp [hState])]
  refine inv_acceptBlock (located_first h.blockSize) hFile rfl Nat.one_ne_zero h.size hContinue rfl
    h.sent_le hSent ?_
  exact hLock.takeFirst hEarly.1 hEarly.2 (by decide)

theorem Waiting.data (h : Waiting srv s) (hFile : srv.file.length < 2 ^ 32)
    (hContinue : s.client.netState = .netloopContinue) (hPos : 1 ≤ k) (hSent : k ≤ s.sent) :
    Inv srv (s.hear (receiveData s.client srv.port (k % 65536) (srv.block k))) := by
  have hOnly := h.sent
  have hk : k = 1 := by omega
  have hOne : s.sent = 1 := by omega
  have hAcked : s.acked = false := by
    cases hCase : s.acked with
    | false => rfl
    | true => exact absurd (h.acked hCase) (by omega)
  subst hk
  have hState : s.client.tftpState ≠ .data := by
    rcases h.state with ⟨hState, -⟩ | ⟨hState, -⟩ <;> simp [hState]
  have hBlockSize : s.client.blockSize = srv.blockSize := by
    rcases h.state with ⟨hState, hDefault⟩ | ⟨-, hSize, -⟩
    · have hOack : srv.oack = none := by
        by_contra hSome
        exact absurd (h.quiet hState hSome).1 (by omega)
      rw [hDefault, srv.default (by simp [hOack])]
    · exact hSize
  rw [receiveData_first hState]
  refine inv_acceptBlock (located_first hBlockSize) hFile rfl Nat.one_ne_zero
    (h.size.trans_le (Nat.zero_le _)) hContinue rfl (hOne.trans_le (Nat.le_add_left _ _)) hSent ?_
  rw [hOne, hAcked]
  exact LockStep.inv_first _ (by decide)

theorem inv_data (hFile : srv.file.length < 2 ^ 32) (h : Waiting srv s ∨ Running srv s) (rx : Mem)
    (hContinue : s.client.netState = .netloopContinue) (hPos : 1 ≤ k) (hSent : k ≤ s.sent)
    (hFresh : Fresh s (.data k rx)) : Inv srv (deliver srv s (srv.dataPacket k) rx) := by
  rw [deliver, tftpHandler_data]
  rcases h with h | h
  · have hPort : ¬(s.client.tftpState ≠ .sendRrq ∧ srv.port ≠ s.client.remotePort) := by
      rcases h.state with ⟨hState, -⟩ | ⟨-, -, hPort⟩ <;> simp [*]
    rw [if_neg hPort]
    exact h.data hFile hContinue hPos hSent
  · rw [if_neg (by simp [h.port])]
    obtain ⟨hData, hOack⟩ := hFresh hContinue hPos hSent
    cases hState : s.client.tftpState with
    | sendRrq => exact absurd hState h.state
    | data => exact h.data hFile hContinue hPos hSent hState (hData hState)
    | oack =>
        by_cases hOne : k % 65536 = 1
        · exact h.first hFile hContinue hState hSent hOne (hOack hState hOne)
        · exact inv_of_restart (receiveData_other (by simp [hState]) hOne)

theorem Waiting.ackZero (h : Waiting srv s) {c : Client} (hState : c.tftpState = .oack)
    (hBlockSize : c.blockSize = srv.blockSize) (hPort : c.remotePort = srv.port)
    (hCur : c.curBlock = 0) (hSize : c.netBootFileSize = 0) :
    Waiting srv (s.hear (c, [tftpSend c])) := by
  have hSent := h.sent
  have hAcked := h.acked
  rw [tftpSend_ack (by simp [hState]) (by omega), hear_ack, hCur]
  refine ⟨.inr ⟨hState, hBlockSize, hPort⟩, hCur, hSize, hSent, fun hOr => ?_, by simp [hState]⟩
  simp only [Bool.or_eq_true, beq_iff_eq] at hOr
  grind

theorem inv_oack (h : Waiting srv s ∨ Running srv s) {opts : List OackOption} (rx : Mem)
    (hOack : srv.oack = some opts) (hContinue : s.client.netState = .netloopContinue) :
    Inv srv (deliver srv s (oackPacket opts) rx) := by
  have hOpen : s.client.netState ≠ .netloopSuccess := by simp [hContinue]
  rw [deliver]
  rcases h with h | h
  · have hSize : s.client.blockSize = 512 ∨ s.client.blockSize = srv.blockSize := by
      rcases h.state with ⟨-, hSize⟩ | ⟨-, hSize, -⟩ <;> simp [hSize]
    have hPort : ¬(s.client.tftpState ≠ .sendRrq ∧ srv.port ≠ s.client.remotePort) := by
      rcases h.state with ⟨hState, -⟩ | ⟨-, -, hPort⟩ <;> simp [*]
    rw [tftpHandler_oack hOack rx hSize, if_neg hPort]
    exact inv_of_live hOpen (.inl (h.ackZero rfl rfl rfl h.cur h.size))
  · rw [tftpHandler_oack hOack rx (.inr h.blockSize), if_neg (by simp [h.port])]
    exact inv_of_live hOpen (.inr (h.resend TftpState.noConfusion rfl rfl rfl rfl))

theorem inv_timeout (h : Waiting srv s ∨ Running srv s)
    (hContinue : s.client.netState = .netloopContinue) :
    Inv srv (s.hear (tftpTimeoutHandler s.client)) := by
  have hOpen : s.client.netState ≠ .netloopSuccess := by simp [hContinue]
  rw [tftpTimeoutHandler]
  split
  · exact inv_of_restart rfl
  · refine inv_of_live hOpen ?_
    rcases h with h | h
    · rcases h.state with ⟨hState, hSize⟩ | ⟨hState, hSize, hPort⟩
      · -- the request again
        have hHear : s.hear ({ s.client with timeoutCount := s.client.timeoutCount + 1 }, [.rrq]) =
            { s with client := { s.client with timeoutCount := s.client.timeoutCount + 1 } } := by
          simp [Sys.hear]
        have hSend : tftpSend { s.client with timeoutCount := s.client.timeoutCount + 1 } = .rrq := by
          simp only [tftpSend, hState]
        rw [hSend, hHear]
        exact .inl { h with }
      · exact .inl (h.ackZero hState hSize hPort h.cur h.size)
    · exact .inr (h.resend h.state h.port h.blockSize rfl rfl)

theorem inv_send (h : Waiting srv s ∨ Running srv s) (hAcked : s.acked = true)
    (hMore : s.sent < srv.blocks) (hContinue : s.client.netState = .netloopContinue) :
    Inv srv { s with sent := s.sent + 1, acked := false } := by
  refine inv_of_live (by simp [hContinue]) ?_
  rcases h with h | h
  · have hNone := h.acked hAcked
    refine .inl { h with sent := by dsimp only; omega, acked := by simp, quiet := ?_ }
    intro hState hOack
    have := (h.quiet hState hOack).2
    simp_all
  · exact .inr { h with sent_le := hMore, lock := h.lock.send hAcked (by decide) }

end

theorem inv_step {srv : Server} (hFile : srv.file.length < 2 ^ 32) (s : Sys) (e : Event)
    (h : Inv srv s) (hFresh : Fresh s e) : Inv srv (step srv s e) := by
  have hLive : s.client.netState = .netloopContinue → Waiting srv s ∨ Running srv s := by
    intro hContinue
    simpa only [Inv, hContinue] using h
  cases e with
  | oack rx =>
      simp only [step]
      split
      · exact h
      · grind [inv_oack]
  | data k rx =>
      simp only [step]
      grind [inv_data]
  | timeout =>
      simp only [step]
      grind [inv_timeout]
  | send =>
      simp only [step]
      split
      · rename_i hSend
        by_cases hContinue : s.client.netState = .netloopContinue
        · grind [inv_send]
        · cases hState : s.client.netState with
          | netloopContinue => exact absurd hState hContinue
          | netloopSuccess => simpa only [Inv, hState] using h
          | netloopRestart | netloopFail => simp only [Inv, hState]
      · exact h

end Fire3.Tftp

import Fire3.Net.TftpIntegrity

/-!
What a successful TFTP download leaves in memory: the file in runs that read each
packet in the right round, and not the file in a run with one late block behind a
wrap.
-/

namespace Fire3.Tftp
open ByteMemory CString

section
variable {c : Client}

theorem netBootFileSize_acceptBlock_lt (h : c.netBootFileSize < 2 ^ 32) (src : List UInt8) :
    (acceptBlock c src).1.netBootFileSize < 2 ^ 32 := by
  have hStore : ∀ d : Client, d.netBootFileSize < 2 ^ 32 →
      (storeBlock d src).netBootFileSize < 2 ^ 32 := by
    intro d hd
    grind [storeBlock, Nat.mod_lt]
  rw [acceptBlock]
  grind

theorem netBootFileSize_receiveData_lt (h : c.netBootFileSize < 2 ^ 32) (port number : Nat)
    (src : List UInt8) : (receiveData c port number src).1.netBootFileSize < 2 ^ 32 := by
  obtain ⟨w, o, t, hFrame⟩ := updateBlockNumber_frame { c with curBlock := number }
  rw [receiveData, hFrame]
  dsimp only
  split
  · split
    · exact h
    · apply netBootFileSize_acceptBlock_lt
      exact h
  · apply netBootFileSize_acceptBlock_lt
    exact h

theorem netBootFileSize_step_lt (srv : Server) (s : Sys) (e : Event)
    (h : s.client.netBootFileSize < 2 ^ 32) : (step srv s e).client.netBootFileSize < 2 ^ 32 := by
  have hHandler : ∀ pkt dest port len,
      (tftpHandler s.client pkt dest port len).1.netBootFileSize < 2 ^ 32 := by
    intro pkt dest port len
    simp only [tftpHandler, receiveError, receiveOack, netStartAgain]
    repeat' split
    all_goals first | exact h | exact netBootFileSize_receiveData_lt h _ _ _
  cases e with
  | oack rx =>
      simp only [step]
      repeat' split
      all_goals first | exact h | exact hHandler _ _ _ _
  | data k rx =>
      simp only [step]
      split
      · exact hHandler _ _ _ _
      · exact h
  | timeout =>
      simp only [step, tftpTimeoutHandler]
      repeat' split
      all_goals exact h
  | send =>
      simp only [step]
      split <;> exact h

end

/-- A successful download whose packets were all read in the right round has the file in memory
and its size in the size variable, which has room for it unless the file has 4 GiB. -/
theorem tftp_download_intact_iff (srv : Server) (c : Client) (ourPort : Nat) (events : List Event)
    (hRun : Transition.Meets (step srv) Fresh (initial srv c ourPort) events)
    (hDone : (events.foldl (step srv) (initial srv c ourPort)).client.netState = .netloopSuccess) :
    (let last := (events.foldl (step srv) (initial srv c ourPort)).client
     last.netBootFileSize = srv.file.length ∧ load last.mem 0 srv.file.length = srv.file) ↔
      srv.file.length < 2 ^ 32 := by
  constructor
  · rintro ⟨hSize, -⟩
    rw [← hSize]
    exact @Transition.invariant_of_meets _ _ (step srv) Fresh
      (fun s => s.client.netBootFileSize < 2 ^ 32)
      (fun s e h _ => netBootFileSize_step_lt srv s e h) _ _ hRun (Nat.two_pow_pos 32)
  · intro hFile
    have hInv := Transition.invariant_of_meets (inv_step hFile) hRun (inv_initial srv c ourPort)
    simpa only [Inv, hDone, Complete] using hInv

def idleClient : Client :=
  { tftpState := .sendRrq, curBlock := 0, prevBlock := 0, blockWrap := 0, blockWrapOffset := 0,
    blockSize := 512, remotePort := 0, ourPort := 0, timeoutCount := 0, timeoutCountMax := 10,
    tftpTimeoutCountMax := 10, netBootFileSize := 0, netState := .netloopContinue, mem := fun _ => 0 }

def smallServer : Server :=
  { file := [1, 2, 3, 4, 5, 6], port := 4000, oack := some [.timeout 5, .blksize 4], blockSize := 4
    blockSize_pos := by decide
    blockSize_le := by decide
    acknowledged := by simp
    default := by simp }

/-- With a resent OACK, a timeout and a block that arrives twice. -/
theorem tftp_download_intact_repeats :
    (let last := ([.oack (fun _ => 0), .oack (fun _ => 0), .send, .data 1 (fun _ => 0), .timeout,
        .data 1 (fun _ => 0), .send, .data 2 (fun _ => 0)].foldl (step smallServer)
          (initial smallServer idleClient 1024)).client
     last.netBootFileSize = smallServer.file.length ∧
       load last.mem 0 smallServer.file.length = smallServer.file) :=
  (tftp_download_intact_iff smallServer idleClient 1024 [.oack (fun _ => 0), .oack (fun _ => 0),
    .send, .data 1 (fun _ => 0), .timeout, .data 1 (fun _ => 0), .send, .data 2 (fun _ => 0)]
    (by decide +kernel) (by decide +kernel)).mpr (by decide)

section
variable {srv : Server} {s : Sys} {n : Nat}

structure AtBlock (srv : Server) (n : Nat) (s : Sys) : Prop where
  running : Running srv s
  netState : s.client.netState = .netloopContinue
  tftpState : s.client.tftpState = .data
  sent : s.sent = n
  acked : s.acked = true
  pos : 65536 * s.client.blockWrap + s.client.prevBlock = n

theorem not_short (hPos : 1 ≤ n) (hMore : n < srv.blocks) :
    ¬(srv.block n).length < srv.blockSize := by
  grind [eq_blocks_of_short]

theorem atBlock_acceptBlock {c : Client} (h : Located srv c n) (hFile : srv.file.length < 2 ^ 32)
    (hState : c.tftpState = .data) (hNew : c.curBlock ≠ c.prevBlock)
    (hContinue : c.netState = .netloopContinue) (hMore : n < srv.blocks) (hSent : s.sent = n)
    (hInv : Inv srv (s.hear (acceptBlock c (srv.block n)))) :
    AtBlock srv n (s.hear (acceptBlock c (srv.block n))) := by
  have hIndex := h.index
  have hNumber := h.number
  have hShort := not_short h.pos hMore
  rw [acceptBlock_eq h hFile hState hNew, hear_ack] at hInv ⊢
  simp only [Inv, hShort, if_false, hContinue] at hInv ⊢
  have hRunning := hInv.resolve_left fun hWaiting => by
    rcases hWaiting.state with ⟨hOther, -⟩ | ⟨hOther, -⟩ <;> simp [hState] at hOther
  have hAck : (c.curBlock == s.sent % 65536) = true := by
    rw [beq_iff_eq]
    omega
  exact ⟨hRunning, rfl, hState, hSent, by simp [hAck], hIndex⟩

theorem step_send (hAcked : s.acked = true) (hMore : s.sent < srv.blocks) :
    step srv s .send = { s with sent := s.sent + 1, acked := false } :=
  if_pos ⟨hAcked, hMore⟩

theorem step_data (hContinue : s.client.netState = .netloopContinue) (hPos : 1 ≤ n)
    (hSent : n ≤ s.sent) (rx : Mem)
    (hPort : s.client.tftpState = .sendRrq ∨ s.client.remotePort = srv.port) :
    step srv s (.data n rx) =
      s.hear (receiveData s.client srv.port (n % 65536) (srv.block n)) := by
  have hDrop : ¬(s.client.tftpState ≠ .sendRrq ∧ srv.port ≠ s.client.remotePort) := by
    rcases hPort with hState | hPort <;> simp [*]
  rw [step, if_pos ⟨hContinue, hPos, hSent⟩, deliver, tftpHandler_data, if_neg hDrop]

theorem atBlock_first (hOack : srv.oack = none) (hFile : srv.file.length < 2 ^ 32)
    (hMore : 1 < srv.blocks) (c : Client) (ourPort : Nat) (rx : Mem) :
    AtBlock srv 1 (step srv (step srv (initial srv c ourPort) .send) (.data 1 rx)) := by
  have hAcked : (initial srv c ourPort).acked = true := by
    simp [initial, hOack]
  have hWaiting : Waiting srv (initial srv c ourPort) := by
    refine ⟨.inl ⟨rfl, rfl⟩, rfl, rfl, Nat.zero_le _, fun _ => rfl, fun _ h => absurd hOack h⟩
  have hSent : Waiting srv { initial srv c ourPort with sent := 0 + 1, acked := false } :=
    { hWaiting with sent := le_rfl, acked := by simp, quiet := fun _ h => absurd hOack h }
  have hInv := hSent.data hFile rfl le_rfl le_rfl
  have hBlockSize : srv.blockSize = 512 := srv.default (by simp [hOack])
  rw [step_send hAcked (Nat.lt_of_succ_lt hMore), step_data rfl le_rfl le_rfl rx (.inl rfl)]
  rw [receiveData_first (by simp [initial, tftpStart])] at hInv ⊢
  exact atBlock_acceptBlock (located_first hBlockSize.symm) hFile rfl Nat.one_ne_zero rfl hMore rfl hInv

theorem atBlock_data (h : Running srv s) (hFile : srv.file.length < 2 ^ 32)
    (hContinue : s.client.netState = .netloopContinue) (hState : s.client.tftpState = .data)
    (hSent : s.sent = n + 1) (hPos : 65536 * s.client.blockWrap + s.client.prevBlock = n)
    (hMore : n + 1 < srv.blocks) (rx : Mem) :
    AtBlock srv (n + 1) (step srv s (.data (n + 1) rx)) := by
  have hNumber := h.number
  have hFirst : 1 ≤ n + 1 := Nat.le_add_left 1 n
  have hNew : (n + 1) % 65536 ≠ s.client.prevBlock := by omega
  have hRound : (n + 1) / 65536 =
      if (n + 1) % 65536 = 0 then s.client.blockWrap + 1 else s.client.blockWrap := by
    split <;> omega
  have hInv := h.data hFile hContinue hFirst hSent.ge hState fun _ => hRound
  have hLocated := h.located hFile hFirst hSent.ge hNew hRound
  rw [step_data hContinue hFirst hSent.ge rx (.inr h.port)]
  rw [receiveData_inData hState] at hInv ⊢
  obtain ⟨w, o, t, hFrame⟩ := updateBlockNumber_frame { s.client with curBlock := (n + 1) % 65536 }
  rw [hFrame] at hInv hLocated ⊢
  grind [atBlock_acceptBlock]

theorem atBlock_next (h : AtBlock srv n s) (hFile : srv.file.length < 2 ^ 32)
    (hMore : n + 1 < srv.blocks) (rx : Mem) :
    AtBlock srv (n + 1) (step srv (step srv s .send) (.data (n + 1) rx)) := by
  have hRoom : s.sent + 1 < srv.blocks := by rwa [h.sent]
  have hRunning : Running srv { s with sent := s.sent + 1, acked := false } :=
    { h.running with sent_le := hRoom.le, lock := h.running.lock.send h.acked (by decide) }
  rw [step_send h.acked (Nat.lt_of_succ_lt hRoom)]
  exact atBlock_data hRunning hFile h.netState h.tftpState (congrArg (· + 1) h.sent) h.pos hMore rx

def inOrder (n : Nat) : List Event :=
  (List.range n).flatMap fun i => [.send, .data (i + 1) fun _ => 0]

theorem atBlock_inOrder (hOack : srv.oack = none) (hFile : srv.file.length < 2 ^ 32) (c : Client)
    (ourPort : Nat) (hPos : 1 ≤ n) (hMore : n < srv.blocks) :
    AtBlock srv n ((inOrder n).foldl (step srv) (initial srv c ourPort)) := by
  induction n, hPos using Nat.le_induction with
  | base => exact atBlock_first hOack hFile hMore c ourPort _
  | succ n hPos ih =>
      rw [inOrder, List.range_succ, List.flatMap_append, List.foldl_append]
      exact atBlock_next (ih (Nat.lt_of_succ_lt hMore)) hFile hMore _

theorem receiveData_secondRound {c : Client} (hState : c.tftpState = .data)
    (hBlockSize : c.blockSize = 512) (hOffset : c.blockWrapOffset = 512 * 65536 * 1)
    {number port : Nat} (hNumber : number < 65536) (hZero : number ≠ 0)
    (hNew : number ≠ c.prevBlock) {src : List UInt8} (hLength : src.length ≤ 512) :
    ∃ m, receiveData c port number src =
      ({ c with
         curBlock := number
         prevBlock := number
         timeoutCountMax := c.tftpTimeoutCountMax
         mem := m
         netBootFileSize := max c.netBootFileSize ((65535 + number) * 512 + src.length)
         netState := if src.length < 512 then .netloopSuccess else c.netState },
        [.ack number]) := by
  have hPlace := @blockOffset_eq
    { c with
      curBlock := number
      prevBlock := number
      timeoutCountMax := c.tftpTimeoutCountMax } 1 hNumber
    (by simp [hBlockSize]) (by simp [hBlockSize, hOffset]) (by omega)
    (by dsimp only; rw [hBlockSize]; omega)
  have hIndex : 65536 * 1 + number - 1 = 65535 + number := by omega
  dsimp only at hPlace
  rw [hIndex, hBlockSize] at hPlace
  have hNewsize : ((65535 + number) * 512 + src.length) % 2 ^ 64 =
      (65535 + number) * 512 + src.length := Nat.mod_eq_of_lt (by omega)
  have hNewsize' : ((65535 + number) * 512 + src.length) % 2 ^ 32 =
      (65535 + number) * 512 + src.length := Nat.mod_eq_of_lt (by omega)
  refine ⟨store c.mem ((65535 + number) * 512) src, ?_⟩
  rw [receiveData_inData hState, updateBlockNumber, if_neg (by simp [hZero]),
    @acceptBlock_new { c with curBlock := number } hState hNumber hNew]
  simp only [storeBlock, hBlockSize, hPlace, hNewsize, hNewsize', max_def_lt]

structure Misplaced (srv : Server) (s : Sys) : Prop where
  netState : s.client.netState = .netloopContinue
  tftpState : s.client.tftpState = .data
  port : s.client.remotePort = srv.port
  blockSize : s.client.blockSize = 512
  offset : s.client.blockWrapOffset = 512 * 65536 * 1
  prevBlock : s.client.prevBlock = 65535
  size : s.client.netBootFileSize = 67108352
  sent : s.sent = 65536
  acked : s.acked = true

theorem misplaced_late (h : AtBlock srv 65536 s) (hOack : srv.oack = none)
    (hLength : srv.file.length = 33554432) (rx : Mem) :
    Misplaced srv (step srv s (.data 65535 rx)) := by
  have hBlockSize : srv.blockSize = 512 := srv.default (by simp [hOack])
  have hNumber := h.running.number
  have hPos := h.pos
  have hWrap : s.client.blockWrap = 1 := by omega
  have hPrev : s.client.prevBlock = 0 := by omega
  have hSize : s.client.blockSize = 512 := h.running.blockSize.trans hBlockSize
  have hOffset : s.client.blockWrapOffset = 512 * 65536 * 1 := by
    rw [h.running.offset, hBlockSize, hWrap]
  have hOld : s.client.netBootFileSize ≤ 33554432 := hLength ▸ h.running.size
  have hFull : (srv.block 65535).length = 512 := by
    rw [length_block, hLength, hBlockSize]
    decide
  obtain ⟨m, hLate⟩ := @receiveData_secondRound s.client h.tftpState hSize hOffset 65535 srv.port
    (by decide) (by decide) (by rw [hPrev]; decide) (srv.block 65535) hFull.le
  rw [step_data h.netState (by decide) (by rw [h.sent]; decide) rx (.inr h.running.port), hLate,
    hear_ack, hFull]
  refine ⟨h.netState, h.tftpState, h.running.port, hSize, hOffset, rfl, ?_, h.sent, by simp [h.acked]⟩
  exact max_eq_right (hOld.trans (by decide))

theorem Misplaced.finish (h : Misplaced srv s) (hOack : srv.oack = none)
    (hLength : srv.file.length = 33554432) (rx : Mem) :
    let last := (step srv (step srv s .send) (.data 65537 rx)).client
    last.netState = .netloopSuccess ∧ last.netBootFileSize = 67108352 := by
  have hBlockSize : srv.blockSize = 512 := srv.default (by simp [hOack])
  have hBlocks : srv.blocks = 65537 := by
    rw [Server.blocks, hLength, hBlockSize]
  have hEmpty : (srv.block 65537).length = 0 := by
    rw [length_block, hLength, hBlockSize]
    decide
  have hData : step srv { s with sent := s.sent + 1, acked := false } (.data 65537 rx) =
      Sys.hear { s with sent := s.sent + 1, acked := false }
        (receiveData s.client srv.port 1 (srv.block 65537)) :=
    @step_data srv { s with sent := s.sent + 1, acked := false } 65537 h.netState (by decide)
      (by rw [h.sent]) rx (.inr h.port)
  obtain ⟨m, hEnd⟩ := @receiveData_secondRound s.client h.tftpState h.blockSize h.offset 1 srv.port
    (by decide) (by decide) (by rw [h.prevBlock]; decide) (srv.block 65537) (by omega)
  rw [step_send h.acked (by rw [h.sent, hBlocks]; decide), hData, hEnd, hear_ack, hEmpty, h.size]
  exact ⟨rfl, rfl⟩

/-- `n` full blocks and the end of the file in order, but for a copy of block `n - 1` that comes
again behind block `n`. -/
def lateBlock (n : Nat) : List Event :=
  inOrder n ++ [.data (n - 1) fun _ => 0, .send, .data (n + 1) fun _ => 0]

theorem lateBlock_size (hOack : srv.oack = none) (hLength : srv.file.length = 33554432)
    (hn : n = 65536) (c : Client) (ourPort : Nat) :
    let last := ((lateBlock n).foldl (step srv) (initial srv c ourPort)).client
    last.netState = .netloopSuccess ∧ last.netBootFileSize = 67108352 := by
  have hBlocks : srv.blocks = 65537 := by
    grind [Server.blocks, srv.default]
  have hOrder := @atBlock_inOrder srv n hOack (by omega) c ourPort (by omega) (by omega)
  rw [lateBlock, List.foldl_append]
  generalize (inOrder n).foldl (step srv) (initial srv c ourPort) = s at hOrder ⊢
  subst hn
  exact (misplaced_late hOrder hOack hLength _).finish hOack hLength _

end

def zeroServer (length : Nat) : Server :=
  { file := List.replicate length 0, port := 4000, oack := none, blockSize := 512
    blockSize_pos := Nat.two_pow_pos 9
    blockSize_le := by decide
    acknowledged := by simp
    default := by simp }

/-- A file of 32 MiB is loaded with success and a size of almost 64 MiB. -/
theorem tftp_download_late_block :
    let last := ((lateBlock 65536).foldl (step (zeroServer 33554432))
      (initial (zeroServer 33554432) idleClient 1024)).client
    last.netState = .netloopSuccess ∧ last.netBootFileSize = 67108352 ∧
      (zeroServer 33554432).file.length = 33554432 := by
  have hLength : (zeroServer 33554432).file.length = 33554432 := List.length_replicate
  obtain ⟨hState, hSize⟩ := lateBlock_size rfl hLength rfl idleClient 1024
  exact ⟨hState, hSize, hLength⟩

end Fire3.Tftp

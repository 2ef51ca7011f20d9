import Fire3.Base.LockStep
import Fire3.Net.Tftp

/-!
A TFTP server that sends a file in lock step, with or without an option
acknowledgement, and what its packets are to the client.
-/

namespace Fire3.Tftp
open ByteMemory CString

inductive OackOption
  | timeout (seconds : Nat)
  | blksize (size : Nat)
  deriving DecidableEq, Repr

variable {pkt : Mem} {opts : List OackOption}

def OackOption.bytes : OackOption → List UInt8
  | .timeout seconds => ascii "timeout" ++ 0 :: (decimal seconds ++ [0])
  | .blksize size => ascii "blksize" ++ 0 :: (decimal size ++ [0])

/-- A server with a file; `oack` has the options it acknowledges, if it does. -/
structure Server where
  file : List UInt8
  port : Nat
  oack : Option (List OackOption)
  blockSize : Nat
  blockSize_pos : 0 < blockSize
  blockSize_le : blockSize ≤ 32768
  acknowledged : ∀ opts ∈ oack, ∀ n, .blksize n ∈ opts → n = blockSize
  default : (∀ opts ∈ oack, ∀ n, .blksize n ∉ opts) → blockSize = 512

namespace Server
variable (srv : Server)

def blocks : Nat := srv.file.length / srv.blockSize + 1

def block (k : Nat) : List UInt8 := (srv.file.drop ((k - 1) * srv.blockSize)).take srv.blockSize

def dataPacket (k : Nat) : List UInt8 := [0, 3] ++ (beBytes16 k ++ srv.block k)

end Server

def oackPacket (opts : List OackOption) : List UInt8 := [0, 6] ++ opts.flatMap OackOption.bytes

section
variable {srv : Server} {k : Nat}

theorem block_start_le (hk : k ≤ srv.blocks) : (k - 1) * srv.blockSize ≤ srv.file.length := by
  have hIndex : k - 1 ≤ srv.file.length / srv.blockSize := Nat.sub_le_of_le_add hk
  exact (Nat.mul_le_mul_right _ hIndex).trans (Nat.div_mul_le_self _ _)

theorem length_block : (srv.block k).length =
    min srv.blockSize (srv.file.length - (k - 1) * srv.blockSize) := by
  simp [Server.block]

theorem block_end_le (hk : k ≤ srv.blocks) :
    (k - 1) * srv.blockSize + (srv.block k).length ≤ srv.file.length := by
  have hStart := block_start_le hk
  rw [length_block]
  omega

theorem eq_blocks_of_short (hk : k ≤ srv.blocks) (hShort : (srv.block k).length < srv.blockSize) :
    (k = 0 ∨ k = srv.blocks) ∧
      (k - 1) * srv.blockSize + (srv.block k).length = srv.file.length := by
  have hStart := block_start_le hk
  rw [length_block] at hShort ⊢
  have hNear : srv.file.length < (k - 1) * srv.blockSize + srv.blockSize := by omega
  have hIndex : srv.file.length / srv.blockSize < k - 1 + 1 := by
    rw [Nat.div_lt_iff_lt_mul srv.blockSize_pos, Nat.add_mul, Nat.one_mul]
    exact hNear
  grind [Server.blocks]

def Stored (srv : Server) (mem : Mem) (k : Nat) : Prop :=
  load mem ((k - 1) * srv.blockSize) (srv.block k).length = srv.block k

theorem stored_store {mem : Mem} {j : Nat} (hk : 1 ≤ k) (hj : 1 ≤ j)
    (h : j = k ∨ Stored srv mem j) :
    Stored srv (store mem ((k - 1) * srv.blockSize) (srv.block k)) j := by
  by_cases hSame : j = k
  · subst hSame
    exact load_store_same _ _ _
  · have hOld : Stored srv mem j := h.resolve_left hSame
    have hShort : ∀ i, (srv.block i).length ≤ srv.blockSize := fun i => by
      rw [length_block]
      exact min_le_left _ _
    have hApart : (j - 1) * srv.blockSize + srv.blockSize ≤ (k - 1) * srv.blockSize ∨
        (k - 1) * srv.blockSize + srv.blockSize ≤ (j - 1) * srv.blockSize := by
      rcases Nat.lt_or_gt_of_ne hSame with hBefore | hBehind
      · left
        rw [← Nat.succ_mul]
        exact Nat.mul_le_mul_right _ (by omega)
      · right
        rw [← Nat.succ_mul]
        exact Nat.mul_le_mul_right _ (by omega)
    have hj := hShort j
    have hk := hShort k
    rw [Stored, load_store_disjoint _ _ _ _ _ (by omega)]
    exact hOld

theorem load_file {mem : Mem} (h : ∀ k, 1 ≤ k → k ≤ srv.blocks → Stored srv mem k) :
    load mem 0 srv.file.length = srv.file := by
  rw [load_eq_iff]
  intro i hi
  have hPos := srv.blockSize_pos
  have hIndex : i / srv.blockSize ≤ srv.file.length / srv.blockSize := Nat.div_le_div_right hi.le
  have hStored := h (i / srv.blockSize + 1) (Nat.le_add_left _ _) (Nat.succ_le_succ hIndex)
  have hSplit := Nat.div_add_mod i srv.blockSize
  have hMod := Nat.mod_lt i hPos
  rw [Nat.mul_comm] at hSplit
  have hInside : i % srv.blockSize < (srv.block (i / srv.blockSize + 1)).length := by
    rw [length_block, Nat.add_sub_cancel]
    omega
  have hByte := (load_eq_iff _ _ _).mp hStored (i % srv.blockSize) hInside
  rw [Nat.add_sub_cancel, hSplit] at hByte
  rw [Nat.zero_add, hByte]
  simp [Server.block, hSplit]

end

section

theorem timeout_plain (n : Nat) : (98 : UInt8) ∉ (OackOption.timeout n).bytes := by
  have hName : (98 : UInt8) ∉ ascii "timeout" := by decide
  simp only [OackOption.bytes, List.mem_append, List.mem_cons, List.not_mem_nil, or_false, not_or]
  grind [mem_decimal, digit_facts]

theorem blksize_bytes (n : Nat) :
    ∃ tail, (OackOption.blksize n).bytes = 98 :: tail ∧ (98 : UInt8) ∉ tail := by
  refine ⟨ascii "lksize" ++ 0 :: (decimal n ++ [0]), rfl, ?_⟩
  have hName : (98 : UInt8) ∉ ascii "lksize" := by decide
  simp only [List.mem_append, List.mem_cons, List.not_mem_nil, or_false, not_or]
  grind [mem_decimal, digit_facts]

theorem blksize_of_char {pre post : List UInt8}
    (h : opts.flatMap OackOption.bytes = pre ++ 98 :: post) :
    ∃ n post', .blksize n ∈ opts ∧ 98 :: post = (OackOption.blksize n).bytes ++ post' := by
  induction opts generalizing pre with
  | nil => simp at h
  | cons o opts ih =>
      rw [List.flatMap_cons, List.append_eq_append_iff] at h
      rcases h with ⟨pre', hPre, hRest⟩ | ⟨mid, hBytes, hPost⟩
      · grind
      · cases mid with
        | nil =>
            grind
        | cons c mid =>
            obtain ⟨rfl, hPost⟩ := List.cons.inj hPost
            cases o with
            | timeout n => exact absurd (hBytes ▸ by simp) (timeout_plain n)
            | blksize n =>
                obtain ⟨tail, hTail, hPlain⟩ := blksize_bytes n
                cases pre with
                | nil =>
                    grind
                | cons d pre =>
                    rw [hTail] at hBytes
                    exact absurd ((List.cons.inj hBytes).2 ▸ by simp) hPlain

theorem foldl_same_value {p : Nat → Bool} {v : Nat → Nat} {size : Nat} {l : List Nat}
    (h : ∀ i ∈ l, p i = true → v i = size) (old : Nat) :
    l.foldl (fun s i => if p i then v i else s) old = if ∃ i ∈ l, p i = true then size else old := by
  induction l generalizing old with
  | nil => simp
  | cons i l ih =>
      rw [List.forall_mem_cons] at h
      rw [List.foldl_cons, ih h.2]
      by_cases hHead : p i = true
      · simp [hHead, h.1 hHead]
      · simp [hHead]

theorem numberAt_decimal {a n : Nat} (hPos : n ≠ 0) (hn : n ≤ 32768)
    (h : load pkt a (decimal n ++ [0]).length = decimal n ++ [0]) : numberAt pkt a = n := by
  have hLength : (decimal n ++ [0]).length ≤ 2048 := by
    have := @length_decimal_le n 5 (by omega)
    rw [List.length_append, List.length_singleton]
    omega
  have hSplit := load_add pkt a (decimal n ++ [0]).length (2048 - (decimal n ++ [0]).length)
  rw [Nat.add_sub_cancel' hLength, h, List.append_assoc, List.singleton_append] at hSplit
  rw [numberAt, hSplit]
  exact simpleStrtoul_decimal hPos (by omega) _

theorem load_oackPacket (rx : Mem) (opts : List OackOption) :
    load (store rx 0 (oackPacket opts)) 2 (opts.flatMap OackOption.bytes).length =
      opts.flatMap OackOption.bytes := by
  have hAll := load_store_same rx 0 (oackPacket opts)
  have hPart := @load_of_append _ 0 _ [0, 6] (opts.flatMap OackOption.bytes) [] (by
    rw [hAll, List.append_nil]
    rfl)
  simpa using hPart

theorem blksize_found {text pre post : List UInt8} {n : Nat} (hText : load pkt 2 text.length = text)
    (hSplit : text = pre ++ ((OackOption.blksize n).bytes ++ post)) (hPos : n ≠ 0)
    (hLe : n ≤ 32768) :
    isBlksize pkt (2 + pre.length) = true ∧ numberAt pkt (2 + pre.length + 8) = n ∧
      pre.length + 8 < text.length := by
  have hEight : (ascii "blksize" ++ [0]).length = 8 := by decide
  have hName := @load_of_append _ 2 _ pre (ascii "blksize" ++ [0]) ((decimal n ++ [0]) ++ post) (by
    rw [hText]
    simpa [OackOption.bytes] using hSplit)
  have hValue := @load_of_append _ 2 _ (pre ++ (ascii "blksize" ++ [0])) (decimal n ++ [0]) post (by
    rw [hText]
    simpa [OackOption.bytes] using hSplit)
  rw [hEight] at hName
  rw [List.length_append, hEight, ← Nat.add_assoc] at hValue
  refine ⟨by simpa [isBlksize] using hName, numberAt_decimal hPos hLe hValue, ?_⟩
  grind [List.length, OackOption.bytes, List.length_append, List.length_cons, List.length_nil]

theorem blksize_of_found {i : Nat}
    (hText : load pkt 2 (opts.flatMap OackOption.bytes).length = opts.flatMap OackOption.bytes)
    (hi : i + 8 ≤ (opts.flatMap OackOption.bytes).length) (h : isBlksize pkt (2 + i) = true) :
    ∃ n post, .blksize n ∈ opts ∧ opts.flatMap OackOption.bytes =
      (opts.flatMap OackOption.bytes).take i ++ ((OackOption.blksize n).bytes ++ post) := by
  have hDrop : ((opts.flatMap OackOption.bytes).drop i).take 8 = ascii "blksize" ++ [0] := by
    grind [load_take_drop, isBlksize]
  have hSplit : opts.flatMap OackOption.bytes = (opts.flatMap OackOption.bytes).take i ++
      98 :: (ascii "lksize" ++ [0] ++ ((opts.flatMap OackOption.bytes).drop i).drop 8) := by
    have hTail := List.take_append_drop 8 ((opts.flatMap OackOption.bytes).drop i)
    rw [hDrop] at hTail
    conv_lhs => rw [← List.take_append_drop i (opts.flatMap OackOption.bytes), ← hTail]
    rfl
  obtain ⟨n, post, hMem, hEq⟩ := blksize_of_char hSplit
  exact ⟨n, post, hMem, hEq ▸ hSplit⟩

theorem oackBlockSize_packet {srv : Server} (hOack : srv.oack = some opts) (rx : Mem) {size : Nat}
    (hSize : size = 512 ∨ size = srv.blockSize) :
    oackBlockSize (store rx 0 (oackPacket opts)) 2 ((oackPacket opts).length - 2) size =
      srv.blockSize := by
  have hText := load_oackPacket rx opts
  have hLength : (oackPacket opts).length - 2 = (opts.flatMap OackOption.bytes).length := by
    simp [oackPacket]
  have hPos := srv.blockSize_pos
  have hLe := srv.blockSize_le
  have hAcked : ∀ n, .blksize n ∈ opts → n = srv.blockSize :=
    srv.acknowledged opts (by rw [hOack]; rfl)
  have hMatch : ∀ i ∈ List.range ((opts.flatMap OackOption.bytes).length - 8),
      isBlksize (store rx 0 (oackPacket opts)) (2 + i) = true →
      numberAt (store rx 0 (oackPacket opts)) (2 + i + 8) % 2 ^ 16 = srv.blockSize := by
    intro i hi hBlksize
    rw [List.mem_range] at hi
    obtain ⟨n, post, hMem, hSplit⟩ := blksize_of_found hText (by omega) hBlksize
    grind [blksize_found, List.length_take_of_le]
  rw [oackBlockSize, hLength, foldl_same_value hMatch]
  split
  · rfl
  · rename_i hNone
    have hDefault : srv.blockSize = 512 := srv.default fun opts' hOpts n hMem => by
      rw [hOack, Option.mem_some] at hOpts
      subst hOpts
      have hn := hAcked n hMem
      obtain ⟨before, behind, hOpts⟩ := List.append_of_mem hMem
      have hSplit : opts.flatMap OackOption.bytes = before.flatMap OackOption.bytes ++
          ((OackOption.blksize n).bytes ++ behind.flatMap OackOption.bytes) := by
        rw [hOpts]
        simp
      obtain ⟨hBlksize, -, hRoom⟩ := blksize_found hText hSplit (by omega) (by omega)
      grind
    omega

end

/-!
A TFTP download over a network that loses, delays and repeats packets.

The server sends block `k + 1` after an ACK with the number of block `k` that the
client emitted since block `k` was first sent. The network delivers any packet the
server has sent, any number of times and in any order, and the timer fires at any
time. A transfer ends with the first change of the state of the network loop.
-/

structure Sys where
  client : Client
  /-- The block outstanding at the server; 0 before the first one. -/
  sent : Nat
  /-- An ACK with its number was emitted since it was first sent. -/
  acked : Bool

inductive Event
  | oack (rx : Mem)
  | data (k : Nat) (rx : Mem)
  | timeout
  | send

def Sys.hear (s : Sys) (r : Client × List Output) : Sys :=
  { s with client := r.1, acked := s.acked || r.2.contains (.ack (s.sent % 65536)) }

def deliver (srv : Server) (s : Sys) (packet : List UInt8) (rx : Mem) : Sys :=
  s.hear (tftpHandler s.client (store rx 0 packet) s.client.ourPort srv.port packet.length)

def step (srv : Server) (s : Sys) : Event → Sys
  | .oack rx =>
      match srv.oack with
      | none => s
      | some opts =>
          if s.client.netState = .netloopContinue then deliver srv s (oackPacket opts) rx else s
  | .data k rx =>
      if s.client.netState = .netloopContinue ∧ 1 ≤ k ∧ k ≤ s.sent then
        deliver srv s (srv.dataPacket k) rx
      else s
  | .timeout =>
      if s.client.netState = .netloopContinue then s.hear (tftpTimeoutHandler s.client) else s
  | .send =>
      if s.acked = true ∧ s.sent < srv.blocks then { s with sent := s.sent + 1, acked := false }
      else s

/-- The request starts the transfer; it is what a server without an OACK waits for. -/
def initial (srv : Server) (c : Client) (ourPort : Nat) : Sys :=
  { client := tftpStart c ourPort, sent := 0, acked := srv.oack.isNone }

theorem tftpHandler_data (srv : Server) (c : Client) (rx : Mem) (k : Nat) :
    tftpHandler c (store rx 0 (srv.dataPacket k)) c.ourPort srv.port (srv.dataPacket k).length =
      if c.tftpState ≠ .sendRrq ∧ srv.port ≠ c.remotePort then (c, [])
      else receiveData c srv.port (k % 65536) (srv.block k) := by
  have hAll := load_store_same rx 0 (srv.dataPacket k)
  have hLength : (srv.dataPacket k).length = 4 + (srv.block k).length := by
    simp [Server.dataPacket, beBytes16]
    omega
  have hProto : readBE16 (store rx 0 (srv.dataPacket k)) 0 = 3 :=
    readBE16_of_load _ 0 3 (beBytes16 k ++ srv.block k) (by
      have hTwo : 2 + (beBytes16 k ++ srv.block k).length = (srv.dataPacket k).length := by
        simp [Server.dataPacket]
        omega
      rw [hTwo, hAll]
      rfl)
  have hNumber : readBE16 (store rx 0 (srv.dataPacket k)) 2 = k % 65536 := by
    have hTwo : 2 + (srv.block k).length = (beBytes16 k ++ srv.block k).length := by
      simp [beBytes16]
      omega
    refine readBE16_of_load _ 2 k (srv.block k) ?_
    rw [hTwo]
    exact @load_of_append _ 0 _ [0, 3] (beBytes16 k ++ srv.block k) [] (by
      rw [hAll, List.append_nil]
      rfl)
  have hBlock : load (store rx 0 (srv.dataPacket k)) 4 (srv.block k).length = srv.block k := by
    have hPart := @load_of_append _ 0 _ ([0, 3] ++ beBytes16 k) (srv.block k) [] (by
      rw [hAll, List.append_nil, List.append_assoc]
      rfl)
    simpa [beBytes16] using hPart
  rw [tftpHandler, if_neg (by simp)]
  split
  · rfl
  · grind

theorem tftpHandler_oack {srv : Server} {opts : List OackOption} (hOack : srv.oack = some opts)
    {c : Client} (rx : Mem) (hSize : c.blockSize = 512 ∨ c.blockSize = srv.blockSize) :
    tftpHandler c (store rx 0 (oackPacket opts)) c.ourPort srv.port (oackPacket opts).length =
      if c.tftpState ≠ .sendRrq ∧ srv.port ≠ c.remotePort then (c, [])
      else receiveOack c srv.port srv.blockSize := by
  have hProto : readBE16 (store rx 0 (oackPacket opts)) 0 = 6 :=
    readBE16_of_load _ 0 6 (opts.flatMap OackOption.bytes) (by
      have hTwo : 2 + (opts.flatMap OackOption.bytes).length = (oackPacket opts).length := by
        simp [oackPacket]
        omega
      rw [hTwo, load_store_same]
      rfl)
  have hLength : ¬(oackPacket opts).length < 2 := by
    simp [oackPacket]
  rw [tftpHandler, if_neg (by simp), if_neg hLength]
  split
  · rfl
  · simp only [hProto]
    rw [if_pos trivial, oackBlockSize_packet hOack rx hSize]

def view (srv : Server) (c : Client) (sent : Nat) (acked : Bool) : LockStep.State :=
  { sent := sent, acked := acked, pos := 65536 * c.blockWrap + c.prevBlock,
    stored := fun j => 1 ≤ j ∧ Stored srv c.mem j }

structure Waiting (srv : Server) (s : Sys) : Prop where
  state : (s.client.tftpState = .sendRrq ∧ s.client.blockSize = 512) ∨
    (s.client.tftpState = .oack ∧ s.client.blockSize = srv.blockSize ∧
      s.client.remotePort = srv.port)
  cur : s.client.curBlock = 0
  size : s.client.netBootFileSize = 0
  sent : s.sent ≤ 1
  acked : s.acked = true → s.sent = 0
  /-- A server with an OACK sends nothing else before it is acknowledged. -/
  quiet : s.client.tftpState = .sendRrq → srv.oack ≠ none → s.sent = 0 ∧ s.acked = false

structure Running (srv : Server) (s : Sys) : Prop where
  state : s.client.tftpState ≠ .sendRrq
  port : s.client.remotePort = srv.port
  blockSize : s.client.blockSize = srv.blockSize
  cur : s.client.curBlock = s.client.prevBlock
  number : s.client.prevBlock < 65536
  offset : s.client.blockWrapOffset = srv.blockSize * 65536 * s.client.blockWrap
  size : s.client.netBootFileSize ≤ srv.file.length
  sent_le : s.sent ≤ srv.blocks
  lock : LockStep.Inv 65536 (view srv s.client s.sent s.acked)

def Complete (srv : Server) (c : Client) : Prop :=
  c.netBootFileSize = srv.file.length ∧ load c.mem 0 srv.file.length = srv.file

def Inv (srv : Server) (s : Sys) : Prop :=
  match s.client.netState with
  | .netloopContinue => Waiting srv s ∨ Running srv s
  | .netloopSuccess => Complete srv s.client
  | .netloopRestart | .netloopFail => True

theorem inv_initial (srv : Server) (c : Client) (ourPort : Nat) : Inv srv (initial srv c ourPort) := by
  refine .inl ⟨.inl ⟨rfl, rfl⟩, rfl, rfl, Nat.zero_le _, fun _ => rfl, fun _ hOack => ⟨rfl, ?_⟩⟩
  exact Option.isNone_eq_false_iff.mpr (Option.isSome_iff_ne_none.mpr hOack)

theorem hear_ack (s : Sys) (c : Client) (n : Nat) :
    s.hear (c, [.ack n]) =
      { client := c, sent := s.sent, acked := s.acked || n == s.sent % 65536 } := by
  have hEq : (Output.ack (s.sent % 65536) == Output.ack n) = (n == s.sent % 65536) := by
    rw [Bool.eq_iff_iff, beq_iff_eq, beq_iff_eq, Output.ack.injEq]
    exact eq_comm
  rw [Sys.hear, List.contains_cons, hEq, List.contains_nil, Bool.or_false]

theorem view_ack {srv : Server} {c : Client} {sent : Nat} {acked : Bool}
    (hNumber : c.prevBlock < 65536) :
    view srv c sent (acked || c.prevBlock == sent % 65536) =
      (view srv c sent acked).ack 65536 := by
  have hMod : (65536 * c.blockWrap + c.prevBlock) % 65536 = c.prevBlock := by omega
  simp [view, LockStep.State.ack, hMod]

theorem Running.resend {srv : Server} {s : Sys} (h : Running srv s) {c : Client}
    (hState : c.tftpState ≠ .sendRrq) (hPort : c.remotePort = srv.port)
    (hSize : c.blockSize = srv.blockSize) (hCur : c.curBlock = s.client.curBlock)
    (hSame : (c.prevBlock, c.blockWrap, c.blockWrapOffset, c.netBootFileSize, c.mem) =
      (s.client.prevBlock, s.client.blockWrap, s.client.blockWrapOffset, s.client.netBootFileSize,
        s.client.mem)) : Running srv (s.hear (c, [tftpSend c])) := by
  simp only [Prod.mk.injEq] at hSame
  obtain ⟨hPrev, hWrap, hOffset, hFile, hMem⟩ := hSame
  have hSend : tftpSend c = .ack c.prevBlock := by
    have hLast : c.curBlock = c.prevBlock := by
      rw [hCur, hPrev, h.cur]
    rw [tftpSend_ack hState (by rw [hLast, hPrev]; exact h.number), hLast]
  have hView : view srv c s.sent s.acked = view srv s.client s.sent s.acked := by
    simp [view, hPrev, hWrap, hMem]
  rw [hSend, hear_ack]
  refine ⟨hState, hPort, hSize, by rw [hCur, hPrev]; exact h.cur, hPrev ▸ h.number, ?_,
    hFile ▸ h.size, h.sent_le, ?_⟩
  · rw [hOffset, hWrap]
    exact h.offset
  · rw [view_ack (hPrev ▸ h.number), hView]
    exact h.lock.ack (by decide)

end Fire3.Tftp

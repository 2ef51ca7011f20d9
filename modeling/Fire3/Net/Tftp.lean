import Fire3.Base.ByteMemory
import Fire3.Base.CString
import Fire3.Base.Transition

/-!
The TFTP client of `net/tftp.c` for a read transfer, built without the options for
uploads, the server side, multicast and the size option.

The memory of the model starts at `load_addr`. A call of the handler gets the UDP
payload as the contents of the receive buffer and its length.
-/

namespace Fire3.Tftp
open ByteMemory CString

inductive TftpState
  | sendRrq
  | data
  | oack
  deriving DecidableEq, Repr

inductive NetState
  | netloopContinue
  | netloopRestart
  | netloopSuccess
  | netloopFail
  deriving DecidableEq, Repr

structure Client where
  tftpState : TftpState
  curBlock : Nat
  prevBlock : Nat
  blockWrap : Nat
  blockWrapOffset : Nat
  blockSize : Nat
  remotePort : Nat
  ourPort : Nat
  timeoutCount : Nat
  timeoutCountMax : Nat
  tftpTimeoutCountMax : Nat
  netBootFileSize : Nat
  netState : NetState
  mem : Mem

inductive Output
  | rrq
  | ack (number : Nat)
  deriving DecidableEq, Repr

def sequenceSize : Nat := 65536

def tftpSend (c : Client) : Output :=
  match c.tftpState with
  | .sendRrq => .rrq
  | .oack | .data => .ack (c.curBlock % 2 ^ 16)

theorem tftpSend_ack {c : Client} (hState : c.tftpState ≠ .sendRrq) (hNumber : c.curBlock < 65536) :
    tftpSend c = .ack c.curBlock := by
  have hMod : c.curBlock % 2 ^ 16 = c.curBlock := Nat.mod_eq_of_lt hNumber
  cases hCase : c.tftpState with
  | sendRrq => exact absurd hCase hState
  | data | oack => simp only [tftpSend, hCase, hMod]

def blockOffset (c : Client) : Nat :=
  ((Int.bmod (((c.curBlock : Int) - 1) * c.blockSize) (2 ^ 32) + c.blockWrapOffset) % 2 ^ 64).toNat

def storeBlock (c : Client) (src : List UInt8) : Client :=
  let offset := blockOffset c
  let newsize := (offset + src.length) % 2 ^ 64
  { c with
    mem := store c.mem offset src
    netBootFileSize := if c.netBootFileSize < newsize then newsize % 2 ^ 32 else c.netBootFileSize }

def newTransfer (c : Client) : Client :=
  { c with prevBlock := 0, blockWrap := 0, blockWrapOffset := 0 }

def updateBlockNumber (c : Client) : Client :=
  if c.curBlock = 0 ∧ c.prevBlock ≠ 0 then
    { c with
      blockWrap := (c.blockWrap + 1) % 2 ^ 64
      blockWrapOffset := (c.blockWrapOffset + c.blockSize * sequenceSize) % 2 ^ 64
      timeoutCount := 0 }
  else c

def netStartAgain (c : Client) : Client := { c with netState := .netloopRestart }

/-- The end of case `TFTP_DATA`, from the test for the same block on. -/
def acceptBlock (c : Client) (src : List UInt8) : Client × List Output :=
  if c.curBlock = c.prevBlock then (c, [])
  else
    let c := storeBlock
      { c with prevBlock := c.curBlock, timeoutCountMax := c.tftpTimeoutCountMax } src
    (if src.length < c.blockSize then { c with netState := .netloopSuccess } else c, [tftpSend c])

def receiveData (c : Client) (port number : Nat) (src : List UInt8) : Client × List Output :=
  let c := updateBlockNumber { c with curBlock := number }
  if c.tftpState = .sendRrq ∨ c.tftpState = .oack then
    -- first block received
    let c := newTransfer { c with tftpState := .data, remotePort := port }
    if c.curBlock ≠ 1 then (netStartAgain c, []) else acceptBlock c src
  else acceptBlock c src

def isBlksize (pkt : Mem) (a : Nat) : Bool := load pkt a 8 = ascii "blksize" ++ [0]

def numberAt (pkt : Mem) (a : Nat) : Nat := simpleStrtoul (load pkt a 2048) 10

def oackBlockSize (pkt : Mem) (a len blockSize : Nat) : Nat :=
  (List.range (len - 8)).foldl
    (fun size i => if isBlksize pkt (a + i) then numberAt pkt (a + i + 8) % 2 ^ 16 else size) blockSize

def receiveOack (c : Client) (port blockSize : Nat) : Client × List Output :=
  let c := { c with tftpState := .oack, remotePort := port, blockSize := blockSize }
  (c, [tftpSend c])

def receiveError (c : Client) (code : Nat) : Client × List Output :=
  if code = 1 ∨ code = 2 then ({ c with netState := .netloopFail }, []) else (netStartAgain c, [])

def tftpHandler (c : Client) (pkt : Mem) (dest port len : Nat) : Client × List Output :=
  if dest ≠ c.ourPort then (c, [])
  else if c.tftpState ≠ .sendRrq ∧ port ≠ c.remotePort then (c, [])
  else if len < 2 then (c, [])
  else
    let proto := readBE16 pkt 0
    if proto = 6 then receiveOack c port (oackBlockSize pkt 2 (len - 2) c.blockSize)
    else if proto = 3 then
      if len - 2 < 2 then (c, []) else receiveData c port (readBE16 pkt 2) (load pkt 4 (len - 4))
    else if proto = 5 then receiveError c (readBE16 pkt 2)
    else (c, [])

def tftpTimeoutHandler (c : Client) : Client × List Output :=
  let c := { c with timeoutCount := c.timeoutCount + 1 }
  if c.timeoutCount > c.timeoutCountMax then (netStartAgain c, []) else (c, [tftpSend c])

/-- `tftp_start` on whatever an earlier transfer left behind, for a port of our own; the loop of
`net.c` has cleared the file size. -/
def tftpStart (c : Client) (ourPort : Nat) : Client :=
  { c with
    tftpState := .sendRrq
    timeoutCountMax := c.tftpTimeoutCountMax
    remotePort := 69
    timeoutCount := 0
    ourPort := ourPort
    curBlock := 0
    blockSize := 512
    netBootFileSize := 0
    netState := .netloopContinue }

theorem blockOffset_eq {c : Client} {w : Nat} (hNumber : c.curBlock < 65536)
    (hSize : c.blockSize ≤ 32768) (hOffset : c.blockWrapOffset = c.blockSize * 65536 * w)
    (hPos : 1 ≤ 65536 * w + c.curBlock)
    (hRange : (65536 * w + c.curBlock - 1) * c.blockSize < 2 ^ 64) :
    blockOffset c = (65536 * w + c.curBlock - 1) * c.blockSize := by
  have hLow : -1 * (c.blockSize : Int) ≤ ((c.curBlock : Int) - 1) * c.blockSize :=
    Int.mul_le_mul_of_nonneg_right (by omega) (by omega)
  have hHigh : ((c.curBlock : Int) - 1) * c.blockSize ≤ 65534 * c.blockSize :=
    Int.mul_le_mul_of_nonneg_right (by omega) (by omega)
  have hInt : Int.bmod (((c.curBlock : Int) - 1) * c.blockSize) (2 ^ 32) =
      ((c.curBlock : Int) - 1) * c.blockSize := by
    rw [Int.bmod_eq_of_le] <;> omega
  have hSum : ((c.curBlock : Int) - 1) * c.blockSize + (c.blockWrapOffset : Int) =
      (((65536 * w + c.curBlock - 1) * c.blockSize : Nat) : Int) := by
    obtain ⟨m, hm⟩ : ∃ m, 65536 * w + c.curBlock = m + 1 := ⟨65536 * w + c.curBlock - 1, by omega⟩
    have hCur : (c.curBlock : Int) - 1 = m - 65536 * w := by omega
    rw [hOffset, hm, Nat.add_sub_cancel, hCur]
    push_cast
    ring
  rw [blockOffset, hInt, hSum]
  omega

/-!
What packets of other hosts do to a TFTP read transfer.

`tftp_handler` gets the source address of a datagram but does not look at it. Another
host is kept out by the port numbers alone, and only behind the first reply.
-/

structure Datagram where
  sip : Nat
  dest : Nat
  src : Nat
  len : Nat
  pkt : Mem

inductive Arrival
  | datagram (d : Datagram)
  | timeout

structure Exchange where
  client : Client
  sent : List Output

def Exchange.step (x : Exchange) (a : Arrival) : Exchange :=
  let (client, outputs) := match a with
    | .datagram d => tftpHandler x.client d.pkt d.dest d.src d.len
    | .timeout => tftpTimeoutHandler x.client
  ⟨client, x.sent ++ outputs⟩

def Arrival.fromServer (server : Nat) : Arrival → Bool
  | .datagram d => d.sip = server
  | .timeout => true

def Ignored (c : Client) (d : Datagram) : Prop :=
  d.dest ≠ c.ourPort ∨ (c.tftpState ≠ .sendRrq ∧ d.src ≠ c.remotePort) ∨ d.len < 2 ∨
    if readBE16 d.pkt 0 = 6 then False
    else if readBE16 d.pkt 0 = 3 then
      -- too short, or the block that was stored last once more
      d.len < 4 ∨ c.tftpState = .data ∧ readBE16 d.pkt 2 = c.prevBlock ∧ c.curBlock = c.prevBlock
    else if readBE16 d.pkt 0 = 5 then
      c.netState = if readBE16 d.pkt 2 = 1 ∨ readBE16 d.pkt 2 = 2 then .netloopFail else .netloopRestart
    else True

/-- What a foreign datagram has to meet; the others are free. -/
def Harmless (server : Nat) (x : Exchange) : Arrival → Prop
  | .datagram d => d.sip ≠ server → Ignored x.client d
  | .timeout => True

theorem acceptBlock_eq_self_iff {c d : Client} {src : List UInt8} :
    acceptBlock d src = (c, []) ↔ d.curBlock = d.prevBlock ∧ d = c := by
  unfold acceptBlock
  split
  · rename_i hSame
    simp [hSame]
  · rename_i hOther
    simp [hOther]

theorem receiveData_eq_self_iff {c : Client} {port number : Nat} {src : List UInt8} :
    receiveData c port number src = (c, []) ↔
      c.tftpState = .data ∧ number = c.prevBlock ∧ c.curBlock = c.prevBlock := by
  have hKeeps : ∀ d, (updateBlockNumber d).tftpState = d.tftpState ∧
      (updateBlockNumber d).curBlock = d.curBlock ∧ (updateBlockNumber d).prevBlock = d.prevBlock := by
    grind [updateBlockNumber]
  obtain ⟨hState, hCur, hPrev⟩ := hKeeps { c with curBlock := number }
  unfold receiveData
  dsimp only at hState hCur hPrev ⊢
  rw [hState]
  by_cases hFirst : c.tftpState = .sendRrq ∨ c.tftpState = .oack
  · -- a first block always changes the state
    have hOther : c.tftpState ≠ .data := by
      rcases hFirst with h | h <;> simp [h]
    rw [if_pos hFirst]
    refine ⟨fun h => absurd ?_ hOther, fun h => absurd h.1 hOther⟩
    split at h
    · exact (congrArg (·.1.tftpState) h).symm
    · exact (congrArg Client.tftpState (acceptBlock_eq_self_iff.mp h).2).symm
  · have hData : c.tftpState = .data := by
      cases hCase : c.tftpState <;> simp [hCase] at hFirst ⊢
    rw [if_neg hFirst, acceptBlock_eq_self_iff, hCur, hPrev]
    constructor
    · grind
    · rintro ⟨-, rfl, hBlock⟩
      refine ⟨rfl, ?_⟩
      unfold updateBlockNumber
      rw [if_neg (by simp)]
      exact congrArg (fun n => ({ c with curBlock := n } : Client)) hBlock.symm

theorem receiveError_eq_self_iff {c : Client} {code : Nat} :
    receiveError c code = (c, []) ↔
      c.netState = if code = 1 ∨ code = 2 then .netloopFail else .netloopRestart := by
  unfold receiveError netStartAgain
  split <;> cases c <;> simp [eq_comm]

theorem tftpHandler_eq_self_iff (c : Client) (d : Datagram) :
    tftpHandler c d.pkt d.dest d.src d.len = (c, []) ↔ Ignored c d := by
  unfold tftpHandler Ignored
  by_cases hDest : d.dest ≠ c.ourPort
  · simp [hDest]
  by_cases hPort : c.tftpState ≠ .sendRrq ∧ d.src ≠ c.remotePort
  · simp [hPort]
  by_cases hLen : d.len < 2
  · simp [hLen]
  simp only [hDest, hPort, hLen, if_false, false_or]
  split
  · simp [receiveOack]
  · split
    · by_cases hShort : d.len < 4
      · simp [hShort, show d.len - 2 < 2 by omega]
      · simp [hShort, show ¬d.len - 2 < 2 by omega, receiveData_eq_self_iff]
    · simp [receiveError_eq_self_iff]

theorem step_eq_self_iff (x : Exchange) (d : Datagram) :
    x.step (.datagram d) = x ↔ Ignored x.client d := by
  rw [← tftpHandler_eq_self_iff]
  cases x with
  | mk client sent =>
      simp only [Exchange.step, Exchange.mk.injEq, List.append_right_eq_self, Prod.ext_iff]

/-- The run with the packets of other hosts and the run without them have the same client, the
same memory and the same acknowledgements after every number of arrivals, exactly when every
foreign datagram is one that is ignored. -/
theorem foreign_datagrams_inert_iff (server : Nat) (x : Exchange) (arrivals : List Arrival) :
    (∀ k, (arrivals.take k).foldl Exchange.step x =
      ((arrivals.take k).filter (Arrival.fromServer server)).foldl Exchange.step x) ↔
      Transition.Meets Exchange.step (Harmless server) x arrivals := by
  have hSame : (fun (x : Exchange) a => a.fromServer server = false → x.step a = x) =
      Harmless server := by
    funext x a
    cases a with
    | datagram d => simp [Arrival.fromServer, Harmless, step_eq_self_iff]
    | timeout => simp [Arrival.fromServer, Harmless]
  rw [Transition.filter_agrees_iff_meets, hSame]

def midTransfer : Client :=
  { tftpState := .data, curBlock := 1, prevBlock := 1, blockWrap := 0, blockWrapOffset := 0,
    blockSize := 512, remotePort := 4000, ourPort := 1024, timeoutCount := 0, timeoutCountMax := 10,
    tftpTimeoutCountMax := 10, netBootFileSize := 512, netState := .netloopContinue, mem := zero }

def blockTwo (sip src : Nat) (byte : UInt8) : Arrival :=
  .datagram ⟨sip, 1024, src, 5, store zero 0 [0, 3, 0, 2, byte]⟩

/-- A packet of another host that has the wrong port, before the block of the server. -/
theorem foreign_datagrams_inert_ports :
    [blockTwo 2 9 7, blockTwo 1 4000 5].foldl Exchange.step ⟨midTransfer, []⟩ =
      [blockTwo 1 4000 5].foldl Exchange.step ⟨midTransfer, []⟩ :=
  (foreign_datagrams_inert_iff 1 ⟨midTransfer, []⟩ [blockTwo 2 9 7, blockTwo 1 4000 5]).mpr
    ⟨fun _ => .inr (.inl (by decide)), fun h => absurd rfl h, trivial⟩ 2

/-- With the right ports the block of another host is stored, and the transfer ends with it. -/
theorem foreign_block_stored :
    (let x := [blockTwo 2 4000 7].foldl Exchange.step ⟨midTransfer, []⟩
     let y := ([blockTwo 2 4000 7].filter (Arrival.fromServer 1)).foldl Exchange.step ⟨midTransfer, []⟩
     (x.client.mem 512, x.client.netState, x.sent) = (7, .netloopSuccess, [.ack 2]) ∧
      (y.client.mem 512, y.client.netState, y.sent) = (0, .netloopContinue, [])) := by
  decide +kernel

end Fire3.Tftp

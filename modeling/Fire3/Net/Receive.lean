import Fire3.Base.ByteMemory

/-!
`net_process_received_packet` of `net/net.c`, up to the call of a protocol handler.

The packet is a buffer whose first `len` bytes were received; the buffer goes on
behind them with whatever was there. The header sizes are of type `size_t`, so a
comparison with `len` is unsigned, and `len` is negative for a short 802.2 frame.
-/

namespace Fire3.Net
open ByteMemory

structure NetConfig where
  netIp : Nat
  netOurVlan : Nat
  netNativeVlan : Nat

variable {net : NetConfig} {pkt : Mem} {len : Int}

structure UdpCall where
  pkt : Nat
  dport : Nat
  srcIp : Nat
  sport : Nat
  len : Nat
  deriving DecidableEq, Repr

inductive Dispatch where
  | dropped
  | arp (ip : Nat) (len : Int)
  | icmp (ip : Nat) (len : Int) (srcIp : Nat)
  | udp (call : UdpCall)
  deriving DecidableEq, Repr

def etherHdrSize : Nat := 14
def e802HdrSize : Nat := 22
def vlanEtherHdrSize : Nat := 18
def ipHdrSize : Nat := 20
def ipUdpHdrSize : Nat := 28
def udpHdrSize : Nat := 8
def vlanNone : Nat := 4095
def vlanId (tag : Nat) : Nat := tag % 4096
def protIp : Nat := 0x0800
def protArp : Nat := 0x0806
def protVlan : Nat := 0x8100

def ltSize (len : Int) (size : Nat) : Bool := len % 2 ^ 64 < size

structure Link where
  ethProto : Nat
  ip : Nat
  len : Int
  vlanid : Nat

/-- The three kinds of frames; `none` is a frame that is dropped. -/
def linkHeader (net : NetConfig) (pkt : Mem) (len : Int) : Option Link :=
  let ethProto := readBE16 pkt 12
  if ethProto < 1514 then
    some { ethProto := readBE16 pkt 20, ip := e802HdrSize, len := len - e802HdrSize,
           vlanid := vlanNone }
  else if ethProto ≠ protVlan then
    some { ethProto := ethProto, ip := etherHdrSize, len := len - etherHdrSize, vlanid := vlanNone }
  else if ltSize len vlanEtherHdrSize then none
  else if vlanId net.netOurVlan = vlanNone then none
  else
    some { ethProto := readBE16 pkt 16, ip := vlanEtherHdrSize, len := len - vlanEtherHdrSize,
           vlanid := vlanId (readBE16 pkt 14) }

def ownVlan (vlan : Nat) : Nat := if vlan = 0xffff then vlanNone else vlan

def vlanMatches (net : NetConfig) (vlanid : Nat) : Bool :=
  if vlanId (ownVlan net.netOurVlan) ≠ vlanNone then
    (if vlanid = vlanNone then vlanId (ownVlan net.netNativeVlan) else vlanid) =
      vlanId (ownVlan net.netOurVlan)
  else true

def computeIpChecksum (pkt : Mem) (a nbytes : Nat) : Nat :=
  let words := (List.range (nbytes / 2)).map fun i => readLE pkt (a + 2 * i) 2
  let sum := words.sum + (if nbytes % 2 = 1 then (pkt (a + nbytes - 1)).toNat else 0)
  let sum := sum / 2 ^ 16 + sum % 2 ^ 16
  let sum := sum + sum / 2 ^ 16
  0xffff - sum % 2 ^ 16

def ipChecksumOk (pkt : Mem) (a nbytes : Nat) : Bool := computeIpChecksum pkt a nbytes &&& 0xfffe = 0

def ipHeaderOk (net : NetConfig) (pkt : Mem) (ip : Nat) : Bool :=
  let dstIp := readLE pkt (ip + 16) 4
  (pkt ip) &&& 0xf0 = 0x40 && (pkt ip) &&& 0x0f ≤ 0x05 && ipChecksumOk pkt ip ipHdrSize &&
    (net.netIp = 0 || dstIp = net.netIp || dstIp = 0xffffffff) &&
    readBE16 pkt (ip + 6) &&& (0x1fff ||| 0x2000) = 0

def receiveIp (net : NetConfig) (pkt : Mem) (ip : Nat) (len : Int) : Dispatch :=
  if ltSize len ipUdpHdrSize then .dropped
  else if len < readBE16 pkt (ip + 2) then .dropped
  else if ipHeaderOk net pkt ip then
    let len := readBE16 pkt (ip + 2)
    let srcIp := readLE pkt (ip + 12) 4
    if pkt (ip + 9) = 1 then .icmp ip len srcIp
    else if pkt (ip + 9) ≠ 17 then .dropped
    else
      .udp
        { pkt := ip + ipUdpHdrSize
          dport := readBE16 pkt (ip + 22)
          srcIp := srcIp
          sport := readBE16 pkt (ip + 20)
          -- the difference is unsigned, and so is the parameter
          len := (readBE16 pkt (ip + 24) + 2 ^ 32 - udpHdrSize) % 2 ^ 32 }
  else .dropped

def netProcessReceivedPacket (net : NetConfig) (pkt : Mem) (len : Int) : Dispatch :=
  if ltSize len etherHdrSize then .dropped
  else
    match linkHeader net pkt len with
    | none => .dropped
    | some link =>
        if vlanMatches net link.vlanid then
          if link.ethProto = protArp then .arp link.ip link.len
          else if link.ethProto = protIp then receiveIp net pkt link.ip link.len
          else .dropped
        else .dropped

def headerSize (pkt : Mem) : Nat :=
  if readBE16 pkt 12 < 1514 then e802HdrSize
  else if readBE16 pkt 12 ≠ protVlan then etherHdrSize
  else vlanEtherHdrSize

def udpLen (pkt : Mem) : Nat := readBE16 pkt (headerSize pkt + 24)

def ipLen (pkt : Mem) : Nat := readBE16 pkt (headerSize pkt + 2)

def UdpCall.Received (call : UdpCall) (len : Nat) : Prop := ∀ i < call.len, call.pkt + i < len

theorem linkHeader_some {link : Link} (h : linkHeader net pkt len = some link) :
    link.ip = headerSize pkt ∧ link.len = len - headerSize pkt := by
  unfold linkHeader at h
  unfold headerSize
  dsimp only at h
  split at h
  · rename_i hShort
    grind
  · rename_i hShort
    rw [if_neg hShort]
    split at h
    · rename_i hPlain
      grind
    · rename_i hVlan
      rw [if_neg hVlan]
      split at h
      · cases h
      · split at h
        · cases h
        · grind

theorem length_of_tests {size ipLen : Nat} (hSize : ¬ltSize len size = true) (hIpLen : ¬len < ipLen) :
    (size : Int) ≤ len := by
  rw [ltSize, decide_eq_true_eq] at hSize
  omega

theorem receiveIp_udp {ip : Nat} {call : UdpCall} (h : receiveIp net pkt ip len = .udp call) :
    (ipUdpHdrSize : Int) ≤ len ∧ readBE16 pkt (ip + 2) ≤ len ∧ call.pkt = ip + ipUdpHdrSize ∧
      call.len = (readBE16 pkt (ip + 24) + 2 ^ 32 - udpHdrSize) % 2 ^ 32 := by
  unfold receiveIp at h
  split at h
  · cases h
  · split at h
    · cases h
    · rename_i hSize hIpLen
      split at h
      · dsimp only at h
        split at h
        · cases h
        · split at h
          · cases h
          · rw [Dispatch.udp.injEq] at h
            subst h
            exact ⟨length_of_tests hSize hIpLen, Int.not_lt.mp hIpLen, rfl, rfl⟩
      · cases h

/-- What is known when a handler is called: the UDP header was received and the IP length fits
the frame. Nothing is known about the UDP length. -/
theorem netProcessReceivedPacket_udp {len : Nat} {call : UdpCall}
    (h : netProcessReceivedPacket net pkt len = .udp call) :
    headerSize pkt + ipUdpHdrSize ≤ len ∧ headerSize pkt + ipLen pkt ≤ len ∧
      call.pkt = headerSize pkt + ipUdpHdrSize ∧
      call.len = (udpLen pkt + 2 ^ 32 - udpHdrSize) % 2 ^ 32 := by
  unfold netProcessReceivedPacket at h
  split at h
  · cases h
  · split at h
    · cases h
    · rename_i link hLink
      obtain ⟨hIp, hLinkLen⟩ := linkHeader_some hLink
      split at h
      · split at h
        · cases h
        · split at h
          · obtain ⟨hHeaders, hIpLen, hPkt, hCall⟩ := receiveIp_udp h
            rw [hIp] at hIpLen hPkt hCall
            exact ⟨by omega, by unfold ipLen; omega, hPkt, hCall⟩
          · cases h
      · cases h

/-- The payload was received exactly when the UDP length covers its header and stays inside the
frame. -/
theorem udp_payload_received_iff (net : NetConfig) (pkt : Mem) {len : Nat} (hLen : len < 2 ^ 31)
    {call : UdpCall} (h : netProcessReceivedPacket net pkt len = .udp call) :
    call.Received len ↔
      udpHdrSize ≤ udpLen pkt ∧ headerSize pkt + ipHdrSize + udpLen pkt ≤ len := by
  obtain ⟨hHeaders, -, hPkt, hCall⟩ := netProcessReceivedPacket_udp h
  have hUdp : udpLen pkt < 2 ^ 16 := by
    have := (pkt (headerSize pkt + 24)).toNat_lt
    have := (pkt (headerSize pkt + 24 + 1)).toNat_lt
    unfold udpLen readBE16
    omega
  unfold UdpCall.Received ipHdrSize
  unfold udpHdrSize ipUdpHdrSize at *
  constructor
  · intro hReceived
    by_cases hShort : udpLen pkt < 8
    · -- the length wraps around to nearly 2^32
      have := hReceived len (by omega)
      omega
    · by_cases hEmpty : udpLen pkt = 8
      · omega
      · have := hReceived (udpLen pkt - 9) (by omega)
        omega
  · rintro ⟨hHeader, hInside⟩ i hi
    omega

def udpFrame (ipLen ipSum udpLen : Nat) (payload : List UInt8) : List UInt8 :=
  List.replicate 12 0 ++ [0x08, 0x00, 0x45, 0x00] ++ beBytes16 ipLen ++ [0, 0, 0, 0, 0x40, 0x11] ++
    beBytes16 ipSum ++ [10, 0, 0, 2, 10, 0, 0, 1, 0, 69, 0x0b, 0xb8] ++ beBytes16 udpLen ++ [0, 0] ++
    payload

def anyHost : NetConfig := { netIp := 0, netOurVlan := 0xffff, netNativeVlan := 0xffff }

theorem udp_payload_received_iff_four :
    netProcessReceivedPacket anyHost (store zero 0 (udpFrame 32 0x66cb 12 [1, 2, 3, 4])) (46 : Nat) =
        .udp ⟨42, 3000, 0x0200000a, 69, 4⟩ ∧
      UdpCall.Received ⟨42, 3000, 0x0200000a, 69, 4⟩ 46 := by
  have hCall : netProcessReceivedPacket anyHost
      (store zero 0 (udpFrame 32 0x66cb 12 [1, 2, 3, 4])) (46 : Nat) =
        .udp ⟨42, 3000, 0x0200000a, 69, 4⟩ := by
    decide +kernel
  exact ⟨hCall, (udp_payload_received_iff _ _ (by decide) hCall).mpr
    ⟨by decide +kernel, by decide +kernel⟩⟩

/-- Two frames of 42 bytes, without a payload: a UDP length of 1032 and one of 0. -/
theorem udp_payload_not_received :
    (∃ call, netProcessReceivedPacket anyHost (store zero 0 (udpFrame 28 0x66cf 1032 [])) (42 : Nat) =
        .udp call ∧ call.len = 1024 ∧ ¬call.Received 42) ∧
      ∃ call, netProcessReceivedPacket anyHost (store zero 0 (udpFrame 28 0x66cf 0 [])) (42 : Nat) =
        .udp call ∧ call.len = 2 ^ 32 - 8 ∧ ¬call.Received 42 := by
  refine ⟨⟨⟨42, 3000, 0x0200000a, 69, 1024⟩, by decide +kernel, rfl, fun hReceived => ?_⟩,
    ⟨42, 3000, 0x0200000a, 69, 2 ^ 32 - 8⟩, by decide +kernel, rfl, fun hReceived => ?_⟩
  · exact absurd (hReceived 0 (by decide)) (by decide)
  · exact absurd (hReceived 0 (by decide)) (by decide)

end Fire3.Net

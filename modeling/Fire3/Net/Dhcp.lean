import Fire3.Base.CString
import Fire3.Net.DhcpOptions

/-!
The DHCP client of `net/bootp.c`: requests, timeouts and received packets.

Of a packet that the client sends, the transaction id and the options 54 and 50 are
kept. Beside the variables of the source a client has a record of the requests it
sent, each with the packet it answers, and of the packet that bound it.
-/

namespace Fire3.Bootp
open ByteMemory CString

inductive DhcpState where
  | init
  | initReboot
  | rebooting
  | selecting
  | requesting
  | rebinding
  | bound
  | renewing
  deriving DecidableEq, Repr

def dhcpOffer : Int := 2
def dhcpAck : Int := 5

def timeoutMs : Nat := (3 + 5 * 5) * 1000

structure Request where
  id : Nat
  serverIp : Nat
  requestedIp : Nat
  deriving DecidableEq, Repr

structure Packet where
  pkt : Mem
  etSrc : List UInt8
  dest : Nat
  src : Nat
  len : Nat

structure Exchange where
  answered : Packet
  ids : IdCache
  request : Request

structure Client where
  state : DhcpState
  ids : IdCache
  bootpTry : Nat
  bootpTimeout : Nat
  params : Params
  netIp : Nat
  netServerIp : Nat
  netServerEthaddr : List UInt8
  /-- the time handler is `bootp_timeout_handler` -/
  timer : Bool
  /-- the UDP handler is `dhcp_handler` -/
  listening : Bool
  /-- a handler that does not return -/
  hung : Bool
  discovers : List UInt32
  requests : List Exchange
  ack : Option Packet

/-- What happens to a client; `id` is the id that `bootp_request` computes from the time. -/
inductive Event where
  | start (id : UInt32)
  | timeout (timeTaken : Nat) (id : UInt32)
  | receive (packet : Packet)

def xid (pkt : Mem) : Nat := readLE pkt bpId 4
def yiaddr (pkt : Mem) : Nat := readLE pkt bpYiaddr 4

def bootpReset (c : Client) : Client :=
  { c with
    ids := c.ids.reset
    bootpTry := 0
    bootpTimeout := 250 }

def bootpRequest (c : Client) (id : UInt32) : Client :=
  { c with
    state := .selecting
    bootpTry := c.bootpTry + 1
    ids := bootpAddId c.ids id.toUInt64
    timer := true
    listening := true
    discovers := id :: c.discovers }

def netLoopDhcp (c : Client) (id : UInt32) : Client :=
  bootpRequest { bootpReset c with netIp := 0 } id

def bootpTimeoutHandler (c : Client) (timeTaken : Nat) (id : UInt32) : Client :=
  if timeTaken ≥ timeoutMs then { c with timer := false, listening := false }
  else bootpRequest { c with bootpTimeout := min (c.bootpTimeout * 2) 2000 } id

def packetParams (pkt : Mem) (s : Params) : Params :=
  ((dhcpPacketProcessOptions pkt optionFuel ⟨s, []⟩).map Parse.params).getD s

/-- `copy_filename` into a buffer of `size` bytes: an opening quote is skipped and the next one
ends the name. -/
def copyFilename (dst : List UInt8) (src : CStr) (size : Nat) : List UInt8 :=
  let quote : UInt8 := 34
  let (src, size) := if src.head? = some quote then (src.drop 1, size - 1) else (src, size)
  copyText dst ((src.take (size - 1)).takeWhile (· ≠ quote))

/-- `store_net_params`; the name is read behind the field when it has no end there. -/
def storeNetParams (c : Client) (p : Packet) : Client :=
  let siaddr := readLE p.pkt bpSiaddr 4
  let file := ofArray (load p.pkt bpFile sizeofBootFileName)
  { c with
    netServerIp := if siaddr ≠ 0 then siaddr else c.netServerIp
    netServerEthaddr := p.etSrc
    params :=
      if c.params.optionOverload &&& overloadFile = 0 ∧ file ≠ [] then
        { c.params with bootFileName := copyFilename c.params.bootFileName file sizeofBootFileName }
      else c.params
    netIp := yiaddr p.pkt }

def dhcpSendRequestPacket (c : Client) (offer : Packet) : Client :=
  let request : Request :=
    { id := xid offer.pkt, serverIp := c.params.serverIp, requestedIp := yiaddr offer.pkt }
  { c with requests := { answered := offer, ids := c.ids, request := request } :: c.requests }

/-- `dhcp_handler`. In the state SELECTING every packet that passes the filter is answered. -/
def dhcpHandler (fuel : Nat) (c : Client) (p : Packet) : Client :=
  if checkReplyPacket c.ids p.pkt p.dest p.src p.len ≠ 0 then c
  else
    match c.state with
    | .selecting =>
        dhcpSendRequestPacket
          { c with
            params := packetParams p.pkt c.params
            state := .requesting
            timer := true } p
    | .requesting =>
        match dhcpMessageType p.pkt fuel bpVend with
        | none => { c with hung := true }
        | some (type, _) =>
            if type = dhcpAck then
              { storeNetParams { c with params := packetParams p.pkt c.params } p with
                state := .bound
                timer := false
                listening := false
                ack := some p }
            else c
    | _ => c

def step (fuel : Nat) (c : Client) (e : Event) : Client :=
  if c.hung then c
  else
    match e with
    | .start id => netLoopDhcp c id
    | .timeout timeTaken id => if c.timer then bootpTimeoutHandler c timeTaken id else c
    | .receive p => if c.listening then dhcpHandler fuel c p else c

end Fire3.Bootp

import Fire3.Base.Transition
import Fire3.Net.Dhcp
import Fire3.Net.DhcpBounds

/-!
Whether a DHCP client is bound to what it requested. The client answers any packet
that passes the filter, and takes its address from any acknowledgement with a
remembered id; what it sent last it never compares.
-/

namespace Fire3.Bootp
open ByteMemory

/-- The value of the first option `code`, if all of it is among the bytes. -/
def findOption (code : UInt8) : Nat → List UInt8 → Option (List UInt8)
  | 0, _ | _, [] => none
  | fuel + 1, c :: rest =>
      if c = 0 then findOption code fuel rest
      else if c = 0xff then none
      else
        match rest with
        | [] => none
        | n :: rest =>
            if rest.length < n.toNat then none
            else if c = code then some (rest.take n.toNat)
            else findOption code fuel (rest.drop n.toNat)

/-- The received bytes behind the magic. -/
def Packet.options (p : Packet) : List UInt8 :=
  if bpVend + 4 ≤ p.len ∧ load p.pkt bpVend 4 = bootpVendorMagic then
    load p.pkt (bpVend + 4) (p.len - (bpVend + 4))
  else []

/-- The option `code` of a packet, which may also stand in an overloaded field. -/
def Packet.option (p : Packet) (code : UInt8) : Option (List UInt8) :=
  let within (bytes : List UInt8) := findOption code bytes.length bytes
  let overload := ((findOption 52 p.options.length p.options).bind List.head?).getD 0
  (within p.options).or <|
    (if overload &&& overloadFile ≠ 0 then within (load p.pkt bpFile 128) else none).or <|
      if overload &&& overloadSname ≠ 0 then within (load p.pkt bpSname 64) else none

def messageType (p : Packet) : Option Int :=
  match p.option 53 with
  | some [type] => some type.toNat
  | _ => none

def serverIdOf (p : Packet) : Option Nat :=
  match p.option 54 with
  | some [a, b, c, d] => some (leValue [a, b, c, d])
  | _ => none

structure Acknowledges (ack : Packet) (x : Exchange) : Prop where
  type : messageType ack = some dhcpAck
  address : yiaddr ack.pkt = yiaddr x.answered.pkt
  id : xid ack.pkt = x.request.id
  server : serverIdOf ack = some x.request.serverIp

structure AnswersOffer (x : Exchange) : Prop where
  type : messageType x.answered = some dhcpOffer
  remembered : bootpMatchId x.ids (UInt64.ofNat (xid x.answered.pkt)) = true

/-- Requests answer offers, and a bound client has the address of the last offer it answered and an
acknowledgement of that request. -/
structure Agreement (c : Client) : Prop where
  requests : ∀ x ∈ c.requests, AnswersOffer x
  bound : c.state = .bound → ∃ x rest ack, c.requests = x :: rest ∧ c.ack = some ack ∧
    c.netIp = yiaddr x.answered.pkt ∧ messageType ack = some dhcpAck ∧
    xid ack.pkt = x.request.id ∧ serverIdOf ack = some x.request.serverIp

def Takes (c : Client) (p : Packet) : Prop :=
  c.hung = false ∧ c.listening = true ∧ checkReplyPacket c.ids p.pkt p.dest p.src p.len = 0

/-- What has to hold of an event: a packet taken in the state SELECTING is an offer, and what
`dhcp_message_type` takes for an acknowledgement in the state REQUESTING is one of the last
request. -/
def Agreeable (fuel : Nat) (c : Client) : Event → Prop
  | .receive p => Takes c p →
      (c.state = .selecting → messageType p = some dhcpOffer) ∧
        (c.state = .requesting → ∀ reads, dhcpMessageType p.pkt fuel bpVend = some (dhcpAck, reads) →
          ∃ x rest, c.requests = x :: rest ∧ Acknowledges p x)
  | _ => True

theorem remembered_of_accepted {ids : IdCache} {pkt : Mem} {dest src len : Nat}
    (h : checkReplyPacket ids pkt dest src len = 0) :
    bootpMatchId ids (UInt64.ofNat (xid pkt)) = true := by
  unfold checkReplyPacket at h
  repeat' split at h
  all_goals first
    | exact absurd h (by decide)
    | skip
  rename_i hMatch
  exact Bool.eq_true_of_not_eq_false hMatch

section
variable {fuel : Nat} {c : Client} {p : Packet}

theorem step_receive_ignored (h : ¬Takes c p) : step fuel c (.receive p) = c := by
  unfold step
  split
  · rfl
  · rename_i hRuns
    dsimp only
    split
    · rename_i hListens
      rw [dhcpHandler, if_pos fun hAccepted =>
        h ⟨Bool.eq_false_of_not_eq_true hRuns, hListens, hAccepted⟩]
    · rfl

theorem step_receive_taken (h : Takes c p) : step fuel c (.receive p) = dhcpHandler fuel c p := by
  rw [step, if_neg (by rw [h.1]; decide)]
  exact if_pos h.2.1

theorem Agreement.of_same {c' : Client} (h : Agreement c) (hRequests : c'.requests = c.requests)
    (hBound : c'.state = .bound → c.state = .bound ∧ c'.ack = c.ack ∧ c'.netIp = c.netIp) :
    Agreement c' := by
  refine ⟨by rw [hRequests]; exact h.requests, fun hState => ?_⟩
  obtain ⟨hWas, hAck, hIp⟩ := hBound hState
  rw [hRequests, hAck, hIp]
  exact h.bound hWas

theorem Agreement.bootpRequest (h : ∀ x ∈ c.requests, AnswersOffer x) (id : UInt32) :
    Agreement (bootpRequest c id) := by
  refine ⟨h, fun hBound => ?_⟩
  cases hBound

theorem agreement_selecting (h : Agreement c) (hTakes : Takes c p) (hState : c.state = .selecting) :
    Agreement (step fuel c (.receive p)) ↔ messageType p = some dhcpOffer := by
  have hStep : step fuel c (.receive p) = dhcpSendRequestPacket
      { c with
        params := packetParams p.pkt c.params
        state := .requesting
        timer := true } p := by
    rw [step_receive_taken hTakes, dhcpHandler, if_neg (by rw [hTakes.2.2]; decide), hState]
  rw [hStep]
  constructor
  · intro hAgree
    exact (hAgree.requests _ List.mem_cons_self).type
  · intro hOffer
    refine ⟨List.forall_mem_cons.mpr ⟨⟨hOffer, remembered_of_accepted hTakes.2.2⟩, h.requests⟩,
      fun hBound => ?_⟩
    cases hBound

theorem agreement_requesting (h : Agreement c) (hTakes : Takes c p) (hState : c.state = .requesting)
    {reads : List Nat} (hType : dhcpMessageType p.pkt fuel bpVend = some (dhcpAck, reads)) :
    Agreement (step fuel c (.receive p)) ↔
      ∃ x rest, c.requests = x :: rest ∧ Acknowledges p x := by
  have hStep : step fuel c (.receive p) =
      { storeNetParams { c with params := packetParams p.pkt c.params } p with
        state := .bound
        timer := false
        listening := false
        ack := some p } := by
    rw [step_receive_taken hTakes, dhcpHandler, if_neg (by rw [hTakes.2.2]; decide), hState]
    dsimp only
    rw [hType]
    rfl
  rw [hStep]
  constructor
  · intro hAgree
    obtain ⟨x, rest, ack, hRequests, hAck, hAddress, hAckType, hId, hServer⟩ := hAgree.bound rfl
    obtain rfl : p = ack := Option.some.inj hAck
    exact ⟨x, rest, hRequests, hAckType, hAddress, hId, hServer⟩
  · rintro ⟨x, rest, hRequests, hAcks⟩
    exact ⟨h.requests, fun _ =>
      ⟨x, rest, p, hRequests, rfl, hAcks.address, hAcks.type, hAcks.id, hAcks.server⟩⟩

theorem agreement_other (h : Agreement c) (hTakes : Takes c p) (hSelecting : c.state ≠ .selecting)
    (hAck : c.state = .requesting → ∀ reads,
      dhcpMessageType p.pkt fuel bpVend ≠ some (dhcpAck, reads)) :
    Agreement (step fuel c (.receive p)) := by
  rw [step_receive_taken hTakes, dhcpHandler, if_neg (by rw [hTakes.2.2]; decide)]
  split
  · rename_i hState
    exact absurd hState hSelecting
  · rename_i hState
    split
    · exact h.of_same rfl fun hBound => ⟨hBound, rfl, rfl⟩
    · grind
  · exact h

theorem agreement_timeout (h : Agreement c) (timeTaken : Nat) (id : UInt32) :
    Agreement (bootpTimeoutHandler c timeTaken id) := by
  unfold bootpTimeoutHandler
  split
  · exact h.of_same rfl fun hBound => ⟨hBound, rfl, rfl⟩
  · refine Agreement.bootpRequest ?_ id
    exact h.requests

theorem agreement_receive (h : Agreement c) (hTakes : Takes c p) :
    Agreement (step fuel c (.receive p)) ↔ Agreeable fuel c (.receive p) := by
  have hAgreeable : Agreeable fuel c (.receive p) ↔
      (c.state = .selecting → messageType p = some dhcpOffer) ∧
        (c.state = .requesting → ∀ reads, dhcpMessageType p.pkt fuel bpVend = some (dhcpAck, reads) →
          ∃ x rest, c.requests = x :: rest ∧ Acknowledges p x) :=
    ⟨fun hEvent => hEvent hTakes, fun hEvent _ => hEvent⟩
  rw [hAgreeable]
  by_cases hSelecting : c.state = .selecting
  · grind [agreement_selecting]
  · by_cases hAck : c.state = .requesting ∧
        ∃ reads, dhcpMessageType p.pkt fuel bpVend = some (dhcpAck, reads)
    · grind [agreement_requesting]
    · have hNone : c.state = .requesting → ∀ reads,
          dhcpMessageType p.pkt fuel bpVend ≠ some (dhcpAck, reads) :=
        fun hState reads hType => hAck ⟨hState, reads, hType⟩
      exact iff_of_true (agreement_other h hTakes hSelecting hNone)
        ⟨fun hIs => absurd hIs hSelecting, fun hState reads hType => absurd hType (hNone hState reads)⟩

end

theorem agreement_step (fuel : Nat) {c : Client} (h : Agreement c) (e : Event) :
    Agreement (step fuel c e) ↔ Agreeable fuel c e := by
  cases e with
  | start id =>
      refine iff_of_true ?_ trivial
      unfold step
      split
      · exact h
      · refine Agreement.bootpRequest ?_ id
        exact h.requests
  | timeout timeTaken id =>
      refine iff_of_true ?_ trivial
      unfold step
      split
      · exact h
      · dsimp only
        split
        · exact agreement_timeout h timeTaken id
        · exact h
  | receive p =>
      by_cases hTakes : Takes c p
      · exact agreement_receive h hTakes
      · rw [step_receive_ignored hTakes]
        exact iff_of_true h fun hIs => absurd hIs hTakes

structure Idle (c : Client) : Prop where
  requests : c.requests = []
  state : c.state ≠ .bound

/-- The agreement holds all along a run exactly when all its events are agreeable. -/
theorem dhcp_lease_agreement_iff (fuel : Nat) {c : Client} (hIdle : Idle c) (events : List Event) :
    (∀ k, Agreement ((events.take k).foldl (step fuel) c)) ↔
      Transition.Meets (step fuel) (Agreeable fuel) c events := by
  have hStart : Agreement c :=
    ⟨by rw [hIdle.requests]; simp, fun hBound => absurd hBound hIdle.state⟩
  exact @Transition.always_iff_meets _ _ (step fuel) (Agreeable fuel) (fun _ => True) Agreement
    (fun _ _ _ => trivial) (fun c e _ hAgree => agreement_step fuel hAgree e) c trivial hStart events

def packetOf (type host server : UInt8) : Packet :=
  { pkt := store zero 0 ([2, 1, 6, 0, 1, 0, 0, 0] ++ List.replicate 8 0 ++ [10, 0, 0, host] ++
      List.replicate 216 0 ++ bootpVendorMagic ++
      [53, 1, type, 54, 4, 10, 0, 0, server, 255])
    etSrc := [0, 0, 0, 0, 0, server]
    dest := portBootpc
    src := portBootps
    len := 250 }

def powerUp : Client :=
  { state := .init, ids := noIds, bootpTry := 0, bootpTimeout := 250, params := noParams, netIp := 0,
    netServerIp := 0, netServerEthaddr := [0, 0, 0, 0, 0, 0], timer := false, listening := false,
    hung := false, discovers := [], requests := [], ack := none }

theorem powerUp_idle : Idle powerUp := ⟨rfl, by decide⟩

theorem dhcp_lease_agreement_iff_one_server :
    Agreement ([.start 1, .receive (packetOf 2 5 1), .receive (packetOf 5 5 1)].foldl (step 9)
      powerUp) := by
  have hMeets : Transition.Meets (step 9) (Agreeable 9) powerUp
      [.start 1, .receive (packetOf 2 5 1), .receive (packetOf 5 5 1)] := by
    refine ⟨trivial, fun _ => ⟨fun _ => ?_, fun hState => ?_⟩,
      fun _ => ⟨fun hState => ?_, fun _ _ _ => ?_⟩, trivial⟩
    · decide +kernel
    · exact absurd hState (by decide +kernel)
    · exact absurd hState (by decide +kernel)
    · exact ⟨_, _, rfl, by decide +kernel, by decide +kernel, by decide +kernel, by decide +kernel⟩
  exact (dhcp_lease_agreement_iff 9 powerUp_idle _).mpr hMeets 3

def outOfTurn : Client := [.start 1, .receive (packetOf 5 9 2)].foldl (step 9) powerUp

def otherServer : Client :=
  [.start 1, .receive (packetOf 2 5 1), .receive (packetOf 5 9 2)].foldl (step 9) powerUp

theorem dhcp_lease_disagreement :
    (outOfTurn.requests.map fun x => messageType x.answered) = [some dhcpAck] ∧
      otherServer.state = .bound ∧ otherServer.netIp = 0x0900000a ∧
      (otherServer.requests.map fun x => (yiaddr x.answered.pkt, x.request.serverIp)) =
        [(0x0500000a, 0x0100000a)] ∧
      ¬Agreement otherServer := by
  have hBound : otherServer.state = .bound := by decide +kernel
  have hIp : otherServer.netIp = 0x0900000a := by decide +kernel
  have hRequests : (otherServer.requests.map fun x => (yiaddr x.answered.pkt, x.request.serverIp)) =
      [(0x0500000a, 0x0100000a)] := by decide +kernel
  refine ⟨by decide +kernel, hBound, hIp, hRequests, fun hAgree => ?_⟩
  obtain ⟨x, rest, -, hList, -, hAddress, -⟩ := hAgree.bound hBound
  grind

end Fire3.Bootp

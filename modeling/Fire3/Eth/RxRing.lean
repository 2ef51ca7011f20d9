import Fire3.Eth.Descriptor

/-!
The receive ring of `drivers/net/designware.c`.

The controller fills the descriptors it owns in the order of the chain; a poll takes
the packet of the current descriptor and gives the descriptor back when it is done
with the packet. Between the two halves of a poll the controller may go on.
-/

namespace Fire3.Eth
open ByteMemory RingBuffer

def rxctrlRxchain (alt : Bool) : BitVec 32 := if alt then 0x4000 else 0x1000000

def rxstsFrmlenmsk : BitVec 32 := 0x3fff0000

def rxstsFrmlenshft : Nat := 16

structure RxDev where
  rxMacDescrtable : Fin descrNum → Dmamacdescr
  rxCurrdescnum : Fin descrNum
  mem : Mem

def rxDescsInit (alt : Bool) (rxbuffs : Nat) (mem : Mem) : RxDev where
  rxMacDescrtable := fun idx =>
    { dmamacAddr := bufferAddr rxbuffs idx
      -- the pointer of the last descriptor is corrected after the loop
      dmamacNext := next idx
      dmamacCntl := (BitVec.ofNat 32 macMaxFrameSz &&& size1Mask alt) ||| rxctrlRxchain alt
      txrxStatus := ownByDma }
  rxCurrdescnum := 0
  mem := mem

def frameLength (status : BitVec 32) : Nat := ((status &&& rxstsFrmlenmsk) >>> rxstsFrmlenshft).toNat

def dwEthRecv (priv : RxDev) : Int × Option Nat :=
  let descP := priv.rxMacDescrtable priv.rxCurrdescnum
  let status := descP.txrxStatus
  if status &&& ownByDma = 0 then (frameLength status, some descP.dmamacAddr.toNat) else (-11, none)

def dwFreePkt (priv : RxDev) : RxDev :=
  let descNum := priv.rxCurrdescnum
  let descP := priv.rxMacDescrtable descNum
  { priv with
    rxMacDescrtable := Function.update priv.rxMacDescrtable descNum
      { descP with txrxStatus := descP.txrxStatus ||| ownByDma }
    rxCurrdescnum := next descNum }

structure Reception where
  frame : List UInt8
  status : BitVec 32
  released : status &&& ownByDma = 0
  length_eq : frameLength status = frame.length

inductive RxEvent where
  | fill (r : Reception)
  | recv
  | freePkt

/-- Driver and controller, with the frames the controller has stored and the packets
that polls have returned. -/
structure RxSystem where
  dev : RxDev
  currhostrxdesc : Fin descrNum
  received : List (List UInt8)
  returned : List (List UInt8 × Int)
  /-- The packet of a poll that has not freed it yet. -/
  held : Option (Nat × Int)

def RxSystem.start (alt : Bool) (rxbuffs : Nat) (mem : Mem) : RxSystem where
  dev := rxDescsInit alt rxbuffs mem
  currhostrxdesc := 0
  received := []
  returned := []
  held := none

def RxSystem.fill (alt : Bool) (s : RxSystem) (r : Reception) : RxSystem :=
  let descP := s.dev.rxMacDescrtable s.currhostrxdesc
  if descP.owned = true ∧ r.frame.length ≤ descP.size alt then
    { s with
      dev := { s.dev with
        rxMacDescrtable := Function.update s.dev.rxMacDescrtable s.currhostrxdesc
          { descP with txrxStatus := r.status }
        mem := store s.dev.mem descP.dmamacAddr.toNat r.frame }
      currhostrxdesc := descP.dmamacNext
      received := s.received ++ [r.frame] }
  else s

def RxSystem.recv (s : RxSystem) : RxSystem :=
  match s.held, dwEthRecv s.dev with
  | none, (length, some packet) =>
      { s with
        returned := s.returned ++ [(load s.dev.mem packet length.toNat, length)]
        held := some (packet, length) }
  | _, _ => s

def RxSystem.freePkt (s : RxSystem) : RxSystem :=
  match s.held with
  | some _ => { s with dev := dwFreePkt s.dev, held := none }
  | none => s

def RxSystem.step (alt : Bool) (s : RxSystem) : RxEvent → RxSystem
  | .fill r => s.fill alt r
  | .recv => s.recv
  | .freePkt => s.freePkt

structure Filled (mem : Mem) (received : List (List UInt8)) (k : Nat) (d : Dmamacdescr) : Prop where
  released : d.txrxStatus &&& ownByDma = 0
  fits : frameLength d.txrxStatus ≤ macMaxFrameSz
  frame : received[k]? = some (load mem d.dmamacAddr.toNat (frameLength d.txrxStatus))

structure Linked (alt : Bool) (rxbuffs : Nat) (table : Fin descrNum → Dmamacdescr) : Prop where
  addr : ∀ i, (table i).dmamacAddr = bufferAddr rxbuffs i
  chain : ∀ i, (table i).dmamacNext = next i
  size : ∀ i, (table i).size alt = macMaxFrameSz

theorem Linked.update {alt : Bool} {rxbuffs : Nat} {table : Fin descrNum → Dmamacdescr}
    (h : Linked alt rxbuffs table) (i : Fin descrNum) (status : BitVec 32) :
    Linked alt rxbuffs (Function.update table i { table i with txrxStatus := status }) := by
  constructor
  all_goals
    intro j
    by_cases hSame : j = i
    · subst hSame
      rw [Function.update_self]
      first | exact h.addr j | exact h.chain j | exact h.size j
    · rw [Function.update_of_ne hSame]
      first | exact h.addr j | exact h.chain j | exact h.size j

structure RxInv (alt : Bool) (rxbuffs tail : Nat) (s : RxSystem) : Prop where
  linked : Linked alt rxbuffs s.dev.rxMacDescrtable
  window : Window (Filled s.dev.mem s.received) (fun d => d.owned = true) s.dev.rxMacDescrtable tail
    s.received.length
  curr : s.dev.rxCurrdescnum = slot descrNum tail
  dma : s.currhostrxdesc = slot descrNum s.received.length
  returned : s.returned =
    (s.received.take (tail + if s.held.isSome then 1 else 0)).map fun f => (f, (f.length : Int))
  held : ∀ p, s.held = some p → tail < s.received.length ∧
    p = ((bufferAddr rxbuffs (slot descrNum tail)).toNat,
      (frameLength (s.dev.rxMacDescrtable (slot descrNum tail)).txrxStatus : Int))

variable {alt : Bool} {rxbuffs tail : Nat} {s : RxSystem}

theorem not_owned_iff {d : Dmamacdescr} : ¬d.owned = true ↔ d.txrxStatus &&& ownByDma = 0 := by
  simp [Dmamacdescr.owned]

theorem rxInv_start (alt : Bool) (rxbuffs : Nat) (mem : Mem) :
    RxInv alt rxbuffs 0 (RxSystem.start alt rxbuffs mem) := by
  have hSize : ∀ i, ((rxDescsInit alt rxbuffs mem).rxMacDescrtable i).size alt = macMaxFrameSz := by
    intro i
    simp only [rxDescsInit, Dmamacdescr.size]
    cases alt <;> decide
  refine ⟨⟨fun _ => rfl, fun _ => rfl, hSize⟩, ⟨le_rfl, Nat.zero_le _, ?_, ?_⟩, rfl, rfl, rfl, ?_⟩
  · intro k _ hk
    exact absurd hk (Nat.not_lt_zero k)
  · intro k _ _
    rw [Dmamacdescr.owned]
    exact (by decide : decide (ownByDma &&& ownByDma ≠ 0) = true)
  · intro p hp
    cases hp

theorem Filled.store_other {mem : Mem} {received : List (List UInt8)} {k : Nat}
    {table : Fin descrNum → Dmamacdescr} {i j : Fin descrNum} (h : Filled mem received k (table i))
    (hLinked : Linked alt rxbuffs table) (hNe : i ≠ j) {f : List UInt8}
    (hFits : f.length ≤ macMaxFrameSz) :
    Filled (store mem (table j).dmamacAddr.toNat f) (received ++ [f]) k (table i) := by
  have hLoad : load (store mem (table j).dmamacAddr.toNat f) (table i).dmamacAddr.toNat
      (frameLength (table i).txrxStatus) =
      load mem (table i).dmamacAddr.toNat (frameLength (table i).txrxStatus) := by
    have hLength := h.fits
    have hApart := bufferAddr_disjoint rxbuffs hNe
    apply load_store_disjoint
    rw [hLinked.addr, hLinked.addr]
    simp only [macMaxFrameSz, ethBufsize] at *
    omega
  have hIn : k < received.length := (List.getElem?_eq_some_iff.mp h.frame).1
  refine ⟨h.released, h.fits, ?_⟩
  rw [hLoad, List.getElem?_append_left hIn]
  exact h.frame

theorem RxInv.room_of_owned (h : RxInv alt rxbuffs tail s)
    (hOwned : (s.dev.rxMacDescrtable (slot descrNum s.received.length)).owned = true) :
    s.received.length < tail + descrNum := by
  by_contra hFull
  have hRange := h.window.room
  have hEq : s.received.length = tail + descrNum := by omega
  have hSlot : slot descrNum s.received.length = slot descrNum tail := by
    apply Fin.ext
    simp [slot, hEq]
  have hFilled := h.window.taken tail le_rfl (by rw [hEq]; exact Nat.lt_add_of_pos_right (by decide))
  rw [hSlot] at hOwned
  exact not_owned_iff.mpr hFilled.released hOwned

theorem RxInv.fill (h : RxInv alt rxbuffs tail s) (r : Reception) :
    RxInv alt rxbuffs tail (s.fill alt r) := by
  unfold RxSystem.fill
  dsimp only
  split
  case isFalse => exact h
  case isTrue hTakes =>
    obtain ⟨hOwned, hFits⟩ := hTakes
    have hLe := h.window.le
    rw [h.dma] at hOwned hFits ⊢
    rw [h.linked.size] at hFits
    have hRoom := h.room_of_owned hOwned
    have hOther : ∀ k, tail ≤ k → k < s.received.length →
        slot descrNum k ≠ slot descrNum s.received.length :=
      fun k hLow hHigh hSame => hHigh.ne (slot_inj hLow (by omega) hLe hRoom hSame)
    have hNew : Filled (store s.dev.mem (s.dev.rxMacDescrtable
        (slot descrNum s.received.length)).dmamacAddr.toNat r.frame) (s.received ++ [r.frame])
        s.received.length { s.dev.rxMacDescrtable (slot descrNum s.received.length) with
          txrxStatus := r.status } := by
      refine ⟨r.released, r.length_eq ▸ hFits, ?_⟩
      simp only [r.length_eq, load_store_same]
      simp
    have hWindow := h.window.push hRoom hNew fun k hLow hHigh =>
      (h.window.taken k hLow hHigh).store_other h.linked (hOther k hLow hHigh) hFits
    refine ⟨h.linked.update _ _, by simpa using hWindow, h.curr, ?_, ?_, fun p hp => ?_⟩
    · rw [h.linked.chain, next_slot, List.length_append]
      rfl
    · have hTaken : tail + (if s.held.isSome then 1 else 0) ≤ s.received.length := by
        cases hHeld : s.held with
        | none => simpa using hLe
        | some p => exact (h.held p hHeld).1
      rw [List.take_append_of_le_length hTaken]
      exact h.returned
    · obtain ⟨hSome, hPacket⟩ := h.held p hp
      grind

theorem RxInv.recv (h : RxInv alt rxbuffs tail s) : RxInv alt rxbuffs tail s.recv := by
  unfold RxSystem.recv
  split
  case h_2 => exact h
  case h_1 length packet hHeld hRecv =>
    have hLe := h.window.le
    have hAddr := h.linked.addr (slot descrNum tail)
    simp only [dwEthRecv, h.curr] at hRecv
    split at hRecv
    case isFalse => simp at hRecv
    case isTrue hReleased =>
      -- a descriptor given back by the controller is one it has filled
      have hSome : tail < s.received.length := by
        by_contra hNone
        have hOwned := h.window.spare tail (by omega) (Nat.lt_add_of_pos_right (by decide))
        exact not_owned_iff.mpr hReleased hOwned
      have hFilled := h.window.taken tail le_rfl hSome
      obtain ⟨rfl, rfl⟩ : length = _ ∧ packet = _ := by simpa [eq_comm] using hRecv
      refine ⟨h.linked, h.window, h.curr, h.dma, ?_, fun p hp => ?_⟩
      · rw [h.returned, hHeld, Int.toNat_natCast]
        simp [List.take_add_one, hFilled.frame]
      · cases hp
        exact ⟨hSome, by rw [hAddr]⟩

theorem RxInv.freePkt (h : RxInv alt rxbuffs tail s) : ∃ tail', RxInv alt rxbuffs tail' s.freePkt := by
  unfold RxSystem.freePkt
  split
  case h_2 => exact ⟨tail, h⟩
  case h_1 p hHeld =>
    obtain ⟨hSome, -⟩ := h.held p hHeld
    have hOwned : ({ s.dev.rxMacDescrtable (slot descrNum tail) with
        txrxStatus := (s.dev.rxMacDescrtable (slot descrNum tail)).txrxStatus ||| ownByDma } :
        Dmamacdescr).owned = true := by
      by_contra hClear
      rw [not_owned_iff] at hClear
      have hBit := congrArg (·.getLsbD 31) hClear
      simp [ownByDma] at hBit
    refine ⟨tail + 1, ?_⟩
    unfold dwFreePkt
    dsimp only
    rw [h.curr]
    refine ⟨h.linked.update _ _, h.window.pop hSome hOwned, next_slot tail, h.dma, ?_, fun p hp => ?_⟩
    · rw [h.returned, hHeld]
      rfl
    · cases hp

theorem rxInv_run (alt : Bool) (rxbuffs : Nat) (mem : Mem) (events : List RxEvent) :
    ∃ tail, RxInv alt rxbuffs tail
      (events.foldl (RxSystem.step alt) (RxSystem.start alt rxbuffs mem)) := by
  refine List.foldlRecOn (motive := fun s => ∃ tail, RxInv alt rxbuffs tail s) events _
    ⟨0, rxInv_start alt rxbuffs mem⟩ fun s hInv e _ => ?_
  obtain ⟨tail, hInv⟩ := hInv
  cases e with
  | fill r => exact ⟨tail, hInv.fill r⟩
  | recv => exact ⟨tail, hInv.recv⟩
  | freePkt => exact hInv.freePkt

theorem RxInv.recv_returns (h : RxInv alt rxbuffs tail s) (hFree : s.held = none)
    (hWaiting : s.returned.length < s.received.length) :
    s.recv.returned.length = s.returned.length + 1 := by
  have hTail : s.returned.length = tail := by
    rw [h.returned, hFree]
    simpa using h.window.le
  have hFilled := h.window.taken tail le_rfl (by omega)
  have hRecv : dwEthRecv s.dev =
      ((frameLength (s.dev.rxMacDescrtable (slot descrNum tail)).txrxStatus : Int),
        some (s.dev.rxMacDescrtable (slot descrNum tail)).dmamacAddr.toNat) := by
    simp only [dwEthRecv, h.curr, hFilled.released, if_true]
  rw [RxSystem.recv, hFree, hRecv]
  exact List.length_append

/-- In every interleaving the polls return the stored frames with their lengths, in order and
each once, and a poll does return a packet if a frame is waiting. While a poll holds a packet
its descriptor is not owned by the controller, and the buffer holds the bytes that were
returned last. -/
theorem rx_ring_delivers (alt : Bool) (rxbuffs : Nat) (mem : Mem) (events : List RxEvent) :
    let s := events.foldl (RxSystem.step alt) (RxSystem.start alt rxbuffs mem)
    s.returned <+: s.received.map (fun f => (f, (f.length : Int))) ∧
      (s.held = none → s.returned.length < s.received.length →
        s.recv.returned.length = s.returned.length + 1) ∧
      ∀ packet length, s.held = some (packet, length) →
        packet = (s.dev.rxMacDescrtable s.dev.rxCurrdescnum).dmamacAddr.toNat ∧
        (s.dev.rxMacDescrtable s.dev.rxCurrdescnum).owned = false ∧
        s.returned.getLast? = some (load s.dev.mem packet length.toNat, length) := by
  intro s
  obtain ⟨tail, h⟩ : ∃ tail, RxInv alt rxbuffs tail s := rxInv_run alt rxbuffs mem events
  refine ⟨?_, h.recv_returns, fun packet length hHeld => ?_⟩
  · rw [h.returned, List.map_take]
    exact List.take_prefix _ _
  · obtain ⟨hSome, hPacket⟩ := h.held _ hHeld
    obtain ⟨rfl, rfl⟩ := Prod.mk.inj hPacket
    have hFilled := h.window.taken tail le_rfl hSome
    have hFrame := hFilled.frame
    have hAddr := h.linked.addr (slot descrNum tail)
    rw [hAddr] at hFrame
    rw [h.curr, hAddr]
    refine ⟨rfl, by simpa using not_owned_iff.mpr hFilled.released, ?_⟩
    rw [h.returned, hHeld]
    simp [List.take_add_one, hFrame]

end Fire3.Eth

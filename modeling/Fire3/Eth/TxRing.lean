import Fire3.Eth.Descriptor
import Fire3.Base.Lists

/-!
The transmit ring of `drivers/net/designware.c`.

`_dw_eth_send` builds the control word of a descriptor by setting bits in what the
descriptor held before. Nothing clears the size of the packet that was sent through
the same slot one round earlier.
-/

namespace Fire3.Eth
open ByteMemory RingBuffer

def txstsTxint : BitVec 32 := 1 <<< 30
def txstsTxlast : BitVec 32 := 1 <<< 29
def txstsTxfirst : BitVec 32 := 1 <<< 28
def txstsTxcrcdis : BitVec 32 := 1 <<< 27
def txstsTxpaddis : BitVec 32 := 1 <<< 26
def txstsTxcheckinsctrl : BitVec 32 := 3 <<< 22
def txstsTxringend : BitVec 32 := 1 <<< 21
def txstsTxchain : BitVec 32 := 1 <<< 20
def txstsMsk : BitVec 32 := 0x1ffff

def txctrlTxlast : BitVec 32 := 1 <<< 30
def txctrlTxfirst : BitVec 32 := 1 <<< 29
def txctrlTxchain : BitVec 32 := 1 <<< 24

structure TxDev where
  txMacDescrtable : Fin descrNum → Dmamacdescr
  txCurrdescnum : Fin descrNum
  mem : Mem

def txDescsInit (alt : Bool) (txbuffs : Nat) (priv : TxDev) : TxDev :=
  { priv with
    txMacDescrtable := fun idx =>
      let status := (priv.txMacDescrtable idx).txrxStatus
      { dmamacAddr := bufferAddr txbuffs idx
        -- the pointer of the last descriptor is corrected after the loop
        dmamacNext := next idx
        dmamacCntl := if alt then 0 else txctrlTxchain
        txrxStatus :=
          if alt then
            let status := status &&& ~~~(txstsTxint ||| txstsTxlast ||| txstsTxfirst |||
              txstsTxcrcdis ||| txstsTxcheckinsctrl ||| txstsTxringend ||| txstsTxpaddis)
            (status ||| txstsTxchain) &&& ~~~(txstsMsk ||| ownByDma)
          else 0 }
    txCurrdescnum := 0 }

def Dmamacdescr.sending (alt : Bool) (d : Dmamacdescr) (length : Nat) : Dmamacdescr :=
  let size := BitVec.ofNat 32 length &&& size1Mask alt
  if alt then
    { d with
      dmamacCntl := d.dmamacCntl ||| size
      txrxStatus := ((d.txrxStatus ||| (txstsTxfirst ||| txstsTxlast)) &&& ~~~txstsMsk) ||| ownByDma }
  else
    { d with
      dmamacCntl := d.dmamacCntl ||| (size ||| txctrlTxlast ||| txctrlTxfirst)
      txrxStatus := ownByDma }

/-- The result (`-EPERM` if the controller owns the descriptor) and the device after the call. -/
def dwEthSend (alt : Bool) (priv : TxDev) (packet : List UInt8) : Int × TxDev :=
  let descNum := priv.txCurrdescnum
  let descP := priv.txMacDescrtable descNum
  if descP.txrxStatus &&& ownByDma ≠ 0 then (-1, priv)
  else
    (0, { txMacDescrtable := Function.update priv.txMacDescrtable descNum
            (descP.sending alt packet.length)
          txCurrdescnum := next descNum
          mem := store priv.mem descP.dmamacAddr.toNat packet })

def Dmamacdescr.first (alt : Bool) (d : Dmamacdescr) : Bool :=
  if alt then d.txrxStatus &&& txstsTxfirst ≠ 0 else d.dmamacCntl &&& txctrlTxfirst ≠ 0

def Dmamacdescr.last (alt : Bool) (d : Dmamacdescr) : Bool :=
  if alt then d.txrxStatus &&& txstsTxlast ≠ 0 else d.dmamacCntl &&& txctrlTxlast ≠ 0

/-- What the controller finds when it is given a descriptor for `packet`. -/
structure Handover where
  packet : List UInt8
  descr : Dmamacdescr
  mem : Mem

structure Handover.Describes (alt : Bool) (h : Handover) : Prop where
  buffer : load h.mem h.descr.dmamacAddr.toNat h.packet.length = h.packet
  size : h.descr.size alt = h.packet.length
  first : h.descr.first alt = true
  last : h.descr.last alt = true

inductive TxEvent where
  | send (packet : List UInt8)
  /-- The controller has sent the packet of a descriptor and clears the own bit. -/
  | sent (i : Fin descrNum)

structure TxSystem where
  dev : TxDev
  handed : List Handover

def TxSystem.step (alt : Bool) (s : TxSystem) : TxEvent → TxSystem
  | .send packet =>
      let (result, dev) := dwEthSend alt s.dev packet
      if result = 0 then
        ⟨dev, s.handed ++ [⟨packet, dev.txMacDescrtable s.dev.txCurrdescnum, dev.mem⟩]⟩
      else ⟨dev, s.handed⟩
  | .sent i =>
      let descP := s.dev.txMacDescrtable i
      { s with dev := { s.dev with
          txMacDescrtable := Function.update s.dev.txMacDescrtable i
            { descP with txrxStatus := descP.txrxStatus &&& ~~~ownByDma } } }

def TxSystem.start (alt : Bool) (txbuffs : Nat) (priv : TxDev) : TxSystem :=
  ⟨txDescsInit alt txbuffs priv, []⟩

def TxSystem.run (alt : Bool) (txbuffs : Nat) (priv : TxDev) (events : List TxEvent) : TxSystem :=
  events.foldl (TxSystem.step alt) (TxSystem.start alt txbuffs priv)

/-- Packets of the sizes an Ethernet frame has without its checksum. -/
def TxEvent.Legal : TxEvent → Prop
  | .send packet => 1 ≤ packet.length ∧ packet.length ≤ 1518
  | .sent _ => True

theorem or_and_eq (a b m : BitVec 32) : (a ||| b) &&& m = (a &&& m) ||| (b &&& m) := by
  ext i
  simp [Bool.and_or_distrib_right]

theorem toNat_masked (alt : Bool) {n : Nat} (h : n ≤ 1518) :
    (BitVec.ofNat 32 n &&& size1Mask alt).toNat = n := by
  have hSmall : n % 2 ^ 32 = n := Nat.mod_eq_of_lt (by omega)
  rw [BitVec.toNat_and, BitVec.toNat_ofNat, hSmall]
  cases alt
  · exact (Nat.and_two_pow_sub_one_eq_mod n 11).trans (Nat.mod_eq_of_lt (by omega))
  · exact (Nat.and_two_pow_sub_one_eq_mod n 13).trans (Nat.mod_eq_of_lt (by omega))

theorem size_sending (alt : Bool) (d : Dmamacdescr) {n : Nat} (h : n ≤ 1518) :
    (d.sending alt n).size alt = d.size alt ||| n := by
  have hMask : (BitVec.ofNat 32 n &&& size1Mask alt) &&& size1Mask alt =
      BitVec.ofNat 32 n &&& size1Mask alt := by
    rw [BitVec.and_assoc, BitVec.and_self]
  have hField := toNat_masked alt h
  cases alt
  · have hLast : txctrlTxlast &&& size1Mask false = 0 := by decide
    have hFirst : txctrlTxfirst &&& size1Mask false = 0 := by decide
    simp only [Dmamacdescr.sending, Dmamacdescr.size, Bool.false_eq_true, if_false, or_and_eq, hMask,
      hLast, hFirst, BitVec.toNat_or, hField]
    simp
  · simp only [Dmamacdescr.sending, Dmamacdescr.size, if_true, or_and_eq, hMask, BitVec.toNat_or,
      hField]

theorem and_ne_zero {w m : BitVec 32} (i : Nat) (hWord : w.getLsbD i = true)
    (hMask : m.getLsbD i = true) : w &&& m ≠ 0 := by
  intro hZero
  have hBit := congrArg (·.getLsbD i) hZero
  simp [hWord, hMask] at hBit

theorem first_sending (alt : Bool) (d : Dmamacdescr) (n : Nat) :
    (d.sending alt n).first alt = true := by
  cases alt
  · exact decide_eq_true
      (and_ne_zero 29 (by simp [Dmamacdescr.sending, txctrlTxfirst]) (by decide))
  · exact decide_eq_true
      (and_ne_zero 28 (by simp [Dmamacdescr.sending, txstsTxfirst, txstsMsk]) (by decide))

theorem last_sending (alt : Bool) (d : Dmamacdescr) (n : Nat) :
    (d.sending alt n).last alt = true := by
  cases alt
  · exact decide_eq_true
      (and_ne_zero 30 (by simp [Dmamacdescr.sending, txctrlTxlast]) (by decide))
  · exact decide_eq_true
      (and_ne_zero 29 (by simp [Dmamacdescr.sending, txstsTxlast, txstsMsk]) (by decide))

theorem sending_addr (alt : Bool) (d : Dmamacdescr) (n : Nat) :
    (d.sending alt n).dmamacAddr = d.dmamacAddr := by
  unfold Dmamacdescr.sending
  cases alt <;> rfl

/-- All bits of the lengths handed over in slot `i` before position `k` are bits of `n`. -/
def Covers (handed : List Handover) (k : Nat) (i : Fin descrNum) (n : Nat) : Prop :=
  ∀ j h, j < k → handed[j]? = some h → slot descrNum j = i → h.packet.length ||| n = n

theorem or_or_eq_iff {a b n : Nat} : (a ||| b) ||| n = n ↔ a ||| n = n ∧ b ||| n = n := by
  constructor
  · intro h
    constructor
    · conv_rhs => rw [← h]
      conv_lhs => rw [← h]
      simp [← Nat.or_assoc]
    · conv_rhs => rw [← h]
      conv_lhs => rw [← h]
      simp [Nat.or_comm a b, ← Nat.or_assoc]
  · rintro ⟨ha, hb⟩
    rw [Nat.or_assoc, hb, ha]

theorem covers_concat {handed : List Handover} {x : Handover} {k : Nat} (hk : k ≤ handed.length)
    (i : Fin descrNum) (n : Nat) : Covers (handed ++ [x]) k i n ↔ Covers handed k i n := by
  constructor
  · intro h j y hj hGet
    exact h j y hj (Lists.getElem?_concat_eq_some.mpr (.inl hGet))
  · intro h j y hj hGet
    rcases Lists.getElem?_concat_eq_some.mp hGet with hOld | ⟨hLast, -⟩
    · exact h j y hj hOld
    · omega

theorem covers_concat_length {handed : List Handover} {x : Handover} (i : Fin descrNum) (n : Nat) :
    Covers (handed ++ [x]) (handed.length + 1) i n ↔
      Covers handed handed.length i n ∧
        (slot descrNum handed.length = i → x.packet.length ||| n = n) := by
  constructor
  · intro h
    refine ⟨fun j y hj hGet => h j y (by omega) (Lists.getElem?_concat_eq_some.mpr (.inl hGet)),
      fun hSlot => ?_⟩
    exact h handed.length x (by omega) (Lists.getElem?_concat_eq_some.mpr (.inr ⟨rfl, rfl⟩)) hSlot
  · rintro ⟨hOld, hNew⟩ j y hj hGet hSlot
    rcases Lists.getElem?_concat_eq_some.mp hGet with hGet | ⟨rfl, rfl⟩
    · exact hOld j y (List.getElem?_eq_some_iff.mp hGet).1 hGet hSlot
    · exact hNew hSlot

structure TxInv (alt : Bool) (s : TxSystem) : Prop where
  curr : s.dev.txCurrdescnum = slot descrNum s.handed.length
  /-- The size left in a slot is made of the lengths sent through it. -/
  size : ∀ i n, (s.dev.txMacDescrtable i).size alt ||| n = n ↔
    Covers s.handed s.handed.length i n
  describes : ∀ k h, s.handed[k]? = some h →
    (h.Describes alt ↔ Covers s.handed k (slot descrNum k) h.packet.length)

variable {alt : Bool} {s : TxSystem}

theorem txInv_start (alt : Bool) (txbuffs : Nat) (priv : TxDev) :
    TxInv alt (TxSystem.start alt txbuffs priv) := by
  refine ⟨rfl, fun i n => ?_, fun k h hGet => ?_⟩
  · have hSize : ((TxSystem.start alt txbuffs priv).dev.txMacDescrtable i).size alt = 0 := by
      simp only [TxSystem.start, txDescsInit, Dmamacdescr.size]
      cases alt <;> decide
    rw [hSize, Nat.zero_or]
    refine ⟨fun _ j _ hj => absurd hj (Nat.not_lt_zero j), fun _ => rfl⟩
  · simp [TxSystem.start] at hGet

theorem describes_iff {d : Dmamacdescr} {packet : List UInt8} (mem : Mem)
    (hLegal : packet.length ≤ 1518) :
    (⟨packet, d.sending alt packet.length, store mem d.dmamacAddr.toNat packet⟩ :
      Handover).Describes alt ↔ d.size alt ||| packet.length = packet.length := by
  constructor
  · intro h
    rw [← size_sending alt d hLegal]
    exact h.size
  · intro h
    refine ⟨?_, (size_sending alt d hLegal).trans h, first_sending .., last_sending ..⟩
    simp only [sending_addr, load_store_same]

theorem TxInv.send (h : TxInv alt s) {packet : List UInt8} (hLegal : packet.length ≤ 1518) :
    TxInv alt (s.step alt (.send packet)) := by
  unfold TxSystem.step dwEthSend
  dsimp only
  by_cases hOwned : (s.dev.txMacDescrtable s.dev.txCurrdescnum).txrxStatus &&& ownByDma ≠ 0
  · rw [if_pos hOwned]
    exact h
  · rw [if_neg hOwned]
    simp only [if_true, Function.update_self, h.curr]
    refine ⟨?_, fun i n => ?_, fun k x hGet => ?_⟩
    · rw [next_slot, List.length_append]
      rfl
    · rw [List.length_append, List.length_singleton, covers_concat_length, ← h.size i n]
      by_cases hSlot : slot descrNum s.handed.length = i
      · grind [size_sending, or_or_eq_iff]
      · grind
    · rcases Lists.getElem?_concat_eq_some.mp hGet with hOld | ⟨rfl, rfl⟩
      · have hIn := (List.getElem?_eq_some_iff.mp hOld).1
        rw [covers_concat hIn.le]
        exact h.describes k x hOld
      · rw [covers_concat le_rfl, ← h.size, describes_iff _ hLegal]

theorem TxInv.sent (h : TxInv alt s) (i : Fin descrNum) : TxInv alt (s.step alt (.sent i)) := by
  refine ⟨h.curr, fun j n => ?_, h.describes⟩
  have hSize : ((s.step alt (.sent i)).dev.txMacDescrtable j).size alt =
      (s.dev.txMacDescrtable j).size alt := by
    by_cases hSame : j = i
    · subst hSame
      simp [TxSystem.step, Dmamacdescr.size]
    · simp [TxSystem.step, Function.update_of_ne hSame]
  rw [hSize]
  exact h.size j n

theorem txInv_run (alt : Bool) (txbuffs : Nat) (priv : TxDev) {events : List TxEvent}
    (hLegal : ∀ e ∈ events, e.Legal) : TxInv alt (TxSystem.run alt txbuffs priv events) := by
  refine List.foldlRecOn (motive := TxInv alt) events _ (txInv_start alt txbuffs priv)
    fun s hInv e he => ?_
  cases e with
  | send packet => exact hInv.send (hLegal _ he).2
  | sent i => exact hInv.sent i

/-- Every descriptor that is handed over describes its packet exactly when each packet length
has all the bits of every length sent through the same slot before. -/
theorem tx_descriptors_describe_iff (alt : Bool) (txbuffs : Nat) (priv : TxDev)
    (events : List TxEvent) (hLegal : ∀ e ∈ events, e.Legal) :
    let handed := (TxSystem.run alt txbuffs priv events).handed
    (∀ h ∈ handed, h.Describes alt) ↔
      ∀ j k h h', handed[j]? = some h → handed[k]? = some h' → j < k → j % descrNum = k % descrNum →
        h.packet.length ||| h'.packet.length = h'.packet.length := by
  intro handed
  have hInv := txInv_run alt txbuffs priv hLegal
  constructor
  · intro hAll j k h h' hj hk hLt hMod
    exact (hInv.describes k h' hk).mp (hAll h' (List.mem_of_getElem? hk)) j h hLt hj (Fin.ext hMod)
  · intro hBits h hMem
    obtain ⟨k, hk⟩ := List.getElem?_of_mem hMem
    exact (hInv.describes k h hk).mpr fun j h' hLt hj hSlot =>
      hBits j k h' h hj hk hLt (congrArg Fin.val hSlot)

instance decidableLegal : DecidablePred TxEvent.Legal
  | .send packet => inferInstanceAs (Decidable (1 ≤ packet.length ∧ packet.length ≤ 1518))
  | .sent _ => isTrue trivial

def blankTxDev : TxDev := ⟨fun _ => ⟨0, 0, 0, 0⟩, 0, zero⟩

def exchange (k n : Nat) : List TxEvent := [.send (List.replicate n 0xff), .sent (slot descrNum k)]

def steady : List TxEvent := (List.range 17).flatMap fun k => exchange k 60

def shrinking : List TxEvent := (List.range 17).flatMap fun k => exchange k (if k < 16 then 2 else 1)

theorem tx_descriptors_describe_steady :
    (∀ e ∈ steady, e.Legal) ∧
      ∀ h ∈ (TxSystem.run false 0x40000000 blankTxDev steady).handed, h.Describes false := by
  have hLegal : ∀ e ∈ steady, e.Legal := by decide +kernel
  have hLength : ∀ h ∈ (TxSystem.run false 0x40000000 blankTxDev steady).handed,
      h.packet.length = 60 := by
    decide +kernel
  refine ⟨hLegal, (tx_descriptors_describe_iff false 0x40000000 blankTxDev steady hLegal).mpr ?_⟩
  grind

/-- In both layouts the packet of one byte is announced with a size of three. -/
theorem tx_size_field_keeps_bits :
    (∀ e ∈ shrinking, e.Legal) ∧
      (((TxSystem.run false 0x40000000 blankTxDev shrinking).handed[16]?.map
        fun h => (h.packet.length, h.descr.size false)) = some (1, 3)) ∧
      (((TxSystem.run true 0x40000000 blankTxDev shrinking).handed[16]?.map
        fun h => (h.packet.length, h.descr.size true)) = some (1, 3)) := by
  decide +kernel

end Fire3.Eth

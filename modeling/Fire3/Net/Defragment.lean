import Fire3.Base.LinkedList
import Fire3.Net.Receive

/-!
`__net_defragment` of `net/net.c`, built with `CONFIG_IP_DEFRAG` and the default size.

The packet is put together in `pkt_buff`. What is still missing of it is a list of hole
records that lie in the holes themselves, linked by the numbers of their 8-byte blocks.
Addresses are offsets in `pkt_buff`; each write is noted with its address and size.
-/

namespace Fire3.Net
open ByteMemory LinkedList

def ipPktsize : Nat := 16384 + 100

def ipMaxudp : Nat := ipPktsize - ipHdrSize

structure Defrag where
  pktBuff : Mem
  firstHole : Nat
  totalLen : Nat
  writes : List (Nat × Nat)

def Defrag.put (d : Defrag) (a : Nat) (bs : List UInt8) : Defrag :=
  { d with pktBuff := store d.pktBuff a bs, writes := d.writes ++ [(a, bs.length)] }

def payloadAddr (i : Nat) : Nat := ipHdrSize + 8 * i

def Defrag.hole (d : Defrag) (i : Nat) : Node Nat where
  value := readLE d.pktBuff (payloadAddr i) 2
  next := readLE d.pktBuff (payloadAddr i + 2) 2
  prev := readLE d.pktBuff (payloadAddr i + 4) 2

def Defrag.setLastByte (d : Defrag) (i v : Nat) : Defrag := d.put (payloadAddr i) (leBytes 2 v)

def Defrag.setNextHole (d : Defrag) (i v : Nat) : Defrag := d.put (payloadAddr i + 2) (leBytes 2 v)

def Defrag.setPrevHole (d : Defrag) (i v : Nat) : Defrag := d.put (payloadAddr i + 4) (leBytes 2 v)

def Defrag.copyHole (d : Defrag) (newh h : Nat) : Defrag :=
  d.put (payloadAddr newh) (load d.pktBuff (payloadAddr h) 8)

def Defrag.reset (d : Defrag) (ip : Mem) : Defrag :=
  let d := { d with totalLen := 0xffff }
  let d := ((d.setLastByte 0 0xffff).setNextHole 0 0).setPrevHole 0 0
  { d with firstHole := 0 }.put 0 (load ip 0 ipHdrSize)

/-- The loop over the holes: `none` if it does not end, `some none` if there is no hole that
far away. A walk of more than 2^16 records is one in a circle. -/
def Defrag.findHole (d : Defrag) (start : Nat) : Nat → Nat → Option (Option Nat)
  | 0, _ => none
  | fuel + 1, h =>
      if (d.hole h).value < start then
        if (d.hole h).next = 0 then some none else d.findHole start fuel (d.hole h).next
      else some (some h)

def Defrag.removeHole (d : Defrag) (h : Nat) : Defrag × Bool :=
  let prev := (d.hole h).prev
  let next := (d.hole h).next
  if prev = 0 ∧ next = 0 then (d, true)
  else if prev = 0 then ({ d with firstHole := next }.setPrevHole next 0, false)
  else if next = 0 then (d.setNextHole prev 0, false)
  else ((d.setPrevHole next prev).setNextHole prev next, false)

def Defrag.moveHole (d : Defrag) (h newh : Nat) : Defrag :=
  let d := d.copyHole newh h
  let next := (d.hole newh).next
  let d := if next ≠ 0 then d.setPrevHole next newh else d
  let prev := (d.hole newh).prev
  if prev ≠ 0 then d.setNextHole prev newh else { d with firstHole := newh }

def Defrag.splitHole (d : Defrag) (h newh start : Nat) : Defrag :=
  let d := d.copyHole newh h
  let d := ((d.setLastByte h start).setNextHole h newh).setPrevHole newh h
  let next := (d.hole newh).next
  if next ≠ 0 then d.setPrevHole next newh else d

def Defrag.fixHoles (d : Defrag) (offset8 len h : Nat) : Defrag × Bool :=
  let start := offset8 * 8
  let newh := offset8 + len / 8
  if offset8 ≤ h ∧ (d.hole h).value ≤ start + len then d.removeHole h
  else if (d.hole h).value ≤ start + len then (d.setLastByte h start, false)
  else if offset8 ≤ h then (d.moveHole h newh, false)
  else (d.splitHole h newh start, false)

def Defrag.truncateHole (d : Defrag) (h total : Nat) : Defrag :=
  { d with totalLen := total % 2 ^ 16 }.setLastByte h total

/-- The algorithm on the holes, for a fragment of any packet at hand: the state behind it and
`*lenp` if the packet is complete; no result if the loop does not end. -/
def Defrag.assemble (d : Defrag) (offset8 : Nat) (mfrag : Bool) (indata : List UInt8) :
    Option (Defrag × Option Nat) :=
  let start := offset8 * 8
  let len := indata.length
  match d.findHole start (2 ^ 16 + 1) d.firstHole with
  | none => none
  | some none => some (d, none)
  | some (some h) =>
      if offset8 + (len + 7) / 8 ≤ h then some (d, none)
      else
        let d := if mfrag then d else d.truncateHole h (start + len)
        let (d, done) := d.fixHoles offset8 len h
        let d := d.put (payloadAddr offset8) indata
        if done then some (d.put 2 (beBytes16 d.totalLen), some (d.totalLen + ipHdrSize))
        else some (d, none)

def netDefragment (d : Defrag) (ip : Mem) : Option (Defrag × Option Nat) :=
  let ipOff := readBE16 ip 6
  let offset8 := ipOff &&& 0x1fff
  let start := offset8 * 8
  let ipLen := readBE16 ip 2
  -- the comparison is unsigned
  if start + ipLen < ipHdrSize ∨ start + ipLen > ipMaxudp + ipHdrSize then some (d, none)
  -- a negative length would make the copy run through the memory
  else if ipLen < ipHdrSize then none
  else
    let d := if d.totalLen = 0 ∨ readLE d.pktBuff 4 2 ≠ readLE ip 4 2 then d.reset ip else d
    d.assemble offset8 (ipOff &&& 0x2000 ≠ 0) (load ip ipHdrSize (ipLen - ipHdrSize))

section
variable (d : Defrag) {i k v : Nat}

theorem hole_put_of_disjoint {a : Nat} {bs : List UInt8}
    (h : payloadAddr k + 6 ≤ a ∨ a + bs.length ≤ payloadAddr k) : (d.put a bs).hole k = d.hole k := by
  grind [Defrag.hole, Defrag.put, readLE_store_disjoint]

theorem payloadAddr_apart (h : k ≠ i) :
    payloadAddr k + 8 ≤ payloadAddr i ∨ payloadAddr i + 8 ≤ payloadAddr k := by
  unfold payloadAddr
  omega

theorem readLE_put_same {a : Nat} (hv : v < 2 ^ 16) :
    readLE (d.put a (leBytes 2 v)).pktBuff a 2 = v := by
  exact (readLE_writeLE_same d.pktBuff a 2 v).trans (Nat.mod_eq_of_lt hv)

theorem hole_put_inside {o : Nat} {bs : List UInt8} (h : o + bs.length ≤ 8) :
    (d.put (payloadAddr i + o) bs).hole =
      Function.update d.hole i ((d.put (payloadAddr i + o) bs).hole i) := by
  funext k
  by_cases hk : k = i
  · rw [hk, Function.update_self]
  · have hApart := payloadAddr_apart hk
    grind [Function.update_of_ne, hole_put_of_disjoint]

theorem hole_setLastByte (hv : v < 2 ^ 16) :
    (d.setLastByte i v).hole = Function.update d.hole i { d.hole i with value := v } := by
  refine (@hole_put_inside d i 0 _ (by simp)).trans (congrArg (Function.update d.hole i) ?_)
  rw [Defrag.hole, Nat.add_zero, readLE_put_same d hv]
  simp [Defrag.put, Defrag.hole, readLE_store_disjoint]

theorem hole_setNextHole (hv : v < 2 ^ 16) :
    (d.setNextHole i v).hole = Function.update d.hole i { d.hole i with next := v } := by
  refine (hole_put_inside d (by simp)).trans (congrArg (Function.update d.hole i) ?_)
  rw [Defrag.hole, readLE_put_same d hv]
  simp [Defrag.put, Defrag.hole, readLE_store_disjoint]

theorem hole_setPrevHole (hv : v < 2 ^ 16) :
    (d.setPrevHole i v).hole = Function.update d.hole i { d.hole i with prev := v } := by
  refine (hole_put_inside d (by simp)).trans (congrArg (Function.update d.hole i) ?_)
  grind [Defrag.hole, readLE_put_same, Defrag.put, readLE_store_disjoint]

theorem hole_copyHole (newh h : Nat) :
    (d.copyHole newh h).hole = Function.update d.hole newh (d.hole h) := by
  refine (@hole_put_inside d newh 0 _ (by simp)).trans (congrArg (Function.update d.hole newh) ?_)
  have hField : ∀ o, o + 2 ≤ 8 → readLE (d.copyHole newh h).pktBuff (payloadAddr newh + o) 2 =
      readLE d.pktBuff (payloadAddr h + o) 2 := by
    intro o ho
    have hIn : o + 2 ≤ (load d.pktBuff (payloadAddr h) 8).length := by simpa using ho
    rw [readLE, Defrag.copyHole, Defrag.put, load_store_inside _ _ _ hIn,
      load_take_drop d.pktBuff (payloadAddr h) ho, readLE]
  show (d.copyHole newh h).hole newh = d.hole h
  simp only [Defrag.hole]
  rw [hField 2 (by decide), hField 4 (by decide)]
  exact congrArg (Node.mk · _ _) (hField 0 (by decide))

end

end Fire3.Net

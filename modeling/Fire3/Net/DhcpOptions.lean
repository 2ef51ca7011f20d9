import Fire3.Base.ByteMemory

/-!
The memory for BOOTP transaction ids of `net/bootp.c`.

When the array is full the oldest id is dropped by a `memmove` whose size is that of
the array less the size of the parameter. The parameter is a `ulong` of 8 bytes, an
element has 4, so the last id but one is lost with it.
-/

namespace Fire3.Bootp

variable {c : IdCache}

structure IdCache where
  ids : List UInt32
  num : Nat
  length_ids : ids.length = 4
  num_le : num ≤ 4

def sizeofUlong : Nat := 8
def sizeofId : Nat := 4

def memmoveIds (ids : List UInt32) (size : Nat) : List UInt32 :=
  (ids.drop 1).take (size / sizeofId) ++ ids.drop (size / sizeofId)

theorem length_memmoveIds {ids : List UInt32} {size : Nat} (h : size / sizeofId + 1 ≤ ids.length) :
    (memmoveIds ids size).length = ids.length := by
  simp only [memmoveIds, List.length_append, List.length_take, List.length_drop]
  omega

def IdCache.reset (c : IdCache) : IdCache :=
  { c with num := 0, num_le := Nat.zero_le 4 }

def bootpAddId (c : IdCache) (id : UInt64) : IdCache :=
  if h : 4 ≤ c.num then
    { c with
      ids := (memmoveIds c.ids (4 * sizeofId - sizeofUlong)).set (c.num - 1) id.toUInt32
      length_ids := by
        rw [List.length_set, length_memmoveIds (by rw [c.length_ids]; decide), c.length_ids] }
  else
    { ids := c.ids.set c.num id.toUInt32
      num := c.num + 1
      length_ids := by rw [List.length_set, c.length_ids]
      num_le := by omega }

def bootpMatchId (c : IdCache) (id : UInt64) : Bool :=
  (c.ids.take c.num).any fun x => x.toUInt64 == id

def addIds (c : IdCache) (ids : List UInt32) : IdCache :=
  ids.foldl (fun c id => bootpAddId c id.toUInt64) c

theorem bootpMatchId_iff {x : UInt64} :
    bootpMatchId c x = true ↔ ∃ y ∈ c.ids.take c.num, y.toUInt64 = x := by
  simp only [bootpMatchId, List.any_eq_true, beq_iff_eq]

theorem bootpAddId_room (h : c.num < 4) (id : UInt32) :
    (bootpAddId c id.toUInt64).num = c.num + 1 ∧
      (bootpAddId c id.toUInt64).ids.take (c.num + 1) = c.ids.take c.num ++ [id] := by
  have hLength : c.num < c.ids.length := by
    rw [c.length_ids]
    exact h
  rw [bootpAddId, dif_neg (by omega)]
  refine ⟨rfl, ?_⟩
  dsimp only
  rw [UInt32.toUInt32_toUInt64, List.set_eq_take_append_cons_drop, if_pos hLength,
    List.take_append, List.length_take_of_le (Nat.le_of_lt hLength), Nat.add_sub_cancel_left,
    List.take_of_length_le (by rw [List.length_take_of_le (Nat.le_of_lt hLength)]; exact Nat.le_succ _)]
  rfl

theorem addIds_room {ids : List UInt32} (h : c.num + ids.length ≤ 4) :
    (addIds c ids).num = c.num + ids.length ∧
      (addIds c ids).ids.take (c.num + ids.length) = c.ids.take c.num ++ ids := by
  induction ids generalizing c with
  | nil => simp [addIds]
  | cons id ids ih =>
      rw [List.length_cons] at h ⊢
      obtain ⟨hNum, hTake⟩ := bootpAddId_room (show c.num < 4 by omega) id
      obtain ⟨hNum', hTake'⟩ := @ih (bootpAddId c id.toUInt64) (by rw [hNum]; omega)
      rw [hNum] at hNum' hTake'
      rw [hTake, List.append_assoc, List.singleton_append] at hTake'
      have hSum : c.num + (ids.length + 1) = c.num + 1 + ids.length := by omega
      rw [hSum]
      exact ⟨hNum', hTake'⟩

theorem bootpAddId_full (hNum : c.num = 4) {p q r w : UInt32}
    (hIds : c.ids = [p, q, r, w]) (id : UInt32) :
    (bootpAddId c id.toUInt64).num = 4 ∧ (bootpAddId c id.toUInt64).ids = [q, r, r, id] := by
  rw [bootpAddId, dif_pos (Nat.le_of_eq hNum.symm)]
  refine ⟨hNum, ?_⟩
  dsimp only
  rw [hIds, hNum, UInt32.toUInt32_toUInt64]
  rfl

structure Stuck (old : List UInt32) (c : IdCache) : Prop where
  num : c.num = 4
  ids : ∃ p w, ∃ q ∈ old, ∃ r ∈ old, c.ids = [p, q, r, w]

theorem Stuck.addIds {old : List UInt32} (h : Stuck old c) (ids : List UInt32) :
    Stuck old (addIds c ids) := by
  induction ids generalizing c with
  | nil => exact h
  | cons id ids ih =>
      obtain ⟨p, w, q, hq, r, hr, hIds⟩ := h.ids
      obtain ⟨hNum, hIds'⟩ := bootpAddId_full h.num hIds id
      exact ih ⟨hNum, q, id, r, hr, r, hr, hIds'⟩

theorem addIds_full (hReset : c.num = 0) (a b d z : UInt32) {tail : List UInt32}
    (hTail : tail ≠ []) : ∀ y ∈ (addIds c (a :: b :: d :: (tail ++ [z]))).ids, y ∈ [b, d, z] := by
  obtain ⟨e, more, rfl⟩ := List.exists_cons_of_ne_nil hTail
  obtain ⟨hNum, hTake⟩ := @addIds_room c [a, b, d, e] (by simp [hReset])
  rw [hReset] at hNum hTake
  rw [List.take_of_length_le (by simp [IdCache.length_ids])] at hTake
  have hFour : Stuck [b, d] (addIds c [a, b, d, e]) :=
    ⟨hNum, a, e, b, by simp, d, by simp, hTake⟩
  obtain ⟨hNum', p, w, q, hq, r, hr, hIds⟩ := hFour.addIds more
  have hSplit : addIds c (a :: b :: d :: (e :: more ++ [z])) =
      bootpAddId (addIds (addIds c [a, b, d, e]) more) z.toUInt64 := by
    simp [addIds]
  intro y hy
  rw [hSplit, (bootpAddId_full hNum' hIds z).2] at hy
  simp only [List.mem_cons, List.not_mem_nil, or_false] at hy hq hr ⊢
  rcases hy with rfl | rfl | rfl | rfl
  · exact hq.imp_right .inl
  · exact hr.imp_right .inl
  · exact hr.imp_right .inl
  · exact .inr (.inr rfl)

/-- The memory holds the last four ids exactly as long as no more than four were added. -/
theorem bootp_ids_remembered_iff (c : IdCache) (hReset : c.num = 0) (ids : List UInt32)
    (hDistinct : ids.Nodup) :
    (∀ x : UInt64, bootpMatchId (addIds c ids) x = true ↔
      ∃ y ∈ ids.drop (ids.length - min ids.length 4), y.toUInt64 = x) ↔ ids.length ≤ 4 := by
  constructor
  · intro hRemembered
    by_contra hMany
    obtain ⟨a, b, d, tail, rfl, hTail⟩ :
        ∃ a b d tail, ids = a :: b :: d :: tail ∧ 2 ≤ tail.length := by
      match ids, hMany with
      | a :: b :: d :: tail, hMany =>
          grind
      | [], hMany | [_], hMany | [_, _], hMany => simp at hMany
    -- cut the list before its last id but one
    obtain ⟨front, y, z, rfl⟩ : ∃ front y z, tail = front ++ [y] ++ [z] := by
      have hSome : tail ≠ [] := List.ne_nil_of_length_pos (by omega)
      have hSome' : tail.dropLast ≠ [] :=
        List.ne_nil_of_length_pos (by rw [List.length_dropLast]; omega)
      exact ⟨_, _, _, by
        rw [List.dropLast_append_getLast hSome', List.dropLast_append_getLast hSome]⟩
    have hMatch := (hRemembered y.toUInt64).mpr ⟨y, ?_, rfl⟩
    · obtain ⟨x, hx, hEq⟩ := bootpMatchId_iff.mp hMatch
      have hKept := addIds_full hReset a b d z (show front ++ [y] ≠ [] by simp) x
        (List.mem_of_mem_take hx)
      rw [UInt32.toUInt64_inj.mp hEq] at hKept
      simp only [List.nodup_cons, List.nodup_append, List.mem_append, List.mem_cons,
        List.not_mem_nil, or_false] at hDistinct hKept
      grind
    · have hSplit : a :: b :: d :: (front ++ [y] ++ [z]) = (a :: b :: d :: front) ++ [y, z] := by
        simp
      rw [hSplit, List.drop_append_of_le_length (by simp)]
      simp
  · intro hFew
    obtain ⟨hNum, hTake⟩ := @addIds_room c ids (by omega)
    have hAll : ids.drop (ids.length - min ids.length 4) = ids := by
      grind
    intro x
    rw [bootpMatchId_iff, hNum, hTake, hAll, hReset, List.take_zero, List.nil_append]

def noIds : IdCache := { ids := [0, 0, 0, 0], num := 0, length_ids := rfl, num_le := by decide }

theorem bootp_ids_remembered_iff_four :
    noIds.num = 0 ∧ ([1, 2, 3, 4] : List UInt32).Nodup ∧
      ∀ x : UInt64, bootpMatchId (addIds noIds [1, 2, 3, 4]) x = true ↔
        ∃ y ∈ ([1, 2, 3, 4] : List UInt32).drop 0, y.toUInt64 = x :=
  ⟨rfl, by decide, (bootp_ids_remembered_iff noIds rfl [1, 2, 3, 4] (by decide)).mpr (by decide)⟩

/-- Behind five ids the fourth, the last but one, is forgotten. -/
theorem bootp_ids_forgotten :
    bootpMatchId (addIds noIds [1, 2, 3, 4, 5]) 4 = false ∧
      (4 : UInt32) ∈ ([1, 2, 3, 4, 5] : List UInt32).drop 1 := by
  decide

/-!
The options of a DHCP packet: `check_reply_packet`, `dhcp_process_options`,
`dhcp_packet_process_options` and `dhcp_message_type` of `net/bootp.c`.

The packet is the buffer behind the UDP header; it goes on behind the bytes that were
received. The loops keep a record of the addresses they read. A text option is
copied into a buffer of fixed size; a copy that does not fit makes the buffer longer.
-/

open ByteMemory

/-- Offsets in `struct bootp_hdr`. -/
def bpId : Nat := 4
def bpYiaddr : Nat := 16
def bpSiaddr : Nat := 20
def bpSname : Nat := 44
def bpFile : Nat := 108
def bpVend : Nat := 236
def optFieldSize : Nat := 312
def bootpHdrSize : Nat := 548

def portBootps : Nat := 67
def portBootpc : Nat := 68

def checkReplyPacket (ids : IdCache) (pkt : Mem) (dest src len : Nat) : Int :=
  if dest ≠ portBootpc ∨ src ≠ portBootps then -1
  else if len < bootpHdrSize - optFieldSize then -2
  else if pkt 0 ≠ 2 then -3
  else if pkt 1 ≠ 1 then -4
  else if pkt 2 ≠ 6 then -5
  else if bootpMatchId ids (UInt64.ofNat (readLE pkt bpId 4)) = false then -6
  else 0

structure Params where
  netmask : Nat
  gateway : Nat
  dnsServer : Nat
  hostname : List UInt8
  rootPath : List UInt8
  bootFileName : List UInt8
  leasetime : Nat
  optionOverload : UInt8
  serverIp : Nat
  deriving DecidableEq, Repr

def sizeofHostname : Nat := 32
def sizeofRootPath : Nat := 64
def sizeofBootFileName : Nat := 1024

structure Params.Fits (s : Params) : Prop where
  hostname : s.hostname.length = sizeofHostname
  rootPath : s.rootPath.length = sizeofRootPath
  bootFileName : s.bootFileName.length = sizeofBootFileName

def truncateSz (maxlen curlen : Nat) : Nat := if curlen ≥ maxlen then maxlen - 1 else curlen

def copyText (buf bs : List UInt8) : List UInt8 := bs ++ 0 :: buf.drop (bs.length + 1)

def oplen (pkt : Mem) (popt : Nat) : Nat := (pkt (popt + 1)).toNat

def valueSize (pkt : Mem) (popt : Nat) : Nat :=
  match pkt popt with
  | 1 | 3 | 6 | 51 | 54 => 4
  | 12 => truncateSz sizeofHostname (oplen pkt popt)
  | 17 => truncateSz sizeofRootPath (oplen pkt popt)
  | 52 => 1
  | 67 => truncateSz sizeofBootFileName (oplen pkt popt)
  | _ => 0

def applyOption (pkt : Mem) (popt : Nat) (s : Params) : Params :=
  let text := load pkt (popt + 2) (valueSize pkt popt)
  match pkt popt with
  | 1 => { s with netmask := readLE pkt (popt + 2) 4 }
  | 3 => { s with gateway := readLE pkt (popt + 2) 4 }
  | 6 => { s with dnsServer := readLE pkt (popt + 2) 4 }
  | 12 => { s with hostname := copyText s.hostname text }
  | 17 => { s with rootPath := copyText s.rootPath text }
  | 51 => { s with leasetime := readLE pkt (popt + 2) 4 }
  | 52 => { s with optionOverload := pkt (popt + 2) }
  | 54 => { s with serverIp := readLE pkt (popt + 2) 4 }
  | 67 => { s with bootFileName := copyText s.bootFileName text }
  | _ => s

def nextOption (pkt : Mem) (popt : Nat) : Nat :=
  if pkt popt = 0 then popt + 1 else popt + (oplen pkt popt + 2)

structure Parse where
  params : Params
  reads : List Nat
  deriving DecidableEq, Repr

def Parse.read (s : Parse) (as : List Nat) : Parse := { s with reads := s.reads ++ as }

def optionReads (pkt : Mem) (popt : Nat) : List Nat :=
  List.range' (popt + 1) (1 + valueSize pkt popt)

/-- The loop over the options below `stop`; `none` is a run out of fuel. -/
def dhcpProcessOptions (pkt : Mem) (stop : Nat) : Nat → Nat → Parse → Option Parse
  | 0, _, _ => none
  | fuel + 1, popt, s =>
      if popt < stop then
        if pkt popt = 0xff then some (s.read [popt])
        else
          dhcpProcessOptions pkt stop fuel (nextOption pkt popt)
            { params := applyOption pkt popt s.params
              reads := s.reads ++ popt :: optionReads pkt popt }
      else some s

def bootpVendorMagic : List UInt8 := [0x63, 0x82, 0x53, 0x63]

def magicReads : List Nat := List.range' bpVend 4

def processOverload (pkt : Mem) (flag : UInt8) (field size fuel : Nat) (s : Parse) : Option Parse :=
  if s.params.optionOverload &&& flag ≠ 0 then dhcpProcessOptions pkt (field + size) fuel field s
  else some s

def overloadFile : UInt8 := 1
def overloadSname : UInt8 := 2

def dhcpPacketProcessOptions (pkt : Mem) (fuel : Nat) (s : Parse) : Option Parse :=
  let s := s.read magicReads
  if load pkt bpVend 4 ≠ bootpVendorMagic then some s
  else do
    let popt := bpVend + 4
    let s ← dhcpProcessOptions pkt (popt + bootpHdrSize) fuel popt
      { s with params := { s.params with optionOverload := 0 } }
    let s ← processOverload pkt overloadFile bpFile 128 fuel s
    processOverload pkt overloadSname bpSname 64 fuel s

def optionFuel : Nat := bootpHdrSize + 1

/-- The loop of `dhcp_message_type`, which has no end. -/
def scanType (pkt : Mem) : Nat → Nat → List Nat → Option (Int × List Nat)
  | 0, _, _ => none
  | fuel + 1, popt, reads =>
      if pkt popt = 0xff then some (-1, reads ++ [popt])
      else if pkt popt = 53 then some ((pkt (popt + 2)).toNat, reads ++ [popt, popt + 2])
      else if pkt popt = 0 then scanType pkt fuel (popt + 1) (reads ++ [popt])
      else scanType pkt fuel (popt + (oplen pkt popt + 2)) (reads ++ [popt, popt + 1])

def dhcpMessageType (pkt : Mem) (fuel popt : Nat) : Option (Int × List Nat) :=
  let reads := List.range' popt 4
  if load pkt popt 4 ≠ bootpVendorMagic then some (-1, reads)
  else scanType pkt fuel (popt + 4) reads

theorem truncateSz_lt {maxlen : Nat} (h : 0 < maxlen) (curlen : Nat) :
    truncateSz maxlen curlen < maxlen := by
  unfold truncateSz
  split <;> omega

theorem length_copyText {buf bs : List UInt8} (h : bs.length < buf.length) :
    (copyText buf bs).length = buf.length := by
  simp only [copyText, List.length_append, List.length_cons, List.length_drop]
  omega

theorem Params.Fits.applyOption {s : Params} (h : s.Fits) (pkt : Mem) (popt : Nat) :
    (applyOption pkt popt s).Fits := by
  obtain ⟨hHost, hRoot, hBoot⟩ := h
  have hCopy : ∀ {buf : List UInt8} {size : Nat}, buf.length = size → 0 < size →
      valueSize pkt popt = truncateSz size (oplen pkt popt) →
      (copyText buf (load pkt (popt + 2) (valueSize pkt popt))).length = size := by
    grind [truncateSz_lt, length_copyText, length_load]
  unfold Bootp.applyOption
  dsimp only
  split
  all_goals first
    | exact ⟨hHost, hRoot, hBoot⟩
    | skip
  · rename_i hOption
    exact ⟨hCopy hHost (by decide) (by simp [valueSize, hOption]), hRoot, hBoot⟩
  · rename_i hOption
    exact ⟨hHost, hCopy hRoot (by decide) (by simp [valueSize, hOption]), hBoot⟩
  · rename_i hOption
    exact ⟨hHost, hRoot, hCopy hBoot (by decide) (by simp [valueSize, hOption])⟩

end Fire3.Bootp

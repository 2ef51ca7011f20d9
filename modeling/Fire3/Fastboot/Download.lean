import Fire3.Base.Tokens
import Fire3.Fastboot.Calls

/-!
The download of an image that fits the buffer.

A request asks for whole packets, but for at least one. How it is completed is up to the host;
whatever the lengths are, the pieces come to stand behind each other.
-/

namespace Fire3.Fastboot
open CString ByteMemory

variable {data : List UInt8} {board : Board}

def asked (maxpacket remain : Nat) : Nat :=
  -- the count is negative as an `int`
  if remain ≥ 2 ^ 31 then maxpacket
  else if remain > epBufferSize then epBufferSize
  else max maxpacket (remain - remain % maxpacket)

theorem asked_bounds {maxpacket : Nat} (h : maxpacket ≤ epBufferSize) (remain : Nat) :
    maxpacket ≤ asked maxpacket remain ∧ asked maxpacket remain ≤ epBufferSize := by
  unfold asked
  split_ifs <;> omega

theorem reqLength_request (g : Gadget) (board : Board) (hPacket : board.maxpacket ≤ epBufferSize)
    (hBytes : g.downloadBytes ≤ g.downloadSize) (hSize : g.downloadSize < 2 ^ 32) :
    (g.request board).reqLength = asked board.maxpacket (g.downloadSize - g.downloadBytes) := by
  obtain ⟨remain, hRemain⟩ := Nat.exists_eq_add_of_le hBytes
  have hInt : (g.downloadSize : Int) - g.downloadBytes = remain := by omega
  show max (g.rxBytesExpected board.maxpacket) board.maxpacket = _
  rw [Gadget.rxBytesExpected, hInt, hRemain, Nat.add_sub_cancel_left, asked]
  by_cases hHigh : remain ≥ 2 ^ 31
  · have hMod : (remain : Int).bmod (2 ^ 32) = remain - 2 ^ 32 := by
      rw [Int.bmod_def, if_neg (by omega)]
      omega
    rw [hMod, if_pos (by omega), if_pos hHigh]
    omega
  · have hMod : (remain : Int).bmod (2 ^ 32) = remain := Int.bmod_eq_of_le (by omega) (by omega)
    simp only [hMod, Int.toNat_natCast, hHigh, if_false]
    split_ifs with hNeg hMore hMore' hLess
    all_goals omega

/-- Requests completed one after the other, with the responses that were sent. -/
def Gadget.complete (board : Board) : Gadget → List (List UInt8 × Answer) → Gadget × List CStr
  | g, [] => (g, [])
  | g, (data, a) :: rest =>
      let r := g.rxHandlerDlImage board 0 data a
      let later := r.1.complete board rest
      (later.1, r.2.2.toList ++ later.2)

/-- Each request brings at least one byte and at most what was asked for. -/
def Gadget.Completes (board : Board) : Gadget → List (List UInt8 × Answer) → Prop
  | _, [] => True
  | g, (data, a) :: rest =>
      (1 ≤ data.length ∧ data.length ≤ g.reqLength) ∧
        (g.rxHandlerDlImage board 0 data a).1.Completes board rest

def sent (chunks : List (List UInt8 × Answer)) : List UInt8 := chunks.flatMap Prod.fst

structure Arriving (board : Board) (size : Nat) (old : Mem) (got : List UInt8) (g : Gadget) : Prop where
  size : g.downloadSize = size
  bytes : g.downloadBytes = got.length
  whole : g.isDivDl = false
  receiving : g.receiving = true
  buf : g.buf = store old 0 got
  request : board.maxpacket ≤ g.reqLength ∧ g.reqLength ≤ epBufferSize

section
variable {size : Nat} {old : Mem} {got : List UInt8} {g : Gadget}

theorem Arriving.receive (h : Arriving board size old got g)
    (hData : (got ++ data).length ≤ size) :
    g.receive data = { g with
      buf := store old 0 (got ++ data)
      downloadBytes := (got ++ data).length } := by
  rw [List.length_append] at hData
  have hAll : data.take (g.downloadSize - g.downloadBytes) = data := by
    rw [h.size, h.bytes, List.take_of_length_le (by omega)]
  rw [Gadget.receive, hAll, h.whole, h.buf, store_append, h.bytes, List.length_append, Nat.zero_add]
  rfl

theorem Arriving.next (a : Answer) (hPacket : board.maxpacket ≤ epBufferSize)
    (hSize : size < 2 ^ 32) (h : Arriving board size old got g) (hData : (got ++ data).length < size) :
    Arriving board size old (got ++ data) (g.rxHandlerDlImage board 0 data a).1 ∧
      (g.rxHandlerDlImage board 0 data a).2.2 = none := by
  have hReceive := h.receive hData.le
  have hLength := reqLength_request (g.receive data) board hPacket
    (by rw [hReceive]; exact h.size ▸ hData.le) (by rw [hReceive]; exact h.size ▸ hSize)
  have hBounds := asked_bounds hPacket ((g.receive data).downloadSize - (g.receive data).downloadBytes)
  rw [← hLength] at hBounds
  obtain ⟨length, hRequest⟩ := request_eq (g.receive data) board
  unfold Gadget.rxHandlerDlImage
  simp only [hRequest] at hBounds ⊢
  rw [if_neg (by simp [h.receiving])]
  simp only [hReceive]
  rw [if_neg (by have := h.size; omega), if_neg (by simp [h.whole])]
  exact ⟨⟨h.size, rfl, h.whole, h.receiving, rfl, hBounds⟩, rfl⟩

theorem Arriving.last (a : Answer) (h : Arriving board size old got g)
    (hData : (got ++ data).length = size) :
    (g.rxHandlerDlImage board 0 data a).1 =
        { g with
          buf := store old 0 (got ++ data)
          downloadBytes := size
          downloadSize := 0
          receiving := false
          reqLength := epBufferSize } ∧
      (g.rxHandlerDlImage board 0 data a).2.2 = some (ascii "OKAY") := by
  have hReceive := h.receive hData.le
  unfold Gadget.rxHandlerDlImage
  rw [if_neg (by simp [h.receiving])]
  simp only [hReceive, hData]
  rw [if_pos (by rw [h.size])]
  exact ⟨rfl, rfl⟩

end

structure Arrived (board : Board) (size : Nat) (old : Mem) (got : List UInt8) (r : Gadget × List CStr) :
    Prop where
  buf : r.1.buf = store old 0 got
  request : board.maxpacket ≤ r.1.reqLength ∧ r.1.reqLength ≤ epBufferSize
  responses : r.2 = if got.length = size then [ascii "OKAY"] else []

theorem arrived_complete {size : Nat} {old : Mem} {got : List UInt8} {g : Gadget}
    {chunks : List (List UInt8 × Answer)} (hPacket : board.maxpacket ≤ epBufferSize)
    (hSize : size < 2 ^ 32) (h : Arriving board size old got g) (hMore : got.length < size)
    (hCompletes : g.Completes board chunks) (hSent : (got ++ sent chunks).length ≤ size) :
    Arrived board size old (got ++ sent chunks) (g.complete board chunks) := by
  induction chunks generalizing got g with
  | nil =>
      rw [sent, List.flatMap_nil, List.append_nil]
      exact ⟨h.buf, h.request, (if_neg hMore.ne).symm⟩
  | cons chunk chunks ih =>
      obtain ⟨data, a⟩ := chunk
      obtain ⟨⟨hSome, -⟩, hRest⟩ := hCompletes
      have hCons : got ++ sent ((data, a) :: chunks) = (got ++ data) ++ sent chunks := by
        simp [sent]
      rw [hCons] at hSent ⊢
      rw [Gadget.complete]
      by_cases hLast : (got ++ data).length = size
      · -- nothing is left for further requests
        obtain ⟨hGadget, hOkay⟩ := h.last a hLast
        have hNone : chunks = [] := by
          cases chunks with
          | nil => rfl
          | cons chunk chunks =>
              have hByte := hRest.1.1
              simp only [sent, List.flatMap_cons, List.length_append] at hSent hLast
              omega
        rw [hNone, Gadget.complete, hGadget, hOkay, sent, List.flatMap_nil, List.append_nil]
        exact ⟨rfl, ⟨hPacket, le_refl _⟩, (if_pos hLast).symm⟩
      · have hFew : (got ++ data).length < size := by
          rw [List.length_append] at hSent
          omega
        obtain ⟨hNext, hQuiet⟩ := h.next a hPacket hSize hFew
        grind

theorem Gadget.Completes.take {g : Gadget} {chunks : List (List UInt8 × Answer)}
    (h : g.Completes board chunks) (n : Nat) : g.Completes board (chunks.take n) := by
  induction chunks generalizing g n with
  | nil => simpa using h
  | cons chunk chunks ih =>
      cases n with
      | zero => exact trivial
      | succ n => exact ⟨h.1, ih h.2 n⟩

theorem arriving_cbDownload (g : Gadget) (cmd : CStr)
    (hPacket : board.maxpacket ≤ epBufferSize) (hSome : 1 ≤ simpleStrtoul cmd 16 % 2 ^ 32)
    (hFits : simpleStrtoul cmd 16 % 2 ^ 32 ≤ board.bufSize) :
    Arriving board (simpleStrtoul cmd 16 % 2 ^ 32) g.buf [] (g.cbDownload board cmd).1 ∧
      (g.cbDownload board cmd).2 = ascii "DATA" ++ hex8 (simpleStrtoul cmd 16 % 2 ^ 32) := by
  have hLt : simpleStrtoul cmd 16 % 2 ^ 32 < 2 ^ 32 := Nat.mod_lt _ (Nat.two_pow_pos 32)
  unfold Gadget.cbDownload
  generalize simpleStrtoul cmd 16 % 2 ^ 32 = size at hSome hFits hLt ⊢
  simp only
  rw [if_neg (by omega), if_neg (by omega)]
  generalize hGadget : ({ g with
    downloadSize := size, downloadBytes := 0, divDownloadBytes := 0, isDivDl := false,
    receiving := true } : Gadget) = next
  have hLength := reqLength_request next board hPacket (by rw [← hGadget]; exact Nat.zero_le _)
    (by rw [← hGadget]; exact hLt)
  have hBounds := asked_bounds hPacket (next.downloadSize - next.downloadBytes)
  rw [← hLength] at hBounds
  obtain ⟨length, hRequest⟩ := request_eq next board
  rw [hRequest] at hBounds ⊢
  rw [← hGadget] at hBounds ⊢
  exact ⟨⟨rfl, rfl, rfl, rfl, (store_nil _ _).symm, hBounds⟩, rfl⟩

/-- The states of the download of an image: what `chunks` brings, and the requests in between. -/
theorem download_reassembles (board : Board) (g : Gadget) (cmd : CStr)
    (chunks : List (List UInt8 × Answer)) (hPacket : board.maxpacket ≤ epBufferSize)
    (hSize : simpleStrtoul cmd 16 % 2 ^ 32 = (sent chunks).length)
    (hSome : 1 ≤ (sent chunks).length) (hFits : (sent chunks).length ≤ board.bufSize)
    (hCompletes : (g.cbDownload board cmd).1.Completes board chunks) :
    load ((g.cbDownload board cmd).1.complete board chunks).1.buf 0 (sent chunks).length = sent chunks ∧
      ∀ n, let r := (g.cbDownload board cmd).1.complete board (chunks.take n)
        (∀ i ≥ (sent chunks).length, r.1.buf i = g.buf i) ∧
          (board.maxpacket ≤ r.1.reqLength ∧ r.1.reqLength ≤ epBufferSize) ∧
          r.2 = if (sent (chunks.take n)).length = (sent chunks).length then [ascii "OKAY"] else [] := by
  have hLt : (sent chunks).length < 2 ^ 32 := hSize ▸ Nat.mod_lt _ (Nat.two_pow_pos 32)
  have hStart := (arriving_cbDownload g cmd hPacket (hSize ▸ hSome) (hSize ▸ hFits)).1
  rw [hSize] at hStart
  have hPrefix (n : Nat) : (sent (chunks.take n)).length ≤ (sent chunks).length := by
    obtain ⟨rest, hRest⟩ := List.take_prefix n chunks
    conv_rhs => rw [← hRest]
    simp [sent]
  have hArrived (n : Nat) := arrived_complete hPacket hLt hStart hSome
    (hCompletes.take n) (by simpa using hPrefix n)
  constructor
  · have hAll := (hArrived chunks.length).buf
    rw [List.take_length, List.nil_append] at hAll
    rw [hAll, load_store_same]
  · intro n
    obtain ⟨hBuf, hRequest, hResponses⟩ := hArrived n
    refine ⟨fun i hi => ?_, hRequest, hResponses⟩
    rw [hBuf]
    grind [store_above]

def threeBytes : List (List UInt8 × Answer) := [([1], workingCard), ([2, 3], workingCard)]

theorem download_reassembles_three :
    ((Gadget.idle zero).cbDownload s5p6818 (ascii "00000003")).1.Completes s5p6818 threeBytes ∧
      load (((Gadget.idle zero).cbDownload s5p6818 (ascii "00000003")).1.complete s5p6818
        threeBytes).1.buf 0 3 = [1, 2, 3] := by
  have hCompletes :
      ((Gadget.idle zero).cbDownload s5p6818 (ascii "00000003")).1.Completes s5p6818 threeBytes :=
    ⟨⟨by decide, by decide⟩, ⟨by decide, by decide⟩, trivial⟩
  exact ⟨hCompletes, (download_reassembles s5p6818 (Gadget.idle zero) (ascii "00000003") threeBytes
    (by decide) (by decide) (by decide) (by decide) hCompletes).1⟩

end Fire3.Fastboot

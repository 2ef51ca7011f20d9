import Fire3.Usb.Loader
import Mathlib.Data.List.Flatten
import Mathlib.Data.List.Forall2

/-!
The receiving side of the USB boot: the bulk-out path of the `udown` command in
`common/cmd_usbdown.c`.

The controller hands over one receive-status word and the packet's FIFO words at
a time. `iusbboot` runs two download loops over that stream: the first takes the
512-byte header, the second takes as many bytes as the header announces and puts
them where the header was.
-/

namespace Fire3.UsbDown
open ByteMemory

inductive Speed
  | high
  | full
  deriving DecidableEq, Repr

def Speed.bulkoutMaxPktsize : Speed → Nat
  | .high => 512
  | .full => 64

structure Status where
  downloading : Bool
  rxBufAddr : Nat
  rxSize : Int
  bulkoutMaxPktsize : Nat
  mem : Mem

structure RxEntry where
  rxStatus : Nat
  fifo : List UInt8
  deriving DecidableEq, Repr

def nxUsbReadOutFifo (mem : Mem) (buf : Nat) (num : Nat) (fifo : List UInt8) : Mem :=
  store mem buf (fifo.take (4 * ((num + 3) / 4)))

def subS32 (size : Int) (n : Nat) : Int := Int.bmod (size - n) (2 ^ 32)

def nxUsbIntBulkout (s : Status) (fifoCntByte : Nat) (fifo : List UInt8) : Status :=
  let mem := nxUsbReadOutFifo s.mem s.rxBufAddr fifoCntByte fifo
  let rxSize := subS32 s.rxSize fifoCntByte
  { s with
    mem := mem
    rxBufAddr := s.rxBufAddr + fifoCntByte
    rxSize := rxSize
    downloading := if rxSize ≤ 0 then false else s.downloading }

/-- `nx_usb_pkt_receive`. Only a non-empty OUT packet on the bulk endpoint touches
the download; the packet status sits in bits 17-20, the byte count in bits 4-14. -/
def nxUsbPktReceive (s : Status) (e : RxEntry) : Status :=
  let fifoCntByte := e.rxStatus / 2 ^ 4 % 2 ^ 11
  if e.rxStatus / 2 ^ 17 % 2 ^ 4 = 2 ∧ e.rxStatus / 2 % 2 = 1 ∧ fifoCntByte ≠ 0 then
    nxUsbIntBulkout s fifoCntByte e.fifo
  else s

/-- `while (downloading)` over the received entries; the entries left over are the
ones the loop did not take. -/
def downloadLoop (s : Status) : List RxEntry → Status × List RxEntry
  | [] => (s, [])
  | e :: es => if s.downloading then downloadLoop (nxUsbPktReceive s e) es else (s, e :: es)

def nxUsbSetInit (s : Status) (speed : Speed) : Status :=
  { s with rxSize := 512, bulkoutMaxPktsize := speed.bulkoutMaxPktsize }

def firstDownload (s : Status) (es : List RxEntry) : Status × List RxEntry :=
  downloadLoop { s with downloading := true } es

/-- The header at `nsih` gives the length of the second download, word 17. -/
def secondDownload (nsih : Nat) (s : Status) (es : List RxEntry) : Status × List RxEntry :=
  downloadLoop
    { s with
      rxBufAddr := s.rxBufAddr - 512
      rxSize := toS32 (readLE s.mem (nsih + 4 * 17) 4)
      downloading := true } es

def iusbboot (s : Status) (es : List RxEntry) : Status × List RxEntry :=
  let (first, rest) := firstDownload s es
  if first.downloading then (first, rest) else secondDownload s.rxBufAddr first rest

def bulkOutStatus (dpid len : Nat) : Nat := 2 * 2 ^ 17 + dpid * 2 ^ 15 + len * 2 ^ 4 + 2

def Delivers (packet : List UInt8) (e : RxEntry) : Prop :=
  ∃ dpid filler, dpid < 4 ∧ e = ⟨bulkOutStatus dpid packet.length, packet ++ filler⟩ ∧
    (packet ++ filler).length = 4 * ((packet.length + 3) / 4)

theorem nxUsbPktReceive_packet {s : Status} {packet : List UInt8} {e : RxEntry}
    (h : Delivers packet e) (hPos : 0 < packet.length) (hLen : packet.length < 2048)
    (hWords : 4 ∣ packet.length) :
    nxUsbPktReceive s e =
      { s with
        mem := store s.mem s.rxBufAddr packet
        rxBufAddr := s.rxBufAddr + packet.length
        rxSize := subS32 s.rxSize packet.length
        downloading := if subS32 s.rxSize packet.length ≤ 0 then false else s.downloading } := by
  obtain ⟨dpid, filler, hDpid, rfl, hFill⟩ := h
  have hNoFill : filler = [] := by
    apply List.eq_nil_of_length_eq_zero
    simp only [List.length_append] at hFill
    omega
  subst hNoFill
  have hCount : bulkOutStatus dpid packet.length / 2 ^ 4 % 2 ^ 11 = packet.length := by
    unfold bulkOutStatus
    omega
  have hKind : bulkOutStatus dpid packet.length / 2 ^ 17 % 2 ^ 4 = 2 := by
    unfold bulkOutStatus
    omega
  have hEndpoint : bulkOutStatus dpid packet.length / 2 % 2 = 1 := by
    unfold bulkOutStatus
    omega
  have hTake : packet.take (4 * ((packet.length + 3) / 4)) = packet :=
    List.take_of_length_le (by omega)
  simp only [nxUsbPktReceive, hCount, hKind, hEndpoint]
  rw [if_pos ⟨trivial, trivial, by omega⟩]
  simp only [nxUsbIntBulkout, nxUsbReadOutFifo, List.append_nil, hTake]

theorem downloadLoop_stopped {s : Status} (h : s.downloading = false) (es : List RxEntry) :
    downloadLoop s es = (s, es) := by
  cases es <;> simp [downloadLoop, h]

theorem subS32_of_le {size n : Nat} (h : n ≤ size) (hSize : size < 2 ^ 31) :
    subS32 size n = (size - n : Nat) := by
  unfold subS32
  rw [Int.bmod_eq_of_le] <;> omega

/-- A download takes exactly the packets that make up its announced size: it stops
after the last of them, with their bytes in memory, and leaves the rest alone. -/
theorem downloadLoop_packets {packets : List (List UInt8)} {es : List RxEntry}
    (hDelivers : List.Forall₂ Delivers packets es) (rest : List RxEntry) (s : Status)
    (hPackets : ∀ p ∈ packets, 0 < p.length ∧ p.length < 2048 ∧ 4 ∣ p.length)
    (hSome : packets ≠ []) (hOn : s.downloading = true)
    (hSize : s.rxSize = packets.flatten.length) (hBound : packets.flatten.length < 2 ^ 31) :
    downloadLoop s (es ++ rest) =
      ({ s with
          mem := store s.mem s.rxBufAddr packets.flatten
          rxBufAddr := s.rxBufAddr + packets.flatten.length
          rxSize := 0
          downloading := false }, rest) := by
  induction hDelivers generalizing s with
  | nil => exact absurd rfl hSome
  | @cons p e packets es hp hs ih =>
      obtain ⟨hPos, hShort, hWords⟩ := hPackets p List.mem_cons_self
      simp only [List.flatten_cons, List.length_append] at hSize hBound
      have hSub : subS32 s.rxSize p.length = (packets.flatten.length : Nat) := by
        rw [hSize, subS32_of_le (by omega) hBound]
        simp
      simp only [List.cons_append, downloadLoop, hOn, if_true,
        nxUsbPktReceive_packet hp hPos hShort hWords, hSub]
      cases packets with
      | nil =>
          cases hs
          rw [downloadLoop_stopped (by simp)]
          simp
      | cons q packets =>
          have hMore : 0 < ((q :: packets).flatten).length := by
            have hq := (hPackets q (by simp)).1
            simp only [List.flatten_cons, List.length_append]
            omega
          rw [if_neg (by omega), ih _ (fun x hx => hPackets x (List.mem_cons_of_mem _ hx))
            (by simp) rfl rfl (by omega)]
          simp [store_append, Nat.add_assoc]

/-- Both loops of `iusbboot`: the first takes the 512 bytes of the header, the second as many
as the header announces, to the same address. -/
theorem iusbboot_packets {head tail : List (List UInt8)} {es fs : List RxEntry}
    (hHead : List.Forall₂ Delivers head es) (hTail : List.Forall₂ Delivers tail fs) (s : Status)
    (hPackets : ∀ p ∈ head ++ tail, 0 < p.length ∧ p.length < 2048 ∧ 4 ∣ p.length)
    (hSize : s.rxSize = 512) (hHeader : head.flatten.length = 512)
    (hMore : 0 < tail.flatten.length) (hBound : tail.flatten.length < 2 ^ 31)
    (hAnnounced : readLE (store s.mem s.rxBufAddr head.flatten) (s.rxBufAddr + 4 * 17) 4 =
      tail.flatten.length) :
    ∃ first final, firstDownload s (es ++ fs) = (first, fs) ∧ first.downloading = false ∧
      iusbboot s (es ++ fs) = (final, []) ∧ final.downloading = false ∧
      load final.mem s.rxBufAddr tail.flatten.length = tail.flatten := by
  have hFirst := downloadLoop_packets hHead fs { s with downloading := true }
    (fun p hp => hPackets p (List.mem_append_left _ hp))
    (by rintro rfl; simp at hHeader)
    rfl (by rw [hHeader]; exact hSize) (by omega)
  have hSecond := downloadLoop_packets hTail []
    { s with
      mem := store s.mem s.rxBufAddr head.flatten
      rxSize := (tail.flatten.length : Int)
      downloading := true }
    (fun p hp => hPackets p (List.mem_append_right _ hp))
    (by rintro rfl; simp at hMore)
    rfl rfl hBound
  rw [List.append_nil] at hSecond
  have hBoot : iusbboot s (es ++ fs) = secondDownload s.rxBufAddr
      { s with
        mem := store s.mem s.rxBufAddr head.flatten
        rxBufAddr := s.rxBufAddr + 512
        rxSize := 0
        downloading := false } fs := by
    simp only [iusbboot, firstDownload, hFirst, Bool.false_eq_true, if_false, hHeader]
  rw [secondDownload, hAnnounced, toS32_of_lt hBound, Nat.add_sub_cancel] at hBoot
  exact ⟨_, _, hFirst, rfl, hBoot.trans hSecond, rfl, load_store_same _ _ _⟩

end Fire3.UsbDown

/-!
Hand-off between the two programs: an image built by the host loader, sent as a
stream of bulk packets, is split by the receiver at its 512-byte header and
lands in memory whole.
-/

namespace Fire3.UsbBoot
open ByteMemory UsbLoader UsbDown

/-- The packets of one bulk transfer: all of the maximum size but the last. -/
structure BulkStream (mps : Nat) (image : List UInt8) (packets : List (List UInt8)) : Prop where
  bytes : packets.flatten = image
  nonempty : ∀ p ∈ packets, 0 < p.length
  short : ∀ p ∈ packets, p.length ≤ mps
  full : ∀ p ∈ packets.dropLast, p.length = mps

theorem flatten_length_of_full {mps : Nat} {packets : List (List UInt8)}
    (h : ∀ p ∈ packets, p.length = mps) : packets.flatten.length = packets.length * mps := by
  induction packets with
  | nil => simp
  | cons p packets ih =>
      grind

theorem BulkStream.length_take {mps : Nat} {image : List UInt8} {packets : List (List UInt8)}
    (h : BulkStream mps image packets) {k : Nat} (hk : k < packets.length) :
    (packets.take k).flatten.length = k * mps := by
  have hSub : ∀ p ∈ packets.take k, p.length = mps := by
    intro p hp
    apply h.full p
    rw [List.dropLast_eq_take]
    exact List.take_subset_take_left packets (by omega) hp
  rw [flatten_length_of_full hSub, List.length_take, Nat.min_eq_left hk.le]

theorem BulkStream.split {mps : Nat} {image : List UInt8} {packets : List (List UInt8)}
    (h : BulkStream mps image packets) {k : Nat} (hk : k < packets.length) :
    (packets.take k).flatten = image.take (k * mps) ∧
      (packets.drop k).flatten = image.drop (k * mps) := by
  have hImage : (packets.take k).flatten ++ (packets.drop k).flatten = image := by
    rw [← List.flatten_append, List.take_append_drop, h.bytes]
  have hLength := h.length_take hk
  grind

theorem BulkStream.length_le {mps : Nat} {image : List UInt8} {packets : List (List UInt8)}
    (h : BulkStream mps image packets) : image.length ≤ packets.length * mps := by
  rw [← h.bytes]
  have hShort := h.short
  clear h
  induction packets with
  | nil => simp
  | cons p packets ih =>
      have hp := hShort p List.mem_cons_self
      have hs := ih fun q hq => hShort q (List.mem_cons_of_mem _ hq)
      simp only [List.flatten_cons, List.length_append, List.length_cons, Nat.add_mul]
      omega

theorem BulkStream.words {mps : Nat} {image : List UInt8} {packets : List (List UInt8)}
    (h : BulkStream mps image packets) (hMps : 4 ∣ mps) (hImage : 4 ∣ image.length) :
    ∀ p ∈ packets, 4 ∣ p.length := by
  intro p hp
  have hSome : packets ≠ [] := List.ne_nil_of_mem hp
  have hSplit := List.dropLast_append_getLast hSome
  rw [← hSplit, List.mem_append, List.mem_singleton] at hp
  cases hp with
  | inl hInit => rw [h.full p hInit]; exact hMps
  | inr hLast =>
      have hLength : image.length = packets.dropLast.length * mps + p.length := by
        rw [← h.bytes, ← flatten_length_of_full h.full, hLast, ← List.length_append]
        conv_lhs => rw [← hSplit]
        simp
      grind

theorem BulkStream.header {speed : Speed} {image : List UInt8} {packets : List (List UInt8)}
    (h : BulkStream speed.bulkoutMaxPktsize image packets) (hLong : 512 < image.length) :
    (packets.take (512 / speed.bulkoutMaxPktsize)).flatten = image.take 512 ∧
      (packets.drop (512 / speed.bulkoutMaxPktsize)).flatten = image.drop 512 := by
  have hWhole : 512 / speed.bulkoutMaxPktsize * speed.bulkoutMaxPktsize = 512 := by
    cases speed <;> rfl
  have hLonger : 512 / speed.bulkoutMaxPktsize < packets.length := by
    by_contra hNot
    have hLength := h.length_le
    have hFew := Nat.mul_le_mul_right speed.bulkoutMaxPktsize (Nat.not_lt.mp hNot)
    rw [hWhole] at hFew
    omega
  have hSplit := h.split hLonger
  rwa [hWhole] at hSplit

theorem announced_of_header {buf m : Mem} {size a : Nat} (hSize : 512 ≤ size)
    (hField : readLE buf 0x44 4 = size - 512) :
    readLE (store m a ((load buf 0 size).take 512)) (a + 4 * 17) 4 = size - 512 := by
  have hImage : (load buf 0 size).take 512 = load buf 0 512 := by
    simpa using load_take_drop buf 0 (show 0 + 512 ≤ size by omega)
  grind [readLE, load_store_inside, length_load, load_take_drop]

/-- The image of the loader reaches the receiver's memory: the first download takes
the packets of the first 512 bytes, the second all the others, and memory from the
download address on holds the image behind its header. -/
theorem usb_boot_image_arrives {args : List Arg} {file : List UInt8} {buf : Mem} {size : Nat}
    (built : buildImage args file = some (buf, size)) (fits : size ≤ bufSize)
    (speed : Speed) {packets : List (List UInt8)}
    (stream : BulkStream speed.bulkoutMaxPktsize (load buf 0 size) packets)
    {es : List RxEntry} (delivered : List.Forall₂ Delivers packets es) (s : Status) :
    let start := nxUsbSetInit s speed
    let headerPackets := 512 / speed.bulkoutMaxPktsize
    ∃ first final,
      firstDownload start es = (first, es.drop headerPackets) ∧ first.downloading = false ∧
      (packets.take headerPackets).flatten = (load buf 0 size).take 512 ∧
      iusbboot start es = (final, []) ∧ final.downloading = false ∧
      load final.mem s.rxBufAddr (size - 512) = (load buf 0 size).drop 512 := by
  intro start headerPackets
  obtain ⟨hPadded, hMin, hField⟩ := buildImage_size built
  have hBuf : bufSize = 16777216 := rfl
  rw [Nat.mod_eq_of_lt (by omega)] at hField
  have hMps : 4 ∣ speed.bulkoutMaxPktsize ∧ speed.bulkoutMaxPktsize ≤ 512 := by
    cases speed <;> decide
  obtain ⟨hHead, hTail⟩ := stream.header (by rw [length_load]; omega)
  have hHeadLength : (packets.take headerPackets).flatten.length = 512 := by
    rw [hHead, List.length_take, length_load]
    omega
  have hTailLength : (packets.drop headerPackets).flatten.length = size - 512 := by
    rw [hTail, List.length_drop, length_load]
  have hWords := stream.words hMps.1 (by rw [length_load]; omega)
  have hPackets : ∀ p ∈ packets, 0 < p.length ∧ p.length < 2048 ∧ 4 ∣ p.length := by
    intro p hp
    have hShort := stream.short p hp
    exact ⟨stream.nonempty p hp, by omega, hWords p hp⟩
  obtain ⟨first, final, hFirst, hStopped, hBoot, hDone, hLoad⟩ :=
    iusbboot_packets (List.forall₂_take headerPackets delivered)
      (List.forall₂_drop headerPackets delivered) start (by rwa [List.take_append_drop]) rfl
      hHeadLength (by omega) (by omega)
      (by rw [hTailLength, hHead]; exact announced_of_header (by omega) hField)
  rw [List.take_append_drop] at hFirst hBoot
  rw [hTailLength, hTail] at hLoad
  exact ⟨first, final, hFirst, hStopped, hHead, hBoot, hDone, hLoad⟩

theorem usb_boot_image_arrives_one_byte :
    ∃ buf final, buildImage [.h32] [0xfe] = some (buf, 528) ∧
      iusbboot (nxUsbSetInit ⟨false, 0x1000, 0, 0, zero⟩ .high)
        [⟨bulkOutStatus 0 512, load buf 0 512⟩, ⟨bulkOutStatus 2 16, load buf 512 16⟩] =
        (final, []) ∧
      load final.mem 0x1000 16 = 0xfe :: List.replicate 15 0 := by
  obtain ⟨buf, built⟩ : ∃ buf, buildImage [.h32] [0xfe] = some (buf, 528) := ⟨_, rfl⟩
  have stream : BulkStream Speed.high.bulkoutMaxPktsize (load buf 0 528)
      [load buf 0 512, load buf 512 16] :=
    { bytes := by simpa using (load_add buf 0 512 16).symm
      nonempty := by simp
      short := by simp [Speed.bulkoutMaxPktsize]
      full := by simp [Speed.bulkoutMaxPktsize] }
  have delivered : List.Forall₂ Delivers [load buf 0 512, load buf 512 16]
      [⟨bulkOutStatus 0 512, load buf 0 512⟩, ⟨bulkOutStatus 2 16, load buf 512 16⟩] :=
    .cons ⟨0, [], by simp⟩ (.cons ⟨2, [], by simp⟩ .nil)
  obtain ⟨_, final, -, -, -, hBoot, -, hLoad⟩ :=
    usb_boot_image_arrives built (by decide) .high stream delivered ⟨false, 0x1000, 0, 0, zero⟩
  refine ⟨buf, final, built, hBoot, ?_⟩
  have hBytes : load buf 512 16 = 0xfe :: List.replicate 15 0 := by
    have hBuf := congrArg (Option.map fun r : Mem × Nat => load r.1 512 16) built
    rw [Option.map_some] at hBuf
    exact (Option.some.inj (hBuf.symm.trans (by decide +kernel)))
  rw [load_add buf 0 512 16] at hLoad
  simpa [hBytes] using hLoad

end Fire3.UsbBoot

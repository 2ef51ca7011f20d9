import Fire3.Dfu.Taken

/-!
The THOR download to a DFU entity: `download_head`, `download_tail` and `thor_rx_data` of
`drivers/usb/gadget/f_thor.c`.

The packets are received right into the buffer of the DFU entity, one behind the other. Behind
each store unit `dfu_write` is called with the beginning of that buffer, and the next packet goes
to the beginning again. The buffer is the one in which `dfu_write` collects what it was given.
-/

namespace Fire3.Dfu
open ByteMemory

def packetSize : Nat := 2 ^ 20

def storeUnitSize : Nat := 2 ^ 25

structure Thor where
  dfu : DfuEntity
  host : List (List UInt8)
  placed : List (Nat × Nat)
  cnt : Nat

def Thor.place (s : Thor) (addr : Nat) (data : List UInt8) (host : List (List UInt8)) : Thor :=
  { s with
    dfu := { s.dfu with buf := store s.dfu.buf addr data }
    host := host
    placed := (addr, data.length) :: s.placed }

/-- The loop of `thor_rx_data`: every transfer is received at the same address, until all of the
data came. `none` is a loop that waits for ever: no transfer comes any more, or one comes that is
too long and does not complete the request. -/
def rxLoop (addr : Nat) : List (List UInt8) → Nat → Thor → Option Thor
  | [], _, _ => none
  | data :: host, dataToRx, s =>
      if data.length > dataToRx then none
      else if dataToRx - data.length = 0 then some (s.place addr data host)
      else rxLoop addr host (dataToRx - data.length) (s.place addr data host)

def thorRxData (addr len : Nat) (s : Thor) : Option Thor := rxLoop addr s.host len s

def storeUnit (t : Target) (s : Thor) : Int × Thor :=
  let (ret, dfu) := dfuWrite t s.dfu (load s.dfu.buf 0 storeUnitSize) s.cnt
  (ret, { s with dfu := dfu, cnt := s.cnt + 1 })

/-- The loop of `download_head`: the count of the received bytes, and how far `buf` is from
`transfer_buffer`, or the error that it returns. -/
def headLoop (t : Target) (total : Nat) :
    Nat → Nat → Nat → Thor → Option (Except (Int × Thor) (Nat × Nat × Thor))
  | 0, _, _, _ => none
  | fuel + 1, rcvCnt, off, s =>
      if total - rcvCnt < packetSize then some (.ok (rcvCnt, off, s))
      else
        (thorRxData off packetSize s).bind fun s =>
          if (rcvCnt + packetSize) % storeUnitSize = 0 then
            let (ret, s) := storeUnit t s
            if ret ≠ 0 then some (.error (ret, s))
            else headLoop t total fuel (rcvCnt + packetSize) 0 s
          else headLoop t total fuel (rcvCnt + packetSize) (off + packetSize) s

def downloadHead (t : Target) (total : Nat) (s : Thor) : Option (Int × Nat × Thor) :=
  (t.dfuGetBuf s.dfu.dfuBuf).bind fun size =>
    (headLoop t total (total / packetSize + 1) 0 0
        { s with dfu := { s.dfu with dfuBuf := some size } }).bind fun r =>
      match r with
      | .error (ret, s) => some (ret, 0, s)
      | .ok (rcvCnt, off, s) =>
          let leftToRcv := total - rcvCnt
          let left := leftToRcv + off
          if leftToRcv ≠ 0 then
            (thorRxData off packetSize s).map fun s => ((rcvCnt + packetSize : Nat), left, s)
          else some (rcvCnt, left, s)

def downloadTail (t : Target) (left cnt : Nat) (s : DfuEntity) : Int × DfuEntity :=
  match t.dfuGetBuf s.dfuBuf with
  | none => (-6, s)
  | some size =>
      let s := { s with dfuBuf := some size }
      let (ret, s) := if left ≠ 0 then dfuWrite t s (load s.buf 0 left) cnt else (0, s)
      if ret ≠ 0 then (ret, s) else dfuFlush t s

/-- The start and the end of a file in `process_rqt_download`: whether both report success. -/
def thorDownload (t : Target) (total : Nat) (s : Thor) : Option (Bool × Thor) :=
  (downloadHead t total s).map fun (r : Int × Nat × Thor) =>
    if r.1 < 0 then (false, r.2.2)
    else
      let (ret, dfu) := downloadTail t r.2.1 r.2.2.cnt r.2.2.dfu
      (ret = 0, { r.2.2 with dfu := dfu })

def packets : Nat → List UInt8 → List (List UInt8)
  | 0, _ => []
  | fuel + 1, file =>
      if file = [] then [] else file.take packetSize :: packets fuel (file.drop packetSize)

/-!
The turns of `download_head`.

Each turn receives a packet behind the ones of the same store unit. What a turn keeps holds when
the loop ends, and if no write fails the loop does end.
-/

open Align

section
variable {t : Target} {total : Nat}

theorem thorRxData_full {s : Thor} {addr : Nat} {data : List UInt8} {host : List (List UInt8)}
    (hHost : s.host = data :: host) (hLength : data.length = packetSize) :
    thorRxData addr packetSize s = some (s.place addr data host) := by
  rw [thorRxData, hHost, rxLoop, if_neg (by omega), if_pos (by omega)]

theorem thorRxData_short {s : Thor} {addr : Nat} {data : List UInt8} (hHost : s.host = [data])
    (hLength : data.length < packetSize) : thorRxData addr packetSize s = none := by
  rw [thorRxData, hHost, rxLoop, if_neg (by omega), if_neg (by omega), rxLoop]

variable {Inv : Nat → Nat → Thor → Prop}

theorem headLoop_keeps (hTurn : ∀ rcvCnt off s, Inv rcvCnt off s → packetSize ≤ total - rcvCnt →
      ∃ data host, s.host = data :: host ∧ data.length = packetSize ∧
        ((rcvCnt + packetSize) % storeUnitSize ≠ 0 →
          Inv (rcvCnt + packetSize) (off + packetSize) (s.place off data host)) ∧
        ((rcvCnt + packetSize) % storeUnitSize = 0 →
          (storeUnit t (s.place off data host)).1 = 0 →
          Inv (rcvCnt + packetSize) 0 (storeUnit t (s.place off data host)).2))
    {fuel rcvCnt off rcvCnt' off' : Nat} {s s' : Thor} (hInv : Inv rcvCnt off s)
    (hRun : headLoop t total fuel rcvCnt off s = some (.ok (rcvCnt', off', s'))) :
    Inv rcvCnt' off' s' ∧ total - rcvCnt' < packetSize := by
  induction fuel generalizing rcvCnt off s with
  | zero => cases hRun
  | succ fuel ih =>
      rw [headLoop] at hRun
      by_cases hEnd : total - rcvCnt < packetSize
      · grind
      · obtain ⟨data, host, hHost, hLength, hNext, hUnit⟩ := hTurn rcvCnt off s hInv (by omega)
        rw [if_neg hEnd, thorRxData_full hHost hLength, Option.bind_some] at hRun
        by_cases hFull : (rcvCnt + packetSize) % storeUnitSize = 0
        · rw [if_pos hFull] at hRun
          dsimp only at hRun
          by_cases hOk : (storeUnit t (s.place off data host)).1 = 0
          · rw [if_neg (not_not_intro hOk)] at hRun
            exact ih (hUnit hFull hOk) hRun
          · rw [if_pos hOk] at hRun
            cases hRun
        · rw [if_neg hFull] at hRun
          exact ih (hNext hFull) hRun

theorem headLoop_ends (hTurn : ∀ rcvCnt off s, Inv rcvCnt off s → packetSize ≤ total - rcvCnt →
      ∃ data host, s.host = data :: host ∧ data.length = packetSize ∧
        ((rcvCnt + packetSize) % storeUnitSize ≠ 0 →
          Inv (rcvCnt + packetSize) (off + packetSize) (s.place off data host)) ∧
        ((rcvCnt + packetSize) % storeUnitSize = 0 →
          (storeUnit t (s.place off data host)).1 = 0 ∧
          Inv (rcvCnt + packetSize) 0 (storeUnit t (s.place off data host)).2))
    {fuel rcvCnt off : Nat} {s : Thor} (hInv : Inv rcvCnt off s) (hLe : rcvCnt ≤ total)
    (hFuel : total < rcvCnt + packetSize * fuel) :
    ∃ rcvCnt' off' s', headLoop t total fuel rcvCnt off s = some (.ok (rcvCnt', off', s')) := by
  induction fuel generalizing rcvCnt off s with
  | zero => omega
  | succ fuel ih =>
      rw [headLoop]
      by_cases hEnd : total - rcvCnt < packetSize
      · exact ⟨rcvCnt, off, s, if_pos hEnd⟩
      · obtain ⟨data, host, hHost, hLength, hNext, hUnit⟩ := hTurn rcvCnt off s hInv (by omega)
        have hMore : total < rcvCnt + packetSize + packetSize * fuel := by
          rw [Nat.add_assoc, Nat.add_comm packetSize, ← Nat.mul_succ]
          exact hFuel
        rw [if_neg hEnd, thorRxData_full hHost hLength, Option.bind_some]
        by_cases hFull : (rcvCnt + packetSize) % storeUnitSize = 0
        · obtain ⟨hOk, hKept⟩ := hUnit hFull
          rw [if_pos hFull]
          dsimp only
          rw [if_neg (not_not_intro hOk)]
          exact ih hKept (by omega) hMore
        · rw [if_neg hFull]
          exact ih (hNext hFull) (by omega) hMore

end

structure Expects (t : Target) (size cnt n f : Nat) (s : DfuEntity) : Prop where
  init : dfuInit t s = some ⟨⟨n, f, s.buf, s.mmc⟩, size, cnt, true, some size⟩
  held : s.iBuf = f
  dfuBuf : s.dfuBuf = some size

section
variable {t : Target} {size cnt n f : Nat} {s : DfuEntity} {chunk : List UInt8}

theorem expects_fresh (hInit : s.inited = false) (hHeld : s.iBuf = 0)
    (hBuf : s.dfuBuf = some size) : Expects t size 0 0 0 s := by
  refine ⟨?_, hHeld, hBuf⟩
  rw [dfuInit, hInit, hBuf]
  rfl

theorem expects_done (x : Transfer) :
    Expects t size cnt x.offset x.iBuf ⟨x, size, cnt, true, some size⟩ := ⟨rfl, rfl, rfl⟩

theorem Expects.store (h : Expects t size cnt n f s) (buf : Mem) :
    Expects t size cnt n f { s with buf := buf } := by
  refine ⟨?_, h.held, h.dfuBuf⟩
  have hInit := h.init
  rw [dfuInit] at hInit ⊢
  split
  · rename_i hDone
    rw [if_pos hDone] at hInit
    rw [Option.some.inj hInit]
  · rename_i hFresh
    rw [if_neg hFresh] at hInit
    obtain ⟨size', hSize, hEq⟩ := Option.map_eq_some_iff.mp hInit
    rw [hSize]
    cases hEq
    rfl

theorem dfuWrite_expects (h : Expects t size cnt n f s) (hCnt : cnt < 65535) :
    dfuWrite t s chunk cnt =
      dfuFill t ⟨⟨n, f, s.buf, s.mmc⟩, size, cnt + 1, true, some size⟩ chunk := by
  have hNext : (cnt + 1) &&& 0xffff = cnt + 1 :=
    (Nat.and_two_pow_sub_one_eq_mod _ 16).trans (Nat.mod_eq_of_lt (by omega))
  rw [dfuWrite, h.init]
  dsimp only
  rw [if_neg (not_not_intro rfl), hNext]

theorem dfuFill_tooMuch (hMore : s.iBufEnd < chunk.length) : (dfuFill t s chunk).1 ≠ 0 := by
  rw [dfuFill]
  dsimp only
  set room := if s.iBuf + chunk.length > s.iBufEnd then dfuWriteBufferDrain t s.toTransfer
    else (0, s.toTransfer)
  rw [orCleanup]
  by_cases hOk : room.1 = 0
  · grind
  · rw [if_pos hOk]
    exact hOk

theorem dfuWrite_taken (h : Expects t size cnt n f s) (hCnt : cnt < 65535)
    (hOk : (dfuWrite t s chunk cnt).1 = 0) :
    chunk.length ≤ size ∧ ∃ x,
      runSteps t (chunkSteps size f chunk) ⟨n, f, s.buf, s.mmc⟩ = some x ∧
      dfuWrite t s chunk cnt = (0, ⟨x, size, cnt + 1, true, some size⟩) := by
  rw [dfuWrite_expects h hCnt] at hOk ⊢
  have hFit : chunk.length ≤ size := Nat.le_of_not_lt fun hMore => dfuFill_tooMuch hMore hOk
  have hSpec := @dfuFill_spec t ⟨⟨n, f, s.buf, s.mmc⟩, size, cnt + 1, true, some size⟩ chunk hFit
  cases hRun : runSteps t (chunkSteps size f chunk) ⟨n, f, s.buf, s.mmc⟩ with
  | none =>
      grind
  | some x =>
      grind

theorem dfuWrite_room (h : Expects t size cnt n f s) (hCnt : cnt < 65535)
    (hFit : chunk.length ≤ size) {x : Transfer}
    (hRun : runSteps t (chunkSteps size f chunk) ⟨n, f, s.buf, s.mmc⟩ = some x) :
    dfuWrite t s chunk cnt = (0, ⟨x, size, cnt + 1, true, some size⟩) := by
  have hSpec := @dfuFill_spec t ⟨⟨n, f, s.buf, s.mmc⟩, size, cnt + 1, true, some size⟩ chunk hFit
  grind [dfuWrite_expects]

end

section

theorem turn_within {rcvCnt : Nat} (hWhole : packetSize ∣ rcvCnt)
    (hUnit : (rcvCnt + packetSize) % storeUnitSize ≠ 0) :
    (rcvCnt + packetSize) % storeUnitSize = rcvCnt % storeUnitSize + packetSize ∧
      (rcvCnt + packetSize) / storeUnitSize = rcvCnt / storeUnitSize := by
  obtain ⟨k, rfl⟩ := hWhole
  rw [packetSize, storeUnitSize] at *
  omega

theorem le_of_turn_within {rcvCnt : Nat} (hWhole : packetSize ∣ rcvCnt)
    (hUnit : (rcvCnt + packetSize) % storeUnitSize ≠ 0)
    (hLe : storeUnitSize ≤ rcvCnt + packetSize) : storeUnitSize ≤ rcvCnt := by
  obtain ⟨k, rfl⟩ := hWhole
  rw [packetSize, storeUnitSize] at *
  omega

theorem turn_full {rcvCnt : Nat} (hUnit : (rcvCnt + packetSize) % storeUnitSize = 0) :
    rcvCnt % storeUnitSize + packetSize = storeUnitSize ∧
      (rcvCnt + packetSize) / storeUnitSize = rcvCnt / storeUnitSize + 1 := by
  grind [packetSize, storeUnitSize]

theorem off_add_le (rcvCnt : Nat) (hWhole : packetSize ∣ rcvCnt) :
    rcvCnt % storeUnitSize + packetSize ≤ storeUnitSize := by
  obtain ⟨k, rfl⟩ := hWhole
  rw [packetSize, storeUnitSize] at *
  omega

end

end Fire3.Dfu

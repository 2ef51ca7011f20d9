import Fire3.Dfu.ThorTurns

/-!
How far a THOR download has come.

At each turn the packets of the store unit stand at the beginning of the buffer, the host still
sends the rest of the file, and what the entity was given is drained or counted as being in its
buffer.
-/

namespace Fire3.Dfu
open ByteMemory Align

/-- What holds at each turn: the packets that came fill the store unit, the ones that still come
are those of the rest of the file, and the store units before were given to the entity. -/
structure Turn (t : Target) (size : Nat) (file : List UInt8) (part rcvCnt off n f : Nat)
    (s : Thor) : Prop where
  le : rcvCnt ≤ file.length
  host : ∃ fuel, (file.drop rcvCnt).length ≤ fuel ∧ s.host = packets fuel (file.drop rcvCnt)
  packet : packetSize ∣ rcvCnt
  off_eq : off = rcvCnt % storeUnitSize
  cnt : s.cnt = rcvCnt / storeUnitSize
  placed : ∀ p ∈ s.placed, p.1 + p.2 ≤ storeUnitSize ∧ p.1 + p.2 ≤ file.length
  received : load s.dfu.buf 0 off = (file.drop (rcvCnt - off)).take off
  expects : Expects t size s.cnt n f s.dfu
  whole : Whole t ⟨n, f, s.dfu.buf, s.dfu.mmc⟩
  given : n + f = rcvCnt - off
  fits : storeUnitSize ≤ rcvCnt → storeUnitSize ≤ size
  partNum : s.dfu.mmc.partNum = part

namespace Turn
variable {t : Target} {size : Nat} {file : List UInt8} {part rcvCnt off n f : Nat} {s : Thor}

theorem host_cons (h : Turn t size file part rcvCnt off n f s)
    (hMore : packetSize ≤ file.length - rcvCnt) :
    ∃ host, s.host = (file.drop rcvCnt).take packetSize :: host ∧
      ((file.drop rcvCnt).take packetSize).length = packetSize ∧
      ∃ fuel, (file.drop (rcvCnt + packetSize)).length ≤ fuel ∧
        host = packets fuel (file.drop (rcvCnt + packetSize)) := by
  have hPos : 0 < packetSize := by decide
  obtain ⟨fuel, hFuel, hHost⟩ := h.host
  rw [List.length_drop] at hFuel
  obtain ⟨fuel, rfl⟩ := Nat.exists_eq_add_of_le' (show 1 ≤ fuel by omega)
  have hSome : file.drop rcvCnt ≠ [] := fun hNil => by
    have hLength := congrArg List.length hNil
    grind
  rw [packets, if_neg hSome, List.drop_drop] at hHost
  refine ⟨_, hHost, ?_, fuel, ?_, rfl⟩
  · rw [List.length_take, List.length_drop]
    omega
  · rw [List.length_drop]
    omega

theorem off_le (h : Turn t size file part rcvCnt off n f s) : off ≤ rcvCnt :=
  h.off_eq ▸ Nat.mod_le _ _

theorem received_place (h : Turn t size file part rcvCnt off n f s)
    (hMore : packetSize ≤ file.length - rcvCnt) (host : List (List UInt8)) :
    load (s.place off ((file.drop rcvCnt).take packetSize) host).dfu.buf 0 (off + packetSize) =
      (file.drop (rcvCnt - off)).take (off + packetSize) := by
  obtain ⟨-, -, hLength, -⟩ := h.host_cons hMore
  have hFilled := load_filled s.dfu.buf off ((file.drop rcvCnt).take packetSize)
  rw [hLength, h.received] at hFilled
  rw [List.take_add, List.drop_drop, Nat.sub_add_cancel h.off_le]
  exact hFilled

theorem placed_place (h : Turn t size file part rcvCnt off n f s)
    (hMore : packetSize ≤ file.length - rcvCnt) (host : List (List UInt8)) :
    ∀ p ∈ (s.place off ((file.drop rcvCnt).take packetSize) host).placed,
      p.1 + p.2 ≤ storeUnitSize ∧ p.1 + p.2 ≤ file.length := by
  obtain ⟨-, -, hLength, -⟩ := h.host_cons hMore
  have hOff := h.off_le
  have hUnit := off_add_le rcvCnt h.packet
  have hPos : 0 < packetSize := by decide
  intro p hp
  rcases List.mem_cons.mp hp with rfl | hOld
  · rw [hLength, h.off_eq]
    rw [h.off_eq] at hOff
    exact ⟨hUnit, by dsimp only; omega⟩
  · exact h.placed p hOld

theorem place (h : Turn t size file part rcvCnt off n f s)
    (hMore : packetSize ≤ file.length - rcvCnt) {host : List (List UInt8)}
    (hHost : ∃ fuel, (file.drop (rcvCnt + packetSize)).length ≤ fuel ∧
      host = packets fuel (file.drop (rcvCnt + packetSize)))
    (hUnit : (rcvCnt + packetSize) % storeUnitSize ≠ 0) :
    Turn t size file part (rcvCnt + packetSize) (off + packetSize) n f
      (s.place off ((file.drop rcvCnt).take packetSize) host) := by
  obtain ⟨hOff, hCnt⟩ := turn_within h.packet hUnit
  have hPos : 0 < packetSize := by decide
  have hSame : rcvCnt + packetSize - (off + packetSize) = rcvCnt - off := Nat.add_sub_add_right ..
  exact
    { le := by omega
      host := hHost
      packet := Nat.dvd_add h.packet (Nat.dvd_refl _)
      off_eq := by rw [hOff, h.off_eq]
      cnt := hCnt ▸ h.cnt
      placed := h.placed_place hMore host
      received := by
        rw [hSame]
        exact h.received_place hMore host
      expects := h.expects.store _
      whole := ⟨h.whole.offset, h.whole.held, h.whole.within⟩
      given := by rw [hSame, h.given]
      fits := fun hLe => h.fits (le_of_turn_within h.packet hUnit hLe)
      partNum := h.partNum }

theorem unit (hCard : Card t) (hLt : file.length < 2 ^ 31)
    (h : Turn t size file part rcvCnt off n f s) (hMore : packetSize ≤ file.length - rcvCnt)
    {host : List (List UInt8)}
    (hHost : ∃ fuel, (file.drop (rcvCnt + packetSize)).length ≤ fuel ∧
      host = packets fuel (file.drop (rcvCnt + packetSize)))
    (hUnit : (rcvCnt + packetSize) % storeUnitSize = 0) {s' : Thor}
    (hs' : s.place off ((file.drop rcvCnt).take packetSize) host = s')
    (hOk : (storeUnit t s').1 = 0) :
    ∃ x, runSteps t (chunkSteps size f (load s'.dfu.buf 0 storeUnitSize))
        ⟨n, f, s'.dfu.buf, s'.dfu.mmc⟩ = some x ∧
      (storeUnit t s').2.dfu.toTransfer = x ∧
      Turn t size file part (rcvCnt + packetSize) 0 x.offset x.iBuf (storeUnit t s').2 := by
  obtain ⟨hOff, hCnt⟩ := turn_full hUnit
  have hPos : 0 < packetSize := by decide
  have hBlocks : t.area.lbaBlkSize ∣ storeUnitSize := hCard.blkSize_dvd.trans (by decide)
  have hNumber : s'.cnt < 65535 := by
    rw [← hs']
    change s.cnt < _
    rw [h.cnt, storeUnitSize]
    have hLe := h.le
    omega
  have hExpects : Expects t size s'.cnt n f s'.dfu := by
    rw [← hs']
    exact h.expects.store _
  have hWhole : Whole t ⟨n, f, s'.dfu.buf, s'.dfu.mmc⟩ :=
    ⟨h.whole.offset, h.whole.held, h.whole.within⟩
  obtain ⟨hFit, x, hRun, hWrite⟩ := dfuWrite_taken hExpects hNumber hOk
  rw [length_load] at hFit
  have hGiven := h.given
  have hLe := h.le
  have hSmall : f + storeUnitSize < 2 ^ 32 := by
    rw [storeUnitSize]
    omega
  obtain ⟨hNext, hMoved, hPart⟩ := runSteps_taken hCard hWhole
    (fun chunk hIn => by
      rw [mem_chunkSteps hIn, length_load]
      exact hBlocks)
    (by rw [filled_chunkSteps, length_load]; exact hSmall) hRun
  rw [filled_chunkSteps, length_load] at hMoved
  have hAfter : (storeUnit t s').2 =
      { s' with dfu := ⟨x, size, s'.cnt + 1, true, some size⟩, cnt := s'.cnt + 1 } := by
    rw [storeUnit, hWrite]
  rw [hAfter]
  refine ⟨x, hRun, rfl, ?_⟩
  exact
    { le := by omega
      host := by
        rw [← hs']
        exact hHost
      packet := Nat.dvd_add h.packet (Nat.dvd_refl _)
      off_eq := hUnit.symm
      cnt := by
        rw [hCnt, ← h.cnt, ← hs']
        rfl
      placed := by
        rw [← hs']
        exact h.placed_place hMore host
      received := by rw [load_zero, List.take_zero]
      expects := expects_done x
      whole := hNext
      given := by
        have hOffLe := h.off_le
        rw [h.off_eq] at hGiven hOffLe
        dsimp only at hMoved
        omega
      fits := fun _ => hFit
      partNum := by
        rw [← h.partNum, ← hs'] at *
        exact hPart }

end Turn

end Fire3.Dfu

import Fire3.Dfu.ThorTail

/-!
What a THOR download that reports success has stored.

Only packets of full size are ever received completely, so the file is made of such packets, and
it fits the area. If no store unit waits in the buffer while more packets come, the medium holds
the file.
-/

namespace Fire3.Dfu
open ByteMemory Align

variable {rcvCnt off n f : Nat} {s s' : Thor}

structure Offered (t : Target) (size : Nat) (file : List UInt8) (s : Thor) : Prop where
  inited : s.dfu.inited = false
  iBuf : s.dfu.iBuf = 0
  dfuBuf : t.dfuGetBuf s.dfu.dfuBuf = some size
  host : s.host = packets file.length file
  placed : s.placed = []
  cnt : s.cnt = 0

def NoneWaits (size total : Nat) : Prop := total ≤ storeUnitSize ∨ size < 2 * storeUnitSize

def Kept (t : Target) (size : Nat) (file : List UInt8) (part : Nat) (medium : Mem)
    (rcvCnt n f : Nat) (s : Thor) : Prop :=
  NoneWaits size file.length →
    (f = 0 ∧ s.dfu.mmc.parts (t.area.hwPartition.getD part) =
      store medium t.area.base (file.take n)) ∨
    (f = storeUnitSize ∧ n = 0 ∧ rcvCnt = storeUnitSize ∧ file.length = storeUnitSize ∧
      load s.dfu.buf 0 storeUnitSize = file ∧
      s.dfu.mmc.parts (t.area.hwPartition.getD part) = medium)

def Storing (t : Target) (size : Nat) (file : List UInt8) (part : Nat) (medium : Mem)
    (rcvCnt off : Nat) (s : Thor) : Prop :=
  ∃ n f, Turn t size file part rcvCnt off n f s ∧ Kept t size file part medium rcvCnt n f s

theorem unit_blocks : 512 ∣ storeUnitSize := by decide

section
variable {t : Target} {size : Nat} {file : List UInt8} {part : Nat} {medium : Mem}

theorem drain_file (h : Card t) {n k : Nat} {buf : Mem} {mmc : Mmc} {x : Transfer}
    (hWhole : Whole t ⟨n, k, buf, mmc⟩) (hSome : 0 < k) (hSmall : k < 2 ^ 32)
    (hPart : mmc.partNum = part) (hNext : load buf 0 k = (file.drop n).take k)
    (hMedium : mmc.parts (t.area.hwPartition.getD part) = store medium t.area.base (file.take n))
    (hLe : n ≤ file.length)
    (hDrain : dfuWriteBufferDrain t ⟨n, k, buf, mmc⟩ = (0, x)) :
    x.offset = n + k ∧ x.iBuf = 0 ∧
      x.mmc.parts (t.area.hwPartition.getD part) =
        store medium t.area.base (file.take (n + k)) := by
  obtain ⟨hFits, hTaken⟩ := drain_taken h hWhole hSome hSmall (by rw [hDrain])
  have hx : x = afterDrain t ⟨n, k, buf, mmc⟩ :=
    congrArg Prod.snd (hDrain.symm.trans hTaken)
  have hBefore : (file.take n).length = n := by
    rw [List.length_take]
    omega
  have hAfter := afterDrain_medium t ⟨n, k, buf, mmc⟩
  rw [hWhole.align_held hSmall] at hAfter
  refine ⟨hx ▸ (hWhole.afterDrain hSmall hFits).2, hx ▸ rfl, ?_⟩
  rw [List.take_add, store_append, hBefore, hx, ← hNext, ← hMedium, ← hPart]
  exact hAfter

theorem kept_unit (h : Card t) {host : List (List UInt8)} {x : Transfer}
    (hTurn : Turn t size file part rcvCnt off n f s) (hMore : packetSize ≤ file.length - rcvCnt)
    (hUnit : (rcvCnt + packetSize) % storeUnitSize = 0)
    (hs' : s.place off ((file.drop rcvCnt).take packetSize) host = s')
    (hRun : runSteps t (chunkSteps size f (load s'.dfu.buf 0 storeUnitSize))
      ⟨n, f, s'.dfu.buf, s'.dfu.mmc⟩ = some x) (hFit : storeUnitSize ≤ size)
    (hStored : (storeUnit t s').2.dfu.toTransfer = x)
    (hKept : Kept t size file part medium rcvCnt n f s) :
    Kept t size file part medium (rcvCnt + packetSize) x.offset x.iBuf (storeUnit t s').2 := by
  intro hNone
  have hPos : 0 < packetSize := by decide
  have hUnitPos : 0 < storeUnitSize := by decide
  obtain ⟨hOff, -⟩ := turn_full hUnit
  have hReceived := hTurn.received_place hMore host
  have hGiven := hTurn.given
  have hOffLe := hTurn.off_le
  have hLe := hTurn.le
  rw [hTurn.off_eq] at hGiven hOffLe
  rw [hs', hTurn.off_eq, hOff] at hReceived
  have hMmc : s'.dfu.mmc = s.dfu.mmc := by rw [← hs']; rfl
  change (x.iBuf = 0 ∧ (storeUnit t s').2.dfu.toTransfer.mmc.parts _ = _) ∨
    (x.iBuf = _ ∧ x.offset = 0 ∧ _ ∧ _ ∧ load (storeUnit t s').2.dfu.toTransfer.buf _ _ = _ ∧
      (storeUnit t s').2.dfu.toTransfer.mmc.parts _ = _)
  rw [hStored]
  rcases hKept hNone with ⟨rfl, hMedium⟩ | ⟨-, -, hLast, hOnly, -⟩
  · have hn : n = rcvCnt - rcvCnt % storeUnitSize := by omega
    rw [← hn] at hReceived
    have hSmall : storeUnitSize < 2 ^ 32 := by decide
    rcases runSteps_empty hUnitPos hFit hRun with ⟨hTwo, rfl⟩ | ⟨-, hDrain⟩
    · -- the store unit waits, and it is the only one
      have hOne : file.length ≤ storeUnitSize := by
        rcases hNone with hOne | hSize
        · exact hOne
        · omega
      have hZero : n = 0 := by omega
      have hAll : file.length = storeUnitSize := by omega
      refine .inr ⟨rfl, hZero, by omega, hAll, ?_, ?_⟩
      · dsimp only
        rw [hReceived, hZero, List.drop_zero, ← hAll, List.take_length]
      · dsimp only
        rw [hMmc, hMedium, hZero, List.take_zero, store_nil]
    · have hWhole : Whole t ⟨n, storeUnitSize, s'.dfu.buf, s'.dfu.mmc⟩ :=
        ⟨hTurn.whole.offset, h.blkSize_dvd.trans unit_blocks, hTurn.whole.within⟩
      have hFile := drain_file h hWhole hUnitPos hSmall (hMmc ▸ hTurn.partNum) hReceived
        (hMmc ▸ hMedium) (by omega) hDrain
      rw [hFile.1]
      exact .inl hFile.2
  · omega

theorem storing_turn (h : Card t) (hLt : file.length < 2 ^ 31)
    (hInv : Storing t size file part medium rcvCnt off s)
    (hMore : packetSize ≤ file.length - rcvCnt) :
    ∃ data host, s.host = data :: host ∧ data.length = packetSize ∧
      ((rcvCnt + packetSize) % storeUnitSize ≠ 0 →
        Storing t size file part medium (rcvCnt + packetSize) (off + packetSize)
          (s.place off data host)) ∧
      ((rcvCnt + packetSize) % storeUnitSize = 0 →
        (storeUnit t (s.place off data host)).1 = 0 →
        Storing t size file part medium (rcvCnt + packetSize) 0
          (storeUnit t (s.place off data host)).2) := by
  obtain ⟨n, f, hTurn, hKept⟩ := hInv
  obtain ⟨host, hHost, hLength, hRest⟩ := hTurn.host_cons hMore
  have hPos : 0 < packetSize := by decide
  refine ⟨_, host, hHost, hLength, fun hWithin => ?_, fun hUnit hOk => ?_⟩
  · refine ⟨n, f, hTurn.place hMore hRest hWithin, fun hNone => ?_⟩
    rcases hKept hNone with hDrained | ⟨-, -, hLast, hOnly, -⟩
    · exact .inl hDrained
    · omega
  · obtain ⟨x, hRun, hStored, hNext⟩ := hTurn.unit h hLt hMore hRest hUnit rfl hOk
    have hFit := hNext.fits (by
      have hFull := (turn_full hUnit).1
      have hLe := Nat.mod_le rcvCnt storeUnitSize
      omega)
    exact ⟨x.offset, x.iBuf, hNext,
      kept_unit h hTurn hMore hUnit rfl hRun hFit hStored hKept⟩

theorem storing_start (hOffered : Offered t size file s) :
    Storing t size file s.dfu.mmc.partNum (s.dfu.mmc.parts (t.part s.dfu.mmc)) 0 0
      { s with dfu := { s.dfu with dfuBuf := some size } } := by
  refine ⟨0, 0, ?_, fun _ => .inl ⟨rfl, ?_⟩⟩
  · exact
      { le := Nat.zero_le _
        host := ⟨file.length, by simp, by simp [hOffered.host]⟩
        packet := Nat.dvd_zero _
        off_eq := (Nat.zero_mod _).symm
        cnt := by simp [hOffered.cnt]
        placed := by simp [hOffered.placed]
        received := by simp
        expects := by
          dsimp only
          rw [hOffered.cnt]
          exact expects_fresh hOffered.inited hOffered.iBuf rfl
        whole := ⟨Nat.dvd_zero _, Nat.dvd_zero _, Nat.zero_le _⟩
        given := rfl
        fits := fun hLe => absurd hLe (by decide)
        partNum := rfl }
  · rw [List.take_zero, store_nil]
    rfl

theorem rest_waits (hTurn : Turn t size file part rcvCnt off n f s)
    (hSome : file.length - rcvCnt ≠ 0) (hShort : file.length - rcvCnt < packetSize) :
    thorRxData off packetSize s = none := by
  obtain ⟨fuel, hFuel, hHost⟩ := hTurn.host
  have hLength : (file.drop rcvCnt).length = file.length - rcvCnt := List.length_drop
  rw [hLength] at hFuel
  obtain ⟨fuel, rfl⟩ := Nat.exists_eq_add_of_le' (show 1 ≤ fuel by omega)
  have hNe : file.drop rcvCnt ≠ [] := fun hNil => by
    rw [hNil] at hLength
    exact hSome hLength.symm
  have hEmpty : packets fuel [] = [] := by
    cases fuel with
    | zero => rfl
    | succ fuel => rw [packets, if_pos rfl]
  have hTake : (file.drop rcvCnt).take packetSize = file.drop rcvCnt :=
    List.take_of_length_le (by omega)
  have hDrop : (file.drop rcvCnt).drop packetSize = [] := List.drop_of_length_le (by omega)
  rw [packets, if_neg hNe, hTake, hDrop, hEmpty] at hHost
  exact thorRxData_short hHost (by omega)

theorem head_of_success (h : Card t) (hLt : file.length < 2 ^ 31) (hOffered : Offered t size file s)
    (hRun : thorDownload t file.length s = some (true, s')) :
    ∃ n f s1, Turn t size file s.dfu.mmc.partNum file.length (file.length % storeUnitSize) n f s1 ∧
      Kept t size file s.dfu.mmc.partNum (s.dfu.mmc.parts (t.part s.dfu.mmc)) file.length n f s1 ∧
      (downloadTail t (file.length % storeUnitSize) s1.cnt s1.dfu).1 = 0 ∧
      s'.placed = s1.placed ∧
      s'.dfu = (downloadTail t (file.length % storeUnitSize) s1.cnt s1.dfu).2 := by
  rw [thorDownload, downloadHead, hOffered.dfuBuf, Option.bind_some] at hRun
  obtain ⟨r, hHead, hTail⟩ := Option.map_eq_some_iff.mp hRun
  obtain ⟨e, hLoop, hBehind⟩ := Option.bind_eq_some_iff.mp hHead
  cases e with
  | error e =>
      have hNeg := headLoop_error h hLoop
      grind
  | ok e =>
      obtain ⟨rcvCnt, off, s1⟩ := e
      obtain ⟨⟨n, f, hTurn, hKept⟩, hEnd⟩ := @headLoop_keeps t file.length
        (Storing t size file s.dfu.mmc.partNum (s.dfu.mmc.parts (t.part s.dfu.mmc)))
        (fun _ _ _ hInv hMore => storing_turn h hLt hInv hMore) _ _ _ _ _ _ _
        (storing_start hOffered) hLoop
      dsimp only at hBehind
      by_cases hRest : file.length - rcvCnt = 0
      · rw [if_neg (not_not_intro hRest), hRest, Nat.zero_add] at hBehind
        have hAll : rcvCnt = file.length := by
          have hLe := hTurn.le
          omega
        subst hAll
        have hOff := hTurn.off_eq
        subst hOff
        cases hBehind
        dsimp only at hTail
        rw [if_neg (by omega)] at hTail
        obtain ⟨hOk, rfl⟩ := Prod.mk.inj hTail
        exact ⟨n, f, s1, hTurn, hKept, of_decide_eq_true hOk, rfl, rfl⟩
      · rw [if_pos hRest, rest_waits hTurn hRest hEnd] at hBehind
        cases hBehind

theorem kept_tail (h : Card t) {left : Nat} {x1 x : Transfer}
    (hTurn : Turn t size file part file.length left n f s)
    (hKept : Kept t size file part medium file.length n f s) (hNone : NoneWaits size file.length)
    (hBlocks : 512 ∣ left) (hSmall : left < 2 ^ 32) (hFit : left ≠ 0 → left ≤ size)
    (hFirst : runSteps t (if left = 0 then [] else chunkSteps size f (load s.dfu.buf 0 left))
      ⟨n, f, s.dfu.buf, s.dfu.mmc⟩ = some x1) (hDrain : dfuWriteBufferDrain t x1 = (0, x)) :
    x.mmc.parts (t.area.hwPartition.getD part) = store medium t.area.base file := by
  have hGiven := hTurn.given
  have hLeftLe := hTurn.off_le
  rcases hKept hNone with ⟨rfl, hMedium⟩ | ⟨rfl, rfl, hLast, hOnly, hFile, hMedium⟩
  · have hEnd : n + left = file.length := by omega
    by_cases hRest : left = 0
    · rw [if_pos hRest] at hFirst
      cases hFirst
      rw [drain_idle rfl] at hDrain
      cases hDrain
      dsimp only
      rw [hMedium, show n = file.length by omega, List.take_length]
    · have hTail : Whole t ⟨n, left, s.dfu.buf, s.dfu.mmc⟩ :=
        ⟨hTurn.whole.offset, h.blkSize_dvd.trans hBlocks, hTurn.whole.within⟩
      have hReceived := hTurn.received
      rw [show file.length - left = n by omega] at hReceived
      have hStores {y : Transfer}
          (hWrite : dfuWriteBufferDrain t ⟨n, left, s.dfu.buf, s.dfu.mmc⟩ = (0, y)) :
          y.iBuf = 0 ∧ y.mmc.parts (t.area.hwPartition.getD part) =
            store medium t.area.base file := by
        have hAll := drain_file h hTail (Nat.pos_of_ne_zero hRest) hSmall hTurn.partNum
          hReceived hMedium (by omega) hWrite
        rw [hEnd, List.take_length] at hAll
        exact hAll.2
      rw [if_neg hRest] at hFirst
      rcases runSteps_empty (Nat.pos_of_ne_zero hRest) (hFit hRest) hFirst with
        ⟨-, rfl⟩ | ⟨-, hBefore⟩
      · exact (hStores hDrain).2
      · grind [drain_idle]
  · have hRest : left = 0 := by rw [hTurn.off_eq, hOnly, Nat.mod_self]
    rw [if_pos hRest] at hFirst
    cases hFirst
    have hAll := @drain_file t file part medium h _ _ _ _ _ hTurn.whole (by decide) (by decide)
      hTurn.partNum (by rw [hFile, List.drop_zero, ← hOnly, List.take_length])
      (by rw [hMedium, List.take_zero, store_nil]) (Nat.zero_le _) hDrain
    grind

theorem thor_success (h : Card t) (hSome : 0 < file.length) (hLt : file.length < 2 ^ 31)
    (hOffered : Offered t size file s) (hRun : thorDownload t file.length s = some (true, s')) :
    packetSize ∣ file.length ∧ file.length ≤ t.area.bytes ∧ (∀ p ∈ s'.placed, p.1 + p.2 ≤ size) ∧
      (NoneWaits size file.length → s'.dfu.mmc.parts (t.part s.dfu.mmc) =
        store (s.dfu.mmc.parts (t.part s.dfu.mmc)) t.area.base file) := by
  obtain ⟨n, f, s1, hTurn, hKept, hOk, hPlaced, hDfu⟩ := head_of_success h hLt hOffered hRun
  set left := file.length % storeUnitSize with hLeft
  have hCnt : s1.cnt < 65535 := by
    rw [hTurn.cnt, storeUnitSize]
    omega
  obtain ⟨hFit, x, hSteps, hMmc⟩ := downloadTail_taken hTurn.expects hCnt hOk
  have hGiven := hTurn.given
  have hLeftLe := hTurn.off_le
  have hBlocks : 512 ∣ left := by
    rw [hLeft]
    exact (Nat.dvd_mod_iff unit_blocks).mpr (Nat.dvd_trans (by decide) hTurn.packet)
  obtain ⟨hWhole, hMoved, -⟩ := runSteps_taken h hTurn.whole
    (fun chunk hIn => by
      rw [mem_tailSteps hIn, length_load]
      exact h.blkSize_dvd.trans hBlocks)
    (by rw [filled_tailSteps]; dsimp only; omega) hSteps
  rw [filled_tailSteps] at hMoved
  rw [tailSteps, runSteps_last] at hSteps
  obtain ⟨x1, hFirst, hLast⟩ := Option.bind_eq_some_iff.mp hSteps
  have hDrain : dfuWriteBufferDrain t x1 = (0, x) := by
    by_cases hFail : (dfuWriteBufferDrain t x1).1 = 0
    · rw [if_neg (not_not_intro hFail)] at hLast
      exact Prod.ext hFail (Option.some.inj hLast)
    · rw [if_pos hFail] at hLast
      cases hLast
  have hEmpty : x.iBuf = 0 := by
    grind [drain_iBuf]
  refine ⟨hTurn.packet, ?_, ?_, fun hNone => ?_⟩
  · have hWithin := hWhole.within
    dsimp only at hMoved
    omega
  · intro p hp
    rw [hPlaced] at hp
    obtain ⟨hUnit, hFile⟩ := hTurn.placed p hp
    by_cases hOne : storeUnitSize ≤ file.length
    · exact hUnit.trans (hTurn.fits hOne)
    · have hAll : left = file.length := Nat.mod_eq_of_lt (Nat.not_le.mp hOne)
      exact hFile.trans (hAll ▸ hFit (by omega))
  · rw [hDfu, hMmc]
    exact kept_tail h hTurn hKept hNone hBlocks (by omega) hFit hFirst hDrain

end

end Fire3.Dfu

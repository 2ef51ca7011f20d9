import Fire3.Dfu.Gap
import Fire3.Dfu.ThorStored

/-!
When a THOR download stores the file.

A buffer with room for two store units is not drained behind the first one, and the next packet
overwrites it there. So a file of more than a store unit is stored wrong through such a buffer,
and the download reports success.
-/

namespace Fire3.Dfu
open ByteMemory Align

/-- Every download of a file of `total` bytes through a buffer of `size` bytes that reports
success has put no packet outside of the buffer and has left the file at the beginning of the
area, and nothing else on the medium but for the rest of the last block. -/
def StoresFile (area : Area) (size total : Nat) : Prop :=
  ∀ (t : Target) (s s' : Thor) (file : List UInt8), t.area = area → Card t →
    file.length = total → Offered t size file s → thorDownload t total s = some (true, s') →
    (∀ p ∈ s'.placed, p.1 + p.2 ≤ size) ∧
      load (s'.dfu.mmc.parts (t.part s.dfu.mmc)) area.base total = file ∧
      ∀ a, a < area.base ∨ area.base + align total area.lbaBlkSize ≤ a →
        s'.dfu.mmc.parts (t.part s.dfu.mmc) a = s.dfu.mmc.parts (t.part s.dfu.mmc) a

/-- The file is stored unless a store unit waits in the buffer while packets come, which takes a
file of packets of full size that fits the area. -/
theorem storesFile_of {area : Area} {size total : Nat} (hSome : 0 < total) (hLt : total < 2 ^ 31)
    (hGood : packetSize ∣ total → total ≤ area.bytes → NoneWaits size total) :
    StoresFile area size total := by
  rintro t s s' file rfl hCard rfl hOffered hRun
  obtain ⟨hPackets, hFits, hPlaced, hMedium⟩ := thor_success hCard hSome hLt hOffered hRun
  have hAlign := le_align t.area.two_pow (t.area.add_le hFits)
  rw [hMedium (hGood hPackets hFits)]
  grind [load_store_same, store_below, store_above]

theorem store_marked {bytes : List UInt8} (hSome : bytes ≠ []) (hZero : ∀ b ∈ bytes, b = 0) :
    store (marked 0) 0 bytes = zero := by
  funext a
  by_cases hIn : a < bytes.length
  · have hByte := getElem?_of_store (marked 0) 0 bytes a (Nat.zero_le _) (by omega)
    exact hZero _ (List.mem_of_getElem? hByte)
  · have hPos : 0 < bytes.length := List.length_pos_of_ne_nil hSome
    rw [store_above _ _ _ _ (by omega), marked, if_neg (by omega)]
    rfl

theorem zeros_of_marked {a n : Nat} (hPos : 0 < a) : ∀ b ∈ load (marked 0) a n, b = 0 := by
  intro b hb
  obtain ⟨i, hi, rfl⟩ := List.mem_iff_getElem.mp hb
  rw [getElem_load, marked, if_neg (by omega)]

section
variable {t : Target}

theorem runSteps_zeros (h : Card t) {steps : List Step} {x x' : Transfer} (hWhole : Whole t x)
    (hFill : ∀ chunk, Step.fill chunk ∈ steps → t.area.lbaBlkSize ∣ chunk.length)
    (hZero : ∀ chunk, Step.fill chunk ∈ steps → ∀ b ∈ chunk, b = 0)
    (hLength : x.iBuf + filled steps < 2 ^ 32) (hBuf : x.buf = zero)
    (hMedium : x.mmc.parts (t.part x.mmc) = zero) (hRun : runSteps t steps x = some x') :
    x'.buf = zero ∧ x'.mmc.parts (t.part x.mmc) = zero := by
  induction steps generalizing x with
  | nil =>
      rw [← Option.some.inj hRun]
      exact ⟨hBuf, hMedium⟩
  | cons step steps ih =>
      have hSum : filled (step :: steps) = filled [step] + filled steps :=
        filled_append [step] steps
      rw [runSteps] at hRun
      dsimp only at hRun
      by_cases hOk : (step.run t x).1 = 0
      · rw [if_neg (not_not_intro hOk)] at hRun
        obtain ⟨hNext, -, hHeld, hPart⟩ := step_taken h hWhole
          (fun chunk hStep => hFill chunk (hStep ▸ List.mem_cons_self)) (by omega) hOk
        have hSame : t.part (step.run t x).2.mmc = t.part x.mmc := by
          rw [Target.part, Target.part, hPart]
        have hLeaves : (step.run t x).2.buf = zero ∧
            (step.run t x).2.mmc.parts (t.part x.mmc) = zero := by
          cases step with
          | fill chunk =>
              grind [Step.run, store_zeros, List.mem_cons_self]
          | drain =>
              rw [Step.run] at hOk ⊢
              rcases Nat.eq_zero_or_pos x.iBuf with hNone | hSome
              · grind [drain_idle]
              · obtain ⟨-, hDrain⟩ := drain_taken h hWhole hSome (by omega) hOk
                rw [hDrain]
                refine ⟨hBuf, ?_⟩
                grind [afterDrain_medium, store_zeros, zeros_of_load]
        grind
      · rw [if_pos hOk] at hRun
        cases hRun

end

structure Wiped (t : Target) (rcvCnt n : Nat) (s : Thor) : Prop where
  medium : s.dfu.mmc.parts (t.part s.dfu.mmc) = zero
  first : rcvCnt ≤ storeUnitSize → s.dfu.buf = marked 0 ∧ n = 0
  later : storeUnitSize < rcvCnt → s.dfu.buf = zero

def Wiping (t : Target) (size total rcvCnt off : Nat) (s : Thor) : Prop :=
  ∃ n f, Turn t size (load (marked 0) 0 total) 0 rcvCnt off n f s ∧ Wiped t rcvCnt n s

theorem unit_le_of_lt {rcvCnt : Nat} (hPacket : packetSize ∣ rcvCnt)
    (hLt : storeUnitSize < rcvCnt + packetSize) : storeUnitSize ≤ rcvCnt := by
  obtain ⟨k, rfl⟩ := hPacket
  rw [packetSize, storeUnitSize] at *
  omega

section
variable {t : Target} {size total rcvCnt off n f : Nat} {s : Thor}

theorem buf_place (hTurn : Turn t size (load (marked 0) 0 total) 0 rcvCnt off n f s)
    (hWiped : Wiped t rcvCnt n s) {data : List UInt8}
    (hData : data = load (marked 0) rcvCnt packetSize) (host : List (List UInt8)) :
    (rcvCnt + packetSize ≤ storeUnitSize → (s.place off data host).dfu.buf = marked 0) ∧
      (storeUnitSize < rcvCnt + packetSize → (s.place off data host).dfu.buf = zero) := by
  have hPos : 0 < packetSize := by decide
  have hUnitPos : 0 < storeUnitSize := by decide
  constructor
  · intro hFirst
    have hOff : off = rcvCnt := hTurn.off_eq.trans (Nat.mod_eq_of_lt (by omega))
    change store s.dfu.buf off data = _
    rw [(hWiped.first (by omega)).1, hOff, hData, store_load]
  · intro hLater
    have hUnit := unit_le_of_lt hTurn.packet hLater
    have hZero : ∀ b ∈ data, b = 0 := hData ▸ zeros_of_marked (by omega)
    change store s.dfu.buf off data = _
    rcases Nat.eq_or_lt_of_le hUnit with hEq | hLt
    · -- the first packet of the second store unit
      have hOff : off = 0 := by rw [hTurn.off_eq, ← hEq, Nat.mod_self]
      rw [(hWiped.first hEq.ge).1, hOff]
      refine store_marked (fun hNil => ?_) hZero
      grind [List.length, length_load, List.length_nil]
    · rw [hWiped.later hLt]
      exact store_zeros _ hZero

theorem storeUnit_room (h : Card t) (hWorks : Works t) (hLt : total < 2 ^ 31)
    (hFits : total ≤ t.area.bytes) (hSize : 2 * storeUnitSize ≤ size)
    (hTurn : Turn t size (load (marked 0) 0 total) 0 rcvCnt off n f s)
    (hMore : packetSize ≤ total - rcvCnt) (hUnit : (rcvCnt + packetSize) % storeUnitSize = 0)
    (data : List UInt8) (host : List (List UInt8)) :
    (storeUnit t (s.place off data host)).1 = 0 := by
  obtain ⟨hOff, -⟩ := turn_full hUnit
  have hGiven := hTurn.given
  have hOffLe := hTurn.off_le
  have hPos : 0 < packetSize := by decide
  rw [hTurn.off_eq] at hGiven hOffLe
  have hCnt : s.cnt < 65535 := by
    rw [hTurn.cnt, storeUnitSize]
    omega
  set s1 := s.place off data host
  have hWhole : Whole t ⟨n, f, s1.dfu.buf, s1.dfu.mmc⟩ :=
    ⟨hTurn.whole.offset, hTurn.whole.held, hTurn.whole.within⟩
  have hSmall : storeUnitSize < 2 ^ 31 := by decide
  obtain ⟨x, hRun⟩ := @runSteps_room t h hWorks
    (chunkSteps size f (load s1.dfu.buf 0 storeUnitSize)) _ hWhole
    (fun chunk hIn => by
      rw [mem_chunkSteps hIn, length_load]
      exact h.blkSize_dvd.trans unit_blocks)
    (by rw [filled_chunkSteps, length_load]; dsimp only; omega)
    (by rw [filled_chunkSteps, length_load]; dsimp only; omega)
  have hWrite := dfuWrite_room (hTurn.expects.store s1.dfu.buf) hCnt
    (by rw [length_load]; omega) hRun
  exact congrArg Prod.fst hWrite

theorem wiped_unit (h : Card t) (hLt : total < 2 ^ 31) (hSize : 2 * storeUnitSize ≤ size)
    (hTurn : Turn t size (load (marked 0) 0 total) 0 rcvCnt off n f s) (hWiped : Wiped t rcvCnt n s)
    (hUnit : (rcvCnt + packetSize) % storeUnitSize = 0) {s1 : DfuEntity} {x : Transfer}
    (hMmc : s1.mmc = s.dfu.mmc)
    (hFirst : rcvCnt + packetSize ≤ storeUnitSize → s1.buf = marked 0)
    (hLater : storeUnitSize < rcvCnt + packetSize → s1.buf = zero)
    (hRun : runSteps t (chunkSteps size f (load s1.buf 0 storeUnitSize))
      ⟨n, f, s1.buf, s1.mmc⟩ = some x) :
    x.mmc.parts (t.part s.dfu.mmc) = zero ∧
      (rcvCnt + packetSize ≤ storeUnitSize → x.buf = marked 0 ∧ x.offset = 0) ∧
      (storeUnitSize < rcvCnt + packetSize → x.buf = zero) := by
  obtain ⟨hOff, -⟩ := turn_full hUnit
  have hGiven := hTurn.given
  have hOffLe := hTurn.off_le
  have hLe := hTurn.le
  have hUnitPos : 0 < storeUnitSize := by decide
  have hPos : 0 < packetSize := by decide
  have hSmall : storeUnitSize < 2 ^ 31 := by decide
  rw [length_load] at hLe
  rw [hTurn.off_eq] at hGiven hOffLe
  by_cases hOne : rcvCnt + packetSize ≤ storeUnitSize
  · obtain ⟨rfl, rfl⟩ : n = 0 ∧ f = 0 := by omega
    rcases runSteps_empty hUnitPos (by omega) hRun with ⟨-, rfl⟩ | ⟨hNoRoom, -⟩
    · refine ⟨?_, fun hLe => ⟨hFirst hLe, rfl⟩, fun hMore => absurd hMore (Nat.not_lt.mpr hOne)⟩
      dsimp only
      rw [hMmc, hWiped.medium]
    · omega
  · have hZero := hLater (Nat.not_le.mp hOne)
    have hPart : t.part s1.mmc = t.part s.dfu.mmc := by rw [hMmc]
    have hWhole : Whole t ⟨n, f, s1.buf, s1.mmc⟩ :=
      ⟨hTurn.whole.offset, hTurn.whole.held, hTurn.whole.within⟩
    have hLeft := runSteps_zeros h hWhole
      (fun chunk hIn => by
        rw [mem_chunkSteps hIn, length_load]
        exact h.blkSize_dvd.trans unit_blocks)
      (fun chunk hIn => by
        rw [mem_chunkSteps hIn, hZero]
        exact zeros_of_load _)
      (by rw [filled_chunkSteps, length_load]; dsimp only; omega) hZero
      (by dsimp only; rw [hMmc, hWiped.medium]) hRun
    dsimp only at hLeft
    grind

theorem wiping_turn (h : Card t) (hWorks : Works t) (hLt : total < 2 ^ 31)
    (hFits : total ≤ t.area.bytes) (hSize : 2 * storeUnitSize ≤ size)
    (hInv : Wiping t size total rcvCnt off s) (hMore : packetSize ≤ total - rcvCnt) :
    ∃ data host, s.host = data :: host ∧ data.length = packetSize ∧
      ((rcvCnt + packetSize) % storeUnitSize ≠ 0 →
        Wiping t size total (rcvCnt + packetSize) (off + packetSize) (s.place off data host)) ∧
      ((rcvCnt + packetSize) % storeUnitSize = 0 →
        (storeUnit t (s.place off data host)).1 = 0 ∧
        Wiping t size total (rcvCnt + packetSize) 0 (storeUnit t (s.place off data host)).2) := by
  obtain ⟨n, f, hTurn, hWiped⟩ := hInv
  have hTotal : (load (marked 0) 0 total).length = total := length_load ..
  have hPos : 0 < packetSize := by decide
  obtain ⟨host, hHost, hLength, hRest⟩ := hTurn.host_cons (by rw [hTotal]; exact hMore)
  have hData : ((load (marked 0) 0 total).drop rcvCnt).take packetSize =
      load (marked 0) rcvCnt packetSize := by
    have hTake := load_take_drop (marked 0) 0 (show rcvCnt + packetSize ≤ total by omega)
    rwa [Nat.zero_add] at hTake
  obtain ⟨hFirst, hLater⟩ := buf_place hTurn hWiped hData host
  refine ⟨_, host, hHost, hLength, fun hWithin => ?_, fun hUnit => ?_⟩
  · refine ⟨n, f, hTurn.place (by rw [hTotal]; exact hMore) hRest hWithin, hWiped.medium,
      fun hLe => ⟨hFirst hLe, (hWiped.first (by omega)).2⟩, hLater⟩
  · have hOk := storeUnit_room h hWorks hLt hFits hSize hTurn hMore hUnit
      (((load (marked 0) 0 total).drop rcvCnt).take packetSize) host
    refine ⟨hOk, ?_⟩
    obtain ⟨x, hRun, hStored, hNext⟩ := hTurn.unit h (by rw [hTotal]; exact hLt)
      (by rw [hTotal]; exact hMore) hRest hUnit rfl hOk
    have hMmc : (s.place off (((load (marked 0) 0 total).drop rcvCnt).take packetSize) host).dfu.mmc
        = s.dfu.mmc := rfl
    obtain ⟨hMedium, hMarked, hZero⟩ :=
      wiped_unit h hLt hSize hTurn hWiped hUnit hMmc hFirst hLater hRun
    have hPart : t.part x.mmc = t.part s.dfu.mmc := by
      rw [← hStored, Target.part, Target.part, hTurn.partNum, hNext.partNum]
    refine ⟨x.offset, x.iBuf, hNext, ?_⟩
    rw [← hStored] at hMedium hMarked hZero hPart
    exact ⟨by rw [hPart]; exact hMedium, hStored ▸ hMarked, hZero⟩

theorem wiping_start {file : List UInt8} (hFile : file = load (marked 0) 0 total)
    (hOffered : Offered t size file s) (hBuf : s.dfu.buf = marked 0)
    (hMmc : s.dfu.mmc = ⟨0, fun _ => zero⟩) :
    Wiping t size total 0 0 { s with dfu := { s.dfu with dfuBuf := some size } } := by
  subst hFile
  obtain ⟨n, f, hTurn, -⟩ := storing_start hOffered
  have hPart : s.dfu.mmc.partNum = 0 := by rw [hMmc]
  rw [hPart] at hTurn
  refine ⟨n, f, hTurn, ?_, fun _ => ⟨hBuf, ?_⟩, fun hLt => absurd hLt (by decide)⟩
  · dsimp only
    rw [hMmc]
  · have hGiven := hTurn.given
    omega


theorem thor_wipes (h : Card t) (hWorks : Works t) (hLt : total < 2 ^ 31)
    (hPackets : packetSize ∣ total) (hMore : storeUnitSize < total) (hFits : total ≤ t.area.bytes)
    (hSize : 2 * storeUnitSize ≤ size) (hOffered : Offered t size (load (marked 0) 0 total) s)
    (hBuf : s.dfu.buf = marked 0) (hMmc : s.dfu.mmc = ⟨0, fun _ => zero⟩) :
    ∃ s', thorDownload t total s = some (true, s') ∧
      s'.dfu.mmc.parts (t.part s.dfu.mmc) = zero := by
  have hPos : 0 < packetSize := by decide
  have hStart := wiping_start rfl hOffered hBuf hMmc
  have hFuel : total < 0 + packetSize * (total / packetSize + 1) := by
    rw [Nat.zero_add, Nat.mul_succ]
    exact Nat.lt_mul_div_succ total hPos
  have hTurns := fun rcvCnt off s (hInv : Wiping t size total rcvCnt off s)
    (hMore : packetSize ≤ total - rcvCnt) => wiping_turn h hWorks hLt hFits hSize hInv hMore
  obtain ⟨rcvCnt, off, s1, hLoop⟩ := headLoop_ends hTurns hStart (Nat.zero_le _) hFuel
  obtain ⟨⟨n, f, hTurn, hWiped⟩, hEnd⟩ := headLoop_keeps
    (fun rcvCnt off s hInv hMore => by
      obtain ⟨data, host, hHost, hLength, hWithin, hUnit⟩ := hTurns rcvCnt off s hInv hMore
      exact ⟨data, host, hHost, hLength, hWithin, fun hFull _ => (hUnit hFull).2⟩) hStart hLoop
  have hLe := hTurn.le
  rw [length_load] at hLe
  have hAll : rcvCnt = total := by
    have hRest := Nat.dvd_sub hPackets hTurn.packet
    grind [Nat.eq_zero_of_dvd_of_lt]
  subst hAll
  have hCnt : s1.cnt < 65535 := by
    rw [hTurn.cnt, storeUnitSize]
    omega
  have hGiven := hTurn.given
  have hOffLe := hTurn.off_le
  have hOffUnit : off < storeUnitSize := hTurn.off_eq ▸ Nat.mod_lt _ (by decide)
  have hBlocks : t.area.lbaBlkSize ∣ off := by
    rw [hTurn.off_eq]
    exact h.blkSize_dvd.trans
      ((Nat.dvd_mod_iff unit_blocks).mpr (Nat.dvd_trans (by decide) hTurn.packet))
  have hFill : ∀ chunk, Step.fill chunk ∈ tailSteps size f off s1.dfu.buf →
      t.area.lbaBlkSize ∣ chunk.length := fun chunk hIn => by
    rw [mem_tailSteps hIn, length_load]
    exact hBlocks
  have hSmall : f + filled (tailSteps size f off s1.dfu.buf) < 2 ^ 32 := by
    rw [filled_tailSteps]
    omega
  obtain ⟨x, hRun⟩ := runSteps_room h hWorks hTurn.whole hFill hSmall (by
    rw [filled_tailSteps]
    dsimp only
    omega)
  have hOk := downloadTail_room hTurn.expects hCnt (by omega) hRun
  obtain ⟨-, x', hSame, hTail⟩ := downloadTail_taken hTurn.expects hCnt hOk
  cases hRun.symm.trans hSame
  have hZero := hWiped.later hMore
  have hLeft := runSteps_zeros h hTurn.whole hFill
    (fun chunk hIn => by
      rw [mem_tailSteps hIn, hZero]
      exact zeros_of_load _) hSmall hZero hWiped.medium hRun
  have hPart : t.part s1.dfu.mmc = t.part s.dfu.mmc := by
    rw [Target.part, Target.part, hTurn.partNum, hMmc]
  have hHead : downloadHead t rcvCnt s = some ((rcvCnt : Int), off, s1) := by
    rw [downloadHead, hOffered.dfuBuf, Option.bind_some, hLoop, Option.bind_some]
    dsimp only
    rw [Nat.sub_self, if_neg (not_not_intro rfl), Nat.zero_add]
  refine ⟨{ s1 with dfu := (downloadTail t off s1.cnt s1.dfu).2 }, ?_, ?_⟩
  · rw [thorDownload, hHead, Option.map_some]
    dsimp only
    rw [if_neg (by omega), hOk]
    rfl
  · dsimp only
    rw [hTail, ← hPart]
    exact hLeft.2

end

theorem card_strictTarget {area : Area} (hBlk : area.lbaBlkSize ∣ 512) (size : Nat) :
    Card (strictTarget area size) where
  blkSize_dvd := hBlk
  few := fun start count hSome hBig => by
    have hEnd := area.end_lt
    refine lt_of_eq_of_lt (if_neg ?_) hSome
    omega
  errors := fun _ => le_refl _

/-- A file of packets of full size that fits the area is stored only if no store unit waits in the
buffer while packets come. -/
theorem noneWaits_of_storesFile {area : Area} {size total : Nat} (hBlk : area.lbaBlkSize ∣ 512)
    (hLt : total < 2 ^ 31) (hPackets : packetSize ∣ total) (hFits : total ≤ area.bytes)
    (hStores : StoresFile area size total) : NoneWaits size total := by
  by_contra hWaits
  rw [NoneWaits, not_or] at hWaits
  let t := strictTarget area size
  let s : Thor :=
    { dfu := ⟨⟨0, 0, marked 0, ⟨0, fun _ => zero⟩⟩, 0, 0, false, some size⟩
      host := packets total (load (marked 0) 0 total)
      placed := []
      cnt := 0 }
  have hLength : (load (marked 0) 0 total).length = total := length_load ..
  have hOffered : Offered t size (load (marked 0) 0 total) s :=
    ⟨rfl, rfl, rfl, by rw [hLength], rfl, rfl⟩
  have hCard : Card t := card_strictTarget hBlk size
  obtain ⟨s', hRun, hZero⟩ := thor_wipes hCard (works_strictTarget area size) hLt hPackets
    (Nat.not_le.mp hWaits.1) hFits (Nat.not_lt.mp hWaits.2) hOffered rfl rfl
  obtain ⟨-, hLoad, -⟩ := hStores t s s' _ rfl hCard hLength hOffered hRun
  -- the first byte of the file is a one
  obtain ⟨k, rfl⟩ := Nat.exists_eq_add_of_le' (show 1 ≤ total by omega)
  rw [hZero, load_succ, load_succ] at hLoad
  exact absurd (List.cons.inj hLoad).1 (show (0 : UInt8) ≠ 1 by decide)

/-- A THOR download stores the file exactly if no store unit waits in the buffer while packets
come, or it does not report success anyway: the file is not made of packets of full size, or it
does not fit the area. -/
theorem thor_download_iff {area : Area} {size total : Nat} (hBlk : area.lbaBlkSize ∣ 512)
    (hSome : 1 ≤ total) (hLt : total < 2 ^ 31) :
    StoresFile area size total ↔
      total ≤ storeUnitSize ∨ size < 2 * storeUnitSize ∨ ¬packetSize ∣ total ∨
        area.bytes < total := by
  constructor
  · intro hStores
    by_cases hPackets : packetSize ∣ total
    · rcases Nat.lt_or_ge area.bytes total with hSmall | hFits
      · exact .inr (.inr (.inr hSmall))
      · rcases noneWaits_of_storesFile hBlk hLt hPackets hFits hStores with hOne | hSize
        · exact .inl hOne
        · exact .inr (.inl hSize)
    · exact .inr (.inr (.inl hPackets))
  · intro hGood
    refine storesFile_of hSome hLt fun hPackets hFits => ?_
    rcases hGood with hOne | hSize | hNot | hSmall
    · exact .inl hOne
    · exact .inr hSize
    · exact absurd hPackets hNot
    · exact absurd hSmall (Nat.not_lt.mpr hFits)

def gigabyte : Area := ⟨4096, 2 ^ 21, 512, some 0, sector_pow, by decide⟩

/-- With the default buffer a file of two megabytes is stored. -/
theorem thor_download_small : StoresFile gigabyte dataBufSize (2 * packetSize) :=
  (thor_download_iff (Nat.dvd_refl _) (by decide) (by decide)).mpr (.inl (by decide))

/-- A file of one packet more than a store unit, through a buffer of two store units. -/
theorem thor_download_overwritten :
    ¬StoresFile gigabyte (2 * storeUnitSize) (storeUnitSize + packetSize) := fun hStores =>
  absurd (noneWaits_of_storesFile (Nat.dvd_refl _) (by decide) (by decide) (by decide) hStores)
    (fun hNone => hNone.elim (by decide) (by decide))

end Fire3.Dfu

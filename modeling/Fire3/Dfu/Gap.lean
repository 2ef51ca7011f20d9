import Fire3.Dfu.Drain
import Mathlib.Data.List.SplitLengths

/-!
When a DFU download to a raw area is contiguous.

Behind a drain that ends within a block the next one leaves a gap. So the chunks stand on the
medium without a gap exactly if each drain that is followed by more bytes is made of whole blocks;
which bytes are drained together depends on the sizes of the chunks and of the buffer only.
-/

namespace Fire3.Dfu
open ByteMemory Align

/-- Where the first gap of a download begins: behind the first drain that is not of whole blocks. -/
def gap (blkSize : Nat) : List Nat → Nat
  | [] => 0
  | n :: ns => if blkSize ∣ n then n + gap blkSize ns else n

theorem wholeButLast_of_zero {blkSize : Nat} {ns : List Nat} (h : ∀ k ∈ ns, k = 0) :
    WholeButLast blkSize ns := by
  induction ns with
  | nil => trivial
  | cons n ns ih =>
      rw [List.forall_mem_cons] at h
      exact ⟨.inr h.2, ih h.2⟩

theorem gap_lt_sum {blkSize : Nat} {ns : List Nat} (h : ¬WholeButLast blkSize ns) :
    gap blkSize ns < ns.sum := by
  induction ns with
  | nil => exact absurd trivial h
  | cons n ns ih =>
      rw [gap, List.sum_cons]
      split
      · rename_i hBlocks
        have hRest := ih fun hRest => h ⟨.inl hBlocks, hRest⟩
        omega
      · -- something follows the drain
        have hMore : ns.sum ≠ 0 := fun hZero => by
          rw [List.sum_eq_zero_iff_forall_eq_nat] at hZero
          exact h ⟨.inr hZero, wholeButLast_of_zero hZero⟩
        omega

theorem length_le_gap {blkSize : Nat} {held : List UInt8} {steps : List Step}
    (h : ¬WholeButLast blkSize ((pieces held steps).map List.length)) :
    held.length ≤ gap blkSize ((pieces held steps).map List.length) := by
  induction steps generalizing held with
  | nil => exact absurd trivial h
  | cons step steps ih =>
      cases step with
      | fill chunk =>
          have hMore := @ih (held ++ chunk) h
          rw [List.length_append] at hMore
          exact Nat.le_of_add_right_le hMore
      | drain =>
          rw [pieces, List.map_cons, gap]
          split <;> omega

theorem held_prefix {held : List UInt8} {steps : List Step} (h : pieces held steps ≠ []) :
    held <+: (pieces held steps).flatten := by
  induction steps generalizing held with
  | nil => exact absurd rfl h
  | cons step steps ih =>
      cases step with
      | fill chunk => exact (List.prefix_append held chunk).trans (@ih (held ++ chunk) h)
      | drain => exact List.prefix_append ..

theorem store_zeros (a : Nat) {bs : List UInt8} (hZero : ∀ b ∈ bs, b = 0) :
    store zero a bs = zero := by
  funext x
  by_cases hLow : x < a
  · exact store_below zero a bs x hLow
  · by_cases hHigh : x < a + bs.length
    · have hByte := getElem?_of_store zero a bs x (Nat.not_lt.mp hLow) hHigh
      exact hZero _ (List.mem_of_getElem? hByte)
    · exact store_above zero a bs x (Nat.not_lt.mp hHigh)

theorem zeros_of_load (n : Nat) : ∀ b ∈ load zero 0 n, b = 0 := by
  simp [load, zero]

section
variable {t : Target} (h : Works t)
  (hRefuses : ∀ start count, t.area.lbaStart + t.area.lbaSize < start + count →
    t.answers.written start count = 0)
include h hRefuses

theorem runSteps_drain {steps : List Step} {x x' : Transfer}
    (hRun : runSteps t (.drain :: steps) x = some x') (hOffset : t.area.lbaBlkSize ∣ x.offset)
    (hIn : x.offset ≤ t.area.bytes) (hSome : 0 < x.iBuf) (hLength : x.iBuf ≤ t.area.bytes) :
    runSteps t steps (afterDrain t x) = some x' ∧
      t.area.lbaBlkSize ∣ (afterDrain t x).offset ∧ (afterDrain t x).offset ≤ t.area.bytes := by
  rw [runSteps, Step.run] at hRun
  by_cases hOk : (dfuWriteBufferDrain t x).1 = 0
  · have hFits := fits_of_drain h hRefuses hOffset hIn hSome hLength hOk
    rw [drain_ok h hOffset hSome hLength hFits] at hRun
    exact ⟨hRun, Nat.dvd_add hOffset (dvd_align t.area.two_pow (t.area.add_le hLength)), hFits⟩
  · grind

theorem kept_below {steps : List Step} {x x' : Transfer} (hRun : runSteps t steps x = some x')
    (hOffset : t.area.lbaBlkSize ∣ x.offset) (hIn : x.offset ≤ t.area.bytes)
    (hLength : (pieces (load x.buf 0 x.iBuf) steps).flatten.length ≤ t.area.bytes) {a : Nat}
    (ha : a < t.area.base + x.offset) :
    x'.mmc.parts (t.part x.mmc) a = x.mmc.parts (t.part x.mmc) a := by
  induction steps generalizing x with
  | nil => rw [← Option.some.inj hRun]
  | cons step steps ih =>
      cases step with
      | fill chunk =>
          rw [pieces, ← load_filled] at hLength
          exact @ih { x with buf := store x.buf x.iBuf chunk, iBuf := x.iBuf + chunk.length }
            hRun hOffset hIn hLength ha
      | drain =>
          rw [pieces, List.flatten_cons, List.length_append, length_load] at hLength
          rcases Nat.eq_zero_or_pos x.iBuf with hNone | hSome
          · grind [runSteps, Step.run, drain_idle, load_zero]
          · obtain ⟨hRest, hNext, hEnd⟩ :=
              runSteps_drain h hRefuses hRun hOffset hIn hSome (by omega)
            have hMore : a < t.area.base + (afterDrain t x).offset :=
              ha.trans_le (Nat.add_le_add_left (Nat.le_add_right ..) _)
            refine (@ih (afterDrain t x) hRest hNext hEnd ?_ hMore).trans ?_
            · change (pieces [] steps).flatten.length ≤ _
              omega
            · change (afterDrain t x).mmc.parts (t.part x.mmc) a = _
              rw [afterDrain_medium, store_below _ _ _ _ ha]

theorem byte_at_gap {steps : List Step} {x x' : Transfer} (hRun : runSteps t steps x = some x')
    (hBuf : x.buf = zero) (hMedium : x.mmc.parts (t.part x.mmc) = zero)
    (hOffset : t.area.lbaBlkSize ∣ x.offset) (hIn : x.offset ≤ t.area.bytes)
    {ps : List (List UInt8)} (hPieces : pieces (load x.buf 0 x.iBuf) steps = ps)
    (hLength : ps.flatten.length ≤ t.area.bytes)
    (hOdd : ¬WholeButLast t.area.lbaBlkSize (ps.map List.length))
    (hZero : ∀ j < gap t.area.lbaBlkSize (ps.map List.length), ps.flatten[j]? = some 0) :
    x'.mmc.parts (t.part x.mmc)
      (t.area.base + (x.offset + gap t.area.lbaBlkSize (ps.map List.length))) = 0 := by
  induction steps generalizing x ps with
  | nil =>
      subst hPieces
      exact absurd trivial hOdd
  | cons step steps ih =>
      cases step with
      | fill chunk =>
          rw [pieces, ← load_filled] at hPieces
          have hHeld :
              load (store x.buf x.iBuf chunk) 0 (x.iBuf + chunk.length) <+: ps.flatten := by
            rw [← hPieces]
            refine held_prefix fun hNil => hOdd ?_
            rw [← hPieces, hNil]
            trivial
          have hLe : x.iBuf + chunk.length ≤ gap t.area.lbaBlkSize (ps.map List.length) := by
            rw [← hPieces] at hOdd ⊢
            simpa using length_le_gap hOdd
          have hChunk : ∀ b ∈ chunk, b = 0 := by
            intro b hb
            obtain ⟨j, hj, rfl⟩ := List.mem_iff_getElem.mp hb
            have hByte := hZero (x.iBuf + j) (by omega)
            rw [load_filled] at hHeld
            obtain ⟨tail, hTail⟩ := hHeld
            rw [← hTail, List.getElem?_append_left (by simp; omega),
              List.getElem?_append_right (by simp), length_load, Nat.add_sub_cancel_left,
              List.getElem?_eq_getElem hj] at hByte
            exact Option.some.inj hByte
          refine @ih { x with buf := store x.buf x.iBuf chunk, iBuf := x.iBuf + chunk.length }
            hRun ?_ hMedium hOffset hIn ps hPieces hLength hOdd hZero
          rw [hBuf]
          exact store_zeros _ hChunk
      | drain =>
          rw [pieces] at hPieces
          subst hPieces
          rw [List.flatten_cons, List.length_append, length_load] at hLength
          rw [List.map_cons, length_load] at hOdd hZero ⊢
          rw [List.flatten_cons] at hZero
          rcases Nat.eq_zero_or_pos x.iBuf with hNone | hSome
          · -- an empty drain, of no blocks
            rw [runSteps, Step.run, drain_idle hNone] at hRun
            rw [hNone, gap, if_pos (Nat.dvd_zero _), Nat.zero_add] at hZero ⊢
            rw [hNone] at hOdd hLength
            rw [load_zero, List.nil_append] at hZero
            refine @ih x hRun hBuf hMedium hOffset hIn (pieces [] steps) ?_ (by omega) ?_ hZero
            · rw [hNone, load_zero]
            · exact fun hRest => hOdd ⟨.inl (Nat.dvd_zero _), hRest⟩
          · obtain ⟨hRest, hNext, hEnd⟩ :=
              runSteps_drain h hRefuses hRun hOffset hIn hSome (by omega)
            have hAfter : (afterDrain t x).mmc.parts (t.part x.mmc) = zero := by
              rw [afterDrain_medium, hMedium, hBuf]
              exact store_zeros _ (zeros_of_load _)
            have hWord := t.area.add_le (show x.iBuf ≤ t.area.bytes by omega)
            rw [gap] at hZero ⊢
            by_cases hBlocks : t.area.lbaBlkSize ∣ x.iBuf
            · rw [if_pos hBlocks] at hZero ⊢
              have hLater := @ih (afterDrain t x) hRest hBuf hAfter hNext hEnd (pieces [] steps) rfl
                (by omega) (fun hRest => hOdd ⟨.inl hBlocks, hRest⟩) (fun j hj => ?_)
              · have hStep : (afterDrain t x).offset = x.offset + x.iBuf :=
                  congrArg (x.offset + ·) (align_of_dvd t.area.two_pow hWord hBlocks)
                rw [hStep, Nat.add_assoc] at hLater
                exact hLater
              · have hByte := hZero (x.iBuf + j) (by omega)
                rw [List.getElem?_append_right (by simp), length_load, Nat.add_sub_cancel_left]
                  at hByte
                exact hByte
            · rw [if_neg hBlocks]
              have hLe := le_align t.area.two_pow hWord
              have hNe : align x.iBuf t.area.lbaBlkSize ≠ x.iBuf := fun hEq =>
                hBlocks (hEq ▸ dvd_align t.area.two_pow hWord)
              have hBelow : t.area.base + (x.offset + x.iBuf) <
                  t.area.base + (afterDrain t x).offset := by
                change _ < t.area.base + (x.offset + align x.iBuf t.area.lbaBlkSize)
                omega
              have hKept := kept_below h hRefuses hRest hNext hEnd
                (show (pieces [] steps).flatten.length ≤ _ by omega) hBelow
              change x'.mmc.parts (t.part x.mmc) _ = (afterDrain t x).mmc.parts (t.part x.mmc) _
                at hKept
              rw [hKept, hAfter]
              rfl

end

def strictTarget (area : Area) (size : Nat) : Target where
  area := area
  answers :=
    { found := true
      switchPart := fun _ => 0
      written := fun start count =>
        if start + count ≤ area.lbaStart + area.lbaSize then count else 0 }
  bufsiz := some size
  maxBufSize := 0
  memalign := true

theorem works_strictTarget (area : Area) (size : Nat) : Works (strictTarget area size) where
  found := rfl
  switches := fun _ => rfl
  takes := fun _ _ _ hEnd => (if_pos hEnd).ge

def marked (g : Nat) : Mem := fun i => if i = g then 1 else 0

theorem whole_of_contiguous {area : Area} {size : Nat} {sizes : List Nat}
    (hFit : ∀ n ∈ sizes, n ≤ size) (hArea : sizes.sum ≤ area.bytes)
    (hContiguous : Contiguous area size sizes) :
    WholeButLast area.lbaBlkSize (drained size 0 sizes) := by
  by_contra hOdd
  let t := strictTarget area size
  let idle : DfuEntity := ⟨⟨0, 0, zero, ⟨0, fun _ => zero⟩⟩, 0, 0, false, some size⟩
  set g := gap area.lbaBlkSize (drained size 0 sizes) with hg
  let data := load (marked g) 0 sizes.sum
  let chunks := sizes.splitLengths data
  have hSizes : chunks.map List.length = sizes := List.map_splitLengths_length _ _ (by simp [data])
  have hData : chunks.flatten = data := List.flatten_splitLengths _ _ (by simp [data])
  obtain ⟨hBytes, hLengths⟩ := pieces_plan_empty size chunks
  rw [hData] at hBytes
  rw [hSizes] at hLengths
  have hLength : data.length = sizes.sum := length_load ..
  have hSum : (drained size 0 sizes).sum = sizes.sum := by
    rw [← hLengths, ← List.length_flatten, hBytes, hLength]
  have hLt : g < sizes.sum := hSum ▸ gap_lt_sum hOdd
  obtain ⟨mmc, hOutcome, hLoad⟩ := hContiguous t idle chunks rfl (works_strictTarget area size) rfl
    rfl rfl hSizes
  rw [outcome_download_fresh rfl rfl rfl fun c hc => hFit _ (hSizes ▸ List.mem_map_of_mem hc)]
    at hOutcome
  obtain ⟨x', hRun, rfl⟩ := Option.map_eq_some_iff.mp hOutcome
  have hRefuses : ∀ start count, t.area.lbaStart + t.area.lbaSize < start + count →
      t.answers.written start count = 0 := fun start count hOut => if_neg (Nat.not_le.mpr hOut)
  have hByte := @byte_at_gap t (works_strictTarget area size) hRefuses _ _ _ hRun rfl rfl
    (Nat.dvd_zero _) (Nat.zero_le _) (pieces [] (plan size 0 chunks)) rfl
  rw [hBytes, hLengths, hLength] at hByte
  -- the byte behind the gap is where the marked one should be
  have hZero := hByte hArea hOdd fun j (hj : j < g) => ?_
  · have hMark : x'.mmc.parts (t.part idle.mmc) (area.base + g) = 1 := by
      rw [hData, ← hLength, load_eq_iff] at hLoad
      rw [hLoad g (by omega), getElem_load]
      simp [marked]
    rw [Nat.zero_add] at hZero
    exact absurd (hMark.symm.trans hZero) (by decide)
  · have hj' : j < data.length := by omega
    rw [List.getElem?_eq_getElem hj', getElem_load, Nat.zero_add, marked, if_neg (by omega)]

/-- A download of chunks that each fit the buffer, to an area with room for them, is contiguous
exactly if every drain that is followed by more bytes is made of whole blocks. -/
theorem dfu_download_iff {area : Area} {size : Nat} {sizes : List Nat}
    (hFit : ∀ n ∈ sizes, n ≤ size) (hArea : sizes.sum ≤ area.bytes) :
    Contiguous area size sizes ↔ WholeButLast area.lbaBlkSize (drained size 0 sizes) :=
  ⟨whole_of_contiguous hFit hArea, contiguous_of_whole hFit hArea⟩

def sixteenBlocks : Area := ⟨2048, 16, 512, none, ⟨9, by decide, rfl⟩, by decide⟩

/-- Two chunks fill the buffer, and a short one follows. -/
theorem dfu_download_short_last :
    Contiguous sixteenBlocks 1024 [512, 512, 100] ∧
      WholeButLast 512 (drained 1024 0 [512, 512, 100]) := by
  have hWhole : WholeButLast 512 (drained 1024 0 [512, 512, 100]) := by decide
  exact ⟨(dfu_download_iff (by decide) (by decide)).mpr hWhole, hWhole⟩

/-- Two chunks that do not fit the buffer together: the second starts at the next block. -/
theorem dfu_download_gap : ¬Contiguous sixteenBlocks 1024 [700, 700] := fun h =>
  absurd (whole_of_contiguous (by decide) (by decide) h) (by decide)

end Fire3.Dfu

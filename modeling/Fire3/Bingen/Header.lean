import Fire3.Bingen.NsihText

/-!
What the builders share: the sizes they compute, and the buffer after the header has
been patched.
-/

namespace Fire3.Bingen
open ByteMemory CString

section

variable {headerSize outputSize n : Nat} {cpu : Chip} {option : BootType}

theorem imageSize_bounds (hHeader : headerSize ≤ 1024)
    (h : imageSize headerSize cpu option n = some outputSize) (hSize : outputSize ≠ 0) :
    outputSize < 2 ^ 32 ∧ (n + headerSize < 2 ^ 32 → n + headerSize ≤ outputSize) ∧
      (outputSize = (n + headerSize) % 2 ^ 32 ∨ 16384 ≤ outputSize) := by
  unfold imageSize nxp4330SramSize nxp5430SramSize s5p4418SramSize rombootStackSize at h
  cases option with
  | unknown => exact absurd (Option.some.inj h).symm hSize
  | thirdBoot =>
      simp only [Option.some.injEq] at h
      omega
  | secondBoot =>
      cases cpu with
      | unknown => exact absurd (Option.some.inj h).symm hSize
      | nxp4330 =>
          simp only [Option.ite_none_left_eq_some, Option.some.injEq] at h
          omega
      | nxp5430 | s5p6818 =>
          simp only [Option.ite_none_left_eq_some, Option.some.injEq] at h
          omega
      | s5p4418 =>
          simp only [Option.ite_none_left_eq_some] at h
          obtain ⟨hMax, hOut⟩ := h
          split at hOut <;> simp only [Option.some.injEq] at hOut <;> omega

theorem outputSizeCalcurate_bounds (hHeader : headerSize ≤ 1024)
    (h : outputSizeCalcurate headerSize cpu option n = some outputSize) :
    outputSize < 2 ^ 32 ∧ 16368 < outputSize ∧
      (n + headerSize < 2 ^ 32 → n + headerSize ≤ outputSize) ∧
      (n + headerSize ≤ 16368 → 16384 ≤ outputSize) := by
  obtain ⟨size, hSize, hOut⟩ := Option.bind_eq_some_iff.mp h
  obtain ⟨hZero, hOut⟩ := Option.ite_none_left_eq_some.mp hOut
  obtain ⟨hWord, hHolds, hExact⟩ := imageSize_bounds hHeader hSize hZero
  have hSram : nxp4330SramSize = 16384 := rfl
  by_cases hSmall : size ≤ nxp4330SramSize - 16
  · grind
  · grind

end

section

structure Layout.Valid (l : Layout) : Prop where
  headerSize : nsihSize ≤ l.headerSize ∧ l.headerSize ≤ 1024
  loadsize : l.loadsizeAt + 4 ≤ l.crcAt
  crc : l.crcAt + 4 ≤ signatureAt

theorem bootLayout_valid : bootLayout.Valid := ⟨by decide, by decide, by decide⟩

theorem secureLayout_valid : secureLayout.Valid := ⟨by decide, by decide, by decide⟩

structure Layout.Sets (l : Layout) (n : Nat) (fields : List Patch) : Prop where
  inside : ∀ q ∈ fields, q.1 + q.2.length ≤ nsihSize
  order : ∃ pre post, fields =
    pre ++ (l.loadsizeAt, leBytes 4 n) :: (post ++ [(signatureAt, headerId)]) ∧
      ∀ q ∈ post, l.loadsizeAt + 4 ≤ q.1

def Layout.buffer (l : Layout) (header payload : List UInt8) : Mem :=
  store (store zero 0 header) l.headerSize payload

structure Configured (l : Layout) (header payload : List UInt8) (fields : List Patch) (m : Mem) :
    Prop where
  whole : load m l.headerSize payload.length = payload
  loadsize : readLE m l.loadsizeAt 4 = payload.length
  signature : load m signatureAt 4 = headerId
  crc : readLE m l.crcAt 4 = (crcOf l.poly (payload.take (toS32 payload.length).toNat)).toNat
  patched : ∀ x < nsihSize, ¬(l.crcAt ≤ x ∧ x < l.crcAt + 4) →
    m x = patchAll (l.buffer header payload) fields x

variable {l : Layout} {header payload : List UInt8} {fields : List Patch}

theorem toS32_toNat_le {n : Nat} (h : n < 2 ^ 32) : (toS32 n).toNat ≤ n := by
  unfold toS32
  rw [Int.bmod_def]
  split <;> omega

theorem configured_configure (valid : l.Valid) (hSize : payload.length < 2 ^ 32)
    (hSets : l.Sets payload.length fields) :
    Configured l header payload fields
      (l.configure fields payload.length (l.buffer header payload)) := by
  obtain ⟨pre, post, hOrder, hPost⟩ := hSets.order
  obtain ⟨⟨hLow, hHigh⟩, hLoad, hCrc⟩ := valid
  have hSig : signatureAt + 4 = nsihSize := rfl
  generalize hPatched : patchAll (l.buffer header payload) fields = b
  have hWhole : load b l.headerSize payload.length = payload := by
    rw [← hPatched, load_patchAll_uncovered]
    · exact load_store_same _ _ _
    · intro q hq x hx _ hCovers
      have hInside := hSets.inside q hq
      unfold Patch.Covers at hCovers
      omega
  have hLoadsize : load b l.loadsizeAt 4 = leBytes 4 payload.length := by
    have hLater : ∀ q ∈ post ++ [(signatureAt, headerId)], ∀ x,
        Patch.Covers (l.loadsizeAt, leBytes 4 payload.length) x → ¬Patch.Covers q x := by
      intro q hq x hx hCovers
      have hBehind : l.loadsizeAt + 4 ≤ q.1 := by
        grind
      grind [Patch.Covers, length_leBytes]
    have hFound := load_patchAll_found (l.buffer header payload) pre _ hLater
    rwa [← hOrder, hPatched, length_leBytes] at hFound
  have hSignature : load b signatureAt 4 = headerId := by
    have hFound := @load_patchAll_found (l.buffer header payload)
      (pre ++ (l.loadsizeAt, leBytes 4 payload.length) :: post) (signatureAt, headerId) []
      (by simp)
    rw [List.append_assoc, List.cons_append, ← hOrder, hPatched] at hFound
    exact hFound
  have hCrcOf : calcCrc l.poly b l.headerSize (toS32 payload.length) =
      crcOf l.poly (payload.take (toS32 payload.length).toNat) := by
    have hTake := load_take_drop b l.headerSize
      (show 0 + (toS32 payload.length).toNat ≤ payload.length by
        have := toS32_toNat_le hSize
        omega)
    rw [hWhole, List.drop_zero, Nat.add_zero] at hTake
    rw [calcCrc, hTake]
  simp only [Layout.configure, hPatched]
  refine ⟨?_, ?_, ?_, ?_, ?_⟩
  · grind [writeLE, load_store_disjoint, length_leBytes]
  · rw [writeLE, readLE_store_disjoint _ _ _ _ _ (by rw [length_leBytes]; omega), readLE, hLoadsize,
      leValue_leBytes, Nat.mod_eq_of_lt (show payload.length < 256 ^ 4 from hSize)]
  · grind [writeLE, load_store_disjoint, length_leBytes]
  · rw [readLE_writeLE_same, hCrcOf]
    exact Nat.mod_eq_of_lt (UInt32.toNat_lt _)
  · intro x _ hx
    rw [writeLE, hPatched]
    by_cases hBelow : x < l.crcAt
    · exact store_below _ _ _ _ hBelow
    · grind [store_above, length_leBytes]

theorem Configured.store_behind {m : Mem} (h : Configured l header payload fields m)
    (valid : l.Valid) {a : Nat} (ha : l.headerSize + payload.length ≤ a) (bytes : List UInt8) :
    Configured l header payload fields (store m a bytes) := by
  obtain ⟨⟨hLow, -⟩, hLoad, hCrc⟩ := valid
  have hSig : signatureAt + 4 = nsihSize := rfl
  refine ⟨?_, ?_, ?_, ?_, fun x hx hOut => ?_⟩
  · rw [load_store_disjoint _ _ _ _ _ (Or.inl ha), h.whole]
  · rw [readLE_store_disjoint _ _ _ _ _ (Or.inl (by omega)), h.loadsize]
  · rw [load_store_disjoint _ _ _ _ _ (Or.inl (by omega)), h.signature]
  · rw [readLE_store_disjoint _ _ _ _ _ (Or.inl (by omega)), h.crc]
  · rw [store_below _ _ _ _ (by omega), h.patched x hx hOut]

theorem getElem?_header (valid : l.Valid) (hHeader : header.length = nsihSize) {x : Nat}
    (hx : x < nsihSize) : header[x]? = some (l.buffer header payload x) := by
  have hFound := getElem?_of_store zero 0 header x (Nat.zero_le x) (by omega)
  rw [Layout.buffer, store_below _ _ _ _ (Nat.lt_of_lt_of_le hx valid.headerSize.1)]
  simpa using hFound

theorem crcOf_take_iff (poly : UInt32) (hSize : payload.length < 2 ^ 32) :
    crcOf poly (payload.take (toS32 payload.length).toNat) = crcOf poly payload ↔
      payload.length < 2 ^ 31 ∨ crcOf poly payload = 0 := by
  by_cases hSmall : payload.length < 2 ^ 31
  · rw [toS32_of_lt hSmall, Int.toNat_natCast, List.take_length]
    exact iff_of_true rfl (Or.inl hSmall)
  · have hNegative : (toS32 payload.length).toNat = 0 := by
      unfold toS32
      rw [Int.bmod_def]
      split <;> omega
    rw [hNegative, List.take_zero, or_iff_right hSmall]
    exact eq_comm

end

section

variable {l : Layout} {config : Nat → Mem → Mem} {cpu : Chip} {option : BootType}
  {nsih payload : List UInt8} {outputSize : Nat}

theorem bootBingen_written (valid : l.Valid) (hText : (processNsih nsih).length = nsihSize)
    (hSize : payload.length + l.headerSize < 2 ^ 32)
    (accepted : outputSizeCalcurate l.headerSize cpu option (payload.length % 2 ^ 32) =
      some outputSize) :
    bootBingen l.headerSize config cpu option nsih payload =
      .written (load (config payload.length (l.buffer (processNsih nsih) payload)) 0 outputSize) := by
  have hMod : payload.length % 2 ^ 32 = payload.length := Nat.mod_eq_of_lt (by omega)
  obtain ⟨-, hLow, hHolds, -⟩ := outputSizeCalcurate_bounds valid.headerSize.2 accepted
  rw [hMod] at hHolds
  have hFit := hHolds hSize
  have hNsih : nsihSize = 512 := rfl
  simp only [bootBingen, accepted, hText]
  rw [if_neg (by omega), if_neg (by simp), hMod, if_neg (by omega), List.take_length]
  rfl

theorem bootBingen_overrun (valid : l.Valid) (hText : (processNsih nsih).length = nsihSize)
    (hWord : payload.length < 2 ^ 32) (hSize : 2 ^ 32 ≤ payload.length + l.headerSize)
    (accepted : outputSizeCalcurate l.headerSize cpu option (payload.length % 2 ^ 32) =
      some outputSize) :
    bootBingen l.headerSize config cpu option nsih payload = .overrun := by
  obtain ⟨hHigh, hLow, -, -⟩ := outputSizeCalcurate_bounds valid.headerSize.2 accepted
  have hMod : payload.length % 2 ^ 32 = payload.length := Nat.mod_eq_of_lt hWord
  have hNsih : nsihSize = 512 := rfl
  simp only [bootBingen, accepted, hText]
  grind

end

end Fire3.Bingen

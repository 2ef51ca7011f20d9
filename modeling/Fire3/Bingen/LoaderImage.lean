import Fire3.Bingen.Header

/-!
Images a loader accepts: the payload behind the header, and a header that says so.

`BOOT_BINGEN` writes such an image unless the payload is too long for its 32-bit
sizes or for the signed length of the CRC.
-/

namespace Fire3.Bingen
open ByteMemory CString

def block (file : List UInt8) (a n : Nat) : List UInt8 := (file.drop a).take n

def Layout.Computed (l : Layout) (x : Nat) : Prop :=
  (l.loadsizeAt ≤ x ∧ x < l.loadsizeAt + 4) ∨ (l.crcAt ≤ x ∧ x < l.crcAt + 4) ∨
    (signatureAt ≤ x ∧ x < signatureAt + 4)

structure LoaderImage (l : Layout) (header : List UInt8) (given : List Patch)
    (payload file : List UInt8) : Prop where
  whole : block file l.headerSize payload.length = payload
  loadsize : leValue (block file l.loadsizeAt 4) = payload.length
  signature : block file signatureAt 4 = headerId
  crc : leValue (block file l.crcAt 4) = (crcOf l.poly payload).toNat
  kept : ∀ x < nsihSize, ¬l.Computed x → (∀ p ∈ given, ¬p.Covers x) → file[x]? = header[x]?

theorem block_load {m : Mem} {outputSize a n : Nat} (h : a + n ≤ outputSize) :
    block (load m 0 outputSize) a n = load m a n := by
  rw [block, load_take_drop m 0 h, Nat.zero_add]

theorem getElem?_load {m : Mem} {n x : Nat} (h : x < n) : (load m 0 n)[x]? = some (m x) := by
  rw [List.getElem?_eq_getElem (by simpa using h), getElem_load, Nat.zero_add]

section

variable {l : Layout} {header payload : List UInt8} {fields given : List Patch} {m : Mem}
  {outputSize : Nat}

def Kept (l : Layout) (header payload : List UInt8) (fields given : List Patch) : Prop :=
  ∀ x < nsihSize, ¬l.Computed x → (∀ p ∈ given, ¬p.Covers x) →
    patchAll (l.buffer header payload) fields x = l.buffer header payload x

theorem Configured.loaderImage_iff (h : Configured l header payload fields m) (valid : l.Valid)
    (hHeader : header.length = nsihSize) (hSize : payload.length < 2 ^ 32)
    (hFit : payload.length + l.headerSize ≤ outputSize) :
    LoaderImage l header given payload (load m 0 outputSize) ↔
      (payload.length < 2 ^ 31 ∨ crcOf l.poly payload = 0) ∧ Kept l header payload fields given := by
  obtain ⟨⟨hLow, -⟩, hLoad, hCrc⟩ := id valid
  have hSig : signatureAt + 4 = nsihSize := rfl
  have hCrcField : leValue (block (load m 0 outputSize) l.crcAt 4) =
      (crcOf l.poly (payload.take (toS32 payload.length).toNat)).toNat := by
    rw [block_load (by omega)]
    exact h.crc
  have hByte : ∀ x < nsihSize, ¬l.Computed x →
      ((load m 0 outputSize)[x]? = header[x]? ↔
        patchAll (l.buffer header payload) fields x = l.buffer header payload x) := by
    intro x hx hComputed
    have hOut : ¬(l.crcAt ≤ x ∧ x < l.crcAt + 4) := fun hIn => hComputed (Or.inr (Or.inl hIn))
    rw [getElem?_load (by omega), getElem?_header valid hHeader hx, Option.some.injEq,
      h.patched x hx hOut]
  constructor
  · intro hImage
    refine ⟨(crcOf_take_iff l.poly hSize).mp ?_, fun x hx hComputed hGiven => ?_⟩
    · exact UInt32.toNat_inj.mp (hCrcField.symm.trans hImage.crc)
    · exact (hByte x hx hComputed).mp (hImage.kept x hx hComputed hGiven)
  · rintro ⟨hLength, hKept⟩
    refine ⟨?_, ?_, ?_, ?_, fun x hx hComputed hGiven => ?_⟩
    · rw [block_load (by omega), h.whole]
    · rw [block_load (by omega)]
      exact h.loadsize
    · rw [block_load (by omega), h.signature]
    · rw [hCrcField, (crcOf_take_iff l.poly hSize).mpr hLength]
    · exact (hByte x hx hComputed).mpr (hKept x hx hComputed hGiven)

theorem LoaderImage.length_lt {file : List UInt8}
    (h : LoaderImage l header given payload file) : payload.length < 2 ^ 32 := by
  have hBound := leValue_lt (block file l.loadsizeAt 4)
  have hLength : (block file l.loadsizeAt 4).length ≤ 4 := List.length_take_le _ _
  have hPow : 256 ^ (block file l.loadsizeAt 4).length ≤ 256 ^ 4 :=
    Nat.pow_le_pow_right (by decide) hLength
  rw [h.loadsize] at hBound
  exact Nat.lt_of_lt_of_le hBound hPow

theorem LoaderImage.size_lt {config : Nat → Mem → Mem} {cpu : Chip} {option : BootType}
    {nsih file : List UInt8} (h : LoaderImage l header given payload file) (valid : l.Valid)
    (hText : (processNsih nsih).length = nsihSize)
    (accepted : outputSizeCalcurate l.headerSize cpu option (payload.length % 2 ^ 32) =
      some outputSize)
    (hWritten : bootBingen l.headerSize config cpu option nsih payload = .written file) :
    payload.length + l.headerSize < 2 ^ 32 := by
  by_contra hLarge
  rw [bootBingen_overrun valid hText h.length_lt (Nat.not_lt.mp hLarge) accepted] at hWritten
  exact nomatch hWritten

theorem run_loaderImage_iff {config : Nat → Mem → Mem} {cpu : Chip} {option : BootType}
    {nsih file : List UInt8} (valid : l.Valid) (hText : (processNsih nsih).length = nsihSize)
    (accepted : outputSizeCalcurate l.headerSize cpu option (payload.length % 2 ^ 32) =
      some outputSize)
    (hConfig : payload.length + l.headerSize < 2 ^ 32 →
      Configured l (processNsih nsih) payload fields
        (config payload.length (l.buffer (processNsih nsih) payload))) :
    (bootBingen l.headerSize config cpu option nsih payload = .written file ∧
        LoaderImage l (processNsih nsih) given payload file) ↔
      load (config payload.length (l.buffer (processNsih nsih) payload)) 0 outputSize = file ∧
        payload.length + l.headerSize < 2 ^ 32 ∧
        (payload.length < 2 ^ 31 ∨ crcOf l.poly payload = 0) ∧
        Kept l (processNsih nsih) payload fields given := by
  have hImageIff : payload.length + l.headerSize < 2 ^ 32 →
      (LoaderImage l (processNsih nsih) given payload
        (load (config payload.length (l.buffer (processNsih nsih) payload)) 0 outputSize) ↔
        (payload.length < 2 ^ 31 ∨ crcOf l.poly payload = 0) ∧
          Kept l (processNsih nsih) payload fields given) := by
    intro hSize
    have hBounds := outputSizeCalcurate_bounds valid.headerSize.2 accepted
    rw [Nat.mod_eq_of_lt (by omega)] at hBounds
    exact (hConfig hSize).loaderImage_iff valid hText (by omega) (hBounds.2.2.1 hSize)
  constructor
  · rintro ⟨hWritten, hImage⟩
    have hSize := hImage.size_lt valid hText accepted hWritten
    grind [bootBingen_written, Outcome.written.injEq]
  · grind [bootBingen_written]

end

/-- The image `BOOT_BINGEN` writes, with the CRC of the first 16 KiB - 16 bytes behind them
where there is room for it. -/
def BootImage (o : BootOptions) (cpu : Chip) (option : BootType) (nsih payload : List UInt8) :
    Prop :=
  ∃ file, bootBingen bootLayout.headerSize o.nsihUserConfig cpu option nsih payload = .written file ∧
    LoaderImage bootLayout (processNsih nsih) (o.device ++ o.addresses) payload file ∧
    (payload.length + nsihSize ≤ nxp4330SramSize - 16 →
      leValue (block file (nxp4330SramSize - 16) 4) =
        (crcOf bootLayout.poly (file.take (nxp4330SramSize - 16))).toNat)

theorem fieldUnlessOnes_cases {v : UInt32} {field : Nat} {bytes : List UInt8} {q : Patch}
    (h : q ∈ fieldUnlessOnes v field bytes) : q = (field, bytes) := by
  unfold fieldUnlessOnes at h
  grind

theorem BootOptions.device_bounds {o : BootOptions} {q : Patch} (h : q ∈ o.device) :
    q.1 + q.2.length ≤ 0x51 := by
  rcases List.mem_append.mp h with h | h <;> rw [fieldUnlessOnes_cases h] <;> simp

theorem BootOptions.addresses_bounds {o : BootOptions} {q : Patch} (h : q ∈ o.addresses) :
    0x48 ≤ q.1 ∧ q.1 + q.2.length ≤ 0x50 := by
  rcases List.mem_append.mp h with h | h <;> rw [fieldUnlessOnes_cases h] <;> simp

theorem BootOptions.sets_fields (o : BootOptions) (n : Nat) : bootLayout.Sets n (o.fields n) := by
  refine ⟨fun q hq => ?_, o.device, o.addresses, rfl, fun q hq => (o.addresses_bounds hq).1⟩
  have hNsih : nsihSize = 512 := rfl
  rcases List.mem_append.mp hq with hq | hq
  · have := o.device_bounds hq
    omega
  · rcases List.mem_cons.mp hq with rfl | hq
    · simp [bootLayout, nsihSize]
    · rcases List.mem_append.mp hq with hq | hq
      · have := o.addresses_bounds hq
        omega
      · rw [List.mem_singleton.mp hq]
        decide

theorem BootOptions.kept (o : BootOptions) (header payload : List UInt8) (n : Nat) :
    Kept bootLayout header payload (o.fields n) (o.device ++ o.addresses) := by
  intro x hx hComputed hGiven
  refine patchAll_uncovered fun q hq hCovers => ?_
  rcases List.mem_append.mp hq with hq | hq
  · exact hGiven q (List.mem_append_left _ hq) hCovers
  · rcases List.mem_cons.mp hq with rfl | hq
    · rw [Patch.Covers, length_leBytes] at hCovers
      exact hComputed (Or.inl hCovers)
    · rcases List.mem_append.mp hq with hq | hq
      · grind
      · rw [List.mem_singleton.mp hq] at hCovers
        exact hComputed (Or.inr (Or.inr hCovers))

theorem BootOptions.configured (o : BootOptions) {header payload : List UInt8}
    (hSize : payload.length + bootLayout.headerSize < 2 ^ 32) :
    Configured bootLayout header payload (o.fields payload.length)
      (o.nsihUserConfig payload.length (bootLayout.buffer header payload)) := by
  have hHeader : bootLayout.headerSize = nsihSize := rfl
  have hConf : Configured bootLayout header payload (o.fields payload.length)
      (bootLayout.configure (o.fields payload.length) payload.length
        (bootLayout.buffer header payload)) :=
    configured_configure bootLayout_valid (by omega) (o.sets_fields payload.length)
  unfold BootOptions.nsihUserConfig
  split
  · rename_i hSmall
    rw [Nat.mod_eq_of_lt (by omega)] at hSmall
    exact hConf.store_behind bootLayout_valid (by omega) _
  · exact hConf

theorem BootOptions.sram_crc (o : BootOptions) {n outputSize : Nat} (buffer : Mem)
    (hSmall : n + nsihSize ≤ nxp4330SramSize - 16) (hOut : nxp4330SramSize ≤ outputSize) :
    leValue (block (load (o.nsihUserConfig n buffer) 0 outputSize) (nxp4330SramSize - 16) 4) =
      (crcOf bootLayout.poly
        ((load (o.nsihUserConfig n buffer) 0 outputSize).take (nxp4330SramSize - 16))).toNat := by
  have hSram : nxp4330SramSize = 16384 := rfl
  have hWord : (n + nsihSize) % 2 ^ 32 ≤ nxp4330SramSize - 16 := by omega
  generalize hFirst : bootLayout.configure (o.fields n) n buffer = m
  have hConfig : o.nsihUserConfig n buffer = writeLE m (nxp4330SramSize - 16) 4
      (crcOf bootLayout.poly (load m 0 (nxp4330SramSize - 16))).toNat := by
    simp only [BootOptions.nsihUserConfig, hFirst, if_pos hWord, calcCrc, Int.toNat_natCast]
  have hTake := load_take_drop (o.nsihUserConfig n buffer) 0
    (show 0 + (nxp4330SramSize - 16) ≤ outputSize by omega)
  rw [List.drop_zero] at hTake
  have hBefore : ∀ v, load (writeLE m (nxp4330SramSize - 16) 4 v) 0 (nxp4330SramSize - 16) =
      load m 0 (nxp4330SramSize - 16) :=
    fun v => load_store_disjoint _ _ _ _ _ (Or.inl (by omega))
  rw [block_load (by omega), hTake, hConfig, Nat.zero_add, hBefore]
  refine (readLE_writeLE_same _ _ _ _).trans ?_
  exact Nat.mod_eq_of_lt (UInt32.toNat_lt _)

theorem bootImage_iff (o : BootOptions) {cpu : Chip} {option : BootType}
    {nsih payload : List UInt8} (hText : (processNsih nsih).length = nsihSize)
    (accepted : (outputSizeCalcurate bootLayout.headerSize cpu option
      (payload.length % 2 ^ 32)).isSome) :
    BootImage o cpu option nsih payload ↔ payload.length + bootLayout.headerSize < 2 ^ 32 ∧
      (payload.length < 2 ^ 31 ∨ crcOf bootLayout.poly payload = 0) := by
  obtain ⟨outputSize, hOut⟩ := Option.isSome_iff_exists.mp accepted
  constructor
  · rintro ⟨file, hWritten, hImage, -⟩
    obtain ⟨-, hSize, hLength, -⟩ :=
      (run_loaderImage_iff bootLayout_valid hText hOut o.configured).mp ⟨hWritten, hImage⟩
    exact ⟨hSize, hLength⟩
  · rintro ⟨hSize, hLength⟩
    obtain ⟨hWritten, hImage⟩ :=
      (run_loaderImage_iff bootLayout_valid hText hOut o.configured).mpr
        ⟨rfl, hSize, hLength, o.kept _ _ _⟩
    refine ⟨_, hWritten, hImage, fun hSmall => ?_⟩
    have hBounds := outputSizeCalcurate_bounds bootLayout_valid.headerSize.2 hOut
    rw [Nat.mod_eq_of_lt (by omega)] at hBounds
    exact o.sram_crc _ hSmall (hBounds.2.2.2 hSmall)

end Fire3.Bingen

import Fire3.Bingen.LoaderImage

/-!
The images of `SECURE_BINGEN`, and of both tools together.

`SECURE_BINGEN` has the limits of `BOOT_BINGEN`, and it writes the fields `unified`
and `bootdev` of the header also when no option asks for it.
-/

namespace Fire3.Bingen
open ByteMemory CString

variable {o : SecureOptions} {x : Nat} {q : Patch}

def SecureOptions.given (o : SecureOptions) : List Patch :=
  o.addresses ++ (o.dbi ++ ((if o.unified then [(0x68, [1])] else []) ++
    o.bootdev.toList.map fun dev => (0x69, [dev])))

def SecureImage (o : SecureOptions) (cpu : Chip) (option : BootType) (nsih payload : List UInt8) :
    Prop :=
  ∃ file, bootBingen secureLayout.headerSize o.nsihUserConfig cpu option nsih payload =
      .written file ∧
    LoaderImage secureLayout (processNsih nsih) o.given payload file

theorem mem_dbiFields {α : Type} {field : Nat} {bytes : α → List UInt8} {values : List α}
    (h : q ∈ dbiFields field bytes values) :
    ∃ i < values.length, ∃ v, q = (0x80 + 0x20 * i + field, bytes v) := by
  obtain ⟨i, hi, rfl⟩ := List.mem_mapIdx.mp h
  exact ⟨i, hi, _, rfl⟩

theorem SecureOptions.dbi_bounds (h : q ∈ o.dbi) : 0x80 ≤ q.1 ∧ q.1 + q.2.length ≤ 0x100 := by
  obtain ⟨hAddr, hDev, hPort, hOfs, hSiz⟩ := o.entries
  have hRest : ∀ {α : Type} {field w : Nat} {bytes : α → List UInt8} {values : List α},
      q ∈ dbiFields field bytes values → values.length ≤ 4 → (∀ v, (bytes v).length = w) →
      field + w ≤ 0x20 → 0x80 ≤ q.1 ∧ q.1 + q.2.length ≤ 0x100 := by
    grind [mem_dbiFields]
  rcases List.mem_append.mp h with h | h
  · exact hRest h hAddr (fun _ => length_leBytes _ _) (by decide)
  · split at h
    · rcases List.mem_append.mp h with h | h
      · exact hRest h hOfs (fun _ => length_leBytes _ _) (by decide)
      · exact hRest h hSiz (fun _ => length_leBytes _ _) (by decide)
    · rcases List.mem_append.mp h with h | h
      · exact hRest h hDev (fun _ => rfl) (by decide)
      · exact hRest h hPort (fun _ => rfl) (by decide)

theorem SecureOptions.addresses_bounds (h : q ∈ o.addresses) :
    0x58 ≤ q.1 ∧ q.1 + q.2.length ≤ 0x68 := by
  unfold SecureOptions.addresses at h
  rcases List.mem_append.mp h with h | h <;> split at h
  · rw [List.mem_singleton.mp h]
    simp
  · exact absurd h List.not_mem_nil
  · rw [List.mem_singleton.mp h]
    simp
  · exact absurd h List.not_mem_nil

theorem SecureOptions.sets_fields (o : SecureOptions) (n : Nat) :
    secureLayout.Sets n (o.fields n) := by
  have hNsih : nsihSize = 512 := rfl
  have hLoadsize : secureLayout.loadsizeAt = 0x50 := rfl
  refine ⟨fun q hq => ?_, [], o.addresses ++ (o.dbi ++
    [(0x68, [if o.unified then 1 else 0]), (0x69, [o.bootFrom])]), ?_, fun q hq => ?_⟩
  · simp only [SecureOptions.fields, List.mem_cons, List.mem_append, List.not_mem_nil, or_false] at hq
    rcases hq with rfl | hq | hq | rfl | rfl | rfl
    · rw [length_leBytes]
      omega
    · have := o.addresses_bounds hq
      omega
    · have := o.dbi_bounds hq
      omega
    · simp [hNsih]
    · simp [hNsih]
    · decide
  · simp only [SecureOptions.fields, List.nil_append, List.append_assoc, List.cons_append]
  · simp only [List.mem_cons, List.mem_append, List.not_mem_nil, or_false] at hq
    rcases hq with hq | hq | rfl | rfl
    · have := o.addresses_bounds hq
      omega
    · have := o.dbi_bounds hq
      omega
    · simp [hLoadsize]
    · simp [hLoadsize]

theorem SecureOptions.patched_defaults (o : SecureOptions) (m : Mem) (n : Nat) :
    patchAll m (o.fields n) 0x68 = (if o.unified then 1 else 0) ∧
      patchAll m (o.fields n) 0x69 = o.bootFrom := by
  constructor
  · have hByte := @patchAll_byte m
      ((secureLayout.loadsizeAt, leBytes 4 n) :: (o.addresses ++ o.dbi)) 0x68
      (if o.unified then 1 else 0) [(0x69, [o.bootFrom]), (signatureAt, headerId)]
      (by simp [Patch.Covers, signatureAt])
    simpa only [SecureOptions.fields, List.cons_append, List.append_assoc] using hByte
  · have hByte := @patchAll_byte m
      ((secureLayout.loadsizeAt, leBytes 4 n) :: (o.addresses ++ (o.dbi ++
        [(0x68, [if o.unified then 1 else 0])]))) 0x69 o.bootFrom [(signatureAt, headerId)]
      (by simp [Patch.Covers, signatureAt])
    grind [SecureOptions.fields, List.append_assoc]

theorem SecureOptions.uncovered_given
    (hx : (x = 0x68 ∧ o.unified = false) ∨ (x = 0x69 ∧ o.bootdev = none)) :
    ∀ p ∈ o.given, ¬p.Covers x := by
  intro p hp hCovers
  unfold Patch.Covers at hCovers
  simp only [SecureOptions.given, List.mem_append] at hp
  rcases hp with hp | hp | hp | hp
  · have := o.addresses_bounds hp
    omega
  · have := o.dbi_bounds hp
    omega
  · rcases hx with ⟨rfl, hNo⟩ | ⟨rfl, -⟩
    · simp [hNo] at hp
    · grind
  · grind

theorem SecureOptions.uncovered_fields (n : Nat) (hUnified : x ≠ 0x68) (hBootdev : x ≠ 0x69)
    (hComputed : ¬secureLayout.Computed x) (hGiven : ∀ p ∈ o.given, ¬p.Covers x) :
    ∀ q ∈ o.fields n, ¬q.Covers x := by
  intro q hq hCovers
  simp only [SecureOptions.fields, List.mem_cons, List.mem_append, List.not_mem_nil, or_false] at hq
  rcases hq with rfl | hq | hq | rfl | rfl | rfl
  · rw [Patch.Covers, length_leBytes] at hCovers
    exact hComputed (Or.inl hCovers)
  · exact hGiven q (List.mem_append_left _ hq) hCovers
  · exact hGiven q (List.mem_append_right _ (List.mem_append_left _ hq)) hCovers
  · grind [Patch.Covers, List.length_singleton]
  · grind [Patch.Covers, List.length_singleton]
  · exact hComputed (Or.inr (Or.inr hCovers))

theorem not_computed_flags (hx : x = 0x68 ∨ x = 0x69) : ¬secureLayout.Computed x := by
  have hLoadsize : secureLayout.loadsizeAt = 0x50 := rfl
  have hCrc : secureLayout.crcAt = 0x54 := rfl
  grind [signatureAt, Layout.Computed]

theorem SecureOptions.kept_iff (o : SecureOptions) {header payload : List UInt8} (n : Nat)
    (hHeader : header.length = nsihSize) :
    Kept secureLayout header payload (o.fields n) o.given ↔
      (o.unified = true ∨ header[0x68]? = some 0) ∧
        (o.bootdev.isSome = true ∨ header[0x69]? = some 3) := by
  obtain ⟨hUnified, hBootdev⟩ := o.patched_defaults (secureLayout.buffer header payload) n
  have hByte : ∀ x < nsihSize, header[x]? = some (secureLayout.buffer header payload x) :=
    fun x hx => getElem?_header secureLayout_valid hHeader hx
  rw [hByte 0x68 (by decide), hByte 0x69 (by decide), Option.some.injEq, Option.some.injEq]
  constructor
  · intro hKept
    constructor
    · cases hOption : o.unified with
      | true => exact Or.inl rfl
      | false =>
          have hSame := hKept 0x68 (by decide) (not_computed_flags (Or.inl rfl))
            (o.uncovered_given (Or.inl ⟨rfl, hOption⟩))
          grind
    · cases hOption : o.bootdev with
      | some dev => exact Or.inl rfl
      | none =>
          have hSame := hKept 0x69 (by decide) (not_computed_flags (Or.inr rfl))
            (o.uncovered_given (Or.inr ⟨rfl, hOption⟩))
          rw [hBootdev, SecureOptions.bootFrom, hOption] at hSame
          exact Or.inr hSame.symm
  · rintro ⟨hU, hB⟩ x hx hComputed hGiven
    by_cases hX : x = 0x68
    · subst hX
      cases hOption : o.unified with
      | true =>
          refine absurd ?_ (hGiven (0x68, [1]) ?_)
          · simp [Patch.Covers]
          · simp [SecureOptions.given, hOption]
      | false =>
          grind
    · by_cases hX' : x = 0x69
      · subst hX'
        cases hOption : o.bootdev with
        | some dev =>
            refine absurd ?_ (hGiven (0x69, [dev]) ?_)
            · simp [Patch.Covers]
            · simp [SecureOptions.given, hOption]
        | none =>
            grind [SecureOptions.bootFrom]
      · grind [patchAll_uncovered, o.uncovered_fields]

theorem secureImage_iff (o : SecureOptions) {cpu : Chip} {option : BootType}
    {nsih payload : List UInt8} (hText : (processNsih nsih).length = nsihSize)
    (accepted : (outputSizeCalcurate secureLayout.headerSize cpu option
      (payload.length % 2 ^ 32)).isSome) :
    SecureImage o cpu option nsih payload ↔ payload.length + secureLayout.headerSize < 2 ^ 32 ∧
      (payload.length < 2 ^ 31 ∨ crcOf secureLayout.poly payload = 0) ∧
      (o.unified = true ∨ (processNsih nsih)[0x68]? = some 0) ∧
      (o.bootdev.isSome = true ∨ (processNsih nsih)[0x69]? = some 3) := by
  obtain ⟨outputSize, hOut⟩ := Option.isSome_iff_exists.mp accepted
  have hConfig : payload.length + secureLayout.headerSize < 2 ^ 32 →
      Configured secureLayout (processNsih nsih) payload (o.fields payload.length)
        (o.nsihUserConfig payload.length (secureLayout.buffer (processNsih nsih) payload)) :=
    fun hSize => configured_configure secureLayout_valid (by omega) (o.sets_fields payload.length)
  have hRun := fun file =>
    @run_loaderImage_iff secureLayout payload (o.fields payload.length) o.given outputSize
      o.nsihUserConfig cpu option nsih file secureLayout_valid hText hOut hConfig
  simp only [SecureImage, hRun, exists_eq_left', o.kept_iff _ hText]

/-- For every payload, every header text of 512 bytes and every chip and boot type that
`output_size_calcurate` accepts, the two tools write an image a loader accepts exactly
when the sum of header and payload is a 32-bit size, the payload is shorter than 2 GiB
(or has the CRC 0 by chance) and, for `SECURE_BINGEN`, the text has the defaults of
`unified` and `bootdev` where `-u` and `-k` are not given. -/
theorem bingen_loader_image_iff {cpu : Chip} {option : BootType} {nsih payload : List UInt8}
    (text : (processNsih nsih).length = nsihSize) :
    (∀ o : BootOptions,
      (outputSizeCalcurate bootLayout.headerSize cpu option (payload.length % 2 ^ 32)).isSome →
      (BootImage o cpu option nsih payload ↔ payload.length + bootLayout.headerSize < 2 ^ 32 ∧
        (payload.length < 2 ^ 31 ∨ crcOf bootLayout.poly payload = 0))) ∧
    (∀ o : SecureOptions,
      (outputSizeCalcurate secureLayout.headerSize cpu option (payload.length % 2 ^ 32)).isSome →
      (SecureImage o cpu option nsih payload ↔ payload.length + secureLayout.headerSize < 2 ^ 32 ∧
        (payload.length < 2 ^ 31 ∨ crcOf secureLayout.poly payload = 0) ∧
        (o.unified = true ∨ (processNsih nsih)[0x68]? = some 0) ∧
        (o.bootdev.isSome = true ∨ (processNsih nsih)[0x69]? = some 3))) :=
  ⟨fun o accepted => bootImage_iff o text accepted,
    fun o accepted => secureImage_iff o text accepted⟩

/-- A header text with the byte `unified` at 0x68 and zeros elsewhere. -/
def flagText (unified : UInt8) : List UInt8 :=
  textOf (List.replicate 0x68 0 ++ unified :: List.replicate 0x197 0)

theorem processNsih_flagText (unified : UInt8) : processNsih (flagText unified) =
    List.replicate 0x68 0 ++ unified :: List.replicate 0x197 0 :=
  processNsih_textOf _

theorem length_flagText (unified : UInt8) :
    (processNsih (flagText unified)).length = nsihSize := by
  rw [processNsih_flagText, List.length_append, List.length_cons, List.length_replicate,
    List.length_replicate]
  rfl

def noBootOptions : BootOptions := ⟨0xFFFFFFFF, 0xFFFFFFFF, 0xFFFFFFFF, 0xFFFFFFFF⟩

def sdmmcOptions : SecureOptions :=
  ⟨0xFFFFFFFFFFFFFFFF, 0xFFFFFFFFFFFFFFFF, [], [], [], [], [], false, some 3, by decide⟩

theorem bingen_loader_image_iff_three_bytes :
    BootImage noBootOptions .s5p6818 .thirdBoot (flagText 0) [1, 2, 3] ∧
      SecureImage sdmmcOptions .s5p6818 .thirdBoot (flagText 0) [1, 2, 3] := by
  obtain ⟨hBoot, hSecure⟩ := @bingen_loader_image_iff .s5p6818 .thirdBoot (flagText 0) [1, 2, 3]
    (length_flagText 0)
  refine ⟨(hBoot noBootOptions (by decide)).mpr ?_, (hSecure sdmmcOptions (by decide)).mpr ?_⟩
  · exact ⟨by decide, Or.inl (by decide)⟩
  · refine ⟨by decide, Or.inl (by decide), Or.inr ?_, Or.inl rfl⟩
    rw [processNsih_flagText]
    decide

/-- Without `-u`, a text that asks for a unified image loses the byte. -/
theorem secure_bingen_clears_unified :
    (processNsih (flagText 1)).length = nsihSize ∧
      (outputSizeCalcurate secureLayout.headerSize .s5p6818 .thirdBoot 3).isSome ∧
      ¬SecureImage sdmmcOptions .s5p6818 .thirdBoot (flagText 1) [1, 2, 3] := by
  refine ⟨length_flagText 1, by decide, ?_⟩
  rw [secureImage_iff sdmmcOptions (length_flagText 1) (by decide), processNsih_flagText]
  rintro ⟨-, -, hUnified, -⟩
  revert hUnified
  decide

end Fire3.Bingen

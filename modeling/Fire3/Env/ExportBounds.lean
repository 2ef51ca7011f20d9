import Fire3.Env.ExportImport

/-!
The round trip of the environment through its text form. A text that fits the
exporter's buffer restores every binding exactly when the pairs fit the table that
the importer creates for a text of this length.
-/

namespace Fire3.Hashtable
open CString

theorem mem_of_find_fill {nel : Nat} {h₀ : Htab} (hCreate : hcreateR nel = some h₀)
    {es : List Entry} (hKeys : (es.map Entry.key).Nodup) (hRoom : es.length ≤ h₀.size)
    {e : Entry} : find (fill h₀ es) e.key = some e.data ↔ e ∈ es := by
  obtain ⟨-, hFilled, hFree⟩ := hcreateR_spec hCreate
  obtain ⟨hBound, hRest⟩ := find_fill (inv_of_hcreateR hCreate) (fun i => by simp [hFree]) hKeys
    (fun e _ => find_new hCreate e.key) (by omega)
  refine ⟨fun hFind => ?_, hBound e⟩
  by_cases hKey : e.key ∈ es.map Entry.key
  · obtain ⟨e', he', hSame⟩ := List.mem_map.mp hKey
    have hData := hBound e' he'
    rw [hSame, hFind, Option.some.injEq] at hData
    have hEq : e' = e := by
      cases e
      cases e'
      simp_all
    exact hEq ▸ he'
  · rw [hRest e.key hKey, find_new hCreate] at hFind
    simp at hFind

theorem entries_fill {nel : Nat} {h₀ : Htab} (hCreate : hcreateR nel = some h₀)
    {es : List Entry} (hKeys : (es.map Entry.key).Nodup) (hRoom : es.length ≤ h₀.size) :
    Shape (fill h₀ es) ∧ (entries (fill h₀ es)).Perm es := by
  obtain ⟨-, -, hFree⟩ := hcreateR_spec hCreate
  have hShape := (fill_inv (inv_of_hcreateR hCreate) (fun i => by simp [hFree]) es).1.toShape
  refine ⟨hShape, ?_⟩
  rw [List.perm_ext_iff_of_nodup (nodup_keys hShape).of_map hKeys.of_map]
  intro e
  rw [mem_entries hShape, ← find_eq_some_iff hShape, mem_of_find_fill hCreate hKeys hRoom]

theorem find_fill_iff {h : Htab} (hShape : Shape h) {nel : Nat} {h₀ : Htab}
    (hCreate : hcreateR nel = some h₀) {es : List Entry} (hPerm : es.Perm (entries h)) :
    (∀ k, find (fill h₀ es) k = find h k) ↔ (entries h).length ≤ h₀.size := by
  have hKeys : (es.map Entry.key).Nodup := (hPerm.map _).nodup_iff.mpr (nodup_keys hShape)
  have hBinds : ∀ {k d}, find h k = some d ↔ ⟨k, d⟩ ∈ es := by
    grind [mem_entries, find_eq_some_iff]
  obtain ⟨-, -, hFree⟩ := hcreateR_spec hCreate
  obtain ⟨hInv, hSize⟩ := fill_inv (inv_of_hcreateR hCreate) (fun i => by simp [hFree]) es
  constructor
  · intro hSame
    rw [← hSize, ← hPerm.length_eq]
    refine length_le_size hInv.toShape hKeys fun e he => ?_
    rw [hSame, hBinds]
    exact he
  · intro hRoom k
    apply Option.ext
    intro d
    rw [hBinds]
    exact @mem_of_find_fill _ _ hCreate _ hKeys (hPerm.length_eq ▸ hRoom) ⟨k, d⟩

theorem roundTrips_iff_room {sep : UInt8} (hSep : sep = 0 ∨ sep = 10) {h : Htab} (hShape : Shape h)
    (hEs : ∀ e ∈ entries h, Exportable sep e)
    (hBuffer : sep = 0 → backslashes (entries h) ≤ 2 * (entries h).length) {h₀ : Htab}
    (hCreate : hcreateR (importEntries (totlen sep (entries h) + 1)) = some h₀) :
    RoundTrips sep h ↔ (entries h).length ≤ h₀.size := by
  have hPerm := sortByKey_perm (entries h)
  have hText := length_sorted_le hEs hBuffer
  obtain ⟨h', hImport, hFind⟩ := @himportR_export sep hSep (sortByKey (entries h))
    (fun e he => hEs e (hPerm.mem_iff.mp he))
    (totlen sep (entries h) - ((sortByKey (entries h)).flatMap (exportEntry sep)).length) h₀
    (by rw [← hCreate, ← Nat.add_assoc, Nat.add_sub_cancel' hText])
  rw [← find_fill_iff hShape hCreate hPerm, RoundTrips, hexportR_all hEs hBuffer]
  simp only [← hFind]
  constructor
  · rintro ⟨bytes, h'', hExport, hImport', hSame⟩
    cases hExport
    rw [hImport, Option.some.injEq, Prod.mk.injEq] at hImport'
    exact hImport'.2 ▸ hSame
  · exact fun hSame => ⟨_, h', rfl, hImport, hSame⟩

/-- Export and import restore every binding exactly when the new table has room for all. For a
NUL separator the escapes have to fit the two bytes that pass 1 counts too much for each pair. -/
theorem env_round_trip {sep : UInt8} (hSep : sep = 0 ∨ sep = 10) {h : Htab} (hShape : Shape h)
    (hEs : ∀ e ∈ entries h, Exportable sep e)
    (hBuffer : sep = 0 → backslashes (entries h) ≤ 2 * (entries h).length) :
    RoundTrips sep h ↔ Fits sep h := by
  obtain ⟨h₀, hCreate⟩ := hcreateR_import (totlen sep (entries h) + 1)
  rw [roundTrips_iff_room hSep hShape hEs hBuffer hCreate, Fits]
  grind

theorem totlen_perm {sep : UInt8} {es es' : List Entry} (hPerm : es.Perm es') :
    totlen sep es = totlen sep es' := (hPerm.map _).sum_eq

theorem env_round_trip_escapes :
    ∃ h₀, hcreateR 2 = some h₀ ∧ RoundTrips 10 (fill h₀ [⟨ascii "a", ascii "x\\\ny"⟩,
      ⟨ascii "b", ascii "#="⟩]) := by
  refine ⟨_, rfl, ?_⟩
  obtain ⟨hShape, hPerm⟩ := @entries_fill 2 _ rfl
    [⟨ascii "a", ascii "x\\\ny"⟩, ⟨ascii "b", ascii "#="⟩] (by decide) (by decide)
  refine (env_round_trip (.inr rfl) hShape (fun e he => ?_) (by simp)).mpr fun h₀ hCreate => ?_
  · rw [hPerm.mem_iff] at he
    simp only [List.mem_cons, List.not_mem_nil, or_false] at he
    rcases he with rfl | rfl <;> decide
  · rw [totlen_perm hPerm] at hCreate
    rw [hPerm.length_eq, ← Option.some.inj hCreate]
    decide

def shortPairs : List Entry :=
  (((List.range' 1 255).map UInt8.ofNat).filter fun c => !([61, 32, 9, 35, 10].contains c)).map
    (fun c => ⟨[c], [49]⟩) ++ (List.range' 65 100).map fun n => ⟨[65, UInt8.ofNat n], [49]⟩

theorem nodup_shortPairs : (shortPairs.map Entry.key).Nodup := by
  have hChain : ((shortPairs.map Entry.key).map
      (List.foldl (fun n c => n * 256 + c.toNat) 0)).IsChain (· < ·) := by
    decide +kernel
  have hPairwise := List.isChain_iff_pairwise.mp hChain
  exact List.Nodup.of_map _ (hPairwise.imp Nat.ne_of_lt)

/-- Their text has 2200 characters, and the importer creates a table for 347 pairs. -/
theorem env_round_trip_short_pairs :
    ∃ h₀, hcreateR 512 = some h₀ ∧
      let h := fill h₀ shortPairs
      Shape h ∧ (entries h).length = 350 ∧ (∀ e ∈ entries h, Exportable 10 e) ∧
        ¬RoundTrips 10 h := by
  have hLength : shortPairs.length = 350 := by decide +kernel
  have hChars : ∀ e ∈ shortPairs, Exportable 10 e := by decide +kernel
  have hTotal : totlen 10 shortPairs = 2200 := by decide +kernel
  have hCreate : ∃ h₀, hcreateR 512 = some h₀ ∧ h₀.size = 521 := ⟨_, rfl, by decide +kernel⟩
  have hImport : ∃ h₀, hcreateR (importEntries 2201) = some h₀ ∧ h₀.size = 347 :=
    ⟨_, rfl, by decide +kernel⟩
  obtain ⟨h₀, hCreate, hSize⟩ := hCreate
  obtain ⟨h₁, hImport, hSize'⟩ := hImport
  obtain ⟨hShape, hPerm⟩ := entries_fill hCreate nodup_shortPairs (by omega)
  have hEs : ∀ e ∈ entries (fill h₀ shortPairs), Exportable 10 e :=
    fun e he => hChars e (hPerm.mem_iff.mp he)
  refine ⟨h₀, hCreate, hShape, hPerm.length_eq.trans hLength, hEs, fun hTrip => ?_⟩
  have hRoom := (roundTrips_iff_room (.inr rfl) hShape hEs (by simp)
    (by rw [totlen_perm hPerm, hTotal]; exact hImport)).mp hTrip
  rw [hPerm.length_eq, hLength, hSize'] at hRoom
  omega

/-!
Where `hexport_r` writes.

Pass 1 measures the text and the check of the size compares with that. Pass 2 writes byte by byte
from the beginning of the buffer on and escapes the backslashes of a value for every separator,
but pass 1 counts these escapes only if the separator is not NUL.
-/

inductive MatchMethod
  | ident
  | substr
  | regex
  | unsupported
  deriving DecidableEq, Repr

structure ExportFlag where
  hideDot : Bool
  matchKey : Bool
  matchData : Bool
  method : MatchMethod
  deriving DecidableEq, Repr

abbrev Slre := CStr → Option (CStr → Bool)

def matchString (flag : ExportFlag) (str pat : CStr) (priv : CStr → Bool) : Bool :=
  match flag.method with
  | .ident => str = pat
  | .substr => (strstr str pat).isSome
  | .regex => priv str
  | .unsupported => false

def matchEntry (slre : Slre) (flag : ExportFlag) (ep : Entry) : List CStr → Bool
  | [] => false
  | arg :: argv =>
      match slre arg with
      | none => false
      | some priv =>
          (flag.matchKey && matchString flag ep.key arg priv) ||
            (flag.matchData && matchString flag ep.data arg priv) || matchEntry slre flag ep argv

def listed (slre : Slre) (flag : ExportFlag) (argv : List CStr) (ep : Entry) : Bool :=
  (argv = [] || matchEntry slre flag ep argv) && !(flag.hideDot && ep.key.head? = some 46)

def storesAt (p : Nat) : List UInt8 → List (Nat × UInt8)
  | [] => []
  | b :: bs => (p, b) :: storesAt (p + 1) bs

def pass2 (sep : UInt8) : List Entry → Nat → List (Nat × UInt8)
  | [], p => [(p, 0)]
  | e :: es, p =>
      storesAt p (exportEntry sep e) ++ pass2 sep es (p + (exportEntry sep e).length)

def exportSize (h : Htab) (sep : UInt8) (keep : Entry → Bool) (size : Nat) : Nat :=
  if size = 0 then totlen sep ((entries h).filter keep) + 1 else size

def exportStores (h : Htab) (sep : UInt8) (keep : Entry → Bool) (size : Nat) :
    List (Nat × UInt8) :=
  let list := (entries h).filter keep
  if size ≠ 0 ∧ size < totlen sep list + 1 then []
  else
    storesAt 0 (List.replicate (exportSize h sep keep size) 0) ++ pass2 sep (sortByKey list) 0

/-- All stores are within the buffer, and if the text does not fit an error is returned and
nothing is stored. -/
def ExportWithin (h : Htab) (sep : UInt8) (keep : Entry → Bool) (size : Nat) : Prop :=
  (∀ w ∈ exportStores h sep keep size, w.1 < exportSize h sep keep size) ∧
    (exportSize h sep keep size <
        ((sortByKey ((entries h).filter keep)).flatMap (exportEntry sep)).length + 1 →
      hexportR h sep keep size = .tooSmall ∧ exportStores h sep keep size = [])

def plainLength (es : List Entry) : Nat :=
  (es.map fun e => e.key.length + e.data.length + 4).sum

theorem mem_storesAt {p o : Nat} {bs : List UInt8} :
    (∃ b, (o, b) ∈ storesAt p bs) ↔ p ≤ o ∧ o < p + bs.length := by
  induction bs generalizing p with
  | nil => simp [storesAt]
  | cons c cs ih =>
      simp only [storesAt, List.mem_cons, Prod.mk.injEq, exists_or, ih, List.length_cons]
      constructor
      · rintro (⟨b, rfl, -⟩ | hIn) <;> omega
      · grind

theorem mem_pass2 {sep : UInt8} {p o : Nat} {es : List Entry} :
    (∃ b, (o, b) ∈ pass2 sep es p) ↔
      p ≤ o ∧ o < p + (es.flatMap (exportEntry sep)).length + 1 := by
  induction es generalizing p with
  | nil =>
      simp only [pass2, List.mem_singleton, Prod.mk.injEq, exists_eq_right, List.flatMap_nil,
        List.length_nil]
      omega
  | cons e es ih =>
      simp only [pass2, List.mem_append, exists_or, mem_storesAt, ih, List.flatMap_cons,
        List.length_append]
      omega

section
variable {h : Htab} {sep : UInt8} {keep : Entry → Bool} {size : Nat}

theorem length_sorted (es : List Entry) :
    ((sortByKey es).flatMap (exportEntry sep)).length = (es.flatMap (exportEntry sep)).length :=
  ((sortByKey_perm es).flatMap_right _).length_eq

/-- The stores are within the buffer exactly if the text with its terminator fits, or the call
fails before. -/
theorem exportWithin_iff :
    ExportWithin h sep keep size ↔
      (size ≠ 0 ∧ size < totlen sep ((entries h).filter keep) + 1) ∨
        (((entries h).filter keep).flatMap (exportEntry sep)).length + 1 ≤
          exportSize h sep keep size := by
  rw [ExportWithin, exportStores, length_sorted]
  by_cases hSmall : size ≠ 0 ∧ size < totlen sep ((entries h).filter keep) + 1
  · have hError : hexportR h sep keep size = .tooSmall := if_pos hSmall
    grind
  · simp only [if_neg hSmall]
    constructor
    · rintro ⟨hWithin, -⟩
      -- the terminator is the last store
      obtain ⟨b, hLast⟩ := (@mem_pass2 sep 0 (((entries h).filter keep).flatMap
        (exportEntry sep)).length (sortByKey ((entries h).filter keep))).mpr
          ⟨Nat.zero_le _, by rw [length_sorted]; omega⟩
      exact .inr (hWithin _ (List.mem_append_right _ hLast))
    · intro hFits
      have hFits := hFits.resolve_left hSmall
      refine ⟨fun w hw => ?_, fun hNot => absurd hFits (by omega)⟩
      rcases List.mem_append.mp hw with hClear | hText
      · have hIn := (mem_storesAt.mp ⟨w.2, hClear⟩).2
        rw [List.length_replicate] at hIn
        omega
      · have hIn := (mem_pass2.mp ⟨w.2, hText⟩).2
        rw [length_sorted] at hIn
        omega

theorem totlen_nul (es : List Entry) : totlen 0 es = plainLength es := by
  have hEntry (e : Entry) : e.key.length + 2 + measuredLength 0 e.data + 2 =
      e.key.length + e.data.length + 4 := by
    rw [measuredLength, if_pos rfl]
    omega
  simp only [totlen, plainLength, hEntry]

end

/-- An export stays within its buffer exactly if the separator is not NUL, or the size is refused,
or the backslashes find room in what pass 1 counts too much and in what the caller gives more. -/
theorem env_export_within_iff {h : Htab} (hData : ∀ e ∈ entries h, 0 ∉ e.data) {sep : UInt8}
    (hSep : sep = 0 ∨ sep = 10) (slre : Slre) (flag : ExportFlag) (argv : List CStr) (size : Nat) :
    let es := (entries h).filter (listed slre flag argv)
    ExportWithin h sep (listed slre flag argv) size ↔
      sep = 10 ∨ (size ≠ 0 ∧ size < plainLength es + 1) ∨
        backslashes es ≤ 2 * es.length + (size - (plainLength es + 1)) := by
  intro es
  have hLength := @length_export_add sep es fun e he => hData e (List.mem_of_mem_filter he)
  rw [exportWithin_iff, exportSize]
  change (size ≠ 0 ∧ size < totlen sep es + 1) ∨ (es.flatMap (exportEntry sep)).length + 1 ≤
    (if size = 0 then totlen sep es + 1 else size) ↔ _
  rcases hSep with rfl | rfl
  · rw [if_pos rfl] at hLength
    rw [totlen_nul] at hLength ⊢
    grind
  · grind

def onlyA (data : CStr) : Htab := ⟨1, 1, fun i => if i = 1 then .used 1 ⟨ascii "a", data⟩ else .free⟩

def everyEntry : ExportFlag := ⟨false, false, false, .unsupported⟩

/-- Two backslashes find room. -/
theorem env_export_two_backslashes :
    ExportWithin (onlyA [92, 92]) 0 (listed (fun _ => none) everyEntry []) 0 := by
  refine (env_export_within_iff (by decide) (.inl rfl) (fun _ => none) everyEntry [] 0).mpr ?_
  exact .inr (.inr (by decide))

/-- Of three backslashes the terminator comes to stand behind the allocated buffer. -/
theorem env_export_three_backslashes :
    ¬ExportWithin (onlyA [92, 92, 92]) 0 (listed (fun _ => none) everyEntry []) 0 := fun hWithin =>
  absurd (hWithin.1 (9, 0) (by decide +kernel)) (by decide)

end Fire3.Hashtable

import Fire3.Env.HashMap
import Fire3.Env.ImportText

/-!
Export and re-import of the environment. The import fills a new table whose size
depends on the length of the text alone; a table that has room for all pairs has
their bindings in the end.
-/

namespace Fire3.Hashtable
open CString

variable {sep : UInt8} {h : Htab} {es : List Entry}

def NoDeleted (h : Htab) : Prop := ∀ i, h.table i ≠ .deleted

theorem not_displaces (hInv : Inv h) (hNew : NoDeleted h) (key : CStr) : ¬Displaces h key := by
  rintro ⟨-, hNoFree, -, hRoom⟩
  have hAll : live h = Finset.Icc 1 h.size := by
    ext i
    rw [mem_live_iff, Finset.mem_Icc]
    refine and_iff_left_of_imp fun hi => ?_
    cases hSlot : h.table i with
    | free => exact absurd hSlot (hNoFree i hi.1 hi.2)
    | deleted => exact absurd hSlot (hNew i)
    | used => rfl
  have hFilled := hInv.filled
  rw [hAll, Nat.card_Icc] at hFilled
  omega

theorem noDeleted_set {i hval : Nat} {e : Entry} (hNew : NoDeleted h) :
    NoDeleted (h.set i (.used hval e)) := by
  intro j
  by_cases hj : j = i
  · rw [hj, set_same]
    simp
  · rw [set_other hj]
    exact hNew j

theorem enter_noDeleted (hNew : NoDeleted h) (key data : CStr) :
    NoDeleted (enter noHooks h key data).2 ∧ (enter noHooks h key data).2.size = h.size := by
  have hCreate : ∀ idx, NoDeleted (createEntry noHooks h key data idx).2 ∧
      (createEntry noHooks h key data idx).2.size = h.size := by
    intro idx
    simp only [createEntry, noHooks, Bool.false_eq_true, if_false]
    split
    · exact ⟨hNew, rfl⟩
    · exact ⟨noDeleted_set hNew, rfl⟩
  cases hSearch : search h key with
  | found i =>
      simp only [enter, hSearch, overwriteEntry, noHooks, Bool.false_eq_true, if_false]
      split
      · exact ⟨noDeleted_set hNew, rfl⟩
      · exact ⟨hNew, rfl⟩
      · exact ⟨hNew, rfl⟩
  | empty i | wrapped =>
      simp only [enter, hSearch]
      exact hCreate _

theorem filled_enter_new (hInv : Inv h) {key : CStr} (data : CStr) (hNone : find h key = none) :
    (enter noHooks h key data).2.filled ≤ h.filled + 1 := by
  have hCreate : ∀ idx, (createEntry noHooks h key data idx).2.filled ≤ h.filled + 1 := by
    intro idx
    simp only [createEntry, noHooks, Bool.false_eq_true, if_false]
    split
    · exact Nat.le_succ _
    · exact le_rfl
  cases hSearch : search h key with
  | found i =>
      obtain ⟨d, hUsed⟩ := search_found_used hInv.toShape hSearch
      rw [(find_eq_some_iff hInv.toShape).mpr ⟨i, _, hUsed⟩] at hNone
      simp at hNone
  | empty i | wrapped =>
      simp only [enter, hSearch]
      exact hCreate _

theorem find_new {nel : Nat} {h₀ : Htab} (hCreate : hcreateR nel = some h₀) (key : CStr) :
    find h₀ key = none := by
  obtain ⟨-, -, hFree⟩ := hcreateR_spec hCreate
  simp [find, findIdx, search, hFree]

def fill (h : Htab) (es : List Entry) : Htab :=
  es.foldl (fun h e => (enter noHooks h e.key e.data).2) h

theorem fill_inv (hInv : Inv h) (hNew : NoDeleted h) (es : List Entry) :
    Inv (fill h es) ∧ (fill h es).size = h.size := by
  induction es generalizing h with
  | nil => exact ⟨hInv, rfl⟩
  | cons e es ih =>
      obtain ⟨hNew', hSize⟩ := enter_noDeleted hNew e.key e.data
      have hStep : Inv (enter noHooks h e.key e.data).2 :=
        @step_inv h (.enter e.key e.data) hInv (not_displaces hInv hNew e.key)
      obtain ⟨hDone, hSame⟩ := ih hStep hNew'
      exact ⟨hDone, hSame.trans hSize⟩

theorem find_fill (hInv : Inv h) (hNew : NoDeleted h) (hKeys : (es.map Entry.key).Nodup)
    (hFresh : ∀ e ∈ es, find h e.key = none) (hRoom : h.filled + es.length ≤ h.size) :
    (∀ e ∈ es, find (fill h es) e.key = some e.data) ∧
      ∀ k, k ∉ es.map Entry.key → find (fill h es) k = find h k := by
  induction es generalizing h with
  | nil => exact ⟨by simp, fun _ _ => rfl⟩
  | cons e es ih =>
      rw [List.map_cons, List.nodup_cons] at hKeys
      obtain ⟨hNew', hSize⟩ := enter_noDeleted hNew e.key e.data
      have hNone := hFresh e List.mem_cons_self
      have hCount := filled_enter_new hInv e.data hNone
      rw [List.length_cons] at hRoom
      rcases enter_spec hInv e.data (not_displaces hInv hNew e.key) with ⟨-, hEntered⟩ |
        ⟨-, -, hFull⟩
      · have hOther : ∀ k, k ≠ e.key → find (enter noHooks h e.key e.data).2 k = find h k :=
          hEntered.other
        have hFresh' : ∀ x ∈ es, find (enter noHooks h e.key e.data).2 x.key = none := by
          intro x hx
          grind
        obtain ⟨hBound, hRest⟩ := ih hEntered.inv hNew' hKeys.2 hFresh' (by omega)
        refine ⟨fun x hx => ?_, fun k hk => ?_⟩
        · cases List.mem_cons.mp hx with
          | inl hHead =>
              subst hHead
              exact (hRest x.key hKeys.1).trans hEntered.same
          | inr hTail => exact hBound x hTail
        · rw [List.map_cons, List.mem_cons, not_or] at hk
          exact (hRest k hk.2).trans (hOther k hk.1)
      · have := hInv.filled
        omega

theorem mem_entries (hShape : Shape h) {e : Entry} : e ∈ entries h ↔ Bound h e.key e.data := by
  rw [entries, List.mem_filterMap]
  constructor
  · rintro ⟨i, -, hSlot⟩
    obtain ⟨hval, hUsed⟩ := slotEntry_eq_some.mp hSlot
    exact ⟨i, hval, hUsed⟩
  · rintro ⟨i, hval, hUsed⟩
    obtain ⟨hLow, hHigh⟩ := hShape.index_range hUsed
    exact ⟨i, by rw [List.mem_range'_1]; omega, slotEntry_eq_some.mpr ⟨hval, hUsed⟩⟩

theorem nodup_keys (hShape : Shape h) : ((entries h).map Entry.key).Nodup := by
  rw [entries, List.map_filterMap]
  refine List.Nodup.filterMap ?_ List.nodup_range'
  intro i j k hi hj
  rw [Option.mem_def, Option.map_eq_some_iff] at hi hj
  obtain ⟨e, hSlot, rfl⟩ := hi
  obtain ⟨e', hSlot', hKey⟩ := hj
  obtain ⟨hval, hUsed⟩ := slotEntry_eq_some.mp hSlot
  obtain ⟨hval', hUsed'⟩ := slotEntry_eq_some.mp hSlot'
  exact hShape.unique i j _ _ _ _ hUsed hUsed' hKey.symm

theorem length_le_size (hShape : Shape h) (hKeys : (es.map Entry.key).Nodup)
    (hBound : ∀ e ∈ es, find h e.key = some e.data) : es.length ≤ h.size := by
  have hSub : es ⊆ entries h := fun e he =>
    (mem_entries hShape).mpr ((find_eq_some_iff hShape).mp (hBound e he))
  calc es.length ≤ (entries h).length := (List.subperm_of_subset hKeys.of_map hSub).length_le
    _ ≤ (List.range' 1 h.size).length := List.length_filterMap_le _ _
    _ = h.size := List.length_range'

theorem sortByKey_perm (es : List Entry) : (sortByKey es).Perm es := List.mergeSort_perm es _

theorem importLoop_export (hSep : sep ≠ backslash) (hSep' : sep ≠ 61)
    (hEs : ∀ e ∈ es, Exportable sep e) (hSome : es ≠ []) (zeros : List UInt8) {fuel : Nat}
    (hFuel : es.length ≤ fuel) (h : Htab) :
    importLoop noHooks sep fuel h (es.flatMap (exportEntry sep) ++ 0 :: zeros) =
      (1, fill h es) := by
  induction es generalizing fuel h with
  | nil => exact absurd rfl hSome
  | cons e es ih =>
      obtain ⟨fuel, rfl⟩ : ∃ n, fuel = n + 1 := ⟨fuel - 1, by rw [List.length_cons] at hFuel; omega⟩
      have he := hEs e List.mem_cons_self
      rw [List.flatMap_cons, List.append_assoc, importLoop,
        parseItem_exportEntry hSep hSep' he]
      simp only [he.key_some, if_false]
      cases es with
      | nil => simp [fill]
      | cons e' es =>
          have he' := hEs e' (by simp)
          obtain ⟨c, cs, hKey⟩ := List.exists_cons_of_ne_nil he'.key_some
          have hNext : ((e' :: es).flatMap (exportEntry sep) ++ 0 :: zeros).length > 1 ∧
              ((e' :: es).flatMap (exportEntry sep) ++ 0 :: zeros).headD 0 ≠ 0 := by
            have hc := (he'.key_chars c (by simp [hKey])).2.1
            simp [exportEntry, hKey, hc]
          rw [if_pos hNext, ih (fun x hx => hEs x (List.mem_cons_of_mem _ hx)) (by simp)
            (by simpa using hFuel)]
          rfl

theorem importLoop_zeros (sep : UInt8) (fuel : Nat) (h : Htab) (zeros : Nat) :
    importLoop noHooks sep (fuel + 1) h (0 :: List.replicate (zeros + 1) 0) =
      (1, (hdeleteR noHooks h []).2) := by
  have hItem : parseItem sep (0 :: List.replicate (zeros + 1) 0) =
      (.delete [], List.replicate (zeros + 1) 0) := by
    simp [parseItem, isblank, List.replicate_succ]
  rw [importLoop, hItem]
  simp [List.replicate_succ]

theorem himportR_export {sep : UInt8} (hSep : sep = 0 ∨ sep = 10) {es : List Entry}
    (hEs : ∀ e ∈ es, Exportable sep e) {zeros : Nat} {h₀ : Htab}
    (hCreate : hcreateR (importEntries ((es.flatMap (exportEntry sep)).length + (zeros + 1))) =
      some h₀) :
    ∃ h, himportR noHooks (es.flatMap (exportEntry sep) ++ List.replicate (zeros + 1) 0) sep =
      some (1, h) ∧ ∀ k, find h k = find (fill h₀ es) k := by
  have hPlain : sep ≠ backslash ∧ sep ≠ 61 := by
    rcases hSep with rfl | rfl <;> decide
  have hText : es.flatMap (exportEntry sep) ++ List.replicate (zeros + 1) 0 ++ [0] =
      es.flatMap (exportEntry sep) ++ 0 :: List.replicate (zeros + 1) 0 := by
    rw [List.append_assoc, ← List.replicate_succ', List.replicate_succ]
  simp only [himportR, List.length_append, List.length_replicate, hCreate, hText]
  rw [if_neg (by omega)]
  by_cases hSome : es = []
  · subst hSome
    obtain ⟨-, hGone, hRest⟩ := hdeleteR_spec (inv_of_hcreateR hCreate) []
    refine ⟨(hdeleteR noHooks h₀ []).2, ?_, fun k => ?_⟩
    · rw [List.flatMap_nil, List.nil_append, importLoop_zeros]
    · by_cases hk : k = []
      · rw [hk, hGone]
        exact (find_new hCreate []).symm
      · exact hRest k hk
  · refine ⟨fill h₀ es, ?_, fun _ => rfl⟩
    grind [length_le_length_export, importLoop_export]

def RoundTrips (sep : UInt8) (h : Htab) : Prop :=
  ∃ bytes h', hexportR h sep (fun _ => true) 0 = .ok bytes ∧
    himportR noHooks bytes sep = some (1, h') ∧ ∀ k, find h' k = find h k

/-- The pairs have room in the table the importer creates for a text of that length. -/
def Fits (sep : UInt8) (h : Htab) : Prop :=
  ∀ h₀, hcreateR (importEntries (totlen sep (entries h) + 1)) = some h₀ →
    (entries h).length ≤ h₀.size

theorem hcreateR_import (size : Nat) : ∃ h₀, hcreateR (importEntries size) = some h₀ := by
  have hAll : ∀ n < 449, (hcreateR (64 + n)).isSome = true := by decide +kernel
  have hRange : importEntries size - 64 < 449 ∧
      importEntries size = 64 + (importEntries size - 64) := by
    unfold importEntries
    omega
  grind [Option.isSome_iff_exists]

theorem length_sorted_add (hEs : ∀ e ∈ entries h, Exportable sep e) :
    ((sortByKey (entries h)).flatMap (exportEntry sep)).length + 2 * (entries h).length =
      totlen sep (entries h) + if sep = 0 then backslashes (entries h) else 0 := by
  have hPerm := sortByKey_perm (entries h)
  have hSum := @length_export_add sep (sortByKey (entries h))
    fun e he => (hEs e (hPerm.mem_iff.mp he)).data_chars
  have hTotal : totlen sep (sortByKey (entries h)) = totlen sep (entries h) :=
    (hPerm.map _).sum_eq
  have hSlashes : backslashes (sortByKey (entries h)) = backslashes (entries h) :=
    (hPerm.map _).sum_eq
  rwa [hTotal, hSlashes, hPerm.length_eq] at hSum

theorem length_sorted_le (hEs : ∀ e ∈ entries h, Exportable sep e)
    (hBuffer : sep = 0 → backslashes (entries h) ≤ 2 * (entries h).length) :
    ((sortByKey (entries h)).flatMap (exportEntry sep)).length ≤ totlen sep (entries h) := by
  have hSum := length_sorted_add hEs
  split at hSum
  · have hSlashes := hBuffer ‹_›
    omega
  · omega

theorem hexportR_all (hEs : ∀ e ∈ entries h, Exportable sep e)
    (hBuffer : sep = 0 → backslashes (entries h) ≤ 2 * (entries h).length) :
    hexportR h sep (fun _ => true) 0 =
      .ok ((sortByKey (entries h)).flatMap (exportEntry sep) ++ List.replicate
        (totlen sep (entries h) - ((sortByKey (entries h)).flatMap (exportEntry sep)).length + 1)
          0) := by
  have hText := length_sorted_le hEs hBuffer
  simp only [hexportR, List.filter_true, ne_eq, not_true_eq_false, false_and, if_false, if_true]
  grind

end Fire3.Hashtable

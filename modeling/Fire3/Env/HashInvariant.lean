import Fire3.Env.HashSearch

/-!
The invariant of the environment hash table and what its operations do to the
bindings. A live entry sits on the probe sequence of its key with no free slot
before it, so a search that meets a free slot has passed every place the key
could have.
-/

namespace Fire3.Hashtable
open CString

variable {key data : CStr} {h : Htab} {i hval : Nat} {e : Entry}

def Slot.isLive : Slot → Bool
  | .used _ _ => true
  | .free | .deleted => false

def live (h : Htab) : Finset Nat := (Finset.Icc 1 h.size).filter fun i => (h.table i).isLive

theorem mem_live_iff : i ∈ live h ↔ (1 ≤ i ∧ i ≤ h.size) ∧ (h.table i).isLive = true := by
  rw [live, Finset.mem_filter, Finset.mem_Icc]

def Bound (h : Htab) (key data : CStr) : Prop := ∃ i hval, h.table i = .used hval ⟨key, data⟩

structure Framed (h : Htab) : Prop where
  size : SizeOk h.size
  outside : ∀ i, i = 0 ∨ h.size < i → h.table i = .free

structure Shape (h : Htab) : Prop extends Framed h where
  reach : ∀ i hval e, h.table i = .used hval e → hval = firstHash h.size e.key ∧
    ∃ t < h.size, path h.size e.key t = i ∧ ∀ u < t, h.table (path h.size e.key u) ≠ .free
  unique : ∀ i j hi ei hj ej, h.table i = .used hi ei → h.table j = .used hj ej →
    ei.key = ej.key → i = j

structure Inv (h : Htab) : Prop extends Shape h where
  filled : h.filled = (live h).card

theorem inv_of_free (hSize : SizeOk h.size) (hFilled : h.filled = 0)
    (hFree : ∀ i, h.table i = .free) : Inv h := by
  refine ⟨⟨⟨hSize, fun i _ => hFree i⟩, ?_, ?_⟩, ?_⟩
  · intro i hval e hUsed
    simp [hFree] at hUsed
  · intro i j hi ei hj ej hUsed
    simp [hFree] at hUsed
  · simp [live, hFree, Slot.isLive, hFilled]

theorem inv_of_hcreateR {nel : Nat} (hCreate : hcreateR nel = some h) : Inv h := by
  grind [hcreateR_spec, inv_of_free]

theorem Slot.matches_iff {slot : Slot} :
    slot.matches hval key = true ↔ ∃ data, slot = .used hval ⟨key, data⟩ := by
  cases slot with
  | free | deleted => simp [Slot.matches]
  | used hval' entry =>
      obtain ⟨key', data'⟩ := entry
      simp [Slot.matches]

theorem Framed.index_range (hFramed : Framed h) (hUsed : h.table i = .used hval e) :
    1 ≤ i ∧ i ≤ h.size := by
  by_contra hOut
  have hFree := hFramed.outside i (by omega)
  rw [hUsed] at hFree
  simp at hFree

theorem Framed.mem_live (hFramed : Framed h) (hUsed : h.table i = .used hval e) : i ∈ live h := by
  rw [mem_live_iff, hUsed]
  exact ⟨hFramed.index_range hUsed, rfl⟩

theorem Shape.search_eq_found (hInv : Shape h)
    (hUsed : h.table i = .used hval ⟨key, data⟩) : search h key = .found i := by
  obtain ⟨rfl, t, ht, hPath, hBefore⟩ := hInv.reach i hval ⟨key, data⟩ hUsed
  have hMatch : (h.table (path h.size key t)).matches (firstHash h.size key) key = true := by
    rw [hPath, hUsed]
    simp [Slot.matches]
  have hMeans := search_means hInv.size key
  cases hSearch : search h key with
  | found j =>
      rw [hSearch] at hMeans
      obtain ⟨data', hOther⟩ := Slot.matches_iff.mp hMeans.1
      rw [hInv.unique i j _ _ _ _ hUsed hOther rfl]
  | empty j =>
      rw [hSearch] at hMeans
      obtain ⟨hFree, t', hPath', hPassed⟩ := hMeans
      rcases Nat.lt_trichotomy t t' with hLt | rfl | hGt
      · rw [(hPassed t hLt).2] at hMatch
        simp at hMatch
      · grind
      · exact absurd (hPath' ▸ hFree) (hBefore t' hGt)
  | wrapped =>
      rw [hSearch] at hMeans
      rw [(hMeans t ht).2] at hMatch
      simp at hMatch

theorem search_found_used (hInv : Shape h) (hSearch : search h key = .found i) :
    ∃ data, h.table i = .used (firstHash h.size key) ⟨key, data⟩ := by
  have hMeans := search_means hInv.size key
  rw [hSearch] at hMeans
  exact Slot.matches_iff.mp hMeans.1

theorem find_eq_some_iff (hInv : Shape h) :
    find h key = some data ↔ Bound h key data := by
  constructor
  · intro hFind
    simp only [find, findIdx] at hFind
    cases hSearch : search h key with
    | found i =>
        obtain ⟨data', hUsed⟩ := search_found_used hInv hSearch
        simp only [hSearch, Option.bind_some, hUsed, Slot.data, Option.some.injEq] at hFind
        exact ⟨i, _, hFind ▸ hUsed⟩
    | empty | wrapped => simp [hSearch] at hFind
  · rintro ⟨i, hval, hUsed⟩
    simp [find, findIdx, hInv.search_eq_found hUsed, hUsed, Slot.data]

theorem find_congr {h' : Htab} (hInv : Shape h) (hInv' : Shape h')
    (hSame : ∀ data, Bound h key data ↔ Bound h' key data) : find h key = find h' key := by
  apply Option.ext
  intro data
  rw [find_eq_some_iff hInv, find_eq_some_iff hInv', hSame]

theorem absent_of_search (hInv : Shape h) (hSearch : ∀ i, search h key ≠ .found i)
    (data : CStr) : ¬Bound h key data := by
  rintro ⟨i, hval, hUsed⟩
  exact hSearch i (hInv.search_eq_found hUsed)

section
variable {slot : Slot}

theorem set_same : (h.set i slot).table i = slot := by
  simp [Htab.set]

theorem set_other {j : Nat} (hne : j ≠ i) : (h.set i slot).table j = h.table j := by
  simp [Htab.set, hne]

theorem live_set_used (hLow : 1 ≤ i) (hHigh : i ≤ h.size) :
    live (h.set i (.used hval e)) = insert i (live h) := by
  ext j
  rw [Finset.mem_insert, mem_live_iff, mem_live_iff]
  by_cases hj : j = i
  · subst hj
    rw [set_same]
    exact ⟨fun _ => .inl rfl, fun _ => ⟨⟨hLow, hHigh⟩, rfl⟩⟩
  · rw [set_other hj]
    exact (or_iff_right hj).symm

theorem live_set_deleted : live (h.set i .deleted) = (live h).erase i := by
  ext j
  rw [Finset.mem_erase, mem_live_iff, mem_live_iff]
  by_cases hj : j = i
  · subst hj
    rw [set_same]
    simp [Slot.isLive]
  · rw [set_other hj]
    exact (and_iff_right hj).symm

theorem Framed.set (hFramed : Framed h) (hLow : 1 ≤ i) (hHigh : i ≤ h.size) {filled : Nat} :
    Framed { h.set i slot with filled := filled } := by
  refine ⟨hFramed.size, fun j (hj : j = 0 ∨ h.size < j) => ?_⟩
  exact (set_other (by omega)).trans (hFramed.outside j hj)

theorem reach_set (hInv : Shape h) (hSlot : slot ≠ .free) {j hval : Nat} {e : Entry}
    (hj : h.table j = .used hval e) :
    hval = firstHash h.size e.key ∧ ∃ t < h.size, path h.size e.key t = j ∧
      ∀ u < t, (h.set i slot).table (path h.size e.key u) ≠ .free := by
  obtain ⟨hHash, t, ht, hPath, hBefore⟩ := hInv.reach j hval e hj
  refine ⟨hHash, t, ht, hPath, fun u hu => ?_⟩
  by_cases hAt : path h.size e.key u = i
  · rw [hAt, set_same]
    exact hSlot
  · rw [set_other hAt]
    exact hBefore u hu

end

theorem Inv.overwrite (hInv : Inv h) {old : CStr}
    (hUsed : h.table i = .used (firstHash h.size key) ⟨key, old⟩) :
    Inv (h.set i (.used (firstHash h.size key) ⟨key, data⟩)) := by
  obtain ⟨hLow, hHigh⟩ := hInv.index_range hUsed
  -- a live slot of the new table is live in the old one, with the same key
  have hOld : ∀ {j hval e}, (h.set i (.used (firstHash h.size key) ⟨key, data⟩)).table j =
      .used hval e → ∃ e', h.table j = .used hval e' ∧ e'.key = e.key := by
    intro j hval e hj
    by_cases hEq : j = i
    · grind [set_same, Slot.used.injEq]
    · grind [set_other]
  refine ⟨⟨hInv.toFramed.set hLow hHigh, ?_, ?_⟩, ?_⟩
  · intro j hval e hj
    obtain ⟨e', hj', hKey⟩ := hOld hj
    have hReach := @reach_set h i (.used (firstHash h.size key) ⟨key, data⟩) hInv.toShape (by simp)
      j hval e' hj'
    rwa [hKey] at hReach
  · intro j j' hval e hval' e' hj hj' hKey
    obtain ⟨d, hd, hdKey⟩ := hOld hj
    obtain ⟨d', hd', hdKey'⟩ := hOld hj'
    exact hInv.unique j j' _ _ _ _ hd hd' (by rw [hdKey, hdKey', hKey])
  · rw [live_set_used hLow hHigh, Finset.insert_eq_of_mem (hInv.mem_live hUsed)]
    exact hInv.filled

/-- A slot on the probe sequence of an absent key, before the first free one, may be
given to it, whatever it held. -/
theorem Shape.create (hInv : Shape h) {t : Nat} (data : CStr) (ht : t < h.size)
    (hPath : path h.size key t = i) (hBefore : ∀ u < t, h.table (path h.size key u) ≠ .free)
    (hAbsent : ∀ d, ¬Bound h key d) :
    Shape (h.set i (.used (firstHash h.size key) ⟨key, data⟩)) := by
  obtain ⟨hLow, hHigh⟩ := path_range hInv.size key ht
  rw [hPath] at hLow hHigh
  refine ⟨hInv.toFramed.set hLow hHigh, ?_, ?_⟩
  · intro j hval e hj
    by_cases hEq : j = i
    · subst hEq
      obtain ⟨rfl, rfl⟩ := Slot.used.inj (set_same.symm.trans hj)
      refine ⟨rfl, t, ht, hPath, fun u hu => ?_⟩
      by_cases hAt : path h.size key u = j
      · exact fun hFree => Slot.noConfusion (set_same.symm.trans (hAt ▸ hFree))
      · exact fun hFree => hBefore u hu ((set_other hAt).symm.trans hFree)
    · exact @reach_set h i _ hInv (by simp) j hval e ((set_other hEq).symm.trans hj)
  · have hFresh : ∀ {j hval e}, j ≠ i →
        (h.set i (.used (firstHash h.size key) ⟨key, data⟩)).table j = .used hval e →
        e.key ≠ key := by
      rintro j hval ⟨k, d⟩ hne hj rfl
      exact hAbsent d ⟨j, hval, (set_other hne).symm.trans hj⟩
    intro j j' hval e hval' e' hj hj' hKey
    by_cases hEq : j = i
    · subst hEq
      obtain ⟨-, rfl⟩ := Slot.used.inj (set_same.symm.trans hj)
      grind
    · by_cases hEq' : j' = i
      · subst hEq'
        grind [Slot.used.inj, set_same]
      · exact hInv.unique j j' _ _ _ _ ((set_other hEq).symm.trans hj)
          ((set_other hEq').symm.trans hj') hKey

theorem Inv.create (hInv : Inv h) {t : Nat} (data : CStr) (ht : t < h.size)
    (hPath : path h.size key t = i) (hBefore : ∀ u < t, h.table (path h.size key u) ≠ .free)
    (hSlot : (h.table i).isLive = false) (hAbsent : ∀ d, ¬Bound h key d) :
    Inv { h.set i (.used (firstHash h.size key) ⟨key, data⟩) with filled := h.filled + 1 } := by
  obtain ⟨⟨hSize, hOutside⟩, hReach, hUnique⟩ :=
    hInv.toShape.create data ht hPath hBefore hAbsent
  obtain ⟨hLow, hHigh⟩ := path_range hInv.size key ht
  refine ⟨⟨⟨hSize, hOutside⟩, hReach, hUnique⟩, ?_⟩
  have hNew : i ∉ live h := by
    rw [mem_live_iff, hSlot]
    simp
  have hLive : live { h.set i (.used (firstHash h.size key) ⟨key, data⟩) with
      filled := h.filled + 1 } = insert i (live h) :=
    live_set_used (hPath ▸ hLow) (hPath ▸ hHigh)
  rw [hLive, Finset.card_insert_of_notMem hNew, ← hInv.filled]

theorem Inv.delete (hInv : Inv h) (hUsed : h.table i = .used hval e) : Inv (hdelete h i) := by
  have hOld : ∀ {j hval e}, (h.set i .deleted).table j = .used hval e → h.table j = .used hval e := by
    intro j hval e hj
    have hne : j ≠ i := by
      rintro rfl
      exact Slot.noConfusion (set_same.symm.trans hj)
    exact (set_other hne).symm.trans hj
  obtain ⟨hLow, hHigh⟩ := hInv.index_range hUsed
  refine ⟨⟨hInv.toFramed.set hLow hHigh, ?_, ?_⟩, ?_⟩
  · intro j hval e hj
    exact @reach_set h i .deleted hInv.toShape (by simp) j hval e (hOld hj)
  · intro j j' hval e hval' e' hj hj' hKey
    exact hInv.unique j j' _ _ _ _ (hOld hj) (hOld hj') hKey
  · have hLive : live (hdelete h i) = (live h).erase i := live_set_deleted
    rw [hLive, Finset.card_erase_of_mem (hInv.mem_live hUsed), ← hInv.filled]
    rfl

end Fire3.Hashtable

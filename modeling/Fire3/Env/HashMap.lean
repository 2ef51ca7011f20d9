import Fire3.Base.Transition
import Fire3.Env.HashInvariant

/-!
The environment hash table as a finite map over whole runs of calls.

An ENTER of a new key goes to the first free slot of its probe sequence, or to a
deleted first slot. Deleted slots further on are not used: when no free slot is
left and the first slot is live, the search comes back to that slot and the new
entry replaces the live one, unless the table is full of live entries.
-/

namespace Fire3.Hashtable
open CString

variable {key : CStr} {h : Htab} {i : Nat}

/-- ENTER of the key would replace the live entry of another key. -/
def Displaces (h : Htab) (key : CStr) : Prop :=
  find h key = none ∧ (∀ i, 1 ≤ i → i ≤ h.size → h.table i ≠ .free) ∧
    (h.table (firstHash h.size key)).isLive = true ∧ h.filled < h.size

theorem find_eq_none_of_search (hSearch : ∀ i, search h key ≠ .found i) :
    find h key = none := by
  cases hCase : search h key with
  | found i => exact absurd hCase (hSearch i)
  | empty i | wrapped => simp [find, findIdx, hCase]

theorem no_free_of_wrapped (hInv : Shape h) (hSearch : search h key = .wrapped)
    (hLow : 1 ≤ i) (hHigh : i ≤ h.size) : h.table i ≠ .free := by
  have hMeans := search_means hInv.size key
  rw [hSearch] at hMeans
  obtain ⟨t, ht, rfl⟩ := exists_path_eq hInv.size key hLow hHigh
  exact (hMeans t ht).1

theorem bound_set {hval : Nat} {data : CStr} {k d : CStr} (hk : k ≠ key)
    (hOnly : ∀ hv e, h.table i = .used hv e → e.key ≠ k) :
    Bound (h.set i (.used hval ⟨key, data⟩)) k d ↔ Bound h k d := by
  constructor
  · rintro ⟨j, hv, hj⟩
    have hne : j ≠ i := by
      grind [Slot.used.inj, set_same, Entry.mk.inj]
    exact ⟨j, hv, (set_other hne).symm.trans hj⟩
  · rintro ⟨j, hv, hj⟩
    have hne : j ≠ i := by
      rintro rfl
      exact hOnly hv ⟨k, d⟩ hj rfl
    exact ⟨j, hv, (set_other hne).trans hj⟩

structure Entered (h h' : Htab) (key data : CStr) : Prop where
  inv : Inv h'
  same : find h' key = some data
  other : ∀ k, k ≠ key → find h' k = find h k

theorem entered_overwrite (hInv : Inv h) (data : CStr)
    (hSearch : search h key = .found i) :
    (enter noHooks h key data).1 = i ∧ i ≠ 0 ∧
      Entered h (enter noHooks h key data).2 key data := by
  obtain ⟨old, hUsed⟩ := search_found_used hInv.toShape hSearch
  obtain ⟨hLow, -⟩ := hInv.index_range hUsed
  have hEnter : enter noHooks h key data =
      (i, h.set i (.used (firstHash h.size key) ⟨key, data⟩)) := by
    simp [enter, hSearch, overwriteEntry, hUsed, noHooks]
  have hNew : Inv (h.set i (.used (firstHash h.size key) ⟨key, data⟩)) := hInv.overwrite hUsed
  rw [hEnter]
  refine ⟨rfl, by omega, hNew, (find_eq_some_iff hNew.toShape).mpr ⟨i, _, set_same⟩, fun k hk => ?_⟩
  refine (find_congr hInv.toShape hNew.toShape fun d => ?_).symm
  grind [bound_set, Slot.used.injEq]

theorem slot_of_new (hInv : Inv h) (hKeep : ¬Displaces h key)
    (hRoom : h.filled ≠ h.size) {idx : Nat} (hSearch : search h key = .empty idx ∨
      (search h key = .wrapped ∧ idx = firstHash h.size key)) :
    ∃ t < h.size, path h.size key t =
        (if h.table (firstHash h.size key) = .deleted then firstHash h.size key else idx) ∧
      (∀ u < t, h.table (path h.size key u) ≠ .free) ∧
      (h.table (if h.table (firstHash h.size key) = .deleted then firstHash h.size key
        else idx)).isLive = false := by
  have hPos : 0 < h.size := by
    obtain ⟨hLow, hHigh⟩ := firstHash_range hInv.size key
    omega
  by_cases hFirst : h.table (firstHash h.size key) = .deleted
  · rw [if_pos hFirst, hFirst]
    exact ⟨0, hPos, rfl, fun u hu => absurd hu (Nat.not_lt_zero u), rfl⟩
  · rw [if_neg hFirst]
    have hMeans := search_means hInv.size key
    have hCard : (live h).card ≤ h.size := by
      refine (Finset.card_le_card (Finset.filter_subset _ _)).trans ?_
      simp
    have hFilled := hInv.filled
    rcases hSearch with hEmpty | ⟨hWrapped, rfl⟩
    · rw [hEmpty] at hMeans
      obtain ⟨hFree, t, hPath, hPassed⟩ := hMeans
      refine ⟨t, ?_, hPath, fun u hu => (hPassed u hu).1, by rw [hFree]; rfl⟩
      -- behind a whole round there is no free slot in the table, and slot 0 is only
      -- reached from a single live slot
      by_contra hLate
      rcases hInv.size with hOne | ⟨hPrime, hFive, hWord⟩
      · have hUsed := (hPassed 0 (by omega)).1
        rw [path_zero] at hUsed
        have hLive : firstHash h.size key ∈ live h := by
          rw [mem_live_iff]
          refine ⟨firstHash_range hInv.size key, ?_⟩
          cases hSlot : h.table (firstHash h.size key) with
          | free => exact absurd hSlot hUsed
          | deleted => exact absurd hSlot hFirst
          | used => rfl
        grind
      · obtain ⟨hStepLow, hStepHigh⟩ := secondHash_range hFive hWord (firstHash h.size key)
        obtain ⟨hLow, hHigh⟩ := firstHash_range hInv.size key
        obtain ⟨hIn, hIn'⟩ := Probing.probe_range hStepLow hStepHigh hLow hHigh t
        obtain ⟨u, hu, hSame⟩ := exists_path_eq hInv.size key hIn hIn'
        refine (hPassed u (by omega)).1 ?_
        rw [hSame]
        exact (congrArg h.table hPath).trans hFree
    · -- a wrapped search with a live first slot is the excluded case
      exfalso
      rw [hWrapped] at hMeans
      refine hKeep ⟨find_eq_none_of_search (by simp [hWrapped]),
        fun i hLow hHigh => no_free_of_wrapped hInv.toShape hWrapped hLow hHigh, ?_, by omega⟩
      have hUsed := (hMeans 0 hPos).1
      rw [path_zero] at hUsed
      cases hSlot : h.table (firstHash h.size key) with
      | free => exact absurd hSlot hUsed
      | deleted => exact absurd hSlot hFirst
      | used => rfl

theorem entered_create (hInv : Inv h) (data : CStr) (hKeep : ¬Displaces h key)
    (hRoom : h.filled ≠ h.size) {idx : Nat} (hSearch : search h key = .empty idx ∨
      (search h key = .wrapped ∧ idx = firstHash h.size key)) :
    (createEntry noHooks h key data idx).1 = 1 ∧
      Entered h (createEntry noHooks h key data idx).2 key data := by
  obtain ⟨t, ht, hPath, hBefore, hSlot⟩ := slot_of_new hInv hKeep hRoom hSearch
  have hNone : ∀ i, search h key ≠ .found i := by
    grind
  have hAbsent := absent_of_search hInv.toShape hNone
  simp only [createEntry, hRoom, if_false, noHooks, Bool.false_eq_true]
  generalize (if h.table (firstHash h.size key) = .deleted then firstHash h.size key else idx) = i
    at hPath hSlot
  have hNew := hInv.create data ht hPath hBefore hSlot hAbsent
  refine ⟨trivial, hNew, (find_eq_some_iff hNew.toShape).mpr ⟨i, _, set_same⟩, fun k hk => ?_⟩
  refine (find_congr hInv.toShape hNew.toShape fun d => ?_).symm
  refine (bound_set hk fun hv e hj => ?_).symm
  rw [hj] at hSlot
  simp [Slot.isLive] at hSlot

/-- An ENTER that displaces nothing succeeds as a map update, or fails on a new key
with every slot live. -/
theorem enter_spec (hInv : Inv h) (data : CStr) (hKeep : ¬Displaces h key) :
    ((enter noHooks h key data).1 ≠ 0 ∧ Entered h (enter noHooks h key data).2 key data) ∨
      (enter noHooks h key data = (0, h) ∧ find h key = none ∧ (live h).card = h.size) := by
  cases hSearch : search h key with
  | found i =>
      obtain ⟨hResult, hne, hEntered⟩ := entered_overwrite hInv data hSearch
      exact .inl ⟨hResult ▸ hne, hEntered⟩
  | empty i =>
      simp only [enter, hSearch]
      by_cases hRoom : h.filled = h.size
      · exact .inr ⟨by simp [createEntry, hRoom], find_eq_none_of_search (by simp [hSearch]),
          hInv.filled ▸ hRoom⟩
      · grind [entered_create]
  | wrapped =>
      simp only [enter, hSearch]
      by_cases hRoom : h.filled = h.size
      · exact .inr ⟨by simp [createEntry, hRoom], find_eq_none_of_search (by simp [hSearch]),
          hInv.filled ▸ hRoom⟩
      · grind [entered_create]

theorem enter_displaces (hInv : Inv h) (data : CStr) (hTakes : Displaces h key) :
    ∃ k d, k ≠ key ∧ find h k = some d ∧ find (enter noHooks h key data).2 k = none := by
  obtain ⟨hNone, hFull, hLive, hRoom⟩ := hTakes
  have hRange := firstHash_range hInv.size key
  have hNotFound : ∀ i, search h key ≠ .found i := by
    intro i hFound
    obtain ⟨d, hUsed⟩ := search_found_used hInv.toShape hFound
    rw [(find_eq_some_iff hInv.toShape).mpr ⟨i, _, hUsed⟩] at hNone
    simp at hNone
  have hAbsent := absent_of_search hInv.toShape hNotFound
  cases hFirst : h.table (firstHash h.size key) with
  | free | deleted => simp [hFirst, Slot.isLive] at hLive
  | used hval e =>
      obtain ⟨k, d⟩ := e
      have hk : k ≠ key := by
        rintro rfl
        exact hAbsent d ⟨_, hval, hFirst⟩
      have hWrapped : search h key = .wrapped := by
        cases hSearch : search h key with
        | found i => exact absurd hSearch (hNotFound i)
        | wrapped => rfl
        | empty i =>
            -- a free slot could only be slot 0, reached from a table of one live slot
            exfalso
            have hMeans := search_means hInv.size key
            rw [hSearch] at hMeans
            obtain ⟨hFree, t, hPath, -⟩ := hMeans
            have hOut : ¬(1 ≤ i ∧ i ≤ h.size) := fun hIn => hFull i hIn.1 hIn.2 hFree
            rcases hInv.size with hOne | ⟨hPrime, hFive, hWord⟩
            · have := Finset.card_pos.mpr ⟨_, hInv.mem_live hFirst⟩
              have := hInv.filled
              omega
            · obtain ⟨hStepLow, hStepHigh⟩ := secondHash_range hFive hWord (firstHash h.size key)
              exact hOut (hPath ▸ Probing.probe_range hStepLow hStepHigh hRange.1 hRange.2 t)
      have hEnter : (enter noHooks h key data).2 =
          { h.set (firstHash h.size key) (.used (firstHash h.size key) ⟨key, data⟩) with
            filled := h.filled + 1 } := by
        simp [enter, hWrapped, createEntry, noHooks, hFirst, hRoom.ne]
      obtain ⟨⟨hSize, hOutside⟩, hReach, hUnique⟩ := hInv.toShape.create data
        (show 0 < h.size by omega) (path_zero h.size key)
        (fun u hu => absurd hu (Nat.not_lt_zero u)) hAbsent
      have hShape : Shape { h.set (firstHash h.size key)
          (.used (firstHash h.size key) ⟨key, data⟩) with filled := h.filled + 1 } :=
        ⟨⟨hSize, hOutside⟩, hReach, hUnique⟩
      refine ⟨k, d, hk, (find_eq_some_iff hInv.toShape).mpr ⟨_, hval, hFirst⟩, ?_⟩
      rw [hEnter]
      apply Option.eq_none_iff_forall_not_mem.mpr
      intro d' hFound
      obtain ⟨j, hv, hj⟩ := (find_eq_some_iff hShape).mp hFound
      have hne : j ≠ firstHash h.size key := by
        rintro rfl
        obtain ⟨-, hEntry⟩ := Slot.used.inj (set_same.symm.trans hj)
        exact hk (Entry.mk.inj hEntry).1.symm
      exact hne (hInv.unique _ _ _ _ _ _ ((set_other hne).symm.trans hj) hFirst rfl)

theorem hdeleteR_spec (hInv : Inv h) (key : CStr) :
    Inv (hdeleteR noHooks h key).2 ∧ find (hdeleteR noHooks h key).2 key = none ∧
      ∀ k, k ≠ key → find (hdeleteR noHooks h key).2 k = find h k := by
  cases hSearch : search h key with
  | empty i | wrapped =>
      have hSame : hdeleteR noHooks h key = (0, h) := by simp [hdeleteR, findIdx, hSearch]
      grind [find_eq_none_of_search]
  | found i =>
      obtain ⟨d, hUsed⟩ := search_found_used hInv.toShape hSearch
      have hDelete : (hdeleteR noHooks h key).2 = hdelete h i := by
        simp [hdeleteR, findIdx, hSearch, hUsed, noHooks]
      have hNew := hInv.delete hUsed
      have hBound : ∀ k d', Bound (hdelete h i) k d' ↔ k ≠ key ∧ Bound h k d' := by
        intro k d'
        constructor
        · rintro ⟨j, hv, hj⟩
          have hne : j ≠ i := by
            rintro rfl
            exact Slot.noConfusion (set_same.symm.trans hj)
          have hOld : h.table j = .used hv ⟨k, d'⟩ := (set_other hne).symm.trans hj
          refine ⟨?_, j, hv, hOld⟩
          rintro rfl
          exact hne (hInv.unique _ _ _ _ _ _ hOld hUsed rfl)
        · rintro ⟨hk, j, hv, hj⟩
          have hne : j ≠ i := by
            grind
          exact ⟨j, hv, (set_other hne).trans hj⟩
      rw [hDelete]
      refine ⟨hNew, ?_, fun k hk => ?_⟩
      · apply Option.eq_none_iff_forall_not_mem.mpr
        intro d' hFound
        exact ((hBound key d').mp ((find_eq_some_iff hNew.toShape).mp hFound)).1 rfl
      · refine (find_congr hInv.toShape hNew.toShape fun d' => ?_).symm
        rw [hBound]
        exact (and_iff_right hk).symm

inductive Call
  | enter (key data : CStr)
  | find (key : CStr)
  | delete (key : CStr)
  deriving DecidableEq, Repr

def step (h : Htab) : Call → Htab
  | .enter key data => (enter noHooks h key data).2
  | .find _ => h
  | .delete key => (hdeleteR noHooks h key).2

def record (h : Htab) (m : CStr → Option CStr) : Call → CStr → Option CStr
  | .enter key data =>
      if (enter noHooks h key data).1 = 0 then m else Function.update m key (some data)
  | .find _ => m
  | .delete key => Function.update m key none

/-- The map a run describes: the last successful ENTER of each key that no delete
followed. -/
def history (h : Htab) (m : CStr → Option CStr) : List Call → CStr → Option CStr
  | [] => m
  | c :: cs => history (step h c) (record h m c) cs

def Keeps (h : Htab) : Call → Prop
  | .enter key _ => ¬Displaces h key
  | .find _ | .delete _ => True

theorem step_inv {h : Htab} {c : Call} (hInv : Inv h) (hKeeps : Keeps h c) : Inv (step h c) := by
  cases c with
  | enter key data =>
      rcases enter_spec hInv data hKeeps with ⟨-, hEntered⟩ | ⟨hFail, -⟩
      · exact hEntered.inv
      · simpa only [step, hFail] using hInv
  | find key => exact hInv
  | delete key => exact (hdeleteR_spec hInv key).1

theorem find_run {m : CStr → Option CStr} {calls : List Call} (hInv : Inv h)
    (hRun : Transition.Meets step Keeps h calls) (hStart : ∀ k, find h k = m k) (k : CStr) :
    find (calls.foldl step h) k = history h m calls k := by
  induction calls generalizing h m with
  | nil => exact hStart k
  | cons c cs ih =>
      refine ih (step_inv hInv hRun.1) hRun.2 fun k' => ?_
      cases c with
      | find key => exact hStart k'
      | delete key =>
          obtain ⟨-, hSame, hOther⟩ := hdeleteR_spec hInv key
          by_cases hk : k' = key
          · subst hk
            simpa only [step, record, Function.update_self] using hSame
          · simpa only [step, record, Function.update_of_ne hk, ← hStart] using hOther k' hk
      | enter key data =>
          rcases enter_spec hInv data hRun.1 with ⟨hResult, hEntered⟩ | ⟨hFail, -⟩
          · rw [record, if_neg hResult]
            by_cases hk : k' = key
            · subst hk
              simpa only [step, Function.update_self] using hEntered.same
            · simpa only [step, Function.update_of_ne hk, ← hStart] using hEntered.other k' hk
          · simp only [step, record, hFail, if_true]
            exact hStart k'

/-- In every state reached by calls none of which displaces a live entry, FIND answers
by the last successful ENTER, an ENTER leaves all other keys alone exactly when it
displaces none, and an ENTER of a new key fails only with every slot live. -/
theorem env_table_is_map {nel : Nat} {h₀ : Htab} (created : hcreateR nel = some h₀)
    {calls : List Call} (kept : Transition.Meets step Keeps h₀ calls) :
    let h := calls.foldl step h₀
    (∀ k, find h k = history h₀ (fun _ => none) calls k) ∧
    ∀ k v, ((∀ k', k' ≠ k → find (enter noHooks h k v).2 k' = find h k') ↔ ¬Displaces h k) ∧
      (find h k = none → ¬Displaces h k → (enter noHooks h k v).1 = 0 →
        (live h).card = h.size) := by
  have hInv₀ := inv_of_hcreateR created
  have hFree₀ : ∀ k, find h₀ k = none := by
    intro k
    obtain ⟨-, -, hFree⟩ := hcreateR_spec created
    exact find_eq_none_of_search (by simp [search, hFree])
  have hInv : Inv (calls.foldl step h₀) :=
    Transition.invariant_of_meets (fun _ _ hi hk => step_inv hi hk) kept hInv₀
  refine ⟨find_run hInv₀ kept hFree₀, fun k v => ⟨⟨fun hOthers hTakes => ?_, fun hKeep => ?_⟩,
    fun _ hKeep hResult => ?_⟩⟩
  · obtain ⟨k', d, hk, hBefore, hAfter⟩ := enter_displaces hInv v hTakes
    grind
  · rcases enter_spec hInv v hKeep with ⟨-, hEntered⟩ | ⟨hFail, -⟩
    · exact hEntered.other
    · simp [hFail]
  · grind [enter_spec]

theorem env_table_is_map_two_keys :
    ∃ h₀, hcreateR 2 = some h₀ ∧
      let h := [Call.enter (ascii "a") (ascii "1"), .enter (ascii "b") (ascii "2"),
        .delete (ascii "a")].foldl step h₀
      find h (ascii "b") = some (ascii "2") ∧ find h (ascii "a") = none := by
  have created : hcreateR 2 = some ⟨5, 0, fun _ => .free⟩ := rfl
  have kept : Transition.Meets step Keeps ⟨5, 0, fun _ => .free⟩
      [.enter (ascii "a") (ascii "1"), .enter (ascii "b") (ascii "2"), .delete (ascii "a")] :=
    ⟨fun hTakes => hTakes.2.1 5 (by decide) (by decide) rfl,
      fun hTakes => hTakes.2.1 5 (by decide) (by decide) rfl, trivial, trivial⟩
  obtain ⟨hFind, -⟩ := env_table_is_map created kept
  exact ⟨_, created, (hFind _).trans (by decide), (hFind _).trans (by decide)⟩

/-- With one deleted slot left and no free one, entering `f` takes the slot of `a`. -/
theorem env_table_loses_key :
    ∃ h₀, hcreateR 2 = some h₀ ∧
      let h := [Call.enter (ascii "a") (ascii "1"), .enter (ascii "b") (ascii "2"),
        .enter (ascii "c") (ascii "3"), .enter (ascii "e") (ascii "4"),
        .enter (ascii "d") (ascii "5"), .delete (ascii "b")].foldl step h₀
      find h (ascii "a") = some (ascii "1") ∧
      (enter noHooks h (ascii "f") (ascii "6")).1 = 1 ∧
      find (enter noHooks h (ascii "f") (ascii "6")).2 (ascii "a") = none := by
  exact ⟨⟨5, 0, fun _ => .free⟩, rfl, by decide +kernel, by decide +kernel, by decide +kernel⟩

end Fire3.Hashtable

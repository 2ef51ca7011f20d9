import Fire3.Env.HashInvariant

/-!
The iteration over the environment by a prefix of the keys: `hmatch_r` of `lib/hashtable.c`.

Each call looks for the next live entry behind the slot of the last one. It stops before the last
slot of the table, which entries can have like any other one.
-/

namespace Fire3.Hashtable
open CString

variable {i hval idx : Nat} {e : Entry}

def Slot.startsWith (slot : Slot) (m : CStr) : Bool :=
  match slot with
  | .used _ entry => strncmpEq m entry.key m.length
  | .free | .deleted => false

def hmatchLoop (h : Htab) (m : CStr) : Nat → Nat → Nat
  | 0, _ => 0
  | fuel + 1, idx =>
      if idx < h.size then
        if (h.table idx).startsWith m then idx else hmatchLoop h m fuel (idx + 1)
      else 0

def hmatchR (m : CStr) (lastIdx : Nat) (h : Htab) : Nat := hmatchLoop h m h.size (lastIdx + 1)

inductive Visits (h : Htab) (m : CStr) : Nat → List Nat → Prop
  | done {lastIdx : Nat} : hmatchR m lastIdx h = 0 → Visits h m lastIdx []
  | next {lastIdx : Nat} {indices : List Nat} : hmatchR m lastIdx h ≠ 0 →
      Visits h m (hmatchR m lastIdx h) indices →
      Visits h m lastIdx (hmatchR m lastIdx h :: indices)

def LiveAt (h : Htab) (m : CStr) (idx : Nat) : Prop :=
  ∃ hval entry, h.table idx = .used hval entry ∧ m <+: entry.key

/-- The iteration ends and visits the live entries whose keys start with `m`, each once. -/
def IterationComplete (h : Htab) (m : CStr) : Prop :=
  ∃ indices, Visits h m 0 indices ∧ indices.Nodup ∧ ∀ idx, idx ∈ indices ↔ LiveAt h m idx

/-- The tables that inserts and deletes lead to, whatever the hooks reject. -/
inductive Reached : Htab → Prop
  | created {nel : Nat} {h : Htab} : hcreateR nel = some h → Reached h
  | entered {h : Htab} (hooks : Hooks) (key data : CStr) : Reached h →
      Reached (enter hooks h key data).2
  | deleted {h : Htab} (hooks : Hooks) (key : CStr) : Reached h →
      Reached (hdeleteR hooks h key).2

theorem startsWith_iff {h : Htab} {m : CStr} :
    (h.table idx).startsWith m = true ↔ LiveAt h m idx := by
  rw [LiveAt]
  cases hSlot : h.table idx with
  | free | deleted => simp [Slot.startsWith]
  | used hval entry =>
      simp [Slot.startsWith, strncmpEq, List.prefix_iff_eq_take]

section
variable {h : Htab} {m : CStr}

theorem hmatchLoop_spec {fuel idx : Nat} (hFuel : h.size ≤ fuel + idx) :
    (hmatchLoop h m fuel idx = 0 ∧ ∀ j, idx ≤ j → j < h.size → ¬LiveAt h m j) ∨
      (idx ≤ hmatchLoop h m fuel idx ∧ hmatchLoop h m fuel idx < h.size ∧
        LiveAt h m (hmatchLoop h m fuel idx) ∧
        ∀ j, idx ≤ j → j < hmatchLoop h m fuel idx → ¬LiveAt h m j) := by
  induction fuel generalizing idx with
  | zero => exact .inl ⟨rfl, fun j hLow hHigh => by omega⟩
  | succ fuel ih =>
      rw [hmatchLoop]
      by_cases hIn : idx < h.size
      · rw [if_pos hIn]
        by_cases hHere : LiveAt h m idx
        · rw [if_pos (startsWith_iff.mpr hHere)]
          grind
        · rw [if_neg (fun hStarts => hHere (startsWith_iff.mp hStarts))]
          have hBehind {j : Nat} (hLow : idx ≤ j) (hOther : idx + 1 ≤ j → ¬LiveAt h m j) :
              ¬LiveAt h m j := by
            grind
          rcases ih (show h.size ≤ fuel + (idx + 1) by omega) with ⟨hZero, hNone⟩ | hSome
          · grind
          · grind
      · grind

theorem exists_visits (lastIdx : Nat) :
    ∃ indices, Visits h m lastIdx indices ∧ indices.Nodup ∧
      ∀ idx, idx ∈ indices ↔ lastIdx < idx ∧ idx < h.size ∧ LiveAt h m idx := by
  -- by the number of slots behind the last index
  induction hLeft : h.size - lastIdx using Nat.strong_induction_on generalizing lastIdx with
  | _ left ih =>
      rcases @hmatchLoop_spec h m h.size (lastIdx + 1) (by omega) with ⟨hZero, hNone⟩ | hSome
      · refine ⟨[], .done hZero, List.nodup_nil, fun idx => ⟨fun hIn => absurd hIn List.not_mem_nil, ?_⟩⟩
        grind
      · obtain ⟨hLe, hLt, hLive, hNone⟩ := hSome
        change lastIdx + 1 ≤ hmatchR m lastIdx h at hLe
        change hmatchR m lastIdx h < h.size at hLt
        obtain ⟨indices, hVisits, hNodup, hMem⟩ :=
          ih (h.size - hmatchR m lastIdx h) (by omega) (hmatchR m lastIdx h) rfl
        refine ⟨_, .next (by omega) hVisits, List.nodup_cons.mpr ⟨fun hIn => ?_, hNodup⟩,
          fun idx => ?_⟩
        · exact Nat.lt_irrefl _ ((hMem _).mp hIn).1
        · rw [List.mem_cons, hMem]
          constructor
          · rintro (rfl | ⟨hLow, hHigh, hAt⟩)
            · exact ⟨by omega, hLt, hLive⟩
            · exact ⟨by omega, hHigh, hAt⟩
          · rintro ⟨hLow, hHigh, hAt⟩
            rcases Nat.lt_trichotomy idx (hmatchR m lastIdx h) with hBefore | hEq | hBehind
            · exact absurd hAt (hNone idx hLow hBefore)
            · exact .inl hEq
            · exact .inr ⟨hBehind, hHigh, hAt⟩

theorem Visits.unique {lastIdx : Nat} {indices indices' : List Nat}
    (hFirst : Visits h m lastIdx indices) (hSecond : Visits h m lastIdx indices') :
    indices = indices' := by
  induction hFirst generalizing indices' with
  | done hZero =>
      cases hSecond with
      | done => rfl
      | next hMore => exact absurd hZero hMore
  | next hMore _ ih =>
      cases hSecond with
      | done hZero => exact absurd hZero hMore
      | next _ hRest => rw [ih hRest]

end

/-- Where entries are in a table that inserts and deletes lead to, also if an insert has taken
the slot of another live entry. -/
structure Placed (h : Htab) : Prop extends Framed h where
  counted : (live h).card ≤ h.filled
  filled : h.filled ≤ h.size

namespace Placed
variable {h : Htab}

theorem of_hcreateR {nel : Nat} (hCreate : hcreateR nel = some h) : Placed h := by
  have hInv := inv_of_hcreateR hCreate
  obtain ⟨-, hFilled, -⟩ := hcreateR_spec hCreate
  exact ⟨hInv.toFramed, hInv.filled.ge, by omega⟩

theorem hdelete (hPlaced : Placed h) (hUsed : h.table i = .used hval e) : Placed (hdelete h i) := by
  obtain ⟨hLow, hHigh⟩ := hPlaced.index_range hUsed
  have hCounted := hPlaced.counted
  have hFilled := hPlaced.filled
  refine ⟨hPlaced.toFramed.set hLow hHigh, ?_, ?_⟩
  · change (live (h.set i .deleted)).card ≤ h.filled - 1
    rw [live_set_deleted, Finset.card_erase_of_mem (hPlaced.mem_live hUsed)]
    omega
  · change h.filled - 1 ≤ h.size
    omega

theorem overwriteEntry (hPlaced : Placed h) (hooks : Hooks) (idx : Nat) (data : CStr) :
    Placed (overwriteEntry hooks h idx data).2 := by
  rw [Hashtable.overwriteEntry]
  split
  · rename_i hval entry hUsed
    split
    · exact hPlaced
    · obtain ⟨hLow, hHigh⟩ := hPlaced.index_range hUsed
      refine ⟨hPlaced.toFramed.set hLow hHigh, ?_, hPlaced.filled⟩
      dsimp only
      rw [live_set_used hLow hHigh, Finset.insert_eq_of_mem (hPlaced.mem_live hUsed)]
      exact hPlaced.counted
  · exact hPlaced
  · exact hPlaced

theorem create_range (hPlaced : Placed h) {key : CStr} (hRoom : h.filled ≠ h.size)
    (hSearch : search h key = .empty idx ∨
      (search h key = .wrapped ∧ idx = firstHash h.size key))
    (hFirst : h.table (firstHash h.size key) ≠ .deleted) : 1 ≤ idx ∧ idx ≤ h.size := by
  have hRange := firstHash_range hPlaced.size key
  rcases hSearch with hEmpty | ⟨-, rfl⟩
  · have hMeans := search_means hPlaced.size key
    rw [hEmpty] at hMeans
    obtain ⟨-, t, hPath, hPassed⟩ := hMeans
    rcases hPlaced.size with hOne | ⟨hPrime, hFive, hWord⟩
    · cases t with
      | zero => exact hPath ▸ hRange
      | succ t =>
          -- the only slot is live, so the table would be full
          exfalso
          have hUsed := (hPassed 0 (Nat.succ_pos t)).1
          rw [path_zero] at hUsed
          cases hSlot : h.table (firstHash h.size key) with
          | free => exact hUsed hSlot
          | deleted => exact hFirst hSlot
          | used hval e =>
              have hCard := Finset.card_pos.mpr ⟨_, hPlaced.mem_live hSlot⟩
              have hCounted := hPlaced.counted
              have hFilled := hPlaced.filled
              omega
    · obtain ⟨hStepLow, hStepHigh⟩ := secondHash_range hFive hWord (firstHash h.size key)
      exact hPath ▸ Probing.probe_range hStepLow hStepHigh hRange.1 hRange.2 t
  · exact hRange

theorem createEntry (hPlaced : Placed h) (hooks : Hooks) {key : CStr} (data : CStr)
    (hSearch : search h key = .empty idx ∨
      (search h key = .wrapped ∧ idx = firstHash h.size key)) :
    Placed (createEntry hooks h key data idx).2 := by
  rw [Hashtable.createEntry]
  dsimp only
  by_cases hRoom : h.filled = h.size
  · rw [if_pos hRoom]
    exact hPlaced
  · have hIn : 1 ≤ (if h.table (firstHash h.size key) = .deleted then firstHash h.size key else idx) ∧
        (if h.table (firstHash h.size key) = .deleted then firstHash h.size key else idx) ≤
          h.size := by
      split
      · exact firstHash_range hPlaced.size key
      · rename_i hFirst
        exact hPlaced.create_range hRoom hSearch hFirst
    generalize (if h.table (firstHash h.size key) = .deleted then firstHash h.size key else idx) = i
      at hIn
    have hCounted := hPlaced.counted
    have hFilled := hPlaced.filled
    have hCreated : Placed { h.set i (.used (firstHash h.size key) ⟨key, data⟩) with
        filled := h.filled + 1 } := by
      refine ⟨hPlaced.toFramed.set hIn.1 hIn.2, ?_, ?_⟩
      · change (live (h.set i _)).card ≤ h.filled + 1
        grind [live_set_used, Finset.card_insert_le]
      · change h.filled + 1 ≤ h.size
        omega
    rw [if_neg hRoom]
    split
    · exact hCreated.hdelete set_same
    · exact hCreated

end Placed

theorem Reached.placed {h : Htab} (hReached : Reached h) : Placed h := by
  induction hReached with
  | created hCreate => exact .of_hcreateR hCreate
  | entered hooks key data _ ih =>
      rw [enter]
      split
      · exact ih.overwriteEntry hooks _ data
      · grind [ih.createEntry]
      · grind [ih.createEntry]
  | deleted hooks key _ ih =>
      rw [hdeleteR]
      split
      · exact ih
      · split
        · grind [ih.hdelete]
        · exact ih
        · exact ih

/-- The iteration is complete exactly if the last slot has no entry to visit. -/
theorem env_iteration_iff {h : Htab} (hReached : Reached h) (m : CStr) :
    IterationComplete h m ↔ ¬LiveAt h m h.size := by
  obtain ⟨indices, hVisits, hNodup, hMem⟩ := @exists_visits h m 0
  constructor
  · rintro ⟨indices', hVisits', -, hMem'⟩ hLast
    obtain rfl := hVisits.unique hVisits'
    grind
  · intro hLast
    refine ⟨indices, hVisits, hNodup, fun idx => ?_⟩
    rw [hMem]
    constructor
    · exact fun hIn => hIn.2.2
    · intro hLive
      obtain ⟨hval, entry, hUsed, -⟩ := id hLive
      obtain ⟨hLow, hHigh⟩ := hReached.placed.index_range hUsed
      grind

def twoKeys : Htab :=
  (enter noHooks (enter noHooks ⟨5, 0, fun _ => .free⟩ (ascii "b") (ascii "1")).2
    (ascii "e") (ascii "2")).2

theorem reached_twoKeys : Reached twoKeys :=
  .entered _ _ _ (.entered _ _ _ (@Reached.created 4 ⟨5, 0, fun _ => .free⟩ rfl))

theorem env_iteration_two_keys : IterationComplete twoKeys [] ∧ LiveAt twoKeys [] 4 := by
  refine ⟨(env_iteration_iff reached_twoKeys []).mpr fun hLast => ?_, ?_⟩
  · exact absurd (startsWith_iff.mpr hLast) (by decide)
  · exact startsWith_iff.mp (by decide)

/-- A third key that finds the slots of the others taken goes to the last slot. -/
theorem env_iteration_misses_last :
    ∃ h, Reached h ∧ find h (ascii "g") = some (ascii "3") ∧ ¬IterationComplete h (ascii "g") := by
  have hReached : Reached (enter noHooks twoKeys (ascii "g") (ascii "3")).2 :=
    .entered _ _ _ reached_twoKeys
  refine ⟨_, hReached, by decide, fun hComplete => ?_⟩
  obtain ⟨indices, hVisits, -, hMem⟩ := hComplete
  have hNone : hmatchR (ascii "g") 0 (enter noHooks twoKeys (ascii "g") (ascii "3")).2 = 0 := by
    decide
  have hIn := (hMem 5).mpr (startsWith_iff.mp (by decide))
  rw [hVisits.unique (.done hNone)] at hIn
  cases hIn

end Fire3.Hashtable

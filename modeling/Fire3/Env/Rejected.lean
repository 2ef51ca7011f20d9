import Fire3.Env.HashMap

/-!
Changes of the environment hash table that a hook rejects.

A rejected ENTER of a new key stores the entry, counts it and takes it out again
through `_hdelete`, which leaves a deleted slot. A free slot that is lost in this
way is missing later: with no free slot left, the next new key takes the place of
a live entry.
-/

namespace Fire3.Hashtable
open CString

def answer (hooks : Hooks) (h : Htab) : Call → Bool × Option CStr
  | .enter key data => ((enter hooks h key data).1 ≠ 0, none)
  | .find key => ((find h key).isSome, find h key)
  | .delete key => ((hdeleteR hooks h key).1 ≠ 0, none)

def after (h : Htab) : Hooks × Call → Htab
  | (hooks, .enter key data) => (enter hooks h key data).2
  | (_, .find _) => h
  | (hooks, .delete key) => (hdeleteR hooks h key).2

def rejected (h : Htab) : Hooks × Call → Bool
  | (hooks, .enter key data) => match find h key with
    | some old => hooks .overwrite ⟨key, old⟩ (some data)
    | none => hooks .create ⟨key, data⟩ (some data)
  | (_, .find _) => false
  | (hooks, .delete key) => match find h key with
    | some old => hooks .delete ⟨key, old⟩ none
    | none => false

/-- The answers of a run, each with whether the call was rejected. -/
def answers (h : Htab) : List (Hooks × Call) → List (Bool × Bool × Option CStr)
  | [] => []
  | c :: cs => (rejected h c, answer c.1 h c.2) :: answers (after h c) cs

def accepted (h : Htab) : List (Hooks × Call) → List (Hooks × Call)
  | [] => []
  | c :: cs => (if rejected h c then [] else [c]) ++ accepted (after h c) cs

/-- A rejected change loses no free slot: its key is bound, or the table is full of counted
entries, or the first slot of the key is a deleted one already. -/
def Harmless (h : Htab) (c : Hooks × Call) : Prop :=
  rejected h c = true → match c.2 with
    | .enter key _ => find h key ≠ none ∨ h.filled = h.size ∨
        h.table (firstHash h.size key) = .deleted
    | .find _ | .delete _ => True

section
variable {h : Htab} {key : CStr}

theorem searchLoop_found {hval hval2 fuel idx i : Nat}
    (hSearch : searchLoop h key hval hval2 fuel idx = .found i) :
    (h.table i).matches hval key = true := by
  induction fuel generalizing idx with
  | zero => cases hSearch
  | succ fuel ih =>
      simp only [searchLoop] at hSearch
      split at hSearch
      · cases hSearch
      · split at hSearch
        · rename_i hMatch
          exact Search.found.inj hSearch ▸ hMatch
        · split at hSearch
          · exact ih hSearch
          · cases hSearch

theorem search_found_data {i : Nat} (hSearch : search h key = .found i) :
    ∃ hval old, h.table i = .used hval ⟨key, old⟩ ∧ find h key = some old := by
  have hMatch : (h.table i).matches (firstHash h.size key) key = true := by
    rw [search] at hSearch
    split at hSearch
    · cases hSearch
    · split at hSearch
      · rename_i hMatch
        exact Search.found.inj hSearch ▸ hMatch
      · exact searchLoop_found hSearch
  obtain ⟨old, hUsed⟩ := Slot.matches_iff.mp hMatch
  exact ⟨_, old, hUsed, by simp [find, findIdx, hSearch, hUsed, Slot.data]⟩

theorem createEntry_rejected {hooks : Hooks} {data : CStr}
    (hReject : hooks .create ⟨key, data⟩ (some data) = true)
    (hLost : h.filled = h.size ∨ h.table (firstHash h.size key) = .deleted) (idx : Nat) :
    createEntry hooks h key data idx = (0, h) := by
  by_cases hFull : h.filled = h.size
  · simp [createEntry, hFull]
  · have hFirst := hLost.resolve_left hFull
    have hSame : h.set (firstHash h.size key) .deleted = h := by
      rw [Htab.set, ← hFirst, Function.update_eq_self]
    simpa [createEntry, hFull, hFirst, hReject, hdelete, Htab.set] using hSame

/-- A rejected call that is harmless fails and leaves the table as it was. -/
theorem rejected_step {c : Hooks × Call} (hReject : rejected h c = true) (hOk : Harmless h c) :
    (answer c.1 h c.2).1 = false ∧ after h c = h := by
  have hLost := hOk hReject
  obtain ⟨hooks, call⟩ := c
  cases call with
  | find key => cases hReject
  | enter key data =>
      have hSame : enter hooks h key data = (0, h) := by
        cases hSearch : search h key with
        | found i =>
            obtain ⟨hval, old, hUsed, hFind⟩ := search_found_data hSearch
            simp only [rejected, hFind] at hReject
            simp [enter, hSearch, overwriteEntry, hUsed, hReject]
        | empty i | wrapped =>
            have hNone : find h key = none := find_eq_none_of_search (by simp [hSearch])
            simp only [rejected, hNone] at hReject hLost
            simp only [enter, hSearch]
            exact createEntry_rejected hReject (hLost.resolve_left (not_not_intro rfl)) _
      simp [answer, after, hSame]
  | delete key =>
      have hSame : hdeleteR hooks h key = (0, h) := by
        cases hSearch : search h key with
        | found i =>
            obtain ⟨hval, old, hUsed, hFind⟩ := search_found_data hSearch
            simp only [rejected, hFind] at hReject
            simp [hdeleteR, findIdx, hSearch, hUsed, hReject]
        | empty i | wrapped => simp [hdeleteR, findIdx, hSearch]
      simp [answer, after, hSame]

end

/-- In a run whose rejected changes are all harmless these calls fail, and the other calls
have the answers, and the table ends in the state, of the run without them. -/
theorem rejected_calls_no_effect {h : Htab} {calls : List (Hooks × Call)}
    (harmless : Transition.Meets after Harmless h calls) :
    (∀ a ∈ answers h calls, a.1 = true → a.2.1 = false) ∧
      (answers h calls).filter (!·.1) = answers h (accepted h calls) ∧
      calls.foldl after h = (accepted h calls).foldl after h := by
  induction calls generalizing h with
  | nil => simp [answers, accepted]
  | cons c cs ih =>
      obtain ⟨hFail, hAnswers, hEnd⟩ := ih harmless.2
      cases hCase : rejected h c with
      | true =>
          obtain ⟨hZero, hSame⟩ := rejected_step hCase harmless.1
          rw [hSame] at hFail hAnswers hEnd
          simp only [answers, accepted, hCase, hSame, List.foldl_cons]
          refine ⟨?_, by simpa using hAnswers, by simpa using hEnd⟩
          rw [List.forall_mem_cons]
          exact ⟨fun _ => hZero, hFail⟩
      | false =>
          simp only [answers, accepted, hCase, List.foldl_cons]
          refine ⟨?_, by simpa [answers, hCase] using hAnswers, by simpa using hEnd⟩
          rw [List.forall_mem_cons]
          exact ⟨fun hTrue => Bool.noConfusion hTrue, hFail⟩

def rejectAll : Hooks := fun _ _ _ => true

/-- Overwriting and deleting `a` are rejected, and `a` keeps its data. -/
theorem rejected_calls_no_effect_on_bound_key :
    let h : Htab := ⟨5, 0, fun _ => .free⟩
    let calls := [(noHooks, Call.enter (ascii "a") (ascii "1")),
      (rejectAll, .enter (ascii "a") (ascii "2")), (rejectAll, .delete (ascii "a")),
      (noHooks, .find (ascii "a"))]
    (answers h calls).filter (!·.1) = [(false, true, none), (false, true, some (ascii "1"))] := by
  intro h calls
  have harmless : Transition.Meets after Harmless h calls :=
    ⟨fun hReject => absurd hReject (by decide +kernel), fun _ => .inl (by decide +kernel),
      fun _ => trivial, fun _ => trivial, trivial⟩
  rw [(rejected_calls_no_effect harmless).2.1]
  decide +kernel

/-- A rejected ENTER of `d` takes the last free slot: `f` then displaces `a`, which it
does not do without the rejected call. -/
theorem rejected_enter_loses_slot :
    ∃ h₀, hcreateR 2 = some h₀ ∧
      let h := [Call.enter (ascii "a") (ascii "1"), .enter (ascii "b") (ascii "2"),
        .enter (ascii "c") (ascii "3"), .enter (ascii "e") (ascii "4")].foldl step h₀
      let h' := (enter rejectAll h (ascii "d") (ascii "5")).2
      (enter rejectAll h (ascii "d") (ascii "5")).1 = 0 ∧
      find (enter noHooks h (ascii "f") (ascii "6")).2 (ascii "a") = some (ascii "1") ∧
      find (enter noHooks h' (ascii "f") (ascii "6")).2 (ascii "a") = none := by
  exact ⟨⟨5, 0, fun _ => .free⟩, rfl, by decide +kernel, by decide +kernel, by decide +kernel⟩

end Fire3.Hashtable

import Fire3.Factory.RoundTrip

/-!
What `read` returns after `write`, `save` and `load`. A written value is found
under its name until the name is written again or the list is replaced, and a
save followed by a load from the same place brings the list back.
-/

namespace Fire3.FactoryInfo
open ByteMemory CString Block

variable {s t : State} {name : Arg} {r : Int}

theorem ofArray_arg (a : Arg) : ofArray a.val = a.val := by
  apply List.takeWhile_eq_self_iff.mpr
  grind

theorem find_updateFound_same (name value : CStr) (es : List Entity) :
    (updateFound name value es).find? (·.named name) =
      (es.find? (·.named name)).map (updateEntityValue · value) := by
  induction es with
  | nil => rfl
  | cons e es ih =>
      simp only [updateFound]
      split
      · rename_i hNamed
        have hKept : (updateEntityValue e value).named name = true := hNamed
        simp [hNamed, hKept]
      · rename_i hOther
        simp [hOther, ih]

theorem find_updateFound_other {name other : CStr} (h : other ≠ name) (value : CStr)
    (es : List Entity) :
    (updateFound name value es).find? (·.named other) = es.find? (·.named other) := by
  induction es with
  | nil => rfl
  | cons e es ih =>
      simp only [updateFound]
      split
      · rename_i hNamed
        have hOther : e.named other = false := by
          simp only [Entity.named, beq_iff_eq] at hNamed
          grind [Entity.named, beq_false_of_ne]
        have hKept : (updateEntityValue e value).named other = false := hOther
        simp [hOther, hKept]
      · simp only [List.find?_cons, ih]

/-- What a write does to the list: a new value for the first entity of the name,
or a new entity at the end. -/
theorem factoryInfoWriteEntity_entities {value : Arg} (hs : Loaded s)
    (h : factoryInfoWriteEntity s name value = some (r, t)) :
    t.buf = s.buf ∧ t.mmc = s.mmc ∧ t.infoLoaded = true ∧
      t.entityList.entities =
        if (findEntity s.entityList name).isSome then
          updateFound name value s.entityList.entities
        else s.entityList.entities ++ [allocNewEntity name value] := by
  simp only [factoryInfoWriteEntity, hs.loaded, Bool.not_true, Bool.false_eq_true, if_false] at h
  split at h
  · grind [Option.map_eq_some_iff, Prod.mk.injEq, alloc_eq_some]
  · grind [Option.map_eq_some_iff, Prod.mk.injEq, alloc_eq_some]

theorem allocNewEntity_named (name : Arg) (value other : CStr) :
    (allocNewEntity name.val value).named other = (name.val == other) := by
  simp only [Entity.named, allocNewEntity, ofArray_arg]

theorem read_write_same {value : Arg} (hs : Loaded s)
    (h : factoryInfoWriteEntity s name value = some (r, t)) :
    factoryInfoReadEntity t name = some value.val := by
  obtain ⟨-, -, hLoaded, hEntities⟩ := factoryInfoWriteEntity_entities hs h
  simp only [factoryInfoReadEntity, hLoaded, Bool.not_true, Bool.false_eq_true, if_false,
    findEntity]
  cases hFind : findEntity s.entityList name with
  | some e =>
      simp only [hFind, Option.isSome_some, if_true] at hEntities
      grind [findEntity, find_updateFound_same, updateEntityValue, ofArray_arg]
  | none =>
      simp only [hFind, Option.isSome_none, Bool.false_eq_true, if_false] at hEntities
      rw [findEntity] at hFind
      have hNew : (allocNewEntity name.val value.val).named name.val = true := by
        rw [allocNewEntity_named, beq_self_eq_true]
      have hVal : (allocNewEntity name.val value.val).val = value.val := rfl
      grind [ofArray_arg]

theorem read_write_other {value other : Arg} (hs : Loaded s) (hne : other ≠ name)
    (h : factoryInfoWriteEntity s name value = some (r, t)) :
    factoryInfoReadEntity t other = factoryInfoReadEntity s other := by
  obtain ⟨-, -, hLoaded, hEntities⟩ := factoryInfoWriteEntity_entities hs h
  have hne' : other.val ≠ name.val := fun hEq => hne (Subtype.ext hEq)
  simp only [factoryInfoReadEntity, hLoaded, hs.loaded, Bool.not_true, Bool.false_eq_true,
    if_false, findEntity]
  split at hEntities
  · rw [hEntities, find_updateFound_other hne']
  · have hNew : (allocNewEntity name.val value.val).named other.val = false := by
      rw [allocNewEntity_named]
      exact beq_false_of_ne hne'.symm
    simp [hEntities, List.find?_append, hNew]

def Command.keeps (name : Arg) : Command → Prop
  | .load _ | .clean => False
  | .write name' _ => name' ≠ name
  | .save _ | .other => True

def Command.offline : Command → Prop
  | .load _ | .save _ => False
  | .write _ _ | .clean | .other => True

theorem step_keeps {i : Invocation} (hs : Loaded s) (hKeeps : (doFactoryInfo i.argv).keeps name)
    (h : step s i = some t) : factoryInfoReadEntity t name = factoryInfoReadEntity s name := by
  simp only [step] at h
  cases hCmd : doFactoryInfo i.argv with
  | load p => simp [hCmd, Command.keeps] at hKeeps
  | save p =>
      simp only [hCmd, execute, Option.some.injEq] at h
      obtain ⟨buf, mmc, totalBytes, hSave⟩ := factoryInfoSave_frame s p i.budget
      rw [← h, hSave]
      rfl
  | write other value =>
      simp only [hCmd, Command.keeps] at hKeeps
      simp only [hCmd, execute, Option.map_eq_some_iff, Prod.exists] at h
      grind [read_write_other]
  | clean => simp [hCmd, Command.keeps] at hKeeps
  | other =>
      simp only [hCmd, execute, Option.some.injEq] at h
      rw [h]

theorem run_keeps {is : List Invocation} (hs : Loaded s)
    (hKeeps : ∀ i ∈ is, (doFactoryInfo i.argv).keeps name) (h : Transition.run step s is = some t) :
    factoryInfoReadEntity t name = factoryInfoReadEntity s name := by
  induction is generalizing s with
  | nil =>
      rw [Transition.run_nil, Option.some.injEq] at h
      rw [h]
  | cons i is ih =>
      obtain ⟨r, hStep, hRest⟩ := Transition.run_cons_eq_some.mp h
      grind [step_loaded, List.mem_cons_of_mem, step_keeps, List.mem_cons_self]

theorem step_offline {i : Invocation} (hs : Loaded s) (hOff : (doFactoryInfo i.argv).offline)
    (h : step s i = some t) : t.buf = s.buf ∧ t.mmc = s.mmc := by
  simp only [step] at h
  cases hCmd : doFactoryInfo i.argv with
  | load p | save p => simp [hCmd, Command.offline] at hOff
  | write name value =>
      simp only [hCmd, execute, Option.map_eq_some_iff, Prod.exists] at h
      grind [factoryInfoWriteEntity_entities]
  | clean =>
      simp only [hCmd, execute, factoryInfoClean, hs.loaded, Option.some.injEq] at h
      rw [← h]
      exact ⟨rfl, rfl⟩
  | other =>
      simp only [hCmd, execute, Option.some.injEq] at h
      rw [h]
      exact ⟨rfl, rfl⟩

theorem run_offline {is : List Invocation} (hs : Loaded s)
    (hOff : ∀ i ∈ is, (doFactoryInfo i.argv).offline) (h : Transition.run step s is = some t) :
    t.buf = s.buf ∧ t.mmc = s.mmc := by
  induction is generalizing s with
  | nil =>
      grind [Transition.run_nil, Option.some.injEq]
  | cons i is ih =>
      obtain ⟨r, hStep, hRest⟩ := Transition.run_cons_eq_some.mp h
      obtain ⟨hBuf, hMmc⟩ := step_offline hs (hOff i List.mem_cons_self) hStep
      obtain ⟨hBuf', hMmc'⟩ :=
        ih (step_loaded hs hStep) (fun j hj => hOff j (List.mem_cons_of_mem _ hj)) hRest
      exact ⟨hBuf'.trans hBuf, hMmc'.trans hMmc⟩

theorem fiMmcLoad_after_save {p : Place} {budget budget' : Budget}
    (hSave : (fiMmcSave s p budget).1 = false) (hBuf : t.buf = s.buf)
    (hMmc : t.mmc = (fiMmcSave s p budget).2.mmc) (hLoad : (fiMmcLoad t p budget').1 = false) :
    (fiMmcLoad t p budget').2 = t := by
  cases hDev : s.mmc p.dev with
  | none => simp [fiMmcSave, hDev] at hSave
  | some mmc =>
      simp only [fiMmcSave, hDev, ne_eq, decide_not, Bool.not_eq_false', decide_eq_true_eq] at hSave
      have hCard := mmcBwrite_bytes hSave
      have hFound : t.mmc p.dev = some { mmc with
          bytes := store mmc.bytes (512 * p.blk) (load s.buf 0 (512 * p.cnt)) } := by
        rw [hMmc, ← hCard]
        simp [fiMmcSave, hDev]
      simp only [fiMmcLoad, hFound, ne_eq, decide_not, Bool.not_eq_false',
        decide_eq_true_eq] at hLoad
      have hRead := mmcBread_bytes hLoad
      have hSame : load (store mmc.bytes (512 * p.blk) (load s.buf 0 (512 * p.cnt))) (512 * p.blk)
          (512 * p.cnt) = load s.buf 0 (512 * p.cnt) := by
        have hStored := load_store_same mmc.bytes (512 * p.blk) (load s.buf 0 (512 * p.cnt))
        rwa [length_load] at hStored
      simp only [hSame, hBuf, store_load] at hRead
      simp only [fiMmcLoad, hFound, hBuf, hRead]
      rw [← hBuf]

/-- A load from the place just saved to does not fail in an allocation, and if the
transfer succeeds it brings the saved list back. -/
theorem factoryInfoLoad_after_save {saved : State} {p : Place} {budget : Budget} (budget' : Budget)
    (hs : Loaded s) (hSave : factoryInfoSave s p budget = (0, saved)) (hBuf : t.buf = saved.buf)
    (hMmc : t.mmc = saved.mmc) :
    ∃ r u, factoryInfoLoad t p budget' = some (r, u) ∧
      (r = 0 → u.infoLoaded = true ∧ u.entityList = s.entityList) := by
  simp only [factoryInfoSave, hs.loaded, Bool.not_true, Bool.false_eq_true, if_false,
    Prod.mk.injEq] at hSave
  simp only [factoryInfoLoad]
  generalize hStart : { (if t.infoLoaded then factoryInfoDestroy t else t) with
    entityList := .empty } = start
  have hStartBuf : start.buf = saved.buf := by
    rw [← hStart, ← hBuf]
    split <;> rfl
  have hStartMmc : start.mmc = saved.mmc := by
    rw [← hStart, ← hMmc]
    split <;> rfl
  have hEmpty : start.entityList = .empty := by rw [← hStart]
  have hRead : saved.buf = (fiSerialize s).buf → ∃ u, fiDeserialize start = some u ∧
      u.infoLoaded = true ∧ u.entityList = s.entityList := fun hSaved =>
    ⟨_, fiDeserialize_fiSerialize hs hEmpty le_rfl (by rw [hStartBuf, hSaved]), rfl, rfl⟩
  by_cases hIs : p.isMmc = true
  · simp only [hIs, if_true] at hSave ⊢
    obtain ⟨hErr, rfl⟩ := hSave
    have hOk : (fiMmcSave (fiSerialize s) p budget).1 = false := by
      by_contra hNot
      simp [Bool.not_eq_false _ ▸ hNot] at hErr
    obtain ⟨_, hFrame⟩ := fiMmcSave_frame (fiSerialize s) p budget
    have hSaved : (fiMmcSave (fiSerialize s) p budget).2.buf = (fiSerialize s).buf := by
      rw [hFrame]
    cases hLoad : (fiMmcLoad start p budget').1 with
    | true => exact ⟨-1, (fiMmcLoad start p budget').2, by simp, by simp⟩
    | false =>
        obtain ⟨u, hU, hList⟩ := hRead hSaved
        rw [fiMmcLoad_after_save hOk (hStartBuf.trans hSaved) hStartMmc hLoad, hU]
        exact ⟨0, u, by simp, fun _ => hList⟩
  · simp only [hIs, Bool.false_eq_true, if_false] at hSave ⊢
    simp_all

/-- In every state reached after a successful load the header counts the entities,
serialising the state and reading it back gives the same pairs, and a value written
is what `read` returns after a save and a load. -/
theorem factory_info_round_trip {s₀ s₁ s : State} {place : Place} {budget : Budget}
    {is : List Invocation} (loaded : factoryInfoLoad s₀ place budget = some (0, s₁))
    (reached : Transition.run step s₁ is = some s) :
    s.fHdr.totalCount = s.entityList.entities.length ∧
    (∀ n buf, serializedSize s ≤ n → load buf 0 n = load (fiSerialize s).buf 0 n →
      ∃ t, fiDeserialize { factoryInfoDestroy (fiSerialize s) with buf := buf } = some t ∧
        t.pairs = s.pairs) ∧
    ∀ (k v : Arg) (before after : List Invocation) (p : Place) (b b' : Budget)
      (written edited saved t : State),
      factoryInfoWriteEntity s k v = some (0, written) →
      Transition.run step written before = some edited →
      (∀ i ∈ before, (doFactoryInfo i.argv).keeps k) →
      factoryInfoSave edited p b = (0, saved) →
      Transition.run step saved after = some t →
      (∀ i ∈ after, (doFactoryInfo i.argv).offline) →
      ∃ r u, factoryInfoLoad t p b' = some (r, u) ∧
        (r = 0 → factoryInfoReadEntity u k = some v.val) := by
  have hs : Loaded s := run_loaded (factoryInfoLoad_ok loaded) reached
  refine ⟨hs.count, ?_, ?_⟩
  · intro n buf hn hBuf
    have hRead := fiDeserialize_fiSerialize (t := { factoryInfoDestroy (fiSerialize s) with
      buf := buf }) hs rfl hn hBuf
    exact ⟨_, hRead, rfl⟩
  · intro k v before after p b b' written edited saved t hWrite hBefore hKeeps hSave hAfter hOff
    have hWritten : Loaded written := factoryInfoWriteEntity_loaded hWrite hs
    have hEdited : Loaded edited := run_loaded hWritten hBefore
    have hValue : factoryInfoReadEntity edited k = some v.val := by
      rw [run_keeps hWritten hKeeps hBefore, read_write_same hs hWrite]
    have hSaved : Loaded saved := by
      grind [factoryInfoSave_loaded]
    obtain ⟨hBuf, hMmc⟩ := run_offline hSaved hOff hAfter
    obtain ⟨r, u, hLoad, hList⟩ := factoryInfoLoad_after_save b' hEdited hSave hBuf hMmc
    grind [factoryInfoReadEntity]

def blank : State := ⟨.empty, factoryHeaderInit, false, zero, fun _ => none⟩

def ram : Place :=
  ⟨⟨ascii "ram", by decide⟩, ⟨[], by decide⟩, ⟨[], by decide⟩, ⟨[], by decide⟩⟩

def serial : Arg := ⟨ascii "serial", by decide⟩

def color : Arg := ⟨ascii "color", by decide⟩

def old : Arg := ⟨ascii "42", by decide⟩

def new : Arg := ⟨ascii "4711", by decide⟩

def writing (name value : Arg) : Invocation := ⟨[name, ⟨ascii "write", by decide⟩, name, value], none⟩

/-- Two names are written, both get another value, and one is read after a save and a load. -/
theorem factory_info_round_trip_two_names :
    ∃ s₁ s written edited saved u,
      factoryInfoLoad blank ram none = some (0, s₁) ∧
      Transition.run step s₁ [writing serial old, writing color old] = some s ∧
      s.fHdr.totalCount = 2 ∧
      (∃ t, fiDeserialize { factoryInfoDestroy (fiSerialize s) with buf := (fiSerialize s).buf } =
        some t ∧ t.pairs = [(serial.val, old.val), (color.val, old.val)]) ∧
      factoryInfoWriteEntity s serial new = some (0, written) ∧
      Transition.run step written [writing color new] = some edited ∧
      factoryInfoSave edited ram none = (0, saved) ∧
      factoryInfoLoad saved ram none = some (0, u) ∧ factoryInfoReadEntity u serial = some new.val := by
  obtain ⟨-, hTrip, hRead⟩ := @factory_info_round_trip blank _ _ ram none
    [writing serial old, writing color old] rfl rfl
  obtain ⟨r, u, hLoad, hValue⟩ := hRead serial new [writing color new] [] ram none none _ _ _ _ rfl
    rfl (fun i hi => by
      rw [List.mem_singleton.mp hi]
      exact (by decide : color ≠ serial)) rfl rfl (by simp)
  obtain rfl : r = 0 := by
    have hRam : ∀ t, factoryInfoLoad t ram none = some (r, u) → r = 0 := by
      intro t hSome
      simp [factoryInfoLoad, (by decide : ram.isMmc = false)] at hSome
      grind
    exact hRam _ hLoad
  exact ⟨_, _, _, _, _, u, rfl, rfl, rfl, hTrip _ _ le_rfl rfl, rfl, rfl, rfl, hLoad, hValue rfl⟩

end Fire3.FactoryInfo

import Fire3.Base.Transition
import Fire3.Factory.Info
import Mathlib.Algebra.Order.BigOperators.Group.List

/-!
Round trips of the factory information over whole runs of the command.

The header's count is kept equal to the length of the list by every command
after a successful load. Serialising such a state and reading the buffer back
gives the same list.
-/

namespace Fire3.FactoryInfo
open ByteMemory CString Block

variable {buf : Mem} {s t : State} {l : EntityList}

theorem alloc_eq_some {es : List Entity} : EntityList.alloc es = some l ↔ l.entities = es := by
  unfold EntityList.alloc
  constructor
  · intro h
    grind
  · rintro rfl
    simp [l.fits]

theorem EntityList.length_lt (l : EntityList) : l.entities.length < 2 ^ 31 := by
  have hCost : ∀ es : List Entity, 42 * es.length ≤ (es.map Entity.heap).sum := by
    intro es
    induction es with
    | nil => simp
    | cons e es ih =>
        simp only [List.length_cons, List.map_cons, List.sum_cons, Entity.heap]
        omega
  have hMalloc : mallocLen < 2 ^ 31 := by decide
  have hFits := l.fits
  have := hCost l.entities
  omega

theorem EntityList.lengths_lt (l : EntityList) {e : Entity} (h : e ∈ l.entities) :
    e.nameLen < 256 ^ 4 ∧ e.valLen < 256 ^ 4 := by
  have hMember : e.heap ≤ (l.entities.map Entity.heap).sum :=
    List.le_sum_of_mem (List.mem_map_of_mem h)
  have hHeap : e.heap = 40 + (e.nameLen + 1) + (e.valLen + 1) := rfl
  grind [mallocLen, l.fits]

theorem allocNewEntity_self (e : Entity) : allocNewEntity e.name e.val = e := by
  obtain ⟨nameLen, valLen, name, val, rfl, rfl⟩ := e
  rfl

structure Loaded (s : State) : Prop where
  loaded : s.infoLoaded = true
  valid : checkHeader s.fHdr = true
  count : s.fHdr.totalCount = s.entityList.entities.length

theorem deserializeLoop_length {n offset offset' : Nat} {l' : EntityList}
    (h : deserializeLoop buf n offset l = some (l', offset')) :
    l'.entities.length = l.entities.length + n := by
  induction n generalizing offset l with
  | zero =>
      simp only [deserializeLoop, Option.some.injEq, Prod.mk.injEq] at h
      rw [h.1, Nat.add_zero]
  | succ n ih =>
      simp only [deserializeLoop, Option.bind_eq_some_iff] at h
      grind [alloc_eq_some, List.length_append, List.length_singleton]

theorem fiDeserialize_loaded (hEmpty : s.entityList = .empty) (h : fiDeserialize s = some t) :
    Loaded t := by
  simp only [fiDeserialize, Option.map_eq_some_iff, Prod.exists, hEmpty] at h
  obtain ⟨l, offset, hLoop, rfl⟩ := h
  refine ⟨rfl, ?_, ?_⟩
  · by_cases hValid : checkHeader (readHeader s.buf) = true
    · rw [if_pos hValid]
      exact hValid
    · rw [if_neg hValid]
      rfl
  · simpa [EntityList.empty] using (deserializeLoop_length hLoop).symm

theorem fiMmcLoad_frame (s : State) (p : Place) (budget : Budget) :
    ∃ buf, (fiMmcLoad s p budget).2 = { s with buf := buf } := by
  unfold fiMmcLoad
  split
  · exact ⟨s.buf, rfl⟩
  · exact ⟨_, rfl⟩

theorem fiMmcSave_frame (s : State) (p : Place) (budget : Budget) :
    ∃ mmc, (fiMmcSave s p budget).2 = { s with mmc := mmc } := by
  unfold fiMmcSave
  split
  · exact ⟨s.mmc, rfl⟩
  · exact ⟨_, rfl⟩

theorem factoryInfoDestroy_loaded (h : s.infoLoaded = true) : Loaded (factoryInfoDestroy s) :=
  ⟨h, rfl, rfl⟩

/-- What a load does: with a transfer error the emptied list stays, otherwise the
buffer is read into it. -/
theorem factoryInfoLoad_cases {p : Place} {budget : Budget} {r : Int}
    (h : factoryInfoLoad s p budget = some (r, t)) :
    ∃ buf, let s' := { (if s.infoLoaded then factoryInfoDestroy s else s) with
        entityList := .empty, buf := buf }
      (r = -1 ∧ t = s') ∨ (r = 0 ∧ fiDeserialize s' = some t) := by
  simp only [factoryInfoLoad] at h
  generalize hStart : (if s.infoLoaded then factoryInfoDestroy s else s) = start at h
  by_cases hMmc : p.isMmc = true
  · obtain ⟨buf, hBuf⟩ := fiMmcLoad_frame { start with entityList := .empty } p budget
    rw [if_pos hMmc] at h
    refine ⟨buf, ?_⟩
    split at h
    · exact .inl (by simpa [hBuf, eq_comm] using h)
    · exact .inr (by simpa [hBuf, eq_comm, and_comm] using h)
  · rw [if_neg hMmc] at h
    exact ⟨start.buf, .inr (by simpa [eq_comm, and_comm] using h)⟩

theorem factoryInfoLoad_ok {p : Place} {budget : Budget}
    (h : factoryInfoLoad s p budget = some (0, t)) : Loaded t := by
  obtain ⟨buf, ⟨hErr, -⟩ | ⟨-, hRead⟩⟩ := factoryInfoLoad_cases h
  · simp at hErr
  · exact fiDeserialize_loaded rfl hRead

theorem length_updateFound (name value : CStr) (es : List Entity) :
    (updateFound name value es).length = es.length := by
  induction es with
  | nil => rfl
  | cons e es ih =>
      grind [updateFound]

theorem factoryInfoWriteEntity_loaded {name value : Arg} {r : Int}
    (h : factoryInfoWriteEntity s name value = some (r, t)) (hs : Loaded s) : Loaded t := by
  simp only [factoryInfoWriteEntity, hs.loaded, Bool.not_true, Bool.false_eq_true, if_false] at h
  split at h
  · simp only [Option.map_eq_some_iff, Prod.mk.injEq] at h
    obtain ⟨l, hAlloc, -, rfl⟩ := h
    refine ⟨rfl, hs.valid, ?_⟩
    rw [hs.count, alloc_eq_some.mp hAlloc, length_updateFound]
  · simp only [Option.map_eq_some_iff, Prod.mk.injEq] at h
    obtain ⟨l, hAlloc, -, rfl⟩ := h
    refine ⟨rfl, hs.valid, ?_⟩
    have hBound := s.entityList.length_lt
    simp only [hs.count, alloc_eq_some.mp hAlloc, List.length_append, List.length_singleton]
    omega

theorem factoryInfoSave_frame (s : State) (p : Place) (budget : Budget) :
    ∃ buf mmc totalBytes, (factoryInfoSave s p budget).2 =
      { s with fHdr := { s.fHdr with totalBytes := totalBytes }, buf := buf, mmc := mmc } := by
  unfold factoryInfoSave
  split
  · exact ⟨s.buf, s.mmc, s.fHdr.totalBytes, rfl⟩
  · by_cases hMmc : p.isMmc = true
    · obtain ⟨mmc, hSave⟩ := fiMmcSave_frame (fiSerialize s) p budget
      simp only [hMmc, if_true, hSave]
      exact ⟨_, mmc, _, rfl⟩
    · simp only [hMmc]
      exact ⟨_, s.mmc, _, rfl⟩

theorem factoryInfoSave_loaded (p : Place) (budget : Budget) (hs : Loaded s) :
    Loaded (factoryInfoSave s p budget).2 := by
  obtain ⟨buf, mmc, totalBytes, hSave⟩ := factoryInfoSave_frame s p budget
  rw [hSave]
  exact ⟨hs.loaded, hs.valid, hs.count⟩

theorem step_loaded {i : Invocation} (hs : Loaded s) (h : step s i = some t) : Loaded t := by
  simp only [step] at h
  cases hCmd : doFactoryInfo i.argv with
  | load p =>
      simp only [hCmd, execute, Option.map_eq_some_iff, Prod.exists] at h
      obtain ⟨r, _, hLoad, rfl⟩ := h
      obtain ⟨buf, ⟨-, rfl⟩ | ⟨-, hRead⟩⟩ := factoryInfoLoad_cases hLoad
      · simp only [hs.loaded, if_true]
        exact ⟨hs.loaded, rfl, rfl⟩
      · exact fiDeserialize_loaded rfl hRead
  | save p =>
      simp only [hCmd, execute, Option.some.injEq] at h
      rw [← h]
      exact factoryInfoSave_loaded p i.budget hs
  | write name value =>
      simp only [hCmd, execute, Option.map_eq_some_iff, Prod.exists] at h
      grind [factoryInfoWriteEntity_loaded]
  | clean =>
      simp only [hCmd, execute, factoryInfoClean, hs.loaded, Option.some.injEq] at h
      rw [← h]
      exact factoryInfoDestroy_loaded hs.loaded
  | other =>
      simp only [hCmd, execute, Option.some.injEq] at h
      rwa [← h]

theorem run_loaded {is : List Invocation} (hs : Loaded s) (h : Transition.run step s is = some t) :
    Loaded t :=
  Transition.invariant_of_run (fun _ _ _ hLoaded hStep => step_loaded hLoaded hStep) h hs

def Entity.bytes (e : Entity) : List UInt8 :=
  leBytes 4 e.nameLen ++ (leBytes 4 e.valLen ++ (e.name ++ e.val))

def serializedSize (s : State) : Nat := 16 + (s.entityList.entities.flatMap Entity.bytes).length

private theorem four_four (n : Nat) : 4 + (4 + n) = 8 + n := by omega

theorem serializeLoop_eq (buf : Mem) (offset : Nat) (es : List Entity) :
    serializeLoop buf offset es =
      (store buf offset (es.flatMap Entity.bytes),
        offset + (es.flatMap Entity.bytes).length) := by
  induction es generalizing buf offset with
  | nil => simp [serializeLoop]
  | cons e es ih =>
      simp only [serializeLoop, ih, List.flatMap_cons, Entity.bytes, store_append,
        List.length_append, length_leBytes, e.name_length, e.val_length, Nat.add_assoc, four_four,
        Nat.reduceAdd]

theorem EntityList.length_bytes_le (l : EntityList) :
    (l.entities.flatMap Entity.bytes).length ≤ mallocLen := by
  refine le_trans ?_ l.fits
  generalize l.entities = es
  induction es with
  | nil => simp
  | cons e es ih =>
      simp only [List.flatMap_cons, Entity.bytes, List.length_append, length_leBytes,
        e.name_length, e.val_length, List.map_cons, List.sum_cons, Entity.heap]
      omega

theorem deserializeLoop_bytes {es : List Entity} {offset : Nat} {all : EntityList}
    (hAll : all.entities = l.entities ++ es)
    (hBytes : load buf offset (es.flatMap Entity.bytes).length = es.flatMap Entity.bytes) :
    deserializeLoop buf es.length offset l =
      some (all, offset + (es.flatMap Entity.bytes).length) := by
  induction es generalizing offset l with
  | nil =>
      obtain ⟨entities, _⟩ := all
      obtain ⟨entities', _⟩ := l
      simp only [List.append_nil] at hAll
      subst hAll
      rfl
  | cons e es ih =>
      obtain ⟨hName, hVal⟩ := all.lengths_lt (e := e) (by simp [hAll])
      simp only [List.flatMap_cons, Entity.bytes, List.append_assoc] at hBytes
      have hNameLen : readLE buf offset 4 = e.nameLen :=
        readLE_of_head hBytes hName
      have hValLen : readLE buf (offset + 4) 4 = e.valLen := by
        simpa using readLE_of_append hBytes hVal
      have hNameBytes : load buf (offset + 8) e.nameLen = e.name := by
        rw [← List.append_assoc] at hBytes
        simpa [e.name_length] using load_of_append hBytes
      have hValBytes : load buf (offset + 8 + e.nameLen) e.valLen = e.val := by
        rw [← List.append_assoc, ← List.append_assoc] at hBytes
        simpa [e.name_length, e.val_length, Nat.add_assoc, four_four] using load_of_append hBytes
      have hRest : load buf (offset + 8 + (e.nameLen + e.valLen)) (es.flatMap Entity.bytes).length =
          es.flatMap Entity.bytes := by
        rw [← List.append_assoc, ← List.append_assoc, ← List.append_assoc,
          ← List.append_nil (es.flatMap Entity.bytes)] at hBytes
        simpa [e.name_length, e.val_length, Nat.add_assoc, four_four] using load_of_append hBytes
      have hFits : ((l.entities ++ [e]).map Entity.heap).sum ≤ mallocLen := by
        have hTotal := all.fits
        grind
      have hAlloc : EntityList.alloc (l.entities ++ [e]) = some ⟨l.entities ++ [e], hFits⟩ :=
        alloc_eq_some.mpr rfl
      simp only [List.length_cons, deserializeLoop, hNameLen, hValLen, hNameBytes, hValBytes,
        allocNewEntity_self, hAlloc, Option.bind_some]
      rw [ih (by simp [hAll]) hRest]
      simp only [List.flatMap_cons, Entity.bytes, List.length_append, length_leBytes,
        e.name_length, e.val_length, Option.some.injEq, Prod.mk.injEq, true_and]
      omega

theorem readHeader_of_load {hdr : FiHeader} (hValid : checkHeader hdr = true)
    (hCount : hdr.totalCount < 256 ^ 4) (hTotal : hdr.totalBytes < 256 ^ 4)
    (h : load buf 0 16 = hdr.bytes) : readHeader buf = hdr := by
  obtain ⟨magic, major, minor, count, total⟩ := hdr
  simp only [checkHeader, decide_eq_true_eq] at hValid
  obtain ⟨rfl, rfl, rfl⟩ := hValid
  simp only [FiHeader.bytes] at h
  have hMagic := readLE_of_head h (by decide)
  have hMajor := readLE_of_append h (by decide)
  rw [← List.append_assoc] at h
  have hMinor := readLE_of_append h (by decide)
  rw [← List.append_assoc] at h
  have hCountField := readLE_of_append h hCount
  rw [← List.append_assoc, ← List.append_nil (leBytes 4 total)] at h
  have hTotalField := readLE_of_append h hTotal
  simp only [List.length_append, length_leBytes, Nat.reduceAdd] at hMajor hMinor hCountField
  simp only [List.length_append, length_leBytes, Nat.reduceAdd] at hTotalField
  simp only [readHeader, hMagic, hMajor, hMinor, hCountField, hTotalField]

theorem fiDeserialize_fiSerialize {n : Nat} (hs : Loaded s) (hEmpty : t.entityList = .empty)
    (hn : serializedSize s ≤ n) (hBuf : load t.buf 0 n = load (fiSerialize s).buf 0 n) :
    fiDeserialize t =
      some { t with
        entityList := s.entityList, fHdr := (fiSerialize s).fHdr, infoLoaded := true } := by
  have hBytesLen := s.entityList.length_bytes_le
  have hMalloc : mallocLen < 2 ^ 31 := by decide
  unfold serializedSize at hn
  have hPart : ∀ o w, o + w ≤ n → load t.buf o w = load (fiSerialize s).buf o w := by
    intro o w hw
    have hT := load_take_drop t.buf 0 hw
    have hS := load_take_drop (fiSerialize s).buf 0 hw
    grind
  have hSerialized : (fiSerialize s).fHdr =
      { s.fHdr with totalBytes := 16 + (s.entityList.entities.flatMap Entity.bytes).length } := by
    simp only [fiSerialize, serializeLoop_eq]
  have hMem : (fiSerialize s).buf = store (store s.buf 16 (s.entityList.entities.flatMap
      Entity.bytes)) 0 (fiSerialize s).fHdr.bytes := by
    simp only [fiSerialize, serializeLoop_eq]
  have hLength : (fiSerialize s).fHdr.bytes.length = 16 := by simp [FiHeader.bytes]
  have hHeader : readHeader t.buf = (fiSerialize s).fHdr := by
    apply readHeader_of_load
    · rw [hSerialized]
      exact hs.valid
    · have hBound := s.entityList.length_lt
      simp only [hSerialized, hs.count]
      omega
    · simp only [hSerialized]
      omega
    · have hStored := load_store_same (store s.buf 16 (s.entityList.entities.flatMap Entity.bytes))
        0 (fiSerialize s).fHdr.bytes
      grind
  have hEntities : load t.buf 16 (s.entityList.entities.flatMap Entity.bytes).length =
      s.entityList.entities.flatMap Entity.bytes := by
    grind [load_store_disjoint, load_store_same]
  have hValid : checkHeader (fiSerialize s).fHdr = true := by
    rw [hSerialized]
    exact hs.valid
  have hCount : (fiSerialize s).fHdr.totalCount = s.entityList.entities.length := by
    rw [hSerialized]
    exact hs.count
  have hLoop := deserializeLoop_bytes (l := .empty) (show s.entityList.entities = [] ++ _ from rfl)
    hEntities
  simp only [fiDeserialize, hHeader, hValid, if_true, hCount, hEmpty,
    hLoop, Option.map_some]
  simp only [hSerialized, hs.count]

end Fire3.FactoryInfo

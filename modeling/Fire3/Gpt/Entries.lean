import Fire3.Gpt.Reader

/-!
The entries that `gpt_fill_pte` makes of a list of partitions, and what is read from them.
-/

namespace Fire3.Gpt
open ByteMemory CString

def requested (lastUsable : Nat) : Nat → List Request → List (Nat × Nat)
  | _, [] => []
  | offset, p :: ps =>
      let start := p.starting offset
      (start, if ps.isEmpty ∧ p.size = 0 then lastUsable + 1 - start else p.size) ::
        requested lastUsable (start + p.size) ps

theorem length_requested (lastUsable offset : Nat) (ps : List Request) :
    (requested lastUsable offset ps).length = ps.length := by
  induction ps generalizing offset with
  | nil => rfl
  | cons p ps ih => rw [requested, List.length_cons, List.length_cons, ih]

section

theorem ofArray_append_zero (xs rest : List UInt8) : ofArray (xs ++ 0 :: rest) = ofArray xs := by
  induction xs with
  | nil => rfl
  | cons x xs ih =>
      grind [ofArray, List.takeWhile_cons]

theorem map_getD_range {name : List UInt8} {n : Nat} (h : name.length = n) :
    ((List.range n).map fun j => name.getD j 0) = name := by
  apply List.ext_getElem
  · simp [h]
  · intro i _ hi
    simp [hi]

def shown (c : UInt8) : UInt8 := if c ≠ 0 ∧ isPrint c = false then 46 else c

theorem shown_ne_zero {c : UInt8} : shown c ≠ 0 ↔ c ≠ 0 := by
  rw [shown]
  grind

theorem ofArray_map_shown (cs : List UInt8) : ofArray (cs.map shown) = (ofArray cs).map shown := by
  induction cs with
  | nil => rfl
  | cons c cs ih =>
      grind [ofArray, List.takeWhile_cons, shown_ne_zero]

/-- The name that is returned is the one that was given if and only if it has room for its NUL and
is printable. -/
theorem infoName_eq_iff {s : CStr} (hs : 0 ∉ s) (hLength : s.length ≤ 32) :
    infoName (s.map shown) = s ↔ s.length < 32 ∧ ∀ c ∈ s, isPrint c = true := by
  rw [infoName, List.length_map]
  by_cases hShort : s.length < 32
  · rw [if_pos hShort, and_iff_right hShort]
    have hMap : s.map shown = s.map id ↔ ∀ c ∈ s, shown c = id c := List.map_inj_left
    rw [List.map_id] at hMap
    rw [hMap]
    refine forall₂_congr fun c hc => ?_
    have hSome : c ≠ 0 := fun hZero => hs (hZero ▸ hc)
    rw [shown, id]
    cases hPrint : isPrint c with
    | true => simp
    | false =>
        simp only [hSome, ne_eq, not_false_eq_true, and_self, if_true, Bool.false_eq_true, iff_false]
        intro hDot
        rw [← hDot] at hPrint
        exact absurd hPrint (by decide)
  · rw [if_neg hShort]
    refine iff_of_false (fun hEq => ?_) fun hBoth => hShort hBoth.1
    have hLen := congrArg List.length hEq
    have hText : (ascii "U-Boot").length = 6 := by decide
    rw [List.length_append, List.length_take, List.length_map, hText] at hLen
    omega

end

section
variable {uuid : List UInt8} {starting ending : Nat} {p : Request}

theorem length_efiName (name : List UInt8) : (efiName name).length = 72 := by
  rw [efiName, List.length_flatMap]
  simp

theorem getElem?_flatMap_pair {α : Type} (xs : List α) (f g : α → UInt8) (j : Nat) :
    (xs.flatMap fun k => [f k, g k])[2 * j]? = xs[j]?.map f := by
  induction xs generalizing j with
  | nil => rfl
  | cons x xs ih =>
      cases j with
      | zero => rfl
      | succ j => exact ih j

theorem getElem?_efiName {name : List UInt8} {j : Nat} (hj : j < 36) :
    (efiName name)[2 * j]? = some (if j < 32 then name.getD j 0 else 0) := by
  rw [efiName, getElem?_flatMap_pair, List.getElem?_range hj, Option.map_some]

theorem ofArray_name {f : Nat → UInt8} {n : Nat} (hn : 33 ≤ n)
    (hf : ∀ j < 33, f j = if j < 32 then p.name.getD j 0 else 0) :
    ofArray ((List.range n).map f) = ofArray p.name := by
  obtain ⟨r, rfl⟩ := Nat.exists_eq_add_of_le hn
  have hName : (List.range 32).map f = p.name := by
    rw [← map_getD_range p.name_length]
    apply List.map_congr_left
    grind
  rw [List.range_add, List.range_succ, List.map_append, List.map_append, List.map_singleton,
    hf 32 (by decide), if_neg (by decide), hName, List.append_assoc, List.singleton_append,
    ofArray_append_zero]

variable (hUuid : uuid.length = 16)
include hUuid

theorem length_entryBytes : (entryBytes uuid starting ending p).length = 128 := by
  simp [entryBytes, hUuid, length_efiName, basicDataGuid]

omit hUuid in
theorem take_entryBytes : (entryBytes uuid starting ending p).take 16 = basicDataGuid := by
  simp only [entryBytes, List.append_assoc]
  exact List.take_left' rfl

theorem lbas_entryBytes (hStarting : starting < 2 ^ 64) (hEnding : ending < 2 ^ 64) :
    leValue (((entryBytes uuid starting ending p).drop 32).take 8) = starting ∧
      leValue (((entryBytes uuid starting ending p).drop 40).take 8) = ending := by
  have hField {bs rest : List UInt8} {k v : Nat} (hk : bs.length = k) (hv : v < 2 ^ 64) :
      leValue (((bs ++ (leBytes 8 v ++ rest)).drop k).take 8) = v := by
    rw [List.drop_left' hk, List.take_left' (length_leBytes ..), leValue_leBytes]
    exact Nat.mod_eq_of_lt hv
  have hGuid : (basicDataGuid ++ uuid).length = 32 := by simp [hUuid, basicDataGuid]
  simp only [entryBytes, List.append_assoc]
  rw [← List.append_assoc basicDataGuid]
  refine ⟨hField hGuid hStarting, ?_⟩
  rw [← List.append_assoc (basicDataGuid ++ uuid)]
  exact hField (by rw [List.length_append, hGuid, length_leBytes]) hEnding

theorem name_entryBytes {j : Nat} (hj : j < 36) :
    (entryBytes uuid starting ending p).getD (56 + 2 * j) 0 =
      if j < 32 then p.name.getD j 0 else 0 := by
  have hSplit : entryBytes uuid starting ending p = (basicDataGuid ++ (uuid ++ (leBytes 8 starting ++
      (leBytes 8 ending ++ leBytes 8 (if p.bootable then 4 else 0))))) ++ efiName p.name := by
    simp only [entryBytes, List.append_assoc]
  have hLength : (basicDataGuid ++ (uuid ++ (leBytes 8 starting ++
      (leBytes 8 ending ++ leBytes 8 (if p.bootable then 4 else 0))))).length = 56 := by
    simp [hUuid, basicDataGuid]
  rw [hSplit, List.getD_eq_getElem?_getD, List.getElem?_append_right (by omega), hLength,
    Nat.add_sub_cancel_left, getElem?_efiName hj, Option.getD_some]

theorem printEfiname_entryBytes :
    printEfiname (entryBytes uuid starting ending p) = (ofArray p.name).map shown := by
  have hName : ofArray ((List.range 36).map fun i =>
      (entryBytes uuid starting ending p).getD (56 + 2 * i) 0) = ofArray p.name :=
    ofArray_name (by decide) fun j hj => name_entryBytes hUuid (by omega)
  rw [← hName, ← ofArray_map_shown, List.map_map]
  rfl

end

def entryAt (pte : List UInt8) (i : Nat) : List UInt8 := (pte.drop (128 * i)).take 128

section
variable {pte : List UInt8} {i : Nat}

theorem entryAt_flatten {es : List (List UInt8)} (hSize : ∀ e ∈ es, e.length = 128)
    (rest : List UInt8) {e : List UInt8} (hk : es[i]? = some e) :
    entryAt (es.flatten ++ rest) i = e := by
  induction es generalizing i with
  | nil => cases hk
  | cons x es ih =>
      rw [List.forall_mem_cons] at hSize
      rw [List.flatten_cons, List.append_assoc]
      cases i with
      | zero =>
          cases hk
          exact List.take_left' hSize.1
      | succ i =>
          rw [entryAt, Nat.mul_succ, Nat.add_comm, ← List.drop_drop, List.drop_left' hSize.1]
          exact ih hSize.2 hk

theorem take_drop_entryAt {o w : Nat} (h : o + w ≤ 128) :
    (pte.drop (128 * i + o)).take w = ((entryAt pte i).drop o).take w := by
  rw [entryAt, List.drop_take, List.take_take, List.drop_drop, Nat.min_eq_left (by omega)]

theorem getD_entryAt {o : Nat} (h : o < 128) :
    pte.getD (128 * i + o) 0 = (entryAt pte i).getD o 0 := by
  rw [entryAt, List.getD_eq_getElem?_getD, List.getD_eq_getElem?_getD, List.getElem?_take, if_pos h,
    List.getElem?_drop]

variable {uuid : List UInt8} {starting ending : Nat} {p : Request} (hUuid : uuid.length = 16)
  (hEntry : entryAt pte i = entryBytes uuid starting ending p)
include hUuid hEntry

theorem gptConvertEfiNameToChar_eq : gptConvertEfiNameToChar pte i = ofArray p.name := by
  rw [gptConvertEfiNameToChar]
  apply ofArray_name (by decide)
  intro j hj
  rw [Nat.add_assoc, getD_entryAt (by omega), hEntry, name_entryBytes hUuid (by omega)]

theorem verifyLoop_cons {ps : List Request} {num : Nat} (hNum : i < num)
    (hStarting : starting < 2 ^ 64) (hEnding : ending < 2 ^ 64) :
    verifyLoop num pte i (p :: ps) = true ↔
      (ending + (2 ^ 64 - starting) + 1) % 2 ^ 64 = p.size ∧ (p.start = 0 ∨ starting = p.start) ∧
        verifyLoop num pte (i + 1) ps = true := by
  rw [verifyLoop, gptConvertEfiNameToChar_eq hUuid hEntry, take_drop_entryAt (by decide),
    take_drop_entryAt (by decide), hEntry, (lbas_entryBytes hUuid hStarting hEnding).1,
    (lbas_entryBytes hUuid hStarting hEnding).2]
  have hName : strncmpEq (ofArray p.name) (ofArray p.name) 32 = true := beq_self_eq_true _
  rw [if_neg hNum.ne, hName, if_neg Bool.noConfusion]
  by_cases hSize : (ending + (2 ^ 64 - starting) + 1) % 2 ^ 64 = p.size
  · rw [if_neg (not_not.mpr hSize), and_iff_right hSize]
    by_cases hStart : p.start ≠ 0 ∧ starting ≠ p.start
    · rw [if_pos hStart]
      grind
    · rw [if_neg hStart]
      grind
  · rw [if_pos hSize]
    grind

end

theorem length_uuidStrToBin {uuid : CStr} {format : StrFormat} {bin : List UInt8}
    (h : uuidStrToBin uuid format = some bin) : bin.length = 16 := by
  rw [uuidStrToBin] at h
  split at h
  · cases h
    cases format <;> simp
  · cases h

theorem gptFillPte_cons {lastUsable offset : Nat} {p : Request} {ps : List Request}
    {es : List (List UInt8)} (h : gptFillPte lastUsable offset (p :: ps) = some es) :
    let starting := p.starting offset
    let next := (starting + p.size) % 2 ^ 64
    offset ≤ starting ∧ next < lastUsable ∧
      ∃ uuid es', uuid.length = 16 ∧ gptFillPte lastUsable next ps = some es' ∧
        es = entryBytes uuid starting (p.ending lastUsable next ps.isEmpty) p :: es' := by
  intro starting next
  rw [gptFillPte] at h
  split at h
  · cases h
  · rename_i hOverlap
    have hStarting : offset ≤ p.starting offset := by
      rw [Request.starting]
      split <;> omega
    dsimp only at h
    split at h
    · cases h
    · rename_i hLayout
      split at h
      · cases h
      · grind [Option.map_eq_some_iff, Nat.lt_of_not_le, length_uuidStrToBin]

theorem Request.starting_lt (p : Request) {offset : Nat} (h : offset < 2 ^ 64) :
    p.starting offset < 2 ^ 64 := by
  grind [p.start_lt, Request.starting]

theorem Request.ending_lt (p : Request) {lastUsable next : Nat} {last : Bool}
    (h : lastUsable < 2 ^ 64) : p.ending lastUsable next last < 2 ^ 64 := by
  rw [Request.ending]
  split <;> omega

section
variable {lastUsable offset : Nat} {ps : List Request} {es : List (List UInt8)}

theorem gptFillPte_lengths (h : gptFillPte lastUsable offset ps = some es) :
    es.length = ps.length ∧ ∀ e ∈ es, e.length = 128 := by
  induction ps generalizing offset es with
  | nil =>
      cases h
      simp [List.not_mem_nil]
  | cons p ps ih =>
      obtain ⟨-, -, uuid, es', hUuid, hRest, rfl⟩ := gptFillPte_cons h
      obtain ⟨hLength, hSize⟩ := ih hRest
      rw [List.length_cons, List.length_cons, hLength, List.forall_mem_cons]
      exact ⟨rfl, length_entryBytes hUuid, hSize⟩

theorem gptFillPte_entry (h : gptFillPte lastUsable offset ps = some es) {k : Nat} {p : Request}
    (hk : ps[k]? = some p) :
    ∃ uuid starting ending, uuid.length = 16 ∧ es[k]? = some (entryBytes uuid starting ending p) := by
  induction ps generalizing offset es k with
  | nil => cases hk
  | cons p' ps ih =>
      obtain ⟨-, -, uuid, es', hUuid, hRest, rfl⟩ := gptFillPte_cons h
      cases k with
      | zero =>
          grind
      | succ k => exact ih hRest hk

theorem last_size_of_verifyLoop {num : Nat} {pte : List UInt8} {i : Nat}
    (h : gptFillPte lastUsable offset ps = some es) (hOffset : offset < 2 ^ 64)
    (hLast : lastUsable + 1 < 2 ^ 64) (hNum : i + ps.length ≤ num)
    (hPte : ∀ k e, es[k]? = some e → entryAt pte (i + k) = e)
    (hVerify : verifyLoop num pte i ps = true) : ∀ p, ps.getLast? = some p → p.size ≠ 0 := by
  induction ps generalizing offset es i with
  | nil =>
      intro p hp
      cases hp
  | cons p ps ih =>
      obtain ⟨-, hNext, uuid, es', hUuid, hRest, rfl⟩ := gptFillPte_cons h
      rw [List.length_cons] at hNum
      have hEntry : entryAt pte i = _ := hPte 0 _ rfl
      rw [verifyLoop_cons hUuid hEntry (by omega) (p.starting_lt hOffset)
        (p.ending_lt (Nat.lt_of_succ_lt hLast))] at hVerify
      cases ps with
      | nil =>
          intro q hq hZero
          cases hq
          change p.size = 0 at hZero
          have hSize := hVerify.1
          rw [Request.ending, if_pos ⟨rfl, hZero⟩, hZero] at hSize
          omega
      | cons p' ps =>
          rw [List.getLast?_cons_cons]
          refine ih hRest (Nat.mod_lt _ (by decide)) (i := i + 1) (by omega) (fun k e he => ?_)
            hVerify.2.2
          rw [Nat.add_assoc, Nat.add_comm 1 k]
          exact hPte (k + 1) e he

section
variable (h : gptFillPte lastUsable offset ps = some es)
  (hWrap : ∀ q ∈ requested lastUsable offset ps, q.1 + q.2 < 2 ^ 64)
include h hWrap

theorem next_of_noWrap {p : Request} {ps' : List Request} (hps : ps = p :: ps') :
    p.starting offset + p.size < 2 ^ 64 ∧
      ∀ q ∈ requested lastUsable (p.starting offset + p.size) ps', q.1 + q.2 < 2 ^ 64 := by
  subst hps
  rw [requested, List.forall_mem_cons] at hWrap
  grind

theorem gptFillPte_requested {k : Nat} {p : Request} {q : Nat × Nat} (hk : ps[k]? = some p)
    (hq : (requested lastUsable offset ps)[k]? = some q) :
    ∃ uuid, uuid.length = 16 ∧
      es[k]? = some (entryBytes uuid q.1 ((q.1 + q.2 + (2 ^ 64 - 1)) % 2 ^ 64) p) := by
  induction ps generalizing offset es k with
  | nil => cases hk
  | cons p' ps ih =>
      obtain ⟨hNext, hRestWrap⟩ := next_of_noWrap h hWrap rfl
      obtain ⟨-, hLayout, uuid, es', hUuid, hRest, rfl⟩ := gptFillPte_cons h
      rw [Nat.mod_eq_of_lt hNext] at hLayout hRest ⊢
      cases k with
      | zero =>
          cases hk
          have hHead := hWrap q (List.mem_of_getElem? hq)
          rw [requested, List.getElem?_cons_zero, Option.some_inj] at hq
          subst hq
          have hEnding : p.ending lastUsable (p.starting offset + p.size) ps.isEmpty =
              (p.starting offset + (if ps.isEmpty ∧ p.size = 0 then
                lastUsable + 1 - p.starting offset else p.size) + (2 ^ 64 - 1)) % 2 ^ 64 := by
            rw [Request.ending]
            by_cases hLast : ps.isEmpty = true ∧ p.size = 0
            · grind
            · rw [if_neg hLast, if_neg hLast]
          grind
      | succ k => exact ih hRest hRestWrap hk hq

theorem requested_inside :
    (∀ q ∈ requested lastUsable offset ps, offset ≤ q.1 ∧ q.1 + q.2 ≤ lastUsable + 1) ∧
      (requested lastUsable offset ps).Pairwise fun a b => a.1 + a.2 ≤ b.1 := by
  induction ps generalizing offset es with
  | nil => exact ⟨fun q hq => absurd hq List.not_mem_nil, List.Pairwise.nil⟩
  | cons p ps ih =>
      obtain ⟨hNext, hRestWrap⟩ := next_of_noWrap h hWrap rfl
      obtain ⟨hOffset, hLayout, uuid, es', -, hRest, -⟩ := gptFillPte_cons h
      rw [Nat.mod_eq_of_lt hNext] at hLayout hRest
      obtain ⟨hIn, hPairs⟩ := ih hRest hRestWrap
      rw [requested, List.forall_mem_cons, List.pairwise_cons]
      refine ⟨⟨⟨hOffset, ?_⟩, fun q hq => ⟨?_, (hIn q hq).2⟩⟩, fun q hq => ?_, hPairs⟩
      · dsimp only
        split <;> omega
      · have hAfter := (hIn q hq).1
        omega
      · have hAfter := (hIn q hq).1
        have hMore : ps.isEmpty = false := by
          cases ps with
          | nil => exact absurd hq List.not_mem_nil
          | cons _ _ => rfl
        grind

theorem verifyLoop_of_requested {num : Nat} {pte : List UInt8} {i : Nat} (hOffset : offset < 2 ^ 64)
    (hLast : lastUsable < 2 ^ 64) (hNum : i + ps.length ≤ num)
    (hPte : ∀ k e, es[k]? = some e → entryAt pte (i + k) = e)
    (hSize : ∀ p, ps.getLast? = some p → p.size ≠ 0) : verifyLoop num pte i ps = true := by
  induction ps generalizing offset es i with
  | nil => rfl
  | cons p ps ih =>
      obtain ⟨hNext, hRestWrap⟩ := next_of_noWrap h hWrap rfl
      obtain ⟨-, -, uuid, es', hUuid, hRest, rfl⟩ := gptFillPte_cons h
      rw [List.length_cons] at hNum
      have hEntry : entryAt pte i = _ := hPte 0 _ rfl
      rw [verifyLoop_cons hUuid hEntry (by omega) (p.starting_lt hOffset) (p.ending_lt hLast)]
      have hNotRest : ¬(ps.isEmpty = true ∧ p.size = 0) := by
        grind
      rw [Nat.mod_eq_of_lt hNext] at hRest ⊢
      refine ⟨?_, ?_, ?_⟩
      · have hWord := p.size_lt
        rw [Request.ending, if_neg hNotRest]
        omega
      · rw [Request.starting]
        grind
      · refine ih hRest hRestWrap hNext (by omega) (fun k e he => ?_) fun q hq => hSize q ?_
        · rw [Nat.add_assoc, Nat.add_comm 1 k]
          exact hPte (k + 1) e he
        · grind

end

end

end Fire3.Gpt

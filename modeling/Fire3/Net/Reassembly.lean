import Fire3.Net.Fragments

/-!
Reassembly of one datagram by `__net_defragment`, for fragments in any order.

The fragments that have not arrived form gaps, and the hole list is the list of these
gaps. A new fragment takes itself out of its gap unless it is the one behind the first
ones that arrived while the very first fragment is still missing; one that has arrived
before changes nothing.
-/

namespace Fire3.Net
open ByteMemory LinkedList

variable {g : Fragmented} {d : Defrag} {ident f : Nat} {received : List Nat}
  {hs xs ys : List (Nat × Nat)}

structure Assembling (g : Fragmented) (ident : Nat) (received : List Nat) (hs : List (Nat × Nat))
    (d : Defrag) : Prop where
  ident : readLE d.pktBuff 4 2 = ident
  total : d.totalLen = if g.count - 1 ∈ received then g.payload.length else 0xffff
  data : ∀ f, f < g.count → f ∈ received →
    load d.pktBuff (payloadAddr (g.block f)) (g.finish f - g.start f) = g.bytes f
  ordered : Gaps.Ordered g.count 0 hs
  missing : ∀ f < g.count, Gaps.Missing hs f ↔ f ∉ received
  linked : Linked d (g.nodes hs)
  incomplete : hs ≠ []

def Complete (g : Fragmented) (received : List Nat) : Prop := ∀ m < g.count, m ∈ received

instance decidableComplete (g : Fragmented) (received : List Nat) : Decidable (Complete g received) :=
  inferInstanceAs (Decidable (∀ m < g.count, m ∈ received))

structure Assembled (g : Fragmented) (ident : Nat) (d : Defrag) : Prop where
  ident : readLE d.pktBuff 4 2 = ident
  total : d.totalLen = g.payload.length
  data : load d.pktBuff ipHdrSize g.payload.length = g.payload

/-- The fragments up to `f`, from the first one that arrived on, are there, but not `f` and
not the very first one. -/
def Adjoins (received : List Nat) (f : Nat) : Prop :=
  0 ∉ received ∧ f ∉ received ∧
    ∃ j < f, (∀ k < j, k ∉ received) ∧ ∀ k < f, j ≤ k → k ∈ received

theorem findHole_nodes (h : Assembling g ident received hs d) (hf : f < g.count) :
    d.findHole (g.block f * 8) (2 ^ 16 + 1) d.firstHole =
      some ((hs.find? fun e => f ≤ e.2).map fun e => g.block e.1) := by
  have hNumbered := Fragmented.numbered_nodes h.ordered
  have hNone : g.nodes hs ≠ [] := mt List.map_eq_nil_iff.mp h.incomplete
  have hSame : ((fun e : Nat × Nat => decide (g.block f * 8 ≤ e.2)) ∘
      fun e : Nat × Nat => (g.block e.1, g.edge e.2)) = fun e => decide (f ≤ e.2) := by
    funext e
    have hEdge := @Fragmented.edge_lt_iff g f e.2 hf
    simp only [Function.comp_apply, Fragmented.start, decide_eq_decide] at *
    omega
  rw [h.linked.first, findHole_eq h.linked.segment hNumbered hNone
    (by have := hNumbered.length_le; omega), Fragmented.nodes, List.find?_map, hSame, Option.map_map]
  rfl

theorem Assembling.split (h : Assembling g ident received hs d) (hf : f < g.count)
    (hNew : f ∉ received) :
    ∃ xs i j ys, hs = xs ++ (i, j) :: ys ∧ i ≤ f ∧ f < j ∧
      hs.find? (fun e => f ≤ e.2) = some (i, j) := by
  obtain ⟨⟨i, j⟩, hMem, hLow, hHigh⟩ := (h.missing f hf).mpr hNew
  obtain ⟨xs, ys, rfl⟩ := List.append_of_mem hMem
  refine ⟨xs, i, j, ys, rfl, hLow, hHigh, ?_⟩
  obtain ⟨-, hBelow, -⟩ := Gaps.ordered_append.mp h.ordered
  have hBefore : xs.find? (fun e => decide (f ≤ e.2)) = none := by
    rw [List.find?_eq_none]
    intro e he
    grind
  grind

theorem Linked.put_fragment (h : Linked d (g.nodes hs)) (hOrdered : Gaps.Ordered g.count 0 hs)
    (hf : f < g.count) (hHere : ¬Gaps.Missing hs f) :
    Linked (d.put (payloadAddr (g.block f)) (g.bytes f)) (g.nodes hs) := by
  refine ⟨h.segment.congr fun k hk => hole_put_of_disjoint d ?_, h.first⟩
  obtain ⟨m, hMissing, rfl⟩ := missing_of_key hOrdered (List.Subset.refl hs) hk
  have hm : m < g.count := by
    obtain ⟨a, ha, -, hm⟩ := hMissing
    have := hOrdered.bounds ha
    omega
  have hNe : m ≠ f := fun hSame => hHere (hSame ▸ hMissing)
  have hLt := Fragmented.start_lt_finish hf
  have hApart := Fragmented.record_apart hm hf hNe
  grind [Fragmented.length_bytes, payloadAddr, Fragmented.start]

theorem load_put_fragment {f' : Nat} (hf : f < g.count) (hf' : f' < g.count) (hNe : f' ≠ f) :
    load (d.put (payloadAddr (g.block f)) (g.bytes f)).pktBuff (payloadAddr (g.block f'))
      (g.finish f' - g.start f') =
      load d.pktBuff (payloadAddr (g.block f')) (g.finish f' - g.start f') := by
  have hLt := Fragmented.start_lt_finish hf
  have hLt' := Fragmented.start_lt_finish hf'
  apply load_store_disjoint
  rw [Fragmented.length_bytes hf]
  rcases Nat.lt_or_gt_of_ne hNe with hBefore | hAfter
  · have := Fragmented.finish_le_start hBefore hf
    simp only [payloadAddr, Fragmented.start] at *
    omega
  · have := Fragmented.finish_le_start hAfter hf'
    simp only [payloadAddr, Fragmented.start] at *
    omega

theorem inside_put_fragment (hf : f < g.count) :
    WritesInside d (d.put (payloadAddr (g.block f)) (g.bytes f)) := by
  refine WritesInside.put ?_
  have hLe := g.finish_le f
  have hLt := Fragmented.start_lt_finish hf
  have hSize := g.size
  grind [Fragmented.length_bytes, payloadAddr, Fragmented.start, ipMaxudp, ipPktsize, ipHdrSize]

theorem copied_data {d₀ d₁ : Defrag} (h : Assembling g ident received hs d)
    (hEdit : EditsMissing g hs d₀ d₁) (hSame : d₀.pktBuff = d.pktBuff) (hf : f < g.count) :
    readLE (d₁.put (payloadAddr (g.block f)) (g.bytes f)).pktBuff 4 2 = ident ∧
      ∀ m, m < g.count → m ∈ f :: received →
        load (d₁.put (payloadAddr (g.block f)) (g.bytes f)).pktBuff (payloadAddr (g.block m))
          (g.finish m - g.start m) = g.bytes m := by
  constructor
  · rw [Defrag.put, readLE_store_disjoint _ _ _ _ _ (.inl (by unfold payloadAddr ipHdrSize; omega)),
      readLE, hEdit.header (by decide), hSame]
    exact h.ident
  · intro m hm hMem
    by_cases hNe : m = f
    · grind [Defrag.put, Fragmented.length_bytes, load_store_same]
    · have hOld : m ∈ received := (List.mem_cons.mp hMem).resolve_left hNe
      have hHere : ¬Gaps.Missing hs m := fun hMissing => (h.missing m hm).mp hMissing hOld
      rw [load_put_fragment hf hm hNe, hEdit.data h.ordered hm hHere, hSame]
      exact h.data m hm hOld

def ended (g : Fragmented) (d : Defrag) (f h : Nat) : Defrag :=
  if f + 1 = g.count then d.truncateHole h (g.finish f) else d

theorem ended_spec {i j : Nat} (h : Assembling g ident received hs d)
    (hSplit : hs = xs ++ (i, j) :: ys) (f : Nat) :
    let e := ended g d f (g.block i)
    Opened e.hole (g.nodes xs) (g.block i) (g.nodes ys) ∧ e.firstHole = d.firstHole ∧
      (e.hole (g.block i)).value = (if f + 1 = g.count then g.finish f else g.edge j) ∧
      e.totalLen = (if f + 1 = g.count then g.payload.length else d.totalLen) ∧
      EditsMissing g hs { d with totalLen := e.totalLen } e := by
  intro e
  have hMissing : Gaps.Missing hs i := by
    have hBounds := h.ordered.bounds (g := (i, j)) (by simp [hSplit])
    exact ⟨(i, j), by simp [hSplit], le_rfl, hBounds.2.1⟩
  have hSegment := h.linked.segment
  have hOrdered := h.ordered
  rw [hSplit, Fragmented.nodes_append] at hSegment
  rw [hSplit] at hOrdered
  obtain ⟨hOpened, hValue⟩ := segment_iff_opened.mp hSegment
  by_cases hLast : f + 1 = g.count
  · have hFinish : g.finish f = g.payload.length := by
      rw [Fragmented.finish, if_neg (by omega)]
    have hSmall : g.finish f < 2 ^ 16 := by
      grind [g.size, ipMaxudp, ipPktsize, ipHdrSize]
    have he : e = ({ d with totalLen := g.finish f % 2 ^ 16 } : Defrag).setLastByte (g.block i)
        (g.finish f) := by
      simp only [e, ended, hLast, if_true]
      rfl
    obtain ⟨hOpened', hValue'⟩ := opened_setLastByte
      (d := { d with totalLen := g.finish f % 2 ^ 16 }) hOpened (Fragmented.around_nodes hOrdered) hSmall
    rw [he, if_pos hLast, if_pos hLast]
    refine ⟨hOpened', rfl, hValue', ?_, .of_keys (edits_setLastByte (List.mem_singleton_self _) _) ?_⟩
    · exact (Nat.mod_eq_of_lt hSmall).trans hFinish
    · grind
  · have he : e = d := by simp only [e, ended, hLast, if_false]
    rw [he, if_neg hLast, if_neg hLast]
    exact ⟨hOpened, rfl, hValue, rfl, .of_keys (Edits.refl [] d) (by simp)⟩

theorem assemble_eq {i j : Nat} (h : Assembling g ident received hs d) (hf : f < g.count)
    (hFind : hs.find? (fun e => f ≤ e.2) = some (i, j)) (hBefore : ¬f < i) :
    d.assemble (g.block f) (decide (f + 1 ≠ g.count)) (g.bytes f) =
      let r := (ended g d f (g.block i)).fixHoles (g.block f) (g.finish f - g.start f) (g.block i)
      let d' := r.1.put (payloadAddr (g.block f)) (g.bytes f)
      if r.2 then some (d'.put 2 (beBytes16 d'.totalLen), some (d'.totalLen + ipHdrSize))
      else some (d', none) := by
  have hi : i < g.count := by
    omega
  have hTest := (Fragmented.before_hole_iff hf hi).not.mpr hBefore
  rw [Defrag.assemble, findHole_nodes h hf, hFind, Fragmented.length_bytes hf]
  simp only [Option.map_some]
  rw [if_neg hTest, Fragmented.block_add_size hf]
  by_cases hLast : f + 1 = g.count <;> simp [ended, hLast]

/-- A hole at block 0 is taken for none; a hole that starts at the fragment has none before it
unless the fragment adjoins the first ones. -/
theorem first_of_not_adjoins {j : Nat} (h : Assembling g ident received hs d)
    (hSplit : hs = xs ++ (f, j) :: ys) (hOk : ¬Adjoins received f)
    (hZero : lastKey 0 (g.nodes xs) = 0) : xs = [] := by
  rcases List.eq_nil_or_concat xs with hNil | ⟨as, a, rfl⟩
  · exact hNil
  exfalso
  have hOrdered := h.ordered
  rw [hSplit] at hOrdered
  obtain ⟨hBefore, hBelow, -, hLt, hLe, hBehind⟩ := Gaps.ordered_append.mp hOrdered
  simp only [List.concat_eq_append] at hBefore hBelow
  obtain ⟨-, hEarlier, -, ha, hTop, -⟩ := Gaps.ordered_append.mp hBefore
  have haf := hBelow a (by simp)
  simp only at haf hLt hLe hBehind
  have hStart : a.1 = 0 := by
    have hKey : lastKey 0 (g.nodes (as.concat a)) = g.block a.1 := by
      rw [List.concat_eq_append, Fragmented.nodes, List.map_append, lastKey_append]
      rfl
    rw [hKey] at hZero
    by_contra hPos
    have := g.increasing 0 a.1 (by omega) (by omega)
    omega
  have hOnly : as = [] := by
    by_contra has
    grind [List.exists_mem_of_ne_nil]
  subst hOnly
  refine hOk ⟨?_, ?_, a.2, haf, fun k hk => ?_, fun k hk hak => ?_⟩
  · exact (h.missing 0 g.count_pos).mp ⟨a, by simp [hSplit], by omega, by omega⟩
  · exact (h.missing f (by omega)).mp ⟨(f, j), by simp [hSplit], le_rfl, hLt⟩
  · exact (h.missing k (by omega)).mp ⟨a, by simp [hSplit], by omega, hk⟩
  · by_contra hk'
    obtain ⟨b, hb, hLow, hHigh⟩ := (h.missing k (by omega)).mpr hk'
    rw [hSplit] at hb
    rcases List.mem_append.mp hb with hb | hb
    · grind
    · rcases List.mem_cons.mp hb with rfl | hb
      · simp only at hLow
        omega
      · have := hBehind.bounds hb
        omega

theorem no_gap_iff {lo : Nat} (hOrdered : Gaps.Ordered g.count lo hs)
    (hMissing : ∀ m < g.count, Gaps.Missing hs m ↔ m ∉ received) :
    hs = [] ↔ Complete g received := by
  constructor
  · rintro rfl m hm
    by_contra hNot
    obtain ⟨a, ha, -⟩ := (hMissing m hm).mpr hNot
    simp at ha
  · intro hAll
    by_contra hSome
    obtain ⟨a, ha⟩ := List.exists_mem_of_ne_nil hs hSome
    have hBounds := hOrdered.bounds ha
    exact (hMissing a.1 (by omega)).mp ⟨a, ha, le_rfl, hBounds.2.1⟩ (hAll a.1 (by omega))

theorem assembled_put (hIdent : readLE d.pktBuff 4 2 = ident) (hTotal : d.totalLen = g.payload.length)
    (hData : ∀ m < g.count,
      load d.pktBuff (payloadAddr (g.block m)) (g.finish m - g.start m) = g.bytes m) :
    Assembled g ident (d.put 2 (beBytes16 d.totalLen)) := by
  refine ⟨?_, hTotal, Fragmented.load_of_fragments fun m hm => ?_⟩
  · grind [Defrag.put, readLE_store_disjoint, beBytes16]
  · rw [Defrag.put, load_store_disjoint _ _ _ _ _ (.inr ?_)]
    · exact hData m hm
    · simp only [beBytes16, payloadAddr, ipHdrSize, List.length_cons, List.length_nil]
      omega

theorem Assembling.inGap {i j : Nat} (h : Assembling g ident received hs d)
    (hSplit : hs = xs ++ (i, j) :: ys) (hLow : i ≤ f) (hHigh : f < j) :
    InGap g (ended g d f (g.block i)) xs i j ys f := by
  obtain ⟨hOpened, hFirst, hValue, -, -⟩ := ended_spec h hSplit f
  have hOrdered := h.ordered
  rw [hSplit] at hOrdered
  have hj : j ≤ g.count := (Gaps.ordered_append.mp hOrdered).2.2.2.2.1
  refine ⟨hOrdered, hLow, hHigh, hOpened, ?_, ?_, fun hMore => ?_⟩
  · rw [hFirst, h.linked.first, hSplit, Fragmented.nodes_append, firstKey_append]
    rfl
  · grind [le_rfl, Fragmented.edge_le_finish_iff]
  · rw [hValue, if_neg (by omega)]

theorem total_cons {total : Nat} (h : Assembling g ident received hs d)
    (hTotal : total = if f + 1 = g.count then g.payload.length else d.totalLen) :
    total = if g.count - 1 ∈ f :: received then g.payload.length else 0xffff := by
  have hSame : g.count - 1 = f ↔ f + 1 = g.count := by
    have := g.count_pos
    omega
  rw [hTotal, h.total]
  by_cases hLast : f + 1 = g.count <;> simp [hSame, hLast]

theorem assemble_new (h : Assembling g ident received hs d) (hf : f < g.count)
    (hNew : f ∉ received) (hOk : ¬Adjoins received f) :
    ∃ d' done, d.assemble (g.block f) (decide (f + 1 ≠ g.count)) (g.bytes f) =
      some (d', if done = true then some (g.payload.length + ipHdrSize) else none) ∧
      WritesInside d d' ∧ (done = true ↔ Complete g (f :: received)) ∧
      (done = true → Assembled g ident d') ∧
      (done = false → ∃ hs', Assembling g ident (f :: received) hs' d') := by
  obtain ⟨xs, i, j, ys, hSplit, hLow, hHigh, hFind⟩ := h.split hf hNew
  obtain ⟨-, -, -, hTotal, hEdit⟩ := ended_spec h hSplit f
  have hGap := h.inGap hSplit hLow hHigh
  have hFixed := hGap.fixHoles fun hi hZero => first_of_not_adjoins h (hi ▸ hSplit) hOk hZero
  have hOrdered := Gaps.ordered_without hGap.ordered hLow hHigh
  have hMissing := Gaps.missing_without hGap.ordered hLow hHigh
  rw [assemble_eq h hf hFind (by omega)]
  generalize (ended g d f (g.block i)).fixHoles (g.block f) (g.finish f - g.start f) (g.block i) = r
    at hFixed ⊢
  rw [← hSplit] at hFixed hMissing
  generalize xs ++ Gaps.without (i, j) f ++ ys = hs' at hFixed hOrdered hMissing
  have hGone : ∀ m < g.count, Gaps.Missing hs' m ↔ m ∉ f :: received := by
    intro m hm
    rw [hMissing, h.missing m hm, List.mem_cons, not_or, and_comm]
  have hComplete := no_gap_iff hOrdered hGone
  have hEdits := hEdit.trans hFixed.edits
  obtain ⟨hIdent, hData⟩ := copied_data h hEdits rfl hf
  have hInside : WritesInside d (r.1.put (payloadAddr (g.block f)) (g.bytes f)) :=
    (hEdits.inside h.ordered).trans (inside_put_fragment hf)
  have hTotal' : (r.1.put (payloadAddr (g.block f)) (g.bytes f)).totalLen =
      if g.count - 1 ∈ f :: received then g.payload.length else 0xffff := by
    obtain ⟨ks, hKs, -⟩ := hEdits
    exact total_cons h (hKs.total.trans hTotal)
  have hLink : hs' ≠ [] → Linked (r.1.put (payloadAddr (g.block f)) (g.bytes f)) (g.nodes hs') :=
    fun hSome => (hFixed.linked hSome).put_fragment hOrdered hf fun hMiss =>
      (hGone f hf).mp hMiss List.mem_cons_self
  generalize hd' : r.1.put (payloadAddr (g.block f)) (g.bytes f) = d'
    at hIdent hData hInside hTotal' hLink ⊢
  by_cases hDone : hs' = []
  · have hAll := hComplete.mp hDone
    have hLast : g.count - 1 ∈ f :: received := hAll _ (by have := g.count_pos; omega)
    rw [if_pos hLast] at hTotal'
    have hPut : WritesInside d' (d'.put 2 (beBytes16 d'.totalLen)) := WritesInside.put (by
      simp [beBytes16, ipPktsize])
    refine ⟨d'.put 2 (beBytes16 d'.totalLen), true, ?_, hInside.trans hPut, ?_, fun _ => ?_, by simp⟩
    · simp [hFixed.done, hDone, hd', hTotal']
    · simpa using hAll
    · exact assembled_put hIdent hTotal' fun m hm => hData m hm (hAll m hm)
  · refine ⟨d', false, ?_, hInside, ?_, by simp, fun _ => ⟨hs', ?_⟩⟩
    · simp [hFixed.done, hDone, hd']
    · simpa [hDone] using hComplete.symm
    · exact ⟨hIdent, hTotal', hData, hOrdered, hGone, hLink hDone, hDone⟩

/-- Behind a hole the code takes a fragment that has arrived for its last part; all it writes
is there already. -/
theorem assemble_behind_hole {i : Nat} (h : Assembling g ident received hs d) (hf : f < g.count)
    (hOld : f ∈ received) (hFind : hs.find? (fun e => f ≤ e.2) = some (i, f)) :
    ∃ d', d.assemble (g.block f) (decide (f + 1 ≠ g.count)) (g.bytes f) = some (d', none) ∧
      WritesInside d d' ∧ Assembling g ident received hs d' := by
  have hMem := List.mem_of_find?_eq_some hFind
  have hi : i < f := (h.ordered.bounds hMem).2.1
  obtain ⟨xs, ys, hSplit⟩ := List.append_of_mem hMem
  obtain ⟨hOpened, hFirst, hValue, hTotal, hEdit⟩ := ended_spec h hSplit f
  have hOrdered := h.ordered
  rw [hSplit] at hOrdered
  have hAround := Fragmented.around_nodes hOrdered
  have hEdge := Fragmented.edge_of_lt hf
  have hSum := Fragmented.block_add_size hf
  have hShort : ((ended g d f (g.block i)).hole (g.block i)).value ≤ g.finish f := by
    rw [hValue]
    split
    · exact le_rfl
    · omega
  have hApart : ¬g.block f ≤ g.block i := by
    rw [Fragmented.block_le_iff hf (by omega)]
    omega
  have hHere : ¬Gaps.Missing hs f := fun hMissing => (h.missing f hf).mp hMissing hOld
  rw [assemble_eq h hf hFind (by omega)]
  simp only [Defrag.fixHoles, hSum, hApart, hShort, false_and, if_false, if_true, Bool.false_eq_true]
  obtain ⟨hOpened', hStart⟩ := opened_setLastByte hOpened hAround (hEdge ▸ g.edge_lt_two_pow)
  have hEdits : EditsMissing g hs { d with totalLen := (ended g d f (g.block i)).totalLen }
      ((ended g d f (g.block i)).setLastByte (g.block i) (g.block f * 8)) := by
    refine hEdit.trans (.of_keys (edits_setLastByte (List.mem_singleton_self _) _) ?_)
    rw [List.forall_mem_singleton]
    exact ⟨i, ⟨(i, f), hMem, le_rfl, hi⟩, rfl⟩
  obtain ⟨hIdent, hData⟩ := copied_data h hEdits rfl hf
  refine ⟨_, rfl, (hEdits.inside h.ordered).trans (inside_put_fragment hf), hIdent, ?_,
    fun m hm hMem => hData m hm (List.mem_cons_of_mem _ hMem), h.ordered, h.missing, ?_, h.incomplete⟩
  · refine hTotal.trans ?_
    have hSame : f + 1 = g.count → g.count - 1 ∈ received := by
      grind
    split
    · rename_i hLast
      rw [if_pos (hSame hLast)]
    · exact h.total
  · refine Linked.put_fragment ⟨?_, ?_⟩ h.ordered hf hHere
    · rw [hSplit, Fragmented.nodes, List.map_append]
      exact segment_iff_opened.mpr ⟨hOpened', hStart.trans hEdge.symm⟩
    · exact hFirst.trans h.linked.first

theorem assemble_old (h : Assembling g ident received hs d) (hf : f < g.count)
    (hOld : f ∈ received) :
    ∃ d', d.assemble (g.block f) (decide (f + 1 ≠ g.count)) (g.bytes f) = some (d', none) ∧
      WritesInside d d' ∧ Assembling g ident received hs d' := by
  have hSearch := findHole_nodes h hf
  cases hFind : hs.find? (fun e => f ≤ e.2) with
  | none =>
      grind [WritesInside.refl, Defrag.assemble]
  | some e =>
      have hMem := List.mem_of_find?_eq_some hFind
      have hLe : f ≤ e.2 := by simpa using List.find?_some hFind
      have hBounds := h.ordered.bounds hMem
      have hApart : ¬(e.1 ≤ f ∧ f < e.2) := fun hIn =>
        (h.missing f hf).mp ⟨e, hMem, hIn⟩ hOld
      by_cases hBefore : f < e.1
      · rw [hFind] at hSearch
        refine ⟨d, ?_, WritesInside.refl d, h⟩
        rw [Defrag.assemble, hSearch, Fragmented.length_bytes hf]
        simp only [Option.map_some]
        rw [if_pos ((Fragmented.before_hole_iff hf (by omega)).mpr hBefore)]
      · grind [Prod.ext, assemble_behind_hole]

theorem hole_reset (d : Defrag) (ip : Mem) : (d.reset ip).hole 0 = ⟨0xffff, 0, 0⟩ := by
  have hRecord : (((({ d with totalLen := 0xffff } : Defrag).setLastByte 0 0xffff).setNextHole 0
      0).setPrevHole 0 0).hole 0 = ⟨0xffff, 0, 0⟩ := by
    simp [hole_setPrevHole, hole_setNextHole, hole_setLastByte]
  exact (hole_put_of_disjoint _ (.inr (by simp [payloadAddr]))).trans hRecord

theorem reset_spec (g : Fragmented) (d : Defrag) (ip : Mem) :
    Assembling g (readLE ip 4 2) [] [(0, g.count)] (d.reset ip) ∧ WritesInside d (d.reset ip) := by
  have hPos := g.count_pos
  have hIdent : readLE (d.reset ip).pktBuff 4 2 = readLE ip 4 2 := by
    have hHeader : load (d.reset ip).pktBuff (0 + 4) 2 = load ip 4 2 := by
      rw [Defrag.reset, Defrag.put, load_store_inside _ _ _ (by simp [ipHdrSize]),
        load_take_drop ip 0 (by decide)]
    rw [readLE, hHeader, readLE]
  have hRecord : (d.reset ip).hole (g.block 0) = ⟨g.edge g.count, 0, 0⟩ := by
    rw [g.block_zero, hole_reset, Fragmented.edge, if_neg (Nat.lt_irrefl _)]
  refine ⟨⟨hIdent, rfl, by simp, ⟨le_rfl, hPos, le_rfl, trivial⟩, fun f hf => ?_,
    ⟨⟨hRecord, trivial⟩, g.block_zero.symm⟩, by simp⟩, ?_⟩
  · simp [Gaps.Missing, hf]
  · refine ⟨[(payloadAddr 0, 2), (payloadAddr 0 + 2, 2), (payloadAddr 0 + 4, 2), (0, ipHdrSize)], ?_,
      by decide⟩
    simp [Defrag.reset, Defrag.put, Defrag.setLastByte, Defrag.setNextHole, Defrag.setPrevHole]

end Fire3.Net

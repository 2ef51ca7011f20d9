import Fire3.Base.Gaps
import Fire3.Net.DefragHoles

/-!
A datagram cut into fragments, and the tests of `__net_defragment` in terms of them.

Positions in the packet become numbers of fragments: the comparisons that the code makes
between blocks and bytes are comparisons of these numbers.
-/

namespace Fire3.Net
open ByteMemory LinkedList

variable {hs : List (Nat × Nat)} {lo : Nat} {d' : Defrag}

/-- A datagram (the UDP header and its data) cut into fragments; `block f` is the offset of
fragment `f`. -/
structure Fragmented where
  payload : List UInt8
  count : Nat
  block : Nat → Nat
  count_pos : 0 < count
  block_zero : block 0 = 0
  increasing : ∀ i j, i < j → j < count → block i < block j
  last_lt : 8 * block (count - 1) < payload.length
  size : payload.length ≤ ipMaxudp

namespace Fragmented
variable (g : Fragmented)

def start (f : Nat) : Nat := 8 * g.block f

def finish (f : Nat) : Nat := if f + 1 < g.count then 8 * g.block (f + 1) else g.payload.length

def bytes (f : Nat) : List UInt8 := (g.payload.drop (g.start f)).take (g.finish f - g.start f)

def edge (j : Nat) : Nat := if j < g.count then 8 * g.block j else 0xffff

def nodes (hs : List (Nat × Nat)) : List (Nat × Nat) := hs.map fun h => (g.block h.1, g.edge h.2)

structure IsFragment (ident f : Nat) (ip : Mem) : Prop where
  len : readBE16 ip 2 = ipHdrSize + (g.finish f - g.start f)
  offset : readBE16 ip 6 &&& 0x1fff = g.block f
  more : readBE16 ip 6 &&& 0x2000 = 0 ↔ f + 1 = g.count
  ident : readLE ip 4 2 = ident
  data : load ip ipHdrSize (g.finish f - g.start f) = g.bytes f

variable {g} {f i j : Nat}

theorem block_lt_iff (hi : i < g.count) (hj : j < g.count) : g.block i < g.block j ↔ i < j := by
  constructor
  · intro h
    by_contra hNot
    rcases Nat.lt_or_eq_of_le (Nat.not_lt.mp hNot) with hLt | rfl
    · have := g.increasing j i hLt hi
      omega
    · omega
  · exact fun h => g.increasing i j h hj

theorem block_le_iff (hi : i < g.count) (hj : j < g.count) : g.block i ≤ g.block j ↔ i ≤ j := by
  rw [← Nat.not_lt, ← Nat.not_lt, block_lt_iff hj hi]

theorem start_lt (hf : f < g.count) : g.start f < g.payload.length := by
  have hLast := g.last_lt
  have hLe := (block_le_iff hf (show g.count - 1 < g.count by omega)).mpr (by omega)
  unfold start
  omega

theorem start_lt_finish (hf : f < g.count) : g.start f < g.finish f := by
  unfold finish
  split
  · rename_i hNext
    have := g.increasing f (f + 1) (by omega) hNext
    unfold start
    omega
  · exact start_lt hf

theorem block_add_size (hf : f < g.count) :
    g.block f * 8 + (g.finish f - g.start f) = g.finish f := by
  have := start_lt_finish hf
  unfold start at *
  omega

theorem finish_le (f : Nat) : g.finish f ≤ g.payload.length := by
  unfold finish
  split
  · rename_i hNext
    exact (start_lt hNext).le
  · exact le_rfl

theorem finish_le_start (hij : i < j) (hj : j < g.count) : g.finish i ≤ g.start j := by
  have hNext : i + 1 < g.count := by omega
  rw [finish, if_pos hNext, start]
  have := (block_le_iff hNext hj).mpr hij
  omega

theorem start_add_le (hij : i < j) (hj : j < g.count) : g.start i + 8 ≤ g.start j := by
  have := g.increasing i j hij hj
  unfold start
  omega

theorem record_apart (hi : i < g.count) (hf : f < g.count) (hNe : i ≠ f) :
    g.start i + 8 ≤ g.start f ∨ g.finish f ≤ g.start i := by
  rcases Nat.lt_or_gt_of_ne hNe with hBefore | hAfter
  · exact .inl (start_add_le hBefore hf)
  · exact .inr (finish_le_start hAfter hi)

theorem start_add_le_ipMaxudp (hf : f < g.count) : g.start f + 8 ≤ ipMaxudp := by
  have hLt := start_lt hf
  have hSize := g.size
  unfold start ipMaxudp ipPktsize ipHdrSize at *
  omega

theorem edge_lt_iff (hf : f < g.count) : g.edge j < g.start f ↔ j < f := by
  have hStart := start_add_le_ipMaxudp hf
  unfold edge
  split
  · rename_i hj
    have := @block_lt_iff g _ _ hj hf
    unfold start
    omega
  · grind [ipMaxudp, ipPktsize, ipHdrSize]

theorem edge_of_lt (hj : j < g.count) : g.edge j = g.block j * 8 := by
  rw [edge, if_pos hj, Nat.mul_comm]

theorem edge_lt_two_pow : g.edge j < 2 ^ 16 := by
  unfold edge
  split
  · rename_i hj
    have hStart := start_add_le_ipMaxudp hj
    simp only [start, ipMaxudp, ipPktsize, ipHdrSize] at hStart
    omega
  · decide

theorem block_lt_two_pow (hf : f < g.count) : g.block f < 2 ^ 13 := by
  have hStart := start_add_le_ipMaxudp hf
  simp only [start, ipMaxudp, ipPktsize, ipHdrSize] at hStart
  omega

theorem before_hole_iff (hf : f < g.count) (hi : i < g.count) :
    g.block f + (g.finish f - g.start f + 7) / 8 ≤ g.block i ↔ f < i := by
  have hLt := start_lt_finish hf
  rw [finish] at hLt ⊢
  split at hLt
  · rename_i hNext
    rw [if_pos hNext]
    have hOrder := @block_le_iff g _ _ hNext hi
    unfold start at *
    omega
  · rename_i hLast
    rw [if_neg hLast]
    have hOrder := (block_le_iff hi hf).mpr (by omega)
    omega

theorem behind_fragment (hNext : f + 1 < g.count) :
    g.block f + (g.finish f - g.start f) / 8 = g.block (f + 1) := by
  have := g.increasing f (f + 1) (by omega) hNext
  rw [finish, if_pos hNext, start]
  omega

theorem edge_le_finish_iff (hNext : f + 1 < g.count) : g.edge j ≤ g.finish f ↔ j ≤ f + 1 := by
  have hStart := start_add_le_ipMaxudp hNext
  rw [finish, if_pos hNext, edge]
  split
  · rename_i hj
    have := @block_le_iff g _ _ hj hNext
    omega
  · simp only [start, ipMaxudp, ipPktsize, ipHdrSize] at hStart
    omega

theorem length_bytes (hf : f < g.count) : (g.bytes f).length = g.finish f - g.start f := by
  have := g.finish_le f
  have := start_lt_finish hf
  rw [bytes, List.length_take, List.length_drop]
  omega

theorem exists_fragment {x : Nat} (hx : x < g.payload.length) :
    ∃ f < g.count, g.start f ≤ x ∧ x < g.finish f := by
  have hUpTo : ∀ k, k < g.count → x < g.finish k → ∃ f < g.count, g.start f ≤ x ∧ x < g.finish f := by
    intro k
    induction k with
    | zero =>
        intro hk hLt
        exact ⟨0, hk, by simp [start, g.block_zero], hLt⟩
    | succ k ih =>
        intro hk hLt
        by_cases hStart : g.start (k + 1) ≤ x
        · exact ⟨k + 1, hk, hStart, hLt⟩
        · exact ih (by omega) (by rw [finish, if_pos hk]; exact Nat.not_le.mp hStart)
  have hPos := g.count_pos
  exact hUpTo (g.count - 1) (by omega) (by rw [finish, if_neg (by omega)]; exact hx)

theorem load_of_fragments {m : Mem}
    (h : ∀ f < g.count, load m (payloadAddr (g.block f)) (g.finish f - g.start f) = g.bytes f) :
    load m ipHdrSize g.payload.length = g.payload := by
  rw [load_eq_iff]
  intro x hx
  obtain ⟨f, hf, hLow, hHigh⟩ := exists_fragment hx
  have hByte := (load_eq_iff m (payloadAddr (g.block f)) (g.bytes f)).mp
    (by rw [length_bytes hf]; exact h f hf) (x - g.start f) (by rw [length_bytes hf]; omega)
  have hAddr : payloadAddr (g.block f) + (x - g.start f) = ipHdrSize + x := by
    have hStart : g.start f = 8 * g.block f := rfl
    rw [payloadAddr]
    omega
  rw [hAddr] at hByte
  rw [hByte]
  simp only [bytes, List.getElem_take, List.getElem_drop, Nat.add_sub_cancel' hLow]

theorem nodes_append (as bs : List (Nat × Nat)) : g.nodes (as ++ bs) = g.nodes as ++ g.nodes bs :=
  List.map_append

theorem nodes_eq_nil_iff : g.nodes hs = [] ↔ hs = [] := List.map_eq_nil_iff

theorem numbered_nodes (h : Gaps.Ordered g.count lo hs) : Numbered (g.nodes hs) := by
  refine ⟨?_, fun e he => ?_⟩
  · rw [nodes, List.pairwise_map]
    induction hs generalizing lo with
    | nil => exact List.Pairwise.nil
    | cons a hs ih =>
        refine List.pairwise_cons.mpr ⟨fun b hb => ?_, ih h.2.2.2⟩
        have hb := h.2.2.2.bounds hb
        have ha := h.2.1
        exact g.increasing a.1 b.1 (by omega) (by omega)
  · obtain ⟨a, ha, rfl⟩ := List.mem_map.mp he
    have hBounds := h.bounds ha
    grind [block_lt_two_pow, edge_lt_two_pow]

theorem around_nodes {xs ys : List (Nat × Nat)} (h : Gaps.Ordered g.count lo (xs ++ (i, j) :: ys)) :
    Around (g.nodes xs) (g.block i) (g.nodes ys) := by
  have hNumbered := numbered_nodes h
  rw [nodes_append] at hNumbered
  exact hNumbered.around

end Fragmented

variable {g : Fragmented} {d : Defrag} {xs ys : List (Nat × Nat)} {f i j : Nat}

def EditsMissing (g : Fragmented) (hs : List (Nat × Nat)) (d d' : Defrag) : Prop :=
  ∃ ks, Edits ks d d' ∧ ∀ k ∈ ks, ∃ m, Gaps.Missing hs m ∧ k = g.block m

theorem EditsMissing.of_keys {ks : List Nat} (h : Edits ks d d')
    (hks : ∀ k ∈ ks, ∃ m, Gaps.Missing hs m ∧ k = g.block m) : EditsMissing g hs d d' :=
  ⟨ks, h, hks⟩

theorem missing_of_key {hs' : List (Nat × Nat)} (h : Gaps.Ordered g.count lo hs) (hSub : hs' ⊆ hs)
    {k : Nat} (hk : k ∈ (g.nodes hs').map Prod.fst) : ∃ m, Gaps.Missing hs m ∧ k = g.block m := by
  obtain ⟨e, he, rfl⟩ := List.mem_map.mp hk
  obtain ⟨a, ha, rfl⟩ := List.mem_map.mp he
  exact ⟨a.1, ⟨a, hSub ha, le_rfl, (h.bounds (hSub ha)).2.1⟩, rfl⟩

structure InGap (g : Fragmented) (d : Defrag) (xs : List (Nat × Nat)) (i j : Nat)
    (ys : List (Nat × Nat)) (f : Nat) : Prop where
  ordered : Gaps.Ordered g.count 0 (xs ++ (i, j) :: ys)
  low : i ≤ f
  high : f < j
  opened : Opened d.hole (g.nodes xs) (g.block i) (g.nodes ys)
  first : d.firstHole = firstKey (g.block i) (g.nodes xs)
  ends : (d.hole (g.block i)).value ≤ g.finish f ↔ j ≤ f + 1
  value : f + 1 < j → (d.hole (g.block i)).value = g.edge j

structure Fixed (g : Fragmented) (old hs : List (Nat × Nat)) (d : Defrag) (r : Defrag × Bool) :
    Prop where
  done : r.2 = decide (hs = [])
  linked : hs ≠ [] → Linked r.1 (g.nodes hs)
  edits : EditsMissing g old d r.1

namespace InGap
variable (h : InGap g d xs i j ys f)
include h

theorem lt : f < g.count := by
  have hBounds := h.ordered.bounds (g := (i, j)) (by simp)
  have hHigh := h.high
  simp only at hBounds
  omega

theorem around : Around (g.nodes xs) (g.block i) (g.nodes ys) := Fragmented.around_nodes h.ordered

theorem missing : Gaps.Missing (xs ++ (i, j) :: ys) i :=
  ⟨(i, j), by simp, le_rfl, Nat.lt_of_le_of_lt h.low h.high⟩

theorem keys (hSub : hs ⊆ xs ++ (i, j) :: ys) :
    ∀ k ∈ (g.nodes hs).map Prod.fst, ∃ m, Gaps.Missing (xs ++ (i, j) :: ys) m ∧ k = g.block m :=
  fun _ hk => missing_of_key h.ordered hSub hk

theorem room (hMore : f + 1 < j) :
    Room (g.block i) (g.block (f + 1)) (g.nodes ys) ∧ f + 1 < g.count ∧
      Gaps.Missing (xs ++ (i, j) :: ys) (f + 1) := by
  obtain ⟨-, -, -, -, hTop, hBehind⟩ := Gaps.ordered_append.mp h.ordered
  have hLow := h.low
  have hNext : f + 1 < g.count := by simp only at hTop; omega
  refine ⟨⟨g.increasing i (f + 1) (by omega) hNext, fun b hb => ?_, ?_⟩, hNext, (i, j), by simp, ?_,
    hMore⟩
  · obtain ⟨e, he, rfl⟩ := List.mem_map.mp hb
    obtain ⟨a, ha, rfl⟩ := List.mem_map.mp he
    have hBounds := hBehind.bounds ha
    exact g.increasing (f + 1) a.1 (by simp only at hBounds; omega) (by omega)
  · have := Fragmented.block_lt_two_pow hNext
    omega
  · simp only
    omega

theorem removeHole (hPrev : lastKey 0 (g.nodes xs) = 0 → xs = []) :
    Fixed g (xs ++ (i, j) :: ys) (xs ++ ys) d (d.removeHole (g.block i)) := by
  obtain ⟨hDone, hLinked, hEdit⟩ := removeHole_spec h.opened h.around h.first fun hZero =>
    Fragmented.nodes_eq_nil_iff.mpr (hPrev hZero)
  rw [← Fragmented.nodes_append] at hDone hLinked hEdit
  refine ⟨?_, fun hSome => hLinked (mt Fragmented.nodes_eq_nil_iff.mp hSome), .of_keys hEdit (h.keys ?_)⟩
  · simpa only [Fragmented.nodes_eq_nil_iff] using hDone
  · simp

theorem moveHole (hMore : f + 1 < j) (hPrev : lastKey 0 (g.nodes xs) = 0 → xs = []) :
    Fixed g (xs ++ (i, j) :: ys) (xs ++ (f + 1, j) :: ys) d
      (d.moveHole (g.block i) (g.block (f + 1)), false) := by
  obtain ⟨hRoom, -, hNext⟩ := h.room hMore
  obtain ⟨hLinked, hEdit⟩ := moveHole_spec h.opened h.around hRoom h.first fun hZero =>
    Fragmented.nodes_eq_nil_iff.mpr (hPrev hZero)
  rw [h.value hMore] at hLinked
  generalize d.moveHole (g.block i) (g.block (f + 1)) = d' at hLinked hEdit ⊢
  refine ⟨by simp, fun _ => ?_, .of_keys hEdit ?_⟩
  · rw [Fragmented.nodes_append]
    exact hLinked
  · rw [List.forall_mem_append, List.forall_mem_cons]
    exact ⟨h.keys (by simp), ⟨f + 1, hNext, rfl⟩, h.keys (by simp)⟩

theorem setLastByte :
    Fixed g (xs ++ (i, j) :: ys) (xs ++ (i, f) :: ys) d
      (d.setLastByte (g.block i) (g.block f * 8), false) := by
  have hEdge := Fragmented.edge_of_lt h.lt
  obtain ⟨hOpened, hStart⟩ := opened_setLastByte h.opened h.around (hEdge ▸ g.edge_lt_two_pow)
  refine ⟨by simp, fun _ => ⟨?_, ?_⟩, .of_keys (edits_setLastByte (List.mem_singleton_self _) d) ?_⟩
  · rw [Fragmented.nodes_append]
    exact segment_iff_opened.mpr ⟨hOpened, hStart.trans hEdge.symm⟩
  · rw [Fragmented.nodes_append, firstKey_append]
    exact h.first
  · rw [List.forall_mem_singleton]
    exact ⟨i, h.missing, rfl⟩

theorem splitHole (hMore : f + 1 < j) :
    Fixed g (xs ++ (i, j) :: ys) (xs ++ (i, f) :: (f + 1, j) :: ys) d
      (d.splitHole (g.block i) (g.block (f + 1)) (g.block f * 8), false) := by
  have hEdge := Fragmented.edge_of_lt h.lt
  obtain ⟨hRoom, -, hNext⟩ := h.room hMore
  obtain ⟨hLinked, hEdit⟩ := splitHole_spec h.opened h.around hRoom h.first
    (hEdge ▸ g.edge_lt_two_pow)
  rw [h.value hMore] at hLinked
  generalize d.splitHole (g.block i) (g.block (f + 1)) (g.block f * 8) = d' at hLinked hEdit ⊢
  refine ⟨by simp, fun _ => ?_, .of_keys hEdit ?_⟩
  · rw [← hEdge] at hLinked
    rw [Fragmented.nodes_append]
    exact hLinked
  · rw [List.forall_mem_cons, List.forall_mem_cons]
    exact ⟨⟨i, h.missing, rfl⟩, ⟨f + 1, hNext, rfl⟩, h.keys (by simp)⟩

theorem fixHoles (hPrev : i = f → lastKey 0 (g.nodes xs) = 0 → xs = []) :
    Fixed g (xs ++ (i, j) :: ys) (xs ++ Gaps.without (i, j) f ++ ys) d
      (d.fixHoles (g.block f) (g.finish f - g.start f) (g.block i)) := by
  have hLow := h.low
  have hLeft : g.block f ≤ g.block i ↔ i = f := by
    rw [Fragmented.block_le_iff h.lt (Nat.lt_of_le_of_lt hLow h.lt)]
    omega
  unfold Defrag.fixHoles
  simp only [Fragmented.block_add_size h.lt, h.ends, hLeft]
  by_cases hi : i = f <;> by_cases hj : j ≤ f + 1
  · have hList : xs ++ Gaps.without (i, j) f ++ ys = xs ++ ys := by
      simp [Gaps.without, hi, Nat.not_lt.mpr hj]
    rw [if_pos ⟨hi, hj⟩, hList]
    exact h.removeHole (hPrev hi)
  · have hList : xs ++ Gaps.without (i, j) f ++ ys = xs ++ (f + 1, j) :: ys := by
      simp [Gaps.without, hi, Nat.not_le.mp hj]
    rw [if_neg (by omega), if_neg hj, if_pos hi, hList,
      Fragmented.behind_fragment (h.room (by omega)).2.1]
    exact h.moveHole (by omega) (hPrev hi)
  · have hList : xs ++ Gaps.without (i, j) f ++ ys = xs ++ (i, f) :: ys := by
      simp [Gaps.without, Nat.lt_of_le_of_ne hLow hi, Nat.not_lt.mpr hj]
    rw [if_neg (by omega), if_pos hj, hList]
    exact h.setLastByte
  · have hList : xs ++ Gaps.without (i, j) f ++ ys = xs ++ (i, f) :: (f + 1, j) :: ys := by
      simp [Gaps.without, Nat.lt_of_le_of_ne hLow hi, Nat.not_le.mp hj]
    rw [if_neg (by omega), if_neg hj, if_neg hi, hList,
      Fragmented.behind_fragment (h.room (by omega)).2.1]
    exact h.splitHole (by omega)

end InGap

theorem EditsMissing.trans {d'' : Defrag} (h : EditsMissing g hs d d')
    (h' : EditsMissing g hs d' d'') : EditsMissing g hs d d'' := by
  obtain ⟨ks, hEdit, hks⟩ := h
  obtain ⟨ks', hEdit', hks'⟩ := h'
  refine .of_keys ((hEdit.mono (List.subset_append_left ks ks')).trans
    (hEdit'.mono (List.subset_append_right ks ks'))) ?_
  exact List.forall_mem_append.mpr ⟨hks, hks'⟩

/-- The state `d'` is behind `d`, and what was written lies in `pkt_buff`. -/
def WritesInside (d d' : Defrag) : Prop :=
  ∃ ws, d'.writes = d.writes ++ ws ∧ ∀ w ∈ ws, w.1 + w.2 ≤ ipPktsize

theorem WritesInside.refl (d : Defrag) : WritesInside d d := ⟨[], by simp, by simp⟩

theorem WritesInside.trans {d'' : Defrag} (h : WritesInside d d') (h' : WritesInside d' d'') :
    WritesInside d d'' := by
  obtain ⟨ws, hws, hIn⟩ := h
  obtain ⟨ws', hws', hIn'⟩ := h'
  exact ⟨ws ++ ws', by rw [hws', hws, List.append_assoc], List.forall_mem_append.mpr ⟨hIn, hIn'⟩⟩

theorem WritesInside.put {a : Nat} {bs : List UInt8} (h : a + bs.length ≤ ipPktsize) :
    WritesInside d (d.put a bs) :=
  ⟨[(a, bs.length)], rfl, by simpa using h⟩

theorem EditsMissing.header {a n : Nat} (h : EditsMissing g hs d d') (ha : a + n ≤ ipHdrSize) :
    load d'.pktBuff a n = load d.pktBuff a n := by
  obtain ⟨ks, hEdit, -⟩ := h
  refine load_congr _ _ _ _ fun x _ hx => hEdit.frame x fun k _ => .inl ?_
  unfold payloadAddr
  omega

section
variable {hs : List (Nat × Nat)} {d' : Defrag} (hOrdered : Gaps.Ordered g.count 0 hs)
  (h : EditsMissing g hs d d')
include hOrdered h

theorem EditsMissing.inside : WritesInside d d' := by
  obtain ⟨ks, hEdit, hks⟩ := h
  obtain ⟨ws, hws, hIn⟩ := hEdit.writes
  refine ⟨ws, hws, fun w hw => ?_⟩
  obtain ⟨k, hk, -, hBelow⟩ := hIn w hw
  obtain ⟨m, ⟨a, ha, -, hm⟩, rfl⟩ := hks k hk
  have hRoom := @Fragmented.start_add_le_ipMaxudp g m (by have := hOrdered.bounds ha; omega)
  simp only [payloadAddr, Fragmented.start, ipMaxudp, ipPktsize, ipHdrSize] at *
  omega

theorem EditsMissing.data (hf : f < g.count) (hHere : ¬Gaps.Missing hs f) :
    load d'.pktBuff (payloadAddr (g.block f)) (g.finish f - g.start f) =
      load d.pktBuff (payloadAddr (g.block f)) (g.finish f - g.start f) := by
  obtain ⟨ks, hEdit, hks⟩ := h
  refine load_congr _ _ _ _ fun x hLow hHigh => hEdit.frame x fun k hk => ?_
  obtain ⟨m, hMissing, rfl⟩ := hks k hk
  have hm : m < g.count := by
    obtain ⟨a, ha, -, hm⟩ := hMissing
    have := hOrdered.bounds ha
    omega
  have hNe : m ≠ f := fun hSame => hHere (hSame ▸ hMissing)
  have hLt := Fragmented.start_lt_finish hf
  have hApart := Fragmented.record_apart hm hf hNe
  simp only [payloadAddr, Fragmented.start] at *
  omega

end

end Fire3.Net

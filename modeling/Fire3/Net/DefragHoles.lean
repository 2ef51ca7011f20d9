import Fire3.Net.Defragment
import Mathlib.Data.List.Perm.Subperm

/-!
The list operations of `__net_defragment` on a list of holes that is linked properly.

A link of 0 stands for no hole. The first block has the number 0 as well, so a hole behind
the one at block 0 looks as if it were the first; removing or moving it is only right if
it is.
-/

namespace Fire3.Net
open ByteMemory LinkedList

variable {ns : List (Nat × Nat)} {newh : Nat} {d' : Defrag}

structure Edits (ks : List Nat) (d d' : Defrag) : Prop where
  total : d'.totalLen = d.totalLen
  writes : ∃ ws, d'.writes = d.writes ++ ws ∧
    ∀ w ∈ ws, ∃ k ∈ ks, payloadAddr k ≤ w.1 ∧ w.1 + w.2 ≤ payloadAddr k + 8
  frame : ∀ x, (∀ k ∈ ks, x < payloadAddr k ∨ payloadAddr k + 8 ≤ x) → d'.pktBuff x = d.pktBuff x

theorem Edits.refl (ks : List Nat) (d : Defrag) : Edits ks d d :=
  ⟨rfl, ⟨[], by simp, by simp⟩, fun _ _ => rfl⟩

theorem Edits.trans {ks : List Nat} {d d'' : Defrag} (h : Edits ks d d') (h' : Edits ks d' d'') :
    Edits ks d d'' := by
  obtain ⟨ws, hws, hIn⟩ := h.writes
  obtain ⟨ws', hws', hIn'⟩ := h'.writes
  refine ⟨h'.total.trans h.total, ⟨ws ++ ws', ?_, ?_⟩, fun x hx => (h'.frame x hx).trans (h.frame x hx)⟩
  · rw [hws', hws, List.append_assoc]
  · exact List.forall_mem_append.mpr ⟨hIn, hIn'⟩

theorem Edits.mono {ks ks' : List Nat} {d : Defrag} (h : Edits ks d d') (hks : ks ⊆ ks') :
    Edits ks' d d' := by
  obtain ⟨ws, hws, hIn⟩ := h.writes
  refine ⟨h.total, ⟨ws, hws, fun w hw => ?_⟩, fun x hx => h.frame x fun k hk => hx k (hks hk)⟩
  grind

theorem edits_put {ks : List Nat} {k o : Nat} (hk : k ∈ ks) (d : Defrag) {bs : List UInt8}
    (ho : o + bs.length ≤ 8) : Edits ks d (d.put (payloadAddr k + o) bs) := by
  refine ⟨rfl, ⟨_, rfl, fun w hw => ?_⟩, fun x hx => ?_⟩
  · grind
  · rcases hx k hk with hBelow | hAbove
    · exact store_below _ _ _ _ (by omega)
    · exact store_above _ _ _ _ (by omega)

theorem edits_firstHole (ks : List Nat) (d : Defrag) (i : Nat) : Edits ks d { d with firstHole := i } :=
  ⟨rfl, ⟨[], by simp, by simp⟩, fun _ _ => rfl⟩

section
variable {ks : List Nat} {k v : Nat} (hk : k ∈ ks) (d : Defrag)
include hk

theorem edits_setLastByte : Edits ks d (d.setLastByte k v) := @edits_put ks k 0 hk d _ (by simp)

theorem edits_setNextHole : Edits ks d (d.setNextHole k v) := edits_put hk d (by simp)

theorem edits_setPrevHole : Edits ks d (d.setPrevHole k v) := edits_put hk d (by simp)

theorem edits_copyHole (h : Nat) : Edits ks d (d.copyHole k h) :=
  @edits_put ks k 0 hk d _ (by simp)

end

structure Linked (d : Defrag) (ns : List (Nat × Nat)) : Prop where
  segment : Segment d.hole 0 0 ns
  first : d.firstHole = firstKey 0 ns

structure Numbered (ns : List (Nat × Nat)) : Prop where
  increasing : ns.Pairwise fun a b => a.1 < b.1
  small : ∀ e ∈ ns, e.1 < 2 ^ 16 ∧ e.2 < 2 ^ 16

variable {d : Defrag} {xs ys : List (Nat × Nat)} {k v : Nat}

theorem Numbered.nodup (h : Numbered ns) : (ns.map Prod.fst).Nodup := by
  rw [List.Nodup, List.pairwise_map]
  exact h.increasing.imp fun hLt => Nat.ne_of_lt hLt

theorem Numbered.firstKey_lt (h : Numbered ns) : firstKey 0 ns < 2 ^ 16 := by
  cases ns with
  | nil => decide
  | cons e es => exact (h.small e List.mem_cons_self).1

theorem Numbered.lastKey_lt (h : Numbered ns) : lastKey 0 ns < 2 ^ 16 := by
  by_cases hns : ns = []
  · subst hns
    decide
  · obtain ⟨e, he, hKey⟩ := List.mem_map.mp (@lastKey_mem _ 0 ns hns)
    rw [← hKey]
    exact (h.small e he).1

structure Around (xs : List (Nat × Nat)) (k : Nat) (ys : List (Nat × Nat)) : Prop where
  before : Numbered xs
  behind : Numbered ys
  lower : ∀ a ∈ xs.map Prod.fst, a < k
  higher : ∀ b ∈ ys.map Prod.fst, k < b
  small : k < 2 ^ 16

theorem Numbered.around (h : Numbered (xs ++ (k, v) :: ys)) : Around xs k ys := by
  obtain ⟨hInc, hSmall⟩ := h
  rw [List.pairwise_append, List.pairwise_cons] at hInc
  rw [List.forall_mem_append, List.forall_mem_cons] at hSmall
  refine ⟨⟨hInc.1, hSmall.1⟩, ⟨hInc.2.1.2, hSmall.2.2⟩, ?_, ?_, hSmall.2.1.1⟩
  · grind [List.mem_cons_self]
  · grind

namespace Around
variable (h : Around xs k ys)
include h

theorem firstKey_eq_zero_iff : firstKey 0 ys = 0 ↔ ys = [] := by
  constructor
  · intro hZero
    by_contra hys
    have := h.higher _ (firstKey_mem (q := 0) hys)
    omega
  · rintro rfl
    rfl

theorem notMem_before {a : Nat} (ha : k ≤ a) : a ∉ xs.map Prod.fst := by
  intro hMem
  have := h.lower a hMem
  omega

theorem notMem_behind {b : Nat} (hb : b ≤ k) : b ∉ ys.map Prod.fst := by
  intro hMem
  have := h.higher b hMem
  omega

theorem firstKey_notMem (hys : ys ≠ []) : firstKey 0 ys ∉ xs.map Prod.fst :=
  h.notMem_before (h.higher _ (firstKey_mem hys)).le

theorem lastKey_notMem (hxs : xs ≠ []) : lastKey 0 xs ∉ ys.map Prod.fst :=
  h.notMem_behind (h.lower _ (lastKey_mem hxs)).le

end Around

theorem removeHole_spec (h : Opened d.hole xs k ys) (hAround : Around xs k ys)
    (hFirst : d.firstHole = firstKey k xs) (hPrev : lastKey 0 xs = 0 → xs = []) :
    (d.removeHole k).2 = decide (xs ++ ys = []) ∧
      (xs ++ ys ≠ [] → Linked (d.removeHole k).1 (xs ++ ys)) ∧
      Edits ((xs ++ ys).map Prod.fst) d (d.removeHole k).1 := by
  have hZero : lastKey 0 xs = 0 ↔ xs = [] := ⟨hPrev, fun hxs => by rw [hxs]; rfl⟩
  simp only [Defrag.removeHole, h.next, h.prev, hAround.firstKey_eq_zero_iff, hZero]
  by_cases hxs : xs = [] <;> by_cases hys : ys = []
  · grind [Edits.refl]
  · subst hxs
    have hKey := firstKey_mem (q := 0) hys
    simp only [hys, and_false, if_false, if_true, List.nil_append, decide_false, true_and]
    refine ⟨fun _ => ⟨?_, rfl⟩, (edits_firstHole _ d _).trans (edits_setPrevHole hKey _)⟩
    rw [hole_setPrevHole _ (by decide)]
    exact h.behind.setPrev hys hAround.behind.nodup
  · subst hys
    have hKey := lastKey_mem (p := 0) hxs
    simp only [hxs, false_and, if_false, if_true, List.append_nil, decide_false, true_and]
    refine ⟨fun _ => ⟨?_, ?_⟩, edits_setNextHole hKey _⟩
    · rw [hole_setNextHole _ (by decide)]
      exact h.before.setNext hxs hAround.before.nodup
    · cases xs with
      | nil => exact absurd rfl hxs
      | cons e es => exact hFirst
  · have hKey := firstKey_mem (q := 0) hys
    have hKey' := lastKey_mem (p := 0) hxs
    simp only [hxs, hys, and_false, if_false, List.append_eq_nil_iff, decide_false, true_and]
    refine ⟨fun _ => ⟨?_, ?_⟩, ?_⟩
    · rw [hole_setNextHole _ hAround.behind.firstKey_lt, hole_setPrevHole _ hAround.before.lastKey_lt,
        segment_append]
      refine ⟨(h.before.update (hAround.firstKey_notMem hys)).setNext hxs hAround.before.nodup, ?_⟩
      exact (h.behind.setPrev hys hAround.behind.nodup).update (hAround.lastKey_notMem hxs)
    · cases xs with
      | nil => exact absurd rfl hxs
      | cons e es => exact hFirst
    · rw [List.map_append]
      exact (edits_setPrevHole (List.mem_append_right _ hKey) d).trans
        (edits_setNextHole (List.mem_append_left _ hKey') _)

theorem opened_setLastByte (h : Opened d.hole xs k ys) (hAround : Around xs k ys) (hv : v < 2 ^ 16) :
    Opened (d.setLastByte k v).hole xs k ys ∧ ((d.setLastByte k v).hole k).value = v := by
  rw [hole_setLastByte d hv, Function.update_self]
  refine ⟨⟨h.before.update (hAround.notMem_before le_rfl), ?_, ?_,
    h.behind.update (hAround.notMem_behind le_rfl)⟩, rfl⟩
  · rw [Function.update_self]
    exact h.next
  · rw [Function.update_self]
    exact h.prev

structure Room (k newh : Nat) (ys : List (Nat × Nat)) : Prop where
  above : k < newh
  below : ∀ b ∈ ys.map Prod.fst, newh < b
  small : newh < 2 ^ 16

theorem copyHole_spec (h : Opened d.hole xs k ys) (hAround : Around xs k ys)
    (hRoom : Room k newh ys) (hd : d' = if (( d.copyHole newh k).hole newh).next ≠ 0 then
      (d.copyHole newh k).setPrevHole ((d.copyHole newh k).hole newh).next newh
      else d.copyHole newh k) :
    Segment d'.hole k 0 xs ∧ d'.hole newh = d.hole k ∧ d'.hole k = d.hole k ∧
      Segment d'.hole 0 newh ys ∧ Edits (newh :: ys.map Prod.fst) d d' ∧
      d'.firstHole = d.firstHole := by
  have hCopy := hole_copyHole d newh k
  have hNew : (d.copyHole newh k).hole newh = d.hole k := by rw [hCopy, Function.update_self]
  have hOld : (d.copyHole newh k).hole k = d.hole k := by
    rw [hCopy, Function.update_of_ne hRoom.above.ne]
  have hAbove := hRoom.above
  have hNot : newh ∉ ys.map Prod.fst := fun hMem => absurd (hRoom.below _ hMem) (Nat.lt_irrefl _)
  have hBefore : Segment (d.copyHole newh k).hole k 0 xs := by
    rw [hCopy]
    exact h.before.update (hAround.notMem_before hAbove.le)
  have hBehind : Segment (d.copyHole newh k).hole 0 k ys := by
    rw [hCopy]
    exact h.behind.update hNot
  have hEdit : Edits (newh :: ys.map Prod.fst) d (d.copyHole newh k) :=
    edits_copyHole List.mem_cons_self d k
  simp only [hNew, h.next, ne_eq, hAround.firstKey_eq_zero_iff] at hd
  by_cases hys : ys = []
  · rw [if_neg (not_not_intro hys)] at hd
    subst hd hys
    exact ⟨hBefore, hNew, hOld, trivial, hEdit, rfl⟩
  · rw [if_pos hys] at hd
    have hKey := firstKey_mem (q := 0) hys
    have hHigher := hAround.higher _ hKey
    have hHole := hole_setPrevHole (d.copyHole newh k) (i := firstKey 0 ys) hRoom.small
    subst hd
    rw [hHole]
    refine ⟨hBefore.update (hAround.notMem_before hHigher.le), ?_, ?_,
      hBehind.setPrev hys hAround.behind.nodup,
      hEdit.trans (edits_setPrevHole (List.mem_cons_of_mem _ hKey) _), rfl⟩
    · grind
    · rw [Function.update_of_ne hHigher.ne, hOld]

theorem moveHole_spec (h : Opened d.hole xs k ys) (hAround : Around xs k ys)
    (hRoom : Room k newh ys) (hFirst : d.firstHole = firstKey k xs)
    (hPrev : lastKey 0 xs = 0 → xs = []) :
    Linked (d.moveHole k newh) (xs ++ (newh, (d.hole k).value) :: ys) ∧
      Edits (xs.map Prod.fst ++ newh :: ys.map Prod.fst) d (d.moveHole k newh) := by
  unfold Defrag.moveHole
  dsimp only
  generalize hd : (if ((d.copyHole newh k).hole newh).next ≠ 0 then
    (d.copyHole newh k).setPrevHole ((d.copyHole newh k).hole newh).next newh
    else d.copyHole newh k) = d'
  obtain ⟨hBefore, hNew, -, hBehind, hEdit, hFirst'⟩ := copyHole_spec h hAround hRoom hd.symm
  have hEdits := hEdit.mono (List.subset_append_right (xs.map Prod.fst) _)
  have hZero : lastKey 0 xs = 0 ↔ xs = [] := ⟨hPrev, fun hxs => by rw [hxs]; rfl⟩
  simp only [hNew, h.prev, ne_eq, hZero]
  by_cases hxs : xs = []
  · subst hxs
    rw [if_neg (not_not_intro rfl)]
    refine ⟨⟨segment_iff_opened.mpr ⟨⟨trivial, ?_, ?_, hBehind⟩, ?_⟩, rfl⟩,
      hEdits.trans (edits_firstHole _ d' newh)⟩
    · exact (congrArg Node.next hNew).trans h.next
    · exact (congrArg Node.prev hNew).trans h.prev
    · exact congrArg Node.value hNew
  · have hKey := lastKey_mem (p := 0) hxs
    have hLower := hAround.lower _ hKey
    have hAbove := hRoom.above
    have hHole := hole_setNextHole d' (i := lastKey 0 xs) hRoom.small
    have hSame : (d'.setNextHole (lastKey 0 xs) newh).hole newh = d.hole k := by
      rw [hHole, Function.update_of_ne (by omega), hNew]
    rw [if_pos hxs]
    refine ⟨⟨segment_iff_opened.mpr ⟨⟨?_, ?_, ?_, ?_⟩, ?_⟩, ?_⟩,
      hEdits.trans (edits_setNextHole (List.mem_append_left _ hKey) _)⟩
    · rw [hHole]
      exact hBefore.setNext hxs hAround.before.nodup
    · rw [hSame]
      exact h.next
    · rw [hSame]
      exact h.prev
    · rw [hHole]
      exact hBehind.update (hAround.lastKey_notMem hxs)
    · rw [hSame]
    · cases xs with
      | nil => exact absurd rfl hxs
      | cons e es => exact hFirst'.trans hFirst

theorem hole_split (d : Defrag) {k start : Nat} (hk : k < newh) (hNewh : newh < 2 ^ 16)
    (hStart : start < 2 ^ 16) :
    (((((d.copyHole newh k).setLastByte k start).setNextHole k newh).setPrevHole newh k)).hole =
      Function.update (Function.update d.hole k ⟨start, newh, (d.hole k).prev⟩) newh
        ⟨(d.hole k).value, (d.hole k).next, k⟩ := by
  rw [hole_setPrevHole _ (hk.trans hNewh), hole_setNextHole _ hNewh, hole_setLastByte _ hStart,
    hole_copyHole]
  funext a
  by_cases hNew : a = newh
  · subst hNew
    simp [Function.update_of_ne hk.ne']
  · grind

theorem splitHole_spec {start : Nat} (h : Opened d.hole xs k ys) (hAround : Around xs k ys)
    (hRoom : Room k newh ys) (hFirst : d.firstHole = firstKey k xs) (hStart : start < 2 ^ 16) :
    Linked (d.splitHole k newh start) (xs ++ (k, start) :: (newh, (d.hole k).value) :: ys) ∧
      Edits (k :: newh :: ys.map Prod.fst) d (d.splitHole k newh start) := by
  have hSplit := hole_split d hRoom.above hRoom.small hStart
  have hAbove := hRoom.above
  have hNot : newh ∉ ys.map Prod.fst := fun hMem => absurd (hRoom.below _ hMem) (Nat.lt_irrefl _)
  have hEdit : Edits (k :: newh :: ys.map Prod.fst) d
      ((((d.copyHole newh k).setLastByte k start).setNextHole k newh).setPrevHole newh k) :=
    (((edits_copyHole (by simp) d k).trans (edits_setLastByte (by simp) _)).trans
      (edits_setNextHole (by simp) _)).trans (edits_setPrevHole (by simp) _)
  unfold Defrag.splitHole
  dsimp only
  generalize hd : (((d.copyHole newh k).setLastByte k start).setNextHole k newh).setPrevHole newh k =
    d' at hSplit hEdit ⊢
  have hFirst' : d'.firstHole = d.firstHole := by rw [← hd]; rfl
  have hNew : d'.hole newh = ⟨(d.hole k).value, firstKey 0 ys, k⟩ := by
    rw [hSplit, Function.update_self, h.next]
  have hOld : d'.hole k = ⟨start, newh, lastKey 0 xs⟩ := by
    rw [hSplit, Function.update_of_ne hAbove.ne, Function.update_self, h.prev]
  have hBefore : Segment d'.hole k 0 xs := by
    rw [hSplit]
    exact (h.before.update (hAround.notMem_before le_rfl)).update (hAround.notMem_before hAbove.le)
  have hBehind : Segment d'.hole 0 k ys := by
    rw [hSplit]
    exact (h.behind.update (hAround.notMem_behind le_rfl)).update hNot
  have hFirst'' : d'.firstHole = firstKey 0 (xs ++ (k, start) :: (newh, (d.hole k).value) :: ys) := by
    rw [hFirst', hFirst, firstKey_append]
    rfl
  simp only [hNew, ne_eq, hAround.firstKey_eq_zero_iff]
  by_cases hys : ys = []
  · rw [if_neg (not_not_intro hys)]
    subst hys
    exact ⟨⟨segment_append.mpr ⟨hBefore, hOld, hNew, trivial⟩, hFirst''⟩, hEdit⟩
  · have hKey := firstKey_mem (q := 0) hys
    have hHigher := hAround.higher _ hKey
    have hHole := hole_setPrevHole d' (i := firstKey 0 ys) hRoom.small
    rw [if_pos hys]
    refine ⟨⟨segment_append.mpr ?_, hFirst''⟩,
      hEdit.trans (edits_setPrevHole (List.mem_cons_of_mem _ (List.mem_cons_of_mem _ hKey)) _)⟩
    rw [hHole]
    refine ⟨hBefore.update (hAround.notMem_before hHigher.le), ?_, ?_,
      hBehind.setPrev hys hAround.behind.nodup⟩
    · rw [Function.update_of_ne hHigher.ne, hOld]
      rfl
    · grind

theorem Numbered.length_le (h : Numbered ns) : ns.length ≤ 2 ^ 16 := by
  have hSub : ns.map Prod.fst ⊆ List.range (2 ^ 16) := by
    intro a ha
    obtain ⟨e, he, rfl⟩ := List.mem_map.mp ha
    exact List.mem_range.mpr (h.small e he).1
  have hLength := (List.subperm_of_subset h.nodup hSub).length_le
  rwa [List.length_map, List.length_range] at hLength

theorem findHole_eq {p start fuel : Nat} (h : Segment d.hole 0 p ns) (hNumbered : Numbered ns)
    (hns : ns ≠ []) (hFuel : ns.length ≤ fuel) :
    d.findHole start fuel (firstKey 0 ns) = some ((ns.find? fun e => start ≤ e.2).map Prod.fst) := by
  induction ns generalizing p fuel with
  | nil => exact absurd rfl hns
  | cons e es ih =>
      obtain ⟨hInc, hSmall⟩ := hNumbered
      rw [List.pairwise_cons] at hInc
      rw [List.forall_mem_cons] at hSmall
      obtain ⟨fuel, rfl⟩ : ∃ n, fuel = n + 1 := ⟨fuel - 1, by simp at hFuel; omega⟩
      rw [firstKey, Defrag.findHole, h.1]
      dsimp only
      by_cases hShort : e.2 < start
      · rw [if_pos hShort, List.find?_cons_of_neg (by simpa using hShort)]
        by_cases hes : es = []
        · subst hes
          simp [firstKey]
        · have hZero : firstKey 0 es ≠ 0 := by
            obtain ⟨e', he', hKey⟩ := List.mem_map.mp (firstKey_mem (q := 0) hes)
            have := hInc.1 e' he'
            omega
          rw [if_neg hZero]
          exact ih h.2 ⟨hInc.2, hSmall.2⟩ hes (by simpa using hFuel)
      · grind

end Fire3.Net

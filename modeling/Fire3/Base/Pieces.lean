import Fire3.Base.ByteMemory

/-!
Sequences of patches to a memory: which bytes they leave alone, and which patch a
reader finds.
-/

namespace ByteMemory

/-- The bytes written at an address. -/
abbrev Patch := Nat × List UInt8

def Patch.Covers (p : Patch) (x : Nat) : Prop := p.1 ≤ x ∧ x < p.1 + p.2.length

instance (p : Patch) (x : Nat) : Decidable (p.Covers x) := inferInstanceAs (Decidable (_ ∧ _))

def patchAll (m : Mem) (ps : List Patch) : Mem := ps.foldl (fun m p => store m p.1 p.2) m

theorem patchAll_append (m : Mem) (ps qs : List Patch) :
    patchAll m (ps ++ qs) = patchAll (patchAll m ps) qs := List.foldl_append

theorem patchAll_uncovered {m : Mem} {ps : List Patch} {x : Nat} (h : ∀ p ∈ ps, ¬p.Covers x) :
    patchAll m ps x = m x := by
  induction ps generalizing m with
  | nil => rfl
  | cons p ps ih =>
      rw [List.forall_mem_cons] at h
      have hFirst : store m p.1 p.2 x = m x := by
        by_cases hLow : x < p.1
        · exact store_below m p.1 p.2 x hLow
        · grind [store_above, Patch.Covers]
      exact (ih h.2).trans hFirst

theorem load_patchAll_uncovered {m : Mem} {ps : List Patch} {a n : Nat}
    (h : ∀ p ∈ ps, ∀ x, a ≤ x → x < a + n → ¬p.Covers x) : load (patchAll m ps) a n = load m a n :=
  load_congr _ _ a n fun x hLow hHigh => patchAll_uncovered fun p hp => h p hp x hLow hHigh

theorem load_patchAll_found (m : Mem) (ps : List Patch) (p : Patch) {qs : List Patch}
    (h : ∀ q ∈ qs, ∀ x, p.Covers x → ¬q.Covers x) :
    load (patchAll m (ps ++ p :: qs)) p.1 p.2.length = p.2 := by
  rw [patchAll_append]
  refine Eq.trans ?_ (load_store_same (patchAll m ps) p.1 p.2)
  exact load_patchAll_uncovered fun q hq x hLow hHigh => h q hq x ⟨hLow, hHigh⟩

theorem patchAll_byte (m : Mem) (ps : List Patch) (a : Nat) (b : UInt8) {qs : List Patch}
    (h : ∀ q ∈ qs, ¬q.Covers a) : patchAll m (ps ++ (a, [b]) :: qs) a = b := by
  rw [patchAll_append]
  refine (patchAll_uncovered h).trans ?_
  exact store_inside (patchAll m ps) a [b] 0 Nat.zero_lt_one

/-!
A stream of bytes that is written to a block device in pieces.

Each piece fills whole blocks, so bytes of no meaning may follow it, and it is written from
the block in which its start lies. The stream arrives whole if every piece but the last one
is made of whole blocks; a piece that starts within a block is written too low.
-/

/-- A piece of the stream, with what fills its last block. -/
structure Piece where
  data : List UInt8
  pad : List UInt8

def contents (qs : List Piece) : List UInt8 := qs.flatMap Piece.data

@[simp] theorem contents_nil : contents [] = [] := rfl

@[simp] theorem contents_cons (q : Piece) (qs : List Piece) :
    contents (q :: qs) = q.data ++ contents qs :=
  List.flatMap_cons ..

@[simp] theorem contents_append (ps qs : List Piece) :
    contents (ps ++ qs) = contents ps ++ contents qs :=
  List.flatMap_append ..

/-- Where the pieces are written for a stream that starts at `s`. -/
def layout (size : Nat) : Nat → List Piece → List Patch
  | _, [] => []
  | s, q :: qs => (size * (s / size), q.data ++ q.pad) :: layout size (s + q.data.length) qs

variable {size s : Nat} {qs : List Piece}

theorem layout_append (size s : Nat) (ps qs : List Piece) :
    layout size s (ps ++ qs) = layout size s ps ++ layout size (s + (contents ps).length) qs := by
  induction ps generalizing s with
  | nil => rfl
  | cons p ps ih => simp [layout, ih, Nat.add_assoc]

theorem le_of_mem_layout {p : Patch} (h : p ∈ layout size s qs) : size * (s / size) ≤ p.1 := by
  induction qs generalizing s with
  | nil => cases h
  | cons q qs ih =>
      obtain rfl | hMem := List.mem_cons.mp h
      · exact le_refl _
      · exact (Nat.mul_le_mul_left _ (Nat.div_le_div_right (Nat.le_add_right ..))).trans (ih hMem)

theorem patchAll_layout_below (m : Mem) {x : Nat} (h : x < size * (s / size)) :
    patchAll m (layout size s qs) x = m x :=
  patchAll_uncovered fun _ hp hCovers => absurd (le_of_mem_layout hp) (by have := hCovers.1; omega)

theorem patchAll_layout_whole (hPos : 0 < size) (m : Mem)
    (hWhole : ∀ q ∈ qs, size ∣ q.data.length ∧ q.pad = []) (rest : List Piece) :
    patchAll m (layout size s (qs ++ rest)) =
      patchAll (store m (size * (s / size)) (contents qs))
        (layout size (s + (contents qs).length) rest) ∧
      size * ((s + (contents qs).length) / size) = size * (s / size) + (contents qs).length := by
  induction qs generalizing s m with
  | nil => simp
  | cons q qs ih =>
      obtain ⟨⟨⟨k, hk⟩, hPad⟩, hRest⟩ := List.forall_mem_cons.mp hWhole
      obtain ⟨hPatch, hEnd⟩ := @ih (s + q.data.length) (store m (size * (s / size)) q.data) hRest
      have hNext : size * ((s + q.data.length) / size) = size * (s / size) + q.data.length := by
        rw [hk, Nat.add_mul_div_left _ _ hPos, Nat.mul_add]
      rw [hNext] at hPatch hEnd
      rw [contents_cons, List.length_append, store_append, ← Nat.add_assoc, ← Nat.add_assoc]
      refine ⟨?_, hEnd⟩
      rw [← hPatch, List.cons_append, layout, hPad, List.append_nil]
      rfl

theorem patchAll_layout_first (hPos : 0 < size) (m : Mem) (ps : List Piece) (q : Piece) (b : UInt8)
    (hFirst : q.data.head? = some b) (hNext : size ≤ q.data.length ∨ qs = []) :
    patchAll m (layout size s (ps ++ q :: qs))
      (size * ((s + (contents ps).length) / size)) = b := by
  obtain ⟨bs, hData⟩ : ∃ bs, q.data = b :: bs := by
    cases hBytes : q.data with
    | nil => simp [hBytes] at hFirst
    | cons b' bs => exact ⟨bs, by simpa [hBytes] using hFirst⟩
  rw [layout_append, patchAll_append, layout]
  set o := s + (contents ps).length
  have hByte (m : Mem) : store m (size * (o / size)) (q.data ++ q.pad) (size * (o / size)) = b := by
    rw [hData]
    exact store_inside m _ (b :: bs ++ q.pad) 0 (by simp)
  refine Eq.trans ?_ (hByte (patchAll m (layout size s ps)))
  obtain hLong | rfl := hNext
  · refine patchAll_layout_below _ ?_
    have hStep : (o + size) / size ≤ (o + q.data.length) / size := Nat.div_le_div_right (by omega)
    rw [Nat.add_div_right _ hPos] at hStep
    exact (Nat.mul_lt_mul_left hPos).mpr (by omega)
  · rfl

end ByteMemory

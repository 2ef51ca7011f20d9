import Fire3.Base.ByteMemory

/-!
Records of fixed-width little-endian fields and arrays of records of one size:
what a reader that knows only the widths finds in the bytes of a writer.
-/

namespace Records
open ByteMemory

variable {m : Mem} {a n : Nat} {post : List UInt8}

/-- A field: its width in bytes and its value. -/
abbrev Field := Nat × Nat

def encode (fs : List Field) : List UInt8 := fs.flatMap fun f => leBytes f.1 f.2

/-- The values of consecutive fields of the given widths from `a` on. -/
def decode (m : Mem) (a : Nat) : List Nat → List Nat
  | [] => []
  | w :: ws => readLE m a w :: decode m (a + w) ws

def Fits (fs : List Field) : Prop := ∀ f ∈ fs, f.2 < 256 ^ f.1

@[simp] theorem fits_nil : Fits [] := by
  simp [Fits]

@[simp] theorem fits_cons (f : Field) (fs : List Field) :
    Fits (f :: fs) ↔ f.2 < 256 ^ f.1 ∧ Fits fs := by
  simp [Fits]

@[simp] theorem encode_nil : encode [] = [] := rfl

@[simp] theorem encode_cons (f : Field) (fs : List Field) :
    encode (f :: fs) = leBytes f.1 f.2 ++ encode fs := rfl

theorem load_split {pre : List UInt8} (h : load m a n = pre ++ post) :
    load m a pre.length = pre ∧ load m (a + pre.length) post.length = post := by
  constructor
  · exact load_of_append (h.trans (List.nil_append _).symm)
  · rw [← List.append_nil post] at h
    exact load_of_append h

theorem decode_of_load {fs : List Field} (h : load m a n = encode fs ++ post) (fits : Fits fs) :
    decode m a (fs.map Prod.fst) = fs.map Prod.snd := by
  induction fs generalizing a n with
  | nil => rfl
  | cons f fs ih =>
      rw [fits_cons] at fits
      rw [encode_cons, List.append_assoc] at h
      have hTail := (load_split h).2
      rw [length_leBytes] at hTail
      rw [List.map_cons, List.map_cons, decode, ih hTail fits.2, readLE_of_head h fits.1]

/-- A record that is read field by field is the stored one. -/
theorem eq_of_load {α : Type} {fields : α → List Field} (inj : Function.Injective fields) {x y : α}
    (fits : Fits (fields x)) (stored : load m a n = encode (fields x) ++ post)
    (reads : fields y =
      ((fields x).map Prod.fst).zip (decode m a ((fields x).map Prod.fst))) : y = x := by
  apply inj
  rw [reads, decode_of_load stored fits, ← List.unzip_fst, ← List.unzip_snd, List.zip_unzip]

section

variable {α : Type} {bytes : α → List UInt8} {k : Nat}

theorem length_flatMap_bytes {xs : List α} (size : ∀ x ∈ xs, (bytes x).length = k) :
    (xs.flatMap bytes).length = k * xs.length := by
  induction xs with
  | nil => rfl
  | cons x xs ih =>
      grind

theorem map_read_of_load {read : Nat → α} {xs : List α} (size : ∀ x ∈ xs, (bytes x).length = k)
    (reads : ∀ x ∈ xs, ∀ a n post, load m a n = bytes x ++ post → read a = x)
    (h : load m a n = xs.flatMap bytes ++ post) :
    ((List.range xs.length).map fun i => read (a + k * i)) = xs := by
  induction xs generalizing a n with
  | nil => rfl
  | cons x xs ih =>
      rw [List.flatMap_cons, List.append_assoc] at h
      have hTail := (load_split h).2
      rw [size x List.mem_cons_self] at hTail
      have hRest := ih (fun y hy => size y (List.mem_cons_of_mem x hy))
        (fun y hy => reads y (List.mem_cons_of_mem x hy)) hTail
      rw [List.length_cons, List.range_succ_eq_map, List.map_cons, List.map_map]
      congr 1
      · exact reads x List.mem_cons_self a n _ h
      · refine (List.map_congr_left fun i _ => ?_).trans hRest
        rw [Function.comp_apply, Nat.mul_succ, Nat.add_comm (k * i), Nat.add_assoc]

end

end Records

import Mathlib.Data.List.Basic
import Mathlib.Tactic.NormNum
import Mathlib.Tactic.Ring

/-!
Flat byte memory with block stores and loads.

A memory is total: an address that no store has touched keeps the byte it had.
The two rules that carry almost every later argument are that a load of a block
just stored returns it, and that a store does not disturb a disjoint load.
-/

namespace ByteMemory

abbrev Mem := Nat → UInt8

def zero : Mem := fun _ => 0

/-- Write the bytes `bs` at the addresses from `a` on. -/
def store (m : Mem) (a : Nat) (bs : List UInt8) : Mem :=
  fun x => if a ≤ x then (bs[x - a]?).getD (m x) else m x

/-- Read `n` bytes from the address `a` on. -/
def load (m : Mem) (a n : Nat) : List UInt8 :=
  (List.range n).map fun i => m (a + i)

@[simp] theorem store_nil (m : Mem) (a : Nat) : store m a [] = m := by
  funext x
  simp [store]

theorem store_below (m : Mem) (a : Nat) (bs : List UInt8) (x : Nat) (h : x < a) :
    store m a bs x = m x := by
  simp [store, Nat.not_le.mpr h]

theorem store_above (m : Mem) (a : Nat) (bs : List UInt8) (x : Nat)
    (h : a + bs.length ≤ x) : store m a bs x = m x := by
  have hOut : bs[x - a]? = none := List.getElem?_eq_none (by omega)
  simp [store, hOut]

theorem store_inside (m : Mem) (a : Nat) (bs : List UInt8) (i : Nat) (h : i < bs.length) :
    store m a bs (a + i) = bs[i] := by
  simp [store, h]

theorem getElem?_of_store (m : Mem) (a : Nat) (bs : List UInt8) (x : Nat)
    (hLow : a ≤ x) (hHigh : x < a + bs.length) : bs[x - a]? = some (store m a bs x) := by
  have h := store_inside m a bs (x - a) (by omega)
  grind

theorem store_append (m : Mem) (a : Nat) (bs cs : List UInt8) :
    store m a (bs ++ cs) = store (store m a bs) (a + bs.length) cs := by
  funext x
  by_cases hLow : x < a
  · grind [store_below]
  · by_cases hMid : x < a + bs.length
    · rw [store_below _ _ cs _ hMid]
      simp [store, Nat.not_lt.mp hLow, List.getElem?_append_left (show x - a < bs.length by omega)]
    · have hSplit : x - a - bs.length = x - (a + bs.length) := by omega
      have hNone : bs[x - a]? = none := List.getElem?_eq_none (by omega)
      simp [store, Nat.not_lt.mp hLow, Nat.not_lt.mp hMid, hSplit, hNone,
        List.getElem?_append_right (show bs.length ≤ x - a by omega)]

@[simp] theorem length_load (m : Mem) (a n : Nat) : (load m a n).length = n := by
  simp [load]

@[simp] theorem getElem_load (m : Mem) (a n i : Nat) (h : i < (load m a n).length) :
    (load m a n)[i] = m (a + i) := by
  simp [load]

@[simp] theorem load_zero (m : Mem) (a : Nat) : load m a 0 = [] := rfl

theorem load_add (m : Mem) (a n k : Nat) :
    load m a (n + k) = load m a n ++ load m (a + n) k := by
  simp [load, List.range_add, Nat.add_assoc]

theorem load_succ (m : Mem) (a n : Nat) : load m a (n + 1) = m a :: load m (a + 1) n := by
  rw [Nat.add_comm, load_add]
  rfl

theorem load_congr (m m' : Mem) (a n : Nat) (h : ∀ x, a ≤ x → x < a + n → m x = m' x) :
    load m a n = load m' a n := by
  apply List.map_congr_left
  grind

theorem load_eq_iff (m : Mem) (a : Nat) (bs : List UInt8) :
    load m a bs.length = bs ↔ ∀ i (h : i < bs.length), m (a + i) = bs[i] := by
  constructor
  · intro hLoad i hi
    have hi' : i < (load m a bs.length).length := by simpa using hi
    calc m (a + i) = (load m a bs.length)[i] := (getElem_load m a _ i hi').symm
      _ = bs[i] := by simp only [hLoad]
  · intro hBytes
    apply List.ext_getElem (by simp)
    intro i _ hi
    simpa using hBytes i hi

theorem load_store_same (m : Mem) (a : Nat) (bs : List UInt8) :
    load (store m a bs) a bs.length = bs :=
  (load_eq_iff _ a bs).mpr fun i hi => store_inside m a bs i hi

theorem load_store_disjoint (m : Mem) (a : Nat) (bs : List UInt8) (b n : Nat)
    (h : b + n ≤ a ∨ a + bs.length ≤ b) : load (store m a bs) b n = load m b n := by
  apply load_congr
  grind [store_below, store_above]

theorem load_take_drop (m : Mem) (a : Nat) {n o w : Nat} (h : o + w ≤ n) :
    ((load m a n).drop o).take w = load m (a + o) w := by
  apply List.ext_getElem
  · simp
    omega
  · intro i _ _
    simp [Nat.add_assoc]

theorem load_drop (m : Mem) (a : Nat) {n o : Nat} (h : o ≤ n) :
    (load m a n).drop o = load m (a + o) (n - o) := by
  grind [Nat.exists_eq_add_of_le, load_add, List.drop_left', length_load, Nat.add_sub_cancel_left]

theorem load_of_append {m : Mem} {a n : Nat} {pre mid post : List UInt8}
    (h : load m a n = pre ++ (mid ++ post)) : load m (a + pre.length) mid.length = mid := by
  have hLength : n = pre.length + (mid.length + post.length) := by
    simpa using congrArg List.length h
  rw [← load_take_drop m a (show pre.length + mid.length ≤ n by omega), h]
  simp

theorem load_store_inside (m : Mem) (a : Nat) (bs : List UInt8) {o w : Nat}
    (h : o + w ≤ bs.length) : load (store m a bs) (a + o) w = (bs.drop o).take w := by
  grind [load_take_drop, load_store_same]

theorem store_load_apply (m b : Mem) (a c n x : Nat) :
    store m a (load b c n) x = if a ≤ x ∧ x < a + n then b (c + (x - a)) else m x := by
  by_cases hIn : a ≤ x ∧ x < a + n
  · have h := getElem?_of_store m a (load b c n) x hIn.1 (by simpa using hIn.2)
    rw [List.getElem?_eq_getElem (by simp; omega), getElem_load, Option.some.injEq] at h
    rw [if_pos hIn, h]
  · rw [if_neg hIn]
    by_cases hLow : x < a
    · exact store_below m a _ x hLow
    · exact store_above m a _ x (by simp; omega)

theorem store_load (m : Mem) (a n : Nat) : store m a (load m a n) = m := by
  funext x
  rw [store_load_apply]
  grind

/-!
Fixed-width integers in byte memory: little- and big-endian fields, and the
two's complement reading of an unsigned word.
-/

/-- The `w` little-endian bytes of `n`; higher bits are dropped. -/
def leBytes : Nat → Nat → List UInt8
  | 0, _ => []
  | w + 1, n => UInt8.ofNat n :: leBytes w (n / 256)

def leValue : List UInt8 → Nat
  | [] => 0
  | b :: bs => b.toNat + 256 * leValue bs

@[simp] theorem length_leBytes (w n : Nat) : (leBytes w n).length = w := by
  induction w generalizing n with
  | zero => rfl
  | succ w ih => simp [leBytes, ih]

theorem leValue_leBytes (w n : Nat) : leValue (leBytes w n) = n % 256 ^ w := by
  induction w generalizing n with
  | zero => simp [leBytes, leValue, Nat.mod_one]
  | succ w ih =>
      have hByte : (UInt8.ofNat n).toNat = n % 256 := by simp
      rw [leBytes, leValue, ih, hByte, pow_succ', Nat.mod_mul]

theorem leValue_lt (bs : List UInt8) : leValue bs < 256 ^ bs.length := by
  induction bs with
  | nil => simp [leValue]
  | cons b bs ih =>
      have hb : b.toNat < 256 := b.toNat_lt
      rw [leValue, List.length_cons, pow_succ']
      omega

/-- The unsigned little-endian field of `w` bytes at `a`. -/
def readLE (m : Mem) (a w : Nat) : Nat := leValue (load m a w)

def writeLE (m : Mem) (a w n : Nat) : Mem := store m a (leBytes w n)

theorem readLE_writeLE_same (m : Mem) (a w n : Nat) :
    readLE (writeLE m a w n) a w = n % 256 ^ w := by
  have h := load_store_same m a (leBytes w n)
  rw [length_leBytes] at h
  rw [readLE, writeLE, h, leValue_leBytes]

theorem readLE_store_disjoint (m : Mem) (a : Nat) (bs : List UInt8) (b w : Nat)
    (h : b + w ≤ a ∨ a + bs.length ≤ b) : readLE (store m a bs) b w = readLE m b w := by
  rw [readLE, load_store_disjoint m a bs b w h, readLE]

theorem readLE_of_head {m : Mem} {a n w v : Nat} {post : List UInt8}
    (h : load m a n = leBytes w v ++ post) (hv : v < 256 ^ w) : readLE m a w = v := by
  have hField : load m a w = leBytes w v := by
    have hPart := load_of_append (h.trans (List.nil_append _).symm)
    rwa [List.length_nil, Nat.add_zero, length_leBytes] at hPart
  rw [readLE, hField, leValue_leBytes, Nat.mod_eq_of_lt hv]

theorem readLE_of_append {m : Mem} {a n w v : Nat} {pre post : List UInt8}
    (h : load m a n = pre ++ (leBytes w v ++ post)) (hv : v < 256 ^ w) :
    readLE m (a + pre.length) w = v := by
  grind [load_of_append, length_leBytes, readLE, leValue_leBytes, Nat.mod_eq_of_lt]

/-- The big-endian 16-bit field at `a`, as `ntohs` reads it. -/
def readBE16 (m : Mem) (a : Nat) : Nat := (m a).toNat * 256 + (m (a + 1)).toNat

def beBytes16 (n : Nat) : List UInt8 := [UInt8.ofNat (n / 256), UInt8.ofNat n]

theorem readBE16_of_load (m : Mem) (a n : Nat) (rest : List UInt8)
    (h : load m a (2 + rest.length) = beBytes16 n ++ rest) : readBE16 m a = n % 65536 := by
  have hLoad : load m a 2 = beBytes16 n := by
    rw [load_add] at h
    exact (List.append_inj h (by simp [beBytes16])).1
  have hBytes := (load_eq_iff m a (beBytes16 n)).mp (by simpa [beBytes16] using hLoad)
  have hHigh : m a = UInt8.ofNat (n / 256) := by simpa [beBytes16] using hBytes 0 (by simp [beBytes16])
  have hLow : m (a + 1) = UInt8.ofNat n := by simpa [beBytes16] using hBytes 1 (by simp [beBytes16])
  rw [readBE16, hHigh, hLow]
  simp only [UInt8.toNat_ofNat']
  omega

/-- The two's complement reading of a 32-bit word. -/
def toS32 (n : Nat) : Int := Int.bmod n (2 ^ 32)

theorem toS32_of_lt {n : Nat} (h : n < 2 ^ 31) : toS32 n = n := by
  unfold toS32
  rw [Int.bmod_eq_of_le] <;> omega

end ByteMemory

import Fire3.Fat.Entries

/-!
Sequences of `get_fatent_value` and `set_fatent_value`, and the `flush_fat_buffer` at their end.
-/

namespace Fire3.Fat
open ByteMemory Transition

section
variable (vol : Volume)

def entryAt (m : Mem) (a e : Nat) : Nat :=
  match vol.fatsize with
  | .fat32 => readLE m (a + 4 * e) 4
  | .fat16 => readLE m (a + 2 * e) 2
  | .fat12 => readLE m (a + 3 * e / 2) 2 / (if e % 2 = 0 then 1 else 16) % 0x1000

def EntryInside (e : Nat) : Prop :=
  match vol.fatsize with
  | .fat32 => 4 * e + 4 ≤ fatBytes vol
  | .fat16 => 2 * e + 2 ≤ fatBytes vol
  | .fat12 => 3 * e / 2 + 2 ≤ fatBytes vol

instance decidableEntryInside (e : Nat) : Decidable (EntryInside vol e) := by
  unfold EntryInside
  split <;> infer_instance

end

def Call.entry : Call → Nat
  | .get e => e
  | .set e _ => e

def Call.sets : Call → Nat → Option Nat
  | .get _, _ => none
  | .set e v, x => if e = x then some v else none

def lastSet : List Call → Nat → Option Nat
  | [], _ => none
  | c :: cs, e => (lastSet cs e).or (c.sets e)

def Written (s : FsData) (b : Nat) : Prop := ∃ w ∈ s.writes, w.1 ≤ b ∧ b < w.1 + w.2

/-- Only the copies of the table were written, to the same contents, and each entry of the first one
has the value it was set to last. -/
structure Updated (vol : Volume) (orig : Mem) (calls : List Call) (t : FsData) : Prop where
  inside : ∀ b, Written t b →
    vol.fatSect ≤ b ∧ b < vol.fatSect + vol.numOfFats * vol.fatlength
  copies : vol.numOfFats = 2 → ∀ k < vol.fatlength,
    Written t (vol.fatSect + k) ∨ Written t (vol.fatSect + vol.fatlength + k) →
    load t.disk ((vol.fatSect + k) * vol.sectSize) vol.sectSize =
      load t.disk ((vol.fatSect + vol.fatlength + k) * vol.sectSize) vol.sectSize
  entries : ∀ e, EntryInside vol e → entryAt vol t.disk (fatStart vol) e =
    (lastSet calls e).getD (entryAt vol orig (fatStart vol) e)

/-- The condition of a call: its window ends inside of the table, the value fits into the entry, and
the size of the table in bytes is not below six modulo the word size. -/
def Careful (vol : Volume) : Call → Prop
  | .get e => checkClust vol e ∨ WindowInside vol (e / bufsize vol)
  | .set e v => WindowInside vol (e / bufsize vol) ∧ v < 256 ^ entryWidth vol ∧
      6 ≤ vol.fatlength * vol.sectSize % 2 ^ 32

instance decidableCareful (vol : Volume) : ∀ c, Decidable (Careful vol c)
  | .get _ => inferInstanceAs (Decidable (_ ∨ _))
  | .set _ _ => inferInstanceAs (Decidable (_ ∧ _))

theorem load_shift {m m' : Mem} {a b n : Nat} (h : ∀ i < n, m (a + i) = m' (b + i)) :
    load m a n = load m' b n := by
  apply List.map_congr_left
  intro i hi
  exact h i (List.mem_range.mp hi)

theorem entryAt_congr {vol : Volume} {m m' : Mem} {a b e : Nat} (he : EntryInside vol e)
    (h : ∀ x < fatBytes vol, m (a + x) = m' (b + x)) : entryAt vol m a e = entryAt vol m' b e := by
  have hField : ∀ p w, p + w ≤ fatBytes vol → readLE m (a + p) w = readLE m' (b + p) w := by
    intro p w hp
    rw [readLE, readLE]
    apply congrArg leValue
    apply load_shift
    intro i hi
    rw [Nat.add_assoc, Nat.add_assoc]
    exact h (p + i) (by omega)
  rw [EntryInside] at he
  rw [entryAt, entryAt]
  grind

section
variable {vol : Volume} {want : Mem} {s : FsData}

theorem entryWidth_mul_bufsize (h : vol.fatsize ≠ .fat12) :
    entryWidth vol * bufsize vol = 6 * vol.sectSize := by
  obtain ⟨m, hm⟩ := vol.sect_dvd
  rw [entryWidth, bufsize, hm]
  grind

theorem entry_place (h : vol.fatsize ≠ .fat12) (e : Nat) :
    windowStart vol (e / bufsize vol) +
      entryWidth vol * (e - e / bufsize vol * bufsize vol) = entryWidth vol * e := by
  have hMul := entryWidth_mul_bufsize h
  have hLe : e / bufsize vol * bufsize vol ≤ e := Nat.div_mul_le_self e _
  have hStart : windowStart vol (e / bufsize vol) =
      entryWidth vol * (e / bufsize vol * bufsize vol) := by
    rw [windowStart, Nat.mul_assoc, ← hMul]
    ring
  rw [hStart, ← Nat.mul_add, Nat.add_sub_cancel' hLe]

theorem entry_inside (h : vol.fatsize ≠ .fat12) {e : Nat} (he : EntryInside vol e) :
    entryWidth vol * e + entryWidth vol ≤ fatBytes vol := by
  rw [EntryInside] at he
  rw [entryWidth]
  grind

theorem entry_in_window (h : vol.fatsize ≠ .fat12) {e : Nat} (he : EntryInside vol e) :
    entryWidth vol * e + entryWidth vol ≤
      windowStart vol (e / bufsize vol) + windowBytes vol := by
  have hPlace := entry_place h e
  have hBytes := entry_inside h he
  rw [windowBytes, windowSize]
  split
  · rw [fatBytes] at hBytes
    omega
  · have hMul := entryWidth_mul_bufsize h
    have hPos : 0 < bufsize vol := by
      apply Nat.pos_of_ne_zero
      grind [vol.sect_pos]
    have hOffset : e - e / bufsize vol * bufsize vol + 1 ≤ bufsize vol := by
      have hMod := Nat.mod_lt e hPos
      grind [Nat.div_add_mod, Nat.mul_comm]
    grind [Nat.mul_le_mul_left, entryWidth, Nat.mul_succ]

theorem Seen.write (hSeen : Seen vol want s) (h : vol.fatsize ≠ .fat12) {e : Nat} (v : Nat)
    (he : EntryInside vol e) (hNum : s.fatbufnum = (e / bufsize vol : Nat)) :
    Seen vol (writeLE want (entryWidth vol * e) (entryWidth vol) v) { s with
      fatbuf := writeLE s.fatbuf (entryWidth vol * (e - e / bufsize vol * bufsize vol))
        (entryWidth vol) v } := by
  have hPlace := entry_place h e
  rcases hSeen.buffer with hNone | ⟨k, hk, hWindow, hBuffer⟩
  · grind
  · have hEq : k = e / bufsize vol := by exact_mod_cast hk.symm.trans hNum
    subst hEq
    have hEnd := entry_in_window h he
    refine ⟨hSeen.writes, hSeen.copies, ?_, .inr ⟨_, hk, hWindow, ?_⟩⟩
    · intro x hx hOut
      have hApart := hOut _ hk
      rw [hSeen.disk x hx hOut, writeLE]
      symm
      by_cases hLow : x < entryWidth vol * e
      · exact store_below _ _ _ _ hLow
      · apply store_above
        rw [length_leBytes]
        omega
    · intro x hx
      dsimp only
      rw [writeLE, writeLE, store, store, hBuffer x hx, ← hPlace, Nat.add_sub_add_left]
      exact if_congr (by omega) rfl rfl

theorem readLE_writeLE_disjoint (m : Mem) {a b w : Nat} (v : Nat) (h : b + w ≤ a ∨ a + w ≤ b) :
    readLE (writeLE m a w v) b w = readLE m b w := by
  apply readLE_store_disjoint
  rwa [length_leBytes]

theorem entryAt_write (h : vol.fatsize ≠ .fat12) {e v : Nat} (hv : v < 256 ^ entryWidth vol)
    (x : Nat) : entryAt vol (writeLE want (entryWidth vol * e) (entryWidth vol) v) 0 x =
      ((Call.set e v).sets x).getD (entryAt vol want 0 x) := by
  have hRead : ∀ m : Mem, entryAt vol m 0 x = readLE m (entryWidth vol * x) (entryWidth vol) := by
    intro m
    rw [entryAt, entryWidth]
    grind
  rw [hRead, hRead, Call.sets]
  by_cases hEq : e = x
  · rw [if_pos hEq, hEq, readLE_writeLE_same, Nat.mod_eq_of_lt hv, Option.getD_some]
  · rw [if_neg hEq, readLE_writeLE_disjoint, Option.getD_none]
    grind [Nat.lt_or_gt_of_ne, Nat.mul_succ, Nat.mul_le_mul_left, entryWidth]

end

section
variable {vol : Volume} {want : Mem} {s t : FsData}

theorem Seen.get (hSeen : Seen vol want s) {e : Nat} (hOk : Careful vol (.get e)) :
    Seen vol want (getFatentValue vol s e).2 := by
  rw [getFatentValue]
  split
  · exact hSeen
  · next hClust =>
    have hWindow := hOk.resolve_left hClust
    obtain ⟨t, hKept, hMove⟩ := hSeen.move hWindow (Nat.le_refl _)
    rcases hMove with ⟨hDone, -⟩ | ⟨hFailed, -⟩
    · dsimp only
      rw [hDone]
      exact hKept
    · grind

theorem Seen.set (hSeen : Seen vol want s) {e v : Nat} (hOk : Careful vol (.set e v))
    (he : EntryInside vol e) (hSet : (setFatentValue vol s e v).1 = true) :
    vol.fatsize ≠ .fat12 ∧ Seen vol (writeLE want (entryWidth vol * e) (entryWidth vol) v)
      (setFatentValue vol s e v).2 := by
  rw [setFatentValue] at hSet ⊢
  split at hSet
  · cases hSet
  · next hSize =>
    rw [if_neg hSize]
    have hLe := windowSize_le vol
    obtain ⟨t, hKept, hMove⟩ := hSeen.move hOk.1
      (show windowSize vol ≤ if 6 > vol.fatlength * vol.sectSize % 2 ^ 32 then
        vol.fatlength * vol.sectSize % 2 ^ 32 else 6 by
          rw [if_neg (Nat.not_lt.mpr hOk.2.2)]; exact hLe)
    rcases hMove with ⟨hDone, hNum⟩ | ⟨hFailed, -⟩
    · dsimp only at hSet ⊢
      rw [hDone]
      exact ⟨hSize, hKept.write hSize v he hNum⟩
    · grind

theorem Seen.call (hSeen : Seen vol want s) {c : Call} (hOk : Careful vol c)
    (hIn : EntryInside vol c.entry) (hCall : call vol s c = some t) :
    ∃ want', Seen vol want' t ∧
      ∀ x, entryAt vol want' 0 x = (c.sets x).getD (entryAt vol want 0 x) := by
  cases c with
  | get e =>
      cases hCall
      exact ⟨want, hSeen.get hOk, fun x => rfl⟩
  | set e v =>
      rw [Fat.call] at hCall
      split at hCall
      · next hSet =>
        cases hCall
        obtain ⟨hSize, hKept⟩ := hSeen.set hOk hIn hSet
        exact ⟨_, hKept, entryAt_write hSize hOk.2.1⟩
      · cases hCall

theorem Seen.run {calls : List Call} (hSeen : Seen vol want s)
    (hIn : ∀ c ∈ calls, EntryInside vol c.entry)
    (hOk : MeetsRun (Fat.call vol) (fun _ => Careful vol) s calls)
    (hRun : Transition.run (Fat.call vol) s calls = some t) :
    ∃ want', Seen vol want' t ∧
      ∀ x, entryAt vol want' 0 x = (lastSet calls x).getD (entryAt vol want 0 x) := by
  induction calls generalizing s want with
  | nil =>
      cases hRun
      exact ⟨want, hSeen, fun x => rfl⟩
  | cons c cs ih =>
      obtain ⟨r, hCall, hRest⟩ := run_cons_eq_some.mp hRun
      obtain ⟨first, hFirst, hEntry⟩ := hSeen.call hOk.1 (hIn c List.mem_cons_self) hCall
      obtain ⟨last, hLast, hEntries⟩ :=
        ih hFirst (fun d hd => hIn d (List.mem_cons_of_mem c hd)) (hOk.2 r hCall) hRest
      refine ⟨last, hLast, fun x => ?_⟩
      grind [lastSet]

end

section
variable {vol : Volume} {want orig : Mem} {s t : FsData} {calls : List Call}

theorem Seen.written_inside (hSeen : Seen vol want s) {b : Nat} (hb : Written s b) :
    vol.fatSect ≤ b ∧ b < vol.fatSect + vol.numOfFats * vol.fatlength := by
  obtain ⟨w, hw, hLow, hHigh⟩ := hb
  obtain ⟨k, copy, hk, hCopy, hOf⟩ := hSeen.writes w hw
  have hMul := Nat.mul_le_mul_right vol.fatlength (Nat.succ_le_of_lt hCopy)
  rw [Nat.succ_mul] at hMul
  rw [WindowInside] at hk
  rw [hOf] at hLow hHigh
  dsimp only at hLow hHigh
  omega

theorem Seen.written_window (hSeen : Seen vol want s) (hFats : vol.numOfFats = 2) {k : Nat}
    (hk : k < vol.fatlength)
    (hb : Written s (vol.fatSect + k) ∨ Written s (vol.fatSect + vol.fatlength + k)) :
    ∃ w ∈ s.writes, ∃ j copy, WindowInside vol j ∧ WindowOf vol w j copy ∧
      j * 6 ≤ k ∧ k < j * 6 + windowSize vol := by
  have hCases : ∀ b, Written s b → b = vol.fatSect + k ∨ b = vol.fatSect + vol.fatlength + k →
      ∃ w ∈ s.writes, ∃ j copy, WindowInside vol j ∧ WindowOf vol w j copy ∧
        j * 6 ≤ k ∧ k < j * 6 + windowSize vol := by
    intro b hWritten hPlace
    obtain ⟨w, hw, hLow, hHigh⟩ := hWritten
    obtain ⟨j, copy, hj, hCopy, hOf⟩ := hSeen.writes w hw
    refine ⟨w, hw, j, copy, hj, hOf, ?_⟩
    rw [WindowInside] at hj
    rw [hOf] at hLow hHigh
    dsimp only at hLow hHigh
    have hTwo : copy = 0 ∨ copy = 1 := by omega
    rcases hTwo with rfl | rfl <;> omega
  grind

theorem Seen.copies_eq (hSeen : Seen vol want s) (hFats : vol.numOfFats = 2) {k : Nat}
    (hk : k < vol.fatlength)
    (hb : Written s (vol.fatSect + k) ∨ Written s (vol.fatSect + vol.fatlength + k)) :
    load s.disk ((vol.fatSect + k) * vol.sectSize) vol.sectSize =
      load s.disk ((vol.fatSect + vol.fatlength + k) * vol.sectSize) vol.sectSize := by
  obtain ⟨w, hw, j, copy, hj, hOf, hLow, hHigh⟩ := hSeen.written_window hFats hk hb
  obtain ⟨d, rfl⟩ := Nat.exists_eq_add_of_le hLow
  have hFirst : (vol.fatSect + (j * 6 + d)) * vol.sectSize =
      fatStart vol + windowStart vol j + d * vol.sectSize := by
    rw [fatStart, windowStart]
    ring
  have hSecond : (vol.fatSect + vol.fatlength + (j * 6 + d)) * vol.sectSize =
      fatStart vol + fatBytes vol + windowStart vol j + d * vol.sectSize := by
    rw [fatStart, fatBytes, windowStart]
    ring
  have hSector : d * vol.sectSize + vol.sectSize ≤ windowBytes vol := by
    rw [windowBytes, ← Nat.succ_mul]
    exact Nat.mul_le_mul_right _ (by omega)
  rw [hFirst, hSecond]
  apply load_shift
  intro i hi
  rw [Nat.add_assoc, Nat.add_assoc (_ + _ + _)]
  exact hSeen.copies hFats w hw j copy hj hOf _ (by omega)

/-- In a run of careful calls that has loaded a window, the last write of the window leaves the
table with the values set last, in the copies of the table and nowhere else. -/
theorem fat_updated (hStart : s.fatbufnum = -1) (hNone : s.writes = [])
    (hIn : ∀ c ∈ calls, EntryInside vol c.entry)
    (hOk : MeetsRun (call vol) (fun _ => Careful vol) s calls)
    (hRun : run (call vol) s calls = some t) (hLoaded : t.fatbufnum ≠ -1) :
    (flushFatBuffer vol t).1 = true ∧ Updated vol s.disk calls (flushFatBuffer vol t).2 := by
  have hSeen : Seen vol (fun x => s.disk (fatStart vol + x)) s := by
    refine ⟨?_, ?_, fun x _ _ => rfl, .inl hStart⟩
    · intro w hw
      rw [hNone] at hw
      cases hw
    · intro _ w hw
      rw [hNone] at hw
      cases hw
  obtain ⟨want, hEnd, hEntries⟩ := hSeen.run hIn hOk hRun
  obtain ⟨k, hNum, -⟩ := hEnd.buffer.resolve_left hLoaded
  obtain ⟨u, hFlush, hKept, -, hDisk⟩ := hEnd.flush hNum
  rw [hFlush]
  refine ⟨rfl, fun b hb => hKept.written_inside hb,
    fun hFats j hj hb => hKept.copies_eq hFats hj hb, fun e he => ?_⟩
  have hTable : entryAt vol u.disk (fatStart vol) e = entryAt vol want 0 e :=
    entryAt_congr he fun x hx => by rw [Nat.zero_add]; exact hDisk x hx
  have hOrig : entryAt vol (fun x => s.disk (fatStart vol + x)) 0 e =
      entryAt vol s.disk (fatStart vol) e :=
    entryAt_congr he fun x hx => by rw [Nat.zero_add]
  rw [hTable, hEntries, hOrig]

end

def sevenSectors : Volume where
  fatsize := .fat16
  fatlength := 7
  fatSect := 1
  sectSize := 512
  numOfFats := 2
  totalSector := 128
  devSectors := 128
  sect_dvd := by decide
  sect_pos := by decide
  length_pos := by decide
  fats := .inr rfl
  inside := by decide
  device := by decide
  device_lt := by decide

def emptyVolume : FsData where
  disk := zero
  writes := []
  fatbuf := zero
  fatbufnum := -1

def twoWindows : Volume :=
  { sevenSectors with fatlength := 12, length_pos := by decide, inside := by decide }

def thereAndBack : List Call := [.set 2 7, .set 1537 8, .get 2, .set 3 9]

theorem fat_updated_windows : ∃ t, run (call twoWindows) emptyVolume thereAndBack = some t ∧
    Updated twoWindows emptyVolume.disk thereAndBack (flushFatBuffer twoWindows t).2 := by
  have hNum : (run (call twoWindows) emptyVolume thereAndBack).map FsData.fatbufnum = some 0 := by
    decide +kernel
  obtain ⟨t, hRun, hLoaded⟩ := Option.map_eq_some_iff.mp hNum
  exact ⟨t, hRun, (fat_updated rfl rfl (by decide) (by decide +kernel) hRun (by omega)).2⟩

/-- An entry of the second window, of which only one sector is in the table: the sectors of the
root directory are written. -/
theorem window_beyond_fat : EntryInside sevenSectors 1536 ∧
    ∃ t, run (call sevenSectors) emptyVolume [.set 1536 7] = some t ∧
      ¬ Updated sevenSectors emptyVolume.disk [.set 1536 7] (flushFatBuffer sevenSectors t).2 := by
  have hMap : (run (call sevenSectors) emptyVolume [.set 1536 7]).map
      (fun t => (flushFatBuffer sevenSectors t).2.writes) = some [(7, 6), (14, 6)] := by
    decide +kernel
  obtain ⟨t, hRun, hWrites⟩ := Option.map_eq_some_iff.mp hMap
  refine ⟨by decide, t, hRun, fun hUpdated => ?_⟩
  have hRoot := hUpdated.inside 15 ⟨(14, 6), by rw [hWrites]; decide, by decide, by decide⟩
  exact absurd hRoot.2 (by decide)

end Fire3.Fat

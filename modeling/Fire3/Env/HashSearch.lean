import Fire3.Env.Hashtable

/-!
Sizes and searches of the environment hash table. The sizes `hcreate_r` picks
are 1 and the primes from 5 on, so the probe sequence of a key covers the table;
a search stops at the first slot of that sequence that is free or holds the key.
-/

namespace Fire3.Hashtable
open CString

variable {size t : Nat} {h : Htab}

def SizeOk (size : Nat) : Prop := size = 1 ∨ (size.Prime ∧ 5 ≤ size ∧ size < 2 ^ 31)

/-- No odd number from 3 below the stopping divisor divides, and the loop stops at a
divisor or at the square root. -/
theorem isprimeLoop_spec {number : Nat} (hNumber : number < 2 ^ 31) {fuel div : Nat}
    (hFuel : number ≤ fuel + div) (hDiv : div % 2 = 1) (hDiv3 : 3 ≤ div)
    (hBelow : ∀ d, 3 ≤ d → d < div → d % 2 = 1 → number % d ≠ 0)
    (hSmall : (div - 2) * (div - 2) < number ∨ div = 3) :
    let stop := isprimeLoop number fuel div
    (∀ d, 3 ≤ d → d < stop → d % 2 = 1 → number % d ≠ 0) ∧
      (number % stop ≠ 0 → number ≤ stop * stop) ∧
      3 ≤ stop ∧ ((stop - 2) * (stop - 2) < number ∨ stop = 3) := by
  induction fuel generalizing div with
  | zero =>
      refine ⟨hBelow, fun _ => ?_, hDiv3, hSmall⟩
      simp only [isprimeLoop]
      have hSquare : div ≤ div * div := Nat.le_mul_self div
      omega
  | succ fuel ih =>
      have hNoWrap : div * div % 2 ^ 32 = div * div := by
        apply Nat.mod_eq_of_lt
        cases hSmall with
        | inr hThree => subst hThree; decide
        | inl hRoot =>
            have hRootBound : div - 2 < 46341 := by
              by_contra hNot
              have := Nat.mul_le_mul (Nat.not_lt.mp hNot) (Nat.not_lt.mp hNot)
              omega
            have hDivBound : div ≤ 46342 := by omega
            have := Nat.mul_le_mul hDivBound hDivBound
            omega
      simp only [isprimeLoop, hNoWrap]
      by_cases hMore : div * div < number ∧ number % div ≠ 0
      · rw [if_pos hMore]
        refine ih (by omega) (by omega) (by omega) ?_ (.inl (by simpa using hMore.1))
        intro d hd hd' hOdd
        by_cases hEq : d = div
        · exact hEq ▸ hMore.2
        · exact hBelow d hd (by omega) hOdd
      · rw [if_neg hMore]
        refine ⟨hBelow, fun hNotDivides => ?_, hDiv3, hSmall⟩
        by_contra hRoot
        exact hMore ⟨by omega, hNotDivides⟩

theorem sizeOk_of_isprime {number : Nat} (hNumber : number < 2 ^ 31) (hOdd : number % 2 = 1)
    (h : isprime number = true) : SizeOk number := by
  by_cases hOne : number = 1
  · exact .inl hOne
  · have hStop := @isprimeLoop_spec number hNumber number 3 (by omega) rfl le_rfl
      (fun d hd hd' => by omega) (.inr rfl)
    obtain ⟨hBelow, hRoot, -⟩ := hStop
    have hNot : number % isprimeLoop number number 3 ≠ 0 := by simpa [isprime] using h
    have hPrime : number.Prime := by
      by_contra hComposite
      have hPos : 0 < number := by omega
      have hMin := Nat.minFac_sq_le_self hPos hComposite
      have hMinPrime : number.minFac.Prime := Nat.minFac_prime hOne
      have hDvd : number.minFac ∣ number := Nat.minFac_dvd number
      have hMinOdd : number.minFac % 2 = 1 := by
        have hTwo : number.minFac ≠ 2 := by
          simp_all
        exact (hMinPrime.eq_two_or_odd).resolve_left hTwo
      have hMin3 : 3 ≤ number.minFac := by
        have := hMinPrime.two_le
        omega
      have hBound : number.minFac ≤ isprimeLoop number number 3 := by
        by_contra hBig
        have hLess := Nat.mul_lt_mul'' (Nat.not_le.mp hBig) (Nat.not_le.mp hBig)
        have := hRoot hNot
        rw [sq] at hMin
        omega
      by_cases hEq : number.minFac = isprimeLoop number number 3
      · exact hNot (hEq ▸ Nat.mod_eq_zero_of_dvd hDvd)
      · grind [Nat.mod_eq_zero_of_dvd]
    refine .inr ⟨hPrime, ?_, hNumber⟩
    have hThree : number ≠ 3 := by
      rintro rfl
      exact absurd h (by decide)
    have hTwo := hPrime.two_le
    omega

theorem nextSize_spec {fuel nel : Nat} (hOdd : nel % 2 = 1)
    (h : nextSize fuel nel = some size) :
    size % 2 = 1 ∧ isprime (size % 2 ^ 32) = true := by
  induction fuel generalizing nel with
  | zero => simp [nextSize] at h
  | succ fuel ih =>
      simp only [nextSize] at h
      grind

theorem hcreateR_spec {nel : Nat} (hCreate : hcreateR nel = some h) :
    SizeOk h.size ∧ h.filled = 0 ∧ ∀ i, h.table i = .free := by
  simp only [hcreateR, Option.bind_eq_bind, Option.bind_eq_some_iff, Option.map_eq_some_iff] at hCreate
  obtain ⟨size, ⟨found, hFound, rfl⟩, hAlloc⟩ := hCreate
  split at hAlloc
  · rename_i hFits
    rw [Option.some.injEq] at hAlloc
    subst hAlloc
    obtain ⟨hOdd, hPrime⟩ := nextSize_spec (by split <;> omega) hFound
    simp only [canAllocate, decide_eq_true_eq] at hFits
    have hSize : SizeOk (found % 2 ^ 32) := sizeOk_of_isprime (by omega) (by omega) hPrime
    exact ⟨hSize, rfl, fun _ => rfl⟩
  · simp at hAlloc

def path (size : Nat) (key : CStr) (t : Nat) : Nat :=
  Probing.probe size (secondHash size (firstHash size key)) (firstHash size key) t

@[simp] theorem path_zero (size : Nat) (key : CStr) : path size key 0 = firstHash size key := rfl

theorem firstHash_range (h : SizeOk size) (key : CStr) :
    1 ≤ firstHash size key ∧ firstHash size key ≤ size := by
  have hPos : 1 ≤ size := by
    cases h with
    | inl hOne => omega
    | inr hPrime => omega
  have hMod := Nat.mod_lt (hashKey key) hPos
  simp only [firstHash]
  split <;> omega

theorem secondHash_range (hSize : 5 ≤ size) (hWord : size < 2 ^ 31) (hval : Nat) :
    1 ≤ secondHash size hval ∧ secondHash size hval < size := by
  have hStep : (size + 2 ^ 32 - 2) % 2 ^ 32 = size - 2 := by omega
  have hMod : hval % (size - 2) < size - 2 := Nat.mod_lt _ (by omega)
  rw [secondHash, hStep]
  omega

theorem secondHash_coprime (hPrime : size.Prime) (hSize : 5 ≤ size)
    (hWord : size < 2 ^ 31) (hval : Nat) : Nat.Coprime (secondHash size hval) size := by
  obtain ⟨hPos, hLt⟩ := secondHash_range hSize hWord hval
  exact (Nat.coprime_of_lt_prime (by omega) hLt hPrime).symm

theorem path_range (h : SizeOk size) (key : CStr) (ht : t < size) :
    1 ≤ path size key t ∧ path size key t ≤ size := by
  obtain ⟨hLow, hHigh⟩ := firstHash_range h key
  cases h with
  | inl hOne =>
      simp_all
  | inr hPrime =>
      obtain ⟨hPos, hLt⟩ := secondHash_range hPrime.2.1 hPrime.2.2 (firstHash size key)
      exact Probing.probe_range hPos hLt hLow hHigh t

theorem exists_path_eq (h : SizeOk size) (key : CStr) {i : Nat} (hi : 1 ≤ i)
    (hi' : i ≤ size) : ∃ t < size, path size key t = i := by
  obtain ⟨hLow, hHigh⟩ := firstHash_range h key
  cases h with
  | inl hOne => exact ⟨0, by omega, by rw [path_zero]; omega⟩
  | inr hPrime =>
      obtain ⟨hPos, hLt⟩ := secondHash_range hPrime.2.1 hPrime.2.2 (firstHash size key)
      exact Probing.exists_probe_eq hPos hLt hLow hHigh
        (secondHash_coprime hPrime.1 hPrime.2.1 hPrime.2.2 _) hi hi'

theorem size_le_of_path_eq (h : SizeOk size) (key : CStr)
    (hBack : path size key (t + 1) = firstHash size key) : size ≤ t + 1 := by
  obtain ⟨hLow, hHigh⟩ := firstHash_range h key
  cases h with
  | inl hOne => omega
  | inr hPrime =>
      obtain ⟨hPos, hLt⟩ := secondHash_range hPrime.2.1 hPrime.2.2 (firstHash size key)
      by_contra hEarly
      exact Probing.probe_ne_start hPos hLt hLow hHigh
        (secondHash_coprime hPrime.1 hPrime.2.1 hPrime.2.2 _) (Nat.succ_pos t) (by omega) hBack

def Passed (h : Htab) (key : CStr) (t : Nat) : Prop :=
  h.table (path h.size key t) ≠ .free ∧
    (h.table (path h.size key t)).matches (firstHash h.size key) key = false

def Search.Means (h : Htab) (key : CStr) : Search → Prop
  | .found idx => (h.table idx).matches (firstHash h.size key) key = true ∧
      ∃ t, path h.size key t = idx ∧ ∀ u < t, Passed h key u
  | .empty idx => h.table idx = .free ∧ ∃ t, path h.size key t = idx ∧ ∀ u < t, Passed h key u
  | .wrapped => ∀ u < h.size, Passed h key u

theorem searchLoop_means (hSize : SizeOk h.size) {key : CStr} {fuel : Nat}
    (hFuel : h.size ≤ t + fuel) (hPassed : ∀ u ≤ t, Passed h key u) :
    (searchLoop h key (firstHash h.size key) (secondHash h.size (firstHash h.size key)) fuel
      (path h.size key t)).Means h key := by
  induction fuel generalizing t with
  | zero => exact fun u hu => hPassed u (by omega)
  | succ fuel ih =>
      have hStep : Probing.next h.size (secondHash h.size (firstHash h.size key))
          (path h.size key t) = path h.size key (t + 1) := rfl
      simp only [searchLoop, hStep]
      split
      · rename_i hBack
        have hAll := size_le_of_path_eq hSize key hBack
        exact fun u hu => hPassed u (by omega)
      · split
        · rename_i hMatch
          exact ⟨hMatch, t + 1, rfl, fun u hu => hPassed u (by omega)⟩
        · rename_i hMatch
          split
          · rename_i hUsed
            refine ih (by omega) fun u hu => ?_
            by_cases hLast : u = t + 1
            · subst hLast
              exact ⟨hUsed, by simpa using hMatch⟩
            · exact hPassed u (by omega)
          · rename_i hFree
            exact ⟨not_not.mp hFree, t + 1, rfl, fun u hu => hPassed u (by omega)⟩

theorem search_means (hSize : SizeOk h.size) (key : CStr) :
    (search h key).Means h key := by
  simp only [search]
  split
  · rename_i hFree
    exact ⟨hFree, 0, rfl, fun u hu => absurd hu (Nat.not_lt_zero u)⟩
  · rename_i hUsed
    split
    · rename_i hMatch
      exact ⟨hMatch, 0, rfl, fun u hu => absurd hu (Nat.not_lt_zero u)⟩
    · rename_i hMatch
      refine searchLoop_means hSize (t := 0) (by omega) fun u hu => ?_
      obtain rfl : u = 0 := by omega
      exact ⟨hUsed, by simpa using hMatch⟩

end Fire3.Hashtable

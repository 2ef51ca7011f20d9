import Fire3.Base.OnesComplement
import Fire3.Net.Receive
import Mathlib.Algebra.Order.BigOperators.Group.List

/-!
Internet checksums: `net/checksum.c`, and the IP header that `net_set_udp_header` of
`net/net.c` fills in.

The code folds an exact sum of words and complements it. The test of a header masks
the lowest bit of the result, so it takes a header whose sum is one too low as well.
-/

namespace Fire3.Net
open ByteMemory OnesComplement

def addIpChecksums (offset sum new : Nat) : Nat :=
  let sum := 0xffff - sum % 2 ^ 16
  let new := 0xffff - new % 2 ^ 16
  -- the bytes of a part at an odd offset are on the other side of their words
  let new := if offset &&& 1 ≠ 0 then ((new >>> 8) &&& 0xff) ||| ((new <<< 8) &&& 0xff00) else new
  let checksum := sum + new
  let checksum := if checksum > 0xffff then checksum - 0xffff else checksum
  0xffff - checksum % 2 ^ 16

theorem swap_eq (v : Nat) : ((v >>> 8) &&& 0xff) ||| ((v <<< 8) &&& 0xff00) = swap v := by
  have hLow : (v >>> 8) &&& 0xff = v / 256 % 256 := by
    rw [Nat.shiftRight_eq_div_pow]
    exact Nat.and_two_pow_sub_one_eq_mod _ 8
  have hHigh : (v <<< 8) &&& 0xff00 = (v % 256) <<< 8 := by
    have hMask : (v <<< 8) &&& (0xff <<< 8) = (v &&& 0xff) <<< 8 :=
      (Nat.shiftLeft_and_distrib).symm
    rw [show (0xff00 : Nat) = 0xff <<< 8 from rfl, hMask]
    exact congrArg (· <<< 8) (Nat.and_two_pow_sub_one_eq_mod v 8)
  rw [hLow, hHigh, Nat.or_comm, ← Nat.shiftLeft_add_eq_or_of_lt (by omega : v / 256 % 256 < 2 ^ 8),
    Nat.shiftLeft_eq, swap]
  omega

theorem computeIpChecksum_eq (m : Mem) (a : Nat) {n : Nat} (h : n ≤ 65535) :
    computeIpChecksum m a n = 0xffff - norm (byteSum false (load m a n)) := by
  have hSum : ((List.range (n / 2)).map fun i => readLE m (a + 2 * i) 2).sum +
      (if n % 2 = 1 then (m (a + n - 1)).toNat else 0) = byteSum false (load m a n) := by
    rw [sum_words]
    rcases Nat.mod_two_eq_zero_or_one n with hEven | hOdd
    · rw [if_neg (by omega), Nat.add_zero, Nat.mul_div_cancel' (Nat.dvd_of_mod_eq_zero hEven)]
    · have hLast : n = 2 * (n / 2) + 1 := by omega
      have hByte : load m (a + 2 * (n / 2)) 1 = [m (a + n - 1)] := by
        rw [show a + n - 1 = a + 2 * (n / 2) by omega]
        rfl
      have hSide : (load m a (2 * (n / 2))).length % 2 = 0 := by
        rw [length_load]
        omega
      conv_rhs => rw [hLast, load_add, byteSum_append, hSide, hByte]
      simp [hOdd, byteSum]
  have hBound := byteSum_le false (load m a n)
  rw [length_load] at hBound
  simp only [computeIpChecksum, hSum]
  rw [norm_of_folds (by simp only [Bool.false_eq_true, if_false] at hBound; omega)]

theorem norm_part (k : Nat) (bs : List UInt8) :
    norm (if k &&& 1 ≠ 0 then swap (norm (byteSum false bs)) else norm (byteSum false bs)) =
      norm (byteSum (false ^^ decide (k % 2 = 1)) bs) := by
  have hParity : k &&& 1 = k % 2 := Nat.and_two_pow_sub_one_eq_mod k 1
  rw [hParity]
  rcases Nat.mod_two_eq_zero_or_one k with hEven | hOdd
  · simp [hEven, norm_of_le (norm_le _)]
  · have hScaled : norm (256 * norm (byteSum false bs)) = norm (256 * byteSum false bs) := by
      have hZero := @norm_eq_zero_iff (byteSum false bs)
      rw [norm_eq_iff]
      exact ⟨by omega, Nat.ModEq.mul_left 256 (norm_mod _)⟩
    rw [if_pos (by omega), norm_swap (norm_le _), hScaled, norm_byteSum_shift]
    simp [hOdd]

/-- The checksum of a buffer is that of its two parts, wherever it is cut. -/
theorem ip_checksums_compose (m : Mem) (a : Nat) {n k : Nat} (hSize : n ≤ 65535) (hCut : k ≤ n) :
    addIpChecksums k (computeIpChecksum m a k) (computeIpChecksum m (a + k) (n - k)) =
      computeIpChecksum m a n := by
  have hSplit : load m a n = load m a k ++ load m (a + k) (n - k) := by
    rw [← load_add, Nat.add_sub_cancel' hCut]
  have hPart := norm_part k (load m (a + k) (n - k))
  have hFirst := norm_le (byteSum false (load m a k))
  have hSecond := norm_le (byteSum false (load m (a + k) (n - k)))
  have hUndo : ∀ v ≤ 0xffff, 0xffff - (0xffff - v) % 2 ^ 16 = v := by omega
  rw [computeIpChecksum_eq m a (by omega), computeIpChecksum_eq m (a + k) (by omega),
    computeIpChecksum_eq m a hSize, hSplit, byteSum_append, length_load]
  simp only [addIpChecksums, hUndo _ hFirst, hUndo _ hSecond, swap_eq]
  generalize hNew : (if k &&& 1 ≠ 0 then swap (norm (byteSum false (load m (a + k) (n - k))))
    else norm (byteSum false (load m (a + k) (n - k)))) = new at hPart ⊢
  have hLe : new ≤ 0xffff := by
    rw [← hNew]
    split
    · exact swap_le _
    · exact hSecond
  have hAdd := add_eq_norm hFirst hLe
  rw [norm_norm_add, norm_add_congr _ hPart] at hAdd
  rw [← hAdd, Nat.mod_eq_of_lt]
  · rfl
  · split <;> omega

/-- A buffer of three bytes, cut behind the first one. -/
theorem ip_checksums_compose_three :
    addIpChecksums 1 (computeIpChecksum (store zero 0 [1, 2, 3]) 0 1)
      (computeIpChecksum (store zero 0 [1, 2, 3]) (0 + 1) (3 - 1)) =
      computeIpChecksum (store zero 0 [1, 2, 3]) 0 3 :=
  ip_checksums_compose _ 0 (by decide) (by decide)

def headerWords (m : Mem) (a : Nat) : List Nat :=
  (List.range 10).map fun i => readLE m (a + 2 * i) 2

def netSetIpHeader (netIpId : Nat) (m : Mem) (pkt dest source : Nat) : Mem :=
  let m := store m pkt [0x45]
  let m := store m (pkt + 1) [0]
  let m := store m (pkt + 2) (beBytes16 ipHdrSize)
  let m := store m (pkt + 4) (beBytes16 netIpId)
  let m := store m (pkt + 6) (beBytes16 0x4000)
  let m := store m (pkt + 8) [255]
  let m := store m (pkt + 10) [0, 0]
  let m := writeLE m (pkt + 12) 4 source
  writeLE m (pkt + 16) 4 dest

def low16 (n : Int) : Nat := (n % 2 ^ 16).toNat

def netSetUdpHeader (netIp netIpId : Nat) (m : Mem) (pkt dest : Nat) (dport sport len : Int) : Mem :=
  let m := if len % 2 = 1 then store m (pkt + ipUdpHdrSize + len).toNat [0] else m
  let m := netSetIpHeader netIpId m pkt dest netIp
  let m := store m (pkt + 2) (beBytes16 (low16 (ipUdpHdrSize + len)))
  let m := store m (pkt + 9) [17]
  let m := writeLE m (pkt + 10) 2 (computeIpChecksum m pkt ipHdrSize)
  let m := store m (pkt + 20) (beBytes16 (low16 sport))
  let m := store m (pkt + 22) (beBytes16 (low16 dport))
  let m := store m (pkt + 24) (beBytes16 (low16 (udpHdrSize + len)))
  store m (pkt + 26) [0, 0]

theorem readLE_two_le (m : Mem) (a : Nat) : readLE m a 2 ≤ 0xffff := by
  have h := leValue_lt (load m a 2)
  rw [length_load] at h
  exact Nat.le_of_lt_succ h

theorem headerSum_eq (m : Mem) (a : Nat) : sum (headerWords m a) = norm (headerWords m a).sum := by
  refine sum_eq_norm fun w hw => ?_
  obtain ⟨i, -, rfl⟩ := List.mem_map.mp hw
  exact readLE_two_le m _

theorem mask_eq_zero_iff {v : Nat} (h : v ≤ 0xffff) : v &&& 0xfffe = 0 ↔ v ≤ 1 := by
  have hHalf : (v &&& 0xfffe) >>> 1 = v / 2 := by
    rw [Nat.shiftRight_and_distrib, Nat.shiftRight_eq_div_pow]
    exact (Nat.and_two_pow_sub_one_eq_mod _ 15).trans (Nat.mod_eq_of_lt (by omega))
  constructor
  · omega
  · grind [Nat.le_one_iff_eq_zero_or_eq_one]

theorem ipChecksumOk_iff (m : Mem) (a : Nat) :
    ipChecksumOk m a ipHdrSize = true ↔
      sum (headerWords m a) = 0xffff ∨ sum (headerWords m a) = 0xfffe := by
  have hLe := norm_le (headerWords m a).sum
  have hBytes : byteSum false (load m a ipHdrSize) = (headerWords m a).sum := (sum_words m a 10).symm
  rw [ipChecksumOk, computeIpChecksum_eq m a (by decide), hBytes, decide_eq_true_iff,
    mask_eq_zero_iff (by omega), headerSum_eq]
  omega

theorem headerWords_writeLE (m : Mem) (a i : Nat) {w : Nat} (hw : w ≤ 0xffff) :
    headerWords (writeLE m (a + 2 * i) 2 w) a = (headerWords m a).set i w := by
  refine List.ext_getElem (by simp [headerWords]) fun j hj _ => ?_
  simp only [headerWords, List.getElem_map, List.getElem_range, List.getElem_set]
  split
  · grind [readLE_writeLE_same, Nat.mod_eq_of_lt]
  · rw [writeLE, readLE_store_disjoint]
    rw [length_leBytes]
    omega

theorem sum_set_add {ws : List Nat} {i : Nat} (hi : i < ws.length) (w : Nat) :
    (ws.set i w).sum + ws[i] = ws.sum + w := by
  have hWhole : ws.sum = (ws.take i).sum + ws[i] + (ws.drop (i + 1)).sum := by
    conv_lhs => rw [← List.take_append_drop i ws, List.sum_append, List.drop_eq_getElem_cons hi,
      List.sum_cons]
    omega
  rw [List.sum_set, if_pos hi, hWhole]
  omega

theorem headerSum_writeLE (m : Mem) (a : Nat) {i w : Nat} (hi : i < 10) (hw : w ≤ 0xffff) :
    (headerWords (writeLE m (a + 2 * i) 2 w) a).sum + readLE m (a + 2 * i) 2 =
      (headerWords m a).sum + w := by
  have hLength : i < (headerWords m a).length := by simpa [headerWords] using hi
  have hWord : (headerWords m a)[i] = readLE m (a + 2 * i) 2 := by simp [headerWords]
  grind [headerWords_writeLE, sum_set_add]

theorem headerWords_store_behind (m : Mem) {a b : Nat} (bs : List UInt8) (h : a + 20 ≤ b) :
    headerWords (store m b bs) a = headerWords m a := by
  refine List.map_congr_left fun i hi => ?_
  rw [List.mem_range] at hi
  exact readLE_store_disjoint m b bs _ 2 (Or.inl (by omega))

theorem sum_headerWords_pos {m : Mem} {a : Nat} (h : m a ≠ 0) : 0 < (headerWords m a).sum := by
  have hByte : 0 < (m a).toNat := by
    rw [Nat.pos_iff_ne_zero]
    exact fun hZero => h (UInt8.toNat_inj.mp hZero)
  have hWord : readLE m (a + 2 * 0) 2 ∈ headerWords m a :=
    List.mem_map.mpr ⟨0, by simp, rfl⟩
  have hFirst : (m a).toNat ≤ readLE m (a + 2 * 0) 2 := by
    have hLoad : load m (a + 2 * 0) 2 = [m a, m (a + 1)] := rfl
    rw [readLE, hLoad, leValue]
    omega
  exact Nat.lt_of_lt_of_le (Nat.lt_of_lt_of_le hByte hFirst) (List.le_sum_of_mem hWord)

theorem sum_checksummed {m : Mem} {a : Nat} (hFirst : m a ≠ 0) (hField : readLE m (a + 10) 2 = 0) :
    sum (headerWords (writeLE m (a + 10) 2 (computeIpChecksum m a ipHdrSize)) a) = 0xffff := by
  have hPos := sum_headerWords_pos hFirst
  have hLe := norm_le (headerWords m a).sum
  have hMod := norm_mod (headerWords m a).sum
  have hBytes : byteSum false (load m a ipHdrSize) = (headerWords m a).sum := (sum_words m a 10).symm
  have hComputed : computeIpChecksum m a ipHdrSize = 0xffff - norm (headerWords m a).sum := by
    rw [computeIpChecksum_eq m a (by decide), hBytes]
  have hSum := @headerSum_writeLE m a 5 (computeIpChecksum m a ipHdrSize) (by decide)
    (by rw [hComputed]; omega)
  rw [hField, hComputed] at hSum
  have hFull : norm (headerWords (writeLE m (a + 2 * 5) 2
      (0xffff - norm (headerWords m a).sum)) a).sum = OnesComplement.norm 0xffff := by
    rw [norm_eq_iff, Nat.ModEq]
    omega
  rw [headerSum_eq, hComputed, hFull]
  rfl

theorem netSetUdpHeader_sum (netIp netIpId : Nat) (m : Mem) (pkt dest : Nat)
    (dport sport len : Int) :
    sum (headerWords (netSetUdpHeader netIp netIpId m pkt dest dport sport len) pkt) = 0xffff := by
  unfold netSetUdpHeader
  dsimp only
  rw [headerWords_store_behind _ _ (by omega), headerWords_store_behind _ _ (by omega),
    headerWords_store_behind _ _ (by omega), headerWords_store_behind _ _ (by omega)]
  generalize (if len % 2 = 1 then store m (pkt + ipUdpHdrSize + len).toNat [0] else m) = m
  apply sum_checksummed
  · unfold netSetIpHeader writeLE
    simp [store, beBytes16, leBytes]
  · rw [readLE_store_disjoint _ _ _ _ _ (Or.inr (by simp)),
      readLE_store_disjoint _ _ _ _ _ (Or.inr (by simp [beBytes16])), netSetIpHeader, writeLE,
      writeLE, readLE_store_disjoint _ _ _ _ _ (Or.inl (by omega)),
      readLE_store_disjoint _ _ _ _ _ (Or.inl (by omega))]
    exact congrArg leValue (load_store_same _ _ [0, 0])

/-- The header test against the sum of the ten words: it holds where it should unless the
sum is 0xfffe; of a header with the sum 0xffff, a word that is replaced by a different one
is noticed unless the new one is lower by one; and a header of `net_set_udp_header` is
accepted. -/
theorem ip_checksum_law_iff (m : Mem) (a : Nat) :
    ((ipChecksumOk m a ipHdrSize = true ↔ sum (headerWords m a) = 0xffff) ↔
      sum (headerWords m a) ≠ 0xfffe) ∧
    (∀ i w, i < 10 → w ≤ 0xffff → sum (headerWords m a) = 0xffff →
      ¬w ≡ readLE m (a + 2 * i) 2 [MOD 0xffff] →
      (ipChecksumOk (writeLE m (a + 2 * i) 2 w) a ipHdrSize = false ↔
        ¬w + 1 ≡ readLE m (a + 2 * i) 2 [MOD 0xffff])) ∧
    ∀ (netIp netIpId dest : Nat) (dport sport len : Int),
      ipChecksumOk (netSetUdpHeader netIp netIpId m a dest dport sport len) a ipHdrSize = true := by
  refine ⟨?_, fun i w hi hw hValid hOther => ?_, fun netIp netIpId dest dport sport len => ?_⟩
  · rw [ipChecksumOk_iff]
    omega
  · have hSum := headerSum_writeLE m a hi hw
    rw [headerSum_eq] at hValid
    have hMod := norm_mod (headerWords m a).sum
    rw [← Bool.not_eq_true, not_iff_not, ipChecksumOk_iff, headerSum_eq]
    have hMod' := norm_mod (headerWords (writeLE m (a + 2 * i) 2 w) a).sum
    grind [norm_le, writeLE, Nat.ModEq]
  · rw [ipChecksumOk_iff]
    exact Or.inl (netSetUdpHeader_sum netIp netIpId m a dest dport sport len)

def sampleHeader : Mem := netSetUdpHeader 0x0100a8c0 1 zero 0 0x0200a8c0 69 1000 8

/-- A changed length word and a changed address word of a filled in header. -/
theorem ip_checksum_law_sample :
    sum (headerWords sampleHeader 0) = 0xffff ∧
      ipChecksumOk (writeLE sampleHeader (0 + 2 * 1) 2 0x2500) 0 ipHdrSize = false ∧
      ipChecksumOk sampleHeader 0 ipHdrSize = true :=
  ⟨by decide +kernel, ((ip_checksum_law_iff sampleHeader 0).2.1 1 0x2500 (by decide) (by decide)
    (by decide +kernel) (by decide +kernel)).mpr (by decide +kernel),
    (ip_checksum_law_iff zero 0).2.2 0x0100a8c0 1 0x0200a8c0 69 1000 8⟩

/-- The source address with the 192 lower by one: the sum is 0xfffe, and the header is
accepted. -/
theorem ipChecksumOk_not_exact :
    sum (headerWords sampleHeader 0) = 0xffff ∧
      readLE sampleHeader 12 2 = 0xa8c0 ∧
      sum (headerWords (writeLE sampleHeader 12 2 0xa8bf) 0) = 0xfffe ∧
      ipChecksumOk (writeLE sampleHeader 12 2 0xa8bf) 0 ipHdrSize = true := by
  decide +kernel

end Fire3.Net

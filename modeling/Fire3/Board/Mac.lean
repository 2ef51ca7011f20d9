import Fire3.Base.Align
import Fire3.Base.ByteMemory
import Fire3.Base.CString

/-!
The MAC address of a board, which `generate_mac` makes from its serial number.

The fields of the serial number are reduced to the bits that are left for them behind the
vendor part. Two boards of one type share an address if their fields agree in these bits.
-/

namespace Fire3.ArtikMac
open ByteMemory CString Align

structure ArtikInfo where
  boardName : CStr
  security : UInt8
  yearOffset : Nat
  modelCode : Nat
  oui : Nat
deriving DecidableEq, Repr

def artikInfo : List ArtikInfo :=
  [⟨ascii "710", 48, 2016, 0, 0x08152F⟩, ⟨ascii "710", 76, 2016, 1, 0x08152F⟩,
    ⟨ascii "530", 48, 2016, 2, 0x08152F⟩, ⟨ascii "530", 76, 2017, 3, 0x08152F⟩,
    ⟨ascii "305", 48, 2017, 1, 0x448F17⟩, ⟨ascii "533", 48, 2017, 0, 0x448F17⟩]

/-! The fields of `struct serial_t`, which is laid over the text. -/

def model (sn : Mem) : List UInt8 := load sn 0 3
def year (sn : Mem) : UInt8 := sn 5
def month (sn : Mem) : UInt8 := sn 6
def day (sn : Mem) : UInt8 := sn 7
def security (sn : Mem) : UInt8 := sn 11
def serial (sn : Mem) : List UInt8 := load sn 12 4

def yearFromSn (c : UInt8) : Int := (c.toNat - 66) + 2016

def getBoardInfo (year : Int) (name : List UInt8) (security : UInt8) : Option ArtikInfo :=
  artikInfo.find? fun info =>
    decide (0 ≤ year - info.yearOffset ∧ year - info.yearOffset ≤ 4) &&
      (info.boardName == name && info.security == security)

def convertNumber (cs : List UInt8) : Option Nat :=
  cs.foldlM (fun result c =>
    if 48 ≤ c ∧ c ≤ 57 then some (result * 10 + (c.toNat - 48))
    else if 65 ≤ c ∧ c ≤ 90 then some (result * 10 + (c.toNat - 65 + 10))
    else none) 0

def macOf (modelCode year month day serial : Nat) : Nat :=
  ((modelCode &&& 0x3) <<< 11) ||| ((year &&& 0x3) <<< 22) ||| ((month &&& 0xF) <<< 18) |||
    ((day &&& 0x1F) <<< 13) ||| (serial &&& 0x7FF)

def hexByte (n : Nat) : CStr :=
  (if n / 16 = 0 then [] else [hexDigit (n / 16)]) ++ [hexDigit (n % 16)]

def macBytes (x : Nat) : List Nat := [(x >>> 16) &&& 0xFF, (x >>> 8) &&& 0xFF, (x >>> 0) &&& 0xFF]

def ethaddrText (oui mac : Nat) : CStr :=
  ([58] : CStr).intercalate ((macBytes oui ++ macBytes mac).map hexByte)

/-- The value that `generate_mac` gives to `ethaddr`, if it sets it. -/
def generateMac (ethaddr : Option CStr) (artikSerial : Option Mem) : Option CStr :=
  if ethaddr.isSome then none
  else do
    let sn ← artikSerial
    let info ← getBoardInfo (yearFromSn (year sn)) (model sn) (security sn)
    let m ← convertNumber [month sn]
    let d ← convertNumber [day sn]
    let n ← convertNumber (serial sn)
    return ethaddrText info.oui
      (macOf info.modelCode (yearFromSn (year sn) - info.yearOffset).toNat m d n)

section

theorem hexDigit_ne_colon : ∀ d < 16, hexDigit d ≠ 58 := by decide

theorem hexDigit_inj : ∀ d < 16, ∀ e < 16, hexDigit d = hexDigit e → d = e := by decide

theorem colon_notMem_hexByte {n : Nat} (hn : n < 256) : 58 ∉ hexByte n := by
  have hHigh := hexDigit_ne_colon (n / 16) (by omega)
  have hLow := hexDigit_ne_colon (n % 16) (by omega)
  unfold hexByte
  split <;> simp [hHigh.symm, hLow.symm]

theorem hexByte_inj {n m : Nat} (hn : n < 256) (hm : m < 256) (h : hexByte n = hexByte m) :
    n = m := by
  unfold hexByte at h
  obtain ⟨hHead, hLast⟩ := List.append_inj' h rfl
  have hLow := hexDigit_inj _ (Nat.mod_lt n (by decide)) _ (Nat.mod_lt m (by decide))
    (List.singleton_inj.mp hLast)
  have hHigh : n / 16 = m / 16 := by
    split at hHead <;> split at hHead
    · omega
    · cases hHead
    · cases hHead
    · exact hexDigit_inj _ (by omega) _ (by omega) (List.singleton_inj.mp hHead)
  omega

theorem append_colon_inj {a b : CStr} (ha : 58 ∉ a) (hb : 58 ∉ b) {rest rest' : CStr}
    (h : a ++ 58 :: rest = b ++ 58 :: rest') : a = b ∧ rest = rest' := by
  induction a generalizing b with
  | nil =>
      cases b with
      | nil => exact ⟨rfl, List.tail_eq_of_cons_eq h⟩
      | cons c b => exact absurd (List.head_eq_of_cons_eq h ▸ List.mem_cons_self) hb
  | cons c a ih =>
      rw [List.mem_cons, not_or] at ha
      cases b with
      | nil => exact absurd (List.head_eq_of_cons_eq h).symm ha.1
      | cons d b =>
          rw [List.mem_cons, not_or] at hb
          obtain ⟨hHead, hTail⟩ := List.cons.inj h
          obtain ⟨hSame, hRest⟩ := ih ha.2 hb.2 hTail
          exact ⟨by rw [hHead, hSame], hRest⟩

/-- The bytes can be read back from a text of numbers with colons between them. -/
theorem intercalate_hexByte_inj {xs ys : List Nat} (hLength : xs.length = ys.length)
    (hxs : ∀ x ∈ xs, x < 256) (hys : ∀ y ∈ ys, y < 256)
    (h : ([58] : CStr).intercalate (xs.map hexByte) = ([58] : CStr).intercalate (ys.map hexByte)) :
    xs = ys := by
  induction xs generalizing ys with
  | nil => exact (List.length_eq_zero_iff.mp hLength.symm).symm
  | cons x xs ih =>
      obtain ⟨y, ys, rfl⟩ := List.exists_cons_of_length_eq_add_one hLength.symm
      rw [List.forall_mem_cons] at hxs hys
      cases xs with
      | nil =>
          cases ys with
          | nil => rw [hexByte_inj hxs.1 hys.1 (by simpa using h)]
          | cons y' ys => simp at hLength
      | cons x' xs =>
          obtain ⟨y', ys, rfl⟩ :=
            List.exists_cons_of_length_eq_add_one (Nat.succ.inj hLength).symm
          obtain ⟨hFirst, hRest⟩ := append_colon_inj (colon_notMem_hexByte hxs.1)
            (colon_notMem_hexByte hys.1) (by simpa [List.intercalate] using h)
          rw [hexByte_inj hxs.1 hys.1 hFirst, ih (by simpa using hLength) hxs.2 hys.2]
          simpa [List.intercalate] using hRest

end

theorem macBytes_lt (x : Nat) : ∀ b ∈ macBytes x, b < 256 := by
  have hAnd (y : Nat) : y &&& 0xFF < 256 := Nat.and_lt_two_pow _ (by decide : 0xFF < 2 ^ 8)
  simp [macBytes, hAnd]

theorem macBytes_inj {x y : Nat} (hx : x < 2 ^ 24) (hy : y < 2 ^ 24)
    (h : macBytes x = macBytes y) : x = y := by
  have hByte (z : Nat) : z &&& 0xFF = z % 256 := Nat.and_two_pow_sub_one_eq_mod z 8
  simp only [macBytes, hByte, Nat.shiftRight_eq_div_pow, List.cons.injEq] at h
  omega

theorem ethaddrText_inj {oui x y : Nat} (hx : x < 2 ^ 24) (hy : y < 2 ^ 24)
    (h : ethaddrText oui x = ethaddrText oui y) : x = y := by
  apply macBytes_inj hx hy
  apply @List.append_cancel_left _ (macBytes oui)
  have hBytes (z : Nat) : ∀ b ∈ macBytes oui ++ macBytes z, b < 256 := fun b hb =>
    (List.mem_append.mp hb).elim (macBytes_lt oui b) (macBytes_lt z b)
  exact intercalate_hexByte_inj rfl (hBytes x) (hBytes y) h

theorem or_rotate (a b c d e : Nat) : a ||| b ||| c ||| d ||| e = b ||| (c ||| (d ||| (a ||| e))) := by
  ac_rfl

theorem macOf_eq (modelCode year month day serial : Nat) :
    macOf modelCode year month day serial =
      year % 4 * 4194304 + (month % 16 * 262144 + (day % 32 * 8192 + (modelCode % 4 * 2048 +
        serial % 2048))) := by
  have hOr : macOf modelCode year month day serial =
      (year % 4) <<< 22 ||| ((month % 16) <<< 18 ||| ((day % 32) <<< 13 |||
        ((modelCode % 4) <<< 11 ||| serial % 2048))) := by
    rw [← Nat.and_two_pow_sub_one_eq_mod year 2, ← Nat.and_two_pow_sub_one_eq_mod month 4,
      ← Nat.and_two_pow_sub_one_eq_mod day 5, ← Nat.and_two_pow_sub_one_eq_mod modelCode 2,
      ← Nat.and_two_pow_sub_one_eq_mod serial 11]
    exact or_rotate _ _ _ _ _
  rw [hOr, shift_or (modelCode % 4) (by omega), shift_or (day % 32) (by omega),
    shift_or (month % 16) (by omega), shift_or (year % 4) (by omega)]
  norm_num

theorem generateMac_eq_some_iff {sn : Mem} {e : CStr} : generateMac none (some sn) = some e ↔
    ∃ info m d n, getBoardInfo (yearFromSn (year sn)) (model sn) (security sn) = some info ∧
      convertNumber [month sn] = some m ∧ convertNumber [day sn] = some d ∧
      convertNumber (serial sn) = some n ∧
      ethaddrText info.oui (macOf info.modelCode
        (yearFromSn (year sn) - info.yearOffset).toNat m d n) = e := by
  simp [generateMac, Option.bind_eq_some_iff]

theorem getBoardInfo_some {y : Int} {name : List UInt8} {sec : UInt8} {info : ArtikInfo}
    (h : getBoardInfo y name sec = some info) :
    info ∈ artikInfo ∧ 0 ≤ y - info.yearOffset ∧ info.boardName = name ∧ info.security = sec := by
  have hFound := List.find?_some h
  simp only [Bool.and_eq_true, decide_eq_true_eq, beq_iff_eq] at hFound
  exact ⟨List.mem_of_find?_eq_some h, hFound.1.1, hFound.2⟩

theorem artikInfo_unique : ∀ a ∈ artikInfo, ∀ b ∈ artikInfo,
    a.boardName = b.boardName → a.security = b.security → a = b := by decide

def SameBoard (sn sn' : Mem) : Prop := model sn = model sn' ∧ security sn = security sn'

def SameFields (sn sn' : Mem) : Prop :=
  year sn = year sn' ∧ month sn = month sn' ∧ day sn = day sn' ∧ serial sn = serial sn'

/-- The fields agree in the bits that the address has for them. -/
def SameBits (sn sn' : Mem) : Prop :=
  yearFromSn (year sn) % 4 = yearFromSn (year sn') % 4 ∧
    (convertNumber [month sn]).map (· % 16) = (convertNumber [month sn']).map (· % 16) ∧
    (convertNumber [day sn]).map (· % 32) = (convertNumber [day sn']).map (· % 32) ∧
    (convertNumber (serial sn)).map (· % 2048) = (convertNumber (serial sn')).map (· % 2048)

instance sameBits_decidable (sn sn' : Mem) : Decidable (SameBits sn sn') :=
  inferInstanceAs (Decidable (_ ∧ _))

instance sameFields_decidable (sn sn' : Mem) : Decidable (SameFields sn sn') :=
  inferInstanceAs (Decidable (_ ∧ _))

instance sameBoard_decidable (sn sn' : Mem) : Decidable (SameBoard sn sn') :=
  inferInstanceAs (Decidable (_ ∧ _))

theorem ethaddr_eq_iff {sn sn' : Mem} {e e' : CStr} (h : generateMac none (some sn) = some e)
    (h' : generateMac none (some sn') = some e') (hBoard : SameBoard sn sn') :
    e = e' ↔ SameBits sn sn' := by
  obtain ⟨info, m, d, n, hInfo, hm, hd, hn, rfl⟩ := generateMac_eq_some_iff.mp h
  obtain ⟨info', m', d', n', hInfo', hm', hd', hn', rfl⟩ := generateMac_eq_some_iff.mp h'
  obtain ⟨hMem, hYear, hName, hSec⟩ := getBoardInfo_some hInfo
  obtain ⟨hMem', hYear', hName', hSec'⟩ := getBoardInfo_some hInfo'
  obtain rfl := artikInfo_unique info hMem info' hMem' (hName.trans (hBoard.1.trans hName'.symm))
    (hSec.trans (hBoard.2.trans hSec'.symm))
  have hText (x y : Nat) (hx : x < 2 ^ 24) (hy : y < 2 ^ 24) :
      ethaddrText info.oui x = ethaddrText info.oui y ↔ x = y :=
    ⟨ethaddrText_inj hx hy, fun hxy => congrArg (ethaddrText info.oui) hxy⟩
  have hYears : (yearFromSn (year sn) - info.yearOffset).toNat % 4 =
      (yearFromSn (year sn') - info.yearOffset).toNat % 4 ↔
        yearFromSn (year sn) % 4 = yearFromSn (year sn') % 4 := by omega
  simp only [SameBits, hm, hm', hd, hd', hn, hn', Option.map_some, Option.some.injEq, ← hYears]
  rw [macOf_eq, macOf_eq, hText _ _ (by omega) (by omega)]
  omega

/-- Two accepted serial numbers of boards of one type that differ in a field have different
addresses exactly if they differ in the bits that are kept of a field. -/
theorem mac_unique_iff {sn sn' : Mem} {e e' : CStr}
    (accepted : generateMac none (some sn) = some e)
    (accepted' : generateMac none (some sn') = some e') (board : SameBoard sn sn') :
    (¬SameFields sn sn' → e ≠ e') ↔ (¬SameFields sn sn' → ¬SameBits sn sn') := by
  rw [Ne, ethaddr_eq_iff accepted accepted' board]

def serialText (s : String) : Mem := store zero 0 (ascii s)

/-- The first and the second day of a month. -/
theorem mac_unique_days :
    generateMac none (some (serialText "710AAB1100000001")) = some (ascii "8:15:2f:4:20:1") ∧
      (¬SameFields (serialText "710AAB1100000001") (serialText "710AAB1200000001") →
        ascii "8:15:2f:4:20:1" ≠ ascii "8:15:2f:4:40:1") := by
  have hFirst : generateMac none (some (serialText "710AAB1100000001")) =
      some (ascii "8:15:2f:4:20:1") := by decide +kernel
  have hSecond : generateMac none (some (serialText "710AAB1200000001")) =
      some (ascii "8:15:2f:4:40:1") := by decide +kernel
  exact ⟨hFirst, (mac_unique_iff hFirst hSecond (by decide +kernel)).mpr
    fun _ => by decide +kernel⟩

/-- A board of 2016 has the address of one of 2020, and serial `000A` that of `0010`. -/
theorem mac_shared :
    generateMac none (some (serialText "710AAB1100000001")) =
        generateMac none (some (serialText "710AAF1100000001")) ∧
      generateMac none (some (serialText "710AAB110000000A")) =
        generateMac none (some (serialText "710AAB1100000010")) ∧
      (generateMac none (some (serialText "710AAB110000000A"))).isSome ∧
      (generateMac none (some (serialText "710AAB1100000001"))).isSome ∧
      ¬SameFields (serialText "710AAB1100000001") (serialText "710AAF1100000001") ∧
      SameBoard (serialText "710AAB1100000001") (serialText "710AAF1100000001") := by
  decide +kernel

end Fire3.ArtikMac

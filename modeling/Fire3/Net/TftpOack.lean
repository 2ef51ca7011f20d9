import Fire3.Base.Lists
import Fire3.Net.Tftp

/-!
The options of an OACK packet, `tftp_handler` of `net/tftp.c`.

The packet is here the list of the received bytes behind the opcode. A read behind its
end has no result, so a scan with a result is one that stays inside the packet.
-/

namespace Fire3.Tftp
open ByteMemory CString

variable {text : List UInt8}

def strcmpAt : List UInt8 → CStr → Option Bool
  | [], _ => none
  | c :: _, [] => some (c = 0)
  | c :: cs, x :: xs => if c ≠ x then some false else strcmpAt cs xs

/-- The digit loop of `simple_strtoul`, up to the character that ends it. -/
def digitsAt (base : Nat) : List UInt8 → Nat → Option Nat
  | [], _ => none
  | c :: cs, result =>
      if isXDigit c ∧ digitValue c < base then
        digitsAt base cs ((result * base + digitValue c) % 2 ^ 64)
      else some result

def strtoulAt (text : List UInt8) : Option Nat := do
  let c ← text[0]?
  if c = 48 then
    let x ← text[1]?
    if x = 120 then
      let d ← text[2]?
      if isXDigit d then digitsAt 16 (text.drop 2) 0 else digitsAt 10 (text.drop 1) 0
    else digitsAt 10 (text.drop 1) 0
  else digitsAt 10 text 0

structure OackOptions where
  blockSize : Nat
  tsize : Int

/-- One turn of the loop; `withTsize` is `CONFIG_TFTP_TSIZE`. -/
def oackOption (withTsize : Bool) (bs : List UInt8) (o : OackOptions) (i : Nat) :
    Option OackOptions := do
  let isBlksize ← strcmpAt (bs.drop i) (ascii "blksize")
  let o ← if isBlksize then
      (strtoulAt (bs.drop (i + 8))).map fun (v : Nat) => { o with blockSize := v % 2 ^ 16 }
    else some o
  if withTsize then
    let isTsize ← strcmpAt (bs.drop i) (ascii "tsize")
    if isTsize then
      (strtoulAt (bs.drop (i + 6))).map fun (v : Nat) => { o with tsize := Int.bmod v (2 ^ 32) }
    else some o
  else some o

def oackScan (withTsize : Bool) (bs : List UInt8) (o : OackOptions) : Option OackOptions :=
  (List.range (bs.length - 8)).foldlM (oackOption withTsize bs) o

/-- Case `TFTP_OACK` of the handler. -/
def tftpOack (withTsize : Bool) (c : Client) (tsize : Int) (port : Nat) (bs : List UInt8) :
    Option (Client × List Output) :=
  (oackScan withTsize bs ⟨c.blockSize, tsize⟩).map fun o => receiveOack c port o.blockSize

def named (name : CStr) (text : List UInt8) : Bool := (name ++ [0]).isPrefixOf text

def optionsAt (name : CStr) (bs : List UInt8) : List Nat :=
  (List.range (bs.length - 8)).filter fun i => named name (bs.drop i)

def hexText : List UInt8 → Bool
  | 48 :: 120 :: d :: _ => isXDigit d
  | _ => false

/-- The text of a number and the character that ends it are there. A hexadecimal prefix is
looked for even where a decimal number is expected. -/
def NumberEnds (text : List UInt8) : Prop :=
  if hexText text then ∃ c ∈ text.drop 2, isXDigit c = false
  else text ≠ ascii "0x" ∧ ∃ c ∈ text, isDigit c = false

instance decidableNumberEnds (text : List UInt8) : Decidable (NumberEnds text) :=
  inferInstanceAs (Decidable (if hexText text then _ else _))

/-- The value that the packet gives, or the one before. -/
def announced (bs : List UInt8) (blockSize : Nat) : Nat :=
  match (optionsAt (ascii "blksize") bs).getLast? with
  | some i => simpleStrtoul (bs.drop (i + 8)) 10 % 2 ^ 16
  | none => blockSize

theorem strcmpAt_eq {name : CStr} (hName : 0 ∉ name)
    (hLen : name.length < text.length) : strcmpAt text name = some (named name text) := by
  induction name generalizing text with
  | nil =>
      cases text with
      | nil => simp at hLen
      | cons c cs => simp [strcmpAt, named, List.isPrefixOf, Bool.beq_eq_decide_eq, eq_comm]
  | cons x xs ih =>
      cases text with
      | nil => simp at hLen
      | cons c cs =>
          rw [List.mem_cons, not_or] at hName
          by_cases hSame : c = x
          · subst hSame
            simp [strcmpAt, named, ih hName.2 (by simpa using hLen)]
          · have hOther : (x == c) = false := beq_false_of_ne (Ne.symm hSame)
            simp [strcmpAt, named, List.isPrefixOf, hSame, hOther]

theorem digitsAt_eq (base : Nat) (text : List UInt8) (r : Nat) :
    digitsAt base text r = if ∃ c ∈ text, ¬(isXDigit c = true ∧ digitValue c < base) then
      some (strtoulDigits base text r) else none := by
  induction text generalizing r with
  | nil => simp [digitsAt]
  | cons c cs ih =>
      rw [digitsAt, strtoulDigits]
      by_cases hDigit : isXDigit c = true ∧ digitValue c < base
      · have hRest : (∃ d ∈ c :: cs, ¬(isXDigit d = true ∧ digitValue d < base)) ↔
            ∃ d ∈ cs, ¬(isXDigit d = true ∧ digitValue d < base) := by
          grind
        rw [if_pos hDigit, if_pos hDigit, ih]
        simp only [hRest]
      · rw [if_neg hDigit, if_neg hDigit, if_pos ⟨c, List.mem_cons_self, hDigit⟩]

theorem digitsAt_decimal (text : List UInt8) (r : Nat) :
    digitsAt 10 text r = if ∃ c ∈ text, isDigit c = false then some (strtoulDigits 10 text r)
      else none := by
  simp only [digitsAt_eq, isDigit_iff, Bool.not_eq_true]

theorem digitsAt_hex (text : List UInt8) (r : Nat) :
    digitsAt 16 text r = if ∃ c ∈ text, isXDigit c = false then some (strtoulDigits 16 text r)
      else none := by
  have hBase : ∀ c, isXDigit c = true ∧ digitValue c < 16 ↔ isXDigit c = true :=
    fun c => and_iff_left_of_imp digitValue_lt
  simp only [digitsAt_eq, hBase, Bool.not_eq_true]

theorem simpleStrtoul_hex (h : hexText text = true) :
    simpleStrtoul text 10 = strtoulDigits 16 (text.drop 2) 0 := by
  unfold hexText at h
  split at h
  · simp [simpleStrtoul, h]
  · simp at h

theorem digits_leading_zero (cs : List UInt8) :
    strtoulDigits 10 (48 :: cs) 0 = strtoulDigits 10 cs 0 ∧
      digitsAt 10 (48 :: cs) 0 = digitsAt 10 cs 0 :=
  ⟨rfl, rfl⟩

theorem simpleStrtoul_plain (h : hexText text = false) :
    simpleStrtoul text 10 = strtoulDigits 10 text 0 := by
  unfold simpleStrtoul
  split
  · rename_i d ds
    simp only [hexText] at h
    simp [h, digits_leading_zero]
  · simp [digits_leading_zero]
  · rfl

theorem strtoulAt_hex (h : hexText text = true) :
    strtoulAt text = digitsAt 16 (text.drop 2) 0 := by
  unfold hexText at h
  split at h
  · simp [strtoulAt, h]
  · simp at h

theorem strtoulAt_plain (h : hexText text = false) (hText : text ≠ ascii "0x") :
    strtoulAt text = digitsAt 10 text 0 := by
  match text with
  | [] => rfl
  | [c] =>
      by_cases hc : c = 48
      · subst hc
        rfl
      · simp [strtoulAt, hc]
  | c :: x :: ds =>
      by_cases hc : c = 48
      · subst hc
        by_cases hx : x = 120
        · subst hx
          cases ds with
          | nil => exact absurd rfl hText
          | cons d ds =>
              simp only [hexText] at h
              simp [strtoulAt, h, digits_leading_zero]
        · simp [strtoulAt, hx, digits_leading_zero]
      · simp [strtoulAt, hc]

theorem strtoulAt_eq (text : List UInt8) :
    strtoulAt text = if NumberEnds text then some (simpleStrtoul text 10) else none := by
  cases hHex : hexText text with
  | true =>
      grind [strtoulAt_hex, simpleStrtoul_hex, digitsAt_hex, NumberEnds]
  | false =>
      by_cases hText : text = ascii "0x"
      · subst hText
        rfl
      · grind [strtoulAt_plain, simpleStrtoul_plain, digitsAt_decimal, NumberEnds]

def OptionEnds (withTsize : Bool) (bs : List UInt8) (i : Nat) : Prop :=
  (named (ascii "blksize") (bs.drop i) = true → NumberEnds (bs.drop (i + 8))) ∧
    (withTsize = true → named (ascii "tsize") (bs.drop i) = true → NumberEnds (bs.drop (i + 6)))

instance decidableOptionEnds (withTsize : Bool) (bs : List UInt8) :
    DecidablePred (OptionEnds withTsize bs) :=
  fun _ => inferInstanceAs (Decidable (_ ∧ _))

def takeOption (withTsize : Bool) (bs : List UInt8) (o : OackOptions) (i : Nat) : OackOptions where
  blockSize :=
    if named (ascii "blksize") (bs.drop i) then simpleStrtoul (bs.drop (i + 8)) 10 % 2 ^ 16
    else o.blockSize
  tsize :=
    if withTsize && named (ascii "tsize") (bs.drop i) then
      Int.bmod (simpleStrtoul (bs.drop (i + 6)) 10) (2 ^ 32)
    else o.tsize

theorem oackOption_eq (withTsize : Bool) {bs : List UInt8} (o : OackOptions) {i : Nat}
    (hi : i + 8 < bs.length) :
    oackOption withTsize bs o i =
      if OptionEnds withTsize bs i then some (takeOption withTsize bs o i) else none := by
  have hBlksize := @strcmpAt_eq (bs.drop i) (ascii "blksize") (by decide)
    (by rw [List.length_drop]; exact Nat.lt_sub_of_add_lt (by simp [ascii]; omega))
  have hTsize := @strcmpAt_eq (bs.drop i) (ascii "tsize") (by decide)
    (by rw [List.length_drop]; exact Nat.lt_sub_of_add_lt (by simp [ascii]; omega))
  simp only [oackOption, hBlksize, hTsize, strtoulAt_eq, takeOption]
  by_cases hSize : NumberEnds (bs.drop (i + 8)) <;> by_cases hTotal : NumberEnds (bs.drop (i + 6))
  all_goals
    cases hName : named (ascii "blksize") (bs.drop i) <;>
      cases hName' : named (ascii "tsize") (bs.drop i) <;>
      cases withTsize <;> simp [OptionEnds, hSize, hTotal, hName, hName']

theorem oackScan_eq (withTsize : Bool) (bs : List UInt8) (o : OackOptions) :
    oackScan withTsize bs o = if ∀ i ∈ List.range (bs.length - 8), OptionEnds withTsize bs i then
      some ((List.range (bs.length - 8)).foldl (takeOption withTsize bs) o) else none := by
  refine @Lists.foldlM_of_ite _ _ (oackOption withTsize bs) _ _ _ _ (fun i hi o => ?_) o
  have := List.mem_range.mp hi
  exact oackOption_eq withTsize o (by omega)

theorem blockSize_foldl (withTsize : Bool) (bs : List UInt8) (is : List Nat) (o : OackOptions) :
    (is.foldl (takeOption withTsize bs) o).blockSize =
      is.foldl (fun size i => if named (ascii "blksize") (bs.drop i) then
        simpleStrtoul (bs.drop (i + 8)) 10 % 2 ^ 16 else size) o.blockSize := by
  induction is generalizing o with
  | nil => rfl
  | cons i is ih => exact ih _

theorem blockSize_oackScan {withTsize : Bool} {bs : List UInt8} {o o' : OackOptions}
    (h : oackScan withTsize bs o = some o') : o'.blockSize = announced bs o.blockSize := by
  rw [oackScan_eq] at h
  split at h
  · rw [← Option.some.inj h, blockSize_foldl, Lists.foldl_last, announced, optionsAt]
    grind
  · simp at h

theorem forall_optionEnds_iff (withTsize : Bool) (bs : List UInt8) :
    (∀ i ∈ List.range (bs.length - 8), OptionEnds withTsize bs i) ↔
      (∀ i ∈ optionsAt (ascii "blksize") bs, NumberEnds (bs.drop (i + 8))) ∧
        (withTsize = true → ∀ i ∈ optionsAt (ascii "tsize") bs, NumberEnds (bs.drop (i + 6))) := by
  simp only [optionsAt, List.mem_filter, OptionEnds]
  constructor
  · grind
  · grind

theorem strtoulDigits_append {base : Nat} {r : Nat} (rest : List UInt8)
    (h : ∃ c ∈ text, ¬(isXDigit c = true ∧ digitValue c < base)) :
    strtoulDigits base (text ++ rest) r = strtoulDigits base text r := by
  induction text generalizing r with
  | nil => simp at h
  | cons c cs ih =>
      rw [List.cons_append, strtoulDigits, strtoulDigits]
      by_cases hDigit : isXDigit c = true ∧ digitValue c < base
      · grind
      · rw [if_neg hDigit, if_neg hDigit]

theorem hexText_append (rest : List UInt8) (h : NumberEnds text) :
    hexText (text ++ rest) = hexText text := by
  have hZero : isDigit 48 = true := by decide
  match text with
  | [] => simp [NumberEnds, hexText] at h
  | [c] =>
      have hc : c ≠ 48 := by
        grind [NumberEnds]
      simp [hexText, hc]
  | [c, x] =>
      by_cases hc : c = 48
      · have hx : x ≠ 120 := by
          rintro rfl
          subst hc
          exact absurd h (by decide)
        simp [hexText, hx]
      · simp [hexText, hc]
  | c :: x :: d :: ds =>
      by_cases hc : c = 48 <;> by_cases hx : x = 120 <;> simp [hexText, hc, hx]

theorem simpleStrtoul_append (rest : List UInt8) (h : NumberEnds text) :
    simpleStrtoul (text ++ rest) 10 = simpleStrtoul text 10 := by
  have hSame := hexText_append rest h
  unfold NumberEnds at h
  cases hHex : hexText text with
  | true =>
      rw [hHex] at hSame h
      obtain ⟨c, hMem, hEnd⟩ := h
      have hLong : 2 ≤ text.length := by
        grind [List.length_pos_of_mem, List.length_drop]
      grind [simpleStrtoul_hex, strtoulDigits_append]
  | false =>
      grind [simpleStrtoul_plain, strtoulDigits_append, isDigit_iff]

/-- As far as the scan stays inside the packet, what stands behind it has no influence. -/
theorem tftpHandler_eq_tftpOack {withTsize : Bool} {c : Client} {tsize : Int} {pkt : Mem}
    {dest port len : Nat} {result : Client × List Output} (hDest : dest = c.ourPort)
    (hPort : c.tftpState = .sendRrq ∨ port = c.remotePort) (hLen : 2 ≤ len) (hMax : len ≤ 2048)
    (hProto : readBE16 pkt 0 = 6)
    (h : tftpOack withTsize c tsize port (load pkt 2 (len - 2)) = some result) :
    tftpHandler c pkt dest port len = result := by
  rw [tftpOack, Option.map_eq_some_iff] at h
  obtain ⟨o, hScan, rfl⟩ := h
  have hEnds : ∀ i ∈ List.range (len - 2 - 8), OptionEnds withTsize (load pkt 2 (len - 2)) i := by
    by_contra hNot
    rw [oackScan_eq, length_load, if_neg hNot] at hScan
    simp at hScan
  have hSize : oackBlockSize pkt 2 (len - 2) c.blockSize = o.blockSize := by
    have hFold := blockSize_foldl withTsize (load pkt 2 (len - 2)) (List.range (len - 2 - 8))
      ⟨c.blockSize, tsize⟩
    rw [oackScan_eq, length_load, if_pos hEnds] at hScan
    rw [← Option.some.inj hScan, hFold, oackBlockSize]
    refine List.foldl_ext _ _ _ fun size i hi => ?_
    have hIn : i + 8 < len - 2 := by
      have := List.mem_range.mp hi
      omega
    have hName : isBlksize pkt (2 + i) =
        named (ascii "blksize") ((load pkt 2 (len - 2)).drop i) := by
      rw [Bool.eq_iff_iff, isBlksize, named, decide_eq_true_iff, List.isPrefixOf_iff_prefix,
        List.prefix_iff_eq_take, eq_comm, ← @load_take_drop pkt 2 (len - 2) i 8 (by omega)]
      rfl
    rw [hName]
    split
    · rename_i hIs
      have hNumber := (hEnds i hi).1 hIs
      rw [load_drop pkt 2 (by omega)] at hNumber ⊢
      have hMore : 2048 = (len - 2 - (i + 8)) + (2048 - (len - 2 - (i + 8))) := by omega
      rw [numberAt, hMore, load_add, Nat.add_assoc 2 i 8, simpleStrtoul_append _ hNumber]
    · rfl
  rw [tftpHandler, if_neg (by simp [hDest]), if_neg (by tauto), if_neg (by omega)]
  simp only [hProto, if_true, hSize]

/-- An OACK is read inside the packet and leaves a block size that was asked for exactly when
every number it has is ended inside the packet and the last block size is one that may be
announced. -/
theorem tftp_oack_safe_iff (withTsize : Bool) (c : Client) (tsize : Int) (port : Nat)
    (bs : List UInt8) (requested : Nat) :
    (∃ c' sent, tftpOack withTsize c tsize port bs = some (c', sent) ∧
      1 ≤ c'.blockSize ∧ c'.blockSize ≤ requested) ↔
      (∀ i ∈ optionsAt (ascii "blksize") bs, NumberEnds (bs.drop (i + 8))) ∧
        (withTsize = true → ∀ i ∈ optionsAt (ascii "tsize") bs, NumberEnds (bs.drop (i + 6))) ∧
        1 ≤ announced bs c.blockSize ∧ announced bs c.blockSize ≤ requested := by
  rw [← and_assoc, ← forall_optionEnds_iff]
  constructor
  · rintro ⟨c', sent, hOack, hRange⟩
    rw [tftpOack, Option.map_eq_some_iff] at hOack
    obtain ⟨o, hScan, hClient⟩ := hOack
    have hSize : c'.blockSize = o.blockSize := (congrArg (·.1.blockSize) hClient).symm
    rw [hSize, blockSize_oackScan hScan] at hRange
    refine ⟨?_, hRange⟩
    by_contra hEnds
    rw [oackScan_eq, if_neg hEnds] at hScan
    simp at hScan
  · rintro ⟨hEnds, hRange⟩
    have hScan := oackScan_eq withTsize bs ⟨c.blockSize, tsize⟩
    rw [if_pos hEnds] at hScan
    have hSize := blockSize_oackScan hScan
    refine ⟨_, _, by rw [tftpOack, hScan]; rfl, ?_⟩
    simp only [hSize]
    exact hRange

def requesting : Client :=
  { tftpState := .sendRrq, curBlock := 0, prevBlock := 0, blockWrap := 0, blockWrapOffset := 0,
    blockSize := 512, remotePort := 69, ourPort := 1024, timeoutCount := 0, timeoutCountMax := 10,
    tftpTimeoutCountMax := 10, netBootFileSize := 0, netState := .netloopContinue, mem := zero }

def blksizeOack (value : List UInt8) : List UInt8 := ascii "blksize" ++ [0] ++ value

example : (tftpOack true requesting 0 4000 (blksizeOack (ascii "1468" ++ [0]))).map (·.1.blockSize) =
    some 1468 := by
  decide +kernel

theorem tftpHandler_blksize_oack :
    let pkt := store (fun _ => 57) 0 (0 :: 6 :: blksizeOack (ascii "1468" ++ [0]))
    (tftpHandler requesting pkt 1024 4000 15).1.blockSize = 1468 := by
  intro pkt
  have hScan : (tftpOack true requesting 0 4000 (load pkt 2 13)).map (·.1.blockSize) = some 1468 := by
    decide +kernel
  obtain ⟨result, hResult, hSize⟩ := Option.map_eq_some_iff.mp hScan
  have hHandler : tftpHandler requesting pkt 1024 4000 15 = result :=
    tftpHandler_eq_tftpOack rfl (.inl rfl) (by decide) (by decide) (by decide +kernel) hResult
  exact hHandler ▸ hSize

/-- Block sizes of zero and above the one asked for are taken, and a value without its
terminator is read on behind the packet. -/
theorem oack_blksize_unchecked :
    (tftpOack false requesting 0 4000 (blksizeOack (ascii "0" ++ [0]))).map (·.1.blockSize) = some 0 ∧
      (tftpOack false requesting 0 4000 (blksizeOack (ascii "65464" ++ [0]))).map (·.1.blockSize) =
        some 65464 ∧
      (tftpOack false requesting 0 4000 (blksizeOack (ascii "512"))).isNone = true := by
  decide +kernel

end Fire3.Tftp

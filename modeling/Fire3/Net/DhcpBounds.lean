import Fire3.Net.DhcpOptions

/-!
Which packets the option parsers of `net/bootp.c` read without leaving the received
bytes. `dhcp_process_options` always ends, at an address that is computed from a
constant; `dhcp_message_type` ends where the bytes behind the packet let it.
-/

namespace Fire3.Bootp
open ByteMemory

variable {pkt : Mem} {a len fuel popt stop field size : Nat} {s s' : Parse}

inductive Framed (pkt : Mem) (len stop : Nat) : Nat → Prop where
  | done {p : Nat} : stop ≤ p → Framed pkt len stop p
  | finish {p : Nat} : p < len → pkt p = 0xff → Framed pkt len stop p
  | option {p : Nat} : p + 2 + valueSize pkt p ≤ len → pkt p ≠ 0xff →
      Framed pkt len stop (nextOption pkt p) → Framed pkt len stop p

/-- The options from `p` on, up to a message type or an end mark, among the first `len` bytes. -/
inductive Scanned (pkt : Mem) (len : Nat) : Nat → Prop where
  | finish {p : Nat} : p < len → pkt p = 0xff → Scanned pkt len p
  | found {p : Nat} : p + 2 < len → pkt p = 53 → Scanned pkt len p
  | pad {p : Nat} : p < len → pkt p = 0 → Scanned pkt len (p + 1) → Scanned pkt len p
  | option {p : Nat} : p + 1 < len → pkt p ≠ 0xff → pkt p ≠ 53 → pkt p ≠ 0 →
      Scanned pkt len (p + (oplen pkt p + 2)) → Scanned pkt len p

def Inside (len : Nat) (reads : List Nat) : Prop := ∀ a ∈ reads, a < len

theorem inside_append {as bs : List Nat} : Inside len (as ++ bs) ↔ Inside len as ∧ Inside len bs :=
  List.forall_mem_append

theorem inside_singleton : Inside len [a] ↔ a < len := by
  simp [Inside]

theorem inside_pair {k : Nat} : Inside len [a, a + k] ↔ a + k < len := by
  have hSplit : Inside len [a, a + k] ↔ a < len ∧ Inside len [a + k] := List.forall_mem_cons
  rw [hSplit, inside_singleton]
  omega

theorem inside_range' {n : Nat} (hn : 0 < n) : Inside len (List.range' a n) ↔ a + n ≤ len := by
  simp only [Inside, List.mem_range'_1]
  constructor
  · intro h
    have := h (a + n - 1) (by omega)
    omega
  · intro h x hx
    omega

theorem inside_option :
    Inside len (popt :: optionReads pkt popt) ↔ popt + 2 + valueSize pkt popt ≤ len := by
  have hSplit : Inside len (popt :: optionReads pkt popt) ↔
      popt < len ∧ Inside len (optionReads pkt popt) := List.forall_mem_cons
  grind [optionReads, inside_range']

section
variable {p : Nat}

theorem framed_finish (hIn : p < stop) (hEnd : pkt p = 0xff) :
    Framed pkt len stop p ↔ p < len := by
  refine ⟨fun h => ?_, fun hLt => .finish hLt hEnd⟩
  cases h with
  | done hStop => omega
  | finish hLt _ => exact hLt
  | option _ hNot _ => exact absurd hEnd hNot

theorem framed_option (hIn : p < stop) (hOption : pkt p ≠ 0xff) :
    Framed pkt len stop p ↔
      p + 2 + valueSize pkt p ≤ len ∧ Framed pkt len stop (nextOption pkt p) := by
  refine ⟨fun h => ?_, fun h => .option h.1 hOption h.2⟩
  cases h with
  | done hStop => omega
  | finish _ hEnd => exact absurd hEnd hOption
  | option hLen _ hRest => exact ⟨hLen, hRest⟩

theorem scanned_finish (hEnd : pkt p = 0xff) : Scanned pkt len p ↔ p < len := by
  refine ⟨fun h => ?_, fun hLt => .finish hLt hEnd⟩
  cases h with
  | finish hLt _ | pad hLt _ _ => exact hLt
  | found hLt _ | option hLt _ _ _ _ => omega

theorem scanned_found (hType : pkt p = 53) : Scanned pkt len p ↔ p + 2 < len := by
  refine ⟨fun h => ?_, fun hLt => .found hLt hType⟩
  cases h with
  | finish _ hEnd | pad _ hEnd _ =>
      grind
  | found hLt _ => exact hLt
  | option _ _ hNot _ _ => exact absurd hType hNot

theorem scanned_pad (hPad : pkt p = 0) :
    Scanned pkt len p ↔ p < len ∧ Scanned pkt len (p + 1) := by
  refine ⟨fun h => ?_, fun h => .pad h.1 hPad h.2⟩
  cases h with
  | finish _ hNot | found _ hNot =>
      grind
  | pad hLt _ hRest => exact ⟨hLt, hRest⟩
  | option _ _ _ hNot _ => exact absurd hPad hNot

theorem scanned_option (hEnd : pkt p ≠ 0xff) (hType : pkt p ≠ 53) (hPad : pkt p ≠ 0) :
    Scanned pkt len p ↔ p + 1 < len ∧ Scanned pkt len (p + (oplen pkt p + 2)) := by
  refine ⟨fun h => ?_, fun h => .option h.1 hEnd hType hPad h.2⟩
  cases h with
  | finish _ hNot => exact absurd hNot hEnd
  | found _ hNot => exact absurd hNot hType
  | pad _ hNot _ => exact absurd hNot hPad
  | option hLt _ _ _ hRest => exact ⟨hLt, hRest⟩

end

theorem nextOption_gt (pkt : Mem) (popt : Nat) : popt < nextOption pkt popt := by
  unfold nextOption
  split <;> omega

theorem dhcpProcessOptions_ends (pkt : Mem) (hFuel : stop - popt < fuel) (s : Parse) :
    (dhcpProcessOptions pkt stop fuel popt s).isSome := by
  induction fuel generalizing popt s with
  | zero => omega
  | succ fuel ih =>
      have hNext := nextOption_gt pkt popt
      rw [dhcpProcessOptions]
      split
      · grind
      · rfl

theorem dhcpProcessOptions_mono {fuel' : Nat} (hFuel : fuel ≤ fuel')
    (h : dhcpProcessOptions pkt stop fuel popt s = some s') :
    dhcpProcessOptions pkt stop fuel' popt s = some s' := by
  induction fuel generalizing fuel' popt s with
  | zero => simp [dhcpProcessOptions] at h
  | succ fuel ih =>
      obtain ⟨fuel', rfl⟩ : ∃ n, fuel' = n + 1 := ⟨fuel' - 1, by omega⟩
      rw [dhcpProcessOptions] at h ⊢
      split at h
      · rename_i hIn
        rw [if_pos hIn]
        split at h
        · grind
        · grind
      · grind

theorem dhcpProcessOptions_fits (hFits : s.params.Fits)
    (h : dhcpProcessOptions pkt stop fuel popt s = some s') : s'.params.Fits := by
  induction fuel generalizing popt s with
  | zero => simp [dhcpProcessOptions] at h
  | succ fuel ih =>
      rw [dhcpProcessOptions] at h
      split at h
      · split at h
        · cases h
          exact hFits
        · exact ih (hFits.applyOption pkt popt) h
      · cases h
        exact hFits

theorem dhcpProcessOptions_inside (h : dhcpProcessOptions pkt stop fuel popt s = some s') :
    Inside len s'.reads ↔ Inside len s.reads ∧ Framed pkt len stop popt := by
  induction fuel generalizing popt s with
  | zero => simp [dhcpProcessOptions] at h
  | succ fuel ih =>
      rw [dhcpProcessOptions] at h
      split at h
      · rename_i hIn
        split at h
        · grind [Parse.read, inside_append, inside_singleton, framed_finish]
        · rename_i hOption
          rw [ih h, inside_append, inside_option, and_assoc, framed_option hIn hOption]
      · rename_i hStop
        cases h
        exact (and_iff_left (.done (by omega))).symm

theorem scanType_inside {reads : List Nat} {r : Int × List Nat}
    (h : scanType pkt fuel popt reads = some r) :
    Inside len r.2 ↔ Inside len reads ∧ Scanned pkt len popt := by
  induction fuel generalizing popt reads with
  | zero => simp [scanType] at h
  | succ fuel ih =>
      rw [scanType] at h
      split at h
      · grind [inside_append, inside_singleton, scanned_finish]
      · rename_i hEnd
        split at h
        · grind [inside_append, inside_pair, scanned_found]
        · rename_i hType
          split at h
          · rename_i hPad
            rw [ih h, inside_append, inside_singleton, and_assoc, scanned_pad hPad]
          · rename_i hPad
            rw [ih h, inside_append, inside_pair, and_assoc, scanned_option hEnd hType hPad]

theorem scanType_ends (h : Scanned pkt len popt) (reads : List Nat) :
    ∃ fuel r, scanType pkt fuel popt reads = some r := by
  induction h generalizing reads with
  | finish _ hEnd => exact ⟨1, _, by rw [scanType, if_pos hEnd]⟩
  | @found p _ hType =>
      exact ⟨1, _, by rw [scanType, if_neg (by rw [hType]; decide), if_pos hType]⟩
  | @pad p _ hPad _ ih =>
      obtain ⟨fuel, r, hRest⟩ := ih (reads ++ [p])
      refine ⟨fuel + 1, r, ?_⟩
      rw [scanType, if_neg (by rw [hPad]; decide), if_neg (by rw [hPad]; decide), if_pos hPad, hRest]
  | @option p _ hEnd hType hPad _ ih =>
      obtain ⟨fuel, r, hRest⟩ := ih (reads ++ [p, p + 1])
      exact ⟨fuel + 1, r, by rw [scanType, if_neg hEnd, if_neg hType, if_neg hPad, hRest]⟩

theorem messageType_inside_iff :
    (∃ fuel r, dhcpMessageType pkt fuel bpVend = some r ∧ Inside len r.2) ↔
      bpVend + 4 ≤ len ∧ (load pkt bpVend 4 = bootpVendorMagic → Scanned pkt len (bpVend + 4)) := by
  have hHead : Inside len (List.range' bpVend 4) ↔ bpVend + 4 ≤ len := inside_range' (by decide)
  by_cases hMagic : load pkt bpVend 4 = bootpVendorMagic
  · simp only [dhcpMessageType, hMagic, ne_eq, not_true_eq_false, if_false, true_implies]
    constructor
    · rintro ⟨fuel, r, hScan, hInside⟩
      grind [scanType_inside]
    · rintro ⟨hLen, hScanned⟩
      obtain ⟨fuel, r, hScan⟩ := scanType_ends hScanned (List.range' bpVend 4)
      grind [scanType_inside]
  · simp only [dhcpMessageType, hMagic, ne_eq, not_false_eq_true, if_true, false_implies, and_true]
    constructor
    · grind
    · simp_all

def processed (pkt : Mem) (stop popt : Nat) (s : Parse) : Parse :=
  (dhcpProcessOptions pkt stop (stop - popt + 1) popt s).getD s

theorem dhcpProcessOptions_eq (h : dhcpProcessOptions pkt stop fuel popt s = some s') :
    s' = processed pkt stop popt s := by
  obtain ⟨t, hEnds⟩ := Option.isSome_iff_exists.mp
    (dhcpProcessOptions_ends pkt (Nat.lt_succ_self (stop - popt)) s)
  have hSame := dhcpProcessOptions_mono (Nat.le_add_right fuel (stop - popt + 1)) h
  rw [dhcpProcessOptions_mono (Nat.le_add_left _ fuel) hEnds, Option.some.injEq] at hSame
  rw [processed, hEnds, Option.getD_some, hSame]

def afterOptions (pkt : Mem) (s : Params) : Parse :=
  processed pkt (bpVend + 4 + bootpHdrSize) (bpVend + 4) ⟨{ s with optionOverload := 0 }, magicReads⟩

def afterFile (pkt : Mem) (s : Params) : Parse :=
  let t := afterOptions pkt s
  if t.params.optionOverload &&& overloadFile ≠ 0 then processed pkt (bpFile + 128) bpFile t else t

theorem processOverload_inside {flag : UInt8}
    (h : processOverload pkt flag field size fuel s = some s') :
    Inside len s'.reads ↔ Inside len s.reads ∧
      (s.params.optionOverload &&& flag ≠ 0 → Framed pkt len (field + size) field) := by
  unfold processOverload at h
  split at h
  · rename_i hFlag
    rw [dhcpProcessOptions_inside h]
    grind
  · grind

theorem processOverload_fits {flag : UInt8} (hFits : s.params.Fits)
    (h : processOverload pkt flag field size fuel s = some s') : s'.params.Fits := by
  unfold processOverload at h
  grind [dhcpProcessOptions_fits]

theorem processOverload_ends (pkt : Mem) (flag : UInt8) (hFuel : size < fuel)
    (s : Parse) : ∃ s', processOverload pkt flag field size fuel s = some s' := by
  unfold processOverload
  split
  · exact Option.isSome_iff_exists.mp (dhcpProcessOptions_ends pkt (by omega) s)
  · exact ⟨s, rfl⟩

theorem packet_passes (hMagic : load pkt bpVend 4 = bootpVendorMagic) {s : Params} :
    dhcpPacketProcessOptions pkt fuel ⟨s, []⟩ = some s' ↔
      ∃ t u, dhcpProcessOptions pkt (bpVend + 4 + bootpHdrSize) fuel (bpVend + 4)
          ⟨{ s with optionOverload := 0 }, magicReads⟩ = some t ∧
        processOverload pkt overloadFile bpFile 128 fuel t = some u ∧
        processOverload pkt overloadSname bpSname 64 fuel u = some s' := by
  simp only [dhcpPacketProcessOptions, hMagic, ne_eq, not_true_eq_false, if_false, Parse.read,
    List.nil_append, Option.bind_eq_bind, Option.bind_eq_some_iff]
  constructor
  · grind
  · grind

theorem afterFile_eq {s : Params} {u : Parse}
    (h : processOverload pkt overloadFile bpFile 128 fuel (afterOptions pkt s) = some u) :
    u = afterFile pkt s := by
  unfold processOverload at h
  unfold afterFile
  dsimp only
  split at h
  · rename_i hFlag
    rw [if_pos hFlag]
    exact dhcpProcessOptions_eq h
  · rename_i hFlag
    rw [if_neg hFlag]
    exact (Option.some.inj h).symm

/-- The fields of a packet with the magic number, framed as far as they are parsed. -/
structure FieldsFramed (pkt : Mem) (len : Nat) (s : Params) : Prop where
  options : Framed pkt len (bpVend + 4 + bootpHdrSize) (bpVend + 4)
  file : (afterOptions pkt s).params.optionOverload &&& overloadFile ≠ 0 →
    Framed pkt len (bpFile + 128) bpFile
  sname : (afterFile pkt s).params.optionOverload &&& overloadSname ≠ 0 →
    Framed pkt len (bpSname + 64) bpSname

theorem packet_inside (hMagic : load pkt bpVend 4 = bootpVendorMagic) {s : Params}
    (h : dhcpPacketProcessOptions pkt fuel ⟨s, []⟩ = some s') :
    Inside len s'.reads ↔ bpVend + 4 ≤ len ∧ FieldsFramed pkt len s := by
  obtain ⟨t, u, hOptions, hFile, hSname⟩ := (packet_passes hMagic).mp h
  obtain rfl : t = afterOptions pkt s := dhcpProcessOptions_eq hOptions
  have hHead : Inside len magicReads ↔ bpVend + 4 ≤ len := inside_range' (by decide)
  rw [processOverload_inside hSname, processOverload_inside hFile, dhcpProcessOptions_inside hOptions,
    hHead, afterFile_eq hFile]
  constructor
  · rintro ⟨⟨⟨hLen, hFramed⟩, hFramedFile⟩, hFramedSname⟩
    exact ⟨hLen, hFramed, hFramedFile, hFramedSname⟩
  · rintro ⟨hLen, hFramed, hFramedFile, hFramedSname⟩
    grind

theorem packet_ends (pkt : Mem) (s : Params) :
    ∃ s', dhcpPacketProcessOptions pkt optionFuel ⟨s, []⟩ = some s' := by
  by_cases hMagic : load pkt bpVend 4 = bootpVendorMagic
  · obtain ⟨t, hOptions⟩ := Option.isSome_iff_exists.mp
      (dhcpProcessOptions_ends pkt
        (show bpVend + 4 + bootpHdrSize - (bpVend + 4) < optionFuel by decide)
        ⟨{ s with optionOverload := 0 }, magicReads⟩)
    obtain ⟨u, hFile⟩ := processOverload_ends pkt overloadFile (show 128 < optionFuel by decide) t
    obtain ⟨s', hSname⟩ := processOverload_ends pkt overloadSname (show 64 < optionFuel by decide) u
    exact ⟨s', (packet_passes hMagic).mpr ⟨t, u, hOptions, hFile, hSname⟩⟩
  · exact ⟨_, by rw [dhcpPacketProcessOptions, if_pos hMagic]⟩

theorem packet_fits {s : Params} (hFits : s.Fits)
    (h : dhcpPacketProcessOptions pkt fuel ⟨s, []⟩ = some s') : s'.params.Fits := by
  by_cases hMagic : load pkt bpVend 4 = bootpVendorMagic
  · have hStart : ({ s with optionOverload := 0 } : Params).Fits :=
      ⟨hFits.hostname, hFits.rootPath, hFits.bootFileName⟩
    obtain ⟨t, u, hOptions, hFile, hSname⟩ := (packet_passes hMagic).mp h
    exact processOverload_fits (processOverload_fits (dhcpProcessOptions_fits hStart hOptions) hFile)
      hSname
  · rw [dhcpPacketProcessOptions, if_pos hMagic] at h
    cases h
    exact hFits

/-- Both parsers end, read received bytes only and keep to the text buffers. -/
structure ParsedInside (pkt : Mem) (len : Nat) (s : Params) : Prop where
  messageType : ∃ fuel r, dhcpMessageType pkt fuel bpVend = some r ∧ Inside len r.2
  options : ∃ fuel s', dhcpPacketProcessOptions pkt fuel ⟨s, []⟩ = some s' ∧
    Inside len s'.reads ∧ s'.params.Fits

theorem parsedInside_iff {s : Params} (hFits : s.Fits) :
    ParsedInside pkt len s ↔ bpVend + 4 ≤ len ∧ (load pkt bpVend 4 = bootpVendorMagic →
      Scanned pkt len (bpVend + 4) ∧ FieldsFramed pkt len s) := by
  constructor
  · rintro ⟨hType, fuel, s', hRun, hInside, -⟩
    grind [messageType_inside_iff, packet_inside]
  · rintro ⟨hLen, hFields⟩
    obtain ⟨s', hRun⟩ := packet_ends pkt s
    refine ⟨messageType_inside_iff.mpr ⟨hLen, fun hMagic => (hFields hMagic).1⟩,
      optionFuel, s', hRun, ?_, packet_fits hFits hRun⟩
    by_cases hMagic : load pkt bpVend 4 = bootpVendorMagic
    · grind [packet_inside]
    · rw [dhcpPacketProcessOptions, if_pos hMagic] at hRun
      cases hRun
      exact (inside_range' (by decide)).mpr hLen

/-- An accepted packet is parsed inside its bytes exactly when it has room for the magic number
and, with the magic number, all fields that are parsed are framed. -/
theorem dhcp_parsed_inside_iff {ids : IdCache} {pkt : Mem} {dest src len : Nat}
    (_accepted : checkReplyPacket ids pkt dest src len = 0) {s : Params} (hFits : s.Fits) :
    ParsedInside pkt len s ↔ bpVend + 4 ≤ len ∧ (load pkt bpVend 4 = bootpVendorMagic →
      Scanned pkt len (bpVend + 4) ∧ FieldsFramed pkt len s) :=
  parsedInside_iff hFits

def reply (options : List UInt8) : List UInt8 :=
  [2, 1, 6, 0, 1, 0, 0, 0] ++ List.replicate 228 0 ++ bootpVendorMagic ++ options

def oneId : IdCache := { ids := [1, 0, 0, 0], num := 1, length_ids := rfl, num_le := by decide }

def noParams : Params :=
  { netmask := 0, gateway := 0, dnsServer := 0, leasetime := 0, optionOverload := 0, serverIp := 0,
    hostname := List.replicate 32 0, rootPath := List.replicate 64 0,
    bootFileName := List.replicate 1024 0 }

theorem noParams_fits : noParams.Fits := ⟨rfl, rfl, List.length_replicate⟩

def offer : Mem := store zero 0 (reply [53, 1, 2, 1, 4, 255, 255, 255, 0, 255])

theorem dhcp_parsed_inside_iff_offer :
    checkReplyPacket oneId offer 68 67 250 = 0 ∧ ParsedInside offer 250 noParams := by
  have hAccepted : checkReplyPacket oneId offer 68 67 250 = 0 := by decide +kernel
  have hFramed : Framed offer 250 (bpVend + 4 + bootpHdrSize) (bpVend + 4) := by
    refine .option (by decide +kernel) (by decide +kernel) ?_
    refine .option (by decide +kernel) (by decide +kernel) ?_
    exact .finish (by decide +kernel) (by decide +kernel)
  refine ⟨hAccepted, (dhcp_parsed_inside_iff hAccepted noParams_fits).mpr
    ⟨by decide, fun _ => ⟨.found (by decide) (by decide +kernel), hFramed, fun hFile => ?_,
      fun hSname => ?_⟩⟩⟩
  · exact absurd hFile (by decide +kernel)
  · exact absurd hSname (by decide +kernel)

def cutOff : Mem := store zero 0 (reply [53, 1, 2, 12, 31])

theorem dhcp_parsed_outside :
    checkReplyPacket oneId cutOff 68 67 245 = 0 ∧ noParams.Fits ∧
      ¬ParsedInside cutOff 245 noParams := by
  refine ⟨by decide +kernel, noParams_fits, fun hInside => ?_⟩
  have hFields := ((parsedInside_iff noParams_fits).mp hInside).2 (by decide +kernel)
  have hFirst := (framed_option (by decide) (by decide +kernel)).mp hFields.2.options
  have hSecond := (framed_option (by decide +kernel) (by decide +kernel)).mp hFirst.2
  exact absurd hSecond.1 (by decide +kernel)

end Fire3.Bootp

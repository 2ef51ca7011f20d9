import Fire3.ArmWrap.WellFormed

/-!
The symbol table of a wrapped file, read by the rules of ELF.

`add_symbol` stores the names one behind the other and the entries point at them,
so a reader finds every name again but the first: its offset is 0, and 0 means that
a symbol has no name.
-/

namespace Fire3.ArmWrap
open ByteMemory CString Records

def symbolName (strtab : List UInt8) (off : Nat) : Option CStr :=
  if off = 0 then none else some (ofArray (strtab.drop off))

def readSymbols (m : Mem) : List (Nat × Option CStr) :=
  match (sections m).find? (fun s => s.type = 2) with
  | none => []
  | some sy =>
      let strtab := (sections m)[sy.link]?.getD mkShdrNull
      let entries := (List.range (sy.size / sy.entsize)).map fun i =>
        symAt m (sy.offset + sy.entsize * i)
      entries.tail.map fun s => (s.value, symbolName (load m strtab.offset strtab.size) s.name)

abbrev Named := CStr × Nat

variable {syms : Symtab} {line : List UInt8} {ps : List Named}

def stringsOf (ps : List Named) : List UInt8 := ps.flatMap fun p => p.1 ++ [0]

def symsOf : Nat → List Named → List Sym
  | _, [] => []
  | off, p :: ps => funcSym off p.2 :: symsOf (off + (p.1.length + 1)) ps

/-- The table holds the symbols `ps`, in order, behind the null symbol. -/
structure Holds (syms : Symtab) (ps : List Named) : Prop where
  sym : syms.sym = nullSym :: symsOf 0 ps
  strings : syms.strings.buf = stringsOf ps

@[simp] theorem stringsOf_cons (p : Named) (ps : List Named) :
    stringsOf (p :: ps) = p.1 ++ 0 :: stringsOf ps := by
  simp [stringsOf]

@[simp] theorem stringsOf_append (ps qs : List Named) :
    stringsOf (ps ++ qs) = stringsOf ps ++ stringsOf qs := by
  simp [stringsOf]

theorem symsOf_append (off : Nat) (ps qs : List Named) :
    symsOf off (ps ++ qs) = symsOf off ps ++ symsOf (off + (stringsOf ps).length) qs := by
  induction ps generalizing off with
  | nil => rfl
  | cons p ps ih =>
      have hOff : off + (p.1.length + 1) + (stringsOf ps).length =
          off + (stringsOf (p :: ps)).length := by
        simp only [stringsOf_cons, List.length_append, List.length_cons]
        omega
      grind [symsOf]

@[simp] theorem length_symsOf (off : Nat) (ps : List Named) :
    (symsOf off ps).length = ps.length := by
  induction ps generalizing off with
  | nil => rfl
  | cons p ps ih => simp [symsOf, ih]

theorem holds_initSymbol : Holds initSymbol [] := ⟨rfl, rfl⟩

theorem addSymbol_holds {syms' : Symtab} {name : CStr} {addr : Nat}
    (h : addSymbol syms name addr = some syms') (hHolds : Holds syms ps) :
    Holds syms' (ps ++ [(name, addr)]) := by
  unfold addSymbol addString at h
  split at h
  · simp only [Option.bind_eq_bind, Option.bind_some] at h
    split at h
    · simp only [Option.some.injEq] at h
      subst h
      constructor
      · simp [hHolds.sym, hHolds.strings, symsOf_append, symsOf]
      · simp [hHolds.strings, stringsOf]
    · exact nomatch h
  · exact nomatch h

theorem addSymbol_isSome {name : CStr} {addr : Nat} (hHolds : Holds syms ps)
    (hCount : ps.length + 1 < maxSym) (hSize : (stringsOf (ps ++ [(name, addr)])).length ≤ pgsize) :
    ∃ syms', addSymbol syms name addr = some syms' := by
  have hStrings : (syms.strings.buf ++ (name ++ [0])).length ≤ pgsize := by
    rw [hHolds.strings]
    simpa [stringsOf] using hSize
  have hSym : ∀ ix, (syms.sym ++ [funcSym ix addr]).length ≤ maxSym := by
    intro ix
    rw [hHolds.sym]
    simp
    omega
  rw [addSymbol, addString, dif_pos hStrings]
  exact ⟨_, dif_pos (hSym _)⟩

theorem parseLine_plain {chars : List UInt8} {parsed : SymbolLine}
    (h : parseLine line chars = some parsed) : 0 ∉ parsed.name ∧ parsed.addr < 2 ^ 32 := by
  simp only [parseLine, Option.ite_none_left_eq_some, Option.ite_none_right_eq_some,
    Option.some.injEq] at h
  grind [zero_notMem_ofArray]

/-- What a run of the loop adds: a symbol for every line, and at least one unless the
file is at its end. -/
theorem loadLines_holds {fuel : Nat} {input : List UInt8} {syms' : Symtab}
    (h : loadLines fuel line input syms = some syms') (hHolds : Holds syms ps) :
    ∃ qs : List Named, Holds syms' (ps ++ qs) ∧ (∀ q ∈ qs, 0 ∉ q.1 ∧ q.2 < 2 ^ 32) ∧
      (0 < fuel → input ≠ [] → qs ≠ []) := by
  induction fuel generalizing line input syms ps with
  | zero =>
      rw [loadLines, Option.some.injEq] at h
      exact ⟨[], by rwa [List.append_nil, ← h], by simp, fun hFuel => absurd hFuel (Nat.lt_irrefl 0)⟩
  | succ fuel ih =>
      rw [loadLines] at h
      cases hRead : fgets input with
      | none =>
          simp only [hRead, Option.some.injEq] at h
          refine ⟨[], by rwa [List.append_nil, ← h], by simp, fun _ hInput => ?_⟩
          simp [fgets, hInput] at hRead
      | some r =>
          obtain ⟨chars, rest⟩ := r
          simp only [hRead, Option.bind_eq_bind, Option.bind_eq_some_iff] at h
          obtain ⟨parsed, hParse, next, hAdd, hLoop⟩ := h
          obtain ⟨qs, hNext, hQs, -⟩ := ih hLoop (addSymbol_holds hAdd hHolds)
          refine ⟨(parsed.name, parsed.addr) :: qs, by simpa using hNext, ?_, by simp⟩
          rw [List.forall_mem_cons]
          exact ⟨parseLine_plain hParse, hQs⟩

def recovered : List Named → List (Nat × Option CStr)
  | [] => []
  | p :: ps => (p.2, none) :: ps.map fun q => (q.2, some q.1)

theorem map_symsOf {pre post : List UInt8} {ps : List Named} (hPre : pre ≠ [])
    (hPlain : ∀ p ∈ ps, 0 ∉ p.1) :
    (symsOf pre.length ps).map
      (fun s => (s.value, symbolName (pre ++ (stringsOf ps ++ post)) s.name)) =
      ps.map fun p => (p.2, some p.1) := by
  induction ps generalizing pre with
  | nil => rfl
  | cons p ps ih =>
      rw [List.forall_mem_cons] at hPlain
      have hRest := @ih (pre ++ (p.1 ++ [0])) (by simp) hPlain.2
      have hName : symbolName (pre ++ (stringsOf (p :: ps) ++ post)) pre.length = some p.1 := by
        rw [symbolName, if_neg (by simpa using hPre), List.drop_left, stringsOf_cons,
          List.append_assoc, List.cons_append, ofArray_terminated hPlain.1]
      have hStrings : pre ++ (p.1 ++ [0]) ++ (stringsOf ps ++ post) =
          pre ++ (stringsOf (p :: ps) ++ post) := by simp
      have hLength : (pre ++ (p.1 ++ [0])).length = pre.length + (p.1.length + 1) := by simp
      rw [hStrings, hLength] at hRest
      rw [symsOf, List.map_cons, hRest, List.map_cons, funcSym, hName]

theorem map_symsOf_zero {post : List UInt8} (hPlain : ∀ p ∈ ps, 0 ∉ p.1) :
    (symsOf 0 ps).map (fun s => (s.value, symbolName (stringsOf ps ++ post) s.name)) =
      recovered ps := by
  cases ps with
  | nil => rfl
  | cons p ps =>
      rw [List.forall_mem_cons] at hPlain
      have hRest := @map_symsOf (p.1 ++ [0]) post ps (by simp) hPlain.2
      have hStrings : p.1 ++ [0] ++ (stringsOf ps ++ post) = stringsOf (p :: ps) ++ post := by simp
      have hLength : (p.1 ++ [0]).length = 0 + (p.1.length + 1) := by simp
      rw [hStrings, hLength] at hRest
      rw [symsOf, List.map_cons, hRest, recovered]
      rfl

theorem fits_symsOf {off : Nat} (hOff : off + (stringsOf ps).length < 256 ^ 4)
    (hAddr : ∀ p ∈ ps, p.2 < 2 ^ 32) : ∀ s ∈ symsOf off ps, Fits s.fields := by
  induction ps generalizing off with
  | nil => simp [symsOf]
  | cons p ps ih =>
      rw [List.forall_mem_cons] at hAddr
      simp only [stringsOf_cons, List.length_append, List.length_cons] at hOff
      rw [symsOf, List.forall_mem_cons]
      refine ⟨?_, ih (by omega) hAddr.2⟩
      simp only [Sym.fields, funcSym, fits_cons, fits_nil, and_true, Nat.reducePow] at hAddr ⊢
      omega

theorem readSymbols_wrap (o : Options) (gIndex : UInt32) (rom : List UInt8) {seg : SegStrings}
    (hSeg : seg.Built true) (hFits : ∀ s ∈ syms.sym, Fits s.fields) :
    readSymbols (wrap o gIndex rom seg (some syms)).mem =
      syms.sym.tail.map fun s => (s.value, symbolName syms.strings.buf s.name) := by
  obtain ⟨-, -, -, -, -, hSymtab, hStrtab, hEntries⟩ :=
    wrap_blocks o gIndex rom seg (some syms) hSeg
  have hSize : (wrap o gIndex rom seg (some syms)).symtab.length = 16 * syms.sym.length :=
    length_symtab _
  rw [hSize] at hSymtab hStrtab
  generalize hOff : 8192 + (wrap o gIndex rom seg (some syms)).rom.length +
    (wrap o gIndex rom seg (some syms)).gnu.length +
    (wrap o gIndex rom seg (some syms)).shstrtab.length = off at hSymtab hStrtab
  have hFind : (wrap o gIndex rom seg (some syms)).shdrs.find? (fun s => s.type = 2) =
      some (mkShdrSy off seg.syIndex (16 * syms.sym.length) 5) := by
    rw [← hOff]
    rfl
  have hLink : (wrap o gIndex rom seg (some syms)).shdrs[5]? =
      some (mkShdrS (off + 16 * syms.sym.length) seg.sysIndex syms.strings.buf.length) := by
    rw [← hOff]
    rfl
  have hSyms : ((List.range syms.sym.length).map fun i =>
      symAt (wrap o gIndex rom seg (some syms)).mem (off + 16 * i)) = syms.sym :=
    map_read_of_load (fun s _ => s.length_bytes)
      (fun s hs _ _ _ stored => eq_of_load Sym.fields_injective (hFits s hs) stored rfl)
      (hSymtab.trans (List.append_nil _).symm)
  have hStrings : load (wrap o gIndex rom seg (some syms)).mem (off + 16 * syms.sym.length)
    syms.strings.buf.length = syms.strings.buf := hStrtab
  rw [readSymbols, hEntries, hFind]
  grind [mkShdrSy, mkShdrS, Nat.mul_div_cancel_left]

theorem finishString_buf (sp : StringTable) : ∃ pad, (finishString sp).buf = sp.buf ++ pad := by
  unfold finishString
  split
  · exact ⟨[0], rfl⟩
  · exact ⟨[], (List.append_nil _).symm⟩

theorem readSymbols_holds (o : Options) (gIndex : UInt32) (rom : List UInt8) {seg : SegStrings}
    (hSeg : seg.Built true) (hHolds : Holds syms ps) (hPs : ∀ p ∈ ps, 0 ∉ p.1 ∧ p.2 < 2 ^ 32) :
    readSymbols (wrap o gIndex rom seg (some (finishSymbol syms))).mem = recovered ps := by
  have hWithin : (stringsOf ps).length ≤ 8192 := hHolds.strings ▸ syms.strings.within
  obtain ⟨pad, hPad⟩ := finishString_buf syms.strings
  have hSym : (finishSymbol syms).sym = nullSym :: symsOf 0 ps := hHolds.sym
  have hBuf : (finishSymbol syms).strings.buf = stringsOf ps ++ pad := hHolds.strings ▸ hPad
  have hFits : ∀ s ∈ (finishSymbol syms).sym, Fits s.fields := by
    rw [hSym, List.forall_mem_cons]
    refine ⟨by simp [Sym.fields, nullSym], fits_symsOf ?_ fun p hp => (hPs p hp).2⟩
    omega
  rw [readSymbols_wrap o gIndex rom hSeg hFits, hSym, hBuf, List.tail_cons,
    map_symsOf_zero fun p hp => (hPs p hp).1]

theorem readSymbols_main {o : Options} {gIndex : UInt32} {rom file : List UInt8} {out : Output}
    (h : main o gIndex line rom (some file) = some out) :
    ∃ ps, readSymbols out.mem = recovered ps ∧ (file ≠ [] → ps ≠ []) := by
  obtain ⟨seg, syms, hSeg, rfl, ⟨hNone, -⟩ | ⟨_, t, hFile, rfl, hLoad⟩⟩ := main_eq_some h
  · exact nomatch hNone
  · obtain rfl := Option.some.inj hFile
    obtain ⟨loaded, hLines, rfl⟩ := Option.map_eq_some_iff.mp hLoad
    obtain ⟨ps, hHolds, hPs, hNonempty⟩ := loadLines_holds hLines holds_initSymbol
    refine ⟨ps, readSymbols_holds o gIndex rom hSeg hHolds hPs, fun hFile => ?_⟩
    grind [List.length_pos_of_ne_nil]

end Fire3.ArmWrap

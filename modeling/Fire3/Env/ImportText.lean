import Fire3.Base.ByteMemory
import Fire3.Env.Hashtable

/-!
The text of an exported environment. The importer reads back an entry from the
characters the exporter wrote for it, for the separators NUL and newline, and the
exporter's first pass measures at least what its second pass writes, up to the
backslashes it does not count before a NUL separator.
-/

namespace Fire3.Hashtable
open CString

structure Exportable (sep : UInt8) (e : Entry) : Prop where
  key_some : e.key ≠ []
  key_chars : ∀ c ∈ e.key, c ≠ 61 ∧ c ≠ 0 ∧ c ≠ sep
  key_head : ∀ c ∈ e.key.head?, isblank c = false ∧ c ≠ 35
  data_some : e.data ≠ []
  data_chars : 0 ∉ e.data

-- By the characters of the entry, not by all the values a character can have.
instance (sep : UInt8) (e : Entry) : Decidable (Exportable sep e) :=
  decidable_of_iff (e.key ≠ [] ∧ (e.key.all fun c => c ≠ 61 ∧ c ≠ 0 ∧ c ≠ sep) = true ∧
      (e.key.head?.toList.all fun c => isblank c = false ∧ c ≠ 35) = true ∧ e.data ≠ [] ∧
      e.data.elem 0 = false)
    ⟨fun h => ⟨h.1, by simpa using h.2.1, by simpa using h.2.2.1, h.2.2.2.1,
        by simpa using h.2.2.2.2⟩,
      fun h => ⟨h.key_some, by simpa using h.key_chars, by simpa using h.key_head, h.data_some,
        by simpa using h.data_chars⟩⟩

theorem parseValue_cons {sep c : UInt8} {cs : List UInt8} (hNul : c ≠ 0) (hSep : c ≠ sep)
    (hPlain : c ≠ backslash) (hMore : cs ≠ []) :
    parseValue sep (c :: cs) = (c :: (parseValue sep cs).1, (parseValue sep cs).2) := by
  cases cs with
  | nil => exact absurd rfl hMore
  | cons d rest => simp [parseValue, hNul, hSep, hPlain]

theorem parseValue_escape {sep : UInt8} (hSep : sep ≠ backslash) {v : CStr} (hv : 0 ∉ v)
    (rest : List UInt8) : parseValue sep (escape sep v ++ sep :: rest) = (v, sep :: rest) := by
  induction v with
  | nil => cases rest <;> simp [escape, parseValue]
  | cons c cs ih =>
      have hc : c ≠ 0 := fun h => hv (h ▸ List.mem_cons_self)
      have hcs : 0 ∉ cs := fun h => hv (List.mem_cons_of_mem _ h)
      simp only [escape]
      split
      · have hNul : backslash ≠ 0 := by decide
        simp [parseValue, hNul, hSep.symm, hc, ih hcs]
      · rename_i hPlain
        simp only [needsEscape, Bool.or_eq_true, decide_eq_true_eq, not_or] at hPlain
        rw [List.cons_append, parseValue_cons hc hPlain.1 hPlain.2 (by simp), ih hcs]

theorem head_escape {sep : UInt8} (hSep : sep ≠ backslash) {v : CStr} (hSome : v ≠ [])
    (hv : 0 ∉ v) (rest : List UInt8) :
    (escape sep v ++ rest).headD 0 ≠ 0 ∧ (escape sep v ++ rest).headD 0 ≠ sep := by
  cases v with
  | nil => exact absurd rfl hSome
  | cons c cs =>
      simp only [escape]
      split
      · exact ⟨(by decide : backslash ≠ 0), hSep.symm⟩
      · rename_i hPlain
        simp only [needsEscape, Bool.or_eq_true, decide_eq_true_eq, not_or] at hPlain
        grind

theorem parseItem_exportEntry {sep : UInt8} (hSep : sep ≠ backslash) (hSep' : sep ≠ 61) {e : Entry}
    (he : Exportable sep e) (rest : List UInt8) :
    parseItem sep (exportEntry sep e ++ rest) = (.set e.key e.data, rest) := by
  have hText : exportEntry sep e ++ rest =
      e.key ++ 61 :: (escape sep e.data ++ sep :: rest) := by
    simp [exportEntry]
  obtain ⟨k, ks, hKey⟩ := List.exists_cons_of_ne_nil he.key_some
  obtain ⟨hBlank, hHash⟩ := he.key_head k (by simp [hKey])
  have hSkip : (e.key ++ 61 :: (escape sep e.data ++ sep :: rest)).dropWhile isblank =
      e.key ++ 61 :: (escape sep e.data ++ sep :: rest) := by
    grind [List.dropWhile_cons_of_neg]
  have hHead : (e.key ++ 61 :: (escape sep e.data ++ sep :: rest)).head? ≠ some 35 := by
    simpa [hKey] using hHash
  have hName : ∀ c ∈ e.key, (c ≠ 61 && c ≠ 0 && c ≠ sep) = true := by
    intro c hc
    simpa [and_assoc] using he.key_chars c hc
  have hTake : (e.key ++ 61 :: (escape sep e.data ++ sep :: rest)).takeWhile
      (fun c => c ≠ 61 && c ≠ 0 && c ≠ sep) = e.key := by
    rw [List.takeWhile_append_of_pos hName]
    simp
  have hDrop : (e.key ++ 61 :: (escape sep e.data ++ sep :: rest)).dropWhile
      (fun c => c ≠ 61 && c ≠ 0 && c ≠ sep) = 61 :: (escape sep e.data ++ sep :: rest) := by
    rw [List.dropWhile_append_of_pos hName]
    simp
  obtain ⟨hFirst, hFirst'⟩ := head_escape hSep he.data_some he.data_chars (sep :: rest)
  rw [hText]
  simp only [parseItem, hSkip, hHead, if_false, hTake, hDrop, List.headD_cons, List.drop_succ_cons,
    List.drop_zero, hFirst, hFirst', hSep'.symm, parseValue_escape hSep he.data_chars]
  simp

theorem length_escape (sep : UInt8) (v : CStr) :
    (escape sep v).length = v.length + v.countP (needsEscape sep) := by
  induction v with
  | nil => rfl
  | cons c cs ih =>
      simp only [escape, List.countP_cons]
      split <;> simp [ih] <;> omega

theorem length_exportEntry (sep : UInt8) (e : Entry) :
    (exportEntry sep e).length =
      e.key.length + 2 + (e.data.length + e.data.countP (needsEscape sep)) := by
  simp [exportEntry, length_escape]
  omega

theorem length_le_length_export (sep : UInt8) (es : List Entry) :
    es.length ≤ (es.flatMap (exportEntry sep)).length := by
  induction es with
  | nil => exact le_rfl
  | cons e es ih =>
      rw [List.flatMap_cons, List.length_append, length_exportEntry, List.length_cons]
      omega

def backslashes (es : List Entry) : Nat := (es.map fun e => e.data.countP (· = backslash)).sum

theorem length_export_add {sep : UInt8} {es : List Entry} (hData : ∀ e ∈ es, 0 ∉ e.data) :
    (es.flatMap (exportEntry sep)).length + 2 * es.length =
      totlen sep es + if sep = 0 then backslashes es else 0 := by
  induction es with
  | nil => simp [totlen, backslashes]
  | cons e es ih =>
      have hRest := ih fun x hx => hData x (List.mem_cons_of_mem _ hx)
      simp only [List.flatMap_cons, List.length_append, length_exportEntry, List.length_cons,
        totlen, backslashes, measuredLength, List.map_cons, List.sum_cons] at hRest ⊢
      by_cases hNul : sep = 0
      · have hCount : e.data.countP (needsEscape sep) = e.data.countP (· = backslash) := by
          grind [List.countP_congr, List.mem_cons_self, needsEscape]
        grind
      · grind

end Fire3.Hashtable

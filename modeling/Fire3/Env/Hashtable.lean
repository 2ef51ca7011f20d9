import Fire3.Base.CString
import Fire3.Base.Probing
import Mathlib.Data.Nat.Prime.Basic

/-!
The environment hash table of `lib/hashtable.c`: `hcreate_r`, `hsearch_r` and
`hdelete_r`.

Slot 0 of the table is never used. A deleted slot keeps its place in the probe
sequences. Hooks decide whether a change is rejected; allocations of entries
succeed.
-/

namespace Fire3.Hashtable
open CString

structure Entry where
  key : CStr
  data : CStr
  deriving DecidableEq, Repr

inductive Slot
  | free
  | deleted
  | used (hval : Nat) (entry : Entry)
  deriving DecidableEq, Repr

structure Htab where
  size : Nat
  filled : Nat
  table : Nat → Slot

inductive Op
  | create
  | overwrite
  | delete
  deriving DecidableEq, Repr

/-- `change_ok` and the callback of the entry, as one answer: a change is rejected.
The data is `none` for a delete. -/
abbrev Hooks := Op → Entry → Option CStr → Bool

def noHooks : Hooks := fun _ _ _ => false

def isprimeLoop (number : Nat) : Nat → Nat → Nat
  | 0, div => div
  | fuel + 1, div =>
      if div * div % 2 ^ 32 < number ∧ number % div ≠ 0 then isprimeLoop number fuel (div + 2)
      else div

def isprime (number : Nat) : Bool := number % isprimeLoop number number 3 ≠ 0

def nextSize : Nat → Nat → Option Nat
  | 0, _ => none
  | fuel + 1, nel => if isprime (nel % 2 ^ 32) then some nel else nextSize fuel (nel + 2)

def canAllocate (size : Nat) : Bool := (size + 1) * 40 < 2 ^ 31

def hcreateR (nel : Nat) : Option Htab := do
  let nel := if nel % 2 = 0 then nel + 1 else nel
  let size ← (nextSize (nel + 5) nel).map (· % 2 ^ 32)
  if canAllocate size then some { size := size, filled := 0, table := fun _ => .free } else none

def hashKey (key : CStr) : Nat :=
  key.foldr (fun c hval => (hval * 16 + c.toNat) % 2 ^ 32) (key.length % 2 ^ 32)

def firstHash (size : Nat) (key : CStr) : Nat :=
  let hval := hashKey key % size
  if hval = 0 then 1 else hval

def secondHash (size hval : Nat) : Nat := 1 + hval % ((size + 2 ^ 32 - 2) % 2 ^ 32)

def Slot.matches (slot : Slot) (hval : Nat) (key : CStr) : Bool :=
  match slot with
  | .used hval' entry => hval' = hval && entry.key = key
  | .free | .deleted => false

inductive Search
  | found (idx : Nat)
  | empty (idx : Nat)
  /-- The loop came back to the first index. -/
  | wrapped
  deriving DecidableEq, Repr

/-- The `do` loop of `hsearch_r`. -/
def searchLoop (h : Htab) (key : CStr) (hval hval2 : Nat) : Nat → Nat → Search
  | 0, _ => .wrapped
  | fuel + 1, idx =>
      let idx := Probing.next h.size hval2 idx
      if idx = hval then .wrapped
      else if (h.table idx).matches hval key then .found idx
      else if h.table idx ≠ .free then searchLoop h key hval hval2 fuel idx
      else .empty idx

def search (h : Htab) (key : CStr) : Search :=
  let hval := firstHash h.size key
  if h.table hval = .free then .empty hval
  else if (h.table hval).matches hval key then .found hval
  else searchLoop h key hval (secondHash h.size hval) (h.size + 1) hval

def Htab.set (h : Htab) (idx : Nat) (slot : Slot) : Htab :=
  { h with table := Function.update h.table idx slot }

def hdelete (h : Htab) (idx : Nat) : Htab :=
  { h.set idx .deleted with filled := h.filled - 1 }

/-- `_compare_and_overwrite_entry` for ENTER, on the slot that matches. -/
def overwriteEntry (hooks : Hooks) (h : Htab) (idx : Nat) (data : CStr) : Nat × Htab :=
  match h.table idx with
  | .used hval entry =>
      if hooks .overwrite entry (some data) then (0, h)
      else (idx, h.set idx (.used hval { entry with data := data }))
  | .free | .deleted => (0, h)

/-- The new entry of `hsearch_r` at the slot the search left in `idx`; a deleted first
slot is used instead. -/
def createEntry (hooks : Hooks) (h : Htab) (key data : CStr) (idx : Nat) : Nat × Htab :=
  let hval := firstHash h.size key
  if h.filled = h.size then (0, h)
  else
    let idx := if h.table hval = .deleted then hval else idx
    let entry : Entry := { key := key, data := data }
    let created := { h.set idx (.used hval entry) with filled := h.filled + 1 }
    if hooks .create entry (some data) then (0, hdelete created idx) else (1, created)

/-- `hsearch_r` with ENTER: the result, 0 for a failure, and the table. -/
def enter (hooks : Hooks) (h : Htab) (key data : CStr) : Nat × Htab :=
  match search h key with
  | .found idx => overwriteEntry hooks h idx data
  | .empty idx => createEntry hooks h key data idx
  | .wrapped => createEntry hooks h key data (firstHash h.size key)

def findIdx (h : Htab) (key : CStr) : Option Nat :=
  match search h key with
  | .found idx => some idx
  | .empty _ | .wrapped => none

def Slot.data : Slot → Option CStr
  | .used _ entry => some entry.data
  | .free | .deleted => none

def find (h : Htab) (key : CStr) : Option CStr := (findIdx h key).bind fun idx => (h.table idx).data

def hdeleteR (hooks : Hooks) (h : Htab) (key : CStr) : Nat × Htab :=
  match findIdx h key with
  | none => (0, h)
  | some idx =>
      match h.table idx with
      | .used _ entry => if hooks .delete entry none then (0, h) else (1, hdelete h idx)
      | .free | .deleted => (0, h)

/-!
Export and import of the environment: `hexport_r` and `himport_r` of
`lib/hashtable.c`.

The exporter measures the text in a first pass and writes it in a second one; the
two passes count escapes differently when the separator is NUL. The importer
walks a NUL-terminated copy of the text.
-/

def Slot.heldEntry : Slot → Option Entry
  | .used _ entry => some entry
  | .free | .deleted => none

theorem slotEntry_eq_some {slot : Slot} {e : Entry} :
    slot.heldEntry = some e ↔ ∃ hval, slot = .used hval e := by
  cases slot <;> simp [Slot.heldEntry]

def entries (h : Htab) : List Entry := (List.range' 1 h.size).filterMap fun i => (h.table i).heldEntry

def backslash : UInt8 := 92

def needsEscape (sep c : UInt8) : Bool := c = sep || c = backslash

def measuredLength (sep : UInt8) (data : CStr) : Nat :=
  if sep = 0 then data.length else data.length + data.countP (needsEscape sep)

def totlen (sep : UInt8) (es : List Entry) : Nat :=
  (es.map fun e => e.key.length + 2 + measuredLength sep e.data + 2).sum

def escape (sep : UInt8) : CStr → CStr
  | [] => []
  | c :: cs => if needsEscape sep c then backslash :: c :: escape sep cs else c :: escape sep cs

def exportEntry (sep : UInt8) (e : Entry) : List UInt8 :=
  e.key ++ 61 :: (escape sep e.data ++ [sep])

def sortByKey (es : List Entry) : List Entry :=
  es.mergeSort fun e e' => !decide (e'.key < e.key)

inductive ExportResult
  /-- The error of a buffer that is too small. -/
  | tooSmall
  /-- Pass 2 writes behind the end of the buffer. -/
  | overrun
  | ok (bytes : List UInt8)
  deriving DecidableEq, Repr

/-- `hexport_r` for the entries a filter keeps. A size of 0 asks for a buffer of the
measured length. The result is the whole buffer, cleared behind the text. -/
def hexportR (h : Htab) (sep : UInt8) (keep : Entry → Bool) (size : Nat) : ExportResult :=
  let list := (entries h).filter keep
  let need := totlen sep list + 1
  if size ≠ 0 ∧ size < need then .tooSmall
  else
    let size := if size = 0 then need else size
    let text := (sortByKey list).flatMap (exportEntry sep)
    if text.length + 1 > size then .overrun
    else .ok (text ++ List.replicate (size - text.length) 0)

def isblank (c : UInt8) : Bool := c = 32 || c = 9

/-- The value loop of `himport_r`: the value without its escapes, and the rest from
its end on. -/
def parseValue (sep : UInt8) : List UInt8 → List UInt8 × List UInt8
  | [] => ([], [])
  | [c] => if c = 0 ∨ c = sep then ([], [c]) else ([c], [])
  | c :: d :: rest =>
      if c = 0 ∨ c = sep then ([], c :: d :: rest)
      else if c = backslash ∧ d ≠ 0 then
        let (value, rest) := parseValue sep rest
        (d :: value, rest)
      else
        let (value, rest) := parseValue sep (d :: rest)
        (c :: value, rest)

inductive Item
  | comment
  | delete (name : CStr)
  | set (name value : CStr)
  deriving DecidableEq, Repr

def parseItem (sep : UInt8) (dp : List UInt8) : Item × List UInt8 :=
  let dp := dp.dropWhile isblank
  if dp.head? = some 35 then
    (.comment, (dp.dropWhile fun c => c ≠ 0 && c ≠ sep).drop 1)
  else
    let inName (c : UInt8) : Bool := c ≠ 61 && c ≠ 0 && c ≠ sep
    let name := dp.takeWhile inName
    let dp := dp.dropWhile inName
    let c := dp.headD 0
    let d := (dp.drop 1).headD 0
    if c = 0 ∨ d = 0 ∨ c = sep ∨ d = sep then
      (.delete name, if c = 61 then dp.drop 2 else dp.drop 1)
    else
      let (value, rest) := parseValue sep (dp.drop 1)
      (.set name value, rest.drop 1)

/-- The loop of `himport_r` over the text and its terminator; an empty name ends it
with the error result. -/
def importLoop (hooks : Hooks) (sep : UInt8) : Nat → Htab → List UInt8 → Nat × Htab
  | 0, h, _ => (1, h)
  | fuel + 1, h, dp =>
      let (item, dp) := parseItem sep dp
      let more (h : Htab) : Nat × Htab :=
        -- the text without its terminator, and the next character
        if dp.length > 1 ∧ dp.headD 0 ≠ 0 then importLoop hooks sep fuel h dp else (1, h)
      match item with
      | .comment => more h
      | .delete name => more (hdeleteR hooks h name).2
      | .set name value => if name = [] then (0, h) else more (enter hooks h name value).2

def importEntries (size : Nat) : Nat := min (64 + size / 8) 512

def himportR (hooks : Hooks) (env : List UInt8) (sep : UInt8) : Option (Nat × Htab) :=
  match hcreateR (importEntries env.length) with
  | none => none
  | some h =>
      if env.length = 0 then some (1, h)
      else some (importLoop hooks sep (env.length + 1) h (env ++ [0]))

end Fire3.Hashtable

import Fire3.Base.CString

/-!
The partition map of the `sd_recovery` command: the parser
`update_sdcard_part_lists_make` of `common/cmd_sd_recovery.c`.

A map is a sequence of entries
`flash=<device>,<no>:<name>:<fs>:<start>,<length>:<file>;`. Comments are skipped
and blanks squeezed out before the entries are read. The source does not check
that a delimiter was found, and it accepts a token that fills its 32-byte buffer;
both are faults here.
-/

namespace Fire3.SdRecovery
open CString

inductive FsType
  | secondBoot
  | boot
  | raw
  | fat
  | ext4
  | rawPart
  | ubi
  | ubifs
  | env
  /-- The zero of a name that is not in the table. -/
  | none
  deriving DecidableEq, Repr

def fPartFs : List (CStr × FsType) :=
  [(ascii "2nd", .secondBoot), (ascii "boot", .boot), (ascii "raw", .raw), (ascii "fat", .fat),
    (ascii "ext4", .ext4), (ascii "emmc", .rawPart), (ascii "ubi", .ubi), (ascii "ubifs", .ubifs),
    (ascii "env", .env)]

def FsType.inMask : FsType → Bool
  | .raw | .fat | .ext4 | .ubi | .ubifs | .rawPart => true
  | .secondBoot | .boot | .env | .none => false

structure Part where
  device : CStr
  devNo : Nat
  partitionName : CStr
  fsType : FsType
  start : Nat
  length : Nat
  fileName : CStr
  partNum : Nat
  deriving DecidableEq, Repr

variable {n : Nat} {p : CStr} {parts : List Part}

def Part.zero : Part := ⟨[], 0, [], .none, 0, 0, [], 0⟩

inductive Fault
  /-- `strchr` found no delimiter and its result is used. -/
  | nullDelimiter
  /-- The terminator of a 32-character token is written behind `str`. -/
  | strOverflow
  deriving DecidableEq, Repr

def devPartMax : Nat := 16

def parseComment : Nat → CStr → Except Fault CStr
  | 0, p => .ok p
  | fuel + 1, p =>
      match strchr p 35 with
      | none => .ok p
      | some r =>
          match strchr (r.drop 1) 10 with
          | none => .error .nullDelimiter
          | some p => parseComment fuel (p.drop 1)

def sortString (p : CStr) : CStr := withoutBlanks p

def parsePartHead (p : CStr) : Option CStr := behindFirst (ascii "flash=") p

/-- `update_sdcard_get_string` with `char str[32]`: the token before `c` and the text
behind it. The text has no blanks left to trim; a token longer than the buffer is
reported and reads as empty. -/
def getString (p : CStr) (c : UInt8) : Except Fault (CStr × CStr) :=
  match strchr p c with
  | none => .error .nullDelimiter
  | some r =>
      let token := p.take (p.length - r.length)
      if token.length > 32 then .ok ([], r.drop 1)
      else if token.length = 32 then .error .strOverflow
      else .ok (token, r.drop 1)

def findFs (name : CStr) : FsType := (fPartFs.lookup name).getD .none

/-- One entry behind `flash=`, with the count of filesystem entries so far. -/
def parseEntry (p : CStr) (partNum : Nat) : Except Fault (Part × CStr) := do
  let (device, p) ← getString p 44
  let (devNo, p) ← getString p 58
  let (partitionName, p) ← getString p 58
  let (fs, p) ← getString p 58
  let (start, p) ← getString p 44
  let (length, p) ← getString p 58
  let (fileName, p) ← getString p 59
  let fsType := findFs fs
  return ({ device := device
            devNo := simpleStrtoul devNo 10 % 2 ^ 32
            partitionName := partitionName
            fsType := fsType
            start := simpleStrtoul start 16
            length := simpleStrtoul length 16
            fileName := fileName
            partNum := if fsType.inMask then partNum + 1 else 0 }, p)

def parseEntries : Nat → CStr → Nat → Except Fault (List Part)
  | 0, _, _ => .ok []
  | n + 1, p, partNum =>
      match parsePartHead p with
      | none => .ok []
      | some p => do
          let (part, p) ← parseEntry p partNum
          let parts ← parseEntries n p (if part.fsType.inMask then partNum + 1 else partNum)
          return part :: parts

/-- `update_sdcard_part_lists_make`: the parsed entries; none of them is the error. -/
def partListsMake (text : CStr) : Except Fault (List Part) := do
  let p ← parseComment (text.length + 1) text
  parseEntries devPartMax (sortString p) 0

def fsCount (parts : List Part) : Nat := parts.countP (·.fsType.inMask)

theorem bind_ok {α β : Type} {x : Except Fault α} {f : α → Except Fault β} {r : β}
    (h : x >>= f = .ok r) : ∃ a, x = .ok a ∧ f a = .ok r := by
  cases x with
  | error fault => simp [bind, Except.bind] at h
  | ok a => exact ⟨a, rfl, h⟩

theorem parseEntry_numbered {p' : CStr} {part : Part} (h : parseEntry p n = .ok (part, p'))
    (hFs : part.fsType.inMask = true) : part.partNum = n + 1 := by
  obtain ⟨device, -, h⟩ := bind_ok h
  obtain ⟨devNo, -, h⟩ := bind_ok h
  obtain ⟨partitionName, -, h⟩ := bind_ok h
  obtain ⟨fs, -, h⟩ := bind_ok h
  obtain ⟨start, -, h⟩ := bind_ok h
  obtain ⟨length, -, h⟩ := bind_ok h
  obtain ⟨fileName, -, h⟩ := bind_ok h
  simp only [pure, Except.pure, Except.ok.injEq, Prod.mk.injEq] at h
  obtain ⟨rfl, -⟩ := h
  exact if_pos hFs

theorem parseEntries_succ {count : Nat} (h : parseEntries (n + 1) p count = .ok parts) :
    parts = [] ∨ ∃ p' p'' part rest, parsePartHead p = some p' ∧
      parseEntry p' count = .ok (part, p'') ∧
      parseEntries n p'' (if part.fsType.inMask then count + 1 else count) = .ok rest ∧
      parts = part :: rest := by
  simp only [parseEntries] at h
  split at h
  · simp only [Except.ok.injEq] at h
    exact .inl h.symm
  · rename_i p' hHead
    obtain ⟨⟨part, p''⟩, hEntry, h⟩ := bind_ok h
    obtain ⟨rest, hRest, h⟩ := bind_ok h
    simp only [pure, Except.pure, Except.ok.injEq] at h
    grind

theorem parseEntries_numbered {count : Nat} (h : parseEntries n p count = .ok parts) {m : Nat}
    {part : Part} (hm : parts[m]? = some part) (hFs : part.fsType.inMask = true) :
    part.partNum = count + fsCount (parts.take (m + 1)) := by
  induction n generalizing p count parts m with
  | zero =>
      grind [parseEntries, Except.ok.injEq]
  | succ n ih =>
      obtain rfl | ⟨p', p'', entry, rest, -, hEntry, hRest, rfl⟩ := parseEntries_succ h
      · simp at hm
      · cases m with
        | zero =>
            simp only [List.getElem?_cons_zero, Option.some.injEq] at hm
            subst hm
            simp [fsCount, hFs, parseEntry_numbered hEntry hFs]
        | succ m =>
            rw [List.getElem?_cons_succ] at hm
            rw [ih hRest hm, List.take_succ_cons, fsCount, fsCount, List.countP_cons]
            split <;> omega

theorem length_parseEntries {count : Nat} (h : parseEntries n p count = .ok parts) :
    parts.length ≤ n := by
  induction n generalizing p count parts with
  | zero =>
      grind [parseEntries, Except.ok.injEq]
  | succ n ih =>
      grind [parseEntries_succ]

/-!
The update run of the `sd_recovery` command: `sdcard_update` and the two
functions it issues commands from, `make_mmc_partition` and
`update_sd_img_wirte`, of `common/cmd_sd_recovery.c`.

What the run depends on outside this file (file reads, device lookups, results
of commands) is an environment that may answer by all that was issued so far.
-/

inductive Cmd
  | fdisk (dev : Nat) (parts : List (Nat × Nat))
  | mmcDev (dev : Nat)
  | mmcRescan
  | mmcWrite (addr start blkCnt : Nat)
  | ext4ImgWrite (dev addr partNum length : Nat)
  | empty
  deriving DecidableEq, Repr

structure Issued where
  entry : Nat
  cmd : Cmd
  deriving DecidableEq, Repr

structure Env where
  /-- `fs_set_blk_dev` fails. -/
  fsSetBlkDev : List Issued → Bool
  /-- The result of `fs_read` and the length it stores. -/
  fsRead : List Issued → CStr → Int × Int
  getDevice : List Issued → Nat → Int
  runCommand : List Issued → Cmd → Int

/-- The arguments `make_mmc_partition` collects: at most `DEV_PART_MAX` entries from
the given one on, whatever their type. From the middle of a full table this runs
into what lies behind it. -/
def fdiskArgs (parts : List Part) : List (Nat × Nat) :=
  ((parts.take devPartMax).takeWhile (·.device ≠ [])).map fun fp => (fp.start, fp.length)

def makeMmcPartition (log : List Issued) (i : Nat) (fp : Part) (following : List Part) :
    List Issued :=
  log ++ [⟨i, .fdisk fp.devNo (fdiskArgs (fp :: following))⟩]

def setDevice (env : Env) (log : List Issued) (i dev : Nat) : List Issued × Bool :=
  let after := log ++ [⟨i, .mmcDev dev⟩]
  (after, !(env.runCommand log (.mmcDev dev) < 0) && !(env.getDevice after dev < 0))

/-- The device selection of `update_sd_img_wirte`, with a rescan for an unknown one. -/
def selectDevice (env : Env) (log : List Issued) (i dev : Nat) : List Issued × Bool :=
  if env.getDevice log dev < 0 then
    let tried := log ++ [⟨i, .mmcDev dev⟩]
    if env.runCommand log (.mmcDev dev) < 0 then (tried, false)
    else if env.runCommand tried .mmcRescan < 0 then (tried ++ [⟨i, .mmcRescan⟩], false)
    else setDevice env (tried ++ [⟨i, .mmcRescan⟩]) i dev
  else setDevice env log i dev

def imgCommand (fp : Part) (addr length : Nat) : Cmd :=
  match fp.fsType with
  | .secondBoot | .boot | .env =>
      .mmcWrite (addr % 2 ^ 32) (fp.start / 512) ((length + 511) / 512 % 2 ^ 32)
  | .none => .empty
  | .raw | .fat | .ext4 | .ubi | .ubifs | .rawPart =>
      .ext4ImgWrite fp.devNo (addr % 2 ^ 32) fp.partNum (length % 2 ^ 32)

def updateSdImgWirte (env : Env) (log : List Issued) (i : Nat) (fp : Part) (addr length : Nat) :
    List Issued × Int :=
  if fp.device ≠ ascii "mmc" then (log, 0)
  else
    let (log, ok) := selectDevice env log i fp.devNo
    if !ok then (log, -1)
    else
      let cmd := imgCommand fp addr length
      (log ++ [⟨i, cmd⟩], env.runCommand log cmd)

def updateLoop (env : Env) (addr : Nat) (beyond : List Part) :
    Nat → List Part → Bool → List Issued → Int → List Issued × Int
  | _, [], _, log, ret => (log, ret)
  | i, fp :: rest, first, log, ret =>
      if fp.device = [] then (log, ret)
      else if fp.fileName = ascii "dummy" then updateLoop env addr beyond (i + 1) rest first log ret
      else if env.fsSetBlkDev log then (log, -1)
      else
        let (lenRead, len) := env.fsRead log fp.fileName
        let log := if !first && fp.fsType.inMask then
            makeMmcPartition log i fp (rest ++ beyond) else log
        let first := first || fp.fsType.inMask
        if len ≤ 0 ∨ lenRead < 0 then updateLoop env addr beyond (i + 1) rest first log ret
        else
          let (log, ret) := updateSdImgWirte env log i fp addr len.toNat
          updateLoop env addr beyond (i + 1) rest first log ret

def sdcardTable (parts : List Part) : List Part :=
  parts ++ List.replicate (devPartMax - parts.length) Part.zero

/-- The commands and the result of `sdcard_update`; `beyond` is what the memory behind
the table holds, read as entries. -/
def sdcardUpdate (env : Env) (addr : Nat) (parts beyond : List Part) : List Issued × Int :=
  updateLoop env addr beyond 0 (sdcardTable parts) false [] 0

def Part.startsTable (fp : Part) : Bool := fp.fsType.inMask && fp.fileName ≠ ascii "dummy"

def firstFs (parts : List Part) : Nat := parts.findIdx Part.startsTable

def WriteOf (fp : Part) : Cmd → Prop
  | .fdisk _ _ => False
  | .ext4ImgWrite _ _ n _ => fp.fsType.inMask = true ∧ n = fp.partNum
  | .mmcDev _ | .mmcRescan | .mmcWrite _ _ _ | .empty => True

theorem imgCommand_writeOf (fp : Part) (addr length : Nat) : WriteOf fp (imgCommand fp addr length) := by
  unfold imgCommand
  split <;> simp_all [WriteOf, FsType.inMask]

theorem selectDevice_log (env : Env) (log : List Issued) (i : Nat) (fp : Part) (dev : Nat) :
    ∃ new, (selectDevice env log i dev).1 = log ++ new ∧
      ∀ x ∈ new, x.entry = i ∧ WriteOf fp x.cmd := by
  unfold selectDevice setDevice
  split
  · dsimp only
    split
    · simp [WriteOf]
    · split
      · simp [WriteOf]
      · simp [WriteOf]
  · simp [WriteOf]

theorem updateSdImgWirte_log (env : Env) (log : List Issued) (i : Nat) (fp : Part)
    (addr length : Nat) :
    ∃ new, (updateSdImgWirte env log i fp addr length).1 = log ++ new ∧
      ∀ x ∈ new, x.entry = i ∧ WriteOf fp x.cmd := by
  unfold updateSdImgWirte
  split
  · exact ⟨[], by simp, by simp⟩
  · obtain ⟨new, hLog, hNew⟩ := selectDevice_log env log i fp fp.devNo
    simp only [hLog]
    split
    · exact ⟨new, rfl, hNew⟩
    · refine ⟨new ++ [⟨i, imgCommand fp addr length⟩], by simp, ?_⟩
      intro x hx
      grind [List.mem_singleton, imgCommand_writeOf]

end Fire3.SdRecovery

import Fire3.Ext4.ImgConfined
import Fire3.Recovery.SdUpdate

/-!
What `sdcard_update` and `ext4_img_write` report of the steps that fail.

`run_command` never returns a negative number, and `sdcard_update` looks for one; the results
of `fdisk` and of a failed load are dropped, and each entry overwrites the result of the one
before. `ext4_img_write` returns 1 for a compressed image and the number of blocks for a raw one.
-/

namespace Fire3.SdRecovery
open CString Ext4Img

structure Steps where
  fsSetBlkDev : List Issued → Bool
  fsRead : List Issued → CStr → Int × Int
  getDevice : List Issued → Nat → Int
  result : List Issued → Cmd → Int

/-- The same environment as `run_command` shows it; an empty command is not run. -/
def Steps.env (s : Steps) : Env where
  fsSetBlkDev := s.fsSetBlkDev
  fsRead := s.fsRead
  getDevice := s.getDevice
  runCommand := fun log cmd => if cmd = .empty then 0 else runCommand (s.result log cmd)

namespace Steps
variable (s : Steps)

theorem runCommand_nonneg (log : List Issued) (cmd : Cmd) : 0 ≤ s.env.runCommand log cmd := by
  unfold env
  dsimp only
  split
  · exact le_refl 0
  · exact Ext4Img.runCommand_nonneg _

def cmdFails (log : List Issued) (cmd : Cmd) : Bool := cmd ≠ .empty ∧ s.result log cmd ≠ 0

def found (log : List Issued) (i : Nat) (fp : Part) : Bool :=
  fp.device ≠ ascii "mmc" ∨ (selectDevice s.env log i fp.devNo).2

def writeFails (log : List Issued) (i : Nat) (fp : Part) (addr length : Nat) : Bool :=
  fp.device = ascii "mmc" ∧ (selectDevice s.env log i fp.devNo).2 ∧
    s.cmdFails (selectDevice s.env log i fp.devNo).1 (imgCommand fp addr length)

end Steps

inductive Turn
  /-- `fs_set_blk_dev` fails, which ends the run. -/
  | refused
  /-- The image cannot be loaded. -/
  | unread
  /-- The image is written, or was to be. -/
  | written (tableFails found writeFails : Bool)
  deriving DecidableEq, Repr

namespace Turn

def failed : Turn → Bool
  | refused | unread => true
  | written tableFails found writeFails => tableFails || !found || writeFails

def negative : Turn → Option Bool
  | refused => some true
  | unread => none
  | written _ found _ => some !found

end Turn

def lastNegative (neg : Bool) (ts : List Turn) : Bool :=
  (ts.filterMap Turn.negative).getLast?.getD neg

@[simp] theorem lastNegative_nil (neg : Bool) : lastNegative neg [] = neg := rfl

@[simp] theorem lastNegative_cons (neg : Bool) (t : Turn) (ts : List Turn) :
    lastNegative neg (t :: ts) = lastNegative (t.negative.getD neg) ts := by
  unfold lastNegative
  grind

def turns (s : Steps) (addr : Nat) (beyond : List Part) :
    Nat → List Part → Bool → List Issued → List Turn
  | _, [], _, _ => []
  | i, fp :: rest, first, log =>
      if fp.device = [] then []
      else if fp.fileName = ascii "dummy" then turns s addr beyond (i + 1) rest first log
      else if s.fsSetBlkDev log then [.refused]
      else
        let (lenRead, len) := s.fsRead log fp.fileName
        let makes := !first && fp.fsType.inMask
        let tableFails := makes &&
          s.cmdFails log (.fdisk fp.devNo (fdiskArgs (fp :: (rest ++ beyond))))
        let log := if makes then makeMmcPartition log i fp (rest ++ beyond) else log
        let first := first || fp.fsType.inMask
        if len ≤ 0 ∨ lenRead < 0 then .unread :: turns s addr beyond (i + 1) rest first log
        else
          .written tableFails (s.found log i fp) (s.writeFails log i fp addr len.toNat) ::
            turns s addr beyond (i + 1) rest first
              (updateSdImgWirte s.env log i fp addr len.toNat).1

theorem updateSdImgWirte_negative (s : Steps) (log : List Issued) (i : Nat) (fp : Part)
    (addr length : Nat) :
    decide ((updateSdImgWirte s.env log i fp addr length).2 < 0) = !s.found log i fp := by
  rw [updateSdImgWirte, Steps.found]
  by_cases hMmc : fp.device = ascii "mmc"
  · rw [if_neg (not_not.mpr hMmc)]
    cases hFound : (selectDevice s.env log i fp.devNo).2 with
    | false => simp [hFound, hMmc]
    | true =>
        have hNonneg := s.runCommand_nonneg (selectDevice s.env log i fp.devNo).1
          (imgCommand fp addr length)
        simp [hFound]
        omega
  · simp [hMmc]

theorem updateLoop_negative (s : Steps) (addr : Nat) (beyond : List Part) (i : Nat)
    (table : List Part) (first : Bool) (log : List Issued) (ret : Int) :
    (updateLoop s.env addr beyond i table first log ret).2 < 0 ↔
      lastNegative (ret < 0) (turns s addr beyond i table first log) = true := by
  induction table generalizing i first log ret with
  | nil => simp [updateLoop, turns]
  | cons fp rest ih =>
      have hSame : s.env.fsSetBlkDev = s.fsSetBlkDev ∧ s.env.fsRead = s.fsRead := ⟨rfl, rfl⟩
      rw [updateLoop, turns, hSame.1, hSame.2]
      split
      · simp
      · split
        · exact ih ..
        · cases s.fsSetBlkDev log with
          | true => simp [Turn.negative]
          | false =>
              simp only [Bool.false_eq_true, if_false]
              split
              · rw [ih]
                simp [Turn.negative]
              · rw [ih, lastNegative_cons, updateSdImgWirte_negative]
                rfl

def Fails (s : Steps) (addr : Nat) (parts beyond : List Part) : Prop :=
  ∃ t ∈ turns s addr beyond 0 (sdcardTable parts) false [], t.failed = true

/-- The last entry that sets the result finds no block device to read from or no device to write
to. -/
def Noticed (s : Steps) (addr : Nat) (parts beyond : List Part) : Prop :=
  lastNegative false (turns s addr beyond 0 (sdcardTable parts) false []) = true

theorem sdcardUpdate_negative (s : Steps) (addr : Nat) (parts beyond : List Part) :
    (sdcardUpdate s.env addr parts beyond).2 < 0 ↔ Noticed s addr parts beyond := by
  rw [sdcardUpdate, updateLoop_negative]
  rfl

theorem failed_of_lastNegative {ts : List Turn} (h : lastNegative false ts = true) :
    ∃ t ∈ ts, t.failed = true := by
  cases hLast : (ts.filterMap Turn.negative).getLast? with
  | none => simp [lastNegative, hLast] at h
  | some b =>
      obtain ⟨t, ht, hNegative⟩ := List.mem_filterMap.mp (List.mem_of_getLast? hLast)
      refine ⟨t, ht, ?_⟩
      simp only [lastNegative, hLast, Option.getD_some] at h
      cases t with
      | refused => rfl
      | unread => rfl
      | written tableFails found writeFails => simp_all [Turn.negative, Turn.failed]

end Fire3.SdRecovery

namespace Fire3.Ext4Img
open ByteMemory Block

def Succeeds (mmc : Mmc) (budget : Nat → Budget) (img : Mem) (requests : List Request) : Prop :=
  ∀ k r, requests[k]? = some r →
    (mmcBwrite mmc r.sector r.count (budget k) img r.data).1 = r.count

def Attempts (found : Bool) (mmc : Mmc) (depth : Nat) (img : Mem) (args : ImgArgs) : Prop :=
  found = true ∧ ∃ part, Target mmc depth args part ∧
    checkCompressExt4 img args.memAddr.toNat part.length ≠ none ∧
    (checkCompressExt4 img args.memAddr.toNat part.length ≠ some 0 → part.start / 512 ≠ 0)

/-- A call that returns, returns 0 exactly if it writes the image and every block write
succeeds. -/
def ReportsWrites (found : Bool) (mmcDev : Int) (mmc : Mmc) (depth : Nat) (budget : Nat → Budget)
    (img : Mem) (args : ImgArgs) : Prop :=
  let run := doCompressedExt4Write found mmcDev mmc depth (budget 0) img args
  ∀ ret, run.result = some ret → (ret = 0 ↔
    Attempts found mmc depth img args ∧ Succeeds mmc budget img run.requests)

/-- The calls for which the result is right: nothing is attempted, or a write of a compressed
image fails, or a raw image of no blocks, counted in 32 bits, is written. -/
def Reported (found : Bool) (mmc : Mmc) (depth : Nat) (budget : Nat → Budget) (img : Mem)
    (args : ImgArgs) : Prop :=
  ∀ part, found = true → Target mmc depth args part →
    match checkCompressExt4 img args.memAddr.toNat part.length with
    | none => True
    | some 0 => ¬Succeeds mmc budget img
        (compressedRequests img args.memAddr.toNat (part.start / 512 % 2 ^ 32))
    | some _ => part.start / 512 ≠ 0 → args.cnt % 2 ^ 32 = 0 ∧
        (mmcBwrite mmc (part.start / 512) args.cnt (budget 0) img args.memAddr.toNat).1 = args.cnt

theorem Target.unique {mmc : Mmc} {depth : Nat} {args : ImgArgs} {part part' : Fdisk.Part}
    (h : Target mmc depth args part) (h' : Target mmc depth args part') : part' = part := by
  obtain ⟨parts, hTable, -, hPart⟩ := h
  obtain ⟨parts', hTable', -, hPart'⟩ := h'
  grind

theorem doCompressedExt4Write_refused {found : Bool} {mmc : Mmc} {depth : Nat} {args : ImgArgs}
    (h : found = true → ∀ part, ¬Target mmc depth args part) (mmcDev : Int) (budget : Budget)
    (img : Mem) {ret : Int}
    (hRet : (doCompressedExt4Write found mmcDev mmc depth budget img args).result = some ret) :
    ret ≠ 0 := by
  rw [doCompressedExt4Write] at hRet
  split at hRet
  · cases hRet
    decide
  · rename_i hFound
    split at hRet
    · cases hRet
      decide
    · split at hRet
      · cases hRet
      · rename_i parts hTable
        split at hRet
        · cases hRet
          decide
        · rename_i hNumber
          split at hRet
          · cases hRet
            decide
          · rename_i part hPart
            refine absurd ⟨parts, hTable, by omega, hPart⟩ (h ?_ part)
            simpa using hFound

theorem mmcBwrite_result (mmc : Mmc) (start blkcnt : Nat) (budget : Budget) (src : Mem)
    (addr : Nat) : (mmcBwrite mmc start blkcnt budget src addr).1 = blkcnt ∨
      (mmcBwrite mmc start blkcnt budget src addr).1 = 0 := by
  rw [mmcBwrite]
  grind

theorem toS32_eq_zero {n : Nat} (h : n < 2 ^ 32) : toS32 n = 0 ↔ n = 0 := by
  unfold toS32 Int.bmod
  dsimp only
  split <;> omega

theorem doWrite_reports {mmc : Mmc} {budget : Nat → Budget} {img : Mem} {args : ImgArgs} {blk : Nat}
    (hBlk : blk ≠ 0) {ret : Int}
    (hRet : (doWrite mmc (budget 0) img args blk).result = some ret) :
    (ret = 0 ↔ Succeeds mmc budget img (doWrite mmc (budget 0) img args blk).requests) ↔
      args.cnt % 2 ^ 32 = 0 ∧
        (mmcBwrite mmc blk args.cnt (budget 0) img args.memAddr.toNat).1 = args.cnt := by
  rw [doWrite, if_neg hBlk] at hRet ⊢
  obtain rfl := Option.some.inj hRet
  have hSucceeds : Succeeds mmc budget img [⟨blk, args.cnt, args.memAddr.toNat⟩] ↔
      (mmcBwrite mmc blk args.cnt (budget 0) img args.memAddr.toNat).1 = args.cnt := by
    refine ⟨fun h => h 0 _ rfl, fun h k r hk => ?_⟩
    obtain ⟨rfl, rfl⟩ : k = 0 ∧ r = ⟨blk, args.cnt, args.memAddr.toNat⟩ := by
      grind
    exact h
  rw [hSucceeds, toS32_eq_zero (Nat.mod_lt _ (by decide))]
  obtain hAll | hNone := mmcBwrite_result mmc blk args.cnt (budget 0) img args.memAddr.toNat
  · rw [hAll]
    simp
  · rw [hNone, Nat.zero_mod]
    constructor
    · omega
    · omega

theorem reportsWrites_iff (found : Bool) (mmcDev : Int) (mmc : Mmc) (depth : Nat)
    (budget : Nat → Budget) (img : Mem) (args : ImgArgs) :
    ReportsWrites found mmcDev mmc depth budget img args ↔
      Reported found mmc depth budget img args := by
  by_cases hTarget : found = true ∧ ∃ part, Target mmc depth args part
  · obtain ⟨rfl, part, hTarget⟩ := hTarget
    have hAttempts : Attempts true mmc depth img args ↔
        checkCompressExt4 img args.memAddr.toNat part.length ≠ none ∧
          (checkCompressExt4 img args.memAddr.toNat part.length ≠ some 0 → part.start / 512 ≠ 0) := by
      refine ⟨?_, fun h => ⟨rfl, part, hTarget, h⟩⟩
      rintro ⟨_, part', h', h⟩
      exact hTarget.unique h' ▸ h
    have hOnly : Reported true mmc depth budget img args ↔ _ :=
      ⟨fun h => h part rfl hTarget, fun h part' _ h' => hTarget.unique h' ▸ h⟩
    rw [hOnly, ReportsWrites, hAttempts]
    simp only [doCompressedExt4Write_eq hTarget, writePartition]
    obtain hCheck | hCheck | hCheck := checkCompressExt4_cases img args.memAddr.toNat part.length
    · grind
    · rw [hCheck]
      constructor
      · intro h hSucceeds
        have hOne := (h 1 rfl).mpr ⟨⟨by simp, fun hNot => absurd rfl hNot⟩, hSucceeds⟩
        exact absurd hOne (by decide)
      · rintro h ret hRet
        obtain rfl := Option.some.inj hRet
        exact iff_of_false (by decide) fun hBoth => h hBoth.2
    · rw [hCheck]
      change (∀ ret, (doWrite mmc (budget 0) img args (part.start / 512)).result = some ret →
        (ret = 0 ↔ _ ∧ Succeeds mmc budget img
          (doWrite mmc (budget 0) img args (part.start / 512)).requests)) ↔ (_ → _)
      by_cases hBlk : part.start / 512 = 0
      · refine ⟨fun _ h => absurd hBlk h, fun _ ret hRet => ?_⟩
        rw [doWrite, if_pos hBlk] at hRet
        obtain rfl := Option.some.inj hRet
        exact iff_of_false (by decide) fun h => h.1.2 (by simp) hBlk
      · obtain ⟨ret, hRet⟩ : ∃ ret, (doWrite mmc (budget 0) img args (part.start / 512)).result =
            some ret := by
          rw [doWrite, if_neg hBlk]
          exact ⟨_, rfl⟩
        have hReports := @doWrite_reports mmc budget img args _ hBlk ret hRet
        grind
  · have hNone : found = true → ∀ part, ¬Target mmc depth args part :=
      fun hFound part h => hTarget ⟨hFound, part, h⟩
    refine ⟨fun _ part hFound h => absurd h (hNone hFound part), fun _ ret hRet => ?_⟩
    refine iff_of_false (doCompressedExt4Write_refused hNone mmcDev _ img hRet) ?_
    rintro ⟨⟨hFound, part, h, -⟩, -⟩
    exact hNone hFound part h

end Fire3.Ext4Img

namespace Fire3.SdRecovery
open CString ByteMemory Block Ext4Img

/-- The result of `sdcard_update` tells a failure exactly if every failure of the run is
noticed, and that of `ext4_img_write` exactly in the cases of `Reported`. -/
theorem recovery_reports_iff (s : Steps) (addr : Nat) (parts beyond : List Part) (found : Bool)
    (mmcDev : Int) (mmc : Mmc) (depth : Nat) (budget : Nat → Budget) (img : Mem) (args : ImgArgs) :
    (((sdcardUpdate s.env addr parts beyond).2 < 0 ↔ Fails s addr parts beyond) ↔
      (Fails s addr parts beyond → Noticed s addr parts beyond)) ∧
    (ReportsWrites found mmcDev mmc depth budget img args ↔
      Reported found mmc depth budget img args) := by
  refine ⟨?_, reportsWrites_iff found mmcDev mmc depth budget img args⟩
  rw [sdcardUpdate_negative]
  exact ⟨fun h => h.mpr, fun h => ⟨failed_of_lastNegative, h⟩⟩

def bootEntry : Part := ⟨ascii "mmc", 0, ascii "2ndboot", .secondBoot, 512, 32256, ascii "2nd.bin", 0⟩

def writeProtected : Steps where
  fsSetBlkDev := fun _ => false
  fsRead := fun _ _ => (0, 512)
  getDevice := fun _ _ => 0
  result := fun _ cmd => match cmd with
    | .mmcWrite _ _ _ => 1
    | .fdisk _ _ | .mmcDev _ | .mmcRescan | .ext4ImgWrite _ _ _ _ | .empty => 0

/-- The update of a write-protected card returns 1; a raw image that is written makes the
command return its blocks, and one that is not makes it return 0. -/
theorem recovery_hides_failure :
    Fails writeProtected 0x48000000 [bootEntry] [] ∧
      (sdcardUpdate writeProtected.env 0x48000000 [bootEntry] []).2 = 1 ∧
      (doCompressedExt4Write true 0 oneParted 1 none zero (imgArgs 4096)).result = some 8 ∧
      (doCompressedExt4Write true 0 oneParted 1 (some 0) zero (imgArgs 4096)).result = some 0 := by
  refine ⟨?_, by decide +kernel, ?_, ?_⟩
  · exact ⟨.written false true true, by decide +kernel, rfl⟩
  · rw [doCompressedExt4Write_eq (target_oneParted 4096)]
    decide +kernel
  · rw [doCompressedExt4Write_eq (target_oneParted 4096)]
    decide +kernel

end Fire3.SdRecovery

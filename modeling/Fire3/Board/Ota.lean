import Fire3.Base.CString

/-!
The A/B boot decision of `board/nexell/common/ota.c`.

One boot runs `check_ota_update` once: it reads the flag block of the booted
device, chooses the partitions to boot from, and writes the block back when the
update is on trial. The flag block is the only state that survives a boot; the
environment of each boot is an input.
-/

namespace Fire3.Ota
open CString

inductive BootPart
  | part0
  | part1
  | other (raw : Nat)
  deriving DecidableEq, Repr

inductive BootState
  | failed
  | success
  | updated
  | other (raw : Nat)
  deriving DecidableEq, Repr

structure PartInfo where
  state : BootState
  retry : UInt8
  tag : List UInt8
  deriving DecidableEq, Repr

structure BootInfo where
  headerMagic : List UInt8
  partNum : BootPart
  state : BootState
  part0 : PartInfo
  part1 : PartInfo
  deriving DecidableEq, Repr

inductive BootDev
  | mmc
  | sd
  deriving DecidableEq, Repr

abbrev Flags := BootDev → BootInfo

abbrev Env := CStr → Option CStr

def setenv (env : Env) (name value : String) : Env :=
  fun n => if n = ascii name then some (ascii value) else env n

inductive Slot
  | slot0
  | slot1
  deriving DecidableEq, Repr

def Slot.other : Slot → Slot
  | .slot0 => .slot1
  | .slot1 => .slot0

def BootPart.slot : BootPart → Slot
  | .part0 => .slot0
  | _ => .slot1

def BootInfo.part (boot : BootInfo) : Slot → PartInfo
  | .slot0 => boot.part0
  | .slot1 => boot.part1

def BootInfo.setPart (boot : BootInfo) (s : Slot) (p : PartInfo) : BootInfo :=
  match s with
  | .slot0 => { boot with part0 := p }
  | .slot1 => { boot with part1 := p }

def Slot.bootpart : Slot → String
  | .slot0 => "2"
  | .slot1 => "3"

def Slot.modulespart : Slot → String
  | .slot0 => "5"
  | .slot1 => "6"

def updatePartitionEnv (env : Env) (partNum : BootPart) : Env :=
  if partNum = .part0 then
    setenv (setenv env "bootpart" "2") "modulespart" "5"
  else
    setenv (setenv env "bootpart" "3") "modulespart" "6"

def validMagic (boot : BootInfo) : Bool :=
  strncmpEq (ofArray boot.headerMagic) (ascii "ARTIK_OTA") 32

def bootedDevice (rootdev : CStr) : Option BootDev :=
  if strncmpEq rootdev (ascii "0") 1 then some .mmc
  else if strncmpEq rootdev (ascii "1") 1 then some .sd
  else none

structure OtaResult where
  ret : Int
  env : Env
  flags : Flags

def writeFlagPartition (flags : Flags) (dev : BootDev) (boot : BootInfo) : Flags :=
  fun d => if d = dev then boot else flags d

/-- The `BOOT_UPDATED` branch: the block and the `bootdelay`/`rescue` settings it leaves. -/
def trialBoot (env : Env) (boot : BootInfo) : Env × BootInfo :=
  let cur := boot.partNum.slot
  let curPart := boot.part cur
  if 0 < curPart.retry then
    (setenv (setenv env "bootdelay" "0") "rescue" "0",
      boot.setPart cur { curPart with retry := curPart.retry - 1 })
  else
    let boot := boot.setPart cur { curPart with state := .failed }
    if (boot.part cur.other).state = .success then
      (setenv env "rescue" "1",
        { boot with
          partNum := if boot.partNum = .part0 then .part1 else .part0
          state := .success })
    else
      (env, { boot with state := .failed })

/-- `check_ota_update`. A missing `bootcmd` or `rootdev` is a null pointer for
the string functions, and the call has no result. -/
def checkOtaUpdate (env : Env) (flags : Flags) : Option OtaResult := do
  let env := setenv env "ota" "ota"
  let bootcmd ← env (ascii "bootcmd")
  if (strstr bootcmd (ascii "recoveryboot")).isSome then
    return ⟨0, env, flags⟩
  let rootdev ← env (ascii "rootdev")
  match bootedDevice rootdev with
  | none => return ⟨-1, env, flags⟩
  | some dev =>
      let boot := flags dev
      if validMagic boot then
        match boot.state with
        | .success =>
            return ⟨0, setenv (updatePartitionEnv env boot.partNum) "rescue" "0", flags⟩
        | .updated =>
            let (env, boot) := trialBoot env boot
            return ⟨0, updatePartitionEnv env boot.partNum, writeFlagPartition flags dev boot⟩
        | _ => return ⟨-1, updatePartitionEnv env .part0, flags⟩
      else
        return ⟨-1, env, flags⟩

/-- The boot takes its kernel and modules from this partition set. -/
def Selects (env : Env) (s : Slot) : Prop :=
  env (ascii "bootpart") = some (ascii s.bootpart) ∧
    env (ascii "modulespart") = some (ascii s.modulespart)

/-- An ordinary boot from `dev`: `bootcmd` is not the recovery one and
`rootdev` names the device. -/
structure OrdinaryBoot (dev : BootDev) (env : Env) : Prop where
  bootcmd : ∃ cmd, env (ascii "bootcmd") = some cmd ∧ strstr cmd (ascii "recoveryboot") = none
  rootdev : ∃ root, env (ascii "rootdev") = some root ∧ bootedDevice root = some dev

def flagsBefore (envs : Nat → Env) (flags : Flags) : Nat → Option Flags
  | 0 => some flags
  | n + 1 => (flagsBefore envs flags n).bind fun f =>
      (checkOtaUpdate (envs n) f).map (·.flags)

@[simp] theorem slot_other_other (s : Slot) : s.other.other = s := by
  cases s <;> rfl

@[simp] theorem part_setPart_same (boot : BootInfo) (s : Slot) (p : PartInfo) :
    (boot.setPart s p).part s = p := by
  cases s <;> rfl

@[simp] theorem part_setPart_other (boot : BootInfo) (s : Slot) (p : PartInfo) :
    (boot.setPart s p).part s.other = boot.part s.other := by
  cases s <;> rfl

@[simp] theorem partNum_setPart (boot : BootInfo) (s : Slot) (p : PartInfo) :
    (boot.setPart s p).partNum = boot.partNum := by
  cases s <;> rfl

@[simp] theorem state_setPart (boot : BootInfo) (s : Slot) (p : PartInfo) :
    (boot.setPart s p).state = boot.state := by
  cases s <;> rfl

@[simp] theorem headerMagic_setPart (boot : BootInfo) (s : Slot) (p : PartInfo) :
    (boot.setPart s p).headerMagic = boot.headerMagic := by
  cases s <;> rfl

theorem slot_flip (p : BootPart) :
    (if p = .part0 then BootPart.part1 else BootPart.part0).slot = p.slot.other := by
  cases p <;> rfl

theorem setenv_same (env : Env) (name value : String) :
    setenv env name value (ascii name) = some (ascii value) := by
  simp [setenv]

theorem setenv_of_ne (env : Env) (name value : String) {n : CStr} (h : n ≠ ascii name) :
    setenv env name value n = env n := by
  simp [setenv, h]

theorem updatePartitionEnv_selects (env : Env) (p : BootPart) :
    Selects (updatePartitionEnv env p) p.slot := by
  have hNames : ascii "bootpart" ≠ ascii "modulespart" := by decide
  unfold updatePartitionEnv
  cases p <;> exact ⟨by simp [setenv_of_ne _ _ _ hNames, setenv_same, Slot.bootpart, BootPart.slot],
    by simp [setenv_same, Slot.modulespart, BootPart.slot]⟩

theorem selects_setenv {env : Env} {s : Slot} (h : Selects env s) (value : String) :
    Selects (setenv env "rescue" value) s := by
  have hBoot : ascii "bootpart" ≠ ascii "rescue" := by decide
  have hModules : ascii "modulespart" ≠ ascii "rescue" := by decide
  exact ⟨by rw [setenv_of_ne _ _ _ hBoot, h.1], by rw [setenv_of_ne _ _ _ hModules, h.2]⟩

theorem selects_unique {env : Env} {s t : Slot} (hs : Selects env s) (ht : Selects env t) :
    s = t := by
  have hBoth := hs.1.symm.trans ht.1
  cases s <;> cases t <;> first | rfl | exact absurd hBoth (by decide)

/-!
Fallback of the A/B boot decision over whole runs of boots. An update on trial
counts its retries down, one per boot; the boot after the last one marks it
failed and moves to the other partition set, where every later boot stays.
-/

variable {boot : BootInfo} {p : Slot} {r n : Nat}

structure OnTrial (boot : BootInfo) (p : Slot) (r : Nat) : Prop where
  magic : validMagic boot = true
  state : boot.state = .updated
  slot : boot.partNum.slot = p
  retry : (boot.part p).retry.toNat = r
  trying : (boot.part p).state ≠ .failed
  backup : (boot.part p.other).state = .success

structure FellBack (boot : BootInfo) (p : Slot) : Prop where
  magic : validMagic boot = true
  state : boot.state = .success
  slot : boot.partNum.slot = p.other
  retry : (boot.part p).retry = 0
  given_up : (boot.part p).state = .failed
  backup : (boot.part p.other).state = .success

theorem checkOtaUpdate_ordinary {dev : BootDev} {env : Env} (h : OrdinaryBoot dev env)
    (flags : Flags) (magic : validMagic (flags dev) = true) :
    checkOtaUpdate env flags =
      let env := setenv env "ota" "ota"
      let boot := flags dev
      match boot.state with
      | .success =>
          some ⟨0, setenv (updatePartitionEnv env boot.partNum) "rescue" "0", flags⟩
      | .updated =>
          some ⟨0, updatePartitionEnv (trialBoot env boot).1 (trialBoot env boot).2.partNum,
            writeFlagPartition flags dev (trialBoot env boot).2⟩
      | _ => some ⟨-1, updatePartitionEnv env .part0, flags⟩ := by
  obtain ⟨⟨cmd, hCmd, hNoRecovery⟩, ⟨root, hRoot, hDev⟩⟩ := h
  have hCmd' : setenv env "ota" "ota" (ascii "bootcmd") = some cmd := by
    rw [setenv_of_ne _ _ _ (by decide), hCmd]
  have hRoot' : setenv env "ota" "ota" (ascii "rootdev") = some root := by
    rw [setenv_of_ne _ _ _ (by decide), hRoot]
  simp only [checkOtaUpdate, hCmd', hRoot', hNoRecovery, hDev, magic, Option.isSome_none,
    Option.bind_eq_bind, Option.bind_some, ite_true, Bool.false_eq_true, ite_false]
  split <;> simp_all

@[simp] theorem writeFlagPartition_same (flags : Flags) (dev : BootDev) (boot : BootInfo) :
    writeFlagPartition flags dev boot dev = boot := by
  simp [writeFlagPartition]

theorem trialBoot_retry (h : OnTrial boot p (r + 1)) (env : Env) :
    OnTrial (trialBoot env boot).2 p r ∧
      ((trialBoot env boot).2.part p.other).retry = (boot.part p.other).retry := by
  have hPos : 0 < (boot.part p).retry := by
    rw [UInt8.lt_iff_toNat_lt, h.retry]
    simp
  have hEq : (trialBoot env boot).2 =
      boot.setPart p { boot.part p with retry := (boot.part p).retry - 1 } := by
    simp [trialBoot, h.slot, hPos]
  rw [hEq]
  refine ⟨⟨?_, ?_, ?_, ?_, ?_, ?_⟩, by simp⟩
  · simpa [validMagic] using h.magic
  · simpa using h.state
  · simpa using h.slot
  · have hOne : (1 : UInt8) ≤ (boot.part p).retry := by
      rw [UInt8.le_iff_toNat_le, h.retry]
      simp
    simp [UInt8.toNat_sub_of_le _ _ hOne, h.retry]
  · simpa using h.trying
  · simpa using h.backup

theorem trialBoot_exhausted (h : OnTrial boot p 0) (env : Env) :
    FellBack (trialBoot env boot).2 p ∧
      ((trialBoot env boot).2.part p.other).retry = (boot.part p.other).retry := by
  have hZero : (boot.part p).retry = 0 := UInt8.toNat_inj.mp (by simpa using h.retry)
  have hEq : (trialBoot env boot).2 =
      { boot.setPart p { boot.part p with state := .failed } with
        partNum := if boot.partNum = .part0 then .part1 else .part0
        state := .success } := by
    simp [trialBoot, h.slot, hZero, h.backup]
  have hParts (s : Slot) : (trialBoot env boot).2.part s =
      (boot.setPart p { boot.part p with state := .failed }).part s := by
    rw [hEq]
    cases s <;> rfl
  refine ⟨⟨?_, ?_, ?_, ?_, ?_, ?_⟩, by rw [hParts]; simp⟩
  · rw [hEq]
    simpa [validMagic] using h.magic
  · rw [hEq]
  · rw [hEq]
    simpa [h.slot] using slot_flip boot.partNum
  · rw [hParts]
    simpa using hZero
  · rw [hParts]
    simp
  · rw [hParts]
    simpa using h.backup

def TrialRun (boot : BootInfo) (p : Slot) (r n : Nat) : Prop :=
  (n ≤ r ∧ OnTrial boot p (r - n)) ∨ (r < n ∧ FellBack boot p)

theorem boot_of_trialRun {dev : BootDev} {env : Env} (ordinary : OrdinaryBoot dev env)
    {flags : Flags} (h : TrialRun (flags dev) p r n) :
    ∃ res, checkOtaUpdate env flags = some res ∧ res.ret = 0 ∧
      Selects res.env (if n < r then p else p.other) ∧ TrialRun (res.flags dev) p r (n + 1) ∧
      ((res.flags dev).part p.other).retry = ((flags dev).part p.other).retry := by
  rcases h with ⟨hn, trial⟩ | ⟨hn, fell⟩
  · have hRun := checkOtaUpdate_ordinary ordinary flags trial.magic
    simp only [trial.state] at hRun
    refine ⟨_, hRun, rfl, ?_, ?_⟩
    · have hSelects := updatePartitionEnv_selects
        (trialBoot (setenv env "ota" "ota") (flags dev)).1
        (trialBoot (setenv env "ota" "ota") (flags dev)).2.partNum
      by_cases hLast : n < r
      · have next := (trialBoot_retry (r := r - n - 1)
          (by rwa [Nat.sub_add_cancel (by omega)]) (setenv env "ota" "ota")).1
        simpa only [if_pos hLast, next.slot] using hSelects
      · have next := (trialBoot_exhausted (by rwa [show r - n = 0 by omega] at trial)
          (setenv env "ota" "ota")).1
        simpa only [if_neg hLast, next.slot] using hSelects
    · simp only [writeFlagPartition_same]
      by_cases hLast : n < r
      · have next := trialBoot_retry (r := r - n - 1)
          (by rwa [Nat.sub_add_cancel (by omega)]) (setenv env "ota" "ota")
        exact ⟨Or.inl ⟨hLast, next.1⟩, next.2⟩
      · have next := trialBoot_exhausted (by rwa [show r - n = 0 by omega] at trial)
          (setenv env "ota" "ota")
        exact ⟨Or.inr ⟨by omega, next.1⟩, next.2⟩
  · have hRun := checkOtaUpdate_ordinary ordinary flags fell.magic
    simp only [fell.state] at hRun
    refine ⟨_, hRun, rfl, ?_, Or.inr ⟨by omega, fell⟩, rfl⟩
    rw [if_neg (by omega), ← fell.slot]
    exact selects_setenv (updatePartitionEnv_selects _ _) "0"

theorem flagsBefore_trialRun {dev : BootDev} {flags : Flags} {envs : Nat → Env}
    (boots : ∀ n, OrdinaryBoot dev (envs n)) (start : OnTrial (flags dev) p r) (n : Nat) :
    ∃ before, flagsBefore envs flags n = some before ∧ TrialRun (before dev) p r n ∧
      ((before dev).part p.other).retry = ((flags dev).part p.other).retry := by
  induction n with
  | zero => exact ⟨flags, rfl, Or.inl ⟨Nat.zero_le r, start⟩, rfl⟩
  | succ n ih =>
      obtain ⟨before, hBefore, hRun, hRetry⟩ := ih
      obtain ⟨res, hRes, _, _, hNext, hKept⟩ := boot_of_trialRun (boots n) hRun
      exact ⟨res.flags, by simp [flagsBefore, hBefore, hRes], hNext, hKept.trans hRetry⟩

theorem trialRun_retry (h : TrialRun boot p r n) : (boot.part p).retry.toNat = r - n := by
  rcases h with ⟨_, trial⟩ | ⟨hn, fell⟩
  · exact trial.retry
  · rw [fell.retry]
    simp
    omega

/-- A set that is recorded as failed next to a good one. -/
def KnownBad (boot : BootInfo) (s : Slot) : Prop :=
  (boot.part s).state = .failed ∧ (boot.part s.other).state = .success

theorem not_knownBad_of_trialRun (h : TrialRun boot p r n) :
    ¬ KnownBad boot p.other ∧ (n ≤ r → ¬ KnownBad boot p) := by
  rcases h with ⟨_, trial⟩ | ⟨hn, fell⟩
  · simp [trial.trying, KnownBad, trial.backup]
  · grind [KnownBad, fell.backup]

/-- Starting from an update on trial, the first `r` boots select it and every
later boot selects the other set, with the update marked failed from then on.
The retry counter counts down to zero and stays there, and no boot selects a set
that the block, before or after that boot, records as failed next to a good one. -/
theorem ota_boots_fall_back {dev : BootDev} {flags : Flags} {p : Slot} {r : Nat}
    {envs : Nat → Env} (boots : ∀ n, OrdinaryBoot dev (envs n))
    (start : OnTrial (flags dev) p r) (n : Nat) :
    ∃ before res, flagsBefore envs flags n = some before ∧
      checkOtaUpdate (envs n) before = some res ∧ res.ret = 0 ∧
      (n < r → Selects res.env p) ∧
      (r ≤ n → Selects res.env p.other ∧ ((res.flags dev).part p).state = .failed) ∧
      ((before dev).part p).retry.toNat = r - n ∧
      ((res.flags dev).part p).retry.toNat = r - (n + 1) ∧
      ((res.flags dev).part p.other).retry = ((flags dev).part p.other).retry ∧
      ∀ s, Selects res.env s → ¬ KnownBad (before dev) s ∧ ¬ KnownBad (res.flags dev) s := by
  obtain ⟨before, hBefore, hRun, hRetry⟩ := flagsBefore_trialRun boots start n
  obtain ⟨res, hRes, hRet, hSelects, hNext, hKept⟩ := boot_of_trialRun (boots n) hRun
  refine ⟨before, res, hBefore, hRes, hRet, ?_, ?_, trialRun_retry hRun, trialRun_retry hNext,
    hKept.trans hRetry, ?_⟩
  · intro hn
    rwa [if_pos hn] at hSelects
  · intro hn
    rw [if_neg (by omega)] at hSelects
    rcases hNext with ⟨hle, _⟩ | ⟨_, fell⟩
    · omega
    · exact ⟨hSelects, fell.given_up⟩
  · intro s hs
    rw [selects_unique hs hSelects]
    split
    · exact ⟨(not_knownBad_of_trialRun hRun).2 (by omega),
        (not_knownBad_of_trialRun hNext).2 (by omega)⟩
    · exact ⟨(not_knownBad_of_trialRun hRun).1, (not_knownBad_of_trialRun hNext).1⟩

def updatedBlock : BootInfo where
  headerMagic := ascii "ARTIK_OTA" ++ List.replicate 23 0
  partNum := .part1
  state := .updated
  part0 := ⟨.success, 0, []⟩
  part1 := ⟨.updated, 2, []⟩

def bootEnv : Env :=
  setenv (setenv (fun _ => none) "bootcmd" "run ramfsboot") "rootdev" "0"

theorem bootEnv_ordinary : OrdinaryBoot .mmc bootEnv :=
  ⟨⟨ascii "run ramfsboot", by decide, by decide⟩, ⟨ascii "0", by decide, by decide⟩⟩

theorem updatedBlock_onTrial : OnTrial updatedBlock .slot1 2 :=
  ⟨by decide, rfl, rfl, by decide, by decide, rfl⟩

theorem ota_boots_fall_back_third :
    ∃ before res, flagsBefore (fun _ => bootEnv) (fun _ => updatedBlock) 2 = some before ∧
      checkOtaUpdate bootEnv before = some res ∧ Selects res.env .slot0 ∧
      ((res.flags .mmc).part .slot1).state = .failed := by
  obtain ⟨before, res, hBefore, hRes, _, _, hLate, _⟩ :=
    @ota_boots_fall_back .mmc (fun _ => updatedBlock) .slot1 2 (fun _ => bootEnv)
      (fun _ => bootEnv_ordinary) updatedBlock_onTrial 2
  exact ⟨before, res, hBefore, hRes, hLate (Nat.le_refl 2)⟩

end Fire3.Ota

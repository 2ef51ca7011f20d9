import Fire3.Dfu.Download

/-!
What a DFU download does with its buffer, step by step.

The calls fill the buffer with the chunks and drain it at points that depend on the sizes only.
A download comes to the same as these steps, so the bytes of each drain are known beforehand.
-/

namespace Fire3.Dfu
open ByteMemory

inductive Step
  | fill (chunk : List UInt8)
  | drain

def Step.run (t : Target) : Step → Transfer → Int × Transfer
  | .fill chunk, x => (0, { x with buf := store x.buf x.iBuf chunk, iBuf := x.iBuf + chunk.length })
  | .drain, x => dfuWriteBufferDrain t x

def runSteps (t : Target) : List Step → Transfer → Option Transfer
  | [], x => some x
  | step :: steps, x =>
      let (ret, x) := step.run t x
      if ret ≠ 0 then none else runSteps t steps x

def chunkSteps (size held : Nat) (chunk : List UInt8) : List Step :=
  let tooMuch := held + chunk.length > size
  let held := (if tooMuch then 0 else held) + chunk.length
  (if tooMuch then [.drain] else []) ++
    .fill chunk :: if chunk.length = 0 ∨ held + chunk.length > size then [.drain] else []

def heldBehind (size held n : Nat) : Nat :=
  let held := (if held + n > size then 0 else held) + n
  if n = 0 ∨ held + n > size then 0 else held

def plan (size : Nat) : Nat → List (List UInt8) → List Step
  | _, [] => [.drain]
  | held, chunk :: chunks =>
      chunkSteps size held chunk ++ plan size (heldBehind size held chunk.length) chunks

def outcome (r : Int × DfuEntity) : Option Mmc := if r.1 = 0 then some r.2.mmc else none

section
variable {t : Target}

theorem runSteps_append (steps rest : List Step) (x : Transfer) :
    runSteps t (steps ++ rest) x = (runSteps t steps x).bind (runSteps t rest) := by
  induction steps generalizing x with
  | nil => rfl
  | cons step steps ih =>
      rw [List.cons_append, runSteps, runSteps]
      grind

theorem drain_iBuf (x : Transfer) : (dfuWriteBufferDrain t x).2.iBuf = 0 := by
  grind [dfuWriteBufferDrain]

theorem runSteps_drain_if (p : Prop) [Decidable p] (x : Transfer) :
    runSteps t (if p then [.drain] else []) x =
      let r := if p then dfuWriteBufferDrain t x else (0, x)
      if r.1 ≠ 0 then none else some r.2 := by
  split <;> rfl

theorem dfuFill_spec {s : DfuEntity} {chunk : List UInt8} (hFit : chunk.length ≤ s.iBufEnd) :
    match runSteps t (chunkSteps s.iBufEnd s.iBuf chunk) s.toTransfer with
    | none => (dfuFill t s chunk).1 ≠ 0
    | some x => dfuFill t s chunk = (0, { s with toTransfer := x }) ∧
        x.iBuf = heldBehind s.iBufEnd s.iBuf chunk.length := by
  rw [chunkSteps, runSteps_append, runSteps_drain_if, dfuFill]
  dsimp only
  set room := if s.iBuf + chunk.length > s.iBufEnd then dfuWriteBufferDrain t s.toTransfer
    else (0, s.toTransfer) with hRoom
  have hHeld : room.2.iBuf = if s.iBuf + chunk.length > s.iBufEnd then 0 else s.iBuf := by
    grind [drain_iBuf]
  have hIn : ¬room.2.iBuf + chunk.length > s.iBufEnd := by
    rw [hHeld]
    split <;> omega
  by_cases hOk : room.1 = 0
  · rw [if_neg (not_not_intro hOk), Option.bind_some, orCleanup, if_neg (not_not_intro hOk)]
    dsimp only
    rw [if_neg hIn, runSteps, Step.run]
    dsimp only
    rw [if_neg (not_not_intro rfl), ← hHeld, runSteps_drain_if, orCleanup]
    set full := if chunk.length = 0 ∨ room.2.iBuf + chunk.length + chunk.length > s.iBufEnd then
        dfuWriteBufferDrain t { room.2 with buf := store room.2.buf room.2.iBuf chunk
                                            iBuf := room.2.iBuf + chunk.length }
      else (0, { room.2 with buf := store room.2.buf room.2.iBuf chunk
                             iBuf := room.2.iBuf + chunk.length }) with hFull
    by_cases hDone : full.1 = 0
    · rw [if_neg (not_not_intro hDone), if_neg (not_not_intro hDone)]
      refine ⟨rfl, ?_⟩
      rw [heldBehind, ← hHeld, hFull]
      grind [drain_iBuf]
    · rw [if_pos hDone, if_pos hDone]
      exact hDone
  · rw [if_pos hOk, Option.bind_none, orCleanup, if_pos hOk]
    exact hOk

theorem outcome_download {s : DfuEntity} {chunks : List (List UInt8)} {blkSeqNum : Nat}
    (hInit : s.inited = true) (hSeq : s.iBlkSeqNum = blkSeqNum) (hLt : blkSeqNum < 65536)
    (hFit : ∀ c ∈ chunks, c.length ≤ s.iBufEnd) :
    outcome (download t chunks blkSeqNum s) =
      (runSteps t (plan s.iBufEnd s.iBuf chunks) s.toTransfer).map Transfer.mmc := by
  induction chunks generalizing s blkSeqNum with
  | nil =>
      rw [download, dfuFlush, plan, runSteps, Step.run]
      dsimp only
      by_cases hOk : (dfuWriteBufferDrain t s.toTransfer).1 = 0
      · rw [if_neg (not_not_intro hOk), if_neg (not_not_intro hOk)]
        rfl
      · rw [if_pos hOk, if_pos hOk, outcome, if_neg hOk]
        rfl
  | cons chunk chunks ih =>
      rw [List.forall_mem_cons] at hFit
      have hNext : (blkSeqNum + 1) &&& 0xffff = (blkSeqNum + 1) % 65536 :=
        Nat.and_two_pow_sub_one_eq_mod _ 16
      set s' : DfuEntity := { s with iBlkSeqNum := (s.iBlkSeqNum + 1) &&& 0xffff } with hs'
      have hWrite : dfuWrite t s chunk blkSeqNum = dfuFill t s' chunk := by
        rw [dfuWrite, dfuInit, if_pos hInit]
        grind
      have hChunk := @dfuFill_spec t s' chunk hFit.1
      rw [download, hWrite, plan, runSteps_append]
      dsimp only
      cases hRun : runSteps t (chunkSteps s.iBufEnd s.iBuf chunk) s.toTransfer with
      | none =>
          simp only [hs', hRun] at hChunk
          rw [if_pos hChunk, outcome, if_neg hChunk]
          rfl
      | some x =>
          simp only [hs', hRun] at hChunk
          obtain ⟨hFill, hHeld⟩ := hChunk
          rw [hFill, if_neg (not_not_intro rfl), Option.bind_some, ← hHeld]
          refine ih hInit ?_ (Nat.mod_lt _ (by decide)) hFit.2
          rw [hSeq]
          exact hNext

theorem outcome_download_fresh {s : DfuEntity} {size : Nat} {chunks : List (List UInt8)}
    (hInit : s.inited = false) (hBuf : s.iBuf = 0) (hSize : t.dfuGetBuf s.dfuBuf = some size)
    (hFit : ∀ c ∈ chunks, c.length ≤ size) :
    outcome (download t chunks 0 s) =
      (runSteps t (plan size 0 chunks) ⟨0, 0, s.buf, s.mmc⟩).map Transfer.mmc := by
  let s' : DfuEntity := ⟨⟨0, 0, s.buf, s.mmc⟩, size, 0, true, some size⟩
  have hStart := @outcome_download t s' chunks 0 rfl rfl (by decide) hFit
  rw [← hStart]
  cases chunks with
  | nil =>
      have hIdle : dfuWriteBufferDrain t s.toTransfer = (0, s.toTransfer) := by
        rw [dfuWriteBufferDrain, if_pos hBuf]
      rw [download, download, dfuFlush, hIdle]
      rfl
  | cons chunk chunks =>
      have hWrite : dfuWrite t s chunk 0 = dfuWrite t s' chunk 0 := by
        grind [dfuWrite, dfuInit]
      rw [download, hWrite, download]

end

def pieces : List UInt8 → List Step → List (List UInt8)
  | _, [] => []
  | held, .fill chunk :: steps => pieces (held ++ chunk) steps
  | held, .drain :: steps => held :: pieces [] steps

/-- How many bytes the drains of a download have, by the sizes of the chunks. -/
def drained (size : Nat) : Nat → List Nat → List Nat
  | held, [] => [held]
  | held, n :: ns =>
      let tooMuch := held + n > size
      let behind := (if tooMuch then 0 else held) + n
      (if tooMuch then [held] else []) ++ (if n = 0 ∨ behind + n > size then [behind] else []) ++
        drained size (heldBehind size held n) ns

theorem pieces_chunkSteps (size : Nat) (held chunk : List UInt8) (steps : List Step) :
    ∃ out left,
      pieces held (chunkSteps size held.length chunk ++ steps) = out ++ pieces left steps ∧
      out.flatten ++ left = held ++ chunk ∧ left.length = heldBehind size held.length chunk.length ∧
      ∀ ns, out.map List.length ++ drained size left.length ns =
        drained size held.length (chunk.length :: ns) := by
  simp only [chunkSteps, drained, heldBehind]
  by_cases hOver : held.length + chunk.length > size
  · simp only [if_pos hOver]
    by_cases hFull : chunk.length = 0 ∨ 0 + chunk.length + chunk.length > size
    · simp only [if_pos hFull]
      exact ⟨[held, chunk], [], by simp [pieces], by simp, rfl, by simp⟩
    · simp only [if_neg hFull]
      exact ⟨[held], chunk, by simp [pieces], by simp, by simp, by simp⟩
  · simp only [if_neg hOver]
    by_cases hFull : chunk.length = 0 ∨ held.length + chunk.length + chunk.length > size
    · simp only [if_pos hFull]
      exact ⟨[held ++ chunk], [], by simp [pieces], by simp, rfl, by simp⟩
    · simp only [if_neg hFull]
      exact ⟨[], held ++ chunk, by simp [pieces], by simp, by simp, by simp⟩

theorem pieces_plan (size : Nat) (held : List UInt8) (chunks : List (List UInt8)) :
    (pieces held (plan size held.length chunks)).flatten = held ++ chunks.flatten ∧
      (pieces held (plan size held.length chunks)).map List.length =
        drained size held.length (chunks.map List.length) := by
  induction chunks generalizing held with
  | nil => simp [plan, pieces, drained]
  | cons chunk chunks ih =>
      obtain ⟨out, left, hPieces, hBytes, hLeft, hLengths⟩ := pieces_chunkSteps size held chunk
        (plan size (heldBehind size held.length chunk.length) chunks)
      obtain ⟨hFlat, hDrained⟩ := ih left
      rw [plan, hPieces, ← hLeft]
      grind

theorem pieces_plan_empty (size : Nat) (chunks : List (List UInt8)) :
    (pieces [] (plan size 0 chunks)).flatten = chunks.flatten ∧
      (pieces [] (plan size 0 chunks)).map List.length = drained size 0 (chunks.map List.length) :=
  pieces_plan size [] chunks

end Fire3.Dfu

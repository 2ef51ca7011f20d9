import Fire3.Base.Transition
import Fire3.Net.Reassembly

/-!
Runs of `__net_defragment` over the fragments of one datagram, in any order and with any
of them repeated.

The datagram is returned once, when the last of its fragments arrives, as long as no
fragment adjoins the first ones while the very first is missing, and the late ones, whose
hole record is data by then, are turned away.
-/

namespace Fire3.Net
open ByteMemory LinkedList

variable {g : Fragmented} {d : Defrag} {ident f : Nat} {received : List Nat}

def Fresh (ident : Nat) (d : Defrag) : Prop := d.totalLen = 0 ∨ readLE d.pktBuff 4 2 ≠ ident

theorem netDefragment_eq {ip : Mem} (h : g.IsFragment ident f ip) (hf : f < g.count) (d : Defrag) :
    netDefragment d ip = (if d.totalLen = 0 ∨ readLE d.pktBuff 4 2 ≠ ident then d.reset ip
      else d).assemble (g.block f) (decide (f + 1 ≠ g.count)) (g.bytes f) := by
  have hLe := g.finish_le f
  have hSize := g.size
  have hSum : g.block f * 8 + (ipHdrSize + (g.finish f - g.start f)) = ipHdrSize + g.finish f := by
    rw [Nat.add_left_comm, Fragmented.block_add_size hf]
  have hMore : (readBE16 ip 6 &&& 0x2000 ≠ 0) ↔ f + 1 ≠ g.count := h.more.not
  rw [netDefragment]
  dsimp only
  rw [h.len, h.offset, h.ident, hSum, if_neg (by omega), if_neg (by omega), Nat.add_sub_cancel_left,
    h.data]
  simp only [hMore]

/-- A late fragment that the test against the last hole turns away: the words that stand in the
place of its record are data now. -/
def TurnedAway (g : Fragmented) (d : Defrag) (f : Nat) : Prop :=
  g.start f ≤ (d.hole d.firstHole).value ∧
      g.block f + (g.finish f - g.start f + 7) / 8 ≤ d.firstHole ∨
    (d.hole d.firstHole).value < g.start f ∧ (d.hole d.firstHole).next = 0

theorem assemble_late (h : TurnedAway g d f) (hf : f < g.count) (mfrag : Bool) :
    d.assemble (g.block f) mfrag (g.bytes f) = some (d, none) := by
  have hStart : g.start f = g.block f * 8 := Nat.mul_comm ..
  unfold TurnedAway at h
  rw [hStart] at h
  rw [Defrag.assemble, Fragmented.length_bytes hf, Defrag.findHole, hStart]
  dsimp only
  rcases h with ⟨hReach, hBefore⟩ | ⟨hShort, hEnd⟩
  · rw [if_neg (Nat.not_lt.mpr hReach)]
    exact if_pos hBefore
  · rw [if_pos hShort, if_pos hEnd]

instance decidableTurnedAway (g : Fragmented) (d : Defrag) (f : Nat) : Decidable (TurnedAway g d f) :=
  inferInstanceAs (Decidable (_ ∨ _))

instance decidableAdjoins (received : List Nat) (f : Nat) : Decidable (Adjoins received f) :=
  inferInstanceAs (Decidable (_ ∧ _ ∧ _))

structure Arrival (g : Fragmented) (ident : Nat) where
  fragment : Nat
  ip : Mem
  lt : fragment < g.count
  isFragment : g.IsFragment ident fragment ip

/-- The state with the fragments that have arrived, the latest first, and for each call the
length and the bytes of the packet it returned. -/
structure Reassembly where
  defrag : Defrag
  received : List Nat
  returned : List (Option (Nat × List UInt8))

def Reassembly.step (s : Reassembly) (a : Arrival g ident) : Option Reassembly :=
  (netDefragment s.defrag a.ip).map fun r =>
    { defrag := r.1
      received := a.fragment :: s.received
      returned := s.returned ++
        [r.2.map fun len => (len, load r.1.pktBuff ipHdrSize (len - ipHdrSize))] }

def Fragmented.result (g : Fragmented) (received : List Nat) (f : Nat) :
    Option (Nat × List UInt8) :=
  if Complete g (f :: received) ∧ ¬Complete g received then
    some (g.payload.length + ipHdrSize, g.payload)
  else none

def Fragmented.results (g : Fragmented) : List Nat → List (Option (Nat × List UInt8))
  | [] => []
  | f :: received => g.results received ++ [g.result received f]

theorem Complete.cons (h : Complete g received) (f : Nat) : Complete g (f :: received) :=
  fun m hm => List.mem_cons_of_mem f (h m hm)

theorem not_complete_nil (g : Fragmented) : ¬Complete g [] := by
  intro h
  simpa using h 0 g.count_pos

theorem count_results (g : Fragmented) (received : List Nat) :
    (g.results received).countP Option.isSome = if Complete g received then 1 else 0 := by
  induction received with
  | nil => rw [if_neg (not_complete_nil g)]; rfl
  | cons f received ih =>
      rw [Fragmented.results, List.countP_append, ih, Fragmented.result]
      by_cases hBefore : Complete g received
      · simp [hBefore, hBefore.cons f]
      · grind

/-- What a fragment has to meet when it arrives. -/
def Admissible (s : Reassembly) (a : Arrival g ident) : Prop :=
  if Complete g s.received then TurnedAway g s.defrag a.fragment
  else ¬Adjoins s.received a.fragment

instance decidableAdmissible (s : Reassembly) (a : Arrival g ident) : Decidable (Admissible s a) :=
  inferInstanceAs (Decidable (if Complete g s.received then TurnedAway g s.defrag a.fragment
    else ¬Adjoins s.received a.fragment))

inductive Stage (g : Fragmented) (ident : Nat) (received : List Nat) (d : Defrag) : Prop where
  | fresh : received = [] → Fresh ident d → Stage g ident received d
  | assembling (hs : List (Nat × Nat)) : Assembling g ident received hs d → Stage g ident received d
  | assembled : Complete g received → Assembled g ident d → Stage g ident received d

theorem Assembling.not_complete {hs : List (Nat × Nat)} (h : Assembling g ident received hs d) :
    ¬Complete g received :=
  mt (no_gap_iff h.ordered h.missing).mpr h.incomplete

theorem Assembling.totalLen_ne_zero {hs : List (Nat × Nat)} (h : Assembling g ident received hs d) :
    d.totalLen ≠ 0 := by
  have hLast := g.last_lt
  rw [h.total]
  split <;> omega

theorem assemble_assembling {hs : List (Nat × Nat)} (h : Assembling g ident received hs d)
    (hf : f < g.count) (hOk : ¬Adjoins received f) :
    ∃ d' len, d.assemble (g.block f) (decide (f + 1 ≠ g.count)) (g.bytes f) = some (d', len) ∧
      WritesInside d d' ∧ Stage g ident (f :: received) d' ∧
      (len.map fun n => (n, load d'.pktBuff ipHdrSize (n - ipHdrSize))) = g.result received f := by
  have hBefore := h.not_complete
  by_cases hNew : f ∈ received
  · obtain ⟨d', hCall, hInside, h'⟩ := assemble_old h hf hNew
    have hSame : ∀ m, m ∈ f :: received ↔ m ∈ received := by
      grind
    have hNow : ¬Complete g (f :: received) := by
      simpa only [Complete, hSame] using hBefore
    refine ⟨d', none, hCall, hInside, .assembling hs ?_, ?_⟩
    · refine ⟨h'.ident, ?_, fun m hm hMem => h'.data m hm ((hSame m).mp hMem), h'.ordered, ?_,
        h'.linked, h'.incomplete⟩
      · simp only [hSame]
        exact h'.total
      · simp only [hSame]
        exact h'.missing
    · simp [Fragmented.result, hNow]
  · obtain ⟨d', done, hCall, hInside, hDone, hEnd, hRest⟩ := assemble_new h hf hNew hOk
    refine ⟨d', _, hCall, hInside, ?_⟩
    cases done with
    | true =>
        have hNow : Complete g (f :: received) := hDone.mp rfl
        have hPacket := hEnd rfl
        refine ⟨.assembled hNow hPacket, ?_⟩
        simp [Fragmented.result, hNow, hBefore, hPacket.data]
    | false =>
        have hNow : ¬Complete g (f :: received) := fun hAll => by simpa using hDone.mpr hAll
        obtain ⟨hs', h'⟩ := hRest rfl
        refine ⟨.assembling hs' h', ?_⟩
        simp [Fragmented.result, hNow]

theorem Stage.step {ip : Mem} (h : Stage g ident received d) (hf : f < g.count)
    (hIp : g.IsFragment ident f ip)
    (hOk : if Complete g received then TurnedAway g d f else ¬Adjoins received f) :
    ∃ d' len, netDefragment d ip = some (d', len) ∧
      WritesInside d d' ∧ Stage g ident (f :: received) d' ∧
      (len.map fun n => (n, load d'.pktBuff ipHdrSize (n - ipHdrSize))) = g.result received f := by
  rw [netDefragment_eq hIp hf]
  cases h with
  | fresh hNone hFresh =>
      subst hNone
      rw [if_neg (not_complete_nil g)] at hOk
      obtain ⟨hReset, hWrites⟩ := reset_spec g d ip
      rw [hIp.ident] at hReset
      obtain ⟨d', len, hCall, hInside, hRest⟩ := assemble_assembling hReset hf hOk
      rw [if_pos (show _ ∨ _ from hFresh)]
      exact ⟨d', len, hCall, hWrites.trans hInside, hRest⟩
  | assembling hs h =>
      rw [if_neg h.not_complete] at hOk
      rw [if_neg (by simp [h.totalLen_ne_zero, h.ident])]
      exact assemble_assembling h hf hOk
  | assembled hAll h =>
      have hLast := g.last_lt
      have hTotal : d.totalLen ≠ 0 := by rw [h.total]; omega
      rw [if_pos hAll] at hOk
      rw [if_neg (by simp [hTotal, h.ident])]
      refine ⟨d, none, assemble_late hOk hf _, WritesInside.refl d, .assembled (hAll.cons f) h, ?_⟩
      simp [Fragmented.result, hAll]

theorem received_run {s t : Reassembly} {as : List (Arrival g ident)}
    (h : Transition.run Reassembly.step s as = some t) :
    t.received = (as.map Arrival.fragment).reverse ++ s.received := by
  induction as generalizing s with
  | nil => cases h; rfl
  | cons a as ih =>
      obtain ⟨r, hStep, hRest⟩ := Transition.run_cons_eq_some.mp h
      obtain ⟨_, -, rfl⟩ := Option.map_eq_some_iff.mp hStep
      rw [ih hRest]
      simp

/-- In a run whose fragments are all admissible each call returns what it should, and nothing
is written outside of `pkt_buff`. -/
theorem defragment_run (hFresh : Fresh ident d) {as : List (Arrival g ident)}
    (hRun : Transition.MeetsRun Reassembly.step Admissible ⟨d, [], []⟩ as) :
    ∃ t, Transition.run Reassembly.step ⟨d, [], []⟩ as = some t ∧
      t.returned = g.results (as.map Arrival.fragment).reverse ∧
      t.returned.countP Option.isSome =
        (if Complete g (as.map Arrival.fragment) then 1 else 0) ∧
      WritesInside d t.defrag := by
  have hKeeps : ∀ (s : Reassembly) (a : Arrival g ident),
      (Stage g ident s.received s.defrag ∧ s.returned = g.results s.received ∧
        WritesInside d s.defrag) → Admissible s a →
      ∃ t, s.step a = some t ∧ Stage g ident t.received t.defrag ∧
        t.returned = g.results t.received ∧ WritesInside d t.defrag := by
    rintro s a ⟨hStage, hReturned, hInside⟩ hOk
    obtain ⟨d', len, hCall, hWrites, hStage', hResult⟩ := hStage.step a.lt a.isFragment hOk
    refine ⟨_, by rw [Reassembly.step, hCall, Option.map_some], hStage', ?_, hInside.trans hWrites⟩
    rw [Fragmented.results, ← hResult, hReturned]
  obtain ⟨t, hEnd, -, hReturned, hInside⟩ := Transition.run_of_meetsRun hKeeps hRun
    ⟨.fresh rfl hFresh, rfl, WritesInside.refl d⟩
  have hReceived := received_run hEnd
  rw [List.append_nil] at hReceived
  have hSame : Complete g (as.map Arrival.fragment).reverse ↔ Complete g (as.map Arrival.fragment) := by
    simp only [Complete, List.mem_reverse]
  grind [count_results]

def threeFragments : Fragmented where
  payload := (List.range 24).map UInt8.ofNat
  count := 3
  block f := f
  count_pos := by decide
  block_zero := rfl
  increasing _ _ h _ := h
  last_lt := by decide
  size := by decide

def fragmentPacket (f : Fin 3) : Mem :=
  store (fun _ => 0) 0 (0x45 :: 0 :: beBytes16 28 ++ leBytes 2 7 ++
    beBytes16 (if f.val = 2 then 2 else 0x2000 + f.val) ++ List.replicate 12 0 ++
    threeFragments.bytes f)

def arrivalOf (f : Fin 3) : Arrival threeFragments 7 where
  fragment := f
  ip := fragmentPacket f
  lt := f.isLt
  isFragment := by
    refine ⟨?_, ?_, ?_, ?_, ?_⟩ <;> revert f <;> decide

theorem defragment_run_with_duplicates :
    Fresh 7 ⟨fun _ => 0, 0, 0, []⟩ ∧
      ∃ t, Transition.run Reassembly.step ⟨⟨fun _ => 0, 0, 0, []⟩, [], []⟩
        ([0, 2, 0, 1, 0].map arrivalOf) = some t ∧
      t.returned = threeFragments.results [0, 1, 0, 2, 0] ∧
      t.returned.countP Option.isSome = 1 ∧
      WritesInside ⟨fun _ => 0, 0, 0, []⟩ t.defrag := by
  have hRun : Transition.MeetsRun Reassembly.step Admissible ⟨⟨fun _ => 0, 0, 0, []⟩, [], []⟩
      ([0, 2, 0, 1, 0].map arrivalOf) := by
    decide +kernel
  exact ⟨.inl rfl, defragment_run (.inl rfl) hRun⟩

/-- The second and the third fragment are returned as the packet: the hole at block 0 is the
one before the last, and 0 is no hole. -/
theorem defragment_early :
    ((Transition.run Reassembly.step ⟨⟨fun _ => 0, 0, 0, []⟩, [], []⟩
      ([1, 2].map arrivalOf)).map fun t => t.returned.map (Option.map Prod.fst)) =
        some [none, some 44] ∧
      ¬Complete threeFragments ([1, 2].map arrivalOf |>.map Arrival.fragment) := by
  decide +kernel

end Fire3.Net

import Mathlib.Data.Set.Finite.Lattice

/-!
A recursion that visits a state and then the states it links to, with a bound on its
depth: it ends exactly when no cycle of links can be reached, if only finitely many
states can.
-/

namespace Links
open Relation

section
variable {α β σ : Type} {f g : σ → Option (List α)}

/-- The results of a list of calls, one behind the other. -/
def gather (f : σ → Option (List α)) : List σ → Option (List α)
  | [] => some []
  | t :: ts => (f t).bind fun v => (gather f ts).map (v ++ ·)

theorem gather_isSome {ts : List σ} : (gather f ts).isSome ↔ ∀ t ∈ ts, (f t).isSome := by
  induction ts with
  | nil => simp [gather]
  | cons t ts ih =>
      rw [List.forall_mem_cons, ← ih]
      cases hHead : f t with
      | none => simp [gather, hHead]
      | some v => simp [gather, hHead]

theorem gather_mono {ts : List σ} (h : ∀ t ∈ ts, ∀ v, f t = some v → g t = some v) {v : List α}
    (hGather : gather f ts = some v) : gather g ts = some v := by
  induction ts generalizing v with
  | nil => exact hGather
  | cons t ts ih =>
      rw [gather, Option.bind_eq_some_iff] at hGather
      obtain ⟨w, hHead, hRest⟩ := hGather
      obtain ⟨w', hTail, rfl⟩ := Option.map_eq_some_iff.mp hRest
      rw [gather, h t List.mem_cons_self w hHead, Option.bind_some,
        ih (fun x hx => h x (List.mem_cons_of_mem _ hx)) hTail, Option.map_some]

theorem foldlM_gather {step : List β → σ → Option (List β)} {found : α → List β} {ts : List σ}
    (h : ∀ t ∈ ts, ∀ acc, step acc t = (f t).map fun v => acc ++ v.flatMap found) (acc : List β) :
    ts.foldlM step acc = (gather f ts).map fun v => acc ++ v.flatMap found := by
  induction ts generalizing acc with
  | nil => simp [gather]
  | cons t ts ih =>
      have hRest := ih fun x hx => h x (List.mem_cons_of_mem _ hx)
      rw [List.foldlM_cons, h t List.mem_cons_self, gather]
      cases f t with
      | none => rfl
      | some v =>
          simp only [Option.map_some, Option.bind_eq_bind, Option.bind_some, hRest, Option.map_map]
          congr 1
          funext w
          simp

end

variable {σ : Type} (next : σ → List σ)

/-- The states visited, in order; `none` is a recursion deeper than the given depth. -/
def walk : Nat → σ → Option (List σ)
  | 0, _ => none
  | depth + 1, s => (gather (walk depth) (next s)).map (s :: ·)

def Step (s t : σ) : Prop := t ∈ next s

def NoCycle (s : σ) : Prop := ∀ t, ReflTransGen (Step next) s t → ¬TransGen (Step next) t t

variable {next}

theorem walk_mono {depth depth' : Nat} (hDepth : depth ≤ depth') {s : σ} {v : List σ}
    (h : walk next depth s = some v) : walk next depth' s = some v := by
  induction depth generalizing depth' s v with
  | zero => simp [walk] at h
  | succ depth ih =>
      obtain ⟨depth', rfl⟩ : ∃ d, depth' = d + 1 := ⟨depth' - 1, by omega⟩
      rw [walk, Option.map_eq_some_iff] at h ⊢
      grind [gather_mono]

theorem walk_isSome_succ {depth : Nat} {s : σ} :
    (walk next (depth + 1) s).isSome ↔ ∀ t ∈ next s, (walk next depth t).isSome := by
  rw [walk, Option.isSome_map, gather_isSome]

theorem exists_depth {ts : List σ} (h : ∀ t ∈ ts, ∃ depth, (walk next depth t).isSome) :
    ∃ depth, ∀ t ∈ ts, (walk next depth t).isSome := by
  induction ts with
  | nil => exact ⟨0, by simp⟩
  | cons t ts ih =>
      rw [List.forall_mem_cons] at h
      obtain ⟨depth, hRest⟩ := ih h.2
      obtain ⟨depth', hHead⟩ := h.1
      have hDeeper : ∀ {d x}, d ≤ depth + depth' → (walk next d x).isSome →
          (walk next (depth + depth') x).isSome := by
        intro d x hd hSome
        grind [Option.isSome_iff_exists, walk_mono, Option.isSome_some]
      exact ⟨depth + depth', List.forall_mem_cons.mpr
        ⟨hDeeper (by omega) hHead, fun x hx => hDeeper (by omega) (hRest x hx)⟩⟩

theorem exists_walk_of_acc {s : σ} (h : Acc (fun t s => Step next s t) s) :
    ∃ depth, (walk next depth s).isSome := by
  induction h with
  | intro s _ ih =>
      obtain ⟨depth, hDepth⟩ := exists_depth ih
      exact ⟨depth + 1, walk_isSome_succ.mpr hDepth⟩

theorem walk_isSome_of_reach {depth : Nat} {s t : σ} (h : (walk next depth s).isSome)
    (hReach : ReflTransGen (Step next) s t) : (walk next depth t).isSome := by
  induction hReach with
  | refl => exact h
  | tail _ hStep ih =>
      cases depth with
      | zero => simp [walk] at ih
      | succ depth =>
          obtain ⟨v, hv⟩ := Option.isSome_iff_exists.mp (walk_isSome_succ.mp ih _ hStep)
          rw [walk_mono (Nat.le_succ depth) hv, Option.isSome_some]

theorem not_walk_of_cycle {s : σ} (h : TransGen (Step next) s s) (depth : Nat) :
    ¬(walk next depth s).isSome := by
  induction depth with
  | zero => simp [walk]
  | succ depth ih =>
      intro hSome
      obtain ⟨t, hStep, hBack⟩ := TransGen.head'_iff.mp h
      exact ih (walk_isSome_of_reach (walk_isSome_succ.mp hSome t hStep) hBack)

theorem acc_of_noCycle {s : σ} (hFinite : {t | ReflTransGen (Step next) s t}.Finite)
    (h : NoCycle next s) : Acc (fun t s => Step next s t) s := by
  let Reached := {t // ReflTransGen (Step next) s t}
  have : Finite Reached := hFinite.to_subtype
  let behind : Reached → Reached → Prop := fun b a => TransGen (Step next) a.1 b.1
  have : IsTrans Reached behind := ⟨fun a b c hab hbc => hbc.trans hab⟩
  have : Std.Irrefl behind := ⟨fun a => h a.1 a.2⟩
  have hAcc : ∀ a : Reached, Acc (fun t s => Step next s t) a.1 := by
    intro a
    induction (Finite.wellFounded_of_trans_of_irrefl behind).apply a with
    | intro a _ ih =>
        exact ⟨_, fun t hStep => ih ⟨t, a.2.tail hStep⟩ (.single hStep)⟩
  exact hAcc ⟨s, .refl⟩

theorem exists_walk_iff_noCycle {s : σ} (hFinite : {t | ReflTransGen (Step next) s t}.Finite) :
    (∃ depth, (walk next depth s).isSome) ↔ NoCycle next s := by
  constructor
  · rintro ⟨depth, hSome⟩ t hReach hCycle
    exact not_walk_of_cycle hCycle depth (walk_isSome_of_reach hSome hReach)
  · intro h
    exact exists_walk_of_acc (acc_of_noCycle hFinite h)

theorem finite_reached {s : σ} {S : Set σ} (hS : S.Finite) (hStart : s ∈ S)
    (h : ∀ s, ∀ t ∈ next s, s ∈ S → t ∈ S) : {t | ReflTransGen (Step next) s t}.Finite := by
  refine hS.subset fun t hReach => ?_
  induction hReach with
  | refl => exact hStart
  | tail _ hStep ih => exact h _ _ hStep ih

end Links

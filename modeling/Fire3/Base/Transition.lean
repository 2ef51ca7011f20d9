import Mathlib.Data.List.Basic

/-!
Runs of a deterministic step function over a list of inputs, total and partial,
and the invariant rules for them. A run may carry a side condition on each step,
stated on the state the step starts from.
-/

namespace Transition

universe u v
variable {σ : Type u} {α : Type v}

/-- Every step of the run from `s` meets `ok` in the state it starts from. -/
def Meets (step : σ → α → σ) (ok : σ → α → Prop) : σ → List α → Prop
  | _, [] => True
  | s, a :: as => ok s a ∧ Meets step ok (step s a) as

instance decidableMeets (step : σ → α → σ) (ok : σ → α → Prop) [∀ s a, Decidable (ok s a)] :
    ∀ s as, Decidable (Meets step ok s as)
  | _, [] => isTrue trivial
  | s, a :: as =>
      have := decidableMeets step ok (step s a) as
      inferInstanceAs (Decidable (ok s a ∧ Meets step ok (step s a) as))

theorem invariant_of_meets {step : σ → α → σ} {ok : σ → α → Prop} {inv : σ → Prop}
    (keeps : ∀ s a, inv s → ok s a → inv (step s a)) {s : σ} {as : List α}
    (run : Meets step ok s as) (start : inv s) : inv (as.foldl step s) := by
  induction as generalizing s with
  | nil => exact start
  | cons a as ih => exact ih run.2 (keeps s a start run.1)

/-- A property that an admissible step keeps and any other step breaks holds in every state of a
run exactly when all its steps are admissible. -/
theorem always_iff_meets {step : σ → α → σ} {ok : σ → α → Prop} {inv good : σ → Prop}
    (keeps : ∀ s a, inv s → inv (step s a))
    (exact_step : ∀ s a, inv s → good s → (good (step s a) ↔ ok s a)) {s : σ} (hInv : inv s)
    (hGood : good s) (as : List α) :
    (∀ k, good ((as.take k).foldl step s)) ↔ Meets step ok s as := by
  induction as generalizing s with
  | nil => simpa [Meets] using hGood
  | cons a as ih =>
      constructor
      · intro h
        have hFirst : good (step s a) := by simpa using h 1
        refine ⟨(exact_step s a hInv hGood).mp hFirst, (ih (keeps s a hInv) hFirst).mp fun k => ?_⟩
        simpa using h (k + 1)
      · rintro ⟨hOk, hRest⟩ k
        have hFirst := (exact_step s a hInv hGood).mpr hOk
        cases k with
        | zero => exact hGood
        | succ k =>
            grind

/-- A run agrees with the run over the inputs to keep, after every number of steps, exactly when
each of the other inputs does nothing in the state it meets. -/
theorem filter_agrees_iff_meets (step : σ → α → σ) (keep : α → Bool) (s : σ) (as : List α) :
    (∀ k, (as.take k).foldl step s = ((as.take k).filter keep).foldl step s) ↔
      Meets step (fun s a => keep a = false → step s a = s) s as := by
  induction as generalizing s with
  | nil => simp [Meets]
  | cons a as ih =>
      rw [Meets, ← ih]
      cases hKeep : keep a with
      | true =>
          constructor
          · intro h
            refine ⟨fun hOther => by simp at hOther, fun k => ?_⟩
            simpa [hKeep] using h (k + 1)
          · rintro ⟨-, h⟩ k
            cases k with
            | zero => rfl
            | succ k => simpa [hKeep] using h k
      | false =>
          constructor
          · intro h
            have hSame : step s a = s := by simpa [hKeep] using h 1
            refine ⟨fun _ => hSame, fun k => ?_⟩
            simpa [hKeep, hSame] using h (k + 1)
          · rintro ⟨hSame, h⟩ k
            cases k with
            | zero => rfl
            | succ k => simpa [hKeep, hSame rfl] using h k

/-- A run of a partial step function; a step without a result ends it. -/
def run (step : σ → α → Option σ) : σ → List α → Option σ
  | s, [] => some s
  | s, a :: as => (step s a).bind fun t => run step t as

@[simp] theorem run_nil (step : σ → α → Option σ) (s : σ) : run step s [] = some s := rfl

theorem run_cons_eq_some {step : σ → α → Option σ} {s t : σ} {a : α} {as : List α} :
    run step s (a :: as) = some t ↔ ∃ r, step s a = some r ∧ run step r as = some t := by
  simp [run, Option.bind_eq_some_iff]

theorem invariant_of_run {step : σ → α → Option σ} {inv : σ → Prop}
    (keeps : ∀ s a t, inv s → step s a = some t → inv t) {s t : σ} {as : List α}
    (hRun : run step s as = some t) (start : inv s) : inv t := by
  induction as generalizing s with
  | nil =>
      cases hRun
      exact start
  | cons a as ih =>
      grind [run_cons_eq_some]

/-- Every step of a partial run meets `ok` in the state it starts from. -/
def MeetsRun (step : σ → α → Option σ) (ok : σ → α → Prop) : σ → List α → Prop
  | _, [] => True
  | s, a :: as => ok s a ∧ ∀ t, step s a = some t → MeetsRun step ok t as

instance decidableMeetsRun (step : σ → α → Option σ) (ok : σ → α → Prop)
    [∀ s a, Decidable (ok s a)] : ∀ s as, Decidable (MeetsRun step ok s as)
  | _, [] => isTrue trivial
  | s, a :: as =>
      have : Decidable (∀ t, step s a = some t → MeetsRun step ok t as) :=
        match step s a with
        | none => isTrue fun _ h => nomatch h
        | some r =>
            have := decidableMeetsRun step ok r as
            decidable_of_iff (MeetsRun step ok r as) (by simp)
      inferInstanceAs (Decidable (ok s a ∧ ∀ t, step s a = some t → MeetsRun step ok t as))

theorem run_of_meetsRun {step : σ → α → Option σ} {ok : σ → α → Prop} {inv : σ → Prop}
    (keeps : ∀ s a, inv s → ok s a → ∃ t, step s a = some t ∧ inv t) {s : σ} {as : List α}
    (hRun : MeetsRun step ok s as) (start : inv s) : ∃ t, run step s as = some t ∧ inv t := by
  induction as generalizing s with
  | nil => exact ⟨s, rfl, start⟩
  | cons a as ih =>
      obtain ⟨r, hStep, hInv⟩ := keeps s a start hRun.1
      obtain ⟨t, hRest, hEnd⟩ := ih (hRun.2 r hStep) hInv
      grind [run_cons_eq_some]

end Transition

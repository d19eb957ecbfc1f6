import Mathlib.Logic.Relation

/-!
# Runs of labelled transition relations

A run is a finite sequence of labelled steps.  `Guarded ok step` keeps only
the steps taken while `ok` holds, so that an invariant which needs a side
condition at every step is stated about runs of the guarded relation.
-/

namespace Transition

variable {σ ℓ : Type*}

/-- `Run step s ls s'`: the labels `ls` lead from `s` to `s'`. -/
inductive Run (step : σ → ℓ → σ → Prop) : σ → List ℓ → σ → Prop
  | nil (s : σ) : Run step s [] s
  | cons {s t u : σ} {l : ℓ} {ls : List ℓ} :
      step s l t → Run step t ls u → Run step s (l :: ls) u

/-- The steps that are taken while their side condition holds. -/
def Guarded (ok : σ → ℓ → Prop) (step : σ → ℓ → σ → Prop) (s : σ) (l : ℓ) (t : σ) : Prop :=
  ok s l ∧ step s l t

namespace Run

variable {step : σ → ℓ → σ → Prop} {s t u : σ} {ls ms : List ℓ}

theorem append (h1 : Run step s ls t) (h2 : Run step t ms u) : Run step s (ls ++ ms) u := by
  induction h1 with
  | nil s => exact h2
  | cons hstep _ ih => exact .cons hstep (ih h2)

/-- What every step preserves holds after every run. -/
theorem invariant {I : σ → Prop} (hstep : ∀ s l t, I s → step s l t → I t)
    (h : Run step s ls t) (hs : I s) : I t := by
  induction h with
  | nil s => exact hs
  | cons hst _ ih => exact ih (hstep _ _ _ hs hst)

/-- An invariant may speak of the labels that have led to the state. -/
theorem history {I : List ℓ → σ → Prop} (past : List ℓ)
    (hstep : ∀ past s l t, I past s → step s l t → I (past ++ [l]) t)
    (h : Run step s ls t) (hs : I past s) : I (past ++ ls) t := by
  induction h generalizing past with
  | nil s => rwa [List.append_nil]
  | cons hst _ ih =>
    rw [List.append_cons]
    exact ih _ (hstep _ _ _ _ hs hst)

theorem mono {step' : σ → ℓ → σ → Prop} (hsub : ∀ s l t, step s l t → step' s l t)
    (h : Run step s ls t) : Run step' s ls t := by
  induction h with
  | nil s => exact .nil s
  | cons hst _ ih => exact .cons (hsub _ _ _ hst) ih

end Run

/-- A sequence of total steps is a run. -/
theorem run_of_foldlM {f : σ → ℓ → Option σ} {s t : σ} {ls : List ℓ}
    (h : ls.foldlM f s = some t) : Run (fun s l t => f s l = some t) s ls t := by
  induction ls generalizing s with
  | nil =>
    obtain rfl : s = t := Option.some.inj h
    exact .nil s
  | cons l ls ih =>
    rw [List.foldlM_cons] at h
    obtain ⟨u, hstep, hrest⟩ := Option.bind_eq_some_iff.mp h
    exact .cons hstep (ih hrest)

theorem exists_run_of_foldlM {f : σ → ℓ → Option σ} {P : σ → Prop} {s : σ} {ls : List ℓ}
    (h : ∃ t ∈ ls.foldlM f s, P t) : ∃ t, Run (fun s l t => f s l = some t) s ls t ∧ P t := by
  obtain ⟨t, ht, hP⟩ := h
  exact ⟨t, run_of_foldlM ht, hP⟩

/-- A sequence of total steps, each taken while its side condition holds. -/
theorem guarded_run_of_foldlM {ok : σ → ℓ → Prop} [∀ s l, Decidable (ok s l)]
    {f : σ → ℓ → Option σ} {s t : σ} {ls : List ℓ}
    (h : ls.foldlM (fun s l => if ok s l then f s l else none) s = some t) :
    Run (Guarded ok fun s l t => f s l = some t) s ls t := by
  refine (run_of_foldlM h).mono fun s l t hst => ?_
  by_cases hok : ok s l
  · rw [if_pos hok] at hst
    exact ⟨hok, hst⟩
  · rw [if_neg hok] at hst
    cases hst

end Transition

import Mathlib.Logic.Relation
import Mathlib.Tactic

/-!
# Guarded runs of a labelled transition system

A component is given by its labelled steps `step : σ → ι → σ → Prop`. A *guard* restricts the steps
a run may take by what is known of the state before the step and of the label; the two extremes
are every step (`fun _ _ ↦ True`) and the steps of one phase. Statements about "every run whose
steps all meet a condition" quantify over guarded runs.
-/

namespace GuardedRun

variable {σ ι : Type*} {step : σ → ι → σ → Prop} {guard guard' : σ → ι → Prop} {s s' s'' : σ}

/-- `s'` is reached from `s` by steps whose label the guard admits in the state before the step. -/
def Run (step : σ → ι → σ → Prop) (guard : σ → ι → Prop) : σ → σ → Prop :=
  Relation.ReflTransGen fun s s' ↦ ∃ i, guard s i ∧ step s i s'

theorem Run.refl (s : σ) : Run step guard s s := Relation.ReflTransGen.refl

theorem Run.tail {i : ι} (h : Run step guard s s') (hg : guard s' i) (hs : step s' i s'') :
    Run step guard s s'' :=
  Relation.ReflTransGen.tail h ⟨i, hg, hs⟩

theorem Run.head {i : ι} (hg : guard s i) (hs : step s i s') (h : Run step guard s' s'') :
    Run step guard s s'' :=
  Relation.ReflTransGen.head ⟨i, hg, hs⟩ h

theorem Run.trans (h : Run step guard s s') (h' : Run step guard s' s'') :
    Run step guard s s'' := Relation.ReflTransGen.trans h h'

/-- A weaker guard admits more runs. -/
theorem Run.mono (hle : ∀ s i, guard s i → guard' s i) (h : Run step guard s s') :
    Run step guard' s s' :=
  Relation.ReflTransGen.mono (fun _ _ ⟨i, hg, hs⟩ ↦ ⟨i, hle _ _ hg, hs⟩) _ _ h

/-- **The invariant rule.** What holds at the start and is kept by every guarded step holds in
every state of every guarded run. -/
theorem Run.invariant {P : σ → Prop} (h : Run step guard s s') (h₀ : P s)
    (hstep : ∀ s i s', P s → guard s i → step s i s' → P s') : P s' := by
  induction h with
  | refl => exact h₀
  | tail _ hlast ih =>
    obtain ⟨i, hg, hs⟩ := hlast
    exact hstep _ i _ ih hg hs

end GuardedRun

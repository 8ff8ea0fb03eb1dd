import VimOS.Library.Run

/-!
# First in, first out

A queue, with an account of what has been taken from it. A step puts an item at the end, takes the
first one or does neither. A system is such a queue, under a view of its states, if each of its
steps is one (`Steps.of_run`).
-/

namespace FifoQueue

open GuardedRun

/-- The items that are queued and those that were taken, the oldest first. -/
structure Fifo (α : Type*) where
  queue : List α
  taken : List α

variable {α σ ι : Type*} {q q' : Fifo α}

/-- One step of a queue. -/
inductive Step : Fifo α → Fifo α → Prop
  | idle (q : Fifo α) : Step q q
  | put (queue taken : List α) (a : α) : Step ⟨queue, taken⟩ ⟨queue ++ [a], taken⟩
  | take (a : α) (queue taken : List α) : Step ⟨a :: queue, taken⟩ ⟨queue, taken ++ [a]⟩

/-- Steps one after another. -/
def Steps : Fifo α → Fifo α → Prop := Relation.ReflTransGen Step

/-- What has gone in stays in its order, whether it is taken or not. -/
theorem Step.keeps_order (h : Step q q') : q.taken ++ q.queue <+: q'.taken ++ q'.queue := by
  cases h with
  | idle => exact List.prefix_rfl
  | put queue taken a => exact ⟨[a], by rw [List.append_assoc]⟩
  | take a queue taken => exact ⟨[], by rw [List.append_nil, List.append_cons]⟩

theorem Steps.keeps_order (h : Steps q q') : q.taken ++ q.queue <+: q'.taken ++ q'.queue := by
  induction h with
  | refl => exact List.prefix_rfl
  | tail _ hlast ih => exact ih.trans hlast.keeps_order

/-- **The simulation rule.** A run is one of the queue if each of its steps is, in the states of an
invariant. -/
theorem Steps.of_run {step : σ → ι → σ → Prop} {guard : σ → ι → Prop} {P : σ → Prop} {s s' : σ}
    (f : σ → Fifo α) (h : Run step guard s s') (h₀ : P s)
    (hstep : ∀ s i s', P s → guard s i → step s i s' → P s' ∧ Step (f s) (f s')) :
    Steps (f s) (f s') := by
  have hboth : P s' ∧ Steps (f s) (f s') := by
    refine h.invariant (P := fun t ↦ P t ∧ Steps (f s) (f t)) ⟨h₀, .refl⟩ ?_
    rintro t i t' ⟨ht, hsteps⟩ hg hs
    obtain ⟨ht', hlast⟩ := hstep t i t' ht hg hs
    exact ⟨ht', hsteps.tail hlast⟩
  exact hboth.2

end FifoQueue

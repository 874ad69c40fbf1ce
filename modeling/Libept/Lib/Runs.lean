import Mathlib.Order.Basic
import Mathlib.Tactic.Common

/-!
# Runs of a transition system

A run is the sequence of the steps that a system makes from an initial state on. A property of the
states that every step from a good state keeps is an invariant. Where only some steps keep it, a
run stays inside the property as long as all its steps are of that kind, and no longer.
-/

/-- A system that makes a step for each input, with any number of possible next states. -/
structure Transitions (σ ι : Type*) where
  init : σ → Prop
  step : σ → ι → σ → Prop

namespace Transitions

variable {σ ι : Type*} (T : Transitions σ ι)

/-- The steps that have been made, each as the state before it and its input, and the state that
they lead to. -/
inductive Run : List (σ × ι) → σ → Prop
  | init {s : σ} (h : T.init s) : Run [] s
  | step {steps : List (σ × ι)} {s s' : σ} {i : ι} (h : Run steps s) (hstep : T.step s i s') :
    Run (steps ++ [(s, i)]) s'

/-- `I` holds in every state that the run goes through. -/
def Always (I : σ → Prop) (steps : List (σ × ι)) (s : σ) : Prop := (∀ x ∈ steps, I x.1) ∧ I s

variable {T} {steps : List (σ × ι)} {s s' : σ} {i : ι} {I : σ → Prop} {P : σ → ι → Prop}

lemma always_append : Always I (steps ++ [(s, i)]) s' ↔ Always I steps s ∧ I s' := by
  simp [Always, or_imp, forall_and]

/-- The states of a run all satisfy `I` exactly when its steps all satisfy `P`, if the steps with
`P` are those that keep `I`. Here `J` is what else is known of the states of a run that satisfy
`I`. By induction on the run. -/
theorem Run.always_iff {J : σ → Prop} (h : T.Run steps s) (hinit : ∀ s, T.init s → J s ∧ I s)
    (hstep : ∀ s i s', J s → I s → T.step s i s' → J s' ∧ (I s' ↔ P s i)) :
    Always I steps s ↔ ∀ x ∈ steps, P x.1 x.2 := by
  have key : (Always I steps s → J s) ∧ (Always I steps s ↔ ∀ x ∈ steps, P x.1 x.2) := by
    induction h with
    | init h =>
      obtain ⟨hJ, hI⟩ := hinit _ h
      exact ⟨fun _ => hJ, by simpa [Always] using hI⟩
    | @step steps s s' i h hs ih =>
      obtain ⟨hJ, hiff⟩ := ih
      rw [always_append, List.forall_mem_append, List.forall_mem_singleton, ← hiff]
      refine ⟨fun hall => ?_, and_congr_right fun hall => ?_⟩
      · exact (hstep s i s' (hJ hall.1) hall.1.2 hs).1
      · exact (hstep s i s' (hJ hall) hall.2 hs).2
  exact key.2

end Transitions

import CfgNoodle.Lib.Runs
import Mathlib.Logic.Relation

/-! # Refinement

A system refines another one along a map of its states if every step from a
state that it reaches is a step of the other one. Its runs are then runs of the
other one, and what holds in all of these holds in its own. Where a step takes
the other one several steps, or starts it anew, it still reaches nothing else. -/
namespace Runs

variable {σ ℓ α m : Type} {S : System σ ℓ} {A : System α m} {f : σ → α} {g : σ → ℓ → σ → m}

/-- `f` gives the abstract state, `g` says which abstract step a step is. -/
structure Refines (S : System σ ℓ) (A : System α m) (f : σ → α) (g : σ → ℓ → σ → m) : Prop where
  init : ∀ s, S.init s → A.init (f s)
  step : ∀ s l s', S.Reachable s → S.step s l s' → A.step (f s) (g s l s') (f s')

/-- Every step of a run starts from a state reached. -/
theorem System.Run.reachable_of_mem {steps : List (σ × ℓ × σ)} {s : σ} (h : S.Run steps s) :
    ∀ x ∈ steps, S.Reachable x.1 ∧ S.step x.1 x.2.1 x.2.2 := by
  induction h with
  | init => exact fun x hx => absurd hx List.not_mem_nil
  | step hr hs ih =>
    intro x hx
    rcases List.mem_cons.mp hx with rfl | hx
    · exact ⟨hr.reachable, hs⟩
    · exact ih x hx

/-- What a step of a run is in the abstract system. -/
def image (f : σ → α) (g : σ → ℓ → σ → m) (x : σ × ℓ × σ) : α × m × α :=
  (f x.1, g x.1 x.2.1 x.2.2, f x.2.2)

theorem Refines.run (h : Refines S A f g) {steps : List (σ × ℓ × σ)} {s : σ}
    (hr : S.Run steps s) : A.Run (steps.map (image f g)) (f s) := by
  induction hr with
  | init h0 => exact .init (h.init _ h0)
  | step hr hs ih => exact ih.step (h.step _ _ _ hr.reachable hs)

theorem Refines.reachable (h : Refines S A f g) {s : σ} (hr : S.Reachable s) :
    A.Reachable (f s) := by
  obtain ⟨steps, hr⟩ := hr.exists_run
  exact (h.run hr).reachable

/-! ## Steps that are several -/

/-- Any number of steps, whatever their labels. -/
def System.Steps (A : System α m) : α → α → Prop := Relation.ReflTransGen fun a a' => ∃ l, A.step a l a'

theorem System.Reachable.steps {A : System α m} {a a' : α} (h : A.Reachable a) (hs : A.Steps a a') :
    A.Reachable a' := by
  induction hs with
  | refl => exact h
  | tail _ hstep ih =>
    obtain ⟨l, hl⟩ := hstep
    exact ih.step hl

/-- `f` gives a state of the finer system, in which a step is done in several, or which
is started anew. -/
structure Unfolds (S : System σ ℓ) (A : System α m) (f : σ → α) : Prop where
  init : ∀ s, S.init s → A.init (f s)
  step : ∀ s l s', S.Reachable s → S.step s l s' → A.Steps (f s) (f s') ∨ A.init (f s')

theorem Unfolds.reachable (h : Unfolds S A f) {s : σ} (hr : S.Reachable s) : A.Reachable (f s) := by
  induction hr with
  | init h0 => exact .init (h.init _ h0)
  | step hr hs ih =>
    rcases h.step _ _ _ hr hs with hsteps | hinit
    · exact ih.steps hsteps
    · exact .init hinit

end Runs

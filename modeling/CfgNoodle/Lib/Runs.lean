import Mathlib.Tactic.Common

/-! # Runs of a system

Transition systems with labelled steps, the states that their runs reach, and
the rule by which an invariant of every step is one of every run. -/
namespace Runs

/-- Where runs may start and what a step may do. -/
structure System (σ ℓ : Type) where
  init : σ → Prop
  step : σ → ℓ → σ → Prop

variable {σ ℓ : Type} {S : System σ ℓ}

/-- The same system where only the steps that meet a condition are taken. -/
def System.restrict (S : System σ ℓ) (P : σ → ℓ → σ → Prop) : System σ ℓ where
  init := S.init
  step s l s' := S.step s l s' ∧ P s l s'

/-- The states that a run reaches. -/
inductive System.Reachable (S : System σ ℓ) : σ → Prop
  | init {s : σ} (h : S.init s) : S.Reachable s
  | step {s s' : σ} {l : ℓ} (hr : S.Reachable s) (h : S.step s l s') : S.Reachable s'

/-- What holds at the start and is preserved by every step holds in every state
reached. -/
theorem System.Reachable.invariant {I : σ → Prop} (h0 : ∀ s, S.init s → I s)
    (hs : ∀ s l s', I s → S.step s l s' → I s') {s : σ} (h : S.Reachable s) : I s := by
  induction h with
  | init h => exact h0 _ h
  | step _ h ih => exact hs _ _ _ ih h

/-- The last state of a run along a list of labels, where steps are functions. -/
theorem System.reachable_foldl {f : σ → ℓ → σ} : ∀ {ls : List ℓ},
    (∀ l ∈ ls, ∀ s, S.step s l (f s l)) → ∀ {s : σ}, S.Reachable s → S.Reachable (ls.foldl f s)
  | [], _, _, h => h
  | l :: _, hf, s, h =>
    reachable_foldl (fun l' hl => hf l' (List.mem_cons_of_mem l hl))
      (.step h (hf l List.mem_cons_self s))

theorem System.Reachable.of_restrict {P : σ → ℓ → σ → Prop} {s : σ}
    (h : (S.restrict P).Reachable s) : S.Reachable s := by
  induction h with
  | init h => exact .init h
  | step _ h ih => exact ih.step h.1

/-- A run and its steps, the last one first. -/
inductive System.Run (S : System σ ℓ) : List (σ × ℓ × σ) → σ → Prop
  | init {s : σ} (h : S.init s) : S.Run [] s
  | step {steps : List (σ × ℓ × σ)} {s s' : σ} {l : ℓ} (hr : S.Run steps s) (h : S.step s l s') :
      S.Run ((s, l, s') :: steps) s'

theorem System.Run.reachable {steps : List (σ × ℓ × σ)} {s : σ} (h : S.Run steps s) :
    S.Reachable s := by
  induction h with
  | init h => exact .init h
  | step _ h ih => exact ih.step h

theorem System.Reachable.exists_run {s : σ} (h : S.Reachable s) : ∃ steps, S.Run steps s := by
  induction h with
  | init h => exact ⟨[], .init h⟩
  | step _ h ih =>
    obtain ⟨steps, hr⟩ := ih
    exact ⟨_, hr.step h⟩

/-- Where a step keeps a property exactly if it meets a condition, the property holds
in all states of a run exactly if all its steps meet the condition. -/
theorem System.Run.forall_iff {J : σ → Prop} {P : σ → ℓ → σ → Prop} (h0 : ∀ s, S.init s → J s)
    (hs : ∀ s l s', S.Reachable s → J s → S.step s l s' → (J s' ↔ P s l s'))
    {steps : List (σ × ℓ × σ)} {s : σ} (h : S.Run steps s) :
    (J s ∧ ∀ x ∈ steps, J x.1) ↔ ∀ x ∈ steps, P x.1 x.2.1 x.2.2 := by
  induction h with
  | init h => simp [h0 _ h]
  | step hr h ih =>
    rw [List.forall_mem_cons, List.forall_mem_cons, ← ih]
    constructor
    · intro hx
      obtain ⟨hj', hj, hall⟩ := hx
      exact ⟨(hs _ _ _ hr.reachable hj h).mp hj', hj, hall⟩
    · intro hx
      obtain ⟨hp, hj, hall⟩ := hx
      exact ⟨(hs _ _ _ hr.reachable hj h).mpr hp, hj, hall⟩

/-- The runs that go on from a state. -/
def System.after (S : System σ ℓ) (s : σ) : System σ ℓ where
  init s' := s' = s
  step := S.step

end Runs

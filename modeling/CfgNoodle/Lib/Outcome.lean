import Mathlib.Tactic.Common

/-! # Two postconditions for a state monad with failures

`Ends x s Q R` says how a computation started in the state `s` can end: with a
result that satisfies `Q`, or with a failure that satisfies `R`. The state in
which it failed is kept, so `R` also speaks about a computation that was
interrupted half way. -/
namespace Outcome

variable {ε σ α β : Type} {x : EStateM ε σ α} {s : σ}
  {Q Q' : α → σ → Prop} {R R' : ε → σ → Prop}

def Ends (x : EStateM ε σ α) (s : σ) (Q : α → σ → Prop) (R : ε → σ → Prop) : Prop :=
  match x s with
  | .ok a s' => Q a s'
  | .error e s' => R e s'

/-! ## Reading a specification off -/

theorem Ends.ok {a : α} {s' : σ} (h : Ends x s Q R) (hx : x s = .ok a s') : Q a s' := by
  simp only [Ends] at h
  rwa [hx] at h

theorem Ends.error {e : ε} {s' : σ} (h : Ends x s Q R) (hx : x s = .error e s') : R e s' := by
  simp only [Ends] at h
  rwa [hx] at h

theorem Ends.cases (h : Ends x s Q R) :
    (∃ a s', x s = .ok a s' ∧ Q a s') ∨ ∃ e s', x s = .error e s' ∧ R e s' := by
  simp only [Ends] at h
  cases hx : x s with
  | ok a s' => rw [hx] at h; exact Or.inl ⟨a, s', rfl, h⟩
  | error e s' => rw [hx] at h; exact Or.inr ⟨e, s', rfl, h⟩

/-- Where failing is impossible, the computation returns. -/
theorem Ends.returns (h : Ends x s Q fun _ _ => False) : ∃ a s', x s = .ok a s' ∧ Q a s' := by
  rcases h.cases with h | ⟨_, _, _, h⟩
  · exact h
  · exact h.elim

theorem Ends.fails (h : Ends x s (fun _ _ => False) R) : ∃ e s', x s = .error e s' ∧ R e s' := by
  rcases h.cases with ⟨_, _, _, h⟩ | h
  · exact h.elim
  · exact h

/-- A computation on a fixed state can be run. -/
instance [∀ a s', Decidable (Q a s')] [∀ e s', Decidable (R e s')] : Decidable (Ends x s Q R) :=
  match h : x s with
  | .ok a s' => decidable_of_iff (Q a s') (by rw [Ends, h])
  | .error e s' => decidable_of_iff (R e s') (by rw [Ends, h])

/-! ## Rules -/

theorem Ends.mono (h : Ends x s Q R) (hq : ∀ a s', Q a s' → Q' a s')
    (hr : ∀ e s', R e s' → R' e s') : Ends x s Q' R' := by
  simp only [Ends] at *
  cases hx : x s with
  | ok a s' => rw [hx] at h; exact hq a s' h
  | error e s' => rw [hx] at h; exact hr e s' h

/-- Two specifications of one computation hold together. -/
theorem Ends.and (h : Ends x s Q R) (h' : Ends x s Q' R') :
    Ends x s (fun a s' => Q a s' ∧ Q' a s') fun e s' => R e s' ∧ R' e s' := by
  simp only [Ends] at *
  cases hx : x s with
  | ok a s' => rw [hx] at h h'; exact ⟨h, h'⟩
  | error e s' => rw [hx] at h h'; exact ⟨h, h'⟩

theorem Ends.pure {a : α} (h : Q a s) : Ends (pure a) s Q R := h

theorem Ends.throw {e : ε} (h : R e s) : Ends (throw e) s Q R := h

theorem Ends.bind {f : α → EStateM ε σ β} {P : β → σ → Prop}
    (h : Ends x s (fun a s' => Ends (f a) s' P R) R) : Ends (x >>= f) s P R := by
  simp only [Ends] at *
  show match EStateM.bind x f s with | .ok a s' => P a s' | .error e s' => R e s'
  simp only [EStateM.bind]
  cases hx : x s with
  | ok a s' => rw [hx] at h; exact h
  | error e s' => rw [hx] at h; exact h

theorem Ends.get {P : σ → σ → Prop} (h : P s s) : Ends (get : EStateM ε σ σ) s P R := h

theorem Ends.modify {P : PUnit → σ → Prop} {f : σ → σ} (h : P ⟨⟩ (f s)) :
    Ends (modify f : EStateM ε σ PUnit) s P R := h

/-! ## What a computation does to its state -/

/-- However the computation ends, its state is related to the one it started in. -/
def Moves (R : σ → σ → Prop) (x : EStateM ε σ α) : Prop :=
  ∀ s, Ends x s (fun _ s' => R s s') fun _ s' => R s s'

variable {R : σ → σ → Prop}

theorem Moves.pure (hr : ∀ s, R s s) (a : α) : Moves R (pure a : EStateM ε σ α) :=
  fun s => .pure (hr s)

theorem Moves.throw (hr : ∀ s, R s s) (e : ε) : Moves R (throw e : EStateM ε σ α) :=
  fun s => .throw (hr s)

theorem Moves.modify {f : σ → σ} (hf : ∀ s, R s (f s)) :
    Moves R (modify f : EStateM ε σ PUnit) := fun s => .modify (hf s)

theorem Moves.bind (ht : ∀ {a b c}, R a b → R b c → R a c) {f : α → EStateM ε σ β}
    (hx : Moves R x) (hf : ∀ a, Moves R (f a)) : Moves R (x >>= f) := fun s =>
  .bind ((hx s).mono (fun a s' h => (hf a s').mono (fun _ _ => ht h) fun _ _ => ht h) fun _ _ h => h)

end Outcome

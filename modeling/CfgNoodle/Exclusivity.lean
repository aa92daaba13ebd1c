import CfgNoodle.Tasks

/-! # Who may touch a node

The invariant of the tasks: a mutex is held by one task, a node is in at most one
list, a task that attaches or detaches a node or has a handle for it is the only
one, and what such a task relies on is true. -/
namespace CfgNoodle
open Outcome Runs
variable {E : Env} {L τ : Type}

/-! ## The invariant -/

/-- The node that no other task may attach, detach or have a handle for. -/
def Pc.node (p : Pc E L) : Option E.Id := p.client.or p.detaches

/-- The node that a task works on. -/
def Pc.target : Pc E L → Option E.Id
  | deserializing _ i _ => some i
  | p => p.node

theorem Pc.eq_of_node {p : Pc E L} {i j : E.Id} (hi : p.node = some i) (hj : p.node = some j) :
    j = i := Option.some.inj (hj.symm.trans hi)

theorem Pc.eq_of_no_node {p : Pc E L} {i j : E.Id} (hi : p.node = none) (hj : p.node = some j) :
    j = i := nomatch hi.symm.trans hj

def Tasks.Unlinked (s : Tasks E L τ) (i : E.Id) : Prop := ∀ l, i ∉ s.links l

/-- What a task relies on where it is. -/
def Relies (s : Tasks E L τ) : Pc E L → Prop
  | .failed e => ∀ key state, e ≠ .invalidState key state
  | .panicked _ => False
  | .attachLink l i => s.word i = .taken l ∧ s.Unlinked i ∧ s.cells i = Cell.new
  | .attachWait l i already =>
    s.word i = .taken l ∧ i ∈ s.links l ∧ (already = false → s.state i ≠ .needsWrite)
  | .attachRelock l i | .attachDefault l i =>
    s.word i = .taken l ∧ i ∈ s.links l ∧ s.state i = .nonResident
  | .handle i => ∃ l, s.word i = .taken l ∧ i ∈ s.links l ∧ (s.state i).hasValue = true
  | .writeLock l i | .writing l i =>
    s.word i = .taken l ∧ i ∈ s.links l ∧ (s.state i).hasValue = true
  | .detachUnlink l i => s.word i = .detaching ∧ i ∈ s.links l
  | .detachReset _ i => s.word i = .detaching ∧ s.Unlinked i
  | .detachStore _ i => s.word i = .detaching ∧ s.Unlinked i ∧ s.cells i = Cell.new
  | .deserializing l i _ => i ∈ s.links l ∧ s.state i = .initial
  | _ => True

/-- A node that no task attaches, detaches or has a handle for. -/
def Rests (s : Tasks E L τ) (i : E.Id) : Prop :=
  (s.word i = .null ∧ s.Unlinked i ∧ s.cells i = Cell.new) ∨
    ∃ l, (s.word i = .attached l ∨ s.word i = .taken l) ∧ i ∈ s.links l

structure Exclusive (s : Tasks E L τ) : Prop where
  mutex : ∀ t l, (s.pc t).holds = some l ↔ s.mutex l = some t
  keys : ∀ l, ((s.links l).map E.key).Nodup
  wf : ∀ i, (s.cells i).Wf
  only : ∀ i l l', i ∈ s.links l → i ∈ s.links l' → l = l'
  unique : ∀ t t' i, (s.pc t).node = some i → (s.pc t').node = some i → t = t'
  relies : ∀ t, Relies s (s.pc t)
  rests : ∀ i, (∀ t, (s.pc t).node ≠ some i) → Rests s i

theorem exclusive_new : Exclusive (Tasks.new : Tasks E L τ) where
  mutex _ _ := ⟨nofun, nofun⟩
  keys _ := List.nodup_nil
  wf _ := Cell.wf_new
  only _ _ _ h := nomatch h
  unique _ _ _ h := nomatch h
  relies _ := trivial
  rests _ _ := Or.inl ⟨rfl, fun _ => List.not_mem_nil, rfl⟩

/-! ## Frames -/

/-- Nothing about a node has changed. -/
structure SameNode (s s' : Tasks E L τ) (i : E.Id) : Prop where
  word : s'.word i = s.word i
  cell : s'.cells i = s.cells i
  links : ∀ l, i ∈ s'.links l ↔ i ∈ s.links l

theorem SameNode.state {s s' : Tasks E L τ} {i : E.Id} (h : SameNode s s' i) :
    s'.state i = s.state i := congrArg Cell.state h.cell

theorem SameNode.unlinked {s s' : Tasks E L τ} {i : E.Id} (h : SameNode s s' i) :
    s'.Unlinked i ↔ s.Unlinked i := forall_congr' fun l => (h.links l).not

/-- What a task relies on is about the node that it works on. -/
theorem Relies.frame {s s' : Tasks E L τ} {p : Pc E L} (h : Relies s p)
    (hs : ∀ i, p.target = some i → SameNode s s' i) : Relies s' p := by
  cases p with
  | attachLink l i | attachWait l i _ | attachRelock l i | attachDefault l i | handle i
  | writeLock l i | writing l i | detachUnlink l i | detachReset l i | detachStore l i
  | deserializing l i _ =>
    have hi := hs i rfl
    simpa only [Relies, hi.word, hi.cell, hi.links, hi.state, hi.unlinked] using h
  | _ => exact h

theorem Rests.frame {s s' : Tasks E L τ} {i : E.Id} (h : Rests s i) (hs : SameNode s s' i) :
    Rests s' i := by
  simpa only [Rests, hs.word, hs.cell, hs.links, hs.unlinked] using h

theorem Pc.node_of_target {p : Pc E L} {i : E.Id} (h : p.target = some i) :
    p.node = some i ∨ ∃ l body, p = .deserializing l i body := by
  cases p with
  | deserializing l j body =>
    obtain rfl := Option.some.inj h
    exact Or.inr ⟨l, body, rfl⟩
  | _ => exact Or.inl h

/-- Two tasks that hold the mutex of a list are one. -/
theorem Exclusive.holder {s : Tasks E L τ} (h : Exclusive s) {t t' : τ} {l : L}
    (ht : (s.pc t).holds = some l) (ht' : (s.pc t').holds = some l) : t = t' :=
  Option.some.inj (((h.mutex t l).mp ht).symm.trans ((h.mutex t' l).mp ht'))

variable [DecidableEq L] [DecidableEq τ]

/-- What a turn does to the mutexes. -/
inductive Hands (s s' : Tasks E L τ) (t : τ) (p : Pc E L) : Prop
  | keep (hm : s'.mutex = s.mutex) (h : p.holds = (s.pc t).holds)
  | unlock (l : L) (hm : s'.mutex = Function.update s.mutex l none) (h : (s.pc t).holds = some l)
      (hp : p.holds = none)
  | lock (l : L) (hm : s'.mutex = Function.update s.mutex l (some t)) (hfree : s.mutex l = none)
      (h : (s.pc t).holds = none) (hp : p.holds = some l)

theorem Exclusive.hands {s s' : Tasks E L τ} (h : Exclusive s) {t : τ} {p : Pc E L}
    (hpc : s'.pc = Function.update s.pc t p) (hm : Hands s s' t p) :
    ∀ t' l, (s'.pc t').holds = some l ↔ s'.mutex l = some t' := by
  intro t' l
  rw [hpc]
  by_cases ht : t' = t
  · subst ht
    rw [Function.update_self]
    cases hm with
    | keep hm hp =>
      rw [hm, hp]
      exact h.mutex t' l
    | unlock k hm hk hp =>
      rw [hm, hp]
      by_cases hlk : l = k
      · subst hlk
        rw [Function.update_self]
        exact ⟨nofun, nofun⟩
      · rw [Function.update_of_ne hlk, ← h.mutex t' l, hk]
        exact ⟨nofun, fun heq => absurd (Option.some.inj heq).symm hlk⟩
    | lock k hm hfree hk hp =>
      rw [hm, hp]
      by_cases hlk : l = k
      · subst hlk
        rw [Function.update_self]
        exact ⟨fun _ => rfl, fun _ => rfl⟩
      · rw [Function.update_of_ne hlk, ← h.mutex t' l, hk]
        exact ⟨fun heq => absurd (Option.some.inj heq).symm hlk, nofun⟩
  · rw [Function.update_of_ne ht]
    have hne : some t ≠ some t' := fun heq => ht (Option.some.inj heq).symm
    cases hm with
    | keep hm _ =>
      rw [hm]
      exact h.mutex t' l
    | unlock k hm hk _ =>
      rw [hm]
      by_cases hlk : l = k
      · subst hlk
        have hheld := (h.mutex t l).mp hk
        rw [Function.update_self, h.mutex t' l, hheld]
        exact ⟨fun heq => absurd heq hne, nofun⟩
      · rw [Function.update_of_ne hlk]
        exact h.mutex t' l
    | lock k hm hfree _ _ =>
      rw [hm]
      by_cases hlk : l = k
      · subst hlk
        rw [Function.update_self, h.mutex t' l, hfree]
        exact ⟨nofun, fun heq => absurd heq hne⟩
      · rw [Function.update_of_ne hlk]
        exact h.mutex t' l

/-! ## Three kinds of turns -/

section Turns
variable {s s' : Tasks E L τ} {t : τ} {p : Pc E L} (h : Exclusive s)
  (hpc : s'.pc = Function.update s.pc t p) (hm : Hands s s' t p)

include hpc in
omit [DecidableEq L] in
theorem pc_of_ne {t' : τ} (ht : t' ≠ t) : s'.pc t' = s.pc t' := by
  rw [hpc, Function.update_of_ne ht]

include h hpc

omit [DecidableEq L] in
/-- A task attaches or detaches a node only if no other one does. -/
theorem Exclusive.unique_update
    (hn : ∀ i, p.node = some i → ∀ t', t' ≠ t → (s.pc t').node ≠ some i) :
    ∀ t₁ t₂ i, (s'.pc t₁).node = some i → (s'.pc t₂).node = some i → t₁ = t₂ := by
  intro t₁ t₂ i h₁ h₂
  rw [hpc] at h₁ h₂
  by_cases ht₁ : t₁ = t <;> by_cases ht₂ : t₂ = t
  · exact ht₁.trans ht₂.symm
  · subst ht₁
    rw [Function.update_self] at h₁
    rw [Function.update_of_ne ht₂] at h₂
    exact absurd h₂ (hn i h₁ t₂ ht₂)
  · subst ht₂
    rw [Function.update_self] at h₂
    rw [Function.update_of_ne ht₁] at h₁
    exact absurd h₁ (hn i h₂ t₁ ht₁)
  · rw [Function.update_of_ne ht₁] at h₁
    rw [Function.update_of_ne ht₂] at h₂
    exact h.unique t₁ t₂ i h₁ h₂

omit [DecidableEq L] in
/-- A node that nobody owns after the turn, and did not own before it. -/
theorem Exclusive.rests_before {j : E.Id} (hj : ∀ t', (s'.pc t').node ≠ some j)
    (hown : (s.pc t).node ≠ some j) : Rests s j := by
  refine h.rests j fun t' ht' => ?_
  by_cases ht : t' = t
  · exact hown (ht ▸ ht')
  · exact hj t' ((pc_of_ne hpc ht).symm ▸ ht')

omit [DecidableEq L] h in
/-- The task that had the last claim on a node has given it up. -/
theorem node_eq_none {i : E.Id} (hi : ∀ t', (s'.pc t').node ≠ some i)
    (hown : ∀ j, p.node = some j → j = i) : p.node = none := by
  cases hp : p.node with
  | none => rfl
  | some k =>
    have hik := hi t
    rw [hpc, Function.update_self, hp, hown k hp] at hik
    exact absurd rfl hik

include hm

/-- A turn that changes one node, which no other task attaches, detaches or has a
handle for. -/
theorem Exclusive.act {i : E.Id} (hother : ∀ j, j ≠ i → SameNode s s' j)
    (hown : ∀ j, (s.pc t).node = some j → j = i) (hown' : ∀ j, p.node = some j → j = i)
    (hnobody : ∀ t', t' ≠ t → (s.pc t').node ≠ some i)
    (hkeys : ∀ l, ((s'.links l).map E.key).Nodup) (hwf : (s'.cells i).Wf)
    (honly : ∀ l l', i ∈ s'.links l → i ∈ s'.links l' → l = l') (hrelies : Relies s' p)
    (hrest : p.node = none → Rests s' i)
    (hdeser : ∀ t' l, t' ≠ t → (s.pc t').holds = some l → i ∈ s.links l → s.state i = .initial →
      i ∈ s'.links l ∧ s'.state i = .initial) : Exclusive s' := by
  refine ⟨h.hands hpc hm, hkeys, fun j => ?_, fun j l l' hl hl' => ?_,
    h.unique_update hpc fun j hj t' ht => hown' j hj ▸ hnobody t' ht, fun t' => ?_, fun j hj => ?_⟩
  · by_cases hji : j = i
    · exact hji ▸ hwf
    · rw [(hother j hji).cell]
      exact h.wf j
  · by_cases hji : j = i
    · subst hji
      exact honly l l' hl hl'
    · rw [(hother j hji).links] at hl hl'
      exact h.only j l l' hl hl'
  · by_cases ht : t' = t
    · subst ht
      rw [hpc, Function.update_self]
      exact hrelies
    · rw [pc_of_ne hpc ht]
      by_cases htarget : (s.pc t').target = some i
      · -- only a call that deserializes the node can be at it
        obtain ⟨l, body, heq⟩ := (Pc.node_of_target htarget).resolve_left (hnobody t' ht)
        have hr := h.relies t'
        rw [heq] at hr ⊢
        exact hdeser t' l ht (by rw [heq]; rfl) hr.1 hr.2
      · exact (h.relies t').frame fun j hj => hother j fun hji => htarget (hji ▸ hj)
  · by_cases hji : j = i
    · subst hji
      exact hrest (node_eq_none hpc hj hown')
    · exact (h.rests_before hpc hj fun hn => hji (hown j hn)).frame (hother j hji)

/-- A turn that changes no node. -/
theorem Exclusive.move (hsame : ∀ j, SameNode s s' j) (hkeys : s'.links = s.links)
    (hown : ∀ j, p.node = some j → (s.pc t).node = some j) (hrelies : Relies s p)
    (hrest : ∀ j, (s.pc t).node = some j → p.node = none → Rests s j) : Exclusive s' := by
  refine ⟨h.hands hpc hm, fun l => ?_, fun j => ?_, fun j l l' hl hl' => ?_,
    h.unique_update hpc fun j hj t' ht hj' => ht (h.unique t' t j hj' (hown j hj)), fun t' => ?_,
    fun j hj => ?_⟩
  · rw [hkeys]
    exact h.keys l
  · rw [(hsame j).cell]
    exact h.wf j
  · rw [(hsame j).links] at hl hl'
    exact h.only j l l' hl hl'
  · by_cases ht : t' = t
    · subst ht
      rw [hpc, Function.update_self]
      exact hrelies.frame fun j _ => hsame j
    · rw [pc_of_ne hpc ht]
      exact (h.relies t').frame fun j _ => hsame j
  · refine Rests.frame ?_ (hsame j)
    by_cases hjt : (s.pc t).node = some j
    · exact hrest j hjt (node_eq_none hpc hj fun k hk => Pc.eq_of_node hjt (hown k hk))
    · exact h.rests_before hpc hj hjt

end Turns

/-! ## Calls of a list -/

/-- What a call of the list does to one of its nodes. -/
def Cell.Worked {T : Type} (c c' : Cell T) : Prop :=
  c.Hydrates c' ∨ c.state.hasValue = true ∧ c' = ⟨.validNoWriteNeeded, c.t⟩

namespace Cell.Worked
variable {T : Type} {c c' : Cell T}

theorem refl (c : Cell T) : c.Worked c := Or.inl (Or.inl rfl)

theorem wf (h : c.Worked c') (hc : c.Wf) : c'.Wf := by
  rcases h with h | ⟨hv, rfl⟩
  · exact h.wf hc
  · simp only [Cell.Wf] at hc ⊢
    rw [hc, hv]
    rfl

theorem needsWrite (h : c.Worked c') (hs : c'.state = .needsWrite) : c.state = .needsWrite := by
  rcases h with (rfl | ⟨_, rfl | ⟨t, rfl⟩⟩) | ⟨_, rfl⟩
  · exact hs
  · cases hs
  · cases hs
  · cases hs

theorem nonResident (h : c.Worked c') (hs : c.state = .nonResident) : c' = c := by
  rcases h with (rfl | ⟨hi, _⟩) | ⟨hv, _⟩
  · rfl
  · rw [hs] at hi
    cases hi
  · rw [hs] at hv
    cases hv

theorem hasValue (h : c.Worked c') (hs : c.state.hasValue = true) : c'.state.hasValue = true := by
  rcases h with (rfl | ⟨hi, _⟩) | ⟨_, rfl⟩
  · exact hs
  · rw [hi] at hs
    cases hs
  · rfl

end Cell.Worked

theorem worked_markInitialNonresident (list : List E.Id) (cells : Cells E) (i : E.Id) :
    (cells i).Worked (markInitialNonresident list cells i) := by
  simp only [markInitialNonresident]
  split
  · next h => exact Or.inl (Or.inr ⟨h.2, Or.inl rfl⟩)
  · exact .refl _

theorem worked_markWritten (list : List E.Id) (cells : Cells E) (i : E.Id) :
    (cells i).Worked (markWritten list cells i) := by
  simp only [markWritten]
  split
  · next h => exact Or.inr ⟨h.2, rfl⟩
  · exact .refl _

/-- A turn by which a call of a list changes its nodes. -/
theorem Exclusive.sweep {s s' : Tasks E L τ} {t : τ} {p : Pc E L} {l : L} (h : Exclusive s)
    (hpc : s'.pc = Function.update s.pc t p) (hm : Hands s s' t p) (hl : (s.pc t).holds = some l)
    (hown : (s.pc t).node = none) (hown' : p.node = none) (hlinks : s'.links = s.links)
    (hword : s'.word = s.word) (hcells : ∀ i, (s.cells i).Worked (s'.cells i))
    (hout : ∀ i, i ∉ s.links l → s'.cells i = s.cells i) (hrelies : Relies s' p) :
    Exclusive s' := by
  have hsame : ∀ i, i ∉ s.links l → SameNode s s' i := fun i hi =>
    ⟨congrFun hword i, hout i hi, fun l => by rw [hlinks]⟩
  refine ⟨h.hands hpc hm, fun k => ?_, fun i => (hcells i).wf (h.wf i), fun i k k' hk hk' => ?_,
    h.unique_update hpc fun i hi => (nomatch hown'.symm.trans hi), fun t' => ?_, fun i hi => ?_⟩
  · rw [hlinks]
    exact h.keys k
  · rw [hlinks] at hk hk'
    exact h.only i k k' hk hk'
  · by_cases ht : t' = t
    · subst ht
      rw [hpc, Function.update_self]
      exact hrelies
    · rw [pc_of_ne hpc ht]
      have hr := h.relies t'
      -- who works on a node of the list relies on nothing that the call changes
      cases heq : s.pc t' with
      | attachLink k i =>
        rw [heq] at hr
        exact Relies.frame hr fun j hj => by
          cases hj
          exact hsame i (hr.2.1 l)
      | attachWait k i already =>
        rw [heq] at hr
        refine ⟨(congrFun hword i).trans hr.1, by rw [hlinks]; exact hr.2.1, fun ha hs => ?_⟩
        exact hr.2.2 ha ((hcells i).needsWrite hs)
      | attachRelock k i | attachDefault k i =>
        rw [heq] at hr
        refine ⟨(congrFun hword i).trans hr.1, by rw [hlinks]; exact hr.2.1, ?_⟩
        exact (congrArg Cell.state ((hcells i).nonResident hr.2.2)).trans hr.2.2
      | handle i =>
        rw [heq] at hr
        obtain ⟨k, hk, hi, hv⟩ := hr
        exact ⟨k, (congrFun hword i).trans hk, by rw [hlinks]; exact hi, (hcells i).hasValue hv⟩
      | writeLock k i | writing k i =>
        rw [heq] at hr
        exact ⟨(congrFun hword i).trans hr.1, by rw [hlinks]; exact hr.2.1, (hcells i).hasValue hr.2.2⟩
      | detachUnlink k i =>
        rw [heq] at hr
        exact ⟨(congrFun hword i).trans hr.1, by rw [hlinks]; exact hr.2⟩
      | detachReset k i | detachStore k i =>
        rw [heq] at hr
        exact Relies.frame hr fun j hj => by
          cases hj
          first | exact hsame i (hr.2 l) | exact hsame i (hr.2.1 l)
      | deserializing k i body =>
        rw [heq] at hr
        refine Relies.frame hr fun j hj => ?_
        cases hj
        refine hsame i fun hi => ht (h.holder ?_ hl)
        rw [heq, h.only i l k hi hr.1]
        rfl
      | panicked p =>
        rw [heq] at hr
        exact hr
      | failed e =>
        rw [heq] at hr
        exact hr
      | _ => trivial
  · rcases h.rests_before hpc hi (by simp [hown]) with ⟨hw, hu, hc⟩ | ⟨k, hw, hk⟩
    · exact Rests.frame (Or.inl ⟨hw, hu, hc⟩) (hsame i (hu l))
    · exact Or.inr ⟨k, by rw [hword]; exact hw, by rw [hlinks]; exact hk⟩

end CfgNoodle

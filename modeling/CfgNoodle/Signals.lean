import CfgNoodle.Typestate

/-! # No wake-up is lost

`needs_read` is woken at the end of the first section of an attach, `needs_write`
by the handle's `write`, and `reading_done` by every `process_reads` that returns
`Ok`. As long as whoever has taken a signal calls on until a call returns `Ok`,
no attach sleeps, and no value that a handle has written stays unsaved, without
a signal or a call that is owed. Nothing is signalled for a default that `attach`
writes. -/
namespace CfgNoodle
open Outcome Runs
variable {E : Env} {L τ : Type} [DecidableEq L] [DecidableEq τ]

/-! ## Signals -/

/-- The wakes that nobody has taken out of the queues, the calls that are owed for
the ones that were taken, and the tasks that sleep in `reading_done`. `dirtied`
says which nodes a handle has written to since they were last saved. -/
structure Signals (E : Env) (L τ : Type) where
  tasks : Tasks E L τ
  needsRead : L → Bool
  needsWrite : L → Bool
  owesRead : L → Bool
  owesWrite : L → Bool
  asleep : τ → Bool
  dirtied : E.Id → Bool

/-- `process_reads` or `process_writes` has the mutex. -/
def Pc.serves : Pc E L → Bool
  | reading _ | storing _ => true
  | _ => false

namespace Tasks
variable (s : Tasks E L τ) (t : τ)

/-- The turn ends in `needs_read.wake()` of the list. -/
def wakesRead (l : L) : Bool :=
  match s.pc t with
  | .attachTake k i =>
    match (s.word i).check k with
    | .ok true => k = l
    | _ => false
  | .attachLink k i => k = l && !(findNode (s.links k) (E.key i)).isSome
  | _ => false

/-- The turn ends in `needs_write.wake()` of the list. -/
def wakesWrite (l : L) : Bool :=
  match s.pc t with
  | .writing _ i => (s.state i).hasValue && (s.word i).handleList = some l
  | _ => false

/-- `wait_for_value` finds nothing to return. -/
def sleeps : Bool :=
  match s.pc t with
  | .attachWait _ i _ => s.state i = .initial
  | _ => false

/-- What the turn does to the nodes that a handle has written to. -/
def dirties (dirtied : E.Id → Bool) : E.Id → Bool :=
  match s.pc t with
  | .writing _ i => Function.update dirtied i (dirtied i || (s.state i).hasValue)
  | .detachReset _ i => Function.update dirtied i false
  | _ => dirtied

/-- The task waits in `reading_done` of the list. -/
def waitsFor (l : L) : Bool :=
  match s.pc t with
  | .attachWait k _ _ => k = l
  | _ => false

end Tasks

namespace Signals

/-- Nothing has happened yet. -/
def new : Signals E L τ :=
  ⟨.new, fun _ => false, fun _ => false, fun _ => false, fun _ => false, fun _ => false, fun _ => false⟩

/-- A turn with its wakes. -/
def after (s : Signals E L τ) (u : Turn τ) (tasks : Tasks E L τ) : Signals E L τ :=
  match u with
  | .abandon t => { s with tasks, asleep := Function.update s.asleep t false }
  | .run t =>
    { s with
      tasks
      needsRead := fun l => s.needsRead l || s.tasks.wakesRead t l
      needsWrite := fun l => s.needsWrite l || s.tasks.wakesWrite t l
      asleep := Function.update s.asleep t (s.tasks.sleeps t)
      dirtied := s.tasks.dirties t s.dirtied }

/-- `process_reads` of a list returns `Ok`, and has woken all that sleep there. -/
def readOk (s : Signals E L τ) (t : τ) (l : L) : Signals E L τ :=
  { s with
    tasks := s.tasks.finish t l (markInitialNonresident (s.tasks.links l) s.tasks.cells)
    owesRead := Function.update s.owesRead l false
    asleep := fun t' => s.asleep t' && !s.tasks.waitsFor t' l }

/-- `process_writes` of a list returns `Ok`, and has marked the nodes. -/
def writeOk (s : Signals E L τ) (t : τ) (l : L) : Signals E L τ :=
  { s with
    tasks := s.tasks.finish t l (markWritten (s.tasks.links l) s.tasks.cells)
    owesWrite := Function.update s.owesWrite l false
    dirtied := fun i => s.dirtied i && decide (i ∉ s.tasks.links l) }

/-- `process_writes` of a list returns `Ok` early. -/
def writeNothing (s : Signals E L τ) (t : τ) (l : L) : Signals E L τ :=
  { s with
    tasks := s.tasks.finish t l s.tasks.cells
    owesWrite := Function.update s.owesWrite l false }

end Signals

/-- A turn, or a signal is taken out of a queue of a list. -/
inductive Act (L τ : Type) where
  | turn (u : Turn τ)
  | takeRead (l : L)
  | takeWrite (l : L)

inductive SignalStep : Signals E L τ → Act L τ → Signals E L τ → Prop
  /-- Any turn; a call that ends in it has not returned `Ok` with something done. -/
  | turn {s : Signals E L τ} {u : Turn τ} {tasks : Tasks E L τ} (h : Step s.tasks u tasks)
      (hends : ∀ t, u = .run t → (s.tasks.pc t).serves = true → (tasks.pc t).holds = none →
        tasks.cells = s.tasks.cells) :
      SignalStep s (.turn u) (s.after u tasks)
  | readOk {s : Signals E L τ} {t : τ} {l : L} (h : s.tasks.pc t = .reading l) :
      SignalStep s (.turn (.run t)) (s.readOk t l)
  | writeOk {s : Signals E L τ} {t : τ} {l : L} (h : s.tasks.pc t = .storing l) :
      SignalStep s (.turn (.run t)) (s.writeOk t l)
  | writeNothing {s : Signals E L τ} {t : τ} {l : L} (h : s.tasks.pc t = .storing l)
      (hno : ∀ i ∈ s.tasks.links l, s.tasks.state i ≠ .needsWrite) :
      SignalStep s (.turn (.run t)) (s.writeNothing t l)
  | takeRead {s : Signals E L τ} {l : L} (h : s.needsRead l = true) :
      SignalStep s (.takeRead l) { s with
        needsRead := Function.update s.needsRead l false
        owesRead := Function.update s.owesRead l true }
  | takeWrite {s : Signals E L τ} {l : L} (h : s.needsWrite l = true) :
      SignalStep s (.takeWrite l) { s with
        needsWrite := Function.update s.needsWrite l false
        owesWrite := Function.update s.owesWrite l true }

/-- The runs of the tasks with their signals. -/
def signals (E : Env) (L τ : Type) [DecidableEq L] [DecidableEq τ] :
    System (Signals E L τ) (Act L τ) where
  init s := s = .new
  step := SignalStep

/-! ## What a turn does to the tasks, lists and states -/

/-- The task whose turn it is. -/
def Turn.task : Turn τ → τ
  | run t | abandon t => t

/-- The other tasks stay where they are. -/
theorem pc_of_step {s s' : Tasks E L τ} {u : Turn τ} (hstep : Step s u s') {t : τ} (ht : t ≠ u.task) :
    s'.pc t = s.pc t := by
  have hgoto : ∀ {x : Tasks E L τ} {p : Pc E L}, (x.goto u.task p).pc t = x.pc t :=
    fun {x p} => x.goto_pc_of_ne p ht
  cases hstep with
  | attachTake =>
    simp only [Tasks.attachTake]
    split <;> exact hgoto
  | attachLink =>
    simp only [Tasks.attachLink]
    split <;> exact hgoto
  | attachWait =>
    simp only [Tasks.attachWait]
    split
    · rfl
    · exact hgoto
    · exact hgoto
    · exact hgoto
  | load =>
    simp only [Tasks.load]
    split
    · split
      · rfl
      · exact hgoto
    · exact hgoto
  | write =>
    simp only [Tasks.write]
    split <;> exact hgoto
  | writing =>
    simp only [Tasks.writing]
    split
    · split
      · split <;> exact hgoto
      · exact hgoto
    · exact hgoto
  | dropHandle =>
    simp only [Tasks.dropHandle]
    split <;> exact hgoto
  | detachCas =>
    simp only [Tasks.detachCas]
    split <;> exact hgoto
  | detachUnlink =>
    simp only [Tasks.detachUnlink]
    split <;> exact hgoto
  | detachReset =>
    simp only [Tasks.detachReset]
    split <;> exact hgoto
  | readData =>
    simp only [Tasks.readData]
    split
    · rfl
    · split
      · rfl
      · split
        · exact hgoto
        · rfl
  | deserializing =>
    simp only [Tasks.deserializing]
    split <;> exact hgoto
  | serialize =>
    simp only [Tasks.serialize]
    split
    · exact hgoto
    · rfl
  | start | lock | abandon | attachDefault | detachStore | readDone | storeDone | ended => exact hgoto

namespace Exclusive
variable {s s' : Tasks E L τ} {u : Turn τ} (h : Exclusive s) (hstep : Step s u s')
include h hstep

/-- A node gets into a list only where `attach` links it, which wakes `needs_read`. -/
theorem linked_before {i : E.Id} {l : L} (hi : i ∈ s'.links l) : i ∈ s.links l ∨
    ∃ t, u = .run t ∧ s.wakesRead t l = true ∧ s.pc t = .attachLink l i := by
  cases hstep with
  | @attachTake t k j ht =>
    refine Or.inl ?_
    simp only [Tasks.attachTake] at hi
    split at hi <;> exact hi
  | @attachLink t k j ht =>
    simp only [Tasks.attachLink] at hi
    split at hi
    · exact Or.inl hi
    · next hk =>
      have hi : i ∈ Function.update s.links k (j :: s.links k) l := hi
      by_cases hl : l = k
      · subst hl
        rw [Function.update_self] at hi
        rcases List.mem_cons.mp hi with rfl | hi
        · refine Or.inr ⟨t, rfl, ?_, ht⟩
          unfold Tasks.wakesRead
          rw [ht]
          simpa using hk
        · exact Or.inl hi
      · rw [Function.update_of_ne hl] at hi
        exact Or.inl hi
  | @attachWait t k j already ht =>
    refine Or.inl ?_
    simp only [Tasks.attachWait] at hi
    split at hi <;> exact hi
  | @load t j ht =>
    rw [h.load ht] at hi
    exact Or.inl hi
  | @write t j ht =>
    refine Or.inl ?_
    simp only [Tasks.write] at hi
    split at hi <;> exact hi
  | @writing t k j ht v =>
    refine Or.inl ?_
    simp only [Tasks.writing] at hi
    split at hi
    · split at hi
      · split at hi <;> exact hi
      · exact hi
    · exact hi
  | @dropHandle t j ht =>
    refine Or.inl ?_
    simp only [Tasks.dropHandle] at hi
    split at hi <;> exact hi
  | @detachCas t k j ht =>
    refine Or.inl ?_
    simp only [Tasks.detachCas] at hi
    split at hi <;> exact hi
  | @detachUnlink t k j ht =>
    refine Or.inl ?_
    simp only [Tasks.detachUnlink] at hi
    split at hi
    · have hi : i ∈ Function.update s.links k ((s.links k).erase j) l := hi
      by_cases hl : l = k
      · subst hl
        rw [Function.update_self] at hi
        exact List.mem_of_mem_erase hi
      · rwa [Function.update_of_ne hl] at hi
    · exact hi
  | @detachReset t k j ht =>
    refine Or.inl ?_
    simp only [Tasks.detachReset] at hi
    split at hi <;> exact hi
  | @readData t k ht d =>
    refine Or.inl ?_
    simp only [Tasks.readData] at hi
    split at hi
    · exact hi
    · split at hi
      · exact hi
      · split at hi <;> exact hi
  | @deserializing t k j body ht =>
    refine Or.inl ?_
    simp only [Tasks.deserializing] at hi
    split at hi <;> exact hi
  | @serialize t k ht j hj =>
    rw [h.serialize] at hi
    exact Or.inl hi
  | start | lock | abandon | attachDefault | detachStore | readDone | storeDone | ended =>
    exact Or.inl hi

/-- Only `detach` takes a node back to the start, and has unlinked it before. -/
theorem initial_of_linked {i : E.Id} {l : L} (hl : i ∈ s.links l) (hs : s'.state i = .initial) :
    s.state i = .initial := by
  rcases h.documented hstep i with hsame | ⟨t, rfl, hdoc⟩
  · exact hsame ▸ hs
  · rw [hs] at hdoc
    have hreset : ∃ k, s.pc t = .detachReset k i := by
      generalize hp : s.pc t = p at hdoc
      generalize ha : s.state i = a at hdoc
      cases hdoc with
      | detached k => exact ⟨k, rfl⟩
    obtain ⟨k, hk⟩ := hreset
    have hr := h.relies t
    rw [hk] at hr
    exact absurd hl (hr.2 l)

/-- A node waits for data only if it did so before, or was just linked. -/
theorem initial_before {i : E.Id} {l : L} (hi : i ∈ s'.links l) (hs : s'.state i = .initial) :
    i ∈ s.links l ∧ s.state i = .initial ∨ ∃ t, u = .run t ∧ s.wakesRead t l = true := by
  rcases h.linked_before hstep hi with hl | ⟨t, hu, hwake, _⟩
  · exact Or.inl ⟨hl, h.initial_of_linked hstep hl hs⟩
  · exact Or.inr ⟨t, hu, hwake⟩

end Exclusive

/-! ## The invariant -/

/-- Somebody is to be woken for the list's reads, or owes it a call. -/
def Signals.ReadDue (s : Signals E L τ) (l : L) : Prop := s.needsRead l = true ∨ s.owesRead l = true

def Signals.WriteDue (s : Signals E L τ) (l : L) : Prop := s.needsWrite l = true ∨ s.owesWrite l = true

structure Signalled (s : Signals E L τ) : Prop where
  exclusive : Exclusive s.tasks
  initial : ∀ l i, i ∈ s.tasks.links l → s.tasks.state i = .initial → s.ReadDue l
  asleep : ∀ t l, s.asleep t = true → s.tasks.waitsFor t l = true → s.ReadDue l
  dirty : ∀ l i, i ∈ s.tasks.links l → s.dirtied i = true → s.WriteDue l
  kept : ∀ i, s.dirtied i = true → s.tasks.state i = .needsWrite

omit [DecidableEq τ] in
theorem signalled_new : Signalled (Signals.new : Signals E L τ) where
  exclusive := exclusive_new
  initial _ _ h := absurd h List.not_mem_nil
  asleep _ _ h := by cases h
  dirty _ _ h := absurd h List.not_mem_nil
  kept _ h := by cases h

omit [DecidableEq τ] in
theorem waitsFor_of_pc {s s' : Tasks E L τ} {t : τ} (h : s'.pc t = s.pc t) (l : L) :
    s'.waitsFor t l = s.waitsFor t l := by
  unfold Tasks.waitsFor
  rw [h]

/-- What a task does that waits for its node, writes to it or is in `process_writes`. -/
def MovesFrom (s : Tasks E L τ) (t : τ) (s' : Tasks E L τ) : Pc E L → Prop
  | .attachWait l i already => s' = s.attachWait t l i already
  | .writing l i => ∃ v, s' = s.writing t l i v
  | .storing l => (∃ i, s' = s.serialize t i) ∨ ∃ cells, s' = s.finish t l cells
  | _ => True

theorem movesFrom_of_step {s s' : Tasks E L τ} {t : τ} (hstep : Step s (.run t) s') :
    MovesFrom s t s' (s.pc t) := by
  cases hstep with
  | attachWait ht =>
    rw [ht]
    rfl
  | writing ht v =>
    rw [ht]
    exact ⟨v, rfl⟩
  | serialize ht hi =>
    rw [ht]
    exact Or.inl ⟨_, rfl⟩
  | storeDone ht =>
    rw [ht]
    exact Or.inr ⟨_, rfl⟩
  | ended ht =>
    rcases ht with ht | ht | ht <;> rw [ht]
    · trivial
    · exact Or.inr ⟨_, rfl⟩
    · trivial
  | start h _ =>
    rcases h with h | ⟨e, h⟩ <;> rw [h] <;> trivial
  | lock h _ =>
    cases hp : s.pc t with
    | attachWait | writing | storing =>
      rw [hp] at h
      cases h
    | _ => trivial
  | attachTake ht | attachLink ht | attachDefault ht | load ht | write ht | dropHandle ht
  | detachCas ht | detachUnlink ht | detachReset ht | detachStore ht | readData ht | deserializing ht
  | readDone ht =>
    rw [ht]
    trivial

/-- A task that has gone to sleep has taken no step. -/
theorem eq_of_sleeps {s s' : Tasks E L τ} {t : τ} (hs : s.sleeps t = true)
    (hstep : Step s (.run t) s') :
    s' = s ∧ ∃ l i already, s.pc t = .attachWait l i already ∧ s.state i = .initial := by
  unfold Tasks.sleeps at hs
  cases hp : s.pc t with
  | attachWait l i already =>
    rw [hp] at hs
    have hi : s.state i = .initial := of_decide_eq_true hs
    have hmove := movesFrom_of_step hstep
    rw [hp] at hmove
    have hstay : s.attachWait t l i already = s := by
      unfold Tasks.attachWait
      rw [hi]
    exact ⟨hmove.trans hstay, l, i, already, rfl, hi⟩
  | _ =>
    rw [hp] at hs
    cases hs

omit [DecidableEq L] [DecidableEq τ] in
/-- Which nodes a turn leaves dirtied. -/
theorem dirties_cases {s : Tasks E L τ} {t : τ} {dirtied : E.Id → Bool} {i : E.Id}
    (h : s.dirties t dirtied i = true) :
    (∃ k, s.pc t = .writing k i ∧ (s.state i).hasValue = true) ∨
      dirtied i = true ∧ ∀ k, s.pc t ≠ .detachReset k i := by
  unfold Tasks.dirties at h
  cases hp : s.pc t with
  | writing k j =>
    rw [hp] at h
    dsimp only at h
    by_cases hij : i = j
    · subst hij
      rw [Function.update_self, Bool.or_eq_true] at h
      rcases h with h | h
      · exact Or.inr ⟨h, fun k hk => by cases hk⟩
      · exact Or.inl ⟨k, rfl, h⟩
    · rw [Function.update_of_ne hij] at h
      exact Or.inr ⟨h, fun k hk => by cases hk⟩
  | detachReset k j =>
    rw [hp] at h
    dsimp only at h
    by_cases hij : i = j
    · subst hij
      rw [Function.update_self] at h
      cases h
    · rw [Function.update_of_ne hij] at h
      refine Or.inr ⟨h, fun k hk => hij ?_⟩
      cases hk
      rfl
  | _ =>
    rw [hp] at h
    exact Or.inr ⟨h, fun k hk => by cases hk⟩

/-- A node that was dirtied needs to be written until `process_writes` has done so. -/
theorem Exclusive.dirtied_state {s s' : Tasks E L τ} {t : τ} (h : Exclusive s)
    (hstep : Step s (.run t) s') {dirtied : E.Id → Bool}
    (hkept : ∀ i, dirtied i = true → s.state i = .needsWrite) {i : E.Id}
    (hends : ∀ l, s.pc t = .storing l → s'.state i = s.state i)
    (hd : s.dirties t dirtied i = true) : s'.state i = .needsWrite := by
  rcases dirties_cases hd with ⟨k, hk, hv⟩ | ⟨hd, hreset⟩
  · have hmove := movesFrom_of_step hstep
    rw [hk] at hmove
    obtain ⟨v, rfl⟩ := hmove
    have hr := h.relies t
    rw [hk] at hr
    unfold Tasks.writing
    rw [if_pos hv, if_pos (h.isSome_of_hasValue hv), hr.1]
    show (Function.update s.cells i ⟨.needsWrite, some v⟩ i).state = .needsWrite
    rw [Function.update_self]
  · have hs := hkept i hd
    rcases h.documented hstep i with hsame | ⟨t', ht', hdoc⟩
    · exact hsame.trans hs
    · cases ht'
      rw [hs] at hdoc
      generalize hp : s.pc t = p at hdoc
      generalize hb : s'.state i = b at hdoc
      cases hdoc with
      | written l =>
        rw [hends l hp] at hb
        exact absurd (hb.symm.trans hs) State.noConfusion
      | detached l => exact absurd hp (hreset l)

/-- A turn. -/
theorem Signalled.turn {s : Signals E L τ} (h : Signalled s) {u : Turn τ} {tasks : Tasks E L τ}
    (hstep : Step s.tasks u tasks)
    (hends : ∀ t, u = .run t → (s.tasks.pc t).serves = true → (tasks.pc t).holds = none →
      tasks.cells = s.tasks.cells) : Signalled (s.after u tasks) := by
  have hex := h.exclusive.step hstep
  cases u with
  | abandon t =>
    refine ⟨hex, fun l i hi hs => ?_, fun t' l ha hw => ?_, fun l i hi hd => ?_, fun i hd => ?_⟩
    · rcases h.exclusive.initial_before hstep hi hs with ⟨hi, hs⟩ | ⟨t', hu, _⟩
      · exact h.initial l i hi hs
      · cases hu
    · by_cases ht : t' = t
      · subst ht
        have ha : Function.update s.asleep t' false t' = true := ha
        rw [Function.update_self] at ha
        cases ha
      · have ha : Function.update s.asleep t false t' = true := ha
        rw [Function.update_of_ne ht] at ha
        refine h.asleep t' l ha ?_
        rw [← waitsFor_of_pc (pc_of_step hstep ht) l]
        exact hw
    · rcases h.exclusive.linked_before hstep hi with hi | ⟨t', hu, _⟩
      · exact h.dirty l i hi hd
      · cases hu
    · rcases h.exclusive.documented hstep i with hsame | ⟨t', hu, _⟩
      · exact hsame.trans (h.kept i hd)
      · cases hu
  | run t =>
    have hread : ∀ l, s.ReadDue l → (s.after (.run t) tasks).ReadDue l := by
      intro l hl
      exact hl.imp_left fun hr => by
        show (s.needsRead l || _) = true
        rw [hr, Bool.true_or]
    have hwrite : ∀ l, s.WriteDue l → (s.after (.run t) tasks).WriteDue l := by
      intro l hl
      exact hl.imp_left fun hr => by
        show (s.needsWrite l || _) = true
        rw [hr, Bool.true_or]
    refine ⟨hex, fun l i hi hs => ?_, fun t' l ha hw => ?_, fun l i hi hd => ?_, fun i hd => ?_⟩
    · rcases h.exclusive.initial_before hstep hi hs with ⟨hi, hs⟩ | ⟨t', hu, hwake⟩
      · exact hread l (h.initial l i hi hs)
      · cases hu
        refine Or.inl ?_
        show (s.needsRead l || s.tasks.wakesRead t l) = true
        rw [hwake, Bool.or_true]
    · by_cases ht : t' = t
      · subst ht
        have ha : Function.update s.asleep t' (s.tasks.sleeps t') t' = true := ha
        rw [Function.update_self] at ha
        obtain ⟨rfl, k, i, already, hp, hi⟩ := eq_of_sleeps ha hstep
        have hr := h.exclusive.relies t'
        rw [hp] at hr
        have hk : k = l := by
          have hw : s.tasks.waitsFor t' l = true := hw
          unfold Tasks.waitsFor at hw
          rw [hp] at hw
          exact of_decide_eq_true hw
        exact hk ▸ hread k (h.initial k i hr.2.1 hi)
      · have ha : Function.update s.asleep t (s.tasks.sleeps t) t' = true := ha
        rw [Function.update_of_ne ht] at ha
        refine hread l (h.asleep t' l ha ?_)
        rw [← waitsFor_of_pc (pc_of_step hstep ht) l]
        exact hw
    · have hd : s.tasks.dirties t s.dirtied i = true := hd
      rcases h.exclusive.linked_before hstep hi with hi | ⟨t', hu, _, hp⟩
      · rcases dirties_cases hd with ⟨k, hk, hv⟩ | ⟨hd, _⟩
        · -- the handle wakes the writer of its list
          have hr := h.exclusive.relies t
          rw [hk] at hr
          obtain ⟨hword, hlink, _⟩ := hr
          obtain rfl := h.exclusive.only i k l hlink hi
          have hwakes : s.tasks.wakesWrite t k = true := by
            unfold Tasks.wakesWrite
            rw [hk]
            dsimp only
            rw [hv, hword]
            exact decide_eq_true rfl
          refine Or.inl ?_
          show (s.needsWrite k || s.tasks.wakesWrite t k) = true
          rw [hwakes, Bool.or_true]
        · exact hwrite l (h.dirty l i hi hd)
      · -- a node that is linked was not dirtied
        cases hu
        have hr := h.exclusive.relies t
        rw [hp] at hr
        rcases dirties_cases hd with ⟨k, hk, _⟩ | ⟨hd, _⟩
        · rw [hp] at hk
          cases hk
        · have hs := h.kept i hd
          unfold Tasks.state at hs
          rw [hr.2.2] at hs
          cases hs
    · refine h.exclusive.dirtied_state hstep h.kept (fun l hp => ?_) hd
      have hmove := movesFrom_of_step hstep
      rw [hp] at hmove
      rcases hmove with ⟨j, rfl⟩ | ⟨cells, rfl⟩
      · rw [h.exclusive.serialize]
      · refine Tasks.state_of_cells (hends t rfl (by rw [hp]; rfl) ?_) i
        unfold Tasks.finish
        rw [Tasks.goto_pc]
        rfl

/-- The end of a call wakes nobody up and puts nobody to sleep. -/
theorem waitsFor_finish {s : Tasks E L τ} {t t' : τ} {l l' : L} {cells : Cells E}
    (h : (s.finish t l cells).waitsFor t' l' = true) : s.waitsFor t' l' = true := by
  by_cases ht : t' = t
  · subst ht
    unfold Tasks.waitsFor at h
    unfold Tasks.finish at h
    rw [Tasks.goto_pc] at h
    cases h
  · have hpc : (s.finish t l cells).pc t' = s.pc t' := Tasks.goto_pc_of_ne _ _ ht
    rwa [waitsFor_of_pc hpc l'] at h

/-- What is due stays so for all lists, except where a call for the one list has
returned. -/
theorem due_update {needs owes : L → Bool} {k l : L} (hl : l ≠ k)
    (h : needs l = true ∨ owes l = true) : needs l = true ∨ Function.update owes k false l = true := by
  rwa [Function.update_of_ne hl]

/-- A signal that is taken is owed. -/
theorem due_take {needs owes : L → Bool} {k l : L} (h : needs l = true ∨ owes l = true) :
    Function.update needs k false l = true ∨ Function.update owes k true l = true := by
  by_cases hl : l = k
  · subst hl
    rw [Function.update_self, Function.update_self]
    exact Or.inr rfl
  · rwa [Function.update_of_ne hl, Function.update_of_ne hl]

theorem Signalled.step {s s' : Signals E L τ} {c : Act L τ} (h : Signalled s)
    (hstep : SignalStep s c s') : Signalled s' := by
  cases hstep with
  | turn hu hends => exact h.turn hu hends
  | @readOk t l ht =>
    refine ⟨h.exclusive.step (.readDone ht), fun k i hi hs => ?_, fun t' k ha hw => ?_,
      fun k i hi hd => h.dirty k i hi hd, fun i hd => ?_⟩
    · have hst : (markInitialNonresident (s.tasks.links l) s.tasks.cells i).state = .initial := hs
      unfold markInitialNonresident at hst
      split at hst
      · cases hst
      · next hno =>
        have hk : k ≠ l := by
          intro heq
          subst heq
          exact hno ⟨hi, hst⟩
        exact due_update hk (h.initial k i hi hst)
    · have ha : (s.asleep t' && !s.tasks.waitsFor t' l) = true := ha
      have hwaits : s.tasks.waitsFor t' k = true := waitsFor_finish hw
      rw [Bool.and_eq_true, Bool.not_eq_true'] at ha
      have hk : k ≠ l := by
        intro heq
        subst heq
        rw [hwaits] at ha
        cases ha.2
      exact due_update hk (h.asleep t' k ha.1 hwaits)
    · have hs := h.kept i hd
      show (markInitialNonresident (s.tasks.links l) s.tasks.cells i).state = .needsWrite
      unfold markInitialNonresident
      rw [if_neg]
      · exact hs
      · intro hx
        exact absurd (hx.2.symm.trans hs) State.noConfusion
  | @writeOk t l ht =>
    refine ⟨h.exclusive.step (.storeDone ht), fun k i hi hs => ?_,
      fun t' k ha hw => h.asleep t' k ha (waitsFor_finish hw), fun k i hi hd => ?_, fun i hd => ?_⟩
    · have hst : (markWritten (s.tasks.links l) s.tasks.cells i).state = .initial := hs
      unfold markWritten at hst
      split at hst
      · cases hst
      · exact h.initial k i hi hst
    · have hd : (s.dirtied i && decide (i ∉ s.tasks.links l)) = true := hd
      rw [Bool.and_eq_true, decide_eq_true_iff] at hd
      have hk : k ≠ l := fun heq => hd.2 (heq ▸ hi)
      exact due_update hk (h.dirty k i hi hd.1)
    · have hd : (s.dirtied i && decide (i ∉ s.tasks.links l)) = true := hd
      rw [Bool.and_eq_true, decide_eq_true_iff] at hd
      show (markWritten (s.tasks.links l) s.tasks.cells i).state = .needsWrite
      rw [markWritten_of_not_mem hd.2]
      exact h.kept i hd.1
  | @writeNothing t l ht hno =>
    refine ⟨h.exclusive.step (.ended (Or.inr (Or.inl ht))), fun k i hi hs => h.initial k i hi hs,
      fun t' k ha hw => h.asleep t' k ha (waitsFor_finish hw), fun k i hi hd => ?_,
      fun i hd => h.kept i hd⟩
    have hk : k ≠ l := by
      intro heq
      subst heq
      exact hno i hi (h.kept i hd)
    exact due_update hk (h.dirty k i hi hd)
  | takeRead _ =>
    exact ⟨h.exclusive, fun k i hi hs => due_take (h.initial k i hi hs),
      fun t k ha hw => due_take (h.asleep t k ha hw), h.dirty, h.kept⟩
  | takeWrite _ =>
    exact ⟨h.exclusive, h.initial, h.asleep, fun k i hi hd => due_take (h.dirty k i hi hd), h.kept⟩

theorem signalled_reachable {s : Signals E L τ} (hs : (signals E L τ).Reachable s) : Signalled s :=
  hs.invariant (fun _ h0 => h0 ▸ signalled_new) fun _ _ _ h hstep => h.step hstep

/-! ## No wake-up is lost -/

/-- An attach whose node no longer waits for data gets on at its next poll: it has a
handle, or goes to write the default. -/
theorem Signalled.poll {s : Signals E L τ} (h : Signalled s) {t : τ} {l : L} {i : E.Id} {already : Bool}
    (hp : s.tasks.pc t = .attachWait l i already) (hs : s.tasks.state i ≠ .initial) :
    (s.tasks.attachWait t l i already).pc t = .handle i ∨
      (s.tasks.attachWait t l i already).pc t = .attachRelock l i := by
  have hr := h.exclusive.relies t
  rw [hp] at hr
  unfold Tasks.attachWait
  cases hst : s.tasks.state i with
  | initial => exact absurd hst hs
  | nonResident => exact Or.inr (Tasks.goto_pc ..)
  | validNoWriteNeeded => exact Or.inl (Tasks.goto_pc ..)
  | needsWrite =>
    cases already with
    | true => exact Or.inl (Tasks.goto_pc ..)
    | false => exact absurd hst (hr.2.2 rfl)

/-- The task that takes the step. -/
def Act.task : Act L τ → Option τ
  | turn u => some u.task
  | takeRead _ | takeWrite _ => none

/-- Steps of other tasks, and signals that are taken. -/
def Others (t : τ) : Signals E L τ → Signals E L τ → Prop :=
  Relation.ReflTransGen fun s s' => ∃ c : Act L τ, c.task ≠ some t ∧ SignalStep s c s'

/-- An attach that gets on at its next poll. -/
structure Awake (s : Signals E L τ) (t : τ) (l : L) (i : E.Id) (already : Bool) : Prop where
  signalled : Signalled s
  waits : s.tasks.pc t = .attachWait l i already
  awake : s.asleep t = false
  ready : s.tasks.state i ≠ .initial

/-- A step of the tasks with their signals is a turn, or leaves the tasks alone. -/
theorem SignalStep.turns {s s' : Signals E L τ} {c : Act L τ} (h : SignalStep s c s') :
    (∃ u, c = .turn u ∧ Step s.tasks u s'.tasks) ∨ s'.tasks = s.tasks := by
  cases h with
  | @turn u tasks hstep _ => cases u <;> exact Or.inl ⟨_, rfl, hstep⟩
  | readOk ht => exact Or.inl ⟨_, rfl, .readDone ht⟩
  | writeOk ht => exact Or.inl ⟨_, rfl, .storeDone ht⟩
  | writeNothing ht _ => exact Or.inl ⟨_, rfl, .ended (Or.inr (Or.inl ht))⟩
  | takeRead _ | takeWrite _ => exact Or.inr rfl

/-- Nobody else puts a task to sleep. -/
theorem SignalStep.stays_awake {s s' : Signals E L τ} {c : Act L τ} (h : SignalStep s c s') {t : τ}
    (hc : c.task ≠ some t) (ha : s.asleep t = false) : s'.asleep t = false := by
  cases h with
  | @turn u tasks _ _ =>
    have ht : t ≠ u.task := fun heq => hc (congrArg some heq.symm)
    cases u with
    | run t' => exact (Function.update_of_ne ht ..).trans ha
    | abandon t' => exact (Function.update_of_ne ht ..).trans ha
  | readOk _ =>
    show (s.asleep t && _) = false
    rw [ha, Bool.false_and]
  | writeOk _ | writeNothing _ _ | takeRead _ | takeWrite _ => exact ha

theorem Awake.step {s s' : Signals E L τ} {t : τ} {l : L} {i : E.Id} {already : Bool}
    (h : Awake s t l i already) {c : Act L τ} (hc : c.task ≠ some t) (hstep : SignalStep s c s') :
    Awake s' t l i already := by
  have hr := h.signalled.exclusive.relies t
  rw [h.waits] at hr
  refine ⟨h.signalled.step hstep, ?_, hstep.stays_awake hc h.awake, ?_⟩
  · rcases hstep.turns with ⟨u, rfl, hu⟩ | hsame
    · exact (pc_of_step hu fun heq => hc (congrArg some heq.symm)).trans h.waits
    · exact hsame ▸ h.waits
  · rcases hstep.turns with ⟨u, rfl, hu⟩ | hsame
    · exact fun hs => h.ready (h.signalled.exclusive.initial_of_linked hu hr.2.1 hs)
    · exact hsame ▸ h.ready

theorem Awake.others {s s' : Signals E L τ} {t : τ} {l : L} {i : E.Id} {already : Bool}
    (h : Awake s t l i already) (hs : Others t s s') : Awake s' t l i already := by
  induction hs with
  | refl => exact h
  | tail _ hstep ih =>
    obtain ⟨c, hc, hstep⟩ := hstep
    exact ih.step hc hstep

/-- Once `process_reads` has returned `Ok`, all that wait for the list get on. -/
theorem Signalled.readOk_wakes {s : Signals E L τ} (h : Signalled s) {t : τ} {l : L}
    (ht : s.tasks.pc t = .reading l) {t' : τ} {i : E.Id} {already : Bool}
    (hp : (s.readOk t l).tasks.pc t' = .attachWait l i already) :
    Awake (s.readOk t l) t' l i already := by
  have h' : Signalled (s.readOk t l) := h.step (.readOk ht)
  have hr := h'.exclusive.relies t'
  rw [hp] at hr
  have hwaits : (s.readOk t l).tasks.waitsFor t' l = true := by
    unfold Tasks.waitsFor
    rw [hp]
    exact decide_eq_true rfl
  refine ⟨h', hp, ?_, fun hst => ?_⟩
  · have hbefore : s.tasks.waitsFor t' l = true := waitsFor_finish hwaits
    show (s.asleep t' && !s.tasks.waitsFor t' l) = false
    rw [hbefore, Bool.not_true, Bool.and_false]
  · have hst : (markInitialNonresident (s.tasks.links l) s.tasks.cells i).state = .initial := hst
    unfold markInitialNonresident at hst
    split at hst
    · cases hst
    · next hno => exact hno ⟨hr.2.1, hst⟩

/-- **No wake-up is lost**: wherever an attach sleeps or waits for data, `needs_read`
is signalled or a call of `process_reads` is owed, and wherever a handle has written
to a node of a list that is not saved, the same holds of `needs_write`. A call of
`process_reads` that returns `Ok` leaves no attach of its list asleep, and whatever the
other tasks do then, each of them gets a handle or goes on to write the default at its
next poll. -/
theorem no_wakeup_lost {s : Signals E L τ} (hs : (signals E L τ).Reachable s) :
    (∀ t l i already, s.tasks.pc t = .attachWait l i already →
      s.asleep t = true ∨ s.tasks.state i = .initial → s.ReadDue l) ∧
      (∀ l i, i ∈ s.tasks.links l → s.dirtied i = true →
        s.tasks.state i = .needsWrite ∧ s.WriteDue l) ∧
      ∀ t l, s.tasks.pc t = .reading l → ∀ t' i already,
        (s.readOk t l).tasks.pc t' = .attachWait l i already → ∀ s', Others t' (s.readOk t l) s' →
          s'.tasks.pc t' = .attachWait l i already ∧ s'.asleep t' = false ∧
            ((s'.tasks.attachWait t' l i already).pc t' = .handle i ∨
              (s'.tasks.attachWait t' l i already).pc t' = .attachRelock l i) := by
  have h := signalled_reachable hs
  refine ⟨fun t l i already hp hwait => ?_, fun l i hi hd => ⟨h.kept i hd, h.dirty l i hi hd⟩,
    fun t l ht t' i already hp s' hs' => ?_⟩
  · have hr := h.exclusive.relies t
    rw [hp] at hr
    rcases hwait with ha | hst
    · refine h.asleep t l ha ?_
      unfold Tasks.waitsFor
      rw [hp]
      exact decide_eq_true rfl
    · exact h.initial l i hr.2.1 hst
  · have hawake := (h.readOk_wakes ht hp).others hs'
    exact ⟨hawake.waits, hawake.awake, hawake.signalled.poll hawake.waits hawake.ready⟩

/-! ## An attach that sleeps -/

/-- A turn of a task that is in neither `process_reads` nor `process_writes`. -/
theorem Signals.reachable_turn {s : Signals E L τ} (hs : (signals E L τ).Reachable s) {t : τ}
    {tasks : Tasks E L τ} (hstep : Step s.tasks (.run t) tasks)
    (hp : (s.tasks.pc t).serves = false) : (signals E L τ).Reachable (s.after (.run t) tasks) := by
  refine hs.step (.turn hstep fun t' ht hserves _ => ?_)
  cases ht
  rw [hp] at hserves
  cases hserves

/-- Like `oneWaiting`, and the other task is in `process_reads`. -/
def oneRead : Tasks twoSettings Bool Bool :=
  ((oneWaiting.goto false (.readLock false)).lock false false).goto false (.reading false)

theorem reachable_oneRead : ∃ s : Signals twoSettings Bool Bool,
    (signals twoSettings Bool Bool).Reachable s ∧ s.tasks = oneRead ∧ s.asleep true = true := by
  have h0 : (signals twoSettings Bool Bool).Reachable .new := .init rfl
  have h1 := Signals.reachable_turn h0 (.start (t := true) (Or.inl rfl) (.attach false settingA)) rfl
  have h2 := Signals.reachable_turn h1 (.lock (t := true) (l := false) rfl rfl) rfl
  have h3 := Signals.reachable_turn h2 (.attachTake (t := true) rfl) rfl
  have h4 := Signals.reachable_turn h3 (.attachLink (t := true) rfl) rfl
  have h5 := Signals.reachable_turn h4 (.attachWait (t := true) rfl) rfl
  have h6 := Signals.reachable_turn h5 (.start (t := false) (Or.inl rfl) (.processReads false)) rfl
  have h7 := Signals.reachable_turn h6 (.lock (t := false) (l := false) rfl rfl) rfl
  exact ⟨_, h7, rfl, rfl⟩

/-- The attach sleeps until the read returns, and the other task then goes on to write. -/
theorem no_wakeup_lost_asleep : ∃ s s' : Signals twoSettings Bool Bool,
    (signals twoSettings Bool Bool).Reachable s ∧ s.asleep true = true ∧ s.ReadDue false ∧
      Others true (s.readOk false false) s' ∧ s'.tasks.pc false = .storeLock false ∧
      s'.asleep true = false := by
  obtain ⟨s, hs, htasks, hasleep⟩ := reachable_oneRead
  obtain ⟨hread, _, hserved⟩ := no_wakeup_lost hs
  have hp : s.tasks.pc true = .attachWait false settingA false := by
    rw [htasks]
    rfl
  have hp' : s.tasks.pc false = .reading false := by
    rw [htasks]
    rfl
  have hidle : (s.readOk false false).tasks.pc false = .idle := Tasks.goto_pc ..
  have hstay : (s.readOk false false).tasks.pc true = s.tasks.pc true :=
    Tasks.goto_pc_of_ne _ _ (fun h => by cases h)
  have hnext : Others true (s.readOk false false) ((s.readOk false false).after (.run false)
      ((s.readOk false false).tasks.goto false (.storeLock false))) :=
    .single ⟨.turn (.run false), fun h => Bool.noConfusion (Option.some.inj h),
      .turn (.start (Or.inl hidle) (.processWrites false)) fun t ht hserves _ => by
        cases ht
        rw [hidle] at hserves
        cases hserves⟩
  exact ⟨s, _, hs, hasleep, hread true false settingA false hp (Or.inl hasleep), hnext,
    Tasks.goto_pc .., (hserved false false hp' true settingA false (hstay.trans hp) _ hnext).2.1⟩

end CfgNoodle

import CfgNoodle.Typestate

/-! # A handle reads its own writes

The value of a node changes only where its one handle writes to it or it is
detached. What a handle has written it therefore reads, whatever the other
tasks and the calls of the list do in between, and so does the next handle. -/
namespace CfgNoodle
open Outcome Runs
variable {E : Env} {L τ : Type}

/-- The task has a handle for the node, and may be about to write with it. -/
def Pc.Handles (p : Pc E L) (i : E.Id) : Prop :=
  p = .handle i ∨ ∃ l, p = .writeLock l i ∨ p = .writing l i

/-- The turn completes a write to the node, or drops its value in `detach`. -/
def Touches (s : Tasks E L τ) (u : Turn τ) (i : E.Id) : Prop :=
  ∃ t, u = .run t ∧ ∃ l, s.pc t = .writing l i ∨ s.pc t = .detachReset l i

/-- A node whose state has no value has none. -/
theorem Exclusive.no_value {s : Tasks E L τ} (h : Exclusive s) {i : E.Id}
    (hs : (s.state i).hasValue = false) : (s.cells i).t = none :=
  Option.isSome_eq_false_iff.mp ((h.wf i).trans hs) |> Option.isNone_iff_eq_none.mp

theorem setCell_t {s : Tasks E L τ} {i j : E.Id} (c : Cell (E.T j)) (h : i ≠ j) :
    ((s.setCell j c).cells i).t = (s.cells i).t :=
  congrArg Cell.t (Function.update_of_ne h ..)

section
variable [DecidableEq L] [DecidableEq τ]

/-- No other turn changes the value of a node that has one. -/
theorem Exclusive.value_kept {s s' : Tasks E L τ} {u : Turn τ} (h : Exclusive s)
    (hstep : Step s u s') {i : E.Id} (hn : ¬ Touches s u i) {v : E.T i}
    (hv : (s.cells i).t = some v) : (s'.cells i).t = some v := by
  have hne : ∀ {j}, (s.state j).hasValue = false → i ≠ j := by
    intro j hj heq
    subst heq
    rw [h.no_value hj] at hv
    cases hv
  cases hstep with
  | start | lock | abandon => exact hv
  | attachTake => rw [Tasks.attachTake_cells]; exact hv
  | attachLink => rw [Tasks.attachLink_cells]; exact hv
  | attachWait => rw [Tasks.attachWait_cells]; exact hv
  | @attachDefault t l j ht w =>
    have hr := h.relies t
    rw [ht] at hr
    exact (setCell_t _ (hne (by rw [hr.2.2]; rfl))).trans hv
  | load => rw [Tasks.load_cells]; exact hv
  | write => rw [Tasks.write_cells]; exact hv
  | @writing t l j ht w =>
    have hij : i ≠ j := fun heq => hn ⟨t, rfl, l, Or.inl (heq ▸ ht)⟩
    unfold Tasks.writing
    split
    · split
      · split
        · exact (setCell_t _ hij).trans hv
        · exact hv
      · exact hv
    · exact hv
  | dropHandle => rw [Tasks.dropHandle_cells]; exact hv
  | detachCas => rw [Tasks.detachCas_cells]; exact hv
  | detachUnlink => rw [Tasks.detachUnlink_cells]; exact hv
  | @detachReset t l j ht =>
    have hij : i ≠ j := fun heq => hn ⟨t, rfl, l, Or.inr (heq ▸ ht)⟩
    unfold Tasks.detachReset
    split
    · exact hv
    · exact (setCell_t _ hij).trans hv
  | detachStore => exact hv
  | readData => rw [Tasks.readData_cells]; exact hv
  | @deserializing t l j body ht =>
    have hr := h.relies t
    rw [ht] at hr
    unfold Tasks.deserializing
    split
    · exact hv
    · exact (setCell_t _ (hne (by rw [hr.2]; rfl))).trans hv
  | serialize => rw [Tasks.serialize_cells]; exact hv
  | readDone => exact (markInitialNonresident_t _ _ i).trans hv
  | storeDone => exact (markWritten_t _ _ i).trans hv
  | ended => exact hv

omit [DecidableEq L] [DecidableEq τ] in
/-- While a task has a handle for a node, only its own writes touch the node. -/
theorem Exclusive.touches_of_handles {s : Tasks E L τ} {u : Turn τ} (h : Exclusive s) {t : τ} {i : E.Id}
    (ht : (s.pc t).Handles i) (hu : Touches s u i) : u = .run t ∧ ∃ l, s.pc t = .writing l i := by
  obtain ⟨t', rfl, l, hl⟩ := hu
  have hnode : (s.pc t).node = some i := by
    rcases ht with ht | ⟨k, ht | ht⟩ <;> rw [ht] <;> rfl
  have hnode' : (s.pc t').node = some i := by
    rcases hl with hl | hl <;> rw [hl] <;> rfl
  obtain rfl := h.unique t t' i hnode hnode'
  rcases hl with hl | hl
  · exact ⟨rfl, l, hl⟩
  · -- a node that is being detached has no handle
    rcases ht with ht | ⟨k, ht | ht⟩ <;> rw [hl] at ht <;> cases ht

/-- A turn that leaves what the task wrote to the node: any at all while it has its
handle, except that it writes again, and afterwards any that neither writes to the
node nor detaches it. -/
def Leaves (t : τ) (i : E.Id) (s s' : Tasks E L τ) : Prop :=
  ∃ u, Step s u s' ∧ ((s.pc t).Handles i ∧ ¬ (u = .run t ∧ ∃ l, s.pc t = .writing l i) ∨
    ¬ Touches s u i)

theorem Exclusive.leaves {s s' : Tasks E L τ} (h : Exclusive s) {t : τ} {i : E.Id}
    (hstep : Leaves t i s s') {v : E.T i} (hv : (s.cells i).t = some v) :
    Exclusive s' ∧ (s'.cells i).t = some v := by
  obtain ⟨u, hu, hkeep⟩ := hstep
  refine ⟨h.step hu, h.value_kept hu ?_ hv⟩
  rcases hkeep with ⟨ht, hno⟩ | hno
  · exact fun htouch => hno (h.touches_of_handles ht htouch)
  · exact hno

/-- **A handle reads its own writes**: after a write, and any turns of all tasks that
leave it, the node has the value that was written, and every handle loads it. -/
theorem handle_reads_last_write {s : Tasks E L τ} (hs : (tasks E L τ).Reachable s) {t : τ} {l : L}
    {i : E.Id} (hw : s.pc t = .writing l i) (v : E.T i) {s' : Tasks E L τ}
    (hpath : Relation.ReflTransGen (Leaves t i) (s.writing t l i v) s') :
    (s'.cells i).t = some v ∧ ∀ t', s'.pc t' = .handle i → s'.load t' i = s' := by
  have h := exclusive_reachable hs
  have hstep : Step s (.run t) (s.writing t l i v) := .writing hw v
  have hwritten : ((s.writing t l i v).cells i).t = some v := by
    have hr := h.relies t
    rw [hw] at hr
    obtain ⟨hword, _, hv⟩ := hr
    unfold Tasks.writing
    rw [if_pos hv, if_pos (h.isSome_of_hasValue hv), hword]
    show (Function.update s.cells i ⟨.needsWrite, some v⟩ i).t = some v
    rw [Function.update_self]
  have hinv : Exclusive s' ∧ (s'.cells i).t = some v := by
    induction hpath with
    | refl => exact ⟨h.step hstep, hwritten⟩
    | tail _ hl ih => exact ih.1.leaves hl ih.2
  exact ⟨hinv.2, fun t' ht' => hinv.1.load ht'⟩

end

/-- The other task reads nothing for the node that waits, whose default is then
written. -/
def oneDefaulted : Tasks twoSettings Bool Bool :=
  let read := (oneWaiting.goto false (.readLock false)).lock false false |>.goto false (.reading false)
  let done := read.finish false false (markInitialNonresident (read.links false) read.cells)
  let relocked := ((done.attachWait true false settingA false).lock false true).goto true
    (.attachDefault false settingA)
  relocked.attachDefault true false settingA (7 : UInt8)

theorem reachable_oneDefaulted : (tasks twoSettings Bool Bool).Reachable oneDefaulted := by
  have h1 := completing_oneWaiting.of_restrict.step
    (.start (t := false) (p := .readLock false) (Or.inl rfl) (.processReads false))
  have h2 := h1.step (.lock (t := false) (l := false) (p := .reading false) rfl rfl)
  have h3 := h2.step (.readDone (t := false) (l := false) rfl)
  have h4 := h3.step (.attachWait (t := true) (l := false) (i := settingA) rfl)
  have h5 := h4.step (.lock (t := true) (l := false) (p := .attachDefault false settingA) rfl rfl)
  exact h5.step (.attachDefault (t := true) (l := false) (i := settingA) rfl (7 : UInt8))

/-- Its handle is about to write. -/
def oneWriting : Tasks twoSettings Bool Bool :=
  ((oneDefaulted.write true settingA).lock false true).goto true (.writing false settingA)

theorem reachable_oneWriting : (tasks twoSettings Bool Bool).Reachable oneWriting := by
  have h1 := reachable_oneDefaulted.step (.write (t := true) (i := settingA) rfl)
  exact h1.step (.lock (t := true) (l := false) (p := .writing false settingA) rfl rfl)

/-- It has written, and is dropped. -/
def oneWritten : Tasks twoSettings Bool Bool :=
  (oneWriting.writing true false settingA (9 : UInt8)).dropHandle true settingA

theorem oneWritten_keeps_value : (oneWritten.cells settingA).t = some (9 : UInt8) ∧
    ∀ t, oneWritten.pc t = .handle settingA → oneWritten.load t settingA = oneWritten := by
  have hhandle : (oneWriting.writing true false settingA (9 : UInt8)).pc true = .handle settingA := rfl
  refine handle_reads_last_write reachable_oneWriting (t := true) (l := false) rfl (9 : UInt8)
    (.single ⟨.run true, .dropHandle hhandle, Or.inl ⟨Or.inl hhandle, fun hw => ?_⟩⟩)
  obtain ⟨_, l, hl⟩ := hw
  rw [hhandle] at hl
  cases hl

end CfgNoodle

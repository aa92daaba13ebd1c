import CfgNoodle.Lib.Runs

/-! # The default worker

The loop of `default_worker_task`: three futures that are polled in turn, of
which the first to finish drops the others. Time is a sequence of events: a
signal, the expiry of a timer, a poll of the task, or the return of the call
that the task is in. -/
namespace CfgNoodle.Worker
open Runs

/-! ## Wait queues -/

/-- A `WaitQueue` with at most one waiter: a stored wakeup, and whether the
waiter that is registered has been woken. -/
structure WaitQueue where
  stored : Bool
  waiter : Option Bool
  deriving DecidableEq

namespace WaitQueue

def new : WaitQueue := ⟨false, none⟩

def wake (q : WaitQueue) : WaitQueue :=
  match q.waiter with
  | some false => { q with waiter := some true }
  | _ => { q with stored := true }

/-- A poll of `wait`: it completes with a wakeup or registers. -/
def poll (q : WaitQueue) : WaitQueue × Bool :=
  if q.waiter = some true then ({ q with waiter := none }, true)
  else if q.stored then (⟨false, none⟩, true)
  else (⟨false, some false⟩, false)

/-- A `wait` that is dropped before it has completed leaves its wakeup. -/
def cancel (q : WaitQueue) : WaitQueue :=
  if q.waiter = some true then ⟨true, none⟩ else { q with waiter := none }

/-- How many waits can complete. -/
def available (q : WaitQueue) : Nat := q.stored.toNat + (q.waiter == some true).toNat

theorem available_poll {q : WaitQueue} (h : q.poll.2 = true) : q.poll.1.available < q.available := by
  obtain ⟨stored, waiter⟩ := q
  simp only [poll] at h ⊢
  by_cases hw : waiter = some true
  · rw [if_pos hw, hw]
    cases stored <;> decide
  · rw [if_neg hw] at h ⊢
    cases stored with
    | false => cases h
    | true =>
      show 0 < 1 + _
      omega

end WaitQueue

/-! ## The futures of an iteration -/

/-- Where `read_fut` and `write_fut` are: before the first signal, or in the
debounce loop with a timer that may have expired. -/
inductive Phase where
  | waiting
  | debouncing (expired : Bool)
  deriving DecidableEq

def Phase.taken : Phase → Bool
  | waiting => false
  | debouncing _ => true

/-- `with_timeout` in a loop: every signal starts the timer again. The wait is
polled before the timer. -/
def debounce (q : WaitQueue) (expired : Bool) : WaitQueue × Option Phase :=
  if _h : q.poll.2 = true then debounce q.poll.1 false
  else if expired then (q.poll.1.cancel, none)
  else (q.poll.1, some (.debouncing false))
termination_by q.available
decreasing_by exact WaitQueue.available_poll ‹_›

/-- A poll of `read_fut` or `write_fut`: `none` where it finishes. -/
def Phase.poll (q : WaitQueue) : Phase → WaitQueue × Option Phase
  | waiting => if q.poll.2 then debounce q.poll.1 false else (q.poll.1, some waiting)
  | debouncing expired => debounce q expired

def Phase.expire : Phase → Phase
  | waiting => waiting
  | debouncing _ => debouncing true

/-- `gc_fut`: waiting for `needs_gc`, or in its delay. -/
inductive GcPhase where
  | waiting
  | delaying (expired : Bool)
  deriving DecidableEq

/-- A poll of `gc_fut`, given whether `needs_gc` is set. -/
def GcPhase.poll (needsGc : Bool) : GcPhase → Bool × Option GcPhase
  | waiting => if needsGc then (false, some (.delaying false)) else (false, some waiting)
  | delaying expired => (needsGc, if expired then none else some (.delaying false))

def GcPhase.expire : GcPhase → GcPhase
  | waiting => waiting
  | delaying _ => delaying true

/-! ## The loop -/

/-- The call that a branch is in: `process_reads`; `process_garbage`,
`process_writes` and `process_garbage`; or `process_garbage` alone. -/
inductive Serving where
  | processReads
  | garbageBefore
  | processWrites
  | garbageAfter
  | garbageAlone
  deriving DecidableEq

inductive Stage where
  | select (read write : Phase) (gc : GcPhase)
  | serve (call : Serving)
  deriving DecidableEq

/-- The state of the loop, with the signals that were taken from a queue since
the last call that they ask for; the loop itself does not know those. -/
structure State where
  firstGcDone : Bool
  needsGc : Bool
  needsRead : WaitQueue
  needsWrite : WaitQueue
  stage : Stage
  owedRead : Bool
  owedWrite : Bool
  deriving DecidableEq

/-- An iteration starts with three new futures. -/
def Stage.fresh : Stage := .select .waiting .waiting .waiting

def State.new : State := ⟨false, false, .new, .new, .fresh, false, false⟩

inductive Event where
  | needsRead
  | needsWrite
  | readTimer
  | writeTimer
  | gcTimer
  | poll
  | returned (ok : Bool)
  deriving DecidableEq

/-- Has this poll of a future taken a signal, or had an earlier one? A future
that finishes has. -/
def taken (p : Option Phase) : Bool := p ≠ some .waiting

/-- `select3`: polled in order, and the first that is ready drops the others. -/
def State.poll (s : State) (read write : Phase) (gc : GcPhase) : State :=
  let (needsRead, r) := read.poll s.needsRead
  let s := { s with owedRead := s.owedRead || taken r }
  match r with
  | none =>
    { s with needsRead, needsWrite := s.needsWrite.cancel, owedRead := false
             stage := .serve .processReads }
  | some read =>
    let (needsWrite, w) := write.poll s.needsWrite
    let s := { s with owedWrite := s.owedWrite || taken w }
    match w with
    | none => { s with needsRead := needsRead.cancel, needsWrite, stage := .serve .garbageBefore }
    | some write =>
      let (needsGc, g) := gc.poll s.needsGc
      match g with
      | none =>
        { s with needsRead := needsRead.cancel, needsWrite := needsWrite.cancel, needsGc
                 stage := .serve .garbageAlone }
      | some gc => { s with needsRead, needsWrite, needsGc, stage := .select read write gc }

/-- What follows a call that has returned. -/
def State.returned (s : State) (ok : Bool) : Serving → State
  | .processReads => { s with needsGc := s.needsGc || !s.firstGcDone, stage := .fresh }
  | .garbageBefore => { s with owedWrite := false, stage := .serve .processWrites }
  | .processWrites => { s with stage := .serve .garbageAfter }
  | .garbageAfter => { s with stage := .fresh }
  | .garbageAlone => { s with firstGcDone := s.firstGcDone || ok, stage := .fresh }

def State.step (s : State) : Event → State
  | .needsRead => { s with needsRead := s.needsRead.wake }
  | .needsWrite => { s with needsWrite := s.needsWrite.wake }
  | .readTimer =>
    match s.stage with
    | .select r w g => { s with stage := .select r.expire w g }
    | .serve _ => s
  | .writeTimer =>
    match s.stage with
    | .select r w g => { s with stage := .select r w.expire g }
    | .serve _ => s
  | .gcTimer =>
    match s.stage with
    | .select r w g => { s with stage := .select r w g.expire }
    | .serve _ => s
  | .poll =>
    match s.stage with
    | .select r w g => s.poll r w g
    | .serve _ => s
  | .returned ok =>
    match s.stage with
    | .select _ _ _ => s
    | .serve c => s.returned ok c

/-- The runs of the loop. -/
def loop : System State Event where
  init s := s = .new
  step s e s' := s' = s.step e

/-! ## Signals that are taken -/

/-- A signal that was taken is being debounced, or the call that it asks for
comes next or has been made. -/
def Remembered (s : State) : Prop :=
  (s.owedRead = true → ∃ r w g, s.stage = .select r w g ∧ r.taken = true) ∧
    (s.owedWrite = true → (∃ r w g, s.stage = .select r w g ∧ w.taken = true) ∨
      s.stage = .serve .garbageBefore)

/-- The poll finishes a future while `read_fut` or `write_fut`, which is not the
one, has taken a signal. -/
def Discards (s : State) : Event → Prop
  | .poll =>
    match s.stage with
    | .serve _ => False
    | .select read write gc =>
      match (read.poll s.needsRead).2, (write.poll s.needsWrite).2 with
      | none, _ => write.taken = true
      | some r, none => r.taken = true
      | some r, some w => (gc.poll s.needsGc).2 = none ∧ (r.taken = true ∨ w.taken = true)
  | _ => False

/-- What is owed is what the futures have taken, or what the running branch is
about to call. -/
def Inv (s : State) : Prop :=
  match s.stage with
  | .select r w _ => s.owedRead = r.taken ∧ s.owedWrite = w.taken
  | .serve c => s.owedRead = false ∧ (s.owedWrite = true → c = .garbageBefore)

theorem Inv.remembered {s : State} (h : Inv s) : Remembered s := by
  simp only [Inv] at h
  cases hs : s.stage with
  | select r w g =>
    rw [hs] at h
    obtain ⟨hr, hw⟩ := h
    exact ⟨fun ho => ⟨r, w, g, hs, hr ▸ ho⟩, fun ho => Or.inl ⟨r, w, g, hs, hw ▸ ho⟩⟩
  | serve c =>
    rw [hs] at h
    obtain ⟨hr, hw⟩ := h
    refine ⟨fun ho => ?_, fun ho => Or.inr ?_⟩
    · rw [hr] at ho; cases ho
    · rw [hs, hw ho]

theorem debounce_taken (q : WaitQueue) (expired : Bool) {p : Phase}
    (h : (debounce q expired).2 = some p) : p.taken = true := by
  induction q, expired using debounce.induct with
  | case1 q expired hq ih =>
    rw [debounce, dif_pos hq] at h
    exact ih h
  | case2 q hq =>
    rw [debounce, dif_neg hq, if_pos rfl] at h
    cases h
  | case3 q expired hq he =>
    rw [debounce, dif_neg hq, if_neg he] at h
    exact Option.some.inj h ▸ rfl

/-- A future that has taken a signal keeps it until it finishes. -/
theorem Phase.taken_poll {q : WaitQueue} {p p' : Phase} (h : (p.poll q).2 = some p')
    (ht : p.taken = true) : p'.taken = true := by
  cases p with
  | waiting => cases ht
  | debouncing expired => exact debounce_taken q expired h

theorem taken_some (p : Phase) : Worker.taken (some p) = p.taken := by
  cases p <;> rfl

/-- After a poll the futures owe what they have taken. -/
theorem owed_poll {q : WaitQueue} {p p' : Phase} {owed : Bool} (ho : owed = p.taken)
    (h : (p.poll q).2 = some p') : (owed || Worker.taken (some p')) = p'.taken := by
  rw [taken_some, ho]
  cases ht : p.taken with
  | false => rfl
  | true => rw [Phase.taken_poll h ht]; rfl

/-- A future that is dropped while it owes something is forgotten. -/
theorem not_remembered {s : State} {c : Serving} (hs : s.stage = .serve c)
    (h : s.owedRead = true ∨ s.owedWrite = true ∧ c ≠ .garbageBefore) : ¬ Remembered s := by
  intro hr
  rcases h with ho | ⟨ho, hc⟩
  · obtain ⟨_, _, _, hsel, _⟩ := hr.1 ho
    rw [hs] at hsel; cases hsel
  · rcases hr.2 ho with ⟨_, _, _, hsel, _⟩ | hsel
    · rw [hs] at hsel; cases hsel
    · rw [hs] at hsel
      exact hc (Stage.serve.inj hsel)

/-- A poll keeps what is owed unless it discards it. -/
theorem Inv.poll {s : State} {read write : Phase} {gc : GcPhase} (hs : s.stage = .select read write gc)
    (h : Inv s) : (¬ Discards s .poll → Inv (s.step .poll)) ∧
      (Discards s .poll → ¬ Remembered (s.step .poll)) := by
  simp only [Inv] at h
  rw [hs] at h
  obtain ⟨hor, how⟩ := h
  have hstep : s.step .poll = s.poll read write gc := by
    simp only [State.step]
    rw [hs]
  rw [hstep]
  simp only [Discards, State.poll]
  rw [hs]
  dsimp only
  cases hr : (read.poll s.needsRead).2 with
  | none =>
    -- `read_fut` finishes: `write_fut` is dropped
    dsimp only
    constructor
    · intro hno
      refine ⟨rfl, fun ho => ?_⟩
      rw [show s.owedWrite = true from ho] at how
      exact absurd how.symm hno
    · intro hd
      exact not_remembered rfl (Or.inr ⟨how.trans hd, nofun⟩)
  | some r =>
    have hr' := owed_poll hor hr
    dsimp only
    cases hw : (write.poll s.needsWrite).2 with
    | none =>
      -- `write_fut` finishes: `read_fut` is dropped
      dsimp only
      constructor
      · intro hno
        exact ⟨hr'.trans (Bool.eq_false_iff.mpr hno), fun _ => rfl⟩
      · intro hd
        exact not_remembered rfl (Or.inl (hr'.trans hd))
    | some w =>
      have hw' := owed_poll how hw
      dsimp only
      cases hg : (gc.poll s.needsGc).2 with
      | none =>
        -- `gc_fut` finishes: both are dropped
        dsimp only
        constructor
        · intro hno
          have hnone : r.taken = false ∧ w.taken = false :=
            ⟨Bool.eq_false_iff.mpr fun h => hno ⟨rfl, Or.inl h⟩,
              Bool.eq_false_iff.mpr fun h => hno ⟨rfl, Or.inr h⟩⟩
          refine ⟨hr'.trans hnone.1, fun ho => ?_⟩
          rw [hw'.trans hnone.2] at ho; cases ho
        · intro hd
          rcases hd.2 with h | h
          · exact not_remembered rfl (Or.inl (hr'.trans h))
          · exact not_remembered rfl (Or.inr ⟨hw'.trans h, nofun⟩)
      | some g =>
        dsimp only
        constructor
        · intro _
          exact ⟨hr', hw'⟩
        · intro hd
          cases hd.1

theorem Phase.taken_expire (p : Phase) : p.expire.taken = p.taken := by
  cases p <;> rfl

/-- Every other event keeps what is owed. -/
theorem Inv.step_of_ne_poll {s : State} (h : Inv s) {e : Event} (he : e ≠ .poll) : Inv (s.step e) := by
  cases e with
  | poll => exact absurd rfl he
  | needsRead => exact h
  | needsWrite => exact h
  | readTimer =>
    simp only [Inv] at h
    simp only [State.step]
    cases hs : s.stage with
    | serve c => rw [hs] at h; unfold Inv; dsimp only; rwa [hs]
    | select r w g => rw [hs] at h; exact ⟨h.1.trans r.taken_expire.symm, h.2⟩
  | writeTimer =>
    simp only [Inv] at h
    simp only [State.step]
    cases hs : s.stage with
    | serve c => rw [hs] at h; unfold Inv; dsimp only; rwa [hs]
    | select r w g => rw [hs] at h; exact ⟨h.1, h.2.trans w.taken_expire.symm⟩
  | gcTimer =>
    simp only [Inv] at h
    simp only [State.step]
    cases hs : s.stage with
    | serve c => rw [hs] at h; unfold Inv; dsimp only; rwa [hs]
    | select r w g => rw [hs] at h; exact h
  | returned ok =>
    simp only [Inv] at h
    simp only [State.step]
    cases hs : s.stage with
    | select r w g => rw [hs] at h; unfold Inv; dsimp only; rwa [hs]
    | serve c =>
      rw [hs] at h
      obtain ⟨hr, hw⟩ := h
      have hno : c ≠ .garbageBefore → s.owedWrite = false := fun hc =>
        Bool.eq_false_iff.mpr fun ho => hc (hw ho)
      cases c with
      | processReads => exact ⟨hr, hno nofun⟩
      | garbageBefore => exact ⟨hr, nofun⟩
      | processWrites => exact ⟨hr, fun ho => by rw [show s.owedWrite = true from ho] at hno; cases hno nofun⟩
      | garbageAfter => exact ⟨hr, hno nofun⟩
      | garbageAlone => exact ⟨hr, hno nofun⟩

/-- What an event does to what is owed. -/
theorem Inv.step {s : State} (h : Inv s) (e : Event) : (¬ Discards s e → Inv (s.step e)) ∧
    (Discards s e → ¬ Remembered (s.step e)) := by
  by_cases he : e = .poll
  · subst he
    cases hs : s.stage with
    | select r w g => exact Inv.poll hs h
    | serve c =>
      have hd : ¬ Discards s .poll := by
        simp only [Discards]
        rw [hs]
        exact id
      have hstep : s.step .poll = s := by
        simp only [State.step]
        rw [hs]
      exact ⟨fun _ => by rwa [hstep], fun h => absurd h hd⟩
  · refine ⟨fun _ => h.step_of_ne_poll he, fun hd => ?_⟩
    cases e with
    | poll => exact absurd rfl he
    | _ => exact hd.elim

/-- **A signal is remembered as long as no poll finishes one future while another
has taken a signal**: in every run without such a poll, and the first such poll
forgets one. -/
theorem signals_remembered_iff {s : State}
    (hs : (loop.restrict fun s e _ => ¬ Discards s e).Reachable s) :
    Remembered s ∧ ∀ e, Remembered (s.step e) ↔ ¬ Discards s e := by
  have hi : Inv s := by
    refine hs.invariant ?_ ?_
    · intro s h0
      obtain rfl := h0
      exact ⟨rfl, rfl⟩
    · intro s e s' hi hstep
      obtain ⟨rfl, hd⟩ := hstep
      exact (hi.step e).1 hd
  refine ⟨hi.remembered, fun e => ⟨fun hr hd => (hi.step e).2 hd hr, fun hd => ?_⟩⟩
  exact ((hi.step e).1 hd).remembered

/-- A write signal that is being debounced. -/
def pendingWrite : State := (State.new.step .needsWrite).step .poll

theorem pending_write_remembered : Remembered pendingWrite ∧
    ∀ e, Remembered (pendingWrite.step e) ↔ ¬ Discards pendingWrite e := by
  have h1 : (loop.restrict fun s e _ => ¬ Discards s e).Reachable (State.new.step .needsWrite) :=
    .step (.init rfl) ⟨rfl, id⟩
  have h2 : (loop.restrict fun s e _ => ¬ Discards s e).Reachable pendingWrite := by
    refine .step h1 ⟨rfl, ?_⟩
    simp [Discards, State.step, State.new, Stage.fresh, Phase.poll, GcPhase.poll, debounce,
      WaitQueue.new, WaitQueue.wake, WaitQueue.poll]
  exact signals_remembered_iff h2

/-- A read signal arrives in the debounce window of a write. -/
def readDuringWrite : List Event := [.needsWrite, .poll, .needsRead, .poll, .readTimer, .poll]

/-- The write signal is dropped with `write_fut` when `read_fut` finishes. -/
theorem write_signal_forgotten : ∃ s, loop.Reachable s ∧ ¬ Remembered s := by
  refine ⟨readDuringWrite.foldl State.step .new, System.reachable_foldl (fun _ _ _ => rfl) (.init rfl), ?_⟩
  refine not_remembered (c := .processReads) ?_ (Or.inr ⟨?_, nofun⟩)
  · simp [readDuringWrite, State.step, State.new, Stage.fresh, State.poll, Phase.poll, Phase.expire,
      GcPhase.poll, debounce, WaitQueue.new, WaitQueue.wake, WaitQueue.poll]
  · simp [readDuringWrite, State.step, State.new, Stage.fresh, State.poll, Phase.poll, Phase.expire,
      GcPhase.poll, debounce, WaitQueue.new, WaitQueue.wake, WaitQueue.poll, taken]

end CfgNoodle.Worker

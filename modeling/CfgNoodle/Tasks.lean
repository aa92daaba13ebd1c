import CfgNoodle.Transitions

/-! # Tasks, mutexes and the list pointer

Any number of tasks that attach, detach, read and write any number of nodes of
any number of lists, and call `process_reads`, `process_writes` and what only
works on the cache. A turn takes one task past one lock, one access to the list
pointer of a node or one piece of work between two awaits; a waiting call may
also be abandoned. What would be undefined behaviour, an `unreachable!` or a
failed debug assertion in the source leaves the task panicked. -/
namespace CfgNoodle
open Outcome Runs
variable {E : Env} {L τ : Type} [DecidableEq L] [DecidableEq τ]

/-! ## The list pointer -/

/-- `taken_for_list`: null, the address of a list with or without the lowest bit,
or the value that `detach` holds the node with. -/
inductive ListPointer (L : Type) where
  | null
  | attached (list : L)
  | taken (list : L)
  | detaching
  deriving DecidableEq

namespace ListPointer

def lowBit : ListPointer L → Bool
  | null | attached _ => false
  | taken _ | detaching => true

/-- The `fetch_update` of `attach` and the `compare_exchange` of `detach` tell the
same cases apart: is the node in the list, or nowhere? -/
def check (list : L) : ListPointer L → Except Error Bool
  | null => .ok false
  | attached l => if l = list then .ok true else .error .nodeInOtherList
  | taken l => if l = list then .error .alreadyTaken else .error .nodeInOtherList
  | detaching => .error .nodeInOtherList

/-- `list()` of a handle: `none` where an assertion of it fails, and where both hold
while detaching but no list has the address, which is null. -/
def handleList : ListPointer L → Option L
  | taken l => some l
  | _ => none

/-- The subtraction of one byte when a handle is dropped: `none` where an
assertion fails. -/
def dropHandle : ListPointer L → Option (ListPointer L)
  | taken l => some (attached l)
  | detaching => some null
  | null | attached _ => none

theorem check_eq_ok {list : L} {w : ListPointer L} {linked : Bool} :
    w.check list = .ok linked ↔ w = .null ∧ linked = false ∨ w = .attached list ∧ linked = true := by
  cases w with
  | null => simp [check, eq_comm]
  | attached l =>
    simp only [check]
    by_cases hl : l = list
    · simp [hl, eq_comm]
    · simp [hl]
  | taken l =>
    simp only [check]
    by_cases hl : l = list
    · simp [hl]
    · simp [hl]
  | detaching => simp [check]

theorem check_eq_alreadyTaken {list : L} {w : ListPointer L} :
    w.check list = .error .alreadyTaken ↔ w = .taken list := by
  cases w with
  | null => simp [check]
  | attached l => by_cases hl : l = list <;> simp [check, hl]
  | taken l => by_cases hl : l = list <;> simp [check, hl]
  | detaching => simp [check]

end ListPointer

/-! ## Where a task is -/

/-- What must not happen. -/
inductive Panic where
  /-- An arm of `attach_with_default` that is marked unreachable. -/
  | attach
  /-- The arm of `load` that is marked unreachable. -/
  | load
  /-- A debug assertion of `deserialize`, `detach`, `list` or `drop`. -/
  | deserialize
  | detach
  | list
  | drop
  /-- A data cell was read that is not initialised. -/
  | uninitialised
  deriving DecidableEq

/-- Where a task is: a call waits for the mutex of a list, or for a node to be
hydrated, or it holds the mutex. The owner of a handle is a task, too. -/
inductive Pc (E : Env) (L : Type) where
  | idle
  | failed (e : Error)
  | panicked (p : Panic)
  | attachLock (l : L) (i : E.Id)
  | attachTake (l : L) (i : E.Id)
  | attachLink (l : L) (i : E.Id)
  | attachWait (l : L) (i : E.Id) (alreadyAttached : Bool)
  | attachRelock (l : L) (i : E.Id)
  | attachDefault (l : L) (i : E.Id)
  | handle (i : E.Id)
  | writeLock (l : L) (i : E.Id)
  | writing (l : L) (i : E.Id)
  | detachLock (l : L) (i : E.Id)
  | detachCas (l : L) (i : E.Id)
  | detachUnlink (l : L) (i : E.Id)
  | detachReset (l : L) (i : E.Id)
  | detachStore (l : L) (i : E.Id)
  | readLock (l : L)
  | reading (l : L)
  | deserializing (l : L) (i : E.Id) (body : List UInt8)
  | storeLock (l : L)
  | storing (l : L)
  | cacheLock (l : L)
  | caching (l : L)

namespace Pc

/-- Where a task is once it has the mutex that it waits for. -/
def locked : Pc E L → Option (L × Pc E L)
  | attachLock l i => some (l, attachTake l i)
  | attachRelock l i => some (l, attachDefault l i)
  | writeLock l i => some (l, writing l i)
  | detachLock l i => some (l, detachCas l i)
  | readLock l => some (l, reading l)
  | storeLock l => some (l, storing l)
  | cacheLock l => some (l, caching l)
  | _ => none

/-- The list whose mutex the task holds. -/
def holds : Pc E L → Option L
  | attachTake l _ | attachLink l _ | attachDefault l _ | writing l _ | detachCas l _
  | detachUnlink l _ | detachReset l _ | detachStore l _ | reading l | deserializing l _ _
  | storing l | caching l => some l
  | _ => none

/-- The node that the task has an `attach` in progress or a handle for, from the
moment the list pointer was taken. -/
def client : Pc E L → Option E.Id
  | attachLink _ i | attachWait _ i _ | attachRelock _ i | attachDefault _ i | handle i
  | writeLock _ i | writing _ i => some i
  | _ => none

/-- The node that the task is detaching. -/
def detaches : Pc E L → Option E.Id
  | detachUnlink _ i | detachReset _ i | detachStore _ i => some i
  | _ => none

/-- A call that starts. -/
inductive Starts : Pc E L → Prop
  | attach (l : L) (i : E.Id) : Starts (attachLock l i)
  | detach (l : L) (i : E.Id) : Starts (detachLock l i)
  | processReads (l : L) : Starts (readLock l)
  | processWrites (l : L) : Starts (storeLock l)
  /-- `process_garbage` and `reset_cache`, which leave the nodes alone. -/
  | onCache (l : L) : Starts (cacheLock l)

/-- Where a task is after the future that it polls has been dropped. -/
def abandoned : Pc E L → Option (Pc E L)
  | attachLock _ _ | attachWait _ _ _ | attachRelock _ _ | detachLock _ _ | readLock _
  | storeLock _ | cacheLock _ => some idle
  | writeLock _ i => some (handle i)
  | _ => none

end Pc

/-! ## The state -/

structure Tasks (E : Env) (L τ : Type) where
  mutex : L → Option τ
  links : L → List E.Id
  word : E.Id → ListPointer L
  cells : Cells E
  pc : τ → Pc E L

namespace Tasks

/-- Nothing is attached and no call has been made. -/
def new : Tasks E L τ := ⟨fun _ => none, fun _ => [], fun _ => .null, fun _ => Cell.new, fun _ => .idle⟩

def state (s : Tasks E L τ) (i : E.Id) : State := (s.cells i).state

def goto (s : Tasks E L τ) (t : τ) (p : Pc E L) : Tasks E L τ :=
  { s with pc := Function.update s.pc t p }

omit [DecidableEq L] in
@[simp] theorem goto_pc (s : Tasks E L τ) (t : τ) (p : Pc E L) : (s.goto t p).pc t = p :=
  Function.update_self ..

omit [DecidableEq L] in
theorem goto_pc_of_ne (s : Tasks E L τ) (p : Pc E L) {t t' : τ} (h : t' ≠ t) :
    (s.goto t p).pc t' = s.pc t' := Function.update_of_ne h ..

def lock (s : Tasks E L τ) (l : L) (t : τ) : Tasks E L τ :=
  { s with mutex := Function.update s.mutex l (some t) }

def unlock (s : Tasks E L τ) (l : L) : Tasks E L τ :=
  { s with mutex := Function.update s.mutex l none }

def setLinks (s : Tasks E L τ) (l : L) (list : List E.Id) : Tasks E L τ :=
  { s with links := Function.update s.links l list }

def setWord (s : Tasks E L τ) (i : E.Id) (w : ListPointer L) : Tasks E L τ :=
  { s with word := Function.update s.word i w }

def setCell (s : Tasks E L τ) (i : E.Id) (c : Cell (E.T i)) : Tasks E L τ :=
  { s with cells := Function.update s.cells i c }

/-! ## `attach_with_default` -/

def attachTake (s : Tasks E L τ) (t : τ) (l : L) (i : E.Id) : Tasks E L τ :=
  match (s.word i).check l with
  | .error e => (s.unlock l).goto t (.failed e)
  | .ok true => ((s.setWord i (.taken l)).unlock l).goto t (.attachWait l i true)
  | .ok false => (s.setWord i (.taken l)).goto t (.attachLink l i)

/-- The node is linked, unless its key is in use: then it is given back. -/
def attachLink (s : Tasks E L τ) (t : τ) (l : L) (i : E.Id) : Tasks E L τ :=
  if (findNode (s.links l) (E.key i)).isSome then
    ((s.setWord i .null).unlock l).goto t (.failed .duplicateKey)
  else ((s.setLinks l (i :: s.links l)).unlock l).goto t (.attachWait l i false)

/-- `wait_for_value` does not complete while the state is `Initial`. -/
def attachWait (s : Tasks E L τ) (t : τ) (l : L) (i : E.Id) (alreadyAttached : Bool) : Tasks E L τ :=
  match s.state i with
  | .initial => s
  | .nonResident => s.goto t (.attachRelock l i)
  | .needsWrite => s.goto t (if alreadyAttached then .handle i else .panicked .attach)
  | .validNoWriteNeeded => s.goto t (.handle i)

def attachDefault (s : Tasks E L τ) (t : τ) (l : L) (i : E.Id) (v : E.T i) : Tasks E L τ :=
  ((s.setCell i ⟨.needsWrite, some v⟩).unlock l).goto t (.handle i)

/-! ## Handles -/

def load (s : Tasks E L τ) (t : τ) (i : E.Id) : Tasks E L τ :=
  if (s.state i).hasValue then
    if (s.cells i).t.isSome then s else s.goto t (.panicked .uninitialised)
  else s.goto t (.panicked .load)

/-- `write` finds the mutex through the list pointer. -/
def write (s : Tasks E L τ) (t : τ) (i : E.Id) : Tasks E L τ :=
  match (s.word i).handleList with
  | some l => s.goto t (.writeLock l i)
  | none => s.goto t (.panicked .list)

/-- The value is swapped, and the list looked up again to wake its writer. -/
def writing (s : Tasks E L τ) (t : τ) (l : L) (i : E.Id) (v : E.T i) : Tasks E L τ :=
  if (s.state i).hasValue then
    if (s.cells i).t.isSome then
      match (s.word i).handleList with
      | some _ => ((s.setCell i ⟨.needsWrite, some v⟩).unlock l).goto t (.handle i)
      | none => s.goto t (.panicked .list)
    else s.goto t (.panicked .uninitialised)
  else (s.unlock l).goto t (.failed (.invalidState (E.key i) (s.state i)))

def dropHandle (s : Tasks E L τ) (t : τ) (i : E.Id) : Tasks E L τ :=
  match (s.word i).dropHandle with
  | some w => (s.setWord i w).goto t .idle
  | none => s.goto t (.panicked .drop)

/-! ## `detach` -/

def detachCas (s : Tasks E L τ) (t : τ) (l : L) (i : E.Id) : Tasks E L τ :=
  match (s.word i).check l with
  | .error e => (s.unlock l).goto t (.failed e)
  | .ok false => (s.unlock l).goto t .idle
  | .ok true => (s.setWord i .detaching).goto t (.detachUnlink l i)

def detachUnlink (s : Tasks E L τ) (t : τ) (l : L) (i : E.Id) : Tasks E L τ :=
  if i ∈ s.links l then (s.setLinks l ((s.links l).erase i)).goto t (.detachReset l i)
  else s.goto t (.panicked .detach)

/-- The value, if there is one, is dropped. -/
def detachReset (s : Tasks E L τ) (t : τ) (l : L) (i : E.Id) : Tasks E L τ :=
  if (s.state i).hasValue && (s.cells i).t.isNone then s.goto t (.panicked .uninitialised)
  else (s.setCell i Cell.new).goto t (.detachStore l i)

def detachStore (s : Tasks E L τ) (t : τ) (l : L) (i : E.Id) : Tasks E L τ :=
  ((s.setWord i .null).unlock l).goto t .idle

/-! ## The calls of a list -/

/-- A data element that was read is offered to the node with its key. -/
def readData (s : Tasks E L τ) (t : τ) (l : L) (d : SerData) : Tasks E L τ :=
  match d.kvPair E.cbor with
  | .error _ => s
  | .ok kv =>
    match findNode (s.links l) kv.key with
    | none => s
    | some i => if s.state i = .initial then s.goto t (.deserializing l i kv.body) else s

/-- `deserialize`, which asserts the state where the body decodes. -/
def deserializing (s : Tasks E L τ) (t : τ) (l : L) (i : E.Id) (body : List UInt8) : Tasks E L τ :=
  if ((E.vtable i).decode body).isSome && s.state i ≠ .initial then s.goto t (.panicked .deserialize)
  else (s.setCell i (deserialize (E.vtable i) body (s.cells i))).goto t (.reading l)

/-- The end of a call that changed what it has to. -/
def finish (s : Tasks E L τ) (t : τ) (l : L) (cells : Cells E) : Tasks E L τ :=
  ({ s with cells }.unlock l).goto t .idle

/-- A node is written to flash. -/
def serialize (s : Tasks E L τ) (t : τ) (i : E.Id) : Tasks E L τ :=
  if (s.state i).hasValue && (s.cells i).t.isNone then s.goto t (.panicked .uninitialised) else s

/-! ### What leaves the cells alone -/

section Cells
variable (s : Tasks E L τ) (t : τ) (l : L) (i : E.Id)

@[simp] theorem attachTake_cells : (s.attachTake t l i).cells = s.cells := by
  simp only [attachTake]
  split <;> rfl

@[simp] theorem attachLink_cells : (s.attachLink t l i).cells = s.cells := by
  simp only [attachLink]
  split <;> rfl

@[simp] theorem detachCas_cells : (s.detachCas t l i).cells = s.cells := by
  simp only [detachCas]
  split <;> rfl

@[simp] theorem detachUnlink_cells : (s.detachUnlink t l i).cells = s.cells := by
  simp only [detachUnlink]
  split <;> rfl

omit [DecidableEq L]

@[simp] theorem attachWait_cells (already : Bool) : (s.attachWait t l i already).cells = s.cells := by
  simp only [attachWait]
  split <;> rfl

@[simp] theorem load_cells : (s.load t i).cells = s.cells := by
  simp only [load]
  split
  · split <;> rfl
  · rfl

@[simp] theorem write_cells : (s.write t i).cells = s.cells := by
  simp only [write]
  split <;> rfl

@[simp] theorem dropHandle_cells : (s.dropHandle t i).cells = s.cells := by
  simp only [dropHandle]
  split <;> rfl

@[simp] theorem readData_cells (d : SerData) : (s.readData t l d).cells = s.cells := by
  simp only [readData]
  split
  · rfl
  · split
    · rfl
    · split <;> rfl

@[simp] theorem serialize_cells : (s.serialize t i).cells = s.cells := by
  simp only [serialize]
  split <;> rfl

end Cells

end Tasks

/-! ## Turns -/

/-- Whose turn it is, and whether the call that the task waits in is dropped. -/
inductive Turn (τ : Type) where
  | run (t : τ)
  | abandon (t : τ)

/-- What a turn can do. -/
inductive Step : Tasks E L τ → Turn τ → Tasks E L τ → Prop
  | start {s : Tasks E L τ} {t : τ} {p : Pc E L} (h : s.pc t = .idle ∨ ∃ e, s.pc t = .failed e)
      (hp : p.Starts) : Step s (.run t) (s.goto t p)
  | lock {s : Tasks E L τ} {t : τ} {l : L} {p : Pc E L} (h : (s.pc t).locked = some (l, p))
      (hm : s.mutex l = none) : Step s (.run t) ((s.lock l t).goto t p)
  | abandon {s : Tasks E L τ} {t : τ} {p : Pc E L} (h : (s.pc t).abandoned = some p) :
      Step s (.abandon t) (s.goto t p)
  | attachTake {s : Tasks E L τ} {t : τ} {l : L} {i : E.Id} (h : s.pc t = .attachTake l i) :
      Step s (.run t) (s.attachTake t l i)
  | attachLink {s : Tasks E L τ} {t : τ} {l : L} {i : E.Id} (h : s.pc t = .attachLink l i) :
      Step s (.run t) (s.attachLink t l i)
  | attachWait {s : Tasks E L τ} {t : τ} {l : L} {i : E.Id} {already : Bool}
      (h : s.pc t = .attachWait l i already) : Step s (.run t) (s.attachWait t l i already)
  | attachDefault {s : Tasks E L τ} {t : τ} {l : L} {i : E.Id} (h : s.pc t = .attachDefault l i)
      (v : E.T i) : Step s (.run t) (s.attachDefault t l i v)
  | load {s : Tasks E L τ} {t : τ} {i : E.Id} (h : s.pc t = .handle i) :
      Step s (.run t) (s.load t i)
  | write {s : Tasks E L τ} {t : τ} {i : E.Id} (h : s.pc t = .handle i) :
      Step s (.run t) (s.write t i)
  | writing {s : Tasks E L τ} {t : τ} {l : L} {i : E.Id} (h : s.pc t = .writing l i) (v : E.T i) :
      Step s (.run t) (s.writing t l i v)
  | dropHandle {s : Tasks E L τ} {t : τ} {i : E.Id} (h : s.pc t = .handle i) :
      Step s (.run t) (s.dropHandle t i)
  | detachCas {s : Tasks E L τ} {t : τ} {l : L} {i : E.Id} (h : s.pc t = .detachCas l i) :
      Step s (.run t) (s.detachCas t l i)
  | detachUnlink {s : Tasks E L τ} {t : τ} {l : L} {i : E.Id} (h : s.pc t = .detachUnlink l i) :
      Step s (.run t) (s.detachUnlink t l i)
  | detachReset {s : Tasks E L τ} {t : τ} {l : L} {i : E.Id} (h : s.pc t = .detachReset l i) :
      Step s (.run t) (s.detachReset t l i)
  | detachStore {s : Tasks E L τ} {t : τ} {l : L} {i : E.Id} (h : s.pc t = .detachStore l i) :
      Step s (.run t) (s.detachStore t l i)
  | readData {s : Tasks E L τ} {t : τ} {l : L} (h : s.pc t = .reading l) (d : SerData) :
      Step s (.run t) (s.readData t l d)
  | deserializing {s : Tasks E L τ} {t : τ} {l : L} {i : E.Id} {body : List UInt8}
      (h : s.pc t = .deserializing l i body) : Step s (.run t) (s.deserializing t l i body)
  | serialize {s : Tasks E L τ} {t : τ} {l : L} (h : s.pc t = .storing l) {i : E.Id}
      (hi : i ∈ s.links l) : Step s (.run t) (s.serialize t i)
  /-- `process_reads` returns `Ok`. -/
  | readDone {s : Tasks E L τ} {t : τ} {l : L} (h : s.pc t = .reading l) :
      Step s (.run t) (s.finish t l (markInitialNonresident (s.links l) s.cells))
  /-- `process_writes` has verified its record. -/
  | storeDone {s : Tasks E L τ} {t : τ} {l : L} (h : s.pc t = .storing l) :
      Step s (.run t) (s.finish t l (markWritten (s.links l) s.cells))
  /-- A call has nothing to do, returns an error or is dropped at a storage operation. -/
  | ended {s : Tasks E L τ} {t : τ} {l : L}
      (h : s.pc t = .reading l ∨ s.pc t = .storing l ∨ s.pc t = .caching l) :
      Step s (.run t) (s.finish t l s.cells)

/-- The runs of the tasks. -/
def tasks (E : Env) (L τ : Type) [DecidableEq L] [DecidableEq τ] : System (Tasks E L τ) (Turn τ) where
  init s := s = .new
  step := Step

/-- An attach is dropped while it waits for the node to be hydrated, or for the
mutex to write the default. -/
def Late (s : Tasks E L τ) : Turn τ → Prop
  | .run _ => False
  | .abandon t => ∃ l i, s.pc t = .attachRelock l i ∨ ∃ already, s.pc t = .attachWait l i already

/-- The runs in which no attach is dropped late. -/
def completing (E : Env) (L τ : Type) [DecidableEq L] [DecidableEq τ] :
    System (Tasks E L τ) (Turn τ) :=
  (tasks E L τ).restrict fun s u _ => ¬ Late s u

/-! ## The calls of a list as turns -/

/-- Turns of one task. -/
def Turns (t : τ) : Tasks E L τ → Tasks E L τ → Prop :=
  Relation.ReflTransGen fun s s' => Step s (.run t) s'

section Calls
variable {s : Tasks E L τ} {t : τ} {l : L} {w : World E}

/-- One data element, which is looked at and then deserialized. -/
theorem turns_hydrateFrom (ht : s.pc t = .reading l) (d : SerData) :
    Turns t s { s with cells := hydrateFrom d (s.links l) s.cells } := by
  have hread : Step s (.run t) (s.readData t l d) := .readData ht d
  simp only [Tasks.readData] at hread
  simp only [hydrateFrom]
  cases hkv : d.kvPair E.cbor with
  | error e => exact .refl
  | ok kv =>
    simp only [hkv] at hread
    dsimp only [hydrate]
    cases hf : findNode (s.links l) kv.key with
    | none => exact .refl
    | some i =>
      simp only [hf] at hread
      dsimp only
      by_cases hs : (s.cells i).state = .initial
      · have hst : s.state i = .initial := hs
        rw [if_pos hst] at hread
        rw [if_pos hs]
        have hd : Step (s.goto t (.deserializing l i kv.body)) (.run t) _ :=
          .deserializing (Function.update_self ..)
        simp only [Tasks.deserializing] at hd
        rw [if_neg (by simp [Tasks.state, Tasks.goto, hs])] at hd
        refine (Relation.ReflTransGen.single hread).tail ?_
        -- the task is back where it was
        have hpc : Function.update (Function.update s.pc t (.deserializing l i kv.body)) t (.reading l) =
            s.pc := by
          rw [Function.update_idem, ← ht, Function.update_eq_self]
        simpa [Tasks.goto, Tasks.setCell, hpc] using hd
      · rw [if_neg hs]
        exact .refl

theorem turns_hydrateAll (ds : List SerData) : ∀ {s : Tasks E L τ}, s.pc t = .reading l →
    Turns t s { s with cells := hydrateAll (s.links l) ds s.cells } := by
  induction ds with
  | nil => exact fun _ => .refl
  | cons d ds ih => exact fun ht => (turns_hydrateFrom ht d).trans (ih ht)

/-- What `process_reads` does to the nodes of its list, its task can do in turns. -/
theorem turns_processReads (ht : s.pc t = .reading l) (hl : w.list = s.links l)
    (hc : w.cells = s.cells) : (endState (processReads w)).list = s.links l ∧
      Turns t s (s.finish t l (endState (processReads w)).cells) := by
  have hoffers : ∀ {w'}, Offers w w' → Turns t s { s with cells := w'.cells } := fun h => by
    obtain ⟨ds, hds⟩ := h.cells
    rw [hds, hl, hc]
    exact turns_hydrateAll ds ht
  refine endState_of_ends (P := fun w' => w'.list = s.links l ∧ Turns t s (s.finish t l w'.cells))
    ((processReads_nodes w).mono ?_ ?_)
  · intro _ _ hx
    obtain ⟨w₁, h, rfl⟩ := hx
    have hlist := h.list.trans hl
    refine ⟨hlist, (hoffers h).tail ?_⟩
    show Step _ _ (s.finish t l (markInitialNonresident w₁.list w₁.cells))
    rw [hlist]
    exact .readDone (s := { s with cells := w₁.cells }) ht
  · intro _ w' h
    exact ⟨h.list.trans hl, (hoffers h).tail (.ended (s := { s with cells := w'.cells }) (Or.inl ht))⟩

theorem turns_processWrites (ht : s.pc t = .storing l) (hl : w.list = s.links l)
    (hc : w.cells = s.cells) (bufLen : Nat) : (endState (processWrites bufLen w)).list = s.links l ∧
      Turns t s (s.finish t l (endState (processWrites bufLen w)).cells) := by
  have hended : Turns t s (s.finish t l w.cells) := by
    rw [hc]
    exact .single (.ended (Or.inr (Or.inl ht)))
  refine endState_of_ends (P := fun w' => w'.list = s.links l ∧ Turns t s (s.finish t l w'.cells))
    ((processWrites_nodes bufLen w).mono ?_ ?_)
  · intro _ w' hx
    obtain ⟨hlist, hcells | hcells⟩ := hx
    · exact ⟨hlist.trans hl, hcells ▸ hended⟩
    · refine ⟨hlist.trans hl, ?_⟩
      rw [hcells, hl, hc]
      exact .single (.storeDone ht)
  · exact fun _ w' h => ⟨h.1.trans hl, h.2 ▸ hended⟩

/-- A section of `process_garbage`, and `reset_cache`. -/
theorem turns_onCache {α : Type} {x : M E α} (hx : Moves SameNodes x) (ht : s.pc t = .caching l)
    (hl : w.list = s.links l) (hc : w.cells = s.cells) :
    (endState (x w)).list = s.links l ∧ Turns t s (s.finish t l (endState (x w)).cells) := by
  obtain ⟨hlist, hcells⟩ := endState_of_ends (hx w)
  refine ⟨hlist.trans hl, ?_⟩
  rw [hcells, hc]
  exact .single (.ended (Or.inr (Or.inr ht)))

end Calls

end CfgNoodle

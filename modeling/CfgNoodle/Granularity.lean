import CfgNoodle.Lib.Simulation
import CfgNoodle.Locations
import CfgNoodle.Store
import CfgNoodle.Tasks

/-! # Sections are turns

What happens in one section of a list is what one task does in several turns while it
holds the mutex: every node has a task that attaches it and owns its handle, and one
more task detaches the nodes and makes the calls of the list. -/
namespace CfgNoodle
open Outcome Runs
variable {E : Env}

/-! ## The tasks of a list -/

def TakenForList.pointer : TakenForList → ListPointer Nat
  | null => .null
  | attached l => .attached l
  | taken l => .taken l

/-- Where the task of a node is between two sections. -/
def Client.pc (list : Nat) (i : E.Id) : Client → Pc E Nat
  | none => .idle
  | attaching alreadyAttached => .attachWait list i alreadyAttached
  | defaulting => .attachRelock list i
  | handle => .handle i
  | panicked => .panicked .attach

namespace ListState

/-- The tasks of the nodes, and the one that has none. -/
def pcs (addr : Nat) (client : E.Id → Client) : Option E.Id → Pc E Nat
  | none => .idle
  | some i => (client i).pc addr i

/-- The state that they are in between two sections. -/
def tasks (s : ListState E) : Tasks E Nat (Option E.Id) where
  mutex _ := none
  links := Function.update (fun _ => []) s.addr s.world.list
  word i := (s.taken i).pointer
  cells := s.world.cells
  pc := pcs s.addr s.client

end ListState

/-! ## Turns of one task -/

section Turns
variable {T : Tasks E Nat (Option E.Id)} {t : Option E.Id} {l : Nat} {p q : Pc E Nat}

/-- A task with the mutex of a list. -/
def Tasks.entered (T : Tasks E Nat (Option E.Id)) (t : Option E.Id) (l : Nat) (q : Pc E Nat) :
    Tasks E Nat (Option E.Id) := (T.lock l t).goto t q

theorem turns_lock (h : (T.pc t).locked = some (l, q)) (hm : T.mutex l = none) :
    Turns t T (T.entered t l q) := .single (.lock h hm)

/-- A call takes the mutex, which is free. -/
theorem turns_enter (hi : T.pc t = .idle) (hp : p.Starts) (hl : p.locked = some (l, q))
    (hm : T.mutex l = none) : Turns t T (T.entered t l q) := by
  have hstart : Step T (.run t) (T.goto t p) := .start (Or.inl hi) hp
  have hlock : Step (T.goto t p) (.run t) (((T.goto t p).lock l t).goto t q) := .lock (by simpa using hl) hm
  have hgoto : ((T.goto t p).lock l t).goto t q = T.entered t l q := by
    unfold Tasks.entered Tasks.goto Tasks.lock
    rw [Function.update_idem]
  rw [hgoto] at hlock
  exact (Relation.ReflTransGen.single hstart).tail hlock

/-- The mutex is given back. -/
theorem entered_unlock (hm : T.mutex l = none) :
    ((T.entered t l q).unlock l).goto t p = T.goto t p := by
  unfold Tasks.entered Tasks.goto Tasks.lock Tasks.unlock
  dsimp only
  rw [Function.update_idem, Function.update_idem, ← hm, Function.update_eq_self]

/-- A turn that keeps the mutex. -/
theorem turns_within {T' : Tasks E Nat (Option E.Id)}
    (h : Step (T.entered t l p) (.run t) ((T'.entered t l p).goto t q)) :
    Turns t (T.entered t l p) (T'.entered t l q) := by
  have hgoto : (T'.entered t l p).goto t q = T'.entered t l q := by
    unfold Tasks.entered Tasks.goto
    dsimp only
    rw [Function.update_idem]
  rw [hgoto] at h
  exact .single h

/-- A turn that gives the mutex back. -/
theorem turns_leave {T' : Tasks E Nat (Option E.Id)} (hm : T'.mutex l = none)
    (h : Step (T.entered t l p) (.run t) (((T'.entered t l p).unlock l).goto t q)) :
    Turns t (T.entered t l p) (T'.goto t q) := by
  rw [entered_unlock hm] at h
  exact .single h

end Turns

/-! ## States -/

namespace ListState
variable (s : ListState E) (i : E.Id)

theorem tasks_setTaken (w : TakenForList) : (s.setTaken i w).tasks = s.tasks.setWord i w.pointer := by
  have hword : (fun j => (Function.update s.taken i w j).pointer) =
      Function.update (fun j => (s.taken j).pointer) i w.pointer :=
    Function.comp_update TakenForList.pointer s.taken i w
  exact congrArg (fun word => { s.tasks with word }) hword

theorem tasks_setClient (c : Client) : (s.setClient i c).tasks = s.tasks.goto (some i) (c.pc s.addr i) := by
  have hpc : pcs (E := E) s.addr (Function.update s.client i c) =
      Function.update (pcs s.addr s.client) (some i) (c.pc s.addr i) := by
    funext t
    cases t with
    | none => rfl
    | some j =>
      by_cases hji : j = i
      · subst hji
        rw [Function.update_self]
        unfold pcs
        dsimp only
        rw [Function.update_self]
      · rw [Function.update_of_ne fun h => hji (Option.some.inj h)]
        unfold pcs
        dsimp only
        rw [Function.update_of_ne hji]
  exact congrArg (fun pc => { s.tasks with pc }) hpc

theorem tasks_setCell (c : Cell (E.T i)) : (s.setCell i c).tasks = s.tasks.setCell i c := rfl

theorem tasks_setList (list : List E.Id) : (s.setList list).tasks = s.tasks.setLinks s.addr list := by
  unfold Tasks.setLinks tasks
  dsimp only
  rw [Function.update_idem]
  rfl

theorem tasks_links : s.tasks.links s.addr = s.world.list := by
  show Function.update (fun _ => []) s.addr s.world.list s.addr = s.world.list
  exact Function.update_self ..

end ListState

theorem check_of_take {w : TakenForList} {list : Nat} {already : Bool}
    (h : w.take list = .ok already) : w.pointer.check list = .ok already := by
  rcases TakenForList.take_eq_ok.mp h with ⟨rfl, rfl⟩ | ⟨rfl, rfl⟩
  · rfl
  · exact if_pos rfl

theorem check_of_release {w : TakenForList} {list : Nat} {remove : Bool}
    (h : w.release list = .ok remove) : w.pointer.check list = .ok remove := by
  rcases TakenForList.release_eq_ok.mp h with ⟨rfl, rfl⟩ | ⟨rfl, rfl⟩
  · rfl
  · exact if_pos rfl

/-! ## The sections of a node -/

section Nodes
variable {s : ListState E} (h : Linked s) (i : E.Id)
include h

/-- A node that can be taken has no client. -/
theorem Linked.idle_of_take {already : Bool} (ht : (s.taken i).take s.addr = .ok already) :
    s.client i = .none := by
  by_contra hc
  rw [h.client i hc] at ht
  rcases TakenForList.take_eq_ok.mp ht with ⟨hnull, _⟩ | ⟨hatt, _⟩
  · cases hnull
  · cases hatt

theorem turns_attach : Turns (some i) s.tasks (s.attach i).1.tasks := by
  unfold ListState.attach
  cases ht : (s.taken i).take s.addr with
  | error e => exact .refl
  | ok already =>
    have hidle : s.tasks.pc (some i) = .idle := by
      show (s.client i).pc s.addr i = .idle
      rw [h.idle_of_take i ht]
      rfl
    have henter : Turns (some i) s.tasks (s.tasks.entered (some i) s.addr (.attachTake s.addr i)) :=
      turns_enter hidle (.attach s.addr i) rfl rfl
    have htake := Step.attachTake (s := s.tasks.entered (some i) s.addr (.attachTake s.addr i))
      (Tasks.goto_pc ..)
    have hword : (s.tasks.entered (some i) s.addr (.attachTake s.addr i)).word i = (s.taken i).pointer :=
      rfl
    unfold Tasks.attachTake at htake
    rw [hword, check_of_take ht] at htake
    let T := s.tasks.setWord i (.taken s.addr)
    cases already with
    | true =>
      have hwait : Turns (some i) _ (T.goto (some i) (.attachWait s.addr i true)) := turns_leave rfl htake
      dsimp only
      rw [ListState.tasks_setClient, ListState.tasks_setTaken]
      exact henter.trans hwait
    | false =>
      have htaken : Turns (some i) _ (T.entered (some i) s.addr (.attachLink s.addr i)) :=
        turns_within htake
      have hlink := Step.attachLink (s := T.entered (some i) s.addr (.attachLink s.addr i))
        (Tasks.goto_pc ..)
      have hlinks : (T.entered (some i) s.addr (.attachLink s.addr i)).links s.addr = s.world.list :=
        s.tasks_links
      unfold Tasks.attachLink at hlink
      rw [hlinks] at hlink
      dsimp only
      split
      · -- the key is in use, and the list pointer is null again
        have hnull : s.taken i = .null := by
          rcases TakenForList.take_eq_ok.mp ht with ⟨hnull, _⟩ | ⟨_, hfalse⟩
          · exact hnull
          · cases hfalse
        have hsame : s.setTaken i .null = s := by
          unfold ListState.setTaken
          rw [← hnull, Function.update_eq_self]
        rw [hsame]
        exact .refl
      · next hnew =>
        rw [if_neg hnew] at hlink
        let T' := T.setLinks s.addr (i :: s.world.list)
        have hwait : Turns (some i) _ (T'.goto (some i) (.attachWait s.addr i false)) :=
          turns_leave rfl hlink
        rw [ListState.tasks_setClient, ListState.tasks_setTaken, ListState.tasks_setList]
        exact (henter.trans htaken).trans hwait

omit h in
theorem turns_observe : Turns (some i) s.tasks (s.observe i).tasks := by
  unfold ListState.observe
  split
  · next already hc =>
    have hpc : s.tasks.pc (some i) = .attachWait s.addr i already := by
      show (s.client i).pc s.addr i = _
      rw [hc]
      rfl
    have hwait := Step.attachWait hpc
    have hstate : s.tasks.state i = s.world.state i := rfl
    unfold Tasks.attachWait at hwait
    rw [hstate] at hwait
    split
    · exact .refl
    · next hs =>
      rw [hs] at hwait
      rw [ListState.tasks_setClient]
      exact .single hwait
    · next hs =>
      rw [hs] at hwait
      rw [ListState.tasks_setClient]
      cases already with
      | true => exact .single hwait
      | false => exact .single hwait
    · next hs =>
      rw [hs] at hwait
      rw [ListState.tasks_setClient]
      exact .single hwait
  · exact .refl

omit h in
theorem turns_writeDefault (t : E.T i) : Turns (some i) s.tasks (s.writeDefault i t).tasks := by
  unfold ListState.writeDefault
  split
  · next hc =>
    have hpc : (s.tasks.pc (some i)).locked = some (s.addr, .attachDefault s.addr i) := by
      show ((s.client i).pc s.addr i).locked = _
      rw [hc]
      rfl
    have henter : Turns (some i) s.tasks (s.tasks.entered (some i) s.addr (.attachDefault s.addr i)) :=
      turns_lock hpc rfl
    have hdefault := Step.attachDefault
      (s := s.tasks.entered (some i) s.addr (.attachDefault s.addr i)) (Tasks.goto_pc ..) t
    let T := s.tasks.setCell i ⟨.needsWrite, some t⟩
    have hhandle : Turns (some i) _ (T.goto (some i) (.handle i)) := turns_leave rfl hdefault
    rw [ListState.tasks_setClient, ListState.tasks_setCell]
    exact henter.trans hhandle
  · exact .refl

/-- The node of a handle is taken. -/
theorem Linked.taken_of_handle (hc : s.client i = .handle) : s.taken i = .taken s.addr := by
  refine h.client i fun hnone => ?_
  rw [hc] at hnone
  cases hnone

/-- A handle finds the list of its node. -/
theorem Linked.handleList (hc : s.client i = .handle) :
    (s.taken i).pointer.handleList = some s.addr := by
  rw [h.taken_of_handle i hc]
  rfl

theorem turns_handleWrite (t : E.T i) : Turns (some i) s.tasks (s.handleWrite i t).1.tasks := by
  unfold ListState.handleWrite
  split
  · next hc =>
    split
    · next hv =>
      have hpc : s.tasks.pc (some i) = .handle i := by
        show (s.client i).pc s.addr i = _
        rw [hc]
        rfl
      have hlist := h.handleList i hc
      have hword : s.tasks.word i = (s.taken i).pointer := rfl
      have hwrite := Step.write hpc
      unfold Tasks.write at hwrite
      rw [hword, hlist] at hwrite
      -- the handle waits for the mutex that it has found
      let T := s.tasks.goto (some i) (.writeLock s.addr i)
      have hlocked : (T.pc (some i)).locked = some (s.addr, .writing s.addr i) := by
        show ((s.tasks.goto (some i) (.writeLock s.addr i)).pc (some i)).locked = _
        rw [Tasks.goto_pc]
        rfl
      have henter : Turns (some i) s.tasks (T.entered (some i) s.addr (.writing s.addr i)) :=
        (Relation.ReflTransGen.single hwrite).trans (turns_lock hlocked rfl)
      have hwriting := Step.writing (s := T.entered (some i) s.addr (.writing s.addr i))
        (Tasks.goto_pc ..) t
      have hstate : (T.entered (some i) s.addr (.writing s.addr i)).state i = s.world.state i := rfl
      have hcell : (T.entered (some i) s.addr (.writing s.addr i)).cells i = s.world.cells i := rfl
      have hsome : (s.world.cells i).t.isSome = true := (h.wf i).trans hv
      have hword' : (T.entered (some i) s.addr (.writing s.addr i)).word i = (s.taken i).pointer := rfl
      unfold Tasks.writing at hwriting
      rw [hstate, if_pos hv, hcell, if_pos hsome, hword', hlist] at hwriting
      let T' := T.setCell i ⟨.needsWrite, some t⟩
      have hhandle : Turns (some i) _ (T'.goto (some i) (.handle i)) := turns_leave rfl hwriting
      have hback : T'.goto (some i) (.handle i) = (s.setCell i ⟨.needsWrite, some t⟩).tasks := by
        have hpcs : Function.update (Function.update s.tasks.pc (some i) (.writeLock s.addr i)) (some i)
            (.handle i) = s.tasks.pc := by
          rw [Function.update_idem, ← hpc, Function.update_eq_self]
        exact congrArg (fun pc => { s.tasks.setCell i ⟨.needsWrite, some t⟩ with pc }) hpcs
      rw [← hback]
      exact henter.trans hhandle
    · exact .refl
  · exact .refl

theorem turns_dropHandle : Turns (some i) s.tasks (s.dropHandle i).tasks := by
  unfold ListState.dropHandle
  split
  · next hc =>
    have hpc : s.tasks.pc (some i) = .handle i := by
      show (s.client i).pc s.addr i = _
      rw [hc]
      rfl
    have hdrop := Step.dropHandle hpc
    have hword : s.tasks.word i = (s.taken i).pointer := rfl
    have htaken := h.taken_of_handle i hc
    unfold Tasks.dropHandle at hdrop
    rw [hword, htaken] at hdrop
    rw [ListState.tasks_setClient, ListState.tasks_setTaken, htaken]
    exact .single hdrop
  · exact .refl

theorem turns_detach : Turns none s.tasks (s.detach i).1.tasks := by
  unfold ListState.detach
  cases hr : (s.taken i).release s.addr with
  | error e => exact .refl
  | ok remove =>
    cases remove with
    | false => exact .refl
    | true =>
      have henter : Turns none s.tasks (s.tasks.entered none s.addr (.detachCas s.addr i)) :=
        turns_enter rfl (.detach s.addr i) rfl rfl
      have hcas := Step.detachCas (s := s.tasks.entered none s.addr (.detachCas s.addr i))
        (Tasks.goto_pc ..)
      have hword : (s.tasks.entered none s.addr (.detachCas s.addr i)).word i = (s.taken i).pointer := rfl
      unfold Tasks.detachCas at hcas
      rw [hword, check_of_release hr] at hcas
      let T := s.tasks.setWord i .detaching
      have htaken : Turns none _ (T.entered none s.addr (.detachUnlink s.addr i)) := turns_within hcas
      -- the node is in the list, and its cell is initialised where it has a value
      have hunlink := Step.detachUnlink (s := T.entered none s.addr (.detachUnlink s.addr i))
        (Tasks.goto_pc ..)
      have hlinks : (T.entered none s.addr (.detachUnlink s.addr i)).links s.addr = s.world.list :=
        s.tasks_links
      have hmem : i ∈ s.world.list := by
        refine h.mem i fun hnull => ?_
        rw [hnull] at hr
        cases hr
      unfold Tasks.detachUnlink at hunlink
      rw [hlinks, if_pos hmem] at hunlink
      let T' := T.setLinks s.addr (s.world.list.erase i)
      have hunlinked : Turns none _ (T'.entered none s.addr (.detachReset s.addr i)) :=
        turns_within hunlink
      have hreset := Step.detachReset (s := T'.entered none s.addr (.detachReset s.addr i))
        (Tasks.goto_pc ..)
      have hcell : (T'.entered none s.addr (.detachReset s.addr i)).cells i = s.world.cells i := rfl
      have hstate : (T'.entered none s.addr (.detachReset s.addr i)).state i = s.world.state i := rfl
      have hwf : ((s.world.state i).hasValue && (s.world.cells i).t.isNone) = false := by
        rw [← Option.not_isSome, h.wf i]
        exact Bool.and_not_self _
      unfold Tasks.detachReset at hreset
      rw [hstate, hcell, hwf, if_neg Bool.false_ne_true] at hreset
      let T'' := T'.setCell i Cell.new
      have hnew : Turns none _ (T''.entered none s.addr (.detachStore s.addr i)) := turns_within hreset
      have hstore := Step.detachStore (s := T''.entered none s.addr (.detachStore s.addr i))
        (Tasks.goto_pc ..)
      unfold Tasks.detachStore at hstore
      have hidle : Turns none _ ((T''.setWord i .null).goto none .idle) := turns_leave rfl hstore
      have hback : (T''.setWord i .null).goto none .idle =
          (((s.setList (s.world.list.erase i)).setCell i Cell.new).setTaken i .null).tasks := by
        rw [ListState.tasks_setTaken, ListState.tasks_setCell, ListState.tasks_setList]
        have hword : Function.update (Function.update s.tasks.word i .detaching) i .null =
            Function.update s.tasks.word i .null := Function.update_idem ..
        have hpc : Function.update s.tasks.pc none .idle = s.tasks.pc := Function.update_eq_self none _
        show ({ (s.tasks.setLinks s.addr (s.world.list.erase i)).setCell i Cell.new with
          word := Function.update (Function.update s.tasks.word i .detaching) i .null,
          pc := Function.update s.tasks.pc none .idle } : Tasks E Nat (Option E.Id)) = _
        rw [hword, hpc]
        rfl
      rw [← hback]
      exact (((henter.trans htaken).trans hunlinked).trans hnew).trans hidle

end Nodes

/-! ## The calls of the list -/

section Calls
variable {s : ListState E} {α : Type} {w : World E}

/-- A section of a call that its task can do in turns. -/
theorem turns_section {p q : Pc E Nat} {gc : α → Gc E} {r : EStateM.Result (Stop E.Err) (World E) α}
    (hp : p.Starts) (hq : p.locked = some (s.addr, q))
    (h : (endState r).list = s.world.list ∧ Turns none (s.tasks.entered none s.addr q)
      ((s.tasks.entered none s.addr q).finish none s.addr (endState r).cells)) :
    Turns none s.tasks (s.ended gc r).tasks := by
  obtain ⟨hlist, hturns⟩ := h
  obtain ⟨g, b, heq⟩ := ended_eq s gc r
  have henter : Turns none s.tasks (s.tasks.entered none s.addr q) := turns_enter rfl hp hq rfl
  let T : Tasks E Nat (Option E.Id) := { s.tasks with cells := (endState r).cells }
  have hfinish : (s.tasks.entered none s.addr q).finish none s.addr (endState r).cells =
      T.goto none .idle := entered_unlock (T := T) rfl
  have hpc : Function.update s.tasks.pc none .idle = s.tasks.pc := Function.update_eq_self none _
  have hback : T.goto none .idle = (s.ended gc r).tasks := by
    rw [heq]
    show ({ T with pc := Function.update s.tasks.pc none .idle } : Tasks E Nat (Option E.Id)) =
      { T with links := Function.update (fun _ => []) s.addr (endState r).list }
    rw [hpc, hlist]
    rfl
  rw [← hback, ← hfinish]
  exact henter.trans hturns

theorem entered_links (q : Pc E Nat) : (s.tasks.entered none s.addr q).links s.addr = s.world.list :=
  s.tasks_links

theorem turns_reads (fs : Faults E.Err) : Turns none s.tasks (s.processReads fs).tasks := by
  unfold ListState.processReads
  split
  · obtain ⟨hlist, hturns⟩ := turns_processReads (s := s.tasks.entered none s.addr (.reading s.addr))
      (t := none) (l := s.addr) (w := s.world.withFaults fs) (Tasks.goto_pc ..) s.tasks_links.symm rfl
    exact turns_section (.processReads s.addr) rfl ⟨hlist.trans (entered_links _), hturns⟩
  · exact .refl

theorem turns_writes (bufLen : Nat) (fs : Faults E.Err) :
    Turns none s.tasks (s.processWrites bufLen fs).tasks := by
  unfold ListState.processWrites
  split
  · obtain ⟨hlist, hturns⟩ := turns_processWrites (s := s.tasks.entered none s.addr (.storing s.addr))
      (t := none) (l := s.addr) (w := s.world.withFaults fs) (Tasks.goto_pc ..) s.tasks_links.symm rfl
      bufLen
    exact turns_section (.processWrites s.addr) rfl ⟨hlist.trans (entered_links _), hturns⟩
  · exact .refl

/-- A section that works on the cache only. -/
theorem turns_cache {x : M E α} (hx : Moves SameNodes x) {w : World E} (hl : w.list = s.world.list)
    (hc : w.cells = s.world.cells) (gc : α → Gc E) : Turns none s.tasks (s.ended gc (x w)).tasks := by
  obtain ⟨hlist, hturns⟩ := turns_onCache (s := s.tasks.entered none s.addr (.caching s.addr)) hx
    (t := none) (l := s.addr) (w := w) (Tasks.goto_pc ..) (hl.trans (entered_links _).symm) hc
  exact turns_section (.onCache s.addr) rfl ⟨hlist.trans (entered_links _), hturns⟩

end Calls

/-! ## Runs -/

/-- The task whose turns a section is: that of its node, or the one without a node. -/
def Section.task : Section E → Option E.Id
  | .attach i | .observe i | .writeDefault i _ | .handleWrite i _ | .dropHandle i => some i
  | _ => none

theorem turns_of_section {s : ListState E} (h : Linked s) {c : Section E} (hc : c ≠ .powerLoss) :
    Turns c.task s.tasks (s.next c).tasks := by
  cases c with
  | attach i => exact turns_attach h i
  | observe i => exact turns_observe i
  | writeDefault i t => exact turns_writeDefault i t
  | handleWrite i t => exact turns_handleWrite h i t
  | dropHandle i => exact turns_dropHandle h i
  | detach i => exact turns_detach h i
  | processReads fs => exact turns_reads fs
  | processWrites bufLen fs => exact turns_writes bufLen fs
  | gcTake =>
    show Turns none s.tasks s.gcTake.tasks
    unfold ListState.gcTake
    split
    · exact turns_cache gcTake_nodes rfl rfl _
    · exact .refl
  | gcCollect fs =>
    show Turns none s.tasks (s.gcCollect fs).tasks
    unfold ListState.gcCollect
    split
    · exact turns_cache (gcCollect_nodes _) (w := s.world.withFaults fs) rfl rfl _
    · exact .refl
  | gcFinish fs =>
    show Turns none s.tasks (s.gcFinish fs).tasks
    unfold ListState.gcFinish
    split
    · exact turns_cache gcFinish_nodes (w := s.world.withFaults fs) rfl rfl _
    · exact .refl
  | resetCache => exact .refl
  | powerLoss => exact absurd rfl hc

theorem tasks_boot (addr : Nat) (items : List Item) :
    (ListState.boot (E := E) addr items).tasks = Tasks.new := by
  have hlinks : Function.update (fun _ => []) addr [] = fun _ : Nat => ([] : List E.Id) :=
    Function.update_eq_self addr _
  have hpc : ListState.pcs (E := E) addr (fun _ => .none) = fun _ => .idle := by
    funext t
    cases t <;> rfl
  show ({ Tasks.new with
    links := Function.update (fun _ => []) addr [],
    pc := ListState.pcs addr fun _ => .none } : Tasks E Nat (Option E.Id)) = _
  rw [hlinks, hpc]
  rfl

/-- Turns of one task, none of which drops a call. -/
theorem Turns.steps {T T' : Tasks E Nat (Option E.Id)} {t : Option E.Id} (h : Turns t T T') :
    (completing E Nat (Option E.Id)).Steps T T' := by
  induction h with
  | refl => exact .refl
  | tail _ hstep ih => exact ih.tail ⟨.run t, hstep, not_false⟩

theorem sections_unfold (E : Env) : Unfolds (sections E fun s => ∃ items, BootedOn items s)
    (completing E Nat (Option E.Id)) ListState.tasks := by
  refine ⟨fun s hs => ?_, fun s c s' hr hs => ?_⟩
  · obtain ⟨items, addr, rfl⟩ := hs
    exact tasks_boot addr items
  · obtain rfl := hs
    unfold ListState.step
    cases hh : s.halted with
    | true =>
      cases c with
      | powerLoss => exact Or.inr (tasks_boot s.addr s.world.items)
      | _ => exact Or.inl .refl
    | false =>
      by_cases hc : c = .powerLoss
      · subst hc
        exact Or.inr (tasks_boot s.addr s.world.items)
      · exact Or.inl (turns_of_section (linked_reachable hr) hc).steps

/-! ## Sections are visits -/

/-- What the storage and the cache see of a list. -/
def ListState.service (s : ListState E) : Service E := ⟨s.world, s.gc⟩

/-- What they see of a section. Whatever the nodes do, and a halted list, is one visit. -/
def ListState.visit (s : ListState E) (c : Section E) (s' : ListState E) : Visit E :=
  match s.halted, c with
  | _, .powerLoss => .powerLoss
  | false, .processReads fs => .processReads fs
  | false, .processWrites bufLen fs => .processWrites bufLen fs
  | false, .gcTake => .gcTake
  | false, .gcCollect fs => .gcCollect fs
  | false, .gcFinish fs => .gcFinish fs
  | false, .resetCache => .resetCache
  | _, _ => .nodes s'.world.list s'.world.cells

theorem ended_service {α : Type} (s : ListState E) (gc : α → Gc E)
    (r : EStateM.Result (Stop E.Err) (World E) α) : (s.ended gc r).service = Service.ended gc r := by
  rcases r with ⟨a, w⟩ | ⟨e, w⟩
  · rfl
  · cases e <;> rfl

theorem ended_idle {α : Type} (r : EStateM.Result (Stop E.Err) (World E) α) :
    Service.ended (fun _ => .idle) r = ⟨endState r, .idle⟩ := by
  cases r <;> rfl

/-- Only the list and the cells have changed, if anything. -/
def Inside (s s' : ListState E) : Prop :=
  s'.service = s.service.next (.nodes s'.world.list s'.world.cells)

theorem inside_nodes (s : ListState E) {c : Section E} (hc : ByNodes c) : Inside s (s.next c) := by
  cases c with
  | attach i =>
    show Inside s (s.attach i).1
    unfold ListState.attach
    split
    · rfl
    · rfl
    · split
      · rfl
      · rfl
  | observe i =>
    show Inside s (s.observe i)
    unfold ListState.observe
    split
    · split
      · rfl
      · rfl
      · rfl
      · rfl
    · rfl
  | writeDefault i t =>
    show Inside s (s.writeDefault i t)
    unfold ListState.writeDefault
    split
    · rfl
    · rfl
  | handleWrite i t =>
    show Inside s (s.handleWrite i t).1
    unfold ListState.handleWrite
    split
    · split
      · rfl
      · rfl
    · rfl
  | dropHandle i =>
    show Inside s (s.dropHandle i)
    unfold ListState.dropHandle
    split
    · rfl
    · rfl
  | detach i =>
    show Inside s (s.detach i).1
    unfold ListState.detach
    split
    · rfl
    · rfl
    · rfl
  | processReads | processWrites | gcTake | gcCollect | gcFinish | resetCache | powerLoss =>
    exact hc.elim

theorem visit_step (s : ListState E) (c : Section E) :
    (s.step c).service = s.service.next (s.visit c (s.step c)) := by
  unfold ListState.visit
  cases hh : s.halted with
  | true =>
    unfold ListState.step
    rw [hh]
    cases c with
    | _ => rfl
  | false =>
    rw [step_of_running hh]
    cases c with
    | attach i => exact inside_nodes s (c := .attach i) trivial
    | observe i => exact inside_nodes s (c := .observe i) trivial
    | writeDefault i t => exact inside_nodes s (c := .writeDefault i t) trivial
    | handleWrite i t => exact inside_nodes s (c := .handleWrite i t) trivial
    | dropHandle i => exact inside_nodes s (c := .dropHandle i) trivial
    | detach i => exact inside_nodes s (c := .detach i) trivial
    | resetCache | powerLoss => rfl
    | processReads fs =>
      show (s.processReads fs).service = s.service.next (.processReads fs)
      obtain ⟨addr, w, taken, client, gc, halted⟩ := s
      cases gc with
      | idle => exact (ended_service _ _ _).trans (ended_idle _)
      | collecting | finishing => rfl
    | processWrites bufLen fs =>
      show (s.processWrites bufLen fs).service = s.service.next (.processWrites bufLen fs)
      obtain ⟨addr, w, taken, client, gc, halted⟩ := s
      cases gc with
      | idle => exact (ended_service _ _ _).trans (ended_idle _)
      | collecting | finishing => rfl
    | gcTake =>
      show s.gcTake.service = s.service.next .gcTake
      obtain ⟨addr, w, taken, client, gc, halted⟩ := s
      cases gc with
      | idle => exact ended_service _ _ _
      | collecting | finishing => rfl
    | gcCollect fs =>
      show (s.gcCollect fs).service = s.service.next (.gcCollect fs)
      obtain ⟨addr, w, taken, client, gc, halted⟩ := s
      cases gc with
      | collecting cur => exact ended_service _ _ _
      | idle | finishing => rfl
    | gcFinish fs =>
      show (s.gcFinish fs).service = s.service.next (.gcFinish fs)
      obtain ⟨addr, w, taken, client, gc, halted⟩ := s
      cases gc with
      | finishing => exact ended_service _ _ _
      | idle | collecting => rfl

theorem sections_refine_service (E : Env) : Refines (sections E fun s => ∃ items, BootedOn items s)
    (service E) ListState.service ListState.visit := by
  refine ⟨fun s hs => ?_, fun s c s' _ hs => ?_⟩
  · obtain ⟨items, addr, rfl⟩ := hs
    exact ⟨items, rfl⟩
  · obtain rfl := hs
    exact visit_step s c

/-! ## The three granularities -/

/-- **The models agree**: between two sections a list is in a state that its tasks
reach in turns, and every section is done in turns of one task, which takes the mutex
and gives it back; to the storage and the cache, every section is one visit. So what
holds in all states that tasks reach, in any order of their turns, and what holds
between all visits holds in the runs of sections. -/
theorem sections_are_turns {s : ListState E}
    (hs : (sections E fun s => ∃ items, BootedOn items s).Reachable s) :
    (completing E Nat (Option E.Id)).Reachable s.tasks ∧ (service E).Reachable s.service ∧
      ∀ c, (s.halted = false → c ≠ .powerLoss → Turns c.task s.tasks (s.step c).tasks) ∧
        (service E).step s.service (s.visit c (s.step c)) (s.step c).service := by
  refine ⟨(sections_unfold E).reachable hs, (sections_refine_service E).reachable hs, fun c => ?_⟩
  refine ⟨fun hh hc => ?_, visit_step s c⟩
  unfold ListState.step
  rw [hh]
  exact turns_of_section (linked_reachable hs) hc

/-- The handle of a node that was flushed is written again. -/
theorem flushed_turns : (completing twoSettings Nat (Option twoSettings.Id)).Reachable flushed.tasks ∧
    Turns (some settingA) flushed.tasks (flushed.step (.handleWrite settingA (9 : UInt8))).tasks := by
  have hreach : (sections twoSettings fun s => ∃ items, BootedOn items s).Reachable flushed :=
    System.reachable_foldl (fun _ _ _ => rfl) (.init ⟨[], 2, rfl⟩)
  obtain ⟨htasks, _, hnext⟩ := sections_are_turns hreach
  exact ⟨htasks, (hnext (.handleWrite settingA (9 : UInt8))).1 (by decide +kernel) nofun⟩

end CfgNoodle

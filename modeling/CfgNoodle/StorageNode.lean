import CfgNoodle.CrashAtomic

/-! # Nodes, handles and the sections of the mutex

`attach_with_default`, `detach` and the handle's operations, cut into the parts
that run while the mutex of the list is held, and the calls of the list cut in
the same way: `process_reads` and `process_writes` hold it throughout, and
`process_garbage` holds it at its beginning and at its end. -/
namespace CfgNoodle
open Runs
variable {E : Env}

/-! ## The state -/

/-- The `taken_for_list` word: the address of a list, with the lowest bit set
while there is a handle. -/
inductive TakenForList where
  | null
  | attached (list : Nat)
  | taken (list : Nat)
  deriving DecidableEq

/-- The `fetch_update` of `attach`: was the node attached before? -/
def TakenForList.take (list : Nat) : TakenForList → Except Error Bool
  | null => .ok false
  | attached l => if l = list then .ok true else .error .nodeInOtherList
  | taken l => if l = list then .error .alreadyTaken else .error .nodeInOtherList

/-- The `compare_exchange` of `detach`: is the node to be removed? -/
def TakenForList.release (list : Nat) : TakenForList → Except Error Bool
  | null => .ok false
  | attached l => if l = list then .ok true else .error .nodeInOtherList
  | taken l => if l = list then .error .alreadyTaken else .error .nodeInOtherList

def TakenForList.dropHandle : TakenForList → TakenForList
  | taken l => attached l
  | w => w

/-- How far the `attach` of a node has come, or that there is a handle. -/
inductive Client where
  | none
  /-- It waits for the node's state to change. -/
  | attaching (alreadyAttached : Bool)
  /-- It waits for the mutex, to write the default. -/
  | defaulting
  | handle
  | panicked
  deriving DecidableEq

/-- How far the collection that is under way has come. -/
inductive Gc (E : Env) where
  | idle
  | collecting (cur : SeqState E.kept)
  | finishing
  deriving DecidableEq

/-- A list at this address, its nodes and the calls under way. A power loss
halts it in the midst of a call. -/
structure ListState (E : Env) where
  addr : Nat
  world : World E
  taken : E.Id → TakenForList
  client : E.Id → Client
  gc : Gc E
  halted : Bool

namespace ListState

/-- A new list on a storage, and nodes that are not attached. -/
def boot (addr : Nat) (items : List Item) : ListState E :=
  ⟨addr, World.boot items, fun _ => .null, fun _ => .none, .idle, false⟩

def setTaken (s : ListState E) (i : E.Id) (w : TakenForList) : ListState E :=
  { s with taken := Function.update s.taken i w }

def setClient (s : ListState E) (i : E.Id) (c : Client) : ListState E :=
  { s with client := Function.update s.client i c }

def setCell (s : ListState E) (i : E.Id) (c : Cell (E.T i)) : ListState E :=
  { s with world := s.world.withCells (Function.update s.world.cells i c) }

def setList (s : ListState E) (list : List E.Id) : ListState E :=
  { s with world := { s.world with list } }

/-! ## Nodes and handles -/

/-- The first section of `attach`. -/
def attach (s : ListState E) (i : E.Id) : ListState E × Option Error :=
  match (s.taken i).take s.addr with
  | .error e => (s, some e)
  | .ok true => ((s.setTaken i (.taken s.addr)).setClient i (.attaching true), none)
  | .ok false =>
    if (findNode s.world.list (E.key i)).isSome then (s.setTaken i .null, some .duplicateKey)
    else (((s.setList (i :: s.world.list)).setTaken i (.taken s.addr)).setClient i
      (.attaching false), none)

/-- `attach` looks at the node's state, without the mutex. -/
def observe (s : ListState E) (i : E.Id) : ListState E :=
  match s.client i with
  | .attaching alreadyAttached =>
    match s.world.state i with
    | .initial => s
    | .nonResident => s.setClient i .defaulting
    | .needsWrite => s.setClient i (if alreadyAttached then .handle else .panicked)
    | .validNoWriteNeeded => s.setClient i .handle
  | _ => s

/-- The second section of `attach`: the default is written. -/
def writeDefault (s : ListState E) (i : E.Id) (t : E.T i) : ListState E :=
  match s.client i with
  | .defaulting => (s.setCell i ⟨.needsWrite, some t⟩).setClient i .handle
  | _ => s

/-- `StorageListNodeHandle::write`. -/
def handleWrite (s : ListState E) (i : E.Id) (t : E.T i) : ListState E × Option Error :=
  match s.client i with
  | .handle =>
    if (s.world.state i).hasValue then (s.setCell i ⟨.needsWrite, some t⟩, none)
    else (s, some (.invalidState (E.key i) (s.world.state i)))
  | _ => (s, none)

def dropHandle (s : ListState E) (i : E.Id) : ListState E :=
  match s.client i with
  | .handle => (s.setTaken i (s.taken i).dropHandle).setClient i .none
  | _ => s

def detach (s : ListState E) (i : E.Id) : ListState E × Option Error :=
  match (s.taken i).release s.addr with
  | .error e => (s, some e)
  | .ok false => (s, none)
  | .ok true =>
    (((s.setList (s.world.list.erase i)).setCell i Cell.new).setTaken i .null, none)

/-! ## Sections -/

/-- Where a section of a call of the list ended. -/
def ended {α : Type} (s : ListState E) (gc : α → Gc E) :
    EStateM.Result (Stop E.Err) (World E) α → ListState E
  | .ok a w => { s with world := w, gc := gc a }
  | .error .cut w => { s with world := w, gc := .idle, halted := true }
  | .error _ w => { s with world := w, gc := .idle }

/-- The storage is lent to one call at a time. -/
def processReads (s : ListState E) (fs : Faults E.Err) : ListState E :=
  match s.gc with
  | .idle => s.ended (fun _ => .idle) (CfgNoodle.processReads (s.world.withFaults fs))
  | _ => s

def processWrites (s : ListState E) (bufLen : Nat) (fs : Faults E.Err) : ListState E :=
  match s.gc with
  | .idle => s.ended (fun _ => .idle) (CfgNoodle.processWrites bufLen (s.world.withFaults fs))
  | _ => s

/-- The first section of `process_garbage`. -/
def gcTake (s : ListState E) : ListState E :=
  match s.gc with
  | .idle => s.ended (fun cur => cur.elim .idle .collecting) (CfgNoodle.gcTake s.world)
  | _ => s

/-- Its collection, which runs without the mutex. -/
def gcCollect (s : ListState E) (fs : Faults E.Err) : ListState E :=
  match s.gc with
  | .collecting cur =>
    s.ended (fun _ => .finishing) (CfgNoodle.gcCollect cur (s.world.withFaults fs))
  | _ => s

/-- Its last section. -/
def gcFinish (s : ListState E) (fs : Faults E.Err) : ListState E :=
  match s.gc with
  | .finishing => s.ended (fun _ => .idle) (CfgNoodle.gcFinish (s.world.withFaults fs))
  | _ => s

end ListState

/-- What can happen next. A section of one of the list's calls comes with the
script of its storage operations. -/
inductive Section (E : Env) where
  | attach (i : E.Id)
  | observe (i : E.Id)
  | writeDefault (i : E.Id) (t : E.T i)
  | handleWrite (i : E.Id) (t : E.T i)
  | dropHandle (i : E.Id)
  | detach (i : E.Id)
  | processReads (fs : Faults E.Err)
  | processWrites (bufLen : Nat) (fs : Faults E.Err)
  | gcTake
  | gcCollect (fs : Faults E.Err)
  | gcFinish (fs : Faults E.Err)
  | resetCache
  | powerLoss

/-- The users of the list: what they do does not depend on the storage. -/
def ByNodes : Section E → Prop
  | .attach _ | .observe _ | .writeDefault _ _ | .handleWrite _ _ | .dropHandle _ | .detach _ => True
  | _ => False

namespace ListState

/-- A section of a list that runs. -/
def next (s : ListState E) : Section E → ListState E
  | .attach i => (s.attach i).1
  | .observe i => s.observe i
  | .writeDefault i t => s.writeDefault i t
  | .handleWrite i t => (s.handleWrite i t).1
  | .dropHandle i => s.dropHandle i
  | .detach i => (s.detach i).1
  | .processReads fs => s.processReads fs
  | .processWrites bufLen fs => s.processWrites bufLen fs
  | .gcTake => s.gcTake
  | .gcCollect fs => s.gcCollect fs
  | .gcFinish fs => s.gcFinish fs
  | .resetCache => { s with world := s.world.withSeq .new }
  | .powerLoss => boot s.addr s.world.items

/-- A halted list does nothing but lose its power. -/
def step (s : ListState E) (c : Section E) : ListState E :=
  match s.halted, c with
  | true, .powerLoss => s.next .powerLoss
  | true, _ => s
  | false, c => s.next c

end ListState

/-- The runs of sections that start in these states. -/
def sections (E : Env) (init : ListState E → Prop) : System (ListState E) (Section E) where
  init := init
  step s c s' := s' = s.step c

/-! ## What the operations on nodes change -/

theorem TakenForList.take_eq_ok {list : Nat} {w : TakenForList} {already : Bool} :
    w.take list = .ok already ↔ w = .null ∧ already = false ∨ w = .attached list ∧ already = true := by
  cases w with
  | null => simp [take, eq_comm]
  | attached l =>
    simp only [take]
    by_cases hl : l = list
    · simp [hl, eq_comm]
    · simp [hl]
  | taken l =>
    simp only [take]
    by_cases hl : l = list
    · simp [hl]
    · simp [hl]

theorem TakenForList.release_eq_ok {list : Nat} {w : TakenForList} {remove : Bool} :
    w.release list = .ok remove ↔ w = .null ∧ remove = false ∨ w = .attached list ∧ remove = true := by
  cases w with
  | null => simp [release, eq_comm]
  | attached l =>
    simp only [release]
    by_cases hl : l = list
    · simp [hl, eq_comm]
    · simp [hl]
  | taken l =>
    simp only [release]
    by_cases hl : l = list
    · simp [hl]
    · simp [hl]

@[simp] theorem setTaken_world (s : ListState E) (i : E.Id) (w : TakenForList) :
    (s.setTaken i w).world = s.world := rfl

@[simp] theorem setClient_world (s : ListState E) (i : E.Id) (c : Client) :
    (s.setClient i c).world = s.world := rfl

/-- The nodes of a list: their keys differ, a node that is not attached is new,
one that is attached in some way is in the list, and a data cell is initialised
exactly in the states with a value. -/
structure Linked (s : ListState E) : Prop where
  keys : (s.world.list.map E.key).Nodup
  out : ∀ i, i ∉ s.world.list → s.world.cells i = Cell.new
  client : ∀ i, s.client i ≠ .none → s.taken i = .taken s.addr
  mem : ∀ i, s.taken i ≠ .null → i ∈ s.world.list
  wf : ∀ i, (s.world.cells i).Wf

theorem linked_boot (addr : Nat) (items : List Item) : Linked (ListState.boot (E := E) addr items) :=
  ⟨List.nodup_nil, fun _ _ => rfl, fun _ h => absurd rfl h, fun _ h => absurd rfl h,
    fun _ => Cell.wf_new⟩

theorem Linked.setClient {s : ListState E} (h : Linked s) {i : E.Id} (hi : s.client i ≠ .none)
    (c : Client) : Linked (s.setClient i c) := by
  refine ⟨h.keys, h.out, fun j hj => ?_, h.mem, h.wf⟩
  by_cases hji : j = i
  · subst hji
    exact h.client j hi
  · have hj' : Function.update s.client i c j ≠ .none := hj
    rw [Function.update_of_ne hji] at hj'
    exact h.client j hj'

theorem Linked.setCell {s : ListState E} (h : Linked s) {i : E.Id} (hi : i ∈ s.world.list)
    {c : Cell (E.T i)} (hc : c.Wf) : Linked (s.setCell i c) := by
  refine ⟨h.keys, fun j hj => ?_, h.client, h.mem, fun j => ?_⟩
  · have hji : j ≠ i := by
      intro heq
      subst heq
      exact hj hi
    show Function.update s.world.cells i c j = Cell.new
    rw [Function.update_of_ne hji]
    exact h.out j hj
  · show (Function.update s.world.cells i c j).Wf
    by_cases hji : j = i
    · subst hji
      rwa [Function.update_self]
    · rw [Function.update_of_ne hji]
      exact h.wf j

/-- A node of the list is taken. -/
theorem Linked.take {s : ListState E} (h : Linked s) {i : E.Id} (hi : i ∈ s.world.list)
    (c : Client) : Linked ((s.setTaken i (.taken s.addr)).setClient i c) := by
  refine ⟨h.keys, h.out, fun j hj => ?_, fun j hj => ?_, h.wf⟩
  · show Function.update s.taken i (.taken s.addr) j = .taken s.addr
    by_cases hji : j = i
    · subst hji
      exact Function.update_self ..
    · rw [Function.update_of_ne hji]
      have hj' : Function.update s.client i c j ≠ .none := hj
      rw [Function.update_of_ne hji] at hj'
      exact h.client j hj'
  · by_cases hji : j = i
    · exact hji ▸ hi
    · have hj' : Function.update s.taken i (.taken s.addr) j ≠ .null := hj
      rw [Function.update_of_ne hji] at hj'
      exact h.mem j hj'

/-- A node with a new key is linked. -/
theorem Linked.push {s : ListState E} (h : Linked s) {i : E.Id}
    (hk : findNode s.world.list (E.key i) = none) : Linked (s.setList (i :: s.world.list)) := by
  refine ⟨?_, fun j hj => h.out j fun hm => hj (List.mem_cons_of_mem i hm), h.client,
    fun j hj => List.mem_cons_of_mem i (h.mem j hj), h.wf⟩
  show ((i :: s.world.list).map E.key).Nodup
  rw [List.map_cons, List.nodup_cons]
  refine ⟨fun hm => ?_, h.keys⟩
  have hsome := findNode_isSome.mpr hm
  rw [hk] at hsome
  cases hsome

theorem Linked.attach {s : ListState E} (h : Linked s) (i : E.Id) : Linked (s.attach i).1 := by
  simp only [ListState.attach]
  cases ht : (s.taken i).take s.addr with
  | error e => exact h
  | ok already =>
    rcases TakenForList.take_eq_ok.mp ht with ⟨hw, rfl⟩ | ⟨hw, rfl⟩
    · dsimp only
      split
      · -- nothing has changed: the word was null before
        have heq : s.setTaken i .null = s := by
          simp only [ListState.setTaken]
          rw [← hw, Function.update_eq_self]
        rw [heq]
        exact h
      · next hk =>
        exact (h.push (Option.not_isSome_iff_eq_none.mp hk)).take List.mem_cons_self _
    · exact h.take (h.mem i (by rw [hw]; nofun)) _

theorem Linked.observe {s : ListState E} (h : Linked s) (i : E.Id) : Linked (s.observe i) := by
  simp only [ListState.observe]
  split
  · next hc =>
    have hi : s.client i ≠ .none := by rw [hc]; nofun
    split
    · exact h
    · exact h.setClient hi _
    · exact h.setClient hi _
    · exact h.setClient hi _
  · exact h

theorem Linked.mem_of_client {s : ListState E} (h : Linked s) {i : E.Id} (hc : s.client i ≠ .none) :
    i ∈ s.world.list := h.mem i (by rw [h.client i hc]; nofun)

theorem Linked.writeDefault {s : ListState E} (h : Linked s) (i : E.Id) (t : E.T i) :
    Linked (s.writeDefault i t) := by
  simp only [ListState.writeDefault]
  split
  · next hc =>
    have hi : s.client i ≠ .none := by rw [hc]; nofun
    exact (h.setCell (h.mem_of_client hi) (Cell.wf_needsWrite t)).setClient hi _
  · exact h

theorem Linked.handleWrite {s : ListState E} (h : Linked s) (i : E.Id) (t : E.T i) :
    Linked (s.handleWrite i t).1 := by
  simp only [ListState.handleWrite]
  split
  · next hc =>
    have hi : s.client i ≠ .none := by rw [hc]; nofun
    split
    · exact h.setCell (h.mem_of_client hi) (Cell.wf_needsWrite t)
    · exact h
  · exact h

theorem Linked.dropHandle {s : ListState E} (h : Linked s) (i : E.Id) : Linked (s.dropHandle i) := by
  simp only [ListState.dropHandle]
  split
  · next hc =>
    have hi : s.client i ≠ .none := by rw [hc]; nofun
    refine ⟨h.keys, h.out, fun j hj => ?_, fun j hj => ?_, h.wf⟩
    · have hj' : Function.update s.client i .none j ≠ .none := hj
      show Function.update s.taken i _ j = .taken s.addr
      by_cases hji : j = i
      · subst hji
        rw [Function.update_self] at hj'
        exact absurd rfl hj'
      · rw [Function.update_of_ne hji] at hj' ⊢
        exact h.client j hj'
    · have hj' : Function.update s.taken i (s.taken i).dropHandle j ≠ .null := hj
      by_cases hji : j = i
      · subst hji
        exact h.mem_of_client hi
      · rw [Function.update_of_ne hji] at hj'
        exact h.mem j hj'
  · exact h

theorem Linked.detach {s : ListState E} (h : Linked s) (i : E.Id) : Linked (s.detach i).1 := by
  simp only [ListState.detach]
  cases ht : (s.taken i).release s.addr with
  | error e => exact h
  | ok remove =>
    rcases TakenForList.release_eq_ok.mp ht with ⟨_, rfl⟩ | ⟨hw, rfl⟩
    · exact h
    · have hfree : s.client i = .none := by
        by_contra hc
        rw [h.client i hc] at hw
        cases hw
      have hnd : s.world.list.Nodup := List.Nodup.of_map _ h.keys
      refine ⟨h.keys.sublist (List.erase_sublist.map E.key), fun j hj => ?_, fun j hj => ?_,
        fun j hj => ?_, fun j => ?_⟩
      · show Function.update s.world.cells i Cell.new j = Cell.new
        by_cases hji : j = i
        · subst hji
          exact Function.update_self ..
        · rw [Function.update_of_ne hji]
          exact h.out j fun hm => hj ((List.mem_erase_of_ne hji).mpr hm)
      · show Function.update s.taken i .null j = .taken s.addr
        have hji : j ≠ i := by
          intro heq
          subst heq
          exact hj hfree
        rw [Function.update_of_ne hji]
        exact h.client j hj
      · have hj' : Function.update s.taken i .null j ≠ .null := hj
        have hji : j ≠ i := by
          intro heq
          subst heq
          rw [Function.update_self] at hj'
          exact hj' rfl
        rw [Function.update_of_ne hji] at hj'
        exact (List.mem_erase_of_ne hji).mpr (h.mem j hj')
      · show (Function.update s.world.cells i Cell.new j).Wf
        by_cases hji : j = i
        · subst hji
          rw [Function.update_self]
          exact Cell.wf_new
        · rw [Function.update_of_ne hji]
          exact h.wf j

end CfgNoodle

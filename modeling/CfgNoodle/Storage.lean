import CfgNoodle.SeqState
import CfgNoodle.Lib.Outcome

/-! # The storage and the state of a list

The storage is a queue of items, of which some do not decode. Every operation
on it asks a script whether it succeeds, fails or is the one at which the
caller is stopped for good, by a power loss or because its future is dropped;
an exhausted script lets everything succeed. A stopped call keeps the state it
was stopped in, so the states a call passes through at its storage operations
are the states it can be stopped in. -/
namespace CfgNoodle

/-- What the crate is generic over: the nodes with their types, keys and codecs,
`minicbor`'s strings, the checksum, the storage's errors and element sizes,
`KEPT_RECORDS` and the sorting routine. -/
structure Env where
  Id : Type
  decId : DecidableEq Id
  T : Id → Type
  key : Id → String
  vtable : (i : Id) → VTable (T i)
  cbor : Minicbor
  crc : List UInt8 → UInt32
  Err : Type
  size : Elem → Nat
  kept : Nat
  kept_pos : 0 < kept
  sorter : SlotSorter

attribute [instance] Env.decId

instance (E : Env) : LawfulBEq E.Id := inferInstance

/-- A stored item. The tag `call` says which call of `process_writes` pushed
it; no operation reads it. -/
structure Item where
  data : Option Elem
  len : Nat
  call : Nat
  deriving DecidableEq

/-! ## Scripts -/

inductive ReadAnswer (ε : Type) where
  | ok
  | err (e : ε)
  | cut

/-- What a push that does not return `Ok` leaves in the storage. -/
inductive Left where
  | nothing
  | torn (len : Nat)
  | whole

inductive PushAnswer (ε : Type) where
  | ok
  | err (e : ε) (left : Left)
  | cut (left : Left)

inductive InvalidateAnswer (ε : Type) where
  | ok
  | err (e : ε) (done : Bool)
  | cut (done : Bool)

structure Faults (ε : Type) where
  reads : List (ReadAnswer ε) := []
  pushes : List (PushAnswer ε) := []
  invalidates : List (InvalidateAnswer ε) := []

/-- Nothing fails. -/
def Faults.none {ε : Type} : Faults ε := {}

/-! ## The state -/

abbrev Cells (E : Env) := (i : E.Id) → Cell (E.T i)

structure World (E : Env) where
  cells : Cells E
  list : List E.Id
  seqState : SeqState E.kept
  items : List Item
  faults : Faults E.Err
  call : Nat

/-- Why a call did not return `Ok`: it returned an error, it was stopped, or it
read an uninitialised data cell. -/
inductive Stop (ε : Type) where
  | error (e : LoadStoreError ε)
  | cut
  | ub

abbrev M (E : Env) (α : Type) := EStateM (Stop E.Err) (World E) α

variable {E : Env}

namespace World

def state (w : World E) (i : E.Id) : State := (w.cells i).state

@[simps] def withReads (w : World E) (reads : List (ReadAnswer E.Err)) : World E :=
  { w with faults := { w.faults with reads } }

@[simps] def withSeq (w : World E) (seqState : SeqState E.kept) : World E := { w with seqState }

@[simps] def withCells (w : World E) (cells : Cells E) : World E := { w with cells }

@[simps] def withFaults (w : World E) (faults : Faults E.Err) : World E := { w with faults }

@[simps] def withItems (w : World E) (items : List Item) : World E := { w with items }

@[simps] def withCall (w : World E) (call : Nat) : World E := { w with call }

/-- A program that has just started: no node is attached and nothing is cached. -/
def boot (items : List Item) : World E :=
  ⟨fun _ => Cell.new, [], SeqState.new, items, .none, 0⟩

end World

/-! ## Operations -/

def fail {α : Type} (e : LoadStoreError E.Err) : M E α := throw (.error e)

/-- The storage's answer to the next read, with the caller's `map_err`. -/
def nextOr (f : E.Err → LoadStoreError E.Err) : M E Unit := fun w =>
  match w.faults.reads with
  | [] => .ok () w
  | .ok :: rest => .ok () (w.withReads rest)
  | .err e :: rest => .error (.error (f e)) (w.withReads rest)
  | .cut :: rest => .error .cut (w.withReads rest)

/-- `iter_elems`: the items the iterator will go through. -/
def iterElems : M E (List Item) := do
  nextOr .flashRead
  return (← get).items

def Left.items (call : Nat) (elem : Elem) (len : Nat) : Left → List Item
  | nothing => []
  | torn n => [⟨none, n, call⟩]
  | whole => [⟨some elem, len, call⟩]

/-- `push` with `map_err(FlashWrite)`. -/
def push (elem : Elem) : M E Nat := fun w =>
  let leave (l : Left) (w : World E) : World E :=
    w.withItems (w.items ++ l.items w.call elem (E.size elem))
  match w.faults.pushes with
  | [] => .ok (E.size elem) (leave .whole w)
  | a :: rest =>
    let w := { w with faults := { w.faults with pushes := rest } }
    match a with
    | .ok => .ok (E.size elem) (leave .whole w)
    | .err e l => .error (.error (.flashWrite e)) (leave l w)
    | .cut l => .error .cut (leave l w)

/-- `invalidate` on the item at position `pos`, with `map_err(FlashWrite)`. -/
def invalidate (pos : Nat) : M E Unit := fun w =>
  let erase (done : Bool) (w : World E) : World E :=
    if done then w.withItems (w.items.eraseIdx pos) else w
  match w.faults.invalidates with
  | [] => .ok () (erase true w)
  | a :: rest =>
    let w := { w with faults := { w.faults with invalidates := rest } }
    match a with
    | .ok => .ok () (erase true w)
    | .err e done => .error (.error (.flashWrite e)) (erase done w)
    | .cut done => .error .cut (erase done w)

def modifySeqState (f : SeqState E.kept → SeqState E.kept) : M E Unit :=
  modify fun w => w.withSeq (f w.seqState)

def modifyCells (f : List E.Id → Cells E → Cells E) : M E Unit :=
  modify fun w => w.withCells (f w.list w.cells)

end CfgNoodle

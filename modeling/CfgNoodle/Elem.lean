import Mathlib.Algebra.Group.Nat.Defs
import Mathlib.Tactic.Common

/-! # Elements, nodes and errors

The data of the crate: the elements that a write record consists of, the typed
nodes of a list with their codecs, and the error types. What the crate takes
from `minicbor` is a parameter (`Minicbor`, `VTable`); a codec is given by the
chunks that it hands to the writer, because the slice writer fails at the first
chunk that does not fit. -/
namespace CfgNoodle

/-- `core::num::NonZeroU32`. -/
structure NonZeroU32 where
  get : Nat
  pos : 0 < get
  lt : get < 2 ^ 32
  deriving DecidableEq

namespace NonZeroU32

def MAX : Nat := 2 ^ 32 - 1

def new (n : Nat) : Option NonZeroU32 :=
  if h : 0 < n ∧ n < 2 ^ 32 then some ⟨n, h.1, h.2⟩ else none

def one : NonZeroU32 := ⟨1, by decide, by decide⟩

def checkedAdd (s : NonZeroU32) (n : Nat) : Option NonZeroU32 :=
  if h : s.get + n < 2 ^ 32 then some ⟨s.get + n, Nat.add_pos_left s.pos n, h⟩ else none

theorem eq_of_get {a b : NonZeroU32} (h : a.get = b.get) : a = b := by
  cases a; cases b; simp_all

theorem checkedAdd_eq_some {a b : NonZeroU32} {n : Nat} :
    a.checkedAdd n = some b ↔ b.get = a.get + n := by
  simp only [checkedAdd]
  constructor
  · intro h
    split at h
    · exact Option.some.inj h ▸ rfl
    · cases h
  · intro h
    have hb := b.lt
    rw [dif_pos (by omega)]
    exact congrArg some (eq_of_get h.symm)

theorem checkedAdd_eq_none {a : NonZeroU32} {n : Nat} :
    a.checkedAdd n = none ↔ 2 ^ 32 ≤ a.get + n := by
  simp only [checkedAdd]
  split
  · simp; omega
  · simp; omega

/-- Only the last number has no successor. -/
theorem checkedAdd_one_eq_none {a : NonZeroU32} : a.checkedAdd 1 = none ↔ a.get = MAX := by
  have hlt := a.lt
  rw [checkedAdd_eq_none]
  unfold MAX
  omega

end NonZeroU32

/-! ## `minicbor` -/

/-- `minicbor::encode::write::Cursor` over a slice of `cap` bytes. -/
structure Cursor where
  cap : Nat
  written : List UInt8
  deriving DecidableEq

namespace Cursor

def new (cap : Nat) : Cursor := ⟨cap, []⟩

def position (c : Cursor) : Nat := c.written.length

/-- `write_all`: the whole chunk, or `EndOfSlice` and nothing of it. -/
def writeAll (c : Cursor) (chunk : List UInt8) : Option Cursor :=
  if c.position + chunk.length ≤ c.cap then some { c with written := c.written ++ chunk } else none

/-- `minicbor::encode`: chunk by chunk, up to the first that does not fit. The
flag says whether all of them did. -/
def encode (c : Cursor) : List (List UInt8) → Cursor × Bool
  | [] => (c, true)
  | chunk :: chunks =>
    match c.writeAll chunk with
    | some c => c.encode chunks
    | none => (c, false)

end Cursor

/-- The text string codec of `minicbor`. `encodeStr` is the chunks written for
a string, `decodeStr` the string at the head of some bytes and the position
after it, `lenStr` is `len_with`. -/
structure Minicbor where
  encodeStr : String → List (List UInt8)
  decodeStr : List UInt8 → Option (String × Nat)
  lenStr : String → Nat

/-- What is written for a string is what the decoder reads back, in the length
that `len_with` says. -/
structure Minicbor.Canonical (m : Minicbor) (k : String) : Prop where
  decode_encode : ∀ body, m.decodeStr ((m.encodeStr k).flatten ++ body) =
    some (k, (m.encodeStr k).flatten.length)
  len_eq : m.lenStr k = (m.encodeStr k).flatten.length

/-- The type-erased codec of a node's type: its `Encode`, `Decode` and
`CborLen` implementations. -/
structure VTable (T : Type) where
  encode : T → List (List UInt8)
  decode : List UInt8 → Option T
  cborLen : T → Nat

/-! ## Elements -/

/-- `Crc32`: the digest over everything it was updated with. -/
structure Crc32 where
  data : List UInt8
  deriving DecidableEq

namespace Crc32

def new : Crc32 := ⟨[]⟩

def update (c : Crc32) (bytes : List UInt8) : Crc32 := ⟨c.data ++ bytes⟩

def finalize (crc : List UInt8 → UInt32) (c : Crc32) : UInt32 := crc c.data

end Crc32

/-- A serialized data element: header byte, key and value. It is never empty. -/
structure SerData where
  hdrKeyVal : List UInt8
  nonempty : hdrKeyVal ≠ []
  deriving DecidableEq

namespace SerData

/-- `ELEM_VERSION_V0 | ELEM_DISCRIMINANT_DATA`. -/
def V0_DATA : UInt8 := 0b0000_0000 ||| 0b0000_0001

/-- The header byte is overwritten with the data discriminant. -/
def new : List UInt8 → Option SerData
  | [] => none
  | _ :: rest => some ⟨V0_DATA :: rest, by simp⟩

def fromExisting (data : List UInt8) : Option SerData :=
  if h : data = [] then none else some ⟨data, h⟩

def hdr (d : SerData) : UInt8 := d.hdrKeyVal.head d.nonempty

def keyVal (d : SerData) : List UInt8 := d.hdrKeyVal.tail

end SerData

inductive Elem where
  | start (seqNo : NonZeroU32)
  | data (data : SerData)
  | end (seqNo : NonZeroU32) (calcCrc : UInt32)
  deriving DecidableEq

/-! ## States and errors -/

inductive State where
  | initial
  | nonResident
  | validNoWriteNeeded
  | needsWrite
  deriving DecidableEq

/-- The states in which a node has a value to be written. -/
def State.hasValue : State → Bool
  | initial | nonResident => false
  | validNoWriteNeeded | needsWrite => true

inductive Error where
  | deserialization
  | serialization
  | duplicateKey
  | needsFirstRead
  | needsGarbageCollect
  | invalidState (key : String) (state : State)
  | inconsistentFlash
  | alreadyTaken
  | nodeInOtherList
  deriving DecidableEq

inductive LoadStoreError (ε : Type) where
  | flashWrite (e : ε)
  | flashRead (e : ε)
  | invalidBufferSize
  | writeVerificationFailed
  | appError (e : Error)
  deriving DecidableEq

/-- A key and the bytes that follow it. -/
structure KvPair where
  key : String
  body : List UInt8
  deriving DecidableEq

/-- The key is decoded from the front; the body starts where the key would end
if it were encoded again. -/
def SerData.kvPair (m : Minicbor) (d : SerData) : Except Error KvPair :=
  match m.decodeStr d.keyVal with
  | none => .error .deserialization
  | some (key, _) =>
    let len := m.lenStr key
    if len ≤ d.keyVal.length then .ok ⟨key, d.keyVal.drop len⟩ else .error .deserialization

/-- The mutable part of a node: its state and its data cell, `none` while that
is uninitialised. -/
structure Cell (T : Type) where
  state : State
  t : Option T
  deriving DecidableEq

namespace Cell

def new {T : Type} : Cell T := ⟨.initial, none⟩

/-- The data cell is initialised exactly in the states with a value. -/
def Wf {T : Type} (c : Cell T) : Prop := c.t.isSome = c.state.hasValue

theorem wf_new {T : Type} : (new : Cell T).Wf := rfl

theorem wf_needsWrite {T : Type} (t : T) : Wf ⟨.needsWrite, some t⟩ := rfl

end Cell

end CfgNoodle

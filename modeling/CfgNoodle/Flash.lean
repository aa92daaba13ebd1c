import CfgNoodle.FailedWrites
import CfgNoodle.Lib.LittleEndian
import Mathlib.Data.Set.Function

/-! # Elements in a flash queue

The bytes that `Flash` hands to its queue for an element and what it makes of the
bytes that it reads back. Each is the inverse of the other. -/
namespace CfgNoodle
open LittleEndian
variable {E : Env}

/-! ## Headers -/

namespace consts

def ELEM_VERSION_V0 : UInt8 := 0b0000_0000

def ELEM_DISCRIMINANT_START : UInt8 := 0b0000_0000

def ELEM_DISCRIMINANT_DATA : UInt8 := 0b0000_0001

def ELEM_DISCRIMINANT_END : UInt8 := 0b0000_0010

end consts

namespace Flash

def V0_START : UInt8 := consts.ELEM_VERSION_V0 ||| consts.ELEM_DISCRIMINANT_START

def V0_DATA : UInt8 := consts.ELEM_VERSION_V0 ||| consts.ELEM_DISCRIMINANT_DATA

def V0_END : UInt8 := consts.ELEM_VERSION_V0 ||| consts.ELEM_DISCRIMINANT_END

/-- The bytes that `push` hands to the queue. -/
def push : Elem → List UInt8
  | .start seqNo => V0_START :: bytes 4 seqNo.get
  | .data data => data.hdrKeyVal
  | .end seqNo calcCrc => V0_END :: (bytes 4 seqNo.get ++ bytes 4 calcCrc.toNat)

end Flash

/-! ## Reading -/

/-- What is remembered of an item's bytes. -/
inductive HalfElem where
  | start (seqNo : NonZeroU32)
  | data
  | end (seqNo : NonZeroU32) (calcCrc : UInt32)
  deriving DecidableEq

def HalfElem.fromBytes : List UInt8 → Option HalfElem
  | [] => none
  | first :: rest =>
    if first = Flash.V0_START then
      if rest.length ≠ 4 then none
      else (NonZeroU32.new (value rest)).map .start
    else if first = Flash.V0_DATA then
      if rest.isEmpty then none else some .data
    else if first = Flash.V0_END then
      if rest.length ≠ 8 then none
      else (NonZeroU32.new (value (rest.take 4))).map fun seqNo =>
        .end seqNo (UInt32.ofNat (value (rest.drop 4)))
    else none

/-- An item of the queue: its bytes and what was made of them. -/
structure FlashNode where
  half : Option HalfElem
  qit : List UInt8

/-- `FlashIter::next`, for an item with these bytes. -/
def FlashNode.next (nxt : List UInt8) : FlashNode := ⟨HalfElem.fromBytes nxt, nxt⟩

def FlashNode.data (n : FlashNode) : Option Elem :=
  n.half.bind fun half =>
    match half with
    | .start seqNo => some (.start seqNo)
    | .data => (SerData.fromExisting n.qit).map .data
    | .end seqNo calcCrc => some (.end seqNo calcCrc)

/-- The element read from these bytes. -/
def Flash.read (nxt : List UInt8) : Option Elem := (FlashNode.next nxt).data

/-- A data element has its header and a key or a value. -/
def Elem.WellFormed : Elem → Prop
  | .start _ => True
  | .data d => d.hdr = Flash.V0_DATA ∧ d.keyVal ≠ []
  | .end _ _ => True

/-! ## Pushing and reading -/

theorem NonZeroU32.new_eq_some {n : Nat} {s : NonZeroU32} : NonZeroU32.new n = some s ↔ s.get = n := by
  unfold NonZeroU32.new
  constructor
  · intro h
    split at h
    · exact Option.some.inj h ▸ rfl
    · cases h
  · intro h
    rw [dif_pos (h ▸ ⟨s.pos, s.lt⟩)]
    exact congrArg some (eq_of_get h.symm)

/-- A number of four bytes. -/
theorem value_eq_iff {bs : List UInt8} {x : Nat} (hx : x < 2 ^ 32) :
    bs.length = 4 ∧ value bs = x ↔ bs = bytes 4 x := by
  constructor
  · rintro ⟨hlen, rfl⟩
    rw [← hlen, bytes_value]
  · rintro rfl
    exact ⟨bytes_length 4 x, value_bytes (by omega)⟩

namespace Flash

theorem read_start {rest : List UInt8} {e : Elem} :
    read (V0_START :: rest) = some e ↔ ∃ s, e = .start s ∧ rest = bytes 4 s.get := by
  show (if rest.length ≠ 4 then none else (NonZeroU32.new (value rest)).map HalfElem.start).bind _ =
    some e ↔ _
  constructor
  · intro h
    obtain ⟨half, hhalf, he⟩ := Option.bind_eq_some_iff.mp h
    split at hhalf
    · cases hhalf
    · next hlen =>
      obtain ⟨s, hs, rfl⟩ := Option.map_eq_some_iff.mp hhalf
      refine ⟨s, (Option.some.inj he).symm, (value_eq_iff s.lt).mp ⟨by simpa using hlen, ?_⟩⟩
      exact (NonZeroU32.new_eq_some.mp hs).symm
  · rintro ⟨s, rfl, rfl⟩
    obtain ⟨hlen, hval⟩ := (value_eq_iff s.lt).mpr rfl
    rw [if_neg (not_not_intro hlen), hval, NonZeroU32.new_eq_some.mpr rfl]
    rfl

theorem read_data {rest : List UInt8} {e : Elem} : read (V0_DATA :: rest) = some e ↔
    rest ≠ [] ∧ e = .data ⟨V0_DATA :: rest, List.cons_ne_nil _ _⟩ := by
  cases rest with
  | nil => exact ⟨nofun, fun h => absurd rfl h.1⟩
  | cons b rest =>
    show some (Elem.data ⟨V0_DATA :: b :: rest, _⟩) = some e ↔ _
    exact ⟨fun h => ⟨List.cons_ne_nil _ _, (Option.some.inj h).symm⟩, fun h => congrArg some h.2.symm⟩

theorem read_end {rest : List UInt8} {e : Elem} : read (V0_END :: rest) = some e ↔
    ∃ s c, e = .end s c ∧ rest = bytes 4 s.get ++ bytes 4 c.toNat := by
  show (if rest.length ≠ 8 then none else (NonZeroU32.new (value (rest.take 4))).map fun seqNo =>
    HalfElem.end seqNo (UInt32.ofNat (value (rest.drop 4)))).bind _ = some e ↔ _
  constructor
  · intro h
    obtain ⟨half, hhalf, he⟩ := Option.bind_eq_some_iff.mp h
    split at hhalf
    · cases hhalf
    · next hlen =>
      have hlen : rest.length = 8 := by simpa using hlen
      obtain ⟨s, hs, rfl⟩ := Option.map_eq_some_iff.mp hhalf
      refine ⟨s, _, (Option.some.inj he).symm, ?_⟩
      have hseq : rest.take 4 = bytes 4 s.get :=
        (value_eq_iff s.lt).mp ⟨by rw [List.length_take]; omega, (NonZeroU32.new_eq_some.mp hs).symm⟩
      have hlast : (rest.drop 4).length = 4 := by rw [List.length_drop]; omega
      have hcrc : value (rest.drop 4) < 2 ^ 32 := by
        have hlt := value_lt (rest.drop 4)
        rw [hlast] at hlt
        omega
      rw [UInt32.toNat_ofNat_of_lt' hcrc, ← (value_eq_iff hcrc).mp ⟨hlast, rfl⟩, ← hseq,
        List.take_append_drop]
  · rintro ⟨s, c, rfl, rfl⟩
    have hlen : (bytes 4 s.get).length = 4 := bytes_length 4 _
    have hlen' : (bytes 4 c.toNat).length = 4 := bytes_length 4 _
    have hval : value (bytes 4 s.get) = s.get := value_bytes s.lt
    have hval' : value (bytes 4 c.toNat) = c.toNat := value_bytes c.toNat_lt
    rw [if_neg (not_not_intro (by rw [List.length_append, hlen, hlen'])),
      List.take_left' hlen, List.drop_left' hlen, hval, hval', NonZeroU32.new_eq_some.mpr rfl,
      UInt32.ofNat_toNat]
    rfl

theorem read_other {first : UInt8} (h1 : first ≠ V0_START) (h2 : first ≠ V0_DATA)
    (h3 : first ≠ V0_END) (rest : List UInt8) : read (first :: rest) = none := by
  show Option.bind (if first = V0_START then _ else if first = V0_DATA then _ else
    if first = V0_END then _ else none) _ = none
  rw [if_neg h1, if_neg h2, if_neg h3]
  rfl

/-- Bytes are read as an element exactly if it is well formed and pushed as them. -/
theorem read_eq_some {bs : List UInt8} {e : Elem} :
    read bs = some e ↔ e.WellFormed ∧ push e = bs := by
  constructor
  · intro h
    cases bs with
    | nil => cases h
    | cons first rest =>
      by_cases h1 : first = V0_START
      · subst h1
        obtain ⟨s, rfl, rfl⟩ := read_start.mp h
        exact ⟨trivial, rfl⟩
      by_cases h2 : first = V0_DATA
      · subst h2
        obtain ⟨hne, rfl⟩ := read_data.mp h
        exact ⟨⟨rfl, hne⟩, rfl⟩
      by_cases h3 : first = V0_END
      · subst h3
        obtain ⟨s, c, rfl, rfl⟩ := read_end.mp h
        exact ⟨trivial, rfl⟩
      · rw [read_other h1 h2 h3] at h
        cases h
  · rintro ⟨hwf, rfl⟩
    cases e with
    | start s => exact read_start.mpr ⟨s, rfl, rfl⟩
    | «end» s c => exact read_end.mpr ⟨s, c, rfl, rfl⟩
    | data d =>
      obtain ⟨hhdr, hkv⟩ := hwf
      obtain ⟨hdrKeyVal, hne⟩ := d
      obtain ⟨first, rest, rfl⟩ := List.exists_cons_of_ne_nil hne
      obtain rfl : first = V0_DATA := hhdr
      exact read_data.mpr ⟨hkv, rfl⟩

/-- Where the bytes were accepted, there is an element. -/
theorem read_eq_none {bs : List UInt8} : read bs = none ↔ HalfElem.fromBytes bs = none := by
  constructor
  · intro h
    cases hhalf : HalfElem.fromBytes bs with
    | none => rfl
    | some half =>
      have hdata : (HalfElem.fromBytes bs).bind _ = none := h
      rw [hhalf] at hdata
      cases half with
      | start s => cases hdata
      | «end» s c => cases hdata
      | data =>
        cases bs with
        | nil => cases hhalf
        | cons b bs => cases hdata
  · intro h
    show (HalfElem.fromBytes bs).bind _ = none
    rw [h]
    rfl

end Flash

/-- The well formed elements and the bytes that are accepted correspond one to one:
each is read back from what is pushed for it, and pushed as what it was read from. -/
theorem flash_codec_bijective :
    (∀ e : Elem, e.WellFormed → Flash.read (Flash.push e) = some e) ∧
      (∀ bs, HalfElem.fromBytes bs ≠ none → ∃ e, Flash.read bs = some e ∧ Flash.push e = bs) ∧
      Set.BijOn Flash.push {e | e.WellFormed} {bs | HalfElem.fromBytes bs ≠ none} := by
  have hback : ∀ e : Elem, e.WellFormed → Flash.read (Flash.push e) = some e := fun e he =>
    Flash.read_eq_some.mpr ⟨he, rfl⟩
  have haccepted : ∀ bs, HalfElem.fromBytes bs ≠ none → ∃ e, Flash.read bs = some e := by
    intro bs h
    exact Option.ne_none_iff_exists'.mp fun hnone => h (Flash.read_eq_none.mp hnone)
  refine ⟨hback, fun bs h => ?_, fun e he hnone => ?_, fun e he e' he' heq => ?_, fun bs h => ?_⟩
  · obtain ⟨e, he⟩ := haccepted bs h
    exact ⟨e, he, (Flash.read_eq_some.mp he).2⟩
  · have hread := hback e he
    rw [Flash.read_eq_none.mpr hnone] at hread
    cases hread
  · have hread := hback e he
    rw [show Flash.push e = Flash.push e' from heq, hback e' he'] at hread
    exact (Option.some.inj hread).symm
  · obtain ⟨e, he⟩ := haccepted bs h
    exact ⟨e, Flash.read_eq_some.mp he⟩

/-- The element of a node is well formed. -/
theorem wellFormed_nodeData {i : E.Id} {t : E.T i} (h : nodeBytes E i t ≠ []) :
    (Elem.data (nodeData E i t)).WellFormed := ⟨rfl, h⟩

end CfgNoodle

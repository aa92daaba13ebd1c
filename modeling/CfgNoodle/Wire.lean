import CfgNoodle.Storage

/-! # The crates that a list rests on

The text and integer codecs of `minicbor`, the checksum `CRC_32_CKSUM` of `crc`
and a stable sort, as far as a list of settings of one byte each needs them.
The other modules take them as parameters. -/
namespace CfgNoodle

/-! ## Heads -/

/-- `to_be_bytes` of a number of `n` bytes. -/
def beBytes : Nat → Nat → List UInt8
  | 0, _ => []
  | n + 1, x => beBytes n (x / 256) ++ [UInt8.ofNat x]

/-- `from_be_bytes`. -/
def ofBeBytes (bytes : List UInt8) : Nat := bytes.foldl (fun x b => 256 * x + b.toNat) 0

theorem beBytes_length : ∀ n x : Nat, (beBytes n x).length = n
  | 0, _ => rfl
  | n + 1, x => by rw [beBytes, List.length_append, beBytes_length n, List.length_singleton]

theorem ofBeBytes_beBytes : ∀ {n x : Nat}, x < 256 ^ n → ofBeBytes (beBytes n x) = x
  | 0, x, h => by
    have h0 : x = 0 := Nat.lt_one_iff.mp h
    rw [h0]; rfl
  | n + 1, x, h => by
    have hx : x / 256 < 256 ^ n := Nat.div_lt_of_lt_mul (by rwa [Nat.mul_comm, ← Nat.pow_succ])
    have ih : (beBytes n (x / 256)).foldl (fun x b => 256 * x + b.toNat) 0 = x / 256 :=
      ofBeBytes_beBytes hx
    simp only [ofBeBytes]
    rw [beBytes, List.foldl_append, ih]
    show 256 * (x / 256) + (UInt8.ofNat x).toNat = x
    rw [UInt8.toNat_ofNat']
    exact Nat.div_add_mod x 256

/-- The byte with a major type and the argument or its length. -/
def headByte (major info : Nat) : UInt8 := UInt8.ofNat (32 * major + info)

/-- `Encoder::type_len`. -/
def encodeHead (major x : Nat) : List (List UInt8) :=
  if x < 24 then [[headByte major x]]
  else if x < 2 ^ 8 then [headByte major 24 :: beBytes 1 x]
  else if x < 2 ^ 16 then [[headByte major 25], beBytes 2 x]
  else if x < 2 ^ 32 then [[headByte major 26], beBytes 4 x]
  else [[headByte major 27], beBytes 8 x]

/-- `u64::cbor_len`. -/
def headLen (x : Nat) : Nat :=
  if x < 24 then 1 else if x < 2 ^ 8 then 2 else if x < 2 ^ 16 then 3
  else if x < 2 ^ 32 then 5 else 9

/-- The major type and the argument at the head of some bytes, and the position
after it. -/
def decodeHead : List UInt8 → Option (Nat × Nat × Nat)
  | [] => none
  | b :: rest =>
    let info := b.toNat % 32
    if info < 24 then some (b.toNat / 32, info, 1)
    else if info < 28 ∧ 2 ^ (info - 24) ≤ rest.length then
      some (b.toNat / 32, ofBeBytes (rest.take (2 ^ (info - 24))), 1 + 2 ^ (info - 24))
    else none

section
variable {m : Nat} (hm : m < 8)
include hm

theorem headByte_toNat {i : Nat} (hi : i < 32) : (headByte m i).toNat = 32 * m + i := by
  simp only [headByte]
  rw [UInt8.toNat_ofNat']
  exact Nat.mod_eq_of_lt (by omega)

/-- An argument that fits the first byte. -/
theorem decodeHead_short {x : Nat} (hx : x < 24) (rest : List UInt8) :
    decodeHead (headByte m x :: rest) = some (m, x, 1) := by
  have hb := headByte_toNat hm (i := x) (by omega)
  unfold decodeHead
  dsimp only
  rw [hb, show (32 * m + x) % 32 = x by omega, show (32 * m + x) / 32 = m by omega,
    if_pos hx]

/-- An argument in the `2 ^ k` bytes that follow. -/
theorem decodeHead_long {k x : Nat} (hk : k < 4) (hx : x < 256 ^ 2 ^ k) (rest : List UInt8) :
    decodeHead (headByte m (24 + k) :: (beBytes (2 ^ k) x ++ rest)) =
      some (m, x, 1 + 2 ^ k) := by
  have hb := headByte_toNat hm (i := 24 + k) (by omega)
  unfold decodeHead
  dsimp only
  rw [hb, show (32 * m + (24 + k)) % 32 = 24 + k by omega,
    show (32 * m + (24 + k)) / 32 = m by omega, if_neg (by omega),
    show 24 + k - 24 = k by omega, if_pos ?_,
    List.take_append_of_le_length (Nat.le_of_eq (beBytes_length _ _).symm),
    List.take_of_length_le (Nat.le_of_eq (beBytes_length _ _)), ofBeBytes_beBytes hx]
  refine ⟨by omega, ?_⟩
  rw [List.length_append, beBytes_length]
  omega

/-- A head is read back, and is as long as `cbor_len` says. -/
theorem decodeHead_encodeHead {x : Nat} (hx : x < 2 ^ 64) (rest : List UInt8) :
    decodeHead ((encodeHead m x).flatten ++ rest) = some (m, x, headLen x) ∧
      (encodeHead m x).flatten.length = headLen x := by
  simp only [encodeHead, headLen]
  by_cases h0 : x < 24
  · rw [if_pos h0, if_pos h0]
    exact ⟨decodeHead_short hm h0 rest, rfl⟩
  rw [if_neg h0, if_neg h0]
  by_cases h1 : x < 2 ^ 8
  · rw [if_pos h1, if_pos h1]
    exact ⟨decodeHead_long hm (k := 0) (by omega) h1 rest, rfl⟩
  rw [if_neg h1, if_neg h1]
  by_cases h2 : x < 2 ^ 16
  · rw [if_pos h2, if_pos h2]
    exact ⟨decodeHead_long hm (k := 1) (by omega) h2 rest, rfl⟩
  rw [if_neg h2, if_neg h2]
  by_cases h3 : x < 2 ^ 32
  · rw [if_pos h3, if_pos h3]
    exact ⟨decodeHead_long hm (k := 2) (by omega) h3 rest, rfl⟩
  · rw [if_neg h3, if_neg h3]
    exact ⟨decodeHead_long hm (k := 3) (by omega) hx rest, rfl⟩

end

/-! ## Text strings and bytes -/

def utf8Bytes (s : String) : List UInt8 := s.toByteArray.data.toList

/-- `core::str::from_utf8`. -/
def fromUtf8 (bytes : List UInt8) : Option String := String.fromUTF8? ⟨bytes.toArray⟩

theorem fromUtf8_utf8Bytes (s : String) : fromUtf8 (utf8Bytes s) = some s :=
  dif_pos s.isValidUTF8

/-- `minicbor`'s text strings: major type 3. -/
def minicborText : Minicbor where
  encodeStr s := encodeHead 3 (utf8Bytes s).length ++ [utf8Bytes s]
  decodeStr bytes :=
    match decodeHead bytes with
    | some (major, n, pos) =>
      if major = 3 ∧ pos + n ≤ bytes.length then
        (fromUtf8 ((bytes.drop pos).take n)).map fun s => (s, pos + n)
      else none
    | none => none
  lenStr s := headLen (utf8Bytes s).length + (utf8Bytes s).length

/-- Every string that fits the address space is encoded canonically. -/
theorem canonical_text {s : String} (hs : (utf8Bytes s).length < 2 ^ 64) :
    minicborText.Canonical s := by
  have henc : (minicborText.encodeStr s).flatten =
      (encodeHead 3 (utf8Bytes s).length).flatten ++ utf8Bytes s := by
    unfold minicborText
    rw [List.flatten_append]
    simp
  have hlen := (decodeHead_encodeHead (m := 3) (by omega) hs []).2
  constructor
  · intro body
    have hdec := (decodeHead_encodeHead (m := 3) (by omega) hs (utf8Bytes s ++ body)).1
    rw [henc, List.append_assoc]
    unfold minicborText
    dsimp only
    rw [hdec]
    dsimp only
    have hfits : headLen (utf8Bytes s).length + (utf8Bytes s).length ≤
        ((encodeHead 3 (utf8Bytes s).length).flatten ++ (utf8Bytes s ++ body)).length := by
      rw [List.length_append, List.length_append, hlen]
      omega
    rw [if_pos ⟨rfl, hfits⟩, ← hlen, List.drop_left, List.take_left, fromUtf8_utf8Bytes,
      List.length_append]
    rfl
  · rw [henc, List.length_append, hlen]
    rfl

/-- `Encode`, `Decode` and `CborLen` of a `u8`: major type 0. -/
def minicborU8 : VTable UInt8 where
  encode t := encodeHead 0 t.toNat
  decode bytes :=
    match decodeHead bytes with
    | some (major, x, _) => if major = 0 ∧ x < 2 ^ 8 then some (UInt8.ofNat x) else none
    | none => none
  cborLen t := headLen t.toNat

theorem decode_encode_u8 (t : UInt8) : minicborU8.decode (minicborU8.encode t).flatten = some t := by
  have ht : t.toNat < 2 ^ 8 := t.toNat_lt
  have hdec := (decodeHead_encodeHead (m := 0) (by omega) (x := t.toNat) (by omega) []).1
  rw [List.append_nil] at hdec
  unfold minicborU8
  dsimp only
  rw [hdec]
  dsimp only
  rw [if_pos ⟨rfl, ht⟩, UInt8.ofNat_toNat]

/-! ## The checksum -/

/-- One bit of the division by the polynomial of `CRC_32_CKSUM`. -/
def cksumBit (crc : UInt32) : UInt32 :=
  if 0x80000000 ≤ crc then (crc <<< 1) ^^^ 0x04c11db7 else crc <<< 1

def cksumByte (crc : UInt32) (b : UInt8) : UInt32 :=
  (cksumBit ∘ cksumBit ∘ cksumBit ∘ cksumBit ∘ cksumBit ∘ cksumBit ∘ cksumBit ∘ cksumBit)
    (crc ^^^ (b.toUInt32 <<< 24))

/-- `CRC_32_CKSUM`: the initial value is 0 and the result is inverted. -/
def cksum (bytes : List UInt8) : UInt32 := bytes.foldl cksumByte 0 ^^^ 0xffffffff

/-- The check value of the algorithm. -/
example : cksum (utf8Bytes "123456789") = 0x765e7680 := by decide +kernel

/-! ## A list of settings -/

/-- The slots in increasing order, with equal ones as they stood. -/
def insertionSorter : SlotSorter where
  sort := List.insertionSort fun a b =>
    TopK.slotKey GoodWriteRecord.seqKey a ≤ TopK.slotKey GoodWriteRecord.seqKey b
  perm l := List.perm_insertionSort _ l
  sorted l := by
    have : Std.Total fun a b : Option GoodWriteRecord =>
      TopK.slotKey GoodWriteRecord.seqKey a ≤ TopK.slotKey GoodWriteRecord.seqKey b :=
      ⟨fun _ _ => Nat.le_total _ _⟩
    have : IsTrans (Option GoodWriteRecord) fun a b =>
      TopK.slotKey GoodWriteRecord.seqKey a ≤ TopK.slotKey GoodWriteRecord.seqKey b :=
      ⟨fun _ _ _ => Nat.le_trans⟩
    exact List.pairwise_insertionSort _ l

theorem insertionSorter_stableAt (n : Nat) : insertionSorter.StableAt n := by
  intro l _ k
  have hsorted : (l.filter (TopK.slotKey GoodWriteRecord.seqKey · = k)).Pairwise fun a b =>
      TopK.slotKey GoodWriteRecord.seqKey a ≤ TopK.slotKey GoodWriteRecord.seqKey b := by
    refine List.pairwise_of_forall_mem_list fun a ha b hb => ?_
    rw [of_decide_eq_true (List.mem_filter.mp ha).2, of_decide_eq_true (List.mem_filter.mp hb).2]
  have hsub : (l.filter (TopK.slotKey GoodWriteRecord.seqKey · = k)).Sublist (insertionSorter.sort l) :=
    List.sublist_insertionSort hsorted List.filter_sublist
  have hfilter := hsub.filter (TopK.slotKey GoodWriteRecord.seqKey · = k)
  rw [List.filter_filter] at hfilter
  simp only [Bool.and_self] at hfilter
  exact (hfilter.eq_of_length ((insertionSorter.perm l).filter _).length_eq.symm).symm

/-- The bytes that an element takes in the storage of the tests. -/
def testSize : Elem → Nat
  | .start _ => 5
  | .data d => 1 + d.hdrKeyVal.length
  | .end _ _ => 9

/-- A list of settings of one byte each under these keys, on a storage like the
one of the tests. -/
def settings (n kept : Nat) (key : Fin n → String) (h : 0 < kept) : Env where
  Id := Fin n
  decId := inferInstance
  T _ := UInt8
  key := key
  vtable _ := minicborU8
  cbor := minicborText
  crc := cksum
  Err := Unit
  size := testSize
  kept := kept
  kept_pos := h
  sorter := insertionSorter

theorem settings_canonical {n kept : Nat} {key : Fin n → String} {h : 0 < kept}
    (hkey : ∀ i, (utf8Bytes (key i)).length < 2 ^ 64) :
    ∀ i, (settings n kept key h).cbor.Canonical ((settings n kept key h).key i) :=
  fun i => canonical_text (hkey i)

theorem settings_codec {n kept : Nat} {key : Fin n → String} {h : 0 < kept} :
    ∀ i (t : (settings n kept key h).T i), ((settings n kept key h).vtable i).decode
      (((settings n kept key h).vtable i).encode t).flatten = some t :=
  fun _ t => decode_encode_u8 t

/-- Two settings, under the keys `a` and `b`. -/
def twoSettings : Env := settings 2 3 (fun i => if i = 0 then "a" else "b") (by decide)

def settingA : twoSettings.Id := (0 : Fin 2)

def settingB : twoSettings.Id := (1 : Fin 2)

/-- The number of a second record, and the last one. -/
def NonZeroU32.two : NonZeroU32 := ⟨2, by decide, by decide⟩

def NonZeroU32.last : NonZeroU32 := ⟨NonZeroU32.MAX, by decide, by decide⟩

/-- A list with the first setting, which waits to be written. -/
def flushing (items : List Item) (seqState : SeqState 3) : World twoSettings :=
  ⟨fun _ => ⟨.needsWrite, some (7 : UInt8)⟩, [settingA], seqState, items, .none, 0⟩

/-- The element of the first setting with a value below 24. -/
def dataA (v : UInt8) : SerData := ⟨[SerData.V0_DATA, 0x61, 0x61, v], nofun⟩

theorem twoSettings_canonical : ∀ i, twoSettings.cbor.Canonical (twoSettings.key i) :=
  settings_canonical (by decide +kernel)

end CfgNoodle

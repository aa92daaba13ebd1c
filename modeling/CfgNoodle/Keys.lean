import CfgNoodle.Wire

/-! # Where a key ends

`kv_pair` decodes the key at the front of a data element and cuts the body off where
that key would end if it were encoded again. The decoder takes a length in any of
five forms, and the cut is right exactly where the shortest one was used. -/
namespace CfgNoodle

/-! ## Text strings -/

/-- The forms in which the length of a text string can be written: in the first byte,
or in 1, 2, 4 or 8 bytes that follow it. -/
inductive TextHead (n : Nat) : List UInt8 → Prop
  | short (h : n < 24) : TextHead n [headByte 3 n]
  | long (k : Nat) (hk : k < 4) (h : n < 256 ^ 2 ^ k) :
      TextHead n (headByte 3 (24 + k) :: beBytes (2 ^ k) n)

/-- The bytes begin with this string, its length in this form. -/
def TextAt (bytes : List UInt8) (s : String) (head : List UInt8) : Prop :=
  TextHead (utf8Bytes s).length head ∧ ∃ rest, bytes = head ++ (utf8Bytes s ++ rest)

/-- A decoder of text strings that takes every form of the length and consumes just
the string, and the `len_with` of an encoder that uses the shortest. -/
structure Minicbor.TextStrings (m : Minicbor) : Prop where
  decode_iff : ∀ bytes s pos, m.decodeStr bytes = some (s, pos) ↔
    ∃ head, TextAt bytes s head ∧ pos = head.length + (utf8Bytes s).length
  len_eq : ∀ s, m.lenStr s = headLen (utf8Bytes s).length + (utf8Bytes s).length

/-- No form is shorter than `cbor_len` says. -/
theorem TextHead.headLen_le {n : Nat} {head : List UInt8} (h : TextHead n head) :
    headLen n ≤ head.length := by
  cases h with
  | short h =>
    unfold headLen
    rw [if_pos h]
    exact Nat.le_refl 1
  | long k hk h =>
    rw [List.length_cons, beBytes_length]
    simp only [headLen]
    obtain rfl | rfl | rfl | rfl : k = 0 ∨ k = 1 ∨ k = 2 ∨ k = 3 := by omega
    all_goals
      simp only [Nat.reducePow] at h ⊢
      repeat' split
      all_goals omega

/-! ## The cut -/

/-- The key takes more bytes than its encoding needs. -/
def Overlong (bytes : List UInt8) : Prop :=
  ∃ s head, TextAt bytes s head ∧ headLen (utf8Bytes s).length < head.length

theorem TextAt.length_le {bytes : List UInt8} {s : String} {head : List UInt8}
    (h : TextAt bytes s head) : head.length + (utf8Bytes s).length ≤ bytes.length := by
  obtain ⟨_, rest, rfl⟩ := h
  simp only [List.length_append]
  omega

/-- What was consumed for the key, followed by the body, is all there is, exactly if
the key is not longer than needed. -/
theorem kvPair_split_iff {m : Minicbor} (hm : m.TextStrings) (d : SerData) :
    (∀ kv, d.kvPair m = .ok kv → ∃ pos, m.decodeStr d.keyVal = some (kv.key, pos) ∧
      d.keyVal.take pos ++ kv.body = d.keyVal) ↔ ¬ Overlong d.keyVal := by
  constructor
  · intro hsplit hover
    obtain ⟨s, head, hat, hlt⟩ := hover
    have hdec := (hm.decode_iff d.keyVal s _).mpr ⟨head, hat, rfl⟩
    have hle := hat.length_le
    have hkv : d.kvPair m = .ok ⟨s, d.keyVal.drop (m.lenStr s)⟩ := by
      unfold SerData.kvPair
      rw [hdec]
      dsimp only
      rw [if_pos (by rw [hm.len_eq]; omega)]
    obtain ⟨pos, hpos, hall⟩ := hsplit _ hkv
    obtain rfl : head.length + (utf8Bytes s).length = pos := by
      rw [hdec] at hpos
      exact congrArg Prod.snd (Option.some.inj hpos)
    -- the body is too long
    have hlen := congrArg List.length hall
    rw [List.length_append, List.length_take, List.length_drop, hm.len_eq] at hlen
    omega
  · intro hno kv hkv
    unfold SerData.kvPair at hkv
    cases hdec : m.decodeStr d.keyVal with
    | none => rw [hdec] at hkv; cases hkv
    | some p =>
      obtain ⟨s, pos⟩ := p
      rw [hdec] at hkv
      dsimp only at hkv
      split at hkv
      · obtain rfl := Except.ok.inj hkv
        obtain ⟨head, hat, rfl⟩ := (hm.decode_iff d.keyVal s pos).mp hdec
        have hge := hat.1.headLen_le
        have hle : head.length ≤ headLen (utf8Bytes s).length :=
          Nat.le_of_not_lt fun hlt => hno ⟨s, head, hat, hlt⟩
        refine ⟨_, rfl, ?_⟩
        show d.keyVal.take _ ++ d.keyVal.drop (m.lenStr s) = d.keyVal
        rw [hm.len_eq, Nat.le_antisymm hge hle, List.take_append_drop]
      · cases hkv

/-! ## The decoder of `minicbor` -/

theorem ofBeBytes_concat (bytes : List UInt8) (b : UInt8) :
    ofBeBytes (bytes ++ [b]) = 256 * ofBeBytes bytes + b.toNat := by
  simp only [ofBeBytes]
  rw [List.foldl_append]
  rfl

theorem ofBeBytes_lt (bytes : List UInt8) : ofBeBytes bytes < 256 ^ bytes.length := by
  induction bytes using List.reverseRecOn with
  | nil => exact Nat.one_pos
  | append_singleton bytes b ih =>
    have hb : b.toNat < 256 := b.toNat_lt
    rw [List.length_append, List.length_singleton, Nat.pow_succ, ofBeBytes_concat]
    omega

theorem beBytes_ofBeBytes (bytes : List UInt8) : beBytes bytes.length (ofBeBytes bytes) = bytes := by
  induction bytes using List.reverseRecOn with
  | nil => rfl
  | append_singleton bytes b ih =>
    have hb : b.toNat < 256 := b.toNat_lt
    have hlast : UInt8.ofNat (256 * ofBeBytes bytes + b.toNat) = b := by
      refine UInt8.toNat_inj.mp ?_
      rw [UInt8.toNat_ofNat']
      show (256 * ofBeBytes bytes + b.toNat) % 256 = b.toNat
      omega
    rw [List.length_append, List.length_singleton, beBytes, ofBeBytes_concat, hlast,
      show (256 * ofBeBytes bytes + b.toNat) / 256 = ofBeBytes bytes by omega, ih]

theorem utf8Bytes_fromUtf8 {bytes : List UInt8} {s : String} (h : fromUtf8 bytes = some s) :
    utf8Bytes s = bytes := by
  simp only [fromUtf8, String.fromUTF8?] at h
  split at h
  · obtain rfl := Option.some.inj h
    rfl
  · cases h

theorem headByte_text {b : UInt8} (h : b.toNat / 32 = 3) : headByte 3 (b.toNat % 32) = b := by
  rw [headByte, show 32 * 3 + b.toNat % 32 = b.toNat by omega, UInt8.ofNat_toNat]

/-- Any bytes of the right number are the length of a text string. -/
theorem TextHead.of_bytes {k : Nat} (hk : k < 4) {bs : List UInt8} (hlen : bs.length = 2 ^ k) :
    TextHead (ofBeBytes bs) (headByte 3 (24 + k) :: bs) := by
  have hbytes : beBytes (2 ^ k) (ofBeBytes bs) = bs := by rw [← hlen, beBytes_ofBeBytes]
  have hform := TextHead.long (n := ofBeBytes bs) k hk (by rw [← hlen]; exact ofBeBytes_lt bs)
  rwa [hbytes] at hform

/-- What is taken for the head of a text string is one of its forms. -/
theorem decodeHead_text {bytes : List UInt8} {n pos : Nat} : decodeHead bytes = some (3, n, pos) ↔
    ∃ head rest, TextHead n head ∧ bytes = head ++ rest ∧ pos = head.length := by
  constructor
  · intro h
    cases bytes with
    | nil => cases h
    | cons b rest =>
      unfold decodeHead at h
      dsimp only at h
      split at h
      · next hshort =>
        simp only [Option.some.injEq, Prod.mk.injEq] at h
        obtain ⟨h3, rfl, rfl⟩ := h
        have hform := TextHead.short hshort
        rw [headByte_text h3] at hform
        exact ⟨[b], rest, hform, rfl, rfl⟩
      · split at h
        · next hlong hfits =>
          simp only [Option.some.injEq, Prod.mk.injEq] at h
          obtain ⟨h3, rfl, rfl⟩ := h
          obtain ⟨k, hk⟩ := Nat.exists_eq_add_of_le (Nat.le_of_not_lt hlong)
          rw [hk, Nat.add_sub_cancel_left] at hfits ⊢
          have htake : (rest.take (2 ^ k)).length = 2 ^ k := by
            rw [List.length_take]
            exact Nat.min_eq_left hfits.2
          have hform := TextHead.of_bytes (by omega) htake
          rw [← hk, headByte_text h3] at hform
          refine ⟨_, rest.drop (2 ^ k), hform, ?_, ?_⟩
          · rw [List.cons_append, List.take_append_drop]
          · rw [List.length_cons, htake, Nat.add_comm]
        · cases h
  · rintro ⟨head, rest, hform, rfl, rfl⟩
    cases hform with
    | short h => exact decodeHead_short (by omega) h rest
    | long k hk h =>
      rw [List.cons_append, decodeHead_long (by omega) hk h, List.length_cons, beBytes_length,
        Nat.add_comm]

theorem minicborText_strings : minicborText.TextStrings := by
  refine ⟨fun bytes s pos => ?_, fun _ => rfl⟩
  constructor
  · intro h
    unfold minicborText at h
    dsimp only at h
    split at h
    · next major n p hhead =>
      split at h
      · next hfits =>
        obtain ⟨rfl, hle⟩ := hfits
        obtain ⟨head, rest, hform, rfl, rfl⟩ := decodeHead_text.mp hhead
        rw [List.drop_left] at h
        obtain ⟨s', hs, heq⟩ := Option.map_eq_some_iff.mp h
        simp only [Prod.mk.injEq] at heq
        obtain ⟨rfl, rfl⟩ := heq
        have hbytes := utf8Bytes_fromUtf8 hs
        have hlen : (utf8Bytes s').length = n := by
          rw [hbytes, List.length_take]
          rw [List.length_append] at hle
          omega
        refine ⟨head, ⟨hlen ▸ hform, rest.drop n, ?_⟩, by rw [hlen]⟩
        rw [hbytes, List.take_append_drop]
      · cases h
    · cases h
  · rintro ⟨head, ⟨hform, rest, rfl⟩, rfl⟩
    unfold minicborText
    dsimp only
    rw [decodeHead_text.mpr ⟨head, _, hform, rfl, rfl⟩]
    dsimp only
    rw [if_pos ⟨rfl, by simp only [List.length_append]; omega⟩, List.drop_left, List.take_left,
      fromUtf8_utf8Bytes]
    rfl

/-- The key `a` with its length in a byte of its own, and the value 7. -/
def longKey : SerData := ⟨[SerData.V0_DATA, 0x78, 0x01, 0x61, 0x07], nofun⟩

theorem kvPair_split_long : (∀ kv, longKey.kvPair minicborText = .ok kv → ∃ pos,
    minicborText.decodeStr longKey.keyVal = some (kv.key, pos) ∧
      longKey.keyVal.take pos ++ kv.body = longKey.keyVal) ↔ ¬ Overlong longKey.keyVal :=
  kvPair_split_iff minicborText_strings longKey

/-- The last byte of the key is taken for the first of the value. -/
theorem long_key_not_split : ∃ kv, longKey.kvPair minicborText = .ok kv ∧ kv.body = [0x61, 0x07] ∧
    minicborText.decodeStr longKey.keyVal = some (kv.key, 3) ∧
      longKey.keyVal.take 3 ++ kv.body ≠ longKey.keyVal :=
  ⟨⟨"a", [0x61, 0x07]⟩, by decide +kernel, rfl, by decide +kernel, by decide⟩

end CfgNoodle

import CfgNoodle.Writes

/-! # What is written is what is read

The bytes of a node's data element, their split into key and body, and what
hydration makes of a record's data elements: each node is given the first body
that carries its key. -/
namespace CfgNoodle
open Framing Outcome
open scoped List
variable {E : Env}

/-! ## One data element -/

/-- The slice writer takes all chunks if they fit. -/
theorem Cursor.encode_fits : ∀ (chunks : List (List UInt8)) (c : Cursor),
    c.position + chunks.flatten.length ≤ c.cap →
    c.encode chunks = ({ c with written := c.written ++ chunks.flatten }, true)
  | [], c, _ => by simp [encode]
  | chunk :: chunks, c, h => by
    rw [List.flatten_cons, List.length_append] at h
    unfold encode writeAll
    rw [if_pos (by omega)]
    dsimp only
    rw [Cursor.encode_fits chunks _ (by simp [position] at h ⊢; omega)]
    simp

/-- It takes none that does not. -/
theorem Cursor.encode_overflows : ∀ (chunks : List (List UInt8)) (c : Cursor),
    c.cap < c.position + chunks.flatten.length → c.position ≤ c.cap → (c.encode chunks).2 = false
  | [], c, h, hc => by simp at h; omega
  | chunk :: chunks, c, h, hc => by
    rw [List.flatten_cons, List.length_append] at h
    unfold encode writeAll
    by_cases hfit : c.position + chunk.length ≤ c.cap
    · rw [if_pos hfit]
      exact Cursor.encode_overflows chunks _ (by simp [position] at h ⊢; omega)
        (by simp [position] at hfit ⊢; omega)
    · rw [if_neg hfit]

/-- The bytes of a node: its key, then its value. -/
def nodeBytes (E : Env) (i : E.Id) (t : E.T i) : List UInt8 :=
  (E.cbor.encodeStr (E.key i)).flatten ++ ((E.vtable i).encode t).flatten

/-- A node is written if its header byte, key and value fit the buffer. -/
theorem nodeElem_eq (bufLen : Nat) (i : E.Id) (t : E.T i) :
    nodeElem E bufLen i t = if 1 + (nodeBytes E i t).length ≤ bufLen then
      some ⟨SerData.V0_DATA :: nodeBytes E i t, List.cons_ne_nil _ _⟩ else none := by
  unfold nodeBytes
  rw [List.length_append]
  cases bufLen with
  | zero => rw [if_neg (by omega)]; rfl
  | succ n =>
    unfold nodeElem serializeNode
    dsimp only
    by_cases hk : (E.cbor.encodeStr (E.key i)).flatten.length ≤ n
    · rw [Cursor.encode_fits _ (Cursor.new n) (by show 0 + _ ≤ n; omega)]
      dsimp only [Cursor.new, Cursor.position, List.nil_append]
      by_cases hv : (E.cbor.encodeStr (E.key i)).flatten.length +
          ((E.vtable i).encode t).flatten.length ≤ n
      · rw [Cursor.encode_fits _ _ (by show 0 + _ ≤ n - _; omega), if_pos (by omega)]
        simp [SerData.new]
      · rw [if_neg (by omega)]
        have hover := Cursor.encode_overflows ((E.vtable i).encode t)
          ⟨n - (E.cbor.encodeStr (E.key i)).flatten.length, []⟩ (by show n - _ < 0 + _; omega)
          (Nat.zero_le _)
        split
        · rfl
        · next h => rw [h] at hover; cases hover
    · rw [if_neg (by omega)]
      have hover := Cursor.encode_overflows (E.cbor.encodeStr (E.key i)) (Cursor.new n)
        (by show n < 0 + _; omega) (Nat.zero_le _)
      split
      · rfl
      · next h => rw [h] at hover; cases hover

/-- A written node is split into its key and its value again. -/
theorem nodeElem_kvPair {bufLen : Nat} {i : E.Id} {t : E.T i} {d : SerData}
    (hd : nodeElem E bufLen i t = some d) (hk : E.cbor.Canonical (E.key i)) :
    d.kvPair E.cbor = .ok ⟨E.key i, ((E.vtable i).encode t).flatten⟩ := by
  rw [nodeElem_eq] at hd
  split at hd
  · have hkv : d.keyVal = nodeBytes E i t := by
      rw [← Option.some.inj hd]; rfl
    unfold SerData.kvPair
    rw [hkv, nodeBytes, hk.decode_encode]
    dsimp only
    rw [hk.len_eq, if_pos (by rw [List.length_append]; omega), List.drop_left]
  · cases hd

/-! ## Hydration -/

/-- The body that a node with this key is given: that of the first data element
with it that can be split. -/
def bodyFor (cbor : Minicbor) (key : String) (ds : List SerData) : Option (List UInt8) :=
  ds.findSome? fun d =>
    match d.kvPair cbor with
    | .error _ => none
    | .ok kv => if kv.key = key then some kv.body else none

/-- A node that waits for its data takes what the record has for it. -/
def offered {T : Type} (vtable : VTable T) (body : Option (List UInt8)) (c : Cell T) : Cell T :=
  match body with
  | none => c
  | some body => if c.state = .initial then deserialize vtable body c else c

theorem deserialize_state {T : Type} (vtable : VTable T) (body : List UInt8) (c : Cell T) :
    (deserialize vtable body c).state ≠ .initial := by
  unfold deserialize
  split <;> nofun

theorem findNode_eq {list : List E.Id} (hnd : (list.map E.key).Nodup) {i : E.Id} (hi : i ∈ list) :
    findNode list (E.key i) = some i := by
  unfold findNode
  cases h : list.find? fun j => E.key j = E.key i with
  | none => exact absurd (by simp) (List.find?_eq_none.mp h i hi)
  | some j =>
    have hkey : E.key j = E.key i := by simpa using List.find?_some h
    rw [List.inj_on_of_nodup_map hnd (List.mem_of_find?_eq_some h) hi hkey]

/-- One data element reaches the node with its key. -/
theorem hydrateFrom_apply {list : List E.Id} (hnd : (list.map E.key).Nodup) (d : SerData)
    (cells : Cells E) {i : E.Id} (hi : i ∈ list) :
    hydrateFrom d list cells i =
      offered (E.vtable i) (bodyFor E.cbor (E.key i) [d]) (cells i) := by
  unfold hydrateFrom bodyFor
  rw [List.findSome?_cons, List.findSome?_nil]
  cases hkv : d.kvPair E.cbor with
  | error e => rfl
  | ok kv =>
    dsimp only
    by_cases hkey : kv.key = E.key i
    · unfold hydrate
      rw [hkey, if_pos rfl, findNode_eq hnd hi]
      dsimp only [offered]
      by_cases hs : (cells i).state = .initial
      · rw [if_pos hs, if_pos hs, Function.update_self]
      · rw [if_neg hs, if_neg hs]
    · rw [if_neg hkey]
      unfold hydrate
      cases hf : findNode list kv.key with
      | none => rfl
      | some j =>
        have hj : E.key j = kv.key := by
          unfold findNode at hf
          simpa using List.find?_some hf
        have hne : i ≠ j := by rintro rfl; exact hkey hj.symm
        dsimp only [offered]
        split
        · exact Function.update_of_ne hne _ _
        · rfl

/-- No other node is touched. -/
theorem hydrateFrom_of_not_mem {list : List E.Id} (d : SerData) (cells : Cells E) {i : E.Id}
    (hi : i ∉ list) : hydrateFrom d list cells i = cells i := by
  unfold hydrateFrom
  cases d.kvPair E.cbor with
  | error e => rfl
  | ok kv =>
    dsimp only [hydrate]
    cases hf : findNode list kv.key with
    | none => rfl
    | some j =>
      have hne : i ≠ j := by rintro rfl; exact hi (List.mem_of_find?_eq_some hf)
      dsimp only
      split
      · exact Function.update_of_ne hne _ _
      · rfl

theorem offered_append {T : Type} (vtable : VTable T) (cbor : Minicbor) (key : String)
    (d : SerData) (ds : List SerData) (c : Cell T) :
    offered vtable (bodyFor cbor key ds) (offered vtable (bodyFor cbor key [d]) c) =
      offered vtable (bodyFor cbor key (d :: ds)) c := by
  have hcons : bodyFor cbor key (d :: ds) = (bodyFor cbor key [d]).or (bodyFor cbor key ds) := by
    unfold bodyFor
    rw [List.findSome?_cons, List.findSome?_cons, List.findSome?_nil]
    cases (match d.kvPair cbor with
      | .error _ => none
      | .ok kv => if kv.key = key then some kv.body else none) <;> rfl
  rw [hcons]
  cases bodyFor cbor key [d] with
  | none => rfl
  | some body =>
    show offered vtable (bodyFor cbor key ds) (if c.state = .initial then _ else c) =
      if c.state = .initial then _ else c
    by_cases hs : c.state = .initial
    · -- what was hydrated is not hydrated again
      rw [if_pos hs]
      cases bodyFor cbor key ds with
      | none => rfl
      | some b => exact if_neg (deserialize_state vtable body c)
    · rw [if_neg hs]
      cases bodyFor cbor key ds with
      | none => rfl
      | some b => exact if_neg hs

/-- Each node is given the first body that carries its key. -/
theorem hydrateAll_apply {list : List E.Id} (hnd : (list.map E.key).Nodup) {i : E.Id}
    (hi : i ∈ list) (ds : List SerData) (cells : Cells E) :
    hydrateAll list ds cells i = offered (E.vtable i) (bodyFor E.cbor (E.key i) ds) (cells i) := by
  induction ds generalizing cells with
  | nil => rfl
  | cons d ds ih =>
    show hydrateAll list ds (hydrateFrom d list cells) i = _
    rw [ih, hydrateFrom_apply hnd d cells hi, offered_append]

theorem hydrateAll_of_not_mem {list : List E.Id} {i : E.Id} (hi : i ∉ list) (ds : List SerData)
    (cells : Cells E) : hydrateAll list ds cells i = cells i := by
  induction ds generalizing cells with
  | nil => rfl
  | cons d ds ih =>
    show hydrateAll list ds (hydrateFrom d list cells) i = _
    rw [ih, hydrateFrom_of_not_mem d cells hi]

/-- The data element has nothing left to give: the node with its key, if there
is one, does not wait for data. -/
def Settled (d : SerData) (list : List E.Id) (cells : Cells E) : Prop :=
  ∀ kv, d.kvPair E.cbor = .ok kv → ∀ i, findNode list kv.key = some i → (cells i).state ≠ .initial

theorem Settled.hydrateFrom_eq {d : SerData} {list : List E.Id} {cells : Cells E}
    (h : Settled d list cells) : hydrateFrom d list cells = cells := by
  unfold hydrateFrom
  cases hkv : d.kvPair E.cbor with
  | error e => rfl
  | ok kv =>
    dsimp only [hydrate]
    cases hf : findNode list kv.key with
    | none => rfl
    | some i => exact if_neg (h kv hkv i hf)

/-- Hydration never makes a node wait for data again. -/
theorem hydrateFrom_state (d : SerData) (list : List E.Id) {cells : Cells E} {i : E.Id}
    (h : (cells i).state ≠ .initial) : (hydrateFrom d list cells i).state ≠ .initial := by
  unfold hydrateFrom
  cases d.kvPair E.cbor with
  | error e => exact h
  | ok kv =>
    dsimp only [hydrate]
    cases findNode list kv.key with
    | none => exact h
    | some j =>
      dsimp only
      split
      · by_cases hij : i = j
        · subst hij
          rw [Function.update_self]
          exact deserialize_state _ _ _
        · rw [Function.update_of_ne hij]
          exact h
      · exact h

theorem settled_hydrateFrom (d : SerData) (list : List E.Id) (cells : Cells E) :
    Settled d list (hydrateFrom d list cells) := by
  intro kv hkv i hf
  unfold hydrateFrom
  rw [hkv]
  dsimp only [hydrate]
  rw [hf]
  dsimp only
  split
  · rw [Function.update_self]
    exact deserialize_state _ _ _
  · next h => exact h

theorem Settled.hydrateAll {d : SerData} {list : List E.Id} (ds : List SerData) {cells : Cells E}
    (h : Settled d list cells) : Settled d list (hydrateAll list ds cells) := by
  induction ds generalizing cells with
  | nil => exact h
  | cons d' ds ih => exact ih fun kv hkv i hf => hydrateFrom_state d' list (h kv hkv i hf)

theorem hydrateAll_append (list : List E.Id) (a b : List SerData) (cells : Cells E) :
    hydrateAll list (a ++ b) cells = hydrateAll list b (hydrateAll list a cells) :=
  List.foldl_append

theorem hydrateAll_of_settled {list : List E.Id} {ds : List SerData} {cells : Cells E}
    (h : ∀ d ∈ ds, Settled d list cells) : hydrateAll list ds cells = cells := by
  induction ds with
  | nil => rfl
  | cons d ds ih =>
    show hydrateAll list ds (hydrateFrom d list cells) = cells
    rw [(h d List.mem_cons_self).hydrateFrom_eq]
    exact ih fun d' hd => h d' (List.mem_cons_of_mem d hd)

theorem settled_of_mem {list : List E.Id} {d : SerData} {ds : List SerData} (cells : Cells E)
    (h : d ∈ ds) : Settled d list (hydrateAll list ds cells) := by
  induction ds generalizing cells with
  | nil => cases h
  | cons d' ds ih =>
    rcases List.mem_cons.mp h with rfl | h
    · exact (settled_hydrateFrom d list cells).hydrateAll ds
    · exact ih (hydrateFrom d' list cells) h

/-- Hydrating again from the start, after a first part of the record, is the same
as hydrating once. -/
theorem hydrateAll_resume {list : List E.Id} {part ds : List SerData} (h : part <+: ds)
    (cells : Cells E) :
    hydrateAll list ds (hydrateAll list part cells) = hydrateAll list ds cells := by
  obtain ⟨rest, rfl⟩ := h
  rw [hydrateAll_append, hydrateAll_append,
    hydrateAll_of_settled fun d hd => settled_of_mem cells hd]

/-! ## From the written record back to the nodes -/

/-- In a record written for nodes with distinct keys, a key leads to the value
of the node that has it. -/
theorem bodyFor_writeDatas {bufLen : Nat} {cells : Cells E} (hk : ∀ i, E.cbor.Canonical (E.key i)) :
    ∀ {list : List E.Id}, (list.map E.key).Nodup → (writeDatas bufLen cells list).2 = none →
    ∀ {i : E.Id}, i ∈ list → ∀ {t : E.T i}, (cells i).state.hasValue = true →
      (cells i).t = some t → bodyFor E.cbor (E.key i) (writeDatas bufLen cells list).1 =
        some ((E.vtable i).encode t).flatten
  | j :: list, hnd, hw, i, hi, t, hv, ht => by
    rw [List.map_cons, List.nodup_cons] at hnd
    rw [writeDatas] at hw ⊢
    by_cases hj : (cells j).state.hasValue = true
    · rw [if_pos hj] at hw ⊢
      cases htj : (cells j).t with
      | none => rw [htj] at hw; cases hw
      | some tj =>
        rw [htj] at hw
        dsimp only at hw ⊢
        cases hd : nodeElem E bufLen j tj with
        | none => rw [hd] at hw; cases hw
        | some d =>
          rw [hd] at hw
          unfold bodyFor
          rw [List.findSome?_cons, nodeElem_kvPair hd (hk j)]
          dsimp only
          rcases List.mem_cons.mp hi with rfl | hi
          · rw [if_pos rfl, Option.some.inj (htj.symm.trans ht)]
          · have hne : E.key j ≠ E.key i := fun h =>
              hnd.1 (h ▸ List.mem_map_of_mem hi)
            rw [if_neg hne]
            exact bodyFor_writeDatas hk hnd.2 hw hi hv ht
    · rw [if_neg hj] at hw ⊢
      rcases List.mem_cons.mp hi with rfl | hi
      · exact absurd hv hj
      · exact bodyFor_writeDatas hk hnd.2 hw hi hv ht

/-- A key that no written node has is not in the record. -/
theorem bodyFor_writeDatas_none (bufLen : Nat) {cells : Cells E}
    (hk : ∀ i, E.cbor.Canonical (E.key i)) {key : String} : ∀ {list : List E.Id},
    (∀ j ∈ list, (cells j).state.hasValue = true → E.key j ≠ key) →
    bodyFor E.cbor key (writeDatas bufLen cells list).1 = none
  | [], _ => rfl
  | j :: list, h => by
    have ih : bodyFor E.cbor key (writeDatas bufLen cells list).1 = none :=
      bodyFor_writeDatas_none bufLen hk fun j' hj' => h j' (List.mem_cons_of_mem j hj')
    rw [writeDatas]
    by_cases hj : (cells j).state.hasValue = true
    · rw [if_pos hj]
      cases (cells j).t with
      | none => rfl
      | some tj =>
        dsimp only
        cases hd : nodeElem E bufLen j tj with
        | none => rfl
        | some d =>
          unfold bodyFor
          rw [List.findSome?_cons, nodeElem_kvPair hd (hk j)]
          dsimp only
          rw [if_neg (h j (by simp) hj)]
          exact ih
    · rw [if_neg hj]
      exact ih

end CfgNoodle

import CfgNoodle.FailedWrites

/-! # Nodes and buffers

Which nodes fit the scratch buffer of a write: what `check_node_size` predicts, what
the loop over the nodes does with one that fits and one that does not, and what
becomes of the latter where debug assertions are enabled. -/
namespace CfgNoodle
open Outcome
variable {E : Env}

/-! ## The size check -/

/-- `NdlDataStorage::check_node_size`, for a storage with this `MAX_ELEM_SIZE`. -/
def checkNodeSize (maxElemSize : Nat) (cbor : Minicbor) {T : Type} (vtable : VTable T)
    (key : String) (node : T) : Bool :=
  1 + cbor.lenStr key + vtable.cborLen node ≤ maxElemSize

/-- `len_with` of a node's key and value is the length of what is written for them. -/
structure Measured (E : Env) (i : E.Id) : Prop where
  key : E.cbor.lenStr (E.key i) = (E.cbor.encodeStr (E.key i)).flatten.length
  value : ∀ t, (E.vtable i).cborLen t = ((E.vtable i).encode t).flatten.length

/-- The room that a node needs. -/
def nodeSize (E : Env) (i : E.Id) (t : E.T i) : Nat :=
  1 + (E.cbor.encodeStr (E.key i)).flatten.length + ((E.vtable i).encode t).flatten.length

theorem nodeSize_eq (i : E.Id) (t : E.T i) : nodeSize E i t = 1 + (nodeBytes E i t).length := by
  simp only [nodeSize, nodeBytes, List.length_append]
  omega

theorem nodeElem_eq_nodeSize (bufLen : Nat) (i : E.Id) (t : E.T i) : nodeElem E bufLen i t =
    if nodeSize E i t ≤ bufLen then some (nodeData E i t) else none := by
  rw [nodeSize_eq]
  exact nodeElem_eq bufLen i t

theorem checkNodeSize_iff {i : E.Id} (h : Measured E i) (maxElemSize : Nat) (t : E.T i) :
    checkNodeSize maxElemSize E.cbor (E.vtable i) (E.key i) t = true ↔
      nodeSize E i t ≤ maxElemSize := by
  simp only [checkNodeSize, nodeSize, decide_eq_true_eq]
  rw [h.key, h.value t]

/-- One node with a value in the loop. -/
theorem writeLoop_node {w : World E} {i : E.Id} {t : E.T i} (hv : (w.state i).hasValue = true)
    (ht : (w.cells i).t = some t) (bufLen : Nat) (crc : Crc32) (bytesWritten ctr : Nat)
    (list : List E.Id) : writeLoop bufLen crc bytesWritten ctr (i :: list) w =
      (match nodeElem E bufLen i t with
      | none => fail (.appError .serialization)
      | some data => do
        let used ← push (.data data)
        writeLoop bufLen (crc.update data.keyVal) (bytesWritten + used) (ctr + 1) list) w := by
  show (if (w.cells i).state.hasValue then _ else _ : M E _) w = _
  rw [if_pos (show (w.cells i).state.hasValue = true from hv)]
  generalize (w.cells i).t = held at ht ⊢
  subst ht
  rfl

/-- A node is serialized, to its header, key and value, exactly if it fits the buffer;
the loop then pushes it, and fails without pushing it otherwise. The size check says
which of the two a buffer of the greatest element size will bring. -/
theorem size_check_predicts {i : E.Id} (h : Measured E i) (t : E.T i) (bufLen : Nat) :
    (∀ d, nodeElem E bufLen i t = some d ↔ nodeSize E i t ≤ bufLen ∧
      d.hdrKeyVal = SerData.V0_DATA ::
        ((E.cbor.encodeStr (E.key i)).flatten ++ ((E.vtable i).encode t).flatten)) ∧
    (∀ (w : World E) crc bytesWritten ctr list, (w.state i).hasValue = true →
      (w.cells i).t = some t → writeLoop bufLen crc bytesWritten ctr (i :: list) w =
        if nodeSize E i t ≤ bufLen then
          (do
            let used ← push (.data (nodeData E i t))
            writeLoop bufLen (crc.update (nodeBytes E i t)) (bytesWritten + used) (ctr + 1) list) w
        else .error (.error (.appError .serialization)) w) ∧
    (checkNodeSize bufLen E.cbor (E.vtable i) (E.key i) t = true ↔
      (nodeElem E bufLen i t).isSome = true) := by
  refine ⟨fun d => ?_, fun w crc bytesWritten ctr list hv ht => ?_, ?_⟩
  · rw [nodeElem_eq_nodeSize]
    by_cases hfit : nodeSize E i t ≤ bufLen
    · rw [if_pos hfit]
      constructor
      · intro hd
        exact ⟨hfit, Option.some.inj hd ▸ rfl⟩
      · intro hd
        obtain ⟨hdrKeyVal, hne⟩ := d
        obtain rfl : hdrKeyVal = _ := hd.2
        rfl
    · rw [if_neg hfit]
      exact ⟨nofun, fun hd => absurd hd.1 hfit⟩
  · rw [writeLoop_node hv ht, nodeElem_eq_nodeSize]
    by_cases hfit : nodeSize E i t ≤ bufLen
    · rw [if_pos hfit, if_pos hfit]
      rfl
    · rw [if_neg hfit, if_neg hfit]
      rfl
  · rw [checkNodeSize_iff h, nodeElem_eq_nodeSize]
    by_cases hfit : nodeSize E i t ≤ bufLen
    · rw [if_pos hfit]
      exact iff_of_true hfit rfl
    · rw [if_neg hfit]
      exact iff_of_false hfit nofun

theorem measured_twoSettings (i : twoSettings.Id) : Measured twoSettings i where
  key := (twoSettings_canonical i).len_eq
  value t := (decodeHead_encodeHead (m := 0) (by omega) (Nat.lt_of_lt_of_le (UInt8.toNat_lt t)
    (by decide)) []).2.symm

theorem size_check_predicts_setting :
    checkNodeSize 4 twoSettings.cbor (twoSettings.vtable settingA) (twoSettings.key settingA)
      (7 : UInt8) = true ↔ (nodeElem twoSettings 4 settingA (7 : UInt8)).isSome = true :=
  (size_check_predicts (measured_twoSettings settingA) (7 : UInt8) 4).2.2

/-! ## With debug assertions -/

/-- Why a call did not return `Ok` where debug assertions are enabled. -/
inductive DebugStop (ε : Type) where
  | stop (e : Stop ε)
  | panic

abbrev DebugM (E : Env) (α : Type) := EStateM (DebugStop E.Err) (World E) α

/-- Code without assertions. -/
def released {α : Type} (x : M E α) : DebugM E α := fun w =>
  match x w with
  | .ok a w' => .ok a w'
  | .error e w' => .error (.stop e) w'

def panicked {α : Type} : DebugM E α := throw .panic

/-- `serialize` into a buffer of `n` bytes: `none` where its assertion fails, that the
cursor stands where `len_with` says, whatever became of the encoding. -/
def debugSerialize {T : Type} (vtable : VTable T) (t : T) (n : Nat) : Option (Option (List UInt8)) :=
  let (cursor, res) := (Cursor.new n).encode (vtable.encode t)
  if cursor.position = vtable.cborLen t then some (if res then some cursor.written else none)
  else none

/-- `serialize_node`, the same. -/
def debugSerializeNode (cbor : Minicbor) {T : Type} (vtable : VTable T) (key : String) (t : T)
    (n : Nat) : Option (Option (List UInt8)) :=
  match (Cursor.new n).encode (cbor.encodeStr key) with
  | (_, false) => some none
  | (c, true) =>
    (debugSerialize vtable t (n - c.position)).map fun v => v.map fun v => c.written ++ v

/-- The data element for a node with a value. -/
def debugNodeElem (E : Env) (bufLen : Nat) (i : E.Id) (t : E.T i) : Option (Option SerData) :=
  match bufLen with
  | 0 => some none
  | n + 1 =>
    (debugSerializeNode E.cbor (E.vtable i) (E.key i) t n).map fun used =>
      used.bind fun used => SerData.new (0 :: used)

def debugWriteLoop (bufLen : Nat) (crc : Crc32) (bytesWritten ctr : Nat) :
    List E.Id → DebugM E (Crc32 × Nat × Nat)
  | [] => pure (crc, bytesWritten, ctr)
  | i :: list => do
    let cell := (← get).cells i
    if cell.state.hasValue then
      match cell.t with
      | none => throw (.stop .ub)
      | some t =>
        match debugNodeElem E bufLen i t with
        | none => panicked
        | some none => released (fail (.appError .serialization))
        | some (some data) => do
          let used ← released (push (.data data))
          debugWriteLoop bufLen (crc.update data.keyVal) (bytesWritten + used) (ctr + 1) list
    else debugWriteLoop bufLen crc bytesWritten ctr list

def debugWriteToFlash (bufLen : Nat) (seqNo : NonZeroU32) : DebugM E WriteReport := do
  let used ← released (push (.start seqNo))
  let (crc, bytesWritten, ctr) ← debugWriteLoop bufLen .new used 0 (← get).list
  let crc := crc.finalize E.crc
  let used ← released (push (.end seqNo crc))
  return ⟨seqNo, crc, ctr, bytesWritten + used⟩

def debugProcessWrites (bufLen : Nat) : DebugM E ProcessWriteCounters := do
  let w ← get
  match w.seqState.nextSeq with
  | none => released (fail (.appError .needsFirstRead))
  | some nextSeq =>
    if w.seqState.needsGc then released (fail (.appError .needsGarbageCollect))
    else
      match needsWriting w with
      | .error e => released (fail (.appError e))
      | .ok false => return ⟨0, 0⟩
      | .ok true => do
        let rpt ← debugWriteToFlash bufLen nextSeq
        let (range, total) ← released (verifyListInFlash rpt 0)
        released (modifySeqState fun s => s.insertGood E.sorter ⟨nextSeq, range⟩)
        released (modifyCells markWritten)
        return ⟨total, rpt.bytesWritten⟩

/-! ## Where the assertion fails -/

/-- A fresh cursor takes all chunks, or stops before the end of them. -/
theorem Cursor.encode_position : ∀ (chunks : List (List UInt8)) (c : Cursor),
    c.cap < c.position + chunks.flatten.length → c.position ≤ c.cap →
    (c.encode chunks).1.position < c.position + chunks.flatten.length
  | [], c, h, hc => by simp at h; omega
  | chunk :: chunks, c, h, hc => by
    rw [List.flatten_cons, List.length_append] at h ⊢
    unfold encode writeAll
    by_cases hfit : c.position + chunk.length ≤ c.cap
    · rw [if_pos hfit]
      have ih := Cursor.encode_position chunks { c with written := c.written ++ chunk }
        (by simp [position] at h ⊢; omega) (by simp [position] at hfit ⊢; omega)
      refine Nat.lt_of_lt_of_eq ih ?_
      simp only [position, List.length_append]
      omega
    · rw [if_neg hfit]
      dsimp only
      omega

/-- The assertion of `serialize` holds exactly if the value fits. -/
theorem debugSerialize_eq {i : E.Id} (h : Measured E i) (t : E.T i) (n : Nat) :
    debugSerialize (E.vtable i) t n = if ((E.vtable i).encode t).flatten.length ≤ n then
      some (some ((E.vtable i).encode t).flatten) else none := by
  unfold debugSerialize
  rw [h.value]
  by_cases hfit : ((E.vtable i).encode t).flatten.length ≤ n
  · rw [if_pos hfit, Cursor.encode_fits _ (Cursor.new n) (by show 0 + _ ≤ n; omega)]
    exact if_pos rfl
  · have hpos := Cursor.encode_position ((E.vtable i).encode t) (Cursor.new n)
      (by show n < 0 + _; omega) (Nat.zero_le n)
    have hzero : (Cursor.new n).position = 0 := rfl
    rw [if_neg hfit]
    exact if_neg (by omega)

/-- The buffer takes the key of a node and not its value. -/
def KeyAlone (E : Env) (bufLen : Nat) (i : E.Id) (t : E.T i) : Prop :=
  1 + (E.cbor.encodeStr (E.key i)).flatten.length ≤ bufLen ∧ bufLen < nodeSize E i t

instance (bufLen : Nat) (i : E.Id) (t : E.T i) : Decidable (KeyAlone E bufLen i t) :=
  inferInstanceAs (Decidable (_ ∧ _))

/-- Everywhere else the assertion changes nothing. -/
theorem debugNodeElem_eq {i : E.Id} (h : Measured E i) (t : E.T i) (bufLen : Nat) :
    debugNodeElem E bufLen i t =
      if KeyAlone E bufLen i t then none else some (nodeElem E bufLen i t) := by
  have hsize : nodeSize E i t = 1 + (E.cbor.encodeStr (E.key i)).flatten.length +
    ((E.vtable i).encode t).flatten.length := rfl
  rw [nodeElem_eq_nodeSize]
  cases bufLen with
  | zero =>
    rw [if_neg fun hk => absurd hk.1 (by omega), if_neg (by omega)]
    rfl
  | succ n =>
    unfold debugNodeElem debugSerializeNode
    dsimp only
    by_cases hk : (E.cbor.encodeStr (E.key i)).flatten.length ≤ n
    · have hpos : (Cursor.new n).position = 0 := rfl
      rw [Cursor.encode_fits _ (Cursor.new n) (by show 0 + _ ≤ n; omega)]
      dsimp only [Cursor.position, Cursor.new, List.nil_append]
      rw [debugSerialize_eq h]
      by_cases hv : ((E.vtable i).encode t).flatten.length ≤
          n - (E.cbor.encodeStr (E.key i)).flatten.length
      · rw [if_pos hv, if_neg fun hkey => absurd hkey.2 (by omega), if_pos (by omega)]
        rfl
      · rw [if_neg hv, if_pos ⟨by omega, by omega⟩]
        rfl
    · have hover := Cursor.encode_overflows (E.cbor.encodeStr (E.key i)) (Cursor.new n)
        (by show n < 0 + _; omega) (Nat.zero_le _)
      have hkey : ¬ KeyAlone E (n + 1) i t := fun hkey => by
        have := hkey.1
        omega
      rw [if_neg hkey, if_neg (by omega)]
      split
      · rfl
      · next h => rw [h] at hover; cases hover

/-! ## The run with assertions -/

/-- Of the nodes with a value, the first that does not fit the buffer has a key that
does. -/
def Crowded (bufLen : Nat) (cells : Cells E) (list : List E.Id) : Prop :=
  ∃ pre i post t, list = pre ++ i :: post ∧
    (∀ j ∈ pre, (cells j).state.hasValue = true →
      ∃ u, (cells j).t = some u ∧ nodeSize E j u ≤ bufLen) ∧
    (cells i).state.hasValue = true ∧ (cells i).t = some t ∧ KeyAlone E bufLen i t

theorem Crowded.cons {bufLen : Nat} {cells : Cells E} {list : List E.Id} {i : E.Id}
    (h : Crowded bufLen cells list) (hi : (cells i).state.hasValue = true →
      ∃ u, (cells i).t = some u ∧ nodeSize E i u ≤ bufLen) : Crowded bufLen cells (i :: list) := by
  obtain ⟨pre, j, post, t, rfl, hpre, hj⟩ := h
  refine ⟨i :: pre, j, post, t, rfl, fun k hk => ?_, hj⟩
  rcases List.mem_cons.mp hk with rfl | hk
  · exact hi
  · exact hpre k hk

/-- Pushing leaves the nodes alone. -/
theorem push_cells {elem : Elem} {w w' : World E} {used : Nat} (h : push elem w = .ok used w') :
    w'.cells = w.cells ∧ w'.list = w.list := by
  obtain ⟨_, _, rfl⟩ := (push_spec elem w).ok h
  exact ⟨rfl, rfl⟩

theorem debugWriteLoop_node {w : World E} {i : E.Id} {t : E.T i}
    (hv : (w.state i).hasValue = true) (ht : (w.cells i).t = some t) (bufLen : Nat) (crc : Crc32)
    (bytesWritten ctr : Nat) (list : List E.Id) :
    debugWriteLoop bufLen crc bytesWritten ctr (i :: list) w =
      (match debugNodeElem E bufLen i t with
      | none => panicked
      | some none => released (fail (.appError .serialization))
      | some (some data) => do
        let used ← released (push (.data data))
        debugWriteLoop bufLen (crc.update data.keyVal) (bytesWritten + used) (ctr + 1) list) w := by
  show (if (w.cells i).state.hasValue then _ else _ : DebugM E _) w = _
  rw [if_pos (show (w.cells i).state.hasValue = true from hv), ht]

theorem released_congr {α : Type} {x y : M E α} {w : World E} (h : x w = y w) :
    released x w = released y w := by
  simp only [released]
  rw [h]

/-- Two runs that part nowhere. -/
theorem bind_released {α β : Type} {x : DebugM E α} {y : M E α} {f : α → DebugM E β}
    {g : α → M E β} {w : World E} (hx : x w = released y w)
    (h : ∀ a w', y w = .ok a w' → f a w' = released (g a) w') :
    (x >>= f) w = released (y >>= g) w := by
  show EStateM.bind x f w = (match EStateM.bind y g w with | .ok b w' => _ | .error e w' => _)
  simp only [EStateM.bind]
  rw [hx]
  simp only [released]
  cases hy : y w with
  | ok a w' => exact h a w' hy
  | error e w' => rfl

theorem bind_panic {α β : Type} {x : DebugM E α} {w w' : World E} (f : α → DebugM E β)
    (h : x w = .error .panic w') : (x >>= f) w = .error .panic w' := by
  show EStateM.bind x f w = _
  simp only [EStateM.bind]
  rw [h]

theorem released_bind_ok {α β : Type} {x : M E α} {a : α} {w w' : World E} (f : α → DebugM E β)
    (h : x w = .ok a w') : (released x >>= f) w = f a w' := by
  show EStateM.bind (released x) f w = _
  simp only [EStateM.bind, released]
  rw [h]

/-- The loop over nodes none of which trips the assertion. -/
theorem debugWriteLoop_eq (hm : ∀ i, Measured E i) (bufLen : Nat) : ∀ (list : List E.Id)
    (crc : Crc32) (bytesWritten ctr : Nat) (w : World E), ¬ Crowded bufLen w.cells list →
    debugWriteLoop bufLen crc bytesWritten ctr list w =
      released (writeLoop bufLen crc bytesWritten ctr list) w
  | [], _, _, _, _, _ => rfl
  | i :: list, crc, bytesWritten, ctr, w, h => by
    by_cases hv : (w.state i).hasValue = true
    · cases ht : (w.cells i).t with
      | none =>
        have hdebug : debugWriteLoop bufLen crc bytesWritten ctr (i :: list) w =
            .error (.stop .ub) w := by
          show (if (w.cells i).state.hasValue then _ else _ : DebugM E _) w = _
          rw [if_pos (show (w.cells i).state.hasValue = true from hv), ht]
          rfl
        have hrun : writeLoop bufLen crc bytesWritten ctr (i :: list) w = (throw .ub : M E _) w := by
          show (if (w.cells i).state.hasValue then _ else _ : M E _) w = _
          rw [if_pos (show (w.cells i).state.hasValue = true from hv), ht]
        rw [hdebug, released_congr hrun]
        rfl
      | some t =>
        have hkey : ¬ KeyAlone E bufLen i t := fun hk =>
          h ⟨[], i, list, t, rfl, by simp, hv, ht, hk⟩
        rw [debugWriteLoop_node hv ht, debugNodeElem_eq (hm i), if_neg hkey,
          released_congr (writeLoop_node hv ht bufLen crc bytesWritten ctr list)]
        cases hd : nodeElem E bufLen i t with
        | none => rfl
        | some d =>
          refine bind_released rfl fun used w1 hp => ?_
          refine debugWriteLoop_eq hm bufLen list _ _ _ w1 fun hc => h (Crowded.cons ?_ fun _ => ?_)
          · exact (push_cells hp).1 ▸ hc
          · rw [nodeElem_eq_nodeSize] at hd
            split at hd
            · next hfit => exact ⟨t, ht, hfit⟩
            · cases hd
    · have hdebug : debugWriteLoop bufLen crc bytesWritten ctr (i :: list) w =
          debugWriteLoop bufLen crc bytesWritten ctr list w := congrFun (if_neg hv) w
      have hrun : writeLoop bufLen crc bytesWritten ctr (i :: list) w =
          writeLoop bufLen crc bytesWritten ctr list w := congrFun (if_neg hv) w
      rw [hdebug, released_congr hrun]
      exact debugWriteLoop_eq hm bufLen list crc bytesWritten ctr w fun hc =>
        h (hc.cons fun hval => absurd hval hv)

theorem push_none {w : World E} (hf : w.faults = .none) (elem : Elem) :
    push elem w = .ok (E.size elem) (w.withItems (w.items ++ [stored E w.call elem])) := by
  simp only [push, hf, Faults.none]
  rfl

/-- The loop over nodes one of which trips it, on a storage that takes everything. -/
theorem debugWriteLoop_panics (hm : ∀ i, Measured E i) {bufLen : Nat} : ∀ {list : List E.Id}
    (crc : Crc32) (bytesWritten ctr : Nat) {w : World E}, w.faults = .none →
    Crowded bufLen w.cells list →
    ∃ w', debugWriteLoop bufLen crc bytesWritten ctr list w = .error .panic w'
  | [], _, _, _, _, _, h => by
    obtain ⟨pre, i, post, t, hlist, _⟩ := h
    cases pre <;> cases hlist
  | i :: list, crc, bytesWritten, ctr, w, hf, h => by
    obtain ⟨pre, j, post, t, hlist, hpre, hv, ht, hkey⟩ := h
    cases pre with
    | nil =>
      obtain ⟨rfl, rfl⟩ := List.cons.inj hlist
      refine ⟨w, ?_⟩
      rw [debugWriteLoop_node hv ht, debugNodeElem_eq (hm i), if_pos hkey]
      rfl
    | cons k pre =>
      obtain ⟨rfl, rfl⟩ := List.cons.inj hlist
      have hrest : Crowded bufLen w.cells (pre ++ j :: post) :=
        ⟨pre, j, post, t, rfl, fun k' hk => hpre k' (List.mem_cons_of_mem _ hk), hv, ht, hkey⟩
      by_cases hvi : (w.state i).hasValue = true
      · obtain ⟨u, hu, hfit⟩ := hpre i List.mem_cons_self hvi
        have hno : ¬ KeyAlone E bufLen i u := fun hk => absurd hk.2 (Nat.not_lt.mpr hfit)
        obtain ⟨w', hw'⟩ := debugWriteLoop_panics hm (crc.update (nodeData E i u).keyVal)
          (bytesWritten + E.size (.data (nodeData E i u))) (ctr + 1)
          (w := w.withItems (w.items ++ [stored E w.call (.data (nodeData E i u))])) hf hrest
        refine ⟨w', ?_⟩
        rw [debugWriteLoop_node hvi hu, debugNodeElem_eq (hm i), if_neg hno, nodeElem_eq_nodeSize,
          if_pos hfit]
        exact (released_bind_ok _ (push_none hf _)).trans hw'
      · obtain ⟨w', hw'⟩ := debugWriteLoop_panics hm crc bytesWritten ctr hf hrest
        exact ⟨w', Eq.trans (congrFun (if_neg hvi) w) hw'⟩

theorem debugWriteToFlash_eq (hm : ∀ i, Measured E i) {w : World E} {bufLen : Nat}
    (h : ¬ Crowded bufLen w.cells w.list) (s : NonZeroU32) :
    debugWriteToFlash bufLen s w = released (writeToFlash bufLen s) w := by
  refine bind_released rfl fun used w1 hp => ?_
  obtain ⟨hcells, hlist⟩ := push_cells hp
  refine bind_released (x := get) (y := get) rfl fun a w2 hget => ?_
  cases hget
  refine bind_released (debugWriteLoop_eq hm bufLen _ _ _ _ _ ?_) fun p w3 _ => ?_
  · rw [hcells, hlist]
    exact h
  · obtain ⟨crc, bytes, ctr⟩ := p
    exact bind_released rfl fun used w4 _ => rfl

theorem debugWriteToFlash_panics (hm : ∀ i, Measured E i) {w : World E} {bufLen : Nat}
    (hf : w.faults = .none) (h : Crowded bufLen w.cells w.list) (s : NonZeroU32) :
    ∃ w', debugWriteToFlash bufLen s w = .error .panic w' := by
  obtain ⟨w', hw'⟩ := debugWriteLoop_panics hm .new (E.size (.start s)) 0
    (w := w.withItems (w.items ++ [stored E w.call (.start s)])) hf h
  refine ⟨w', (released_bind_ok _ (push_none hf _)).trans ?_⟩
  -- reading the list does nothing to it
  exact (released_bind_ok (x := get) _ rfl).trans (bind_panic _ hw')

theorem writeDue_needs {w : World E} {s : NonZeroU32} (h : writeDue w = .ok (some s)) :
    needsWriting w = .ok true := by
  have hn := writeDue_nextSeq h
  have hg := writeDue_clean h
  simp only [writeDue, hn, hg, Bool.false_eq_true, if_false] at h
  cases hw : needsWriting w with
  | error e => rw [hw] at h; cases h
  | ok due =>
    cases due with
    | true => rfl
    | false => rw [hw] at h; cases h

theorem debugProcessWrites_eq (hm : ∀ i, Measured E i) {w : World E} {bufLen : Nat}
    (h : ∀ s, writeDue w = .ok (some s) → ¬ Crowded bufLen w.cells w.list) :
    debugProcessWrites bufLen w = released (processWrites bufLen) w := by
  refine bind_released (x := get) (y := get) rfl fun a w' hget => ?_
  cases hget
  dsimp only
  cases hn : w.seqState.nextSeq with
  | none => rfl
  | some s =>
    dsimp only
    by_cases hg : w.seqState.needsGc = true
    · rw [if_pos hg, if_pos hg]
    · rw [if_neg hg, if_neg hg]
      cases hw : needsWriting w with
      | error e => rfl
      | ok due =>
        cases due with
        | false => rfl
        | true =>
          have hdue : writeDue w = .ok (some s) := by
            simp only [writeDue, hn, hw, hg]
            rfl
          refine bind_released (debugWriteToFlash_eq hm (h s hdue) s) fun rpt w1 _ => ?_
          refine bind_released rfl fun p w2 _ => ?_
          exact bind_released rfl fun _ w3 _ => bind_released rfl fun _ w4 _ => rfl

theorem debugProcessWrites_panics (hm : ∀ i, Measured E i) {w : World E} {bufLen : Nat}
    {s : NonZeroU32} (hf : w.faults = .none) (hdue : writeDue w = .ok (some s))
    (h : Crowded bufLen w.cells w.list) : ∃ w', debugProcessWrites bufLen w = .error .panic w' := by
  obtain ⟨w', hw'⟩ := debugWriteToFlash_panics hm hf h s
  refine ⟨w', ?_⟩
  show (match w.seqState.nextSeq with
    | none => _
    | some nextSeq => _ : DebugM E _) w = _
  rw [writeDue_nextSeq hdue]
  dsimp only
  rw [if_neg (by rw [writeDue_clean hdue]; nofun), writeDue_needs hdue]
  exact bind_panic _ hw'

/-- The assertion of `serialize` fails for every value that does not fit. Where it is
enabled, whatever the storage does, `process_writes` does what it does without it
exactly if no record is due or, of the nodes with a value, the first that does not
fit the buffer has a key that does not fit either. -/
theorem oversized_node_panics_iff (hm : ∀ i, Measured E i) :
    (∀ i (t : E.T i) (n : Nat), debugSerialize (E.vtable i) t n ≠ none ↔
      ((E.vtable i).encode t).flatten.length ≤ n) ∧
    ∀ (w : World E) (bufLen : Nat), (∀ fs, debugProcessWrites bufLen (w.withFaults fs) =
      released (processWrites bufLen) (w.withFaults fs)) ↔
        ∀ s, writeDue w = .ok (some s) → ¬ Crowded bufLen w.cells w.list := by
  refine ⟨fun i t n => ?_, fun w bufLen => ⟨fun h s hdue hc => ?_, fun h fs => ?_⟩⟩
  · rw [debugSerialize_eq (hm i)]
    by_cases hfit : ((E.vtable i).encode t).flatten.length ≤ n
    · rw [if_pos hfit]
      exact iff_of_true nofun hfit
    · rw [if_neg hfit]
      exact iff_of_false (fun hno => hno rfl) hfit
  · obtain ⟨w', hw'⟩ := debugProcessWrites_panics (w := w.withFaults .none) hm rfl hdue hc
    have heq := h .none
    rw [hw'] at heq
    simp only [released] at heq
    split at heq <;> cases heq
  · exact debugProcessWrites_eq hm h

/-- The first write of the first setting. -/
def firstFlush : World twoSettings := flushing [] (SeqState.scan twoSettings []).clean

theorem oversized_node_panics_setting :
    (∀ fs, debugProcessWrites 4 (firstFlush.withFaults fs) =
      released (processWrites 4) (firstFlush.withFaults fs)) ↔
        ∀ s, writeDue firstFlush = .ok (some s) → ¬ Crowded 4 firstFlush.cells firstFlush.list :=
  (oversized_node_panics_iff measured_twoSettings).2 firstFlush 4

/-- A buffer that the key fills: the assertion fails where an error is reported without
it, and the record has been started. -/
theorem oversized_setting_panics : ∃ w w', debugProcessWrites 3 firstFlush = .error .panic w ∧
    w.items = [stored twoSettings 0 (.start NonZeroU32.one)] ∧
    processWrites 3 firstFlush = .error (.error (.appError .serialization)) w' :=
  ⟨_, _, rfl, rfl, rfl⟩

end CfgNoodle

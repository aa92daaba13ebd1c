import CfgNoodle.Hydration

/-! # The record that a boot selects

How the valid records change when a record, or a part of one, is pushed, what a
successful verification has matched, and what the next boot gives its nodes. -/
namespace CfgNoodle
open Framing Outcome
open scoped List
variable {E : Env}

/-! ## Pushing a record -/

/-- An element that starts a record ends whatever stood open before it. -/
theorem barrier_start (call : Nat) (s : NonZeroU32) :
    Barrier (recordGrammar E.crc) (stored E call (.start s)) :=
  barrier_of_opens _ (k := s) rfl

theorem validRecords_append_record (items : List Item) (s : NonZeroU32) (ds : List SerData)
    (call : Nat) : validRecords E (items ++ recordItems E s ds call) =
      validRecords E items ++ [⟨s, items.length, recordItems E s ds call⟩] := by
  have hrec := isRecord_recordItems (E := E) s ds call
  have hsplit : recordItems E s ds call = stored E call (.start s) ::
      (ds.map Elem.data ++ [Elem.end s (E.crc (crcBytes ds))]).map (stored E call) := rfl
  unfold validRecords frames
  rw [hsplit, framesFrom_append_barrier _ (barrier_start call s), ← hsplit, Nat.zero_add,
    framesFrom_frame _ hrec]

/-- Where no item ends a record, none begins. -/
theorem framesFrom_no_end {l : List Item} (h : ∀ x ∈ l, ∀ s c, x.data ≠ some (.end s c)) (n : Nat) :
    framesFrom (recordGrammar E.crc) n l = [] := by
  refine List.eq_nil_iff_forall_not_mem.mpr fun f hf => ?_
  obtain ⟨pre, _, hk, hp⟩ := (mem_framesFrom _).mp hf
  obtain ⟨o, bs, c, hseg, _, _, hc, _⟩ := IsRecord.elim hk
  refine h c (hp.subset ?_) _ _ hc
  rw [hseg]; simp

theorem barrier_undecodable {it : Item} (h : it.data = none) : Barrier (recordGrammar E.crc) it := by
  refine ⟨?_, fun k bs => ?_⟩
  · show it.isBody = false
    unfold Item.isBody
    rw [h]
  · show it.closes E.crc k bs = false
    unfold Item.closes
    rw [h]

/-- A part of a record makes no new valid record, unless it is all of it. -/
theorem validRecords_append_partly (items : List Item) {part : List Item} {fs : Faults E.Err} {call : Nat}
    {s : NonZeroU32} {ds : List SerData} (h : Partly fs call (recordElems E s ds) part) :
    validRecords E (items ++ part) = validRecords E items ∨
      (fs.CanLeave .whole ∧ part = recordItems E s ds call) := by
  -- a strict part of the record's elements has no `End`
  have hstrict : ∀ es rest : List Elem, rest ≠ [] → es ++ rest = recordElems E s ds →
      es <+: .start s :: ds.map .data := by
    intro es rest hne heq
    obtain ⟨init, z, rfl⟩ : ∃ init z, rest = init ++ [z] := by
      rcases List.eq_nil_or_concat rest with h | ⟨init, z, h⟩
      · exact absurd h hne
      · exact ⟨init, z, by simpa using h⟩
    unfold recordElems at heq
    rw [← List.append_assoc, ← List.cons_append] at heq
    exact ⟨init, (List.append_inj' heq rfl).1⟩
  have hnone : ∀ es : List Elem, es <+: .start s :: ds.map .data → ∀ tail : List Item,
      (∀ x ∈ tail, x.data = none) →
      validRecords E (items ++ (es.map (stored E call) ++ tail)) = validRecords E items := by
    intro es hes tail htail
    have hend : ∀ x ∈ es.map (stored E call) ++ tail, ∀ s' c, x.data ≠ some (.end s' c) := by
      intro x hx s' c hd
      rcases List.mem_append.mp hx with hx | hx
      · obtain ⟨e, he, rfl⟩ := List.mem_map.mp hx
        have he' := hes.subset he
        rw [show e = .end s' c from Option.some.inj hd] at he'
        simp at he'
      · rw [htail x hx] at hd; cases hd
    have hbar : ∀ x rest, es.map (stored E call) ++ tail = x :: rest →
        Barrier (recordGrammar E.crc) x := by
      intro x rest heq
      cases es with
      | nil =>
        rw [List.map_nil, List.nil_append] at heq
        exact barrier_undecodable (htail x (by rw [heq]; exact List.mem_cons_self))
      | cons e es =>
        obtain ⟨rfl, _⟩ := List.cons_prefix_cons.mp hes
        rw [List.map_cons, List.cons_append] at heq
        obtain ⟨rfl, _⟩ := List.cons.inj heq
        exact barrier_start call s
    cases hl : es.map (stored E call) ++ tail with
    | nil => rw [List.append_nil]
    | cons x rest =>
      unfold validRecords frames
      rw [framesFrom_append_barrier _ (hbar x rest hl), ← hl, framesFrom_no_end hend, List.append_nil]
  cases h with
  | some es rest hne h =>
    have := hnone es (hstrict es rest hne h) [] (by simp)
    rw [List.append_nil] at this
    exact Or.inl this
  | torn es rest n hne h => exact Or.inl (hnone es (hstrict es rest hne h) _ (by simp))
  | whole hl es rest h =>
    by_cases hne : rest = []
    · subst hne
      rw [List.append_nil] at h
      exact Or.inr ⟨hl, by rw [recordItems, h]⟩
    · have := hnone es (hstrict es rest hne h) [] (by simp)
      rw [List.append_nil] at this
      exact Or.inl this

theorem keyVals_eq_crcBytes (items : List Item) : keyVals items = crcBytes (datas items) := by
  induction items with
  | nil => rfl
  | cons it items ih =>
    unfold datas at ih ⊢
    rw [keyVals, List.map_cons, List.flatten_cons, ← keyVals, ih, List.filterMap_cons]
    unfold Item.keyVal Item.serData
    split <;> simp_all [crcBytes]

theorem length_datas {items : List Item} (h : ∀ it ∈ items, ∃ d, it.data = some (.data d)) :
    (datas items).length = items.length := by
  induction items with
  | nil => rfl
  | cons it items ih =>
    obtain ⟨d, hd⟩ := h it List.mem_cons_self
    have ih := ih fun x hx => h x (List.mem_cons_of_mem _ hx)
    unfold datas at ih ⊢
    simp [Item.serData, hd, ih]

/-- A verification that succeeds has matched the valid record at the first `Start`
with its number, and counts one item more. -/
theorem Verifies.record {rpt : WriteReport} {items : List Item} {range : RangeInclusive}
    (hv : Verifies E rpt items range) : ∃ f ∈ validRecords E items, f.key = rpt.seq ∧
      (∀ x ∈ items.take f.start, x.data ≠ some (.start rpt.seq)) ∧
      range = ⟨f.start, f.last + 1⟩ ∧ E.crc (crcBytes (datas f.seg)) = rpt.crc ∧
      (datas f.seg).length = rpt.ct := by
  obtain ⟨pre, o, rest, n, rfl, hpre, ho, ⟨bs, c, post, rfl, hb, hc, hcrc, hlen, rfl⟩, rfl⟩ := hv
  have hrec : IsRecord E rpt.seq (o :: (bs ++ [c])) := by
    refine ⟨o, bs, c, rfl, ?_, ?_, ?_⟩
    · show o.opens = some rpt.seq
      unfold Item.opens
      rw [ho]
    · intro b hb'
      show b.isBody = true
      obtain ⟨d, hd⟩ := hb b hb'
      unfold Item.isBody
      rw [hd]
    · show c.closes E.crc rpt.seq bs = true
      unfold Item.closes
      rw [hc, ← hcrc]
      simp
  have hdatas : datas (o :: (bs ++ [c])) = datas bs := by
    simp [datas, Item.serData, ho, hc]
  refine ⟨⟨rpt.seq, pre.length, o :: (bs ++ [c])⟩, ?_, rfl, ?_, ?_, ?_, ?_⟩
  · exact (mem_frames _).mpr ⟨pre, post, rfl, hrec, by simp⟩
  · rw [List.take_left]
    exact hpre
  · simp [Frame.last, Nat.add_assoc]
  · rw [hdatas, ← keyVals_eq_crcBytes]
    exact hcrc
  · rw [hdatas, length_datas hb]
    exact hlen

theorem Verifies.frame {rpt : WriteReport} {items : List Item} {range : RangeInclusive}
    (hv : Verifies E rpt items range) : ∃ f ∈ validRecords E items, f.key = rpt.seq ∧
      (∀ x ∈ items.take f.start, x.data ≠ some (.start rpt.seq)) ∧
      range = ⟨f.start, f.last + 1⟩ := by
  obtain ⟨f, hf, hkey, hpre, hrange, _⟩ := hv.record
  exact ⟨f, hf, hkey, hpre, hrange⟩

/-- Where no valid record has the number, a verification that succeeds has
matched the record just pushed, and the number starts no other item. -/
theorem Verifies.new_record {items : List Item} {s : NonZeroU32} {ds : List SerData} {call : Nat}
    {rpt : WriteReport} {range : RangeInclusive} (hseq : rpt.seq = s)
    (hnew : ∀ f ∈ validRecords E items, f.key ≠ s)
    (hv : Verifies E rpt (items ++ recordItems E s ds call) range) :
    (∀ x ∈ items, x.data ≠ some (.start s)) ∧
      range = ⟨items.length, items.length + (recordItems E s ds call).length⟩ := by
  obtain ⟨f, hf, hkey, hpre, rfl⟩ := hv.frame
  rw [validRecords_append_record, List.mem_append, List.mem_singleton] at hf
  rcases hf with hf | rfl
  · exact absurd (hkey.trans hseq) (hnew f hf)
  · rw [List.take_left, hseq] at hpre
    exact ⟨hpre, rfl⟩

/-- Where the number starts no item, the record just pushed is verified. -/
theorem verifies_of_no_start {items : List Item} {s : NonZeroU32} (ds : List SerData) (call : Nat)
    (h : ∀ x ∈ items, x.data ≠ some (.start s)) :
    ∃ range, Verifies E ⟨s, E.crc (crcBytes ds), ds.length, 0⟩ (items ++ recordItems E s ds call)
      range := by
  refine ⟨_, items, stored E call (.start s), _, ds.length, rfl, h, rfl, ?_, rfl⟩
  refine ⟨ds.map fun d => stored E call (.data d), stored E call (.end s (E.crc (crcBytes ds))), [],
    by simp, ?_, rfl, ?_, by simp, by simp⟩
  · intro b hb
    obtain ⟨d, _, rfl⟩ := List.mem_map.mp hb
    exact ⟨d, rfl⟩
  · rw [List.nil_append, keyVals_stored]

/-! ## The greatest record -/

/-- A record above all others is the one a scan selects. -/
theorem scan_highest_of_greatest {items : List Item} {f : Record} (hf : f ∈ validRecords E items)
    (hmax : ∀ g ∈ validRecords E items, g ≠ f → g.key.get < f.key.get) :
    (SeqState.scan E items).highestSeen = some (goodOf f) := by
  rcases scan_cases (E := E) items with ⟨hnil, _⟩ | ⟨r, hr⟩
  · have : goodOf f ∈ goodRecords E items := List.mem_map_of_mem hf
    rw [hnil] at this; cases this
  · obtain ⟨g, hg, rfl⟩ := List.mem_map.mp hr.mem
    by_cases hgf : g = f
    · rw [hr.highest, hgf]
    · have h1 := hmax g hg hgf
      have h2 := hr.max (goodOf f) (List.mem_map_of_mem hf)
      exact absurd h2 (Nat.not_le_of_lt h1)

/-- After a record with a number above all others, that record is selected. -/
theorem scan_highest_append {items : List Item} {s : NonZeroU32} (ds : List SerData) (call : Nat)
    (hmax : ∀ f ∈ validRecords E items, f.key.get < s.get) :
    (SeqState.scan E (items ++ recordItems E s ds call)).highestSeen =
      some (goodOf ⟨s, items.length, recordItems E s ds call⟩) := by
  refine scan_highest_of_greatest ?_ fun g hg hne => ?_
  · rw [validRecords_append_record]; simp
  · rw [validRecords_append_record, List.mem_append, List.mem_singleton] at hg
    exact hmax g (hg.resolve_right hne)

/-! ## The next boot -/

/-- A new list with these nodes on a storage. -/
def World.bootWith (items : List Item) (list : List E.Id) : World E := { World.boot items with list }

/-- What the next boot gives a node: the value that the node with its key had, as
its own codec reads it, or nothing where no node with a value had it. -/
structure Restored (w : World E) (i : E.Id) (c : Cell (E.T i)) : Prop where
  own : i ∈ w.list → (w.state i).hasValue = true → c = ⟨.validNoWriteNeeded, (w.cells i).t⟩
  value : ∀ j ∈ w.list, (w.state j).hasValue = true → E.key j = E.key i → ∀ t,
    (w.cells j).t = some t → c = deserialize (E.vtable i) ((E.vtable j).encode t).flatten Cell.new
  absent : (∀ j ∈ w.list, (w.state j).hasValue = true → E.key j ≠ E.key i) →
    c = ⟨.nonResident, none⟩

/-- Booting any nodes with distinct keys on the storage gives them the values of
the nodes of `w`. -/
def Restores (w : World E) (items : List Item) : Prop :=
  ∀ list : List E.Id, (list.map E.key).Nodup → ∃ c w', processReads (World.bootWith items list) =
    .ok c w' ∧ ∀ i ∈ list, Restored w i (w'.cells i)

/-- Without faults `process_reads` returns, and this is the state it leaves. -/
theorem processReads_run {w : World E} (hl : Located w.items w.seqState) (hf : w.faults = .none) :
    ∃ c, processReads w = .ok c ((w.withSeq (populate E w.items w.seqState)).withCells
      (readCells w (populate E w.items w.seqState))) := by
  rcases (processReads_spec hl).cases with ⟨c, w', hrun, r, ⟨n, hp⟩, rfl⟩ | ⟨e, w', _, ⟨n, f, r, hs⟩, _⟩
  · rw [hf] at hp
    have hr : r = [] := by rw [hp.2]; simp [Faults.none]
    refine ⟨c, hrun.trans ?_⟩
    rw [hr]
    congr 1
    unfold World.withReads World.withCells World.withSeq
    simp only [hf]
    rfl
  · rw [hf] at hs
    exact absurd rfl hs.ne_nil

/-- A node that is still `Initial` when the read is done has no data. -/
def Cell.settle {T : Type} (c : Cell T) : Cell T :=
  if c.state = .initial then { c with state := .nonResident } else c

theorem settle_deserialize {T : Type} (vtable : VTable T) (body : List UInt8) (c : Cell T) :
    (deserialize vtable body c).settle = deserialize vtable body c :=
  if_neg (deserialize_state vtable body c)

/-- What a completed `process_reads` does to a node. -/
theorem readCells_apply {w : World E} (hnd : (w.list.map E.key).Nodup) (s : SeqState E.kept)
    {i : E.Id} (hi : i ∈ w.list) : readCells w s i =
      (offered (E.vtable i) (bodyFor E.cbor (E.key i) (recordDatas w.items s)) (w.cells i)).settle := by
  unfold readCells markInitialNonresident Cell.settle
  rw [hydrateAll_apply hnd hi]
  simp only [hi, true_and]

/-- What a node that waits for its data is given from the data elements of a
record: the value under its key, or nothing. -/
def hydratedFrom (E : Env) (ds : List SerData) (i : E.Id) : Cell (E.T i) :=
  match bodyFor E.cbor (E.key i) ds with
  | none => ⟨.nonResident, none⟩
  | some body => deserialize (E.vtable i) body Cell.new

theorem settle_offered_new (ds : List SerData) (i : E.Id) :
    (offered (E.vtable i) (bodyFor E.cbor (E.key i) ds) Cell.new).settle = hydratedFrom E ds i := by
  unfold hydratedFrom
  cases bodyFor E.cbor (E.key i) ds with
  | none => rfl
  | some body => exact settle_deserialize (E.vtable i) body Cell.new

theorem writeDatas_isSome {bufLen : Nat} {cells : Cells E} : ∀ {list : List E.Id},
    (writeDatas bufLen cells list).2 = none → ∀ {i : E.Id}, i ∈ list →
    (cells i).state.hasValue = true → ∃ t, (cells i).t = some t ∧ (nodeElem E bufLen i t).isSome = true
  | j :: list, hw, i, hi, hv => by
    rw [writeDatas] at hw
    by_cases hj : (cells j).state.hasValue = true
    · rw [if_pos hj] at hw
      cases ht : (cells j).t with
      | none => rw [ht] at hw; cases hw
      | some t =>
        rw [ht] at hw
        dsimp only at hw
        cases hd : nodeElem E bufLen j t with
        | none => rw [hd] at hw; cases hw
        | some d =>
          rw [hd] at hw
          rcases List.mem_cons.mp hi with rfl | hi
          · exact ⟨t, ht, by rw [hd]; rfl⟩
          · exact writeDatas_isSome hw hi hv
    · rw [if_neg hj] at hw
      rcases List.mem_cons.mp hi with rfl | hi
      · exact absurd hv hj
      · exact writeDatas_isSome hw hi hv

/-- Where a boot selects the record that was written for the nodes of `w`, it
restores their values. -/
theorem restores_of_highest {w : World E} {items : List Item} {f : Record} {bufLen : Nat}
    (hk : ∀ i, E.cbor.Canonical (E.key i))
    (hcodec : ∀ i (t : E.T i), (E.vtable i).decode ((E.vtable i).encode t).flatten = some t)
    (hnd : (w.list.map E.key).Nodup) (hw : (writeDatas bufLen w.cells w.list).2 = none)
    (hf : f ∈ validRecords E items) (hsel : (SeqState.scan E items).highestSeen = some (goodOf f))
    (hds : datas f.seg = w.toWrite bufLen) : Restores w items := by
  intro list hlist
  obtain ⟨c, hrun⟩ := processReads_run (w := World.bootWith items list) (located_new items) rfl
  refine ⟨c, _, hrun, fun i hi => ?_⟩
  have hdatas : recordDatas items (populate E items SeqState.new) = w.toWrite bufLen := by
    rw [populate_new]
    unfold recordDatas
    rw [hsel]
    exact (datasAt_start hf).trans hds
  have hcell : readCells (World.bootWith items list) (populate E items SeqState.new) i =
      (offered (E.vtable i) (bodyFor E.cbor (E.key i) (w.toWrite bufLen)) Cell.new).settle := by
    rw [readCells_apply (w := World.bootWith items list) hlist _ hi]
    show (offered _ (bodyFor _ _ (recordDatas items _)) Cell.new).settle = _
    rw [hdatas]
  show Restored w i (readCells (World.bootWith items list) (populate E items SeqState.new) i)
  rw [hcell]
  -- what the record has for a key that some node with a value has
  have hvalue : ∀ j ∈ w.list, (w.state j).hasValue = true → E.key j = E.key i → ∀ t,
      (w.cells j).t = some t →
      (offered (E.vtable i) (bodyFor E.cbor (E.key i) (w.toWrite bufLen)) Cell.new).settle =
        deserialize (E.vtable i) ((E.vtable j).encode t).flatten Cell.new := by
    intro j hj hv hkey t ht
    unfold World.toWrite
    rw [← hkey, bodyFor_writeDatas hk hnd hw hj hv ht]
    exact settle_deserialize _ _ _
  refine ⟨fun hmem hv => ?_, hvalue, fun habs => ?_⟩
  · obtain ⟨t, ht, _⟩ := writeDatas_isSome hw hmem hv
    rw [hvalue i hmem hv rfl t ht, ht]
    unfold deserialize
    rw [hcodec]
  · unfold World.toWrite
    rw [bodyFor_writeDatas_none bufLen hk habs]
    rfl

end CfgNoodle

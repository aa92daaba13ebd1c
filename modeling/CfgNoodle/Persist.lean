import CfgNoodle.Latest
import CfgNoodle.Wire

/-! # Writing and reading back

A record that `process_writes` reports as written is the one the next boot
reads. A boot can write to its storage unless a stray `Start` with the first
number makes the verification look in the wrong place, and a write that failed
half way leaves just such a `Start` behind. -/
namespace CfgNoodle
open Framing Outcome
open scoped List
variable {E : Env}

/-! ## The number of the next record -/

/-- The number a scan hands out is above every valid record. -/
theorem scan_nextSeq_above {items : List Item} {s : NonZeroU32}
    (h : (SeqState.scan E items).nextSeq = some s) :
    ∀ f ∈ validRecords E items, f.key.get < s.get := by
  intro f hf
  have hgood : goodOf f ∈ goodRecords E items := List.mem_map_of_mem hf
  rcases scan_cases (E := E) items with ⟨hnil, _⟩ | ⟨r, hr⟩
  · rw [hnil] at hgood; cases hgood
  · rw [hr.nextSeq, NonZeroU32.checkedAdd_eq_some] at h
    have hle : f.key.get ≤ r.seq.get := hr.max (goodOf f) hgood
    omega

/-- A scan finds no next number exactly if a valid record has the last one. -/
theorem scan_nextSeq_eq_none {items : List Item} : (SeqState.scan E items).nextSeq = none ↔
    ∃ f ∈ validRecords E items, f.key.get = NonZeroU32.MAX := by
  constructor
  · intro hnone
    rcases scan_cases (E := E) items with ⟨_, h⟩ | ⟨r, hr⟩
    · rw [h] at hnone; cases hnone
    · obtain ⟨f, hf, rfl⟩ := List.mem_map.mp hr.mem
      exact ⟨f, hf, NonZeroU32.checkedAdd_one_eq_none.mp (hr.nextSeq.symm.trans hnone)⟩
  · rintro ⟨f, hf, hmax⟩
    by_contra hne
    obtain ⟨n, hn⟩ := Option.ne_none_iff_exists'.mp hne
    have habove := scan_nextSeq_above hn f hf
    have hlt := n.lt
    unfold NonZeroU32.MAX at hmax
    omega

theorem scan_nextSeq_ne_none {items : List Item}
    (hmax : ∀ f ∈ validRecords E items, f.key.get < NonZeroU32.MAX) :
    (SeqState.scan E items).nextSeq ≠ none := by
  intro hnone
  obtain ⟨f, hf, hlast⟩ := scan_nextSeq_eq_none.mp hnone
  exact (hmax f hf).ne hlast

theorem writeDue_nextSeq {w : World E} {s : NonZeroU32} (h : writeDue w = .ok (some s)) :
    w.seqState.nextSeq = some s := by
  simp only [writeDue] at h
  cases hn : w.seqState.nextSeq with
  | none => rw [hn] at h; cases h
  | some s' =>
    rw [hn] at h
    dsimp only at h
    split at h
    · cases h
    · cases hw : needsWriting w with
      | error e => rw [hw] at h; cases h
      | ok due =>
        rw [hw] at h
        cases due with
        | false => cases h
        | true => exact Except.ok.inj h

theorem writeDue_clean {w : World E} {s : NonZeroU32} (h : writeDue w = .ok (some s)) :
    w.seqState.needsGc = false := by
  simp only [writeDue] at h
  cases hn : w.seqState.nextSeq with
  | none => rw [hn] at h; cases h
  | some s' =>
    rw [hn] at h
    dsimp only at h
    split at h
    · cases h
    · next hg => simpa using hg

/-- A cache as it is after a complete scan, with the collection done or not. -/
theorem scanned_after_garbage {w0 w : World E} {c : ProcessGarbageCounters}
    (hscan : w0.seqState = SeqState.scan E w0.items) (hgc : processGarbage w0 = .ok c w) :
    w.seqState.nextSeq = (SeqState.scan E w.items).nextSeq := by
  rcases (processGarbage_spec w0).ok hgc with ⟨_, rfl⟩ | ⟨_, fs, _, rfl⟩
  · rw [hscan]
  · rfl

theorem datas_recordItems (s : NonZeroU32) (ds : List SerData) (call : Nat) :
    datas (recordItems E s ds call) = ds := by
  unfold datas recordItems recordElems stored
  simp only [List.map_cons, List.map_append, List.map_map, List.map_nil, List.filterMap_cons,
    List.filterMap_append, Item.serData, List.filterMap_nil, List.append_nil]
  rw [List.filterMap_map]
  exact List.filterMap_some

/-- The next boot restores the nodes from a record just written above all others. -/
theorem restores_append {w : World E} {bufLen : Nat} {s : NonZeroU32} {items : List Item}
    (hk : ∀ i, E.cbor.Canonical (E.key i))
    (hcodec : ∀ i (t : E.T i), (E.vtable i).decode ((E.vtable i).encode t).flatten = some t)
    (hnd : (w.list.map E.key).Nodup) (hw : (writeDatas bufLen w.cells w.list).2 = none)
    (habove : ∀ f ∈ validRecords E items, f.key.get < s.get) (call : Nat) :
    Restores w (items ++ recordItems E s (w.toWrite bufLen) call) := by
  refine restores_of_highest hk hcodec hnd hw ?_ (scan_highest_append _ call habove)
    (datas_recordItems s _ call)
  rw [validRecords_append_record]
  simp

/-! ## The round trip -/

/-- **What is written is what the next boot reads**: whatever the storage held,
after a complete scan of it and the collection it asks for, a call of
`process_writes` that pushes a record and returns `Ok` has made that record the
one every later boot takes its values from. -/
theorem persist_reload_round_trip {w0 w w' : World E} {bufLen : Nat} {c : ProcessGarbageCounters}
    {c' : ProcessWriteCounters} (hk : ∀ i, E.cbor.Canonical (E.key i))
    (hcodec : ∀ i (t : E.T i), (E.vtable i).decode ((E.vtable i).encode t).flatten = some t)
    (hscan : w0.seqState = SeqState.scan E w0.items) (hgc : processGarbage w0 = .ok c w)
    (hnd : (w.list.map E.key).Nodup) (hwrite : processWrites bufLen w = .ok c' w')
    (hpush : w'.items ≠ w.items) : Restores w w'.items := by
  rcases (processWrites_spec bufLen w).ok hwrite with ⟨_, rfl⟩ | ⟨s, range, fs, hdue, _, hnone, _, rfl⟩
  · exact absurd rfl hpush
  · have hnext := (scanned_after_garbage hscan hgc).symm.trans (writeDue_nextSeq hdue)
    exact restores_append hk hcodec hnd hnone (scan_nextSeq_above hnext) w.call

/-- A stored record, and before it the `Start` of one that was never finished. -/
def strayAndOne : List Item :=
  stored twoSettings 0 (.start NonZeroU32.two) :: recordItems twoSettings NonZeroU32.one [dataA 1] 1

set_option maxRecDepth 4000 in
/-- The collection removes the `Start` whose number the write uses. -/
theorem persist_reload_stray : ∃ c w c' w',
    processGarbage (flushing strayAndOne (SeqState.scan twoSettings strayAndOne)) = .ok c w ∧
      w.items = recordItems twoSettings NonZeroU32.one [dataA 1] 1 ∧
      processWrites 64 w = .ok c' w' ∧ Restores w w'.items := by
  refine ⟨_, _, _, _, rfl, by decide +kernel, rfl, ?_⟩
  exact @persist_reload_round_trip twoSettings
    (flushing strayAndOne (SeqState.scan twoSettings strayAndOne)) _ _ 64 _ _
    twoSettings_canonical settings_codec rfl rfl (List.nodup_singleton _) rfl (by decide +kernel)

/-! ## Writing after a boot -/

/-- Every node with a value fits a buffer of this length. -/
def Fits (bufLen : Nat) (w : World E) : Prop :=
  ∀ i ∈ w.list, (w.state i).hasValue = true →
    ∃ t, (w.cells i).t = some t ∧ 1 + (nodeBytes E i t).length ≤ bufLen

theorem writeDatas_none_of_fits {bufLen : Nat} {cells : Cells E} {list : List E.Id}
    (h : ∀ i ∈ list, (cells i).state.hasValue = true →
      ∃ t, (cells i).t = some t ∧ 1 + (nodeBytes E i t).length ≤ bufLen) :
    (writeDatas bufLen cells list).2 = none := by
  induction list with
  | nil => rfl
  | cons i list ih =>
    replace ih := ih fun j hj => h j (List.mem_cons_of_mem i hj)
    rw [writeDatas]
    by_cases hv : (cells i).state.hasValue = true
    · obtain ⟨t, ht, hfit⟩ := h i List.mem_cons_self hv
      rw [if_pos hv, ht]
      dsimp only
      rw [nodeElem_eq, if_pos hfit]
      exact ih
    · rw [if_neg hv]
      exact ih

/-- The list can be written: some node needs it and none waits for its data. -/
structure Writable (w : World E) : Prop where
  some_needs : ∃ i ∈ w.list, w.state i = .needsWrite
  none_initial : ∀ i ∈ w.list, w.state i ≠ .initial

theorem writable_flushing (items : List Item) (s : SeqState 3) : Writable (flushing items s) :=
  ⟨⟨settingA, List.mem_singleton_self _, rfl⟩, fun _ _ => nofun⟩

theorem fits_flushing (items : List Item) (s : SeqState 3) : Fits 64 (flushing items s) := by
  intro i hi _
  obtain rfl := List.mem_singleton.mp hi
  exact ⟨(7 : UInt8), rfl, by decide +kernel⟩

theorem Writable.writeDue {w : World E} (h : Writable w) {s : NonZeroU32}
    (hn : w.seqState.nextSeq = some s) (hg : w.seqState.needsGc = false) :
    CfgNoodle.writeDue w = .ok (some s) := by
  obtain ⟨i, hi, hs⟩ := h.some_needs
  have hinit : (w.list.any fun i => w.state i = .initial) = false := by
    refine List.any_eq_false.mpr fun j hj => ?_
    simpa using h.none_initial j hj
  have hneeds : (w.list.any fun i => w.state i = .needsWrite) = true :=
    List.any_eq_true.mpr ⟨i, hi, by simpa using hs⟩
  simp only [CfgNoodle.writeDue, needsWriting]
  rw [hn, hg, hinit, hneeds]
  rfl

/-- Without faults a due write pushes its record, and it is reported as written
exactly where its number starts no item before it. -/
theorem processWrites_run {w : World E} {bufLen : Nat} {s : NonZeroU32} (hf : w.faults = .none)
    (hdue : writeDue w = .ok (some s)) (hw : (writeDatas bufLen w.cells w.list).2 = none)
    (habove : ∀ f ∈ validRecords E w.items, f.key.get < s.get) :
    (∃ c w', processWrites bufLen w = .ok c w' ∧
        w'.items = w.items ++ recordItems E s (w.toWrite bufLen) w.call ∧
        ∀ x ∈ w.items, x.data ≠ some (.start s)) ∨
      (∃ e w', processWrites bufLen w = .error e w' ∧ VerifyError e ∧
        ∃ x ∈ w.items, x.data = some (.start s)) := by
  have hnot : ∀ e, ¬ w.faults.CanStop e := by
    intro e
    rw [hf]
    exact Faults.not_canStop_none e
  have hkey : ∀ f ∈ validRecords E w.items, f.key ≠ s := fun f hf h =>
    Nat.lt_irrefl _ (h ▸ habove f hf)
  rcases (processWrites_spec bufLen w).cases with ⟨c, w', hrun, h⟩ | ⟨e, w', hrun, h⟩
  · left
    rcases h with ⟨hno, _⟩ | ⟨s', range, fs, hdue', _, _, hv, rfl⟩
    · rw [hdue] at hno; cases hno
    · obtain rfl := Option.some.inj (Except.ok.inj (hdue.symm.trans hdue'))
      exact ⟨c, _, hrun, rfl, (hv.new_record rfl hkey).1⟩
  · right
    rcases h with ⟨err, hno, _⟩ | ⟨s', fs, hdue', _, h⟩
    · rw [hdue] at hno; cases hno
    · obtain rfl := Option.some.inj (Except.ok.inj (hdue.symm.trans hdue'))
      rcases h with ⟨hc, _⟩ | ⟨_, hc, rfl⟩
      · rcases hc with hc | hc
        · exact absurd hc (hnot e)
        · rw [hw] at hc; cases hc
      · rcases hc with hc | ⟨hve, hno⟩
        · exact absurd (Or.inl hc) (hnot e)
        · refine ⟨e, _, hrun, hve, ?_⟩
          by_contra hall
          obtain ⟨range, hv⟩ := verifies_of_no_start (E := E) (w.toWrite bufLen) w.call
            fun x hx h => hall ⟨x, hx, h⟩
          exact hno range hv

/-! ## Recovery at boot -/

/-- Without faults `process_garbage` returns, and this is the state it leaves. -/
theorem processGarbage_run {w : World E} (hf : w.faults = .none) :
    ∃ c, processGarbage w = .ok c (if w.seqState.needsGc then
      (w.withItems (survivors w.seqState w.items)).withSeq
        (SeqState.scan E (survivors w.seqState w.items)).clean else w) := by
  rcases (processGarbage_spec w).cases with
    ⟨c, w', hrun, ⟨hg, rfl⟩ | ⟨hg, fs, hs, rfl⟩⟩ | ⟨e, w', _, _, hc, _⟩
  · exact ⟨c, by rw [hrun, hg]; rfl⟩
  · have hfs : fs = .none := by
      rw [hf] at hs
      cases fs
      have h1 := List.suffix_nil.mp hs.reads
      have h2 := List.suffix_nil.mp hs.pushes
      have h3 := List.suffix_nil.mp hs.invalidates
      simp_all [Faults.none]
    refine ⟨c, ?_⟩
    rw [hrun, if_pos hg, hfs, ← hf]
    rfl
  · rw [hf] at hc
    exact absurd hc (Faults.not_canStop_none e)

/-- An item of a record that starts one is its first, with its number. -/
theorem IsRecord.start_eq {k s : NonZeroU32} {seg : List Item} (h : IsRecord E k seg) {it : Item}
    (hit : it ∈ seg) (hd : it.data = some (.start s)) : k = s := by
  obtain ⟨o, bs, c, rfl, ho, hb, hc, _⟩ := IsRecord.elim h
  simp only [List.mem_cons, List.mem_append, List.not_mem_nil, or_false] at hit
  rcases hit with rfl | hit | rfl
  · rw [ho] at hd
    exact (Elem.start.inj (Option.some.inj hd))
  · obtain ⟨d, hd'⟩ := hb it hit
    rw [hd'] at hd; cases hd
  · rw [hc] at hd; cases hd

theorem survivors_contents {cur : SeqState E.kept} {items : List Item} (hl : Spanned items cur) :
    contents (recordGrammar E.crc) (survivors cur items) <+ contents (recordGrammar E.crc) items ∧
      (keptRecords cur items).map (fun f => (f.key, f.seg)) <+
        contents (recordGrammar E.crc) (survivors cur items) := by
  rw [← collected_length]
  exact contents_collected hl items.length

theorem mem_contents {items : List Item} {p : NonZeroU32 × List Item} :
    p ∈ contents (recordGrammar E.crc) items ↔ ∃ f ∈ validRecords E items, (f.key, f.seg) = p :=
  List.mem_map

/-- A finished collection leaves no `Start` with a number that no valid record has. -/
theorem survivors_no_start {cur : SeqState E.kept} {items : List Item} (hl : Spanned items cur)
    {s : NonZeroU32} (hs : ∀ f ∈ validRecords E (survivors cur items), f.key.get < s.get) :
    ∀ x ∈ survivors cur items, x.data ≠ some (.start s) := by
  intro x hx hd
  rw [survivors_eq hl, List.mem_flatten] at hx
  obtain ⟨seg, hseg, hx⟩ := hx
  obtain ⟨f, hf, rfl⟩ := List.mem_map.mp hseg
  obtain ⟨_, _, _, hk, _⟩ := (mem_frames _).mp ((keptRecords_sublist cur items).subset hf)
  obtain ⟨g, hg, heq⟩ := mem_contents.mp
    ((survivors_contents hl).2.subset (List.mem_map_of_mem (f := fun f => (f.key, f.seg)) hf))
  have hkey : g.key = s := (congrArg Prod.fst heq).trans (IsRecord.start_eq hk hx hd)
  exact Nat.lt_irrefl _ (hkey ▸ hs g hg)

/-- The contents from which a boot gets to write again. -/
def Recoverable (E : Env) (items : List Item) : Prop :=
  validRecords E items ≠ [] ∨ ∀ x ∈ items, x.data ≠ some (.start NonZeroU32.one)

theorem goodRecords_eq_nil {items : List Item} :
    goodRecords E items = [] ↔ validRecords E items = [] := List.map_eq_nil_iff

/-- The state from which the nodes are written after a boot: its number is above
every valid record, and starts an item only where the content is not recoverable. -/
theorem boot_garbage {items : List Item} {w1 : World E}
    (hmax : ∀ f ∈ validRecords E items, f.key.get < NonZeroU32.MAX)
    (hw1 : w1.items = items ∧ w1.seqState = SeqState.scan E items ∧ w1.faults = .none) :
    ∃ c w2 s, processGarbage w1 = .ok c w2 ∧ w2.seqState.nextSeq = some s ∧
      w2.seqState.needsGc = false ∧ (∀ f ∈ validRecords E w2.items, f.key.get < s.get) ∧
      ((∀ x ∈ w2.items, x.data ≠ some (.start s)) ↔ Recoverable E items) := by
  obtain ⟨hitems, hseq, hf⟩ := hw1
  obtain ⟨c, hrun⟩ := processGarbage_run hf
  have hloc := spanned_scan (E := E) items
  rcases scan_cases (E := E) items with ⟨hnil, hs⟩ | ⟨r, hr⟩
  · -- nothing is collected and the first number is handed out
    rw [hseq, hs, if_neg nofun] at hrun
    have hval := goodRecords_eq_nil.mp hnil
    refine ⟨c, w1, NonZeroU32.one, hrun, by rw [hseq, hs], by rw [hseq, hs]; rfl, ?_, ?_⟩
    · rw [hitems, hval]; simp
    · simp only [Recoverable]
      rw [hitems, hval]
      simp
  · rw [hseq, hr.needsGc, if_pos rfl, hitems] at hrun
    have hsub := (survivors_contents hloc).1
    have hlt : ∀ f ∈ validRecords E (survivors (SeqState.scan E items) items),
        f.key.get < NonZeroU32.MAX := by
      intro f hf
      obtain ⟨g, hg, heq⟩ := mem_contents.mp (hsub.subset (mem_contents.mpr ⟨f, hf, rfl⟩))
      have hkey : g.key = f.key := congrArg Prod.fst heq
      exact hkey ▸ hmax g hg
    obtain ⟨s, hs⟩ := Option.ne_none_iff_exists'.mp (scan_nextSeq_ne_none hlt)
    have habove := scan_nextSeq_above hs
    refine ⟨c, _, s, hrun, hs, rfl, habove, ?_⟩
    have hrec : Recoverable E items := Or.inl fun h => by
      have := hr.mem
      rw [goodRecords_eq_nil.mpr h] at this
      cases this
    exact iff_of_true (survivors_no_start hloc habove) hrec

/-- A due write without faults returns and is what every later boot reads, if no
item starts its number. -/
theorem write_restores_iff {w : World E} {bufLen : Nat} {s : NonZeroU32}
    (hk : ∀ i, E.cbor.Canonical (E.key i))
    (hcodec : ∀ i (t : E.T i), (E.vtable i).decode ((E.vtable i).encode t).flatten = some t)
    (hf : w.faults = .none) (hnd : (w.list.map E.key).Nodup) (hfits : Fits bufLen w)
    (hdue : writeDue w = .ok (some s)) (habove : ∀ f ∈ validRecords E w.items, f.key.get < s.get) :
    (∃ c w', processWrites bufLen w = .ok c w' ∧ Restores w w'.items) ↔
      ∀ x ∈ w.items, x.data ≠ some (.start s) := by
  have hnone := writeDatas_none_of_fits hfits
  rcases processWrites_run hf hdue hnone habove with ⟨c, w', hrun, hw', hno⟩ | ⟨e, w', hrun, _, x, hx, hd⟩
  · refine iff_of_true ⟨c, w', hrun, ?_⟩ hno
    rw [hw']
    exact restores_append hk hcodec hnd hnone habove w.call
  · refine iff_of_false (fun h => ?_) fun h => h x hx hd
    obtain ⟨c, w'', hrun', _⟩ := h
    rw [hrun] at hrun'
    cases hrun'

/-- **A boot can write to its storage exactly when that holds a valid record or
no `Start` with the first number.** The state in which the nodes are written is
any with the storage and the cache that `process_reads` and `process_garbage`
left. -/
theorem boot_recovers_iff {items : List Item} {nodes : List E.Id}
    (hk : ∀ i, E.cbor.Canonical (E.key i))
    (hcodec : ∀ i (t : E.T i), (E.vtable i).decode ((E.vtable i).encode t).flatten = some t)
    (hmax : ∀ f ∈ validRecords E items, f.key.get < NonZeroU32.MAX) :
    ∃ c1 w1 c2 w2, processReads (World.bootWith items nodes) = .ok c1 w1 ∧
      processGarbage w1 = .ok c2 w2 ∧
      ∀ (w : World E) (bufLen : Nat), w.items = w2.items → w.seqState = w2.seqState →
        w.faults = .none → (w.list.map E.key).Nodup → Writable w → Fits bufLen w →
        ((∃ c3 w3, processWrites bufLen w = .ok c3 w3 ∧ Restores w w3.items) ↔
          Recoverable E items) := by
  obtain ⟨c1, w1, hread, hw1⟩ : ∃ c1 w1, processReads (World.bootWith items nodes) = .ok c1 w1 ∧
      w1.items = items ∧ w1.seqState = SeqState.scan E items ∧ w1.faults = .none := by
    obtain ⟨c, h⟩ := processReads_run (w := World.bootWith items nodes) (located_new items) rfl
    exact ⟨c, _, h, rfl, rfl, rfl⟩
  obtain ⟨c2, w2, s, hgc, hnext, hclean, habove, hiff⟩ := boot_garbage hmax hw1
  refine ⟨c1, w1, c2, w2, hread, hgc, fun w bufLen hitems hseq hf hnd hwr hfits => ?_⟩
  have hdue := hwr.writeDue (hseq ▸ hnext) (hseq ▸ hclean)
  rw [← hiff, ← hitems]
  exact write_restores_iff hk hcodec hf hnd hfits hdue (hitems ▸ habove)

/-- A storage on which the first write was cut off after its first element. -/
def strayStart : List Item := [stored twoSettings 0 (.start NonZeroU32.one)]

theorem stray_start_recovers_iff : ∃ c1 w1 c2 w2,
    processReads (World.bootWith (E := twoSettings) strayStart [settingA]) = .ok c1 w1 ∧
      processGarbage w1 = .ok c2 w2 ∧
      ∀ (w : World twoSettings) (bufLen : Nat), w.items = w2.items → w.seqState = w2.seqState →
        w.faults = .none → (w.list.map twoSettings.key).Nodup → Writable w → Fits bufLen w →
        ((∃ c3 w3, processWrites bufLen w = .ok c3 w3 ∧ Restores w w3.items) ↔
          Recoverable twoSettings strayStart) :=
  boot_recovers_iff twoSettings_canonical settings_codec (by decide)

/-- Such a storage is not written to in this boot. -/
theorem stray_start_not_recovered : ∃ c1 w1 c2 w2 e w3,
    processReads (World.bootWith (E := twoSettings) strayStart [settingA]) = .ok c1 w1 ∧
      processGarbage w1 = .ok c2 w2 ∧ Writable (flushing w2.items w2.seqState) ∧
      Fits 64 (flushing w2.items w2.seqState) ∧
      processWrites 64 (flushing w2.items w2.seqState) = .error e w3 :=
  ⟨_, _, _, _, _, _, rfl, rfl, writable_flushing _ _, fits_flushing _ _, rfl⟩

/-! ## A failed write -/

/-- The cache after a complete scan, with no collection due. -/
def CleanScan (w : World E) : Prop := w.seqState = (SeqState.scan E w.items).clean

/-- What a failing push leaves of its element is nothing or an undecodable item. -/
def PushesTear (fs : Faults E.Err) : Prop := ∀ l, fs.CanLeave l → l ≠ .whole

/-- What is left in the storage by a write that a push or the serialization made
fail after its first element: the `Start`, and no complete record. -/
theorem failed_write_leaves {w w1 : World E} {bufLen : Nat} {err : LoadStoreError E.Err}
    (htear : PushesTear w.faults) (hfail : processWrites bufLen w = .error (.error err) w1)
    (herr : err = .appError .serialization ∨ ∃ e, err = .flashWrite e)
    (hpushed : ∃ e rest, w1.items = w.items ++ stored E w.call e :: rest) :
    w1.seqState = w.seqState ∧ ∃ s, writeDue w = .ok (some s) ∧
      validRecords E w1.items = validRecords E w.items ∧
      ∃ x ∈ w1.items, x.data = some (.start s) := by
  obtain ⟨e, rest, hpushed⟩ := hpushed
  rcases (processWrites_spec bufLen w).error hfail with ⟨_, _, _, rfl⟩ | ⟨s, fs, hdue, _, h⟩
  · simp at hpushed
  · rcases h with ⟨_, part, hpart, _, rfl⟩ | ⟨_, hc, _⟩
    · have hsplit : part = stored E w.call e :: rest := List.append_cancel_left hpushed
      refine ⟨rfl, s, hdue, ?_, stored E w.call e, ?_, ?_⟩
      · rcases validRecords_append_partly w.items hpart with h | ⟨h, _⟩
        · exact h
        · exact absurd rfl (htear _ h)
      · show _ ∈ w.items ++ part
        rw [hsplit]; simp
      · -- the first element of the record is its `Start`
        have hfirst : ∀ es rest', es ++ rest' = recordElems E s (w.toWrite bufLen) → ∀ tail,
            (∀ x ∈ tail, x.data = none) →
            es.map (stored E w.call) ++ tail = stored E w.call e :: rest → e = .start s := by
          intro es rest' hes tail htail heq
          cases es with
          | nil =>
            have hnone := htail (stored E w.call e) (by
              rw [show tail = _ from heq]; exact List.mem_cons_self)
            cases hnone
          | cons e' es =>
            have h1 : e' = .start s := (List.cons.inj hes).1
            have h2 : stored E w.call e' = stored E w.call e := (List.cons.inj heq).1
            exact (Option.some.inj (congrArg Item.data h2)).symm.trans h1
        cases hpart with
        | some es rest' _ h =>
          rw [hfirst es rest' h [] (by simp) (by rw [List.append_nil]; exact hsplit)]; rfl
        | torn es rest' n _ h => rw [hfirst es rest' h _ (by simp) hsplit]; rfl
        | whole hl _ _ _ => exact absurd rfl (htear _ hl)
    · -- the verification fails in other ways
      exfalso
      rcases hc with hc | ⟨hve | hve, _⟩
      · obtain ⟨a, _, ha⟩ := hc
        cases a with
        | ok => cases ha
        | err x => rcases herr with rfl | ⟨_, rfl⟩ <;> cases ha
        | cut => cases ha
      · rcases herr with rfl | ⟨_, rfl⟩ <;> cases hve
      · rcases herr with rfl | ⟨_, rfl⟩ <;> cases hve

/-- **A write that failed half way can never be retried**: whatever the nodes
then hold, a fault-free `process_garbage` does nothing and the `process_writes`
after it fails its verification, because its number starts the leftover. -/
theorem failed_write_stays_failed {w w1 : World E} {bufLen : Nat} {err : LoadStoreError E.Err}
    (hcache : CleanScan w) (htear : PushesTear w.faults)
    (hfail : processWrites bufLen w = .error (.error err) w1)
    (herr : err = .appError .serialization ∨ ∃ e, err = .flashWrite e)
    (hpushed : ∃ e rest, w1.items = w.items ++ stored E w.call e :: rest)
    {w2 : World E} {bufLen2 : Nat} (hitems : w2.items = w1.items) (hseq : w2.seqState = w1.seqState)
    (hf : w2.faults = .none) (hwr : Writable w2) (hfits : Fits bufLen2 w2) :
    (∃ c, processGarbage w2 = .ok c w2) ∧
      ∃ e w3, processWrites bufLen2 w2 = .error e w3 ∧ VerifyError e := by
  obtain ⟨hseq1, s, hdue, hvalid, x, hx, hstart⟩ := failed_write_leaves htear hfail herr hpushed
  have hw2 : w2.seqState = (SeqState.scan E w.items).clean := (hseq.trans hseq1).trans hcache
  have hgc : w2.seqState.needsGc = false := by rw [hw2]; rfl
  have hnext : (SeqState.scan E w.items).nextSeq = some s := by
    have h := writeDue_nextSeq hdue
    rw [hcache] at h
    exact h
  constructor
  · obtain ⟨c, hrun⟩ := processGarbage_run hf
    rw [hgc] at hrun
    exact ⟨c, hrun⟩
  · have habove : ∀ f ∈ validRecords E w2.items, f.key.get < s.get := by
      rw [hitems, hvalid]
      exact scan_nextSeq_above hnext
    have hdue2 := hwr.writeDue (s := s) (by rw [hw2]; exact hnext) hgc
    rcases processWrites_run hf hdue2 (writeDatas_none_of_fits hfits) habove with
      ⟨_, _, _, _, hno⟩ | ⟨e, w3, hrun, hve, _⟩
    · exact absurd hstart (hno x (hitems ▸ hx))
    · exact ⟨e, w3, hrun, hve⟩

/-- The second push of a first write fails, and leaves nothing. -/
def failingPush : World twoSettings :=
  (flushing [] (SeqState.scan twoSettings []).clean).withFaults ⟨[], [.ok, .err () .nothing], []⟩

theorem first_write_stays_failed : ∃ err w1, processWrites 64 failingPush = .error (.error err) w1 ∧
    (∃ c, processGarbage (w1.withFaults .none) = .ok c (w1.withFaults .none)) ∧
      ∃ e w3, processWrites 64 (w1.withFaults .none) = .error e w3 ∧ VerifyError e := by
  have htear : PushesTear failingPush.faults := by
    intro l hl hw
    obtain ⟨a, ha, hal⟩ := hl
    subst hw
    rcases List.mem_cons.mp ha with rfl | ha
    · cases hal
    · obtain rfl := List.mem_singleton.mp ha
      cases hal
  exact ⟨_, _, rfl, @failed_write_stays_failed twoSettings failingPush _ 64 _ rfl htear rfl
    (Or.inr ⟨_, rfl⟩) ⟨_, _, rfl⟩ _ 64 rfl rfl rfl (writable_flushing _ _) (fits_flushing _ _)⟩

/-- The retry fails although its storage accepts everything. -/
theorem first_write_not_retried : ∃ err w1 c w2 e w3,
    processWrites 64 failingPush = .error (.error err) w1 ∧ w1.items ≠ failingPush.items ∧
      processGarbage (w1.withFaults .none) = .ok c w2 ∧ processWrites 64 w2 = .error e w3 :=
  ⟨_, _, _, _, _, _, rfl, by decide, rfl, rfl⟩

end CfgNoodle

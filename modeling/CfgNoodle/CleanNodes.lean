import CfgNoodle.StorageNode

/-! # A clean node is a persisted node

Runs of sections from an empty storage in which reads succeed and a write that
pushes anything returns `Ok` or is cut off by a power loss. In all their states
the value of a clean node is what the record that a fresh scan selects has for
its key. -/
namespace CfgNoodle
open Framing Outcome Runs
open scoped List
variable {E : Env}

/-! ## The record that a scan selects -/

/-- No two valid records have the same number. -/
def Distinct (E : Env) (items : List Item) : Prop := ((validRecords E items).map Frame.key).Nodup

theorem latestRecord_of_max {items : List Item} (hd : Distinct E items) {f : Record}
    (hf : f ∈ validRecords E items) (hmax : ∀ g ∈ validRecords E items, g.key.get ≤ f.key.get) :
    latestRecord E items = some (f.key, f.seg) := by
  have hsel := scan_highest_of_greatest hf fun g hg hne => by
    refine lt_of_le_of_ne (hmax g hg) fun he => hne ?_
    exact List.inj_on_of_nodup_map hd hg hf (NonZeroU32.eq_of_get he)
  unfold latestRecord
  rw [hsel]
  exact congrArg some (congrArg (Prod.mk f.key) (slice_goodOf hf))

theorem latestRecord_of_nil {items : List Item} (h : validRecords E items = []) :
    latestRecord E items = none := by
  unfold latestRecord
  rcases scan_cases (E := E) items with ⟨_, hs⟩ | ⟨r, hr⟩
  · have hnone : (SeqState.scan E items).highestSeen = none := by
      cases hh : (SeqState.scan E items).highestSeen with
      | none => rfl
      | some r =>
        have := (scan_isTop items).subset r (SeqState.mem_records_of_highestSeen hh)
        rw [goodRecords_eq_nil.mpr h] at this; cases this
    rw [hnone]; rfl
  · have := hr.mem
    rw [goodRecords_eq_nil.mpr h] at this; cases this

theorem exists_max_record {items : List Item} (h : validRecords E items ≠ []) :
    ∃ f ∈ validRecords E items, ∀ g ∈ validRecords E items, g.key.get ≤ f.key.get := by
  rcases scan_cases (E := E) items with ⟨hnil, _⟩ | ⟨r, hr⟩
  · exact absurd (goodRecords_eq_nil.mp hnil) h
  · obtain ⟨f, hf, rfl⟩ := List.mem_map.mp hr.mem
    exact ⟨f, hf, fun g hg => hr.max (goodOf g) (List.mem_map_of_mem hg)⟩

theorem Distinct.of_contents {items items' : List Item} (hd : Distinct E items)
    (hsub : contents (recordGrammar E.crc) items' <+ contents (recordGrammar E.crc) items) :
    Distinct E items' := by
  have hkeys := hsub.map Prod.fst
  unfold contents at hkeys
  rw [List.map_map, List.map_map] at hkeys
  exact hd.sublist hkeys

/-- As long as a storage gains no valid record and keeps a greatest one, a scan
selects the same. -/
theorem latestRecord_of_contents {items items' : List Item} (hd : Distinct E items)
    (hsub : contents (recordGrammar E.crc) items' <+ contents (recordGrammar E.crc) items)
    (hmax : ∀ p ∈ contents (recordGrammar E.crc) items,
      ∃ q ∈ contents (recordGrammar E.crc) items', contentKey p ≤ contentKey q) :
    latestRecord E items' = latestRecord E items := by
  by_cases hnil : validRecords E items = []
  · have hnil' : validRecords E items' = [] := by
      refine List.eq_nil_iff_forall_not_mem.mpr fun f hf => ?_
      obtain ⟨g, hg, _⟩ := mem_contents.mp (hsub.subset (mem_contents.mpr ⟨f, hf, rfl⟩))
      rw [hnil] at hg; cases hg
    rw [latestRecord_of_nil hnil, latestRecord_of_nil hnil']
  · obtain ⟨f, hf, hle⟩ := exists_max_record hnil
    obtain ⟨q, hq, hfq⟩ := hmax _ (mem_contents.mpr ⟨f, hf, rfl⟩)
    obtain ⟨g, hg, rfl⟩ := mem_contents.mp (hsub.subset hq)
    obtain ⟨g', hg', heq⟩ := mem_contents.mp hq
    -- what was kept is the greatest, for there is only one
    have hgf : g = f := List.inj_on_of_nodup_map hd hg hf
      (NonZeroU32.eq_of_get (Nat.le_antisymm (hle g hg) hfq))
    have hkey : g'.key = f.key := (congrArg Prod.fst heq).trans (congrArg Frame.key hgf)
    have hseg : g'.seg = f.seg := (congrArg Prod.snd heq).trans (congrArg Frame.seg hgf)
    rw [latestRecord_of_max hd hf hle, latestRecord_of_max (hd.of_contents hsub) hg' ?_, hkey, hseg]
    intro x hx
    obtain ⟨y, hy, hxy⟩ := mem_contents.mp (hsub.subset (mem_contents.mpr ⟨x, hx, rfl⟩))
    have hkeys : y.key = x.key := congrArg Prod.fst hxy
    rw [hkey, ← hkeys]
    exact hle y hy

theorem Distinct.append {items : List Item} {n : NonZeroU32} (hd : Distinct E items)
    (hlt : ∀ f ∈ validRecords E items, f.key.get < n.get) (ds : List SerData) (call : Nat) :
    Distinct E (items ++ recordItems E n ds call) := by
  unfold Distinct
  rw [validRecords_append_record, List.map_append]
  refine List.nodup_append.mpr ⟨hd, by simp, fun k hk k' hk' => ?_⟩
  obtain ⟨f, hf, rfl⟩ := List.mem_map.mp hk
  simp only [List.map_cons, List.map_nil, List.mem_singleton] at hk'
  intro heq
  subst heq
  exact Nat.lt_irrefl _ (hk' ▸ hlt f hf)

theorem latestRecord_append {items : List Item} {n : NonZeroU32}
    (hlt : ∀ f ∈ validRecords E items, f.key.get < n.get) (ds : List SerData) (call : Nat) :
    latestRecord E (items ++ recordItems E n ds call) = some (n, recordItems E n ds call) := by
  unfold latestRecord
  rw [scan_highest_append ds call hlt]
  refine congrArg some (congrArg (Prod.mk n) ?_)
  exact slice_goodOf (f := ⟨n, items.length, recordItems E n ds call⟩)
    (by rw [validRecords_append_record]; simp)

/-- The data elements of the record that a scan selects. -/
def latestDatas (E : Env) (items : List Item) : List SerData :=
  match latestRecord E items with
  | none => []
  | some p => datas p.2

/-! ## The cache in such runs -/

/-- The cache is empty, or it has the greatest record and a number above it. -/
structure Cached (items : List Item) (s : SeqState E.kept) : Prop where
  fresh : Fresh items s
  above : ∀ n, s.nextSeq = some n → ∀ f ∈ validRecords E items, f.key.get < n.get
  greatest : s.nextSeq ≠ none → validRecords E items ≠ [] →
    ∃ r ∈ s.records, ∀ f ∈ validRecords E items, f.key.get ≤ r.seqKey

theorem cached_new (items : List Item) : Cached (E := E) items .new :=
  ⟨fresh_new items, nofun, fun h => absurd rfl h⟩

theorem scan_greatest {items : List Item} (hne : validRecords E items ≠ []) :
    ∃ r ∈ (SeqState.scan E items).records, ∀ f ∈ validRecords E items, f.key.get ≤ r.seqKey := by
  rcases scan_cases (E := E) items with ⟨hnil, _⟩ | ⟨r, hr⟩
  · exact absurd (goodRecords_eq_nil.mp hnil) hne
  · exact ⟨r, SeqState.mem_records_of_highestSeen hr.highest, fun f hf =>
      hr.max (goodOf f) (List.mem_map_of_mem hf)⟩

section
variable {items : List Item} (hmax : ∀ f ∈ validRecords E items, f.key.get < NonZeroU32.MAX)
include hmax

theorem cached_scan : Cached items (SeqState.scan E items) :=
  ⟨fresh_scan hmax, fun _ hn => scan_nextSeq_above hn, fun _ => scan_greatest⟩

theorem cached_scan_clean : Cached items (SeqState.scan E items).clean :=
  ⟨fresh_scan_clean hmax, fun _ hn => scan_nextSeq_above hn, fun _ => scan_greatest⟩

theorem Cached.populate {s : SeqState E.kept} (h : Cached items s) :
    Cached items (CfgNoodle.populate E items s) ∧ (CfgNoodle.populate E items s).nextSeq ≠ none := by
  cases hn : s.nextSeq with
  | none =>
    rw [h.fresh.unset hn, populate_new]
    exact ⟨cached_scan hmax, scan_nextSeq_ne_none hmax⟩
  | some n =>
    rw [populate_of_nextSeq hn, hn]
    exact ⟨h, Option.some_ne_none n⟩

end

/-- The cache has the data elements that a fresh scan finds. -/
theorem Cached.recordDatas {items : List Item} {s : SeqState E.kept} (h : Cached items s)
    (hd : Distinct E items) (hn : s.nextSeq ≠ none) :
    CfgNoodle.recordDatas items s = latestDatas E items := by
  have hloc := h.fresh.covers.located
  unfold CfgNoodle.recordDatas latestDatas
  by_cases hnil : validRecords E items = []
  · rw [latestRecord_of_nil hnil]
    cases hh : s.highestSeen with
    | none => rfl
    | some r =>
      obtain ⟨f, hf⟩ := hloc r (SeqState.mem_records_of_highestSeen hh)
      have := hf.mem
      rw [hnil] at this; cases this
  · obtain ⟨y, hy, hle⟩ := h.greatest hn hnil
    rcases h.fresh.covers.sorted.highestSeen with ⟨_, hrec⟩ | ⟨r, hr, hmem, hmax⟩
    · rw [hrec] at hy; cases hy
    · obtain ⟨f, hf⟩ := hloc r hmem
      have hgreat : ∀ g ∈ validRecords E items, g.key.get ≤ f.key.get := fun g hg => by
        rw [← hf.seq]
        exact (hle g hg).trans (hmax y hy)
      rw [hr, latestRecord_of_max hd hf.mem hgreat]
      exact (congrArg (datasAt items) hf.first).trans (datasAt_start hf.mem)

/-- A boot gives every node what the record that a scan selects has for it. -/
theorem boot_hydrates {items : List Item} (hd : Distinct E items)
    (hmax : ∀ f ∈ validRecords E items, f.key.get < NonZeroU32.MAX) {nodes : List E.Id}
    (hnd : (nodes.map E.key).Nodup) :
    ∃ c w, processReads (World.bootWith items nodes) = .ok c w ∧ w.items = items ∧
      w.seqState = SeqState.scan E items ∧ w.faults = .none ∧ w.list = nodes ∧
      ∀ i ∈ nodes, w.cells i = hydratedFrom E (latestDatas E items) i := by
  obtain ⟨c, hrun⟩ := processReads_run (w := World.bootWith items nodes) (located_new items) rfl
  refine ⟨c, _, hrun, rfl, rfl, rfl, rfl, fun i hi => ?_⟩
  have hds : CfgNoodle.recordDatas items (SeqState.scan E items) = latestDatas E items :=
    (cached_scan hmax).recordDatas hd (scan_nextSeq_ne_none hmax)
  rw [← hds]
  exact (readCells_apply (w := World.bootWith items nodes) hnd (SeqState.scan E items) hi).trans
    (settle_offered_new _ i)

/-- A collection leaves the record that a scan selects. -/
theorem Cached.collected {items : List Item} {cur : SeqState E.kept} (h : Cached items cur)
    (hd : Distinct E items) (hgc : cur.needsGc = true) (p : Nat) :
    contents (recordGrammar E.crc) (CfgNoodle.collected cur p items) <+
        contents (recordGrammar E.crc) items ∧
      latestRecord E (CfgNoodle.collected cur p items) = latestRecord E items := by
  have hsub := (contents_collected h.fresh.spanned p).1
  exact ⟨hsub, latestRecord_of_contents hd hsub (h.fresh.keeps_greatest hgc p)⟩

/-! ## Clean nodes -/

/-- If the node is clean, some data elements have its value under its key. -/
def Holds (ds : List SerData) (i : E.Id) (c : Cell (E.T i)) : Prop :=
  c.state = .validNoWriteNeeded → ∃ body t, bodyFor E.cbor (E.key i) ds = some body ∧
    (E.vtable i).decode body = some t ∧ c.t = some t

/-- Every clean node of the list has its value in the record that a scan selects. -/
def CleanHeld (w : World E) : Prop := ∀ i ∈ w.list, Holds (latestDatas E w.items) i (w.cells i)

theorem bodyFor_of_prefix {cbor : Minicbor} {key : String} {ds all : List SerData}
    {body : List UInt8} (hp : ds <+: all) (h : bodyFor cbor key ds = some body) :
    bodyFor cbor key all = some body := by
  obtain ⟨rest, rfl⟩ := hp
  unfold bodyFor at h ⊢
  rw [List.findSome?_append, h]
  rfl

/-- Hydration from the record, or from a first part of it. -/
theorem Holds.offered {all ds : List SerData} {i : E.Id} {c : Cell (E.T i)} (h : Holds all i c)
    (hp : ds <+: all) :
    Holds all i (CfgNoodle.offered (E.vtable i) (bodyFor E.cbor (E.key i) ds) c) := by
  cases hb : bodyFor E.cbor (E.key i) ds with
  | none => exact h
  | some body =>
    unfold CfgNoodle.offered
    dsimp only
    split
    · unfold deserialize
      cases hd : (E.vtable i).decode body with
      | none => exact fun hs => nomatch hs
      | some t => exact fun _ => ⟨body, t, bodyFor_of_prefix hp hb, hd, rfl⟩
    · exact h

theorem Holds.settle {all : List SerData} {i : E.Id} {c : Cell (E.T i)} (h : Holds all i c) :
    Holds all i c.settle := by
  unfold Cell.settle
  split
  · exact fun hs => nomatch hs
  · exact h

theorem wf_offered {T : Type} (vtable : VTable T) (body : Option (List UInt8)) {c : Cell T}
    (h : c.Wf) : (offered vtable body c).Wf := by
  cases body with
  | none => exact h
  | some body =>
    unfold offered
    dsimp only
    split
    · next hs =>
      unfold deserialize
      cases vtable.decode body with
      | none =>
        unfold Cell.Wf at h
        rw [hs] at h
        exact h
      | some t => rfl
    · exact h

theorem wf_settle {T : Type} {c : Cell T} (h : c.Wf) : c.settle.Wf := by
  unfold Cell.settle
  split
  · next hs =>
    unfold Cell.Wf at h
    rw [hs] at h
    exact h
  · exact h

/-! ## Sections that only concern the nodes -/

/-- The storage, the cache and the calls are as they were, and whatever node is
clean afterwards was so before. -/
structure NodesOnly (s s' : ListState E) : Prop where
  items : s'.world.items = s.world.items
  seqState : s'.world.seqState = s.world.seqState
  gc : s'.gc = s.gc
  halted : s'.halted = s.halted
  clean : ∀ i ∈ s'.world.list, s'.world.state i = .validNoWriteNeeded →
    i ∈ s.world.list ∧ s'.world.cells i = s.world.cells i

theorem nodesOnly_refl (s : ListState E) : NodesOnly s s :=
  ⟨rfl, rfl, rfl, rfl, fun _ hi _ => ⟨hi, rfl⟩⟩

theorem nodesOnly_of_world {s s' : ListState E} (hw : s'.world = s.world) (hg : s'.gc = s.gc)
    (hh : s'.halted = s.halted) : NodesOnly s s' :=
  ⟨by rw [hw], by rw [hw], hg, hh, fun i hi _ => by rw [hw] at hi ⊢; exact ⟨hi, rfl⟩⟩

theorem nodesOnly_setCell (s : ListState E) (i : E.Id) {c : Cell (E.T i)}
    (hc : c.state ≠ .validNoWriteNeeded) : NodesOnly s (s.setCell i c) := by
  refine ⟨rfl, rfl, rfl, rfl, fun j hj hs => ⟨hj, ?_⟩⟩
  have hs' : (Function.update s.world.cells i c j).state = .validNoWriteNeeded := hs
  show Function.update s.world.cells i c j = s.world.cells j
  by_cases hji : j = i
  · subst hji
    rw [Function.update_self] at hs'
    exact absurd hs' hc
  · rw [Function.update_of_ne hji]

theorem NodesOnly.of_world {s s1 s' : ListState E} (h : NodesOnly s s1) (hw : s'.world = s1.world)
    (hg : s'.gc = s1.gc) (hh : s'.halted = s1.halted) : NodesOnly s s' :=
  ⟨hw ▸ h.items, hw ▸ h.seqState, hg.trans h.gc, hh.trans h.halted, fun i hi hs => by
    rw [hw] at hi ⊢
    rw [hw] at hs
    exact h.clean i hi hs⟩

theorem nodesOnly_attach {s : ListState E} (h : Linked s) (i : E.Id) :
    NodesOnly s (s.attach i).1 := by
  unfold ListState.attach
  split
  · exact nodesOnly_refl s
  · exact nodesOnly_of_world rfl rfl rfl
  · split
    · exact nodesOnly_of_world rfl rfl rfl
    · next hk =>
      have hnone := Option.not_isSome_iff_eq_none.mp hk
      have hpush : NodesOnly s (s.setList (i :: s.world.list)) := by
        refine ⟨rfl, rfl, rfl, rfl, fun j hj hs => ?_⟩
        rcases List.mem_cons.mp hj with rfl | hj
        · -- the new node is not clean
          have hout : s.world.cells j = Cell.new := h.out j fun hm => by
            have := List.find?_eq_none.mp hnone j hm
            simp at this
          have hs' : (s.world.cells j).state = .validNoWriteNeeded := hs
          rw [hout] at hs'
          cases hs'
        · exact ⟨hj, rfl⟩
      exact hpush.of_world rfl rfl rfl

theorem nodesOnly_observe (s : ListState E) (i : E.Id) : NodesOnly s (s.observe i) := by
  unfold ListState.observe
  split
  · split
    · exact nodesOnly_refl s
    · exact nodesOnly_of_world rfl rfl rfl
    · exact nodesOnly_of_world rfl rfl rfl
    · exact nodesOnly_of_world rfl rfl rfl
  · exact nodesOnly_refl s

theorem nodesOnly_writeDefault (s : ListState E) (i : E.Id) (t : E.T i) :
    NodesOnly s (s.writeDefault i t) := by
  unfold ListState.writeDefault
  split
  · exact (nodesOnly_setCell s i (c := ⟨.needsWrite, some t⟩) nofun).of_world rfl rfl rfl
  · exact nodesOnly_refl s

theorem nodesOnly_handleWrite (s : ListState E) (i : E.Id) (t : E.T i) :
    NodesOnly s (s.handleWrite i t).1 := by
  unfold ListState.handleWrite
  split
  · split
    · exact nodesOnly_setCell s i nofun
    · exact nodesOnly_refl s
  · exact nodesOnly_refl s

theorem nodesOnly_dropHandle (s : ListState E) (i : E.Id) : NodesOnly s (s.dropHandle i) := by
  unfold ListState.dropHandle
  split
  · exact nodesOnly_of_world rfl rfl rfl
  · exact nodesOnly_refl s

theorem nodesOnly_detach (s : ListState E) (i : E.Id) : NodesOnly s (s.detach i).1 := by
  unfold ListState.detach
  split
  · exact nodesOnly_refl s
  · exact nodesOnly_refl s
  · have hcell := nodesOnly_setCell s i (c := Cell.new) nofun
    refine ⟨rfl, rfl, rfl, rfl, fun j hj hs => ?_⟩
    exact hcell.clean j (List.mem_of_mem_erase hj) hs

/-! ## What holds in every state -/

/-- The cache, or the one that the collection under way works from. -/
def Collecting (s : ListState E) : Prop :=
  match s.gc with
  | .idle => Cached s.world.items s.world.seqState
  | .collecting cur => s.world.seqState = .new ∧ Cached s.world.items cur ∧ cur.needsGc = true
  | .finishing => s.world.seqState = .new

structure SectionInv (s : ListState E) : Prop where
  linked : Linked s
  below : ∀ f ∈ validRecords E s.world.items, f.key.get < NonZeroU32.MAX
  distinct : Distinct E s.world.items
  cache : s.halted = false → Collecting s
  clean : CleanHeld s.world

theorem SectionInv.nodes {s s' : ListState E} (h : SectionInv s) (hn : NodesOnly s s')
    (hl : Linked s') : SectionInv s' := by
  refine ⟨hl, hn.items ▸ h.below, hn.items ▸ h.distinct, fun hh => ?_, fun i hi hs => ?_⟩
  · have hc := h.cache (hn.halted ▸ hh)
    unfold Collecting at hc ⊢
    rw [hn.gc, hn.items, hn.seqState]
    exact hc
  · obtain ⟨hi', hcell⟩ := hn.clean i hi hs
    have hs' : (s.world.cells i).state = .validNoWriteNeeded := hcell ▸ hs
    rw [hn.items, hcell]
    exact h.clean i hi' hs'

/-! ## The sections of the calls -/

theorem Linked.world {s : ListState E} (h : Linked s) {w : World E} (gc : Gc E) (halted : Bool)
    (hl : w.list = s.world.list) (hout : ∀ i, i ∉ s.world.list → w.cells i = s.world.cells i)
    (hwf : ∀ i, (w.cells i).Wf) : Linked { s with world := w, gc := gc, halted := halted } := by
  refine ⟨hl ▸ h.keys, fun i hi => ?_, h.client, fun i hi => hl ▸ h.mem i hi, hwf⟩
  have hi' : i ∉ s.world.list := hl ▸ hi
  exact (hout i hi').trans (h.out i hi')

/-- The nodes are as they were. -/
theorem Linked.sameNodes {s : ListState E} (h : Linked s) {w : World E} (gc : Gc E) (halted : Bool)
    (hl : w.list = s.world.list) (hc : w.cells = s.world.cells) :
    Linked { s with world := w, gc := gc, halted := halted } :=
  h.world gc halted hl (fun _ _ => by rw [hc]) fun i => by rw [hc]; exact h.wf i

theorem readCells_of_not_mem {w : World E} (q : SeqState E.kept) {i : E.Id} (hi : i ∉ w.list) :
    readCells w q i = w.cells i := by
  unfold readCells markInitialNonresident
  rw [if_neg fun h => hi h.1, hydrateAll_of_not_mem hi]

theorem SectionInv.processReads {s : ListState E} (h : SectionInv s) (hh : s.halted = false)
    {fs : Faults E.Err} (hf : NoReadError fs) : SectionInv (s.processReads fs) := by
  unfold ListState.processReads
  split
  · next hgc =>
    have hcached : Cached s.world.items s.world.seqState := by
      have := h.cache hh
      unfold Collecting at this
      rwa [hgc] at this
    obtain ⟨hpop, hsome⟩ := hcached.populate h.below
    have hdatas := hpop.recordDatas h.distinct hsome
    rcases (processReads_spec (w := s.world.withFaults fs) hcached.fresh.covers.located).cases with
      ⟨a, w', hx, r, _, rfl⟩ | ⟨e, w', hx, hb, r, hr⟩
    · rw [hx]
      refine ⟨h.linked.world _ _ rfl (fun i hi => readCells_of_not_mem (w := s.world.withFaults fs) _ hi)
        fun i => ?_, h.below, h.distinct, fun _ => hpop, fun i hi => ?_⟩
      · show (readCells (s.world.withFaults fs) _ i).Wf
        by_cases hi : i ∈ s.world.list
        · rw [readCells_apply (w := s.world.withFaults fs) h.linked.keys _ hi]
          exact wf_settle (wf_offered _ _ (h.linked.wf i))
        · rw [readCells_of_not_mem (w := s.world.withFaults fs) _ hi]
          exact h.linked.wf i
      · show Holds _ i (readCells (s.world.withFaults fs) _ i)
        rw [readCells_apply (w := s.world.withFaults fs) h.linked.keys _ hi]
        refine (Holds.offered (h.clean i hi) ?_).settle
        show CfgNoodle.recordDatas s.world.items _ <+: _
        rw [← hdatas]
        exact List.prefix_rfl
    · -- the reads succeed, so that only a power loss can stop the call
      obtain rfl := hf.cut_of_broke hb
      rw [hx]
      rcases hr with ⟨_, q, _, _, rfl⟩ | ⟨ds, hds, _, rfl⟩
      · exact ⟨h.linked.sameNodes _ _ rfl rfl, h.below, h.distinct, nofun, h.clean⟩
      · refine ⟨h.linked.world _ _ rfl (fun i hi => hydrateAll_of_not_mem hi _ _) fun i => ?_, h.below,
          h.distinct, nofun, fun i hi => ?_⟩
        · show (hydrateAll s.world.list ds s.world.cells i).Wf
          by_cases hi : i ∈ s.world.list
          · rw [hydrateAll_apply h.linked.keys hi]
            exact wf_offered _ _ (h.linked.wf i)
          · rw [hydrateAll_of_not_mem hi]
            exact h.linked.wf i
        · show Holds _ i (hydrateAll s.world.list ds s.world.cells i)
          rw [hydrateAll_apply h.linked.keys hi]
          refine Holds.offered (h.clean i hi) ?_
          show ds <+: latestDatas E s.world.items
          rw [← hdatas]
          exact hds
  · exact h

theorem SectionInv.gcTake {s : ListState E} (h : SectionInv s) (hh : s.halted = false) :
    SectionInv s.gcTake := by
  unfold ListState.gcTake
  split
  · next hgc =>
    have hcached : Cached s.world.items s.world.seqState := by
      have := h.cache hh
      unfold Collecting at this
      rwa [hgc] at this
    obtain ⟨a, w', hx, ⟨rfl, rfl⟩ | ⟨rfl, hn, rfl⟩⟩ := (gcTake_spec s.world).returns
    · rw [hx]
      exact ⟨h.linked.sameNodes _ _ rfl rfl, h.below, h.distinct, fun _ => hcached, h.clean⟩
    · rw [hx]
      exact ⟨h.linked.sameNodes _ _ rfl rfl, h.below, h.distinct, fun _ => ⟨rfl, hcached, hn⟩, h.clean⟩
  · exact h

/-- A part of a collection, or all of it. -/
theorem SectionInv.afterCollect {s : ListState E} (h : SectionInv s) {cur : SeqState E.kept}
    (hc : Cached s.world.items cur) (hn : cur.needsGc = true) (p : Nat) {s' : ListState E}
    (hl : Linked s') (hcells : s'.world.cells = s.world.cells)
    (hlist : s'.world.list = s.world.list)
    (hitems : s'.world.items = collected cur p s.world.items)
    (hcache : s'.halted = false → Collecting s') : SectionInv s' := by
  obtain ⟨hsub, hlatest⟩ := hc.collected h.distinct hn p
  refine ⟨hl, ?_, ?_, hcache, fun i hi => ?_⟩
  · rw [hitems]
    intro f hf
    obtain ⟨g, hg, heq⟩ := mem_contents.mp (hsub.subset (mem_contents.mpr ⟨f, hf, rfl⟩))
    have hkey : g.key = f.key := congrArg Prod.fst heq
    exact hkey ▸ h.below g hg
  · rw [hitems]
    exact h.distinct.of_contents hsub
  · rw [hitems, hcells]
    unfold latestDatas
    rw [hlatest]
    exact h.clean i (hlist ▸ hi)

theorem SectionInv.gcCollect {s : ListState E} (h : SectionInv s) (hh : s.halted = false)
    (fs : Faults E.Err) : SectionInv (s.gcCollect fs) := by
  unfold ListState.gcCollect
  split
  · next cur hgc =>
    have hcache := h.cache hh
    unfold Collecting at hcache
    rw [hgc] at hcache
    obtain ⟨hnew, hcached, hn⟩ := hcache
    rcases (gcCollect_spec cur (s.world.withFaults fs)).cases with
      ⟨a, w', hx, f, _, rfl⟩ | ⟨e, w', hx, _, p, f, _, rfl⟩
    · rw [hx]
      exact h.afterCollect hcached hn s.world.items.length (h.linked.sameNodes _ _ rfl rfl) rfl rfl
        (collected_length cur s.world.items).symm fun _ => hnew
    · rw [hx]
      have hidle : Cached (collected cur p s.world.items) s.world.seqState := by
        rw [hnew]
        exact cached_new _
      cases e with
      | cut =>
        exact h.afterCollect hcached hn p (h.linked.sameNodes _ _ rfl rfl) rfl rfl rfl nofun
      | error e =>
        exact h.afterCollect hcached hn p (h.linked.sameNodes .idle s.halted rfl rfl) rfl rfl rfl
          fun _ => hidle
      | ub =>
        exact h.afterCollect hcached hn p (h.linked.sameNodes .idle s.halted rfl rfl) rfl rfl rfl
          fun _ => hidle
  · exact h

theorem SectionInv.gcFinish {s : ListState E} (h : SectionInv s) (hh : s.halted = false)
    {fs : Faults E.Err} (hf : NoReadError fs) : SectionInv (s.gcFinish fs) := by
  unfold ListState.gcFinish
  split
  · next hgc =>
    have hnew := h.cache hh
    unfold Collecting at hnew
    rw [hgc] at hnew
    dsimp only at hnew
    rcases (gcFinish_spec (s.world.withFaults fs)).cases with
      ⟨a, w', hx, f, _, rfl⟩ | ⟨e, w', hx, _, _, q, r, _, hs, rfl⟩
    · rw [hx]
      refine ⟨h.linked.sameNodes _ _ rfl rfl, h.below, h.distinct, fun _ => ?_, h.clean⟩
      show Cached s.world.items (populate E s.world.items s.world.seqState).clean
      rw [hnew, populate_new]
      exact cached_scan_clean h.below
    · obtain rfl := hf.cut_of_broke hs.broke
      rw [hx]
      exact ⟨h.linked.sameNodes _ _ rfl rfl, h.below, h.distinct, nofun, h.clean⟩
  · exact h

/-! ## Writes -/

theorem Faults.not_canStop_ub {ε : Type} (fs : Faults ε) : ¬ fs.CanStop .ub := by
  intro hor
  rcases hor with ⟨a, _, ha⟩ | ⟨a, _, ha⟩ | ⟨a, _, ha⟩
  all_goals cases a <;> cases ha

/-- No write reads an uninitialised data cell. -/
theorem writeDatas_ne_ub (bufLen : Nat) {cells : Cells E} (h : ∀ i, (cells i).Wf)
    (list : List E.Id) : (writeDatas bufLen cells list).2 ≠ some .ub := by
  induction list with
  | nil => exact fun h => by cases h
  | cons i list ih =>
    rw [writeDatas]
    by_cases hv : (cells i).state.hasValue = true
    · rw [if_pos hv]
      obtain ⟨t, ht⟩ := Option.isSome_iff_exists.mp ((h i).trans hv)
      rw [ht]
      dsimp only
      cases nodeElem E bufLen i t with
      | none => exact fun h => by cases h
      | some d => exact ih
    · rw [if_neg hv]
      exact ih

/-- The record of a list holds the values of all its nodes. -/
theorem body_toWrite {w : World E} {bufLen : Nat} (hk : ∀ i, E.cbor.Canonical (E.key i))
    (hcodec : ∀ i (t : E.T i), (E.vtable i).decode ((E.vtable i).encode t).flatten = some t)
    (hnd : (w.list.map E.key).Nodup) (hw : (writeDatas bufLen w.cells w.list).2 = none)
    {i : E.Id} (hi : i ∈ w.list) (hv : (w.state i).hasValue = true) :
    ∃ body t, bodyFor E.cbor (E.key i) (w.toWrite bufLen) = some body ∧
      (E.vtable i).decode body = some t ∧ (w.cells i).t = some t := by
  obtain ⟨t, ht, _⟩ := writeDatas_isSome hw hi hv
  exact ⟨_, t, bodyFor_writeDatas hk hnd hw hi hv ht, hcodec i t, ht⟩

theorem latestDatas_append {items : List Item} {n : NonZeroU32}
    (hlt : ∀ f ∈ validRecords E items, f.key.get < n.get) (ds : List SerData) (call : Nat) :
    latestDatas E (items ++ recordItems E n ds call) = ds := by
  unfold latestDatas
  rw [latestRecord_append hlt]
  exact datas_recordItems n ds call

section
variable {w : World E} {bufLen : Nat} {n : NonZeroU32} (hk : ∀ i, E.cbor.Canonical (E.key i))
  (hcodec : ∀ i (t : E.T i), (E.vtable i).decode ((E.vtable i).encode t).flatten = some t)
  (hnd : (w.list.map E.key).Nodup) (hw : (writeDatas bufLen w.cells w.list).2 = none)
  (hlt : ∀ f ∈ validRecords E w.items, f.key.get < n.get)
include hk hcodec hnd hw hlt

/-- The record is complete, but the call did not get to mark the nodes. -/
theorem cleanHeld_pushed (call : Nat) : ∀ i ∈ w.list,
    Holds (latestDatas E (w.items ++ recordItems E n (w.toWrite bufLen) call)) i (w.cells i) := by
  intro i hi hs
  rw [latestDatas_append hlt]
  refine body_toWrite hk hcodec hnd hw hi ?_
  unfold World.state
  rw [hs]
  rfl

theorem cleanHeld_written (call : Nat) : ∀ i ∈ w.list,
    Holds (latestDatas E (w.items ++ recordItems E n (w.toWrite bufLen) call)) i
      (markWritten w.list w.cells i) := by
  intro i hi hs
  rw [latestDatas_append hlt]
  unfold markWritten at hs ⊢
  by_cases hv : (w.state i).hasValue = true
  · rw [if_pos ⟨hi, hv⟩]
    exact body_toWrite hk hcodec hnd hw hi hv
  · rw [if_neg fun h => hv h.2] at hs
    unfold World.state at hv
    rw [hs] at hv
    exact absurd rfl hv

end

theorem wf_markWritten {list : List E.Id} {cells : Cells E} {i : E.Id} (h : (cells i).Wf) :
    (markWritten list cells i).Wf := by
  unfold markWritten
  split
  · next hv => exact h.trans hv.2
  · exact h

theorem markWritten_of_not_mem {list : List E.Id} {cells : Cells E} {i : E.Id} (hi : i ∉ list) :
    markWritten list cells i = cells i := if_neg fun h => hi h.1

theorem markInitialNonresident_t (list : List E.Id) (cells : Cells E) (i : E.Id) :
    (markInitialNonresident list cells i).t = (cells i).t := by
  unfold markInitialNonresident
  split <;> rfl

theorem markWritten_t (list : List E.Id) (cells : Cells E) (i : E.Id) :
    (markWritten list cells i).t = (cells i).t := by
  simp only [markWritten]
  split <;> rfl

/-- A cache that knew the greatest record knows it after a verified write. -/
theorem Cached.written {items : List Item} {s : SeqState E.kept} {n : NonZeroU32} {ds : List SerData}
    {call : Nat} {range : RangeInclusive} (h : Cached items s) (hn : s.nextSeq = some n)
    (hgc : s.needsGc = false)
    (hv : Verifies E ⟨n, E.crc (crcBytes ds), ds.length, 0⟩ (items ++ recordItems E n ds call) range)
    (hmax : ∀ f ∈ validRecords E (items ++ recordItems E n ds call), f.key.get < NonZeroU32.MAX) :
    Cached (items ++ recordItems E n ds call) (s.insertGood E.sorter ⟨n, range⟩) := by
  have hfresh := (h.fresh.written hn hgc hv hmax).2
  have hmem := mem_insertGood_of_above (r := ⟨n, range⟩) (h.fresh.covers.above n hn).2
  have hle : ∀ f ∈ validRecords E (items ++ recordItems E n ds call), f.key.get ≤ n.get :=
    (grown_record items n ds call).le fun f hf => Nat.le_of_lt (h.above n hn f hf)
  refine ⟨hfresh, fun m hm f hf => ?_, fun _ _ => ⟨_, hmem, hle⟩⟩
  have h1 : n.get < m.get := (hfresh.covers.above m hm).2 _ hmem
  have h2 := hle f hf
  omega

/-- What a write has pushed that did not return `Ok`: nothing that counts, or
all of its record. -/
theorem processWrites_pushed {w w' : World E} {bufLen : Nat} {e : Stop E.Err}
    (hwf : ∀ i, (w.cells i).Wf) (hx : processWrites bufLen w = .error e w') :
    e ≠ .ub ∧ ∃ part f, w' = (w.withItems (w.items ++ part)).withFaults f ∧
      (validRecords E (w.items ++ part) = validRecords E w.items ∨
        ∃ n, writeDue w = .ok (some n) ∧ (writeDatas bufLen w.cells w.list).2 = none ∧
          part = recordItems E n (w.toWrite bufLen) w.call) := by
  rcases (processWrites_spec bufLen w).error hx with ⟨err, _, rfl, rfl⟩ | ⟨n, f, hdue, _, h⟩
  · exact ⟨nofun, [], w'.faults, by simp [World.withItems, World.withFaults],
      Or.inl (by rw [List.append_nil])⟩
  · rcases h with ⟨hc, part, hpart, hall, rfl⟩ | ⟨hw, hc, rfl⟩
    · refine ⟨?_, part, f, rfl, ?_⟩
      · intro heq
        subst heq
        rcases hc with hc | hc
        · exact Faults.not_canStop_ub _ hc
        · exact writeDatas_ne_ub bufLen hwf _ hc
      · rcases validRecords_append_partly w.items hpart with hv | ⟨_, hp⟩
        · exact Or.inl hv
        · exact Or.inr ⟨n, hdue, hall hp, hp⟩
    · refine ⟨?_, _, f, rfl, Or.inr ⟨n, hdue, hw, rfl⟩⟩
      intro heq
      subst heq
      rcases hc with hc | ⟨hc | hc, _⟩
      · exact Faults.not_canStop_ub _ (Or.inl hc)
      · cases hc
      · cases hc

/-- The call returned `Ok`, was cut off by a power loss or has pushed nothing. -/
def OkOrCut {α : Type} (items : List Item) : EStateM.Result (Stop E.Err) (World E) α → Prop
  | .error (.error _) w' => w'.items = items
  | _ => True

instance {α : Type} (items : List Item) (r : EStateM.Result (Stop E.Err) (World E) α) :
    Decidable (OkOrCut items r) :=
  match r with
  | .ok _ _ | .error .cut _ | .error .ub _ => .isTrue trivial
  | .error (.error _) w' => inferInstanceAs (Decidable (w'.items = items))

theorem SectionInv.processWrites {s : ListState E} (h : SectionInv s) (hh : s.halted = false)
    (hk : ∀ i, E.cbor.Canonical (E.key i))
    (hcodec : ∀ i (t : E.T i), (E.vtable i).decode ((E.vtable i).encode t).flatten = some t)
    {bufLen : Nat} {fs : Faults E.Err}
    (hok : OkOrCut s.world.items (CfgNoodle.processWrites bufLen (s.world.withFaults fs)))
    (hmax : ∀ f ∈ validRecords E (s.processWrites bufLen fs).world.items, f.key.get < NonZeroU32.MAX) :
    SectionInv (s.processWrites bufLen fs) := by
  unfold ListState.processWrites at hmax ⊢
  split
  · next hgc =>
    have hcached : Cached s.world.items s.world.seqState := by
      have := h.cache hh
      unfold Collecting at this
      rwa [hgc] at this
    rw [hgc] at hmax
    dsimp only at hmax
    rcases (processWrites_spec bufLen (s.world.withFaults fs)).cases with
      ⟨a, w', hx, hq⟩ | ⟨e, w', hx, hr⟩
    · rw [hx] at hmax ⊢
      rcases hq with ⟨_, rfl⟩ | ⟨n, range, f, hdue, _, hw, hv, rfl⟩
      · exact ⟨h.linked.sameNodes _ _ rfl rfl, h.below, h.distinct, fun _ => hcached, h.clean⟩
      · have hn : s.world.seqState.nextSeq = some n := writeDue_nextSeq hdue
        have hlt := hcached.above n hn
        refine ⟨h.linked.world _ _ rfl (fun i hi => markWritten_of_not_mem hi)
          fun i => wf_markWritten (h.linked.wf i), hmax, h.distinct.append hlt _ _,
          fun _ => hcached.written hn (writeDue_clean hdue) hv hmax, ?_⟩
        exact cleanHeld_written (w := s.world.withFaults fs) hk hcodec h.linked.keys hw hlt _
    · rw [hx] at hok hmax ⊢
      obtain ⟨hub, part, f, rfl, hp⟩ := processWrites_pushed (w := s.world.withFaults fs) h.linked.wf hx
      cases e with
      | ub => exact absurd rfl hub
      | error err =>
        -- nothing was pushed
        have hitems : s.world.items ++ part = s.world.items := hok
        refine h.nodes ⟨hitems, rfl, hgc.symm, rfl, fun i hi _ => ⟨hi, rfl⟩⟩ ?_
        exact h.linked.sameNodes _ _ rfl rfl
      | cut =>
        rcases hp with hv | ⟨n, hdue, hw, rfl⟩
        · have hcont : contents (recordGrammar E.crc) (s.world.items ++ part) =
              contents (recordGrammar E.crc) s.world.items := contents_eq_of_validRecords hv
          have hsub : contents (recordGrammar E.crc) (s.world.items ++ part) <+
              contents (recordGrammar E.crc) s.world.items := hcont ▸ .refl _
          have hlatest : latestRecord E (s.world.items ++ part) = latestRecord E s.world.items :=
            latestRecord_of_contents h.distinct hsub
              fun p hp => ⟨p, hcont ▸ hp, Nat.le_refl _⟩
          refine ⟨h.linked.sameNodes _ _ rfl rfl, hmax, ?_, nofun, fun i hi => ?_⟩
          · exact h.distinct.of_contents hsub
          · show Holds (latestDatas E (s.world.items ++ part)) i (s.world.cells i)
            unfold latestDatas
            rw [hlatest]
            exact h.clean i hi
        · -- the record is complete: its nodes can no longer be marked, but are gone
          have hlt := hcached.above n (writeDue_nextSeq hdue)
          refine ⟨h.linked.sameNodes _ _ rfl rfl, hmax, h.distinct.append hlt _ _, nofun, ?_⟩
          exact cleanHeld_pushed (w := s.world.withFaults fs) hk hcodec h.linked.keys hw hlt _
  · exact h

/-! ## Runs -/

/-- The steps of the runs: the reads of a scan succeed, a write that pushes
anything returns `Ok` or is cut off, and the numbers do not run out. -/
def Persisting (s : ListState E) (c : Section E) (s' : ListState E) : Prop :=
  (match c with
    | .processReads fs | .gcFinish fs => NoReadError fs
    | .processWrites bufLen fs =>
      OkOrCut s.world.items (CfgNoodle.processWrites bufLen (s.world.withFaults fs))
    | _ => True) ∧
  ∀ f ∈ validRecords E s'.world.items, f.key.get < NonZeroU32.MAX

theorem SectionInv.resetCache {s : ListState E} (h : SectionInv s) :
    SectionInv { s with world := s.world.withSeq .new } := by
  refine ⟨h.linked.sameNodes s.gc s.halted rfl rfl, h.below, h.distinct, fun hh => ?_, h.clean⟩
  have hc := h.cache hh
  unfold Collecting at hc ⊢
  cases hg : s.gc with
  | idle => exact cached_new _
  | collecting cur =>
    rw [hg] at hc
    exact ⟨rfl, hc.2⟩
  | finishing => exact rfl

theorem SectionInv.boot {s : ListState E} (h : SectionInv s) (addr : Nat) :
    SectionInv (ListState.boot (E := E) addr s.world.items) :=
  ⟨linked_boot addr s.world.items, h.below, h.distinct, fun _ => cached_new _, fun _ hi => nomatch hi⟩

theorem SectionInv.step {s : ListState E} (h : SectionInv s)
    (hk : ∀ i, E.cbor.Canonical (E.key i))
    (hcodec : ∀ i (t : E.T i), (E.vtable i).decode ((E.vtable i).encode t).flatten = some t)
    {c : Section E} (hc : Persisting s c (s.step c)) : SectionInv (s.step c) := by
  obtain ⟨hok, hmax⟩ := hc
  cases hh : s.halted with
  | true =>
    -- a halted list waits for its reboot
    unfold ListState.step
    rw [hh]
    cases c with
    | powerLoss => exact h.boot s.addr
    | _ => exact h
  | false =>
    unfold ListState.step at hmax ⊢
    rw [hh] at hmax ⊢
    cases c with
    | attach i => exact h.nodes (nodesOnly_attach h.linked i) (h.linked.attach i)
    | observe i => exact h.nodes (nodesOnly_observe s i) (h.linked.observe i)
    | writeDefault i t => exact h.nodes (nodesOnly_writeDefault s i t) (h.linked.writeDefault i t)
    | handleWrite i t => exact h.nodes (nodesOnly_handleWrite s i t) (h.linked.handleWrite i t)
    | dropHandle i => exact h.nodes (nodesOnly_dropHandle s i) (h.linked.dropHandle i)
    | detach i => exact h.nodes (nodesOnly_detach s i) (h.linked.detach i)
    | processReads fs => exact h.processReads hh hok
    | processWrites bufLen fs => exact h.processWrites hh hk hcodec hok hmax
    | gcTake => exact h.gcTake hh
    | gcCollect fs => exact h.gcCollect hh fs
    | gcFinish fs => exact h.gcFinish hh hok
    | resetCache => exact h.resetCache
    | powerLoss => exact h.boot s.addr

/-- A list at some address that has just booted on an empty storage. -/
def ListBooted (s : ListState E) : Prop := ∃ addr, s = ListState.boot addr []

theorem sectionInv_reachable (hk : ∀ i, E.cbor.Canonical (E.key i))
    (hcodec : ∀ i (t : E.T i), (E.vtable i).decode ((E.vtable i).encode t).flatten = some t)
    {s : ListState E} (h : ((sections E ListBooted).restrict Persisting).Reachable s) :
    SectionInv s := by
  refine h.invariant ?_ ?_
  · intro s hs
    obtain ⟨addr, rfl⟩ := hs
    have hempty : validRecords E [] = [] := rfl
    exact ⟨linked_boot addr [], by simp [ListState.boot, World.boot, hempty], List.nodup_nil,
      fun _ => cached_new _, fun _ hi => nomatch hi⟩
  · intro s c s' hi hstep
    obtain ⟨rfl, hc⟩ := hstep
    exact hi.step hk hcodec hc

/-- **A clean node is a persisted node**: in every state of such a run, the
record that a fresh scan selects has the key of every clean node of the list,
with bytes that decode to the node's value. -/
theorem clean_node_persisted (hk : ∀ i, E.cbor.Canonical (E.key i))
    (hcodec : ∀ i (t : E.T i), (E.vtable i).decode ((E.vtable i).encode t).flatten = some t)
    {s : ListState E} (h : ((sections E ListBooted).restrict Persisting).Reachable s) :
    ∀ i ∈ s.world.list, s.world.state i = .validNoWriteNeeded →
      ∃ k seg body t, latestRecord E s.world.items = some (k, seg) ∧
        bodyFor E.cbor (E.key i) (datas seg) = some body ∧
        (E.vtable i).decode body = some t ∧ (s.world.cells i).t = some t := by
  intro i hi hs
  obtain ⟨body, t, hbody, ht, hcell⟩ := (sectionInv_reachable hk hcodec h).clean i hi hs
  unfold latestDatas at hbody
  cases hl : latestRecord E s.world.items with
  | none => rw [hl] at hbody; cases hbody
  | some p =>
    rw [hl] at hbody
    exact ⟨p.1, p.2, body, t, rfl, hbody, ht, hcell⟩

theorem noReadError_none : NoReadError (E := E) .none := fun _ ha => absurd ha List.not_mem_nil

/-- A node is attached to a list on an empty storage, and its default written. -/
def flushed : ListState twoSettings :=
  [.attach settingA, .processReads .none, .observe settingA, .writeDefault settingA (7 : UInt8),
    .processWrites 64 .none].foldl ListState.step (ListState.boot 2 [])

set_option maxRecDepth 4000 in
theorem default_persisted : ∃ k seg body t,
    latestRecord twoSettings flushed.world.items = some (k, seg) ∧
      bodyFor minicborText "a" (datas seg) = some body ∧
      minicborU8.decode body = some t ∧ (flushed.world.cells settingA).t = some t := by
  let attached := (ListState.boot (E := twoSettings) 2 []).step (.attach settingA)
  let loaded := attached.step (.processReads .none)
  let observed := loaded.step (.observe settingA)
  let defaulted := observed.step (.writeDefault settingA (7 : UInt8))
  have h1 : ((sections twoSettings ListBooted).restrict Persisting).Reachable attached :=
    .step (.init ⟨2, rfl⟩) ⟨rfl, trivial, by decide +kernel⟩
  have h2 : ((sections twoSettings ListBooted).restrict Persisting).Reachable loaded :=
    .step h1 ⟨rfl, noReadError_none, by decide +kernel⟩
  have h3 : ((sections twoSettings ListBooted).restrict Persisting).Reachable observed :=
    .step h2 ⟨rfl, trivial, by decide +kernel⟩
  have h4 : ((sections twoSettings ListBooted).restrict Persisting).Reachable defaulted :=
    .step h3 ⟨rfl, trivial, by decide +kernel⟩
  have hwrites : OkOrCut defaulted.world.items
        (CfgNoodle.processWrites 64 (defaulted.world.withFaults .none)) ∧
      ∀ f ∈ validRecords twoSettings (defaulted.step (.processWrites 64 .none)).world.items,
        f.key.get < NonZeroU32.MAX := by decide +kernel
  have h5 : ((sections twoSettings ListBooted).restrict Persisting).Reachable
      (defaulted.step (.processWrites 64 .none)) := .step h4 ⟨rfl, hwrites⟩
  -- the list of sections is followed to its end, and no section is run
  have hflushed : flushed = defaulted.step (.processWrites 64 .none) := by
    simp only [flushed, List.foldl_cons, List.foldl_nil, defaulted, observed, loaded, attached]
  rw [← hflushed] at h5
  exact clean_node_persisted twoSettings_canonical settings_codec h5 settingA (by decide +kernel)
    (by decide +kernel)

end CfgNoodle

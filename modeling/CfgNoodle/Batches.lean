import CfgNoodle.CleanNodes

/-! # Hydration does not depend on when nodes attach

Runs without faults and without writes, in which nodes are attached at any time
and the list reads, collects garbage and forgets its cache as it likes. Whatever
a node of the list has been given in such a run is what one call of
`process_reads` gives it that finds all nodes attached. -/
namespace CfgNoodle
open Framing Outcome Runs
open scoped List
variable {E : Env}

/-! ## One fault-free section -/

theorem ended_ok {α : Type} {s : ListState E} {gc : α → Gc E} {a : α} {w : World E}
    {r : EStateM.Result (Stop E.Err) (World E) α} (h : r = .ok a w) :
    s.ended gc r = { s with world := w, gc := gc a } := h ▸ rfl

theorem SectionInv.cached {s : ListState E} (h : SectionInv s) (hh : s.halted = false)
    (hg : s.gc = .idle) : Cached s.world.items s.world.seqState := by
  have := h.cache hh
  simp only [Collecting] at this
  rwa [hg] at this

/-- A call of `process_reads` offers every node of the list the data of the
record that a scan selects. -/
theorem SectionInv.reads_run {s : ListState E} (h : SectionInv s) (hh : s.halted = false)
    (hg : s.gc = .idle) : ∃ c w, CfgNoodle.processReads (s.world.withFaults .none) = .ok c w ∧
      w.items = s.world.items ∧ w.list = s.world.list ∧ w.faults = .none ∧
      (∀ i ∈ s.world.list, w.cells i = (offered (E.vtable i)
        (bodyFor E.cbor (E.key i) (latestDatas E s.world.items)) (s.world.cells i)).settle) ∧
      ∀ i, i ∉ s.world.list → w.cells i = s.world.cells i := by
  have hcached := h.cached hh hg
  obtain ⟨hpop, hsome⟩ := hcached.populate h.below
  obtain ⟨c, hrun⟩ := processReads_run (w := s.world.withFaults .none)
    hcached.fresh.covers.located rfl
  refine ⟨c, _, hrun, rfl, rfl, rfl, fun i hi => ?_, fun i hi => ?_⟩
  · rw [← hpop.recordDatas h.distinct hsome]
    exact readCells_apply (w := s.world.withFaults .none) h.linked.keys _ hi
  · exact readCells_of_not_mem (w := s.world.withFaults .none) _ hi

/-! ## The invariant -/

/-- A node that has not been hydrated, or that has been given its share of the record. -/
def Share (E : Env) (ds : List SerData) (i : E.Id) (c : Cell (E.T i)) : Prop :=
  c = Cell.new ∨ c = hydratedFrom E ds i

theorem hydratedFrom_cases (E : Env) (ds : List SerData) (i : E.Id) :
    (∃ t, hydratedFrom E ds i = ⟨.validNoWriteNeeded, some t⟩) ∨
      hydratedFrom E ds i = ⟨.nonResident, none⟩ := by
  simp only [hydratedFrom]
  cases bodyFor E.cbor (E.key i) ds with
  | none => exact Or.inr rfl
  | some body =>
    dsimp only [deserialize]
    cases (E.vtable i).decode body with
    | none => exact Or.inr rfl
    | some t => exact Or.inl ⟨t, rfl⟩

theorem Share.settle_offered {ds : List SerData} {i : E.Id} {c : Cell (E.T i)}
    (h : Share E ds i c) :
    (offered (E.vtable i) (bodyFor E.cbor (E.key i) ds) c).settle = hydratedFrom E ds i := by
  rcases h with rfl | rfl
  · exact settle_offered_new ds i
  · -- a node is hydrated only once
    have hne : (hydratedFrom E ds i).state ≠ .initial := by
      rcases hydratedFrom_cases E ds i with ⟨t, h⟩ | h <;> rw [h] <;> nofun
    have hoff : offered (E.vtable i) (bodyFor E.cbor (E.key i) ds) (hydratedFrom E ds i) =
        hydratedFrom E ds i := by
      simp only [offered]
      split
      · rfl
      · exact if_neg hne
    rw [hoff]
    exact if_neg hne

/-- The sections of such a run. -/
def Batching : Section E → Prop
  | .attach _ | .observe _ | .dropHandle _ | .gcTake | .resetCache => True
  | .processReads fs | .gcCollect fs | .gcFinish fs => fs = .none
  | .writeDefault _ _ | .handleWrite _ _ | .detach _ | .processWrites _ _ | .powerLoss => False

/-- The record that a scan selects is still the one that the run started with,
and no node has anything from elsewhere. -/
structure Undisturbed (items : List Item) (s : ListState E) : Prop extends SectionInv s where
  running : s.halted = false
  latest : latestDatas E s.world.items = latestDatas E items
  shares : ∀ i, Share E (latestDatas E items) i (s.world.cells i)

theorem Undisturbed.of_cells {items : List Item} {s s' : ListState E} (h : Undisturbed items s)
    (hs : SectionInv s') (hh : s'.halted = s.halted)
    (hl : latestDatas E s'.world.items = latestDatas E s.world.items)
    (hc : s'.world.cells = s.world.cells) : Undisturbed items s' :=
  ⟨hs, hh.trans h.running, hl.trans h.latest, hc ▸ h.shares⟩

theorem attach_same (s : ListState E) (i : E.Id) : (s.attach i).1.halted = s.halted ∧
    (s.attach i).1.world.items = s.world.items ∧ (s.attach i).1.world.cells = s.world.cells := by
  simp only [ListState.attach]
  split
  · exact ⟨rfl, rfl, rfl⟩
  · exact ⟨rfl, rfl, rfl⟩
  · split <;> exact ⟨rfl, rfl, rfl⟩

theorem observe_same (s : ListState E) (i : E.Id) :
    (s.observe i).halted = s.halted ∧ (s.observe i).world = s.world := by
  simp only [ListState.observe]
  split
  · split <;> exact ⟨rfl, rfl⟩
  · exact ⟨rfl, rfl⟩

theorem dropHandle_same (s : ListState E) (i : E.Id) :
    (s.dropHandle i).halted = s.halted ∧ (s.dropHandle i).world = s.world := by
  simp only [ListState.dropHandle]
  split <;> exact ⟨rfl, rfl⟩

theorem Undisturbed.processReads {items : List Item} {s : ListState E} (h : Undisturbed items s) :
    Undisturbed items (s.processReads .none) := by
  have hinv := h.toSectionInv.processReads h.running noReadError_none
  cases hg : s.gc with
  | idle =>
    obtain ⟨c, w, hrun, hitems, hlist, _, hin, hout⟩ := h.toSectionInv.reads_run h.running hg
    have heq : s.processReads .none = { s with world := w, gc := .idle } := by
      simp only [ListState.processReads]
      rw [hg]
      exact ended_ok hrun
    refine ⟨hinv, ?_, ?_, fun i => ?_⟩
    · rw [heq]; exact h.running
    · rw [heq]
      show latestDatas E w.items = _
      rw [hitems, h.latest]
    · rw [heq]
      show Share E _ i (w.cells i)
      by_cases hi : i ∈ s.world.list
      · rw [hin i hi, h.latest]
        exact Or.inr (h.shares i).settle_offered
      · rw [hout i hi]
        exact h.shares i
  | collecting cur =>
    have heq : s.processReads .none = s := by unfold ListState.processReads; rw [hg]
    rw [heq]
    exact h
  | finishing =>
    have heq : s.processReads .none = s := by unfold ListState.processReads; rw [hg]
    rw [heq]
    exact h

theorem gcTake_same (s : ListState E) : s.gcTake.halted = s.halted ∧
    s.gcTake.world.items = s.world.items ∧ s.gcTake.world.cells = s.world.cells := by
  simp only [ListState.gcTake]
  split
  · obtain ⟨a, w', hx, ⟨rfl, rfl⟩ | ⟨rfl, _, rfl⟩⟩ := (gcTake_spec s.world).returns
    · rw [ended_ok hx]
      exact ⟨rfl, rfl, rfl⟩
    · rw [ended_ok hx]
      exact ⟨rfl, rfl, rfl⟩
  · exact ⟨rfl, rfl, rfl⟩

theorem Undisturbed.gcCollect {items : List Item} {s : ListState E} (h : Undisturbed items s) :
    Undisturbed items (s.gcCollect .none) := by
  have hinv := h.toSectionInv.gcCollect h.running .none
  cases hg : s.gc with
  | collecting cur =>
    have hcache := h.cache h.running
    simp only [Collecting] at hcache
    rw [hg] at hcache
    obtain ⟨_, hcached, hn⟩ := hcache
    rcases (gcCollect_spec cur (s.world.withFaults .none)).cases with
      ⟨a, w', hx, f, _, rfl⟩ | ⟨e, w', _, hstop, _⟩
    · have heq : s.gcCollect .none = s.ended (fun _ => Gc.finishing)
          (CfgNoodle.gcCollect cur (s.world.withFaults .none)) := by
        unfold ListState.gcCollect; rw [hg]
      rw [heq, ended_ok hx] at hinv ⊢
      refine h.of_cells hinv rfl ?_ rfl
      show latestDatas E (survivors cur s.world.items) = _
      simp only [latestDatas]
      rw [← collected_length, (hcached.collected h.distinct hn s.world.items.length).2]
    · exact absurd hstop (Faults.not_canStop_none e)
  | idle =>
    have heq : s.gcCollect .none = s := by unfold ListState.gcCollect; rw [hg]
    rw [heq]
    exact h
  | finishing =>
    have heq : s.gcCollect .none = s := by unfold ListState.gcCollect; rw [hg]
    rw [heq]
    exact h

theorem Undisturbed.gcFinish {items : List Item} {s : ListState E} (h : Undisturbed items s) :
    Undisturbed items (s.gcFinish .none) := by
  have hinv := h.toSectionInv.gcFinish h.running noReadError_none
  cases hg : s.gc with
  | finishing =>
    rcases (gcFinish_spec (s.world.withFaults .none)).cases with
      ⟨a, w', hx, f, _, rfl⟩ | ⟨e, w', _, hstop, _⟩
    · have heq : s.gcFinish .none = s.ended (fun _ => Gc.idle)
          (CfgNoodle.gcFinish (s.world.withFaults .none)) := by
        unfold ListState.gcFinish; rw [hg]
      rw [heq, ended_ok hx] at hinv ⊢
      exact h.of_cells hinv rfl rfl rfl
    · exact absurd hstop (Faults.not_canStop_none e)
  | idle =>
    have heq : s.gcFinish .none = s := by unfold ListState.gcFinish; rw [hg]
    rw [heq]
    exact h
  | collecting cur =>
    have heq : s.gcFinish .none = s := by unfold ListState.gcFinish; rw [hg]
    rw [heq]
    exact h

theorem Undisturbed.of_world {items : List Item} {s s' : ListState E} (h : Undisturbed items s)
    (hs : SectionInv s') (hh : s'.halted = s.halted) (hw : s'.world = s.world) :
    Undisturbed items s' :=
  h.of_cells hs hh (by rw [hw]) (by rw [hw])

theorem Undisturbed.step {items : List Item} {s : ListState E} (h : Undisturbed items s)
    {c : Section E} (hc : Batching c) : Undisturbed items (s.next c) := by
  cases c with
  | attach i =>
    show Undisturbed items (s.attach i).1
    obtain ⟨hh, hi, hcells⟩ := attach_same s i
    exact h.of_cells (h.toSectionInv.nodes (nodesOnly_attach h.linked i) (h.linked.attach i)) hh
      (by rw [hi]) hcells
  | observe i =>
    show Undisturbed items (s.observe i)
    obtain ⟨hh, hw⟩ := observe_same s i
    exact h.of_world (h.toSectionInv.nodes (nodesOnly_observe s i) (h.linked.observe i)) hh hw
  | dropHandle i =>
    show Undisturbed items (s.dropHandle i)
    obtain ⟨hh, hw⟩ := dropHandle_same s i
    exact h.of_world (h.toSectionInv.nodes (nodesOnly_dropHandle s i) (h.linked.dropHandle i)) hh hw
  | processReads fs =>
    obtain rfl : fs = .none := hc
    exact h.processReads
  | gcTake =>
    show Undisturbed items s.gcTake
    obtain ⟨hh, hi, hcells⟩ := gcTake_same s
    exact h.of_cells (h.toSectionInv.gcTake h.running) hh (by rw [hi]) hcells
  | gcCollect fs =>
    obtain rfl : fs = .none := hc
    exact h.gcCollect
  | gcFinish fs =>
    obtain rfl : fs = .none := hc
    exact h.gcFinish
  | resetCache => exact h.of_cells h.toSectionInv.resetCache rfl rfl rfl
  | writeDefault _ _ | handleWrite _ _ | detach _ | processWrites _ _ | powerLoss => exact hc.elim

/-- A list that has just booted on a storage with these items. -/
def BootedOn (items : List Item) (s : ListState E) : Prop := ∃ addr, s = ListState.boot addr items

theorem undisturbed_reachable {items : List Item} (hd : Distinct E items)
    (hmax : ∀ f ∈ validRecords E items, f.key.get < NonZeroU32.MAX) {s : ListState E}
    (hs : ((sections E (BootedOn items)).restrict fun _ c _ => Batching c).Reachable s) :
    Undisturbed items s := by
  refine hs.invariant ?_ ?_
  · intro s hs
    obtain ⟨addr, rfl⟩ := hs
    exact ⟨⟨linked_boot addr items, hmax, hd, fun _ => cached_new _, fun _ hi => nomatch hi⟩, rfl, rfl,
      fun _ => Or.inl rfl⟩
  · intro s c s' hi hstep
    obtain ⟨rfl, hc⟩ := hstep
    have hstep : s.step c = s.next c := by
      simp only [ListState.step]
      rw [hi.running]
    rw [hstep]
    exact hi.step hc

/-- **Hydration does not depend on when nodes attach**: after any such run, a call
of `process_reads` leaves every node of the list with what one call gives it that
finds all nodes attached. -/
theorem hydration_in_batches {items : List Item} (hd : Distinct E items)
    (hmax : ∀ f ∈ validRecords E items, f.key.get < NonZeroU32.MAX) {s : ListState E}
    (hs : ((sections E (BootedOn items)).restrict fun _ c _ => Batching c).Reachable s)
    (hidle : s.gc = .idle) {nodes : List E.Id} (hnd : (nodes.map E.key).Nodup) :
    ∃ c w c1 w1, CfgNoodle.processReads (s.world.withFaults .none) = .ok c w ∧
      CfgNoodle.processReads (World.bootWith items nodes) = .ok c1 w1 ∧
      ∀ i ∈ nodes, i ∈ s.world.list → w.cells i = w1.cells i ∧
        ((∃ t, w.cells i = ⟨.validNoWriteNeeded, some t⟩) ∨ w.cells i = ⟨.nonResident, none⟩) := by
  have h := undisturbed_reachable hd hmax hs
  obtain ⟨c, w, hrun, _, _, _, hin, _⟩ := h.toSectionInv.reads_run h.running hidle
  obtain ⟨c1, w1, hrun1, _, _, _, _, hcells⟩ := boot_hydrates hd hmax hnd
  refine ⟨c, w, c1, w1, hrun, hrun1, fun i hi hl => ?_⟩
  have hw : w.cells i = hydratedFrom E (latestDatas E items) i := by
    rw [hin i hl, h.latest]
    exact (h.shares i).settle_offered
  rw [hw, hcells i hi]
  exact ⟨rfl, hydratedFrom_cases E _ i⟩

theorem distinct_twoRecords : Distinct twoSettings twoRecords := by
  simp only [Distinct]
  decide +kernel

/-- One node is attached and hydrated, the list collects its garbage, and the
other node is attached. -/
def twoBatches : List (Section twoSettings) :=
  [.attach settingA, .processReads .none, .gcTake, .gcCollect .none, .gcFinish .none,
    .attach settingB]

theorem reachable_batches {items : List Item} {cs : List (Section E)} (hcs : ∀ c ∈ cs, Batching c) :
    ((sections E (BootedOn items)).restrict fun _ c _ => Batching c).Reachable
      (cs.foldl ListState.step (.boot 2 items)) :=
  System.reachable_foldl (S := (sections E (BootedOn items)).restrict fun _ c _ => Batching c)
    (fun c hc _ => ⟨rfl, hcs c hc⟩) (.init ⟨2, rfl⟩)

theorem batching_twoBatches : ∀ c ∈ twoBatches, Batching c := by
  simp [twoBatches, Batching]

theorem hydration_in_two_batches : ∃ (s : ListState twoSettings) (c : _) (w : _) (c1 : _) (w1 : _),
    twoBatches.foldl ListState.step (.boot 2 twoRecords) = s ∧
      CfgNoodle.processReads (s.world.withFaults .none) = .ok c w ∧
      CfgNoodle.processReads (World.bootWith (E := twoSettings) twoRecords [settingA, settingB]) =
        .ok c1 w1 ∧
      ∀ i ∈ [settingA, settingB], i ∈ s.world.list → w.cells i = w1.cells i ∧
        ((∃ t, w.cells i = ⟨.validNoWriteNeeded, some t⟩) ∨ w.cells i = ⟨.nonResident, none⟩) := by
  have hidle : (twoBatches.foldl ListState.step (.boot 2 twoRecords)).gc = .idle := by
    decide +kernel
  have hreach := @reachable_batches twoSettings twoRecords twoBatches batching_twoBatches
  generalize twoBatches.foldl ListState.step (.boot 2 twoRecords) = s at hidle hreach
  have hmax : ∀ f ∈ validRecords twoSettings twoRecords, f.key.get < NonZeroU32.MAX := by
    decide +kernel
  obtain ⟨c, w, c1, w1, h⟩ := @hydration_in_batches twoSettings twoRecords distinct_twoRecords hmax s
    hreach hidle [settingA, settingB] (by decide)
  exact ⟨s, c, w, c1, w1, rfl, h⟩

end CfgNoodle

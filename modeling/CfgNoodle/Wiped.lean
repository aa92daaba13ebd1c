import CfgNoodle.Transitions

/-! # Starting over on a wiped storage

A list whose storage was replaced by an empty one, and whose cache was reset,
writes the values of all its nodes there, also of those that were not marked:
while nothing is stored, every write is due. On any other storage it saves them
exactly if the content is recoverable. -/
namespace CfgNoodle
open Outcome Runs
variable {E : Env}

/-! ## What the nodes and handles leave alone -/

structure SameStorage (w w' : World E) : Prop where
  items : w'.items = w.items
  seqState : w'.seqState = w.seqState
  faults : w'.faults = w.faults

theorem sameStorage_refl (w : World E) : SameStorage w w := ⟨rfl, rfl, rfl⟩

theorem SameStorage.trans {w w' w'' : World E} (h : SameStorage w w') (h' : SameStorage w' w'') :
    SameStorage w w'' :=
  ⟨h'.items.trans h.items, h'.seqState.trans h.seqState, h'.faults.trans h.faults⟩

theorem sameStorage_next (s : ListState E) {c : Section E} (hc : ByNodes c) :
    SameStorage s.world (s.next c).world := by
  cases c with
  | attach i =>
    show SameStorage s.world (s.attach i).1.world
    simp only [ListState.attach]
    split
    · exact sameStorage_refl _
    · exact sameStorage_refl _
    · split <;> exact ⟨rfl, rfl, rfl⟩
  | observe i =>
    show SameStorage s.world (s.observe i).world
    rw [(observe_same s i).2]
    exact sameStorage_refl _
  | writeDefault i t =>
    show SameStorage s.world (s.writeDefault i t).world
    simp only [ListState.writeDefault]
    split <;> exact ⟨rfl, rfl, rfl⟩
  | handleWrite i t =>
    show SameStorage s.world (s.handleWrite i t).1.world
    simp only [ListState.handleWrite]
    split
    · split <;> exact ⟨rfl, rfl, rfl⟩
    · exact sameStorage_refl _
  | dropHandle i =>
    show SameStorage s.world (s.dropHandle i).world
    rw [(dropHandle_same s i).2]
    exact sameStorage_refl _
  | detach i =>
    show SameStorage s.world (s.detach i).1.world
    simp only [ListState.detach]
    split <;> exact ⟨rfl, rfl, rfl⟩
  | _ => exact hc.elim

/-- Any number of such sections. -/
theorem nodes_run : ∀ {cs : List (Section E)}, (∀ c ∈ cs, ByNodes c) → ∀ {s : ListState E}, Linked s →
    Linked (cs.foldl ListState.step s) ∧
      SameStorage s.world (cs.foldl ListState.step s).world
  | [], _, s, h => ⟨h, sameStorage_refl s.world⟩
  | c :: cs, hcs, s, h => by
    have hone : SameStorage s.world (s.step c).world := by
      simp only [ListState.step]
      cases s.halted with
      | true =>
        have hc := hcs c List.mem_cons_self
        cases c <;> first | exact sameStorage_refl _ | exact hc.elim
      | false => exact sameStorage_next s (hcs c List.mem_cons_self)
    obtain ⟨hl, hs⟩ := nodes_run (fun c' hc => hcs c' (List.mem_cons_of_mem c hc)) (h.step c)
    exact ⟨hl, hone.trans hs⟩

/-! ## The empty storage -/

theorem scan_nil : SeqState.scan E [] = { SeqState.new with nextSeq := some NonZeroU32.one } := by
  rcases scan_cases (E := E) [] with ⟨_, h⟩ | ⟨r, hr⟩
  · exact h
  · exact nomatch hr.mem

/-- Where nothing is stored, every list without waiting nodes is due for its first write. -/
theorem writeDue_scan_nil {w : World E} (hs : w.seqState = SeqState.scan E [])
    (hw : ∀ i ∈ w.list, w.state i ≠ .initial) : writeDue w = .ok (some NonZeroU32.one) := by
  have hinit : (w.list.any fun i => w.state i = .initial) = false :=
    List.any_eq_false.mpr fun i hi => by simpa using hw i hi
  have hhigh : (SeqState.scan E []).highestSeen = none := by
    cases h : (SeqState.scan E []).highestSeen with
    | none => rfl
    | some r => exact nomatch (scan_isTop []).subset r (SeqState.mem_records_of_highestSeen h)
  simp only [writeDue, needsWriting]
  rw [hs, hinit, hhigh, scan_nil]
  simp [Except.map]

/-- `process_reads` on an empty cache leaves the nodes with a value alone. -/
theorem reads_of_new {w : World E} (hs : w.seqState = .new) (hf : w.faults = .none) :
    ∃ c w', processReads w = .ok c w' ∧ w'.items = w.items ∧
      w'.seqState = SeqState.scan E w.items ∧ w'.faults = .none ∧
      ∀ i, (w.state i).hasValue = true → w'.cells i = w.cells i := by
  obtain ⟨c, hrun⟩ := processReads_run (w := w) (by rw [hs]; exact located_new _) hf
  refine ⟨c, _, hrun, rfl, ?_, hf, fun i hv => ?_⟩
  · show populate E w.items w.seqState = _
    rw [hs, populate_new]
  · have hr := (reading_processReads w).ok hrun
    rcases hr.cells i with h | ⟨h, _⟩
    · exact h
    · have hv' : (w.cells i).state.hasValue = true := hv
      rw [h] at hv'
      cases hv'

/-- `process_reads` on an empty storage leaves the nodes with a value alone. -/
theorem reads_of_nil {w : World E} (hi : w.items = []) (hs : w.seqState = .new)
    (hf : w.faults = .none) : ∃ c w', processReads w = .ok c w' ∧ w'.items = [] ∧
      w'.seqState = SeqState.scan E [] ∧ w'.faults = .none ∧
      ∀ i, (w.state i).hasValue = true → w'.cells i = w.cells i := by
  have h := reads_of_new hs hf
  rwa [hi] at h

/-- Nothing is collected where nothing is cached. -/
theorem garbage_of_nil {w : World E} (hs : w.seqState = SeqState.scan E []) (hf : w.faults = .none) :
    ∃ c, processGarbage w = .ok c w := by
  obtain ⟨c, hgc⟩ := processGarbage_run hf
  rw [hs, scan_nil, if_neg nofun] at hgc
  exact ⟨c, hgc⟩

/-- The first write to an empty storage. -/
theorem write_of_nil {w : World E} {bufLen : Nat} (hk : ∀ i, E.cbor.Canonical (E.key i))
    (hcodec : ∀ i (t : E.T i), (E.vtable i).decode ((E.vtable i).encode t).flatten = some t)
    (hi : w.items = []) (hs : w.seqState = SeqState.scan E []) (hf : w.faults = .none)
    (hnd : (w.list.map E.key).Nodup) (hinit : ∀ i ∈ w.list, w.state i ≠ .initial)
    (hfits : Fits bufLen w) : ∃ c w', processWrites bufLen w = .ok c w' ∧
      (∀ i, (w'.cells i).t = (w.cells i).t) ∧ Restores w w'.items := by
  have habove : ∀ f ∈ validRecords E w.items, f.key.get < NonZeroU32.one.get := by
    rw [hi]
    exact fun f hf => nomatch hf
  obtain ⟨c, w', hrun, hrest⟩ := (write_restores_iff hk hcodec hf hnd hfits
    (writeDue_scan_nil hs hinit) habove).mpr (by rw [hi]; exact fun x hx => nomatch hx)
  refine ⟨c, w', hrun, fun i => ?_, hrest⟩
  obtain ⟨_, hc | hc⟩ := (processWrites_nodes bufLen w).ok hrun
  · rw [hc]
  · rw [hc]
    exact markWritten_t _ _ i

/-- After its storage was replaced by an empty one, `reset_cache`, `process_reads`,
`process_garbage` and `process_writes` return `Ok`, the values of the nodes stay as
they are, and a new list restores them. The nodes may be attached, written and
detached between the calls; none waits for its data when `process_writes` runs. -/
def Recovers (s : ListState E) : Prop :=
  ∃ w0 c1 w1, resetCache ((s.world.withItems []).withFaults .none) = .ok ⟨⟩ w0 ∧
    processReads w0 = .ok c1 w1 ∧
    (∀ i, (s.world.state i).hasValue = true → w1.cells i = s.world.cells i) ∧
    ∀ (cs : List (Section E)) (s1 : ListState E), (∀ c ∈ cs, ByNodes c) →
      s1 = cs.foldl ListState.step { s with world := w1 } →
      ∃ c2 w2, processGarbage s1.world = .ok c2 w2 ∧ w2.cells = s1.world.cells ∧
        ∀ (cs' : List (Section E)) (s2 : ListState E) (bufLen : Nat), (∀ c ∈ cs', ByNodes c) →
          s2 = cs'.foldl ListState.step { s1 with world := w2 } →
          (∀ i ∈ s2.world.list, s2.world.state i ≠ .initial) → Fits bufLen s2.world →
          ∃ c3 w3, processWrites bufLen s2.world = .ok c3 w3 ∧
            (∀ i, (w3.cells i).t = (s2.world.cells i).t) ∧ Restores s2.world w3.items

/-- **A list survives the loss of its storage**, in whatever state its runs have
brought it, and with whatever the storage did and held before. -/
theorem wiped_storage_recovers {s : ListState E} (hk : ∀ i, E.cbor.Canonical (E.key i))
    (hcodec : ∀ i (t : E.T i), (E.vtable i).decode ((E.vtable i).encode t).flatten = some t)
    (hs : (sections E fun s => ∃ items, BootedOn items s).Reachable s) : Recovers s := by
  have hlinked := linked_reachable hs
  obtain ⟨c1, w1, hread, hi1, hs1, hf1, hcells⟩ := reads_of_nil
    (w := ((s.world.withItems []).withFaults .none).withSeq .new) rfl rfl rfl
  have hl1 : Linked { s with world := w1 } := by
    have hr := (reading_processReads _).ok hread
    exact hlinked.world s.gc s.halted hr.list hr.out fun i => (hr.cells i).wf (hlinked.wf i)
  refine ⟨_, c1, w1, rfl, hread, hcells, fun cs s1 hcs hs1' => ?_⟩
  obtain ⟨hl2, hsame⟩ := nodes_run hcs hl1
  rw [← hs1'] at hl2 hsame
  obtain ⟨c2, hgc⟩ := garbage_of_nil (hsame.seqState.trans hs1) (hsame.faults.trans hf1)
  refine ⟨c2, s1.world, hgc, rfl, fun cs' s2 bufLen hcs' hs2' hinit hfits => ?_⟩
  obtain ⟨hl3, hsame'⟩ := nodes_run hcs' hl2
  rw [← show s2 = cs'.foldl ListState.step s1 from hs2'] at hl3 hsame'
  have h := hsame.trans hsame'
  exact write_of_nil hk hcodec (h.items.trans hi1) (h.seqState.trans hs1) (h.faults.trans hf1)
    hl3.keys hinit hfits

/-- The one node of this list is clean, so that nothing asks for a write. -/
theorem wiped_storage_recovers_flushed : Recovers flushed :=
  wiped_storage_recovers twoSettings_canonical settings_codec
    (System.reachable_foldl (S := sections twoSettings fun s => ∃ items, BootedOn items s)
      (fun _ _ _ => rfl) (.init ⟨[], 2, rfl⟩))

/-! ## Any storage -/

/-- With this content in the storage, `reset_cache`, `process_reads` and
`process_garbage` return `Ok` and leave the values of the nodes as they are, and
`process_writes` then saves all of them exactly if the content is recoverable. The
nodes may be attached, written and detached between the calls. -/
def ResetSaves (s : ListState E) (items : List Item) : Prop :=
  ∃ w0 c1 w1, resetCache ((s.world.withItems items).withFaults .none) = .ok ⟨⟩ w0 ∧
    processReads w0 = .ok c1 w1 ∧
    (∀ i, (s.world.state i).hasValue = true → w1.cells i = s.world.cells i) ∧
    ∀ (cs : List (Section E)) (s1 : ListState E), (∀ c ∈ cs, ByNodes c) →
      s1 = cs.foldl ListState.step { s with world := w1 } →
      ∃ c2 w2, processGarbage s1.world = .ok c2 w2 ∧ w2.cells = s1.world.cells ∧
        ∀ (cs' : List (Section E)) (s2 : ListState E) (bufLen : Nat), (∀ c ∈ cs', ByNodes c) →
          s2 = cs'.foldl ListState.step { s1 with world := w2 } →
          Writable s2.world → Fits bufLen s2.world →
          ((∃ c3 w3, processWrites bufLen s2.world = .ok c3 w3 ∧ Restores s2.world w3.items) ↔
            Recoverable E items)

/-- A collection without faults leaves the nodes alone. -/
theorem garbage_nodes {w w' : World E} {c : ProcessGarbageCounters} (hf : w.faults = .none)
    (h : processGarbage w = .ok c w') :
    w'.list = w.list ∧ w'.cells = w.cells ∧ w'.faults = .none := by
  obtain ⟨c', hrun⟩ := processGarbage_run hf
  rw [h] at hrun
  cases hrun
  split
  · exact ⟨rfl, rfl, hf⟩
  · exact ⟨rfl, rfl, hf⟩

/-- **A reset saves what is unsaved**, exactly if the storage holds a valid record or
no `Start` with the first number: from whatever state the runs of a list have brought
it to, also where every write keeps failing. -/
theorem reset_saves_iff {s : ListState E} (hk : ∀ i, E.cbor.Canonical (E.key i))
    (hcodec : ∀ i (t : E.T i), (E.vtable i).decode ((E.vtable i).encode t).flatten = some t)
    (hs : (sections E fun s => ∃ items, BootedOn items s).Reachable s) {items : List Item}
    (hmax : ∀ f ∈ validRecords E items, f.key.get < NonZeroU32.MAX) : ResetSaves s items := by
  have hlinked := linked_reachable hs
  obtain ⟨c1, w1, hread, hi1, hs1, hf1, hcells⟩ := reads_of_new
    (w := ((s.world.withItems items).withFaults .none).withSeq .new) rfl rfl
  have hl1 : Linked { s with world := w1 } := by
    have hr := (reading_processReads _).ok hread
    exact hlinked.world s.gc s.halted hr.list hr.out fun i => (hr.cells i).wf (hlinked.wf i)
  refine ⟨_, c1, w1, rfl, hread, hcells, fun cs s1 hcs hs1' => ?_⟩
  obtain ⟨hl2, hsame⟩ := nodes_run hcs hl1
  rw [← hs1'] at hl2 hsame
  have hfaults : s1.world.faults = .none := hsame.faults.trans hf1
  have hscanned : s1.world.items = items ∧ s1.world.seqState = SeqState.scan E items ∧
      s1.world.faults = .none := ⟨hsame.items.trans hi1, hsame.seqState.trans hs1, hfaults⟩
  obtain ⟨c2, w2, n, hgc, hnext, hclean, habove, hiff⟩ := boot_garbage hmax hscanned
  obtain ⟨hlist, hc2, hf2⟩ := garbage_nodes hfaults hgc
  refine ⟨c2, w2, hgc, hc2, fun cs' s2 bufLen hcs' hs2' hwritable hfits => ?_⟩
  obtain ⟨hl3, hsame'⟩ := nodes_run hcs' (hl2.sameNodes s1.gc s1.halted hlist hc2)
  rw [← show s2 = cs'.foldl ListState.step { s1 with world := w2 } from hs2'] at hl3 hsame'
  have hdue := hwritable.writeDue (hsame'.seqState ▸ hnext) (hsame'.seqState ▸ hclean)
  rw [← hiff, ← show s2.world.items = w2.items from hsame'.items]
  exact write_restores_iff hk hcodec (hsame'.faults.trans hf2) hl3.keys hfits hdue
    (hsame'.items ▸ habove)

/-- A push of a second write fails, and from then on every write does. -/
def wedged : ListState twoSettings :=
  [.gcTake, .gcCollect .none, .gcFinish .none, .handleWrite settingA (9 : UInt8),
    .processWrites 64 { pushes := [.ok, .err () (.torn 3)] }].foldl ListState.step flushed

set_option maxRecDepth 4000 in
theorem wedged_reset_saves :
    returnedOk (processWrites 64 (wedged.world.withFaults .none)) = false ∧
      Recoverable twoSettings wedged.world.items ∧ ResetSaves wedged wedged.world.items := by
  have hreach : (sections twoSettings fun s => ∃ items, BootedOn items s).Reachable wedged :=
    System.reachable_foldl (fun _ _ _ => rfl)
      (System.reachable_foldl (fun _ _ _ => rfl) (.init ⟨[], 2, rfl⟩))
  have hrecord : (validRecords twoSettings wedged.world.items).isEmpty = false := by decide +kernel
  refine ⟨by decide +kernel, Or.inl fun hnil => ?_,
    reset_saves_iff twoSettings_canonical settings_codec hreach (by decide +kernel)⟩
  rw [hnil] at hrecord
  cases hrecord

end CfgNoodle

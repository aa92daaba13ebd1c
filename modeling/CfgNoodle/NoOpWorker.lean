import CfgNoodle.Clients
import CfgNoodle.Counters

/-! # The worker that saves nothing

`no_op_worker_task` serves every `needs_read` with a `process_reads` on a storage
that is always empty. The list is then a memory: a node has what was last written
to it since it was attached, first of all its default. -/
namespace CfgNoodle
open Outcome Runs
variable {E : Env}

/-! ## The runs -/

/-- The users of the list, the call of the worker, and `reset_cache`.
`AlwaysEmptyFlash` never fails. -/
inductive Unsaved : Section E → Prop
  | nodes {c : Section E} (h : ByNodes c) : Unsaved c
  | processReads : Unsaved (.processReads .none)
  | resetCache : Unsaved .resetCache

instance : DecidableEq (layout E).ι := E.decId

/-- A list, and what was last written to its nodes. -/
structure Memory (E : Env) where
  list : ListState E
  last : WriteBack.Live (layout E)

def Memory.next (s : Memory E) (c : Section E) : Memory E :=
  ⟨s.list.step c, WriteBack.remember s.last (storeOp s.list c (s.list.step c))⟩

/-- The runs of a list at this address that the no-op worker serves. -/
def noOp (E : Env) (addr : Nat) : System (Memory E) (Section E) where
  init s := s = ⟨.boot addr [], fun _ => none⟩
  step s c s' := Unsaved c ∧ s' = s.next c

/-! ## A read of nothing -/

/-- Nothing is stored, and nothing was ever found. -/
structure Blank (w : World E) : Prop where
  items : w.items = []
  records : w.seqState.records = []

theorem populate_nil_records {s : SeqState E.kept} (h : s.records = []) :
    (populate E [] s).records = [] := by
  unfold populate
  split
  · exact h
  · rw [finishScan_records]
    exact h

theorem populate_nil_highestSeen {s : SeqState E.kept} (h : s.records = []) :
    (populate E [] s).highestSeen = none := by
  refine Option.eq_none_iff_forall_ne_some.mpr fun r hr => ?_
  have hmem := SeqState.mem_records_of_highestSeen hr
  rw [populate_nil_records h] at hmem
  cases hmem

/-- The call returns, has read nothing, and has changed nothing but the waiting nodes. -/
theorem Blank.processReads {w : World E} (h : Blank w) (hf : w.faults = .none) :
    ∃ w', CfgNoodle.processReads w = .ok ⟨0, 0⟩ w' ∧ Blank w' ∧ w'.list = w.list ∧
      w'.cells = markInitialNonresident w.list w.cells := by
  have hl : Located w.items w.seqState := by
    intro r hr
    rw [h.records] at hr
    cases hr
  have hrecords : (populate E w.items w.seqState).records = [] :=
    h.items ▸ populate_nil_records h.records
  have hseen : (populate E w.items w.seqState).highestSeen = none :=
    h.items ▸ populate_nil_highestSeen h.records
  obtain ⟨c, hx⟩ := processReads_run hl hf
  have hcounts : c = ⟨0, 0⟩ := by
    have hc := (processReads_counts hl).ok hx
    unfold ReadCounts at hc
    rw [hseen] at hc
    rw [hc]
    unfold scanned
    rw [h.items]
    split <;> rfl
  rw [hcounts] at hx
  refine ⟨_, hx, ⟨h.items, hrecords⟩, rfl, ?_⟩
  show readCells w _ = _
  unfold readCells recordDatas
  rw [hseen]
  rfl

/-! ## What holds in every state -/

theorem storeOp_nodes (s s' : ListState E) {c : Section E} (hc : ByNodes c) :
    (∀ filled, storeOp s c s' ≠ .load filled) ∧ storeOp s c s' ≠ .crash := by
  unfold storeOp
  cases s.halted with
  | true =>
    cases c with
    | powerLoss => exact hc.elim
    | _ => exact ⟨nofun, nofun⟩
  | false =>
    cases c with
    | attach | observe | dropHandle => exact ⟨nofun, nofun⟩
    | writeDefault | handleWrite | detach =>
      dsimp only
      split
      · exact ⟨nofun, nofun⟩
      · exact ⟨nofun, nofun⟩
    | processReads | processWrites | gcTake | gcCollect | gcFinish | resetCache | powerLoss =>
      exact hc.elim

structure Unstored (s : Memory E) : Prop where
  linked : Linked s.list
  running : s.list.halted = false
  idle : s.list.gc = .idle
  blank : Blank s.list.world
  told : Told s.list
  values : s.list.store.live = s.last

theorem unstored_boot (addr : Nat) : Unstored (⟨.boot addr [], fun _ => none⟩ : Memory E) :=
  ⟨linked_boot addr [], rfl, rfl, ⟨rfl, SeqState.records_new⟩, told_boot addr [], rfl⟩

theorem Unstored.nodes {s : Memory E} (h : Unstored s) {c : Section E} (hc : ByNodes c) :
    Unstored (s.next c) := by
  have hstep := step_of_running h.running c
  have hn := nodesOnly_next h.linked hc
  have hop := storeOp_nodes s.list (s.list.next c) hc
  unfold Memory.next
  rw [hstep]
  refine ⟨hstep ▸ h.linked.step c, hn.halted.trans h.running, hn.gc.trans h.idle,
    ⟨hn.items.trans h.blank.items, ?_⟩, h.told.nodes h.linked hc, ?_⟩
  · show (s.list.next c).world.seqState.records = []
    rw [hn.seqState]
    exact h.blank.records
  · rw [← h.values]
    exact (storeOp_step_nodes h.running hc).live_eq_remember hop.1 hop.2

theorem Unstored.processReads {s : Memory E} (h : Unstored s) :
    Unstored (s.next (.processReads .none)) := by
  obtain ⟨w', hx, hblank, hlist, hcells⟩ := Blank.processReads (w := s.list.world.withFaults .none)
    ⟨h.blank.items, h.blank.records⟩ rfl
  have hstep : s.list.step (.processReads .none) = { s.list with world := w', gc := .idle } := by
    rw [step_of_running h.running]
    show s.list.processReads .none = _
    unfold ListState.processReads
    rw [h.idle, hx]
    rfl
  have hop : ∃ filled, storeOp s.list (.processReads .none) (s.list.step (.processReads .none)) =
      .load filled := by
    unfold storeOp
    rw [h.running]
    exact ⟨_, rfl⟩
  obtain ⟨filled, hop⟩ := hop
  unfold Memory.next
  rw [hop]
  rw [hstep]
  refine ⟨hstep ▸ h.linked.step _, h.running, rfl, hblank, hstep ▸ h.told.step h.linked _, ?_⟩
  · show (fun i => (w'.cells i).t) = s.last
    rw [hcells, ← h.values]
    funext i
    exact markInitialNonresident_t s.list.world.list s.list.world.cells i

theorem Unstored.step {s : Memory E} (h : Unstored s) {c : Section E} (hc : Unsaved c) :
    Unstored (s.next c) := by
  cases hc with
  | nodes hn => exact h.nodes hn
  | processReads => exact h.processReads
  | resetCache =>
    have hstep : s.list.step .resetCache =
        { s.list with world := s.list.world.withSeq .new } := step_of_running h.running _
    have hop : storeOp s.list .resetCache (s.list.step .resetCache) = .stay := by
      unfold storeOp
      rw [h.running]
    unfold Memory.next
    rw [hop, hstep]
    exact ⟨hstep ▸ h.linked.step _, h.running, h.idle, ⟨h.blank.items, SeqState.records_new⟩,
      h.told, h.values⟩

theorem unstored_reachable {addr : Nat} {s : Memory E} (hs : (noOp E addr).Reachable s) :
    Unstored s := by
  refine hs.invariant ?_ ?_
  · intro s hi
    obtain rfl := hi
    exact unstored_boot addr
  · intro s c s' hi hstep
    obtain ⟨hc, rfl⟩ := hstep
    exact hi.step hc

/-- **The worker that saves nothing never fails, and the list remembers**: whenever
it is asked to read, the call returns, having read nothing; no node of the list
waits any longer, and none has another value. Every node has what was last
written to it since it was attached, and whoever has a handle has such a value. -/
theorem no_op_worker_remembers {addr : Nat} {s : Memory E} (hs : (noOp E addr).Reachable s) :
    (∃ w, processReads (s.list.world.withFaults .none) = .ok ⟨0, 0⟩ w ∧
      (∀ i ∈ w.list, w.state i ≠ .initial) ∧ ∀ i, (w.cells i).t = (s.list.world.cells i).t) ∧
    (∀ i, (s.list.world.cells i).t = s.last i) ∧
    ∀ i, s.list.client i = .handle → ∃ t, s.last i = some t := by
  have h := unstored_reachable hs
  have hvalues : ∀ i, (s.list.world.cells i).t = s.last i := fun i => congrFun h.values i
  refine ⟨?_, hvalues, fun i hi => ?_⟩
  · obtain ⟨w', hx, _, hlist, hcells⟩ := Blank.processReads (w := s.list.world.withFaults .none)
      ⟨h.blank.items, h.blank.records⟩ rfl
    refine ⟨w', hx, fun i hi hs => ?_, fun i => ?_⟩
    · have hst : (w'.cells i).state = .initial := hs
      rw [hcells] at hst
      unfold markInitialNonresident at hst
      split at hst
      · cases hst
      · next hn => exact hn ⟨hlist ▸ hi, hst⟩
    · rw [hcells]
      exact markInitialNonresident_t s.list.world.list s.list.world.cells i
  · have hvalue := h.told.value h.linked hi
    rwa [hvalues] at hvalue

/-- A node gets its default, is written, dropped and detached, and attached again. -/
def reattaching : List (Section twoSettings) :=
  [.attach settingA, .processReads .none, .observe settingA, .writeDefault settingA (0 : UInt8),
    .handleWrite settingA (42 : UInt8), .dropHandle settingA, .detach settingA, .attach settingA,
    .processReads .none, .observe settingA, .writeDefault settingA (0 : UInt8)]

def reattached : Memory twoSettings := reattaching.foldl Memory.next ⟨.boot 0 [], fun _ => none⟩

theorem reachable_reattached : (noOp twoSettings 0).Reachable reattached := by
  have hunsaved : ∀ c ∈ reattaching, Unsaved c := by
    simp only [reattaching, List.forall_mem_cons]
    exact ⟨.nodes trivial, .processReads, .nodes trivial, .nodes trivial, .nodes trivial,
      .nodes trivial, .nodes trivial, .nodes trivial, .processReads, .nodes trivial, .nodes trivial, nofun⟩
  exact System.reachable_foldl (S := noOp twoSettings 0) (f := Memory.next)
    (fun c hc s => ⟨hunsaved c hc, rfl⟩) (.init rfl)

set_option maxRecDepth 4000 in
theorem reattached_remembers : reattached.list.client settingA = .handle ∧
    (reattached.list.world.cells settingA).t = some (0 : UInt8) := by
  have hlast : reattached.last settingA = some (0 : UInt8) := rfl
  exact ⟨by decide +kernel, ((no_op_worker_remembers reachable_reattached).2.1 settingA).trans hlast⟩

end CfgNoodle

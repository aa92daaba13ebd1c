import CfgNoodle.Interrupted
import CfgNoodle.Lib.Runs

/-! # Runs of calls

A device on which the calls of a list are made one after the other, each with a
script of what its storage operations do, while the nodes change as they like
and power may be lost. The cache that a collection works from covers a greatest
record in every state of a run in which no scan was cut short by a read error
after it had accepted too little. -/
namespace CfgNoodle
open Framing Outcome Runs
open scoped List
variable {E : Env}

/-! ## The device -/

/-- What a call of `process_writes` has pushed, and whether it returned `Ok`. -/
structure WriteCall where
  pushed : List Item
  ok : Bool
  deriving DecidableEq

/-- A list on its storage, with a record of the calls of `process_writes` that
no call reads. -/
structure Device (E : Env) where
  world : World E
  log : List WriteCall

inductive Call (E : Env) where
  /-- The nodes are attached, detached and written. -/
  | nodes (list : List E.Id) (cells : Cells E)
  | processReads (fs : Faults E.Err)
  | processWrites (bufLen : Nat) (fs : Faults E.Err)
  | processGarbage (fs : Faults E.Err)
  | resetCache
  | powerLoss

/-- The state in which a call ended. -/
def endState {α : Type} : EStateM.Result (Stop E.Err) (World E) α → World E
  | .ok _ w => w
  | .error _ w => w

def returnedOk {α : Type} : EStateM.Result (Stop E.Err) (World E) α → Bool
  | .ok _ _ => true
  | .error _ _ => false

/-- A call that was stopped by a power loss leaves only the storage, on which a
new list boots. -/
def World.stopped (w : World E) : Stop E.Err → World E
  | .cut => World.boot w.items
  | _ => w

def World.after {α : Type} : EStateM.Result (Stop E.Err) (World E) α → World E
  | .ok _ w => w
  | .error e w => w.stopped e

/-- The state in which the next call of `process_writes` starts. -/
def Device.writing (d : Device E) (fs : Faults E.Err) : World E :=
  (d.world.withFaults fs).withCall d.log.length

def Device.call (d : Device E) : Call E → Device E
  | .nodes list cells => { d with world := { d.world with list, cells } }
  | .processReads fs => { d with world := World.after (processReads (d.world.withFaults fs)) }
  | .processWrites bufLen fs =>
    let r := CfgNoodle.processWrites bufLen (d.writing fs)
    ⟨World.after r, d.log ++ [⟨(endState r).items.drop d.world.items.length, returnedOk r⟩]⟩
  | .processGarbage fs => { d with world := World.after (processGarbage (d.world.withFaults fs)) }
  | .resetCache => { d with world := d.world.withSeq .new }
  | .powerLoss => { d with world := World.boot d.world.items }

/-- The runs of calls that start in these states. -/
def calls (E : Env) (init : Device E → Prop) : System (Device E) (Call E) where
  init := init
  step d c d' := d' = d.call c

@[simp] theorem World.stopped_items (w : World E) (e : Stop E.Err) : (w.stopped e).items = w.items := by
  cases e <;> rfl

theorem Device.call_processReads {d : Device E} {fs : Faults E.Err}
    {r : EStateM.Result (Stop E.Err) (World E) ProcessReadCounters}
    (h : CfgNoodle.processReads (d.world.withFaults fs) = r) :
    d.call (.processReads fs) = ⟨World.after r, d.log⟩ := h ▸ rfl

theorem Device.call_processWrites {d : Device E} {bufLen : Nat} {fs : Faults E.Err}
    {r : EStateM.Result (Stop E.Err) (World E) ProcessWriteCounters}
    (h : CfgNoodle.processWrites bufLen (d.writing fs) = r) :
    d.call (.processWrites bufLen fs) =
      ⟨World.after r, d.log ++ [⟨(endState r).items.drop d.world.items.length, returnedOk r⟩]⟩ :=
  h ▸ rfl

theorem Device.call_processGarbage {d : Device E} {fs : Faults E.Err}
    {r : EStateM.Result (Stop E.Err) (World E) ProcessGarbageCounters}
    (h : CfgNoodle.processGarbage (d.world.withFaults fs) = r) :
    d.call (.processGarbage fs) = ⟨World.after r, d.log⟩ := h ▸ rfl

theorem endState_of_ends {α : Type} {x : M E α} {w : World E} {P : World E → Prop}
    (h : Ends x w (fun _ w' => P w') fun _ w' => P w') : P (endState (x w)) := by
  rcases h.cases with ⟨_, _, hx, hp⟩ | ⟨_, _, hx, hp⟩ <;> rwa [hx]

theorem after_of_ends {α : Type} {x : M E α} {w : World E} {Q : α → World E → Prop}
    {R : Stop E.Err → World E → Prop} {P : World E → Prop} (h : Ends x w Q R)
    (hq : ∀ a w', Q a w' → P w') (hr : ∀ e w', e ≠ .cut → R e w' → P w')
    (hboot : ∀ w', R .cut w' → P (World.boot w'.items)) : P (World.after (x w)) := by
  rcases h.cases with ⟨a, w', hx, ha⟩ | ⟨e, w', hx, he⟩
  · rw [hx]; exact hq a w' ha
  · rw [hx]
    cases e with
    | error e => exact hr (.error e) w' nofun he
    | cut => exact hboot _ he
    | ub => exact hr .ub w' nofun he

/-! ## Storages that grow -/

theorem Points.append {items more : List Item} {r : GoodWriteRecord} {f : Record}
    (h : Points (E := E) items r f) (hsub : validRecords E items ⊆ validRecords E (items ++ more)) :
    Points (E := E) (items ++ more) r f := ⟨hsub h.mem, h.seq, h.first, h.last_le⟩

theorem Located.append {items more : List Item} {s : SeqState E.kept} (h : Located items s)
    (hsub : validRecords E items ⊆ validRecords E (items ++ more)) : Located (items ++ more) s :=
  fun r hr => (h r hr).imp fun _ hf => hf.append hsub

/-- The valid records after a call of `process_writes` that pushed a record or a
part of one. -/
def Grown (E : Env) (items : List Item) (s : NonZeroU32) (items' : List Item) : Prop :=
  validRecords E items' = validRecords E items ∨
    ∃ seg, validRecords E items' = validRecords E items ++ [⟨s, items.length, seg⟩]

theorem grown_partly {items part : List Item} {fs : Faults E.Err} {call : Nat} {s : NonZeroU32}
    {ds : List SerData} (h : Partly fs call (recordElems E s ds) part) :
    Grown E items s (items ++ part) := by
  rcases validRecords_append_partly items h with h | ⟨_, rfl⟩
  · exact Or.inl h
  · exact Or.inr ⟨_, validRecords_append_record items s ds call⟩

theorem grown_record (items : List Item) (s : NonZeroU32) (ds : List SerData) (call : Nat) :
    Grown E items s (items ++ recordItems E s ds call) :=
  Or.inr ⟨_, validRecords_append_record items s ds call⟩

theorem Grown.subset {items items' : List Item} {s : NonZeroU32} (h : Grown E items s items') :
    validRecords E items ⊆ validRecords E items' := by
  intro f hf
  rcases h with h | ⟨seg, h⟩
  · rwa [h]
  · rw [h]; exact List.mem_append_left _ hf

theorem Grown.le {items items' : List Item} {s : NonZeroU32} (h : Grown E items s items')
    (hle : ∀ f ∈ validRecords E items, f.key.get ≤ s.get) :
    ∀ f ∈ validRecords E items', f.key.get ≤ s.get := by
  intro f hf
  rcases h with h | ⟨seg, h⟩
  · exact hle f (h ▸ hf)
  · rw [h, List.mem_append, List.mem_singleton] at hf
    rcases hf with hf | rfl
    · exact hle f hf
    · exact Nat.le_refl _

/-! ## What a collection works from -/

/-- The cache points at valid records; the number it hands out is above all of
those and not below any other; and where a collection is due, a greatest record
is cached. -/
structure Covers (items : List Item) (s : SeqState E.kept) : Prop where
  located : Located items s
  sorted : s.Sorted
  unset : s.nextSeq = none → s.records = [] ∧ s.needsGc = false ∨
    ∃ r ∈ s.records, r.seqKey = NonZeroU32.MAX
  above : ∀ n, s.nextSeq = some n → (∀ f ∈ validRecords E items, f.key.get ≤ n.get) ∧
    ∀ r ∈ s.records, r.seqKey < n.get
  greatest : s.needsGc = true → ∃ r ∈ s.records, ∀ f ∈ validRecords E items, f.key.get ≤ r.seqKey

theorem covers_new (items : List Item) : Covers (E := E) items .new :=
  ⟨located_new items, SeqState.sorted_new, fun _ => Or.inl ⟨SeqState.records_new, rfl⟩, nofun, nofun⟩

theorem seqKey_le_max (r : GoodWriteRecord) : r.seqKey ≤ NonZeroU32.MAX := by
  have := r.seq.lt
  unfold GoodWriteRecord.seqKey NonZeroU32.MAX
  omega

/-- An insertion into a cache that then holds a greatest record. -/
theorem covers_of_inserted {items : List Item} {s : SeqState E.kept} (hl : Located items s)
    (hs : s.Sorted) (hi : s.Inserted) {y : GoodWriteRecord} (hy : y ∈ s.records)
    (hmax : ∀ f ∈ validRecords E items, f.key.get ≤ y.seqKey) : Covers items s := by
  obtain ⟨r, hmem, _, hle, hnext⟩ := hi.highest hs (List.ne_nil_of_mem hy)
  refine ⟨hl, hs, fun hn => Or.inr ⟨r, hmem, ?_⟩, fun n hn => ?_, fun _ => ⟨y, hy, hmax⟩⟩
  · exact NonZeroU32.checkedAdd_one_eq_none.mp (hnext.symm.trans hn)
  · have h1 : n.get = r.seqKey + 1 := NonZeroU32.checkedAdd_eq_some.mp (hnext.symm.trans hn)
    constructor
    · intro f hf
      have := (hmax f hf).trans (hle y hy)
      omega
    · intro x hx
      have := hle x hx
      omega

/-- A scan after which, for every valid record, one not below it was accepted or
cached before. -/
theorem Covers.scan {items : List Item} {s : SeqState E.kept} (h : Covers items s)
    (hn : s.nextSeq = none) {recs : List GoodWriteRecord} (hsub : recs ⊆ goodRecords E items)
    (hall : ∀ f ∈ validRecords E items, ∃ r ∈ recs ++ s.records, f.key.get ≤ r.seqKey) :
    Covers items (s.insertAll E.sorter recs).finishScan := by
  have hloc := h.located.insertAll hsub
  have hsorted := h.sorted.insertAll E.sorter recs
  by_cases hne : recs ++ s.records = []
  · -- nothing is stored: the scan ends with the first number
    have hval : validRecords E items = [] := by
      refine List.eq_nil_iff_forall_not_mem.mpr fun f hf => ?_
      obtain ⟨r, hr, _⟩ := hall f hf
      rw [hne] at hr; cases hr
    obtain ⟨rfl, hrec⟩ := List.append_eq_nil_iff.mp hne
    have hgc : s.needsGc = false := by
      rcases h.unset hn with ⟨_, hg⟩ | ⟨r, hr, _⟩
      · exact hg
      · rw [hrec] at hr; cases hr
    refine ⟨?_, ?_, ?_, ?_, ?_⟩
    · intro r hr
      rw [finishScan_records] at hr
      exact hloc r hr
    · unfold SeqState.Sorted
      rw [finishScan_lastRecords]
      exact hsorted
    · intro _
      rw [finishScan_records, finishScan_needsGc]
      exact Or.inl ⟨hrec, hgc⟩
    · intro n _
      rw [finishScan_records, hval, SeqState.insertAll_nil, hrec]
      simp
    · rw [finishScan_needsGc, SeqState.insertAll_nil, hgc]
      nofun
  · obtain ⟨y, hy, hmax⟩ := SeqState.exists_max_insertAll E.sorter E.kept_pos s hne
    have hseen : ∃ r, (s.insertAll E.sorter recs).highestSeen = some r := by
      rcases hsorted.highestSeen with ⟨_, hnil⟩ | ⟨r, hr, _⟩
      · rw [hnil] at hy; cases hy
      · exact ⟨r, hr⟩
    obtain ⟨r, hr⟩ := hseen
    rw [finishScan_eq_self hr]
    rcases SeqState.insertAll_cases E.sorter recs s with he | hi
    · rw [he]
      exact h
    · refine covers_of_inserted hloc hsorted hi hy fun f hf => ?_
      obtain ⟨x, hx, hle⟩ := hall f hf
      exact hle.trans (hmax x hx)

/-- A scan without faults. -/
theorem Covers.populate {items : List Item} {s : SeqState E.kept} (h : Covers items s) :
    Covers items (CfgNoodle.populate E items s) := by
  cases hn : s.nextSeq with
  | some n =>
    rw [populate_of_nextSeq hn]
    exact h
  | none =>
    rw [populate_of_unset hn]
    refine h.scan hn (List.Subset.refl _) fun f hf => ?_
    exact ⟨goodOf f, List.mem_append_left _ (List.mem_map_of_mem hf), Nat.le_refl _⟩

theorem covers_scan (items : List Item) : Covers items (SeqState.scan E items) :=
  populate_new (E := E) items ▸ (covers_new items).populate

/-! ## Scans that are cut short -/

/-- A scan of these items with this script is not stopped by a read error, or had
by then accepted nothing or a record as great as every valid one. -/
def ScansEnough (E : Env) (items : List Item) (reads : List (ReadAnswer E.Err)) : Prop :=
  ∀ q x rest, ReadsStop reads q .flashRead (.error (.flashRead x)) rest → q ≤ items.length + 1 →
    acceptedBefore E items q = [] ∨
      ∀ f ∈ validRecords E items, ∃ r ∈ acceptedBefore E items q, f.key.get ≤ r.seqKey

theorem ReadsStop.error_of_ne_cut {ε : Type} {reads rest : List (ReadAnswer ε)} {n : Nat}
    {f : ε → LoadStoreError ε} {e : Stop ε} (h : ReadsStop reads n f e rest) (hc : e ≠ .cut) :
    ∃ x, e = .error (f x) := by
  obtain ⟨a, _, ha⟩ := h
  cases a with
  | ok => cases ha
  | err x => exact ⟨x, (Option.some.inj ha).symm⟩
  | cut => exact absurd (Option.some.inj ha).symm hc

/-- A cache on which such a scan was stopped. -/
theorem Covers.stopped {items : List Item} {s : SeqState E.kept} (h : Covers items s)
    (hn : s.nextSeq = none) {reads rest : List (ReadAnswer E.Err)} {q : Nat} {e : Stop E.Err}
    (hsc : s.records = [] → ScansEnough E items reads) (hq : q ≤ items.length + 1)
    (hs : ReadsStop reads q .flashRead e rest) (hc : e ≠ .cut) :
    Covers items (s.insertAll E.sorter (acceptedBefore E items q)) := by
  obtain ⟨x, rfl⟩ := hs.error_of_ne_cut hc
  have hsub : acceptedBefore E items q ⊆ goodRecords E items := by
    intro r hr
    rw [(goodRecords_split (E := E) items q).1]
    exact List.mem_append_left _ hr
  by_cases hacc : acceptedBefore E items q = []
  · rw [hacc]
    exact h
  · have hscan : Covers items (s.insertAll E.sorter (acceptedBefore E items q)).finishScan := by
      refine h.scan hn hsub fun f hf => ?_
      rcases h.unset hn with ⟨hrec, _⟩ | ⟨r, hr, hmax⟩
      · obtain ⟨r, hr, hle⟩ := (hsc hrec q x rest hs hq).resolve_left hacc f hf
        exact ⟨r, List.mem_append_left _ hr, hle⟩
      · exact ⟨r, List.mem_append_right _ hr, hmax ▸ seqKey_le_max (goodOf f)⟩
    obtain ⟨y, hy, _⟩ := SeqState.exists_max_insertAll E.sorter E.kept_pos s
      (show acceptedBefore E items q ++ s.records ≠ [] by simp [hacc])
    rcases (h.sorted.insertAll E.sorter (acceptedBefore E items q)).highestSeen with
      ⟨_, hnil⟩ | ⟨r, hr, _⟩
    · rw [hnil] at hy; cases hy
    · rwa [finishScan_eq_self hr] at hscan

/-! ## Every call preserves the cover -/

/-- No scan of the call is stopped by a read error after it had accepted too little. -/
def FullScans (d : Device E) : Call E → Prop
  | .processReads fs => d.world.seqState.nextSeq = none → d.world.seqState.records = [] →
      ScansEnough E d.world.items fs.reads
  | .processGarbage fs => d.world.seqState.needsGc = true →
      ScansEnough E (survivors d.world.seqState d.world.items)
        (fs.reads.drop (d.world.items.length + 2))
  | _ => True

theorem nextSeq_eq_none {K : Nat} {s : SeqState K} (h : s.initialScanCompleted = false) :
    s.nextSeq = none := by
  simpa [SeqState.initialScanCompleted] using h

theorem Covers.grown {items more : List Item} {s : SeqState E.kept} {n : NonZeroU32}
    (h : Covers items s) (hn : s.nextSeq = some n) (hgc : s.needsGc = false)
    (hg : Grown E items n (items ++ more)) : Covers (items ++ more) s := by
  refine ⟨h.located.append hg.subset, h.sorted, fun hnone => ?_, fun m hm => ?_, fun hgc' => ?_⟩
  · rw [hn] at hnone; cases hnone
  · obtain rfl := Option.some.inj (hn.symm.trans hm)
    exact ⟨hg.le (h.above n hn).1, (h.above n hn).2⟩
  · rw [hgc] at hgc'; cases hgc'

/-- A number above every cached one gets a slot. -/
theorem mem_insertGood_of_above {s : SeqState E.kept} {r : GoodWriteRecord}
    (h : ∀ x ∈ s.records, x.seqKey < r.seqKey) : r ∈ (s.insertGood E.sorter r).records := by
  rcases SeqState.outranks_or_mem E.sorter E.kept_pos s r with hout | hmem
  · have hlen := s.len
    have hpos := E.kept_pos
    obtain ⟨o, ho⟩ := List.exists_mem_of_length_pos (l := s.lastRecords) (by omega)
    obtain ⟨y, rfl, hlt⟩ := hout o ho
    have := h y (TopK.mem_filled.mpr ho)
    omega
  · exact hmem

theorem inserted_of_above {s : SeqState E.kept} {r : GoodWriteRecord}
    (h : ∀ x ∈ s.records, x.seqKey < r.seqKey) : (s.insertGood E.sorter r).Inserted := by
  rcases SeqState.insertGood_cases E.sorter s r with ⟨he, _⟩ | hi
  · have hmem := mem_insertGood_of_above h
    rw [he] at hmem
    exact absurd (h r hmem) (Nat.lt_irrefl _)
  · exact hi

/-- The cache after a write whose verification matched some record. -/
theorem Covers.written {items more : List Item} {s : SeqState E.kept} {r : WriteReport}
    {range : RangeInclusive} (h : Covers items s) (hn : s.nextSeq = some r.seq)
    (hg : Grown E items r.seq (items ++ more)) (hv : Verifies E r (items ++ more) range) :
    Covers (items ++ more) (s.insertGood E.sorter ⟨r.seq, range⟩) := by
  obtain ⟨f, hf, hkey, _, rfl⟩ := hv.frame
  obtain ⟨hle, hlt⟩ := h.above _ hn
  have hmem := mem_insertGood_of_above (r := ⟨r.seq, ⟨f.start, f.last + 1⟩⟩) hlt
  have hi := inserted_of_above (r := ⟨r.seq, ⟨f.start, f.last + 1⟩⟩) hlt
  refine covers_of_inserted ?_ (h.sorted.insertGood E.sorter _) hi hmem (hg.le hle)
  intro x hx
  rcases SeqState.mem_insertGood E.sorter hx with rfl | hx
  · exact ⟨f, hf, hkey.symm, rfl, Nat.le_succ _⟩
  · exact (h.located.append hg.subset) x hx

/-- **Every call preserves the cover**, unless a scan of it is stopped too early. -/
theorem covers_call {d : Device E} (h : Covers d.world.items d.world.seqState) {c : Call E}
    (hc : FullScans d c) : Covers (d.call c).world.items (d.call c).world.seqState := by
  cases c with
  | nodes list cells => exact h
  | resetCache => exact covers_new _
  | powerLoss => exact covers_new _
  | processReads fs =>
    refine after_of_ends (P := fun w => Covers w.items w.seqState)
      (processReads_spec (w := d.world.withFaults fs) h.located) ?_ ?_ fun _ _ => covers_new _
    · intro _ w' hq
      obtain ⟨_, _, rfl⟩ := hq
      exact h.populate
    · intro e w' hne hr
      obtain ⟨_, r, ⟨hcomp, q, hq, hs, rfl⟩ | ⟨_, _, _, rfl⟩⟩ := hr
      · exact h.stopped (nextSeq_eq_none hcomp) (hc (nextSeq_eq_none hcomp)) hq hs hne
      · exact h.populate
  | processWrites bufLen fs =>
    refine after_of_ends (P := fun w => Covers w.items w.seqState)
      (processWrites_spec bufLen (d.writing fs)) ?_ ?_
      fun _ _ => covers_new _
    · intro _ w' hq
      rcases hq with ⟨_, rfl⟩ | ⟨s, range, f, hdue, _, _, hv, rfl⟩
      · exact h
      · exact h.written (r := ⟨s, _, _, 0⟩) (writeDue_nextSeq hdue) (grown_record _ _ _ _) hv
    · intro e w' _ hr
      rcases hr with ⟨_, _, _, rfl⟩ | ⟨s, f, hdue, _, h'⟩
      · exact h
      · have hn := writeDue_nextSeq hdue
        have hgc := writeDue_clean hdue
        rcases h' with ⟨_, part, hpart, _, rfl⟩ | ⟨_, _, rfl⟩
        · exact h.grown hn hgc (grown_partly hpart)
        · exact h.grown hn hgc (grown_record _ _ _ _)
  | processGarbage fs =>
    refine after_of_ends (P := fun w => Covers w.items w.seqState)
      (processGarbage_spec (d.world.withFaults fs)) ?_ ?_ fun _ _ => covers_new _
    · intro _ w' hq
      rcases hq with ⟨_, rfl⟩ | ⟨_, f, _, rfl⟩
      · exact h
      · have hs := covers_scan (E := E) (survivors d.world.seqState d.world.items)
        exact ⟨hs.located, hs.sorted, fun hn => (hs.unset hn).imp_left fun h => ⟨h.1, rfl⟩,
          hs.above, nofun⟩
    · intro e w' hne hr
      obtain ⟨hgc, _, f, _, ⟨p, rfl⟩ | ⟨q, rest, hq, hs, rfl⟩⟩ := hr
      · exact covers_new _
      · exact (covers_new _).stopped rfl (fun _ => hc hgc) hq hs hne

/-- A list that has just booted on some storage. -/
def Booted (d : Device E) : Prop := ∃ items list, d = ⟨World.bootWith items list, []⟩

theorem covers_reachable {d : Device E}
    (h : ((calls E Booted).restrict fun d c _ => FullScans d c).Reachable d) :
    Covers d.world.items d.world.seqState := by
  refine h.invariant (I := fun d => Covers d.world.items d.world.seqState) ?_ ?_
  · intro d hd
    obtain ⟨items, list, rfl⟩ := hd
    exact covers_new items
  · intro d c d' hi hstep
    obtain ⟨rfl, hc⟩ := hstep
    exact covers_call hi hc

/-! ## The newest record -/

/-- Nothing of the record was deleted: it is still in one piece, and what is
around it is a part of what was there. -/
def Keeps (f : Record) (items items' : List Item) : Prop :=
  ∃ pre post pre' post', items = pre ++ f.seg ++ post ∧ f.start = pre.length ∧
    items' = pre' ++ f.seg ++ post' ∧ pre' <+ pre ∧ post' <+ post

/-- A collection keeps a record that a cached entry points at, wherever it stops. -/
theorem Points.keeps {items : List Item} {cur : SeqState E.kept} {r : GoodWriteRecord} {f : Record}
    (hr : r ∈ cur.records) (hp : Points (E := E) items r f) (p : Nat) :
    Keeps f items (collected cur p items) := by
  obtain ⟨pre, post, hs, _, hitems⟩ := (mem_frames _).mp hp.mem
  have hkeep : ∀ i, 0 + pre.length ≤ i → i < 0 + pre.length + f.seg.length →
      CfgNoodle.keepIdx cur items i = true := fun i hi hlt => hp.keepIdx hr (by omega) (by omega)
  obtain ⟨pre', post', heq, hpre, hpost⟩ := collect_keeps _ 0 p pre f.seg post hkeep
  exact ⟨pre, post, pre', post', hitems, hs, by rw [collected, ← heq, hitems], hpre, hpost⟩

theorem Covers.keeps_newest {items : List Item} {cur : SeqState E.kept} (h : Covers items cur)
    (hgc : cur.needsGc = true) {f : Record} (hf : f ∈ validRecords E items)
    (hmax : ∀ g ∈ validRecords E items, g ≠ f → g.key.get < f.key.get) (p : Nat) :
    Keeps f items (collected cur p items) := by
  obtain ⟨r, hr, hle⟩ := h.greatest hgc
  obtain ⟨g, hg⟩ := h.located r hr
  have hgf : g = f := by
    by_contra hne
    have h1 := hmax g hg.mem hne
    have h2 : f.key.get ≤ r.seq.get := hle f hf
    rw [hg.seq] at h2
    omega
  exact Points.keeps hr (hgf ▸ hg) p

theorem keeps_refl {items : List Item} {f : Record} (hf : f ∈ validRecords E items) :
    Keeps f items items := by
  obtain ⟨pre, post, hs, _, hitems⟩ := (mem_frames _).mp hf
  exact ⟨pre, post, pre, post, hitems, hs, hitems, List.Sublist.refl _, List.Sublist.refl _⟩

/-- **A collection never deletes from the newest record** in a run in which no
scan was stopped by a read error after it had accepted some record but none as
great as the greatest: whatever the collection's own operations do, and however
it ends. -/
theorem newest_record_kept {d : Device E}
    (hd : ((calls E Booted).restrict fun d c _ => FullScans d c).Reachable d) {f : Record}
    (hf : f ∈ validRecords E d.world.items)
    (hmax : ∀ g ∈ validRecords E d.world.items, g ≠ f → g.key.get < f.key.get)
    (fs : Faults E.Err) :
    Ends processGarbage (d.world.withFaults fs) (fun _ w' => Keeps f d.world.items w'.items)
      (fun _ w' => Keeps f d.world.items w'.items) := by
  have hcov := covers_reachable hd
  have hall := fun hgc => hcov.keeps_newest hgc hf hmax d.world.items.length
  rw [collected_length] at hall
  refine (processGarbage_spec (d.world.withFaults fs)).mono ?_ ?_
  · intro _ w' h
    rcases h with ⟨_, rfl⟩ | ⟨hgc, f', _, rfl⟩
    · exact keeps_refl hf
    · exact hall hgc
  · intro _ w' h
    obtain ⟨hgc, _, f', _, ⟨p, rfl⟩ | ⟨_, _, _, _, rfl⟩⟩ := h
    · exact hcov.keeps_newest hgc hf hmax p
    · exact hall hgc

theorem ScansEnough.of_none (E : Env) (items : List Item) : ScansEnough E items [] :=
  fun _ _ _ h _ => absurd rfl h.ne_nil

/-- A list that boots on two records. -/
def bootTwo : Device twoSettings := ⟨World.bootWith twoRecords [settingA], []⟩

/-- The newer of the two records. -/
def newer : Record :=
  ⟨NonZeroU32.two, 3, recordItems twoSettings NonZeroU32.two [dataA 2] 1⟩

theorem newer_mem : newer ∈ validRecords twoSettings twoRecords := by
  unfold twoRecords
  rw [validRecords_append_record]
  exact List.mem_append_right _ (List.mem_singleton_self _)

theorem newer_greatest : ∀ g ∈ validRecords twoSettings twoRecords, g ≠ newer →
    g.key.get < newer.key.get := by
  unfold twoRecords
  rw [validRecords_append_record]
  intro g hg hne
  rcases List.mem_append.mp hg with hg | hg
  · have : g ∈ validRecords twoSettings ([] ++ recordItems twoSettings NonZeroU32.one [dataA 1] 0) := hg
    rw [validRecords_append_record] at this
    obtain rfl := List.mem_singleton.mp this
    decide
  · exact absurd (List.mem_singleton.mp hg) hne

theorem newest_record_kept_two :
    Ends processGarbage ((bootTwo.call (.processReads .none)).world.withFaults .none)
      (fun _ w' => Keeps newer (bootTwo.call (.processReads .none)).world.items w'.items)
      (fun _ w' => Keeps newer (bootTwo.call (.processReads .none)).world.items w'.items) := by
  have hr : ((calls twoSettings Booted).restrict fun d c _ => FullScans d c).Reachable
      (bootTwo.call (.processReads .none)) :=
    .step (.init ⟨twoRecords, [settingA], rfl⟩) ⟨rfl, fun _ _ => ScansEnough.of_none _ _⟩
  have hitems : (bootTwo.call (.processReads .none)).world.items = twoRecords := by
    obtain ⟨c, hx⟩ := processReads_run (w := bootTwo.world.withFaults .none) (located_new _) rfl
    rw [Device.call_processReads hx]
    rfl
  have hf : newer ∈ validRecords twoSettings (bootTwo.call (.processReads .none)).world.items := by
    rw [hitems]
    exact newer_mem
  have hmax : ∀ g ∈ validRecords twoSettings (bootTwo.call (.processReads .none)).world.items,
      g ≠ newer → g.key.get < newer.key.get := by
    rw [hitems]
    exact newer_greatest
  generalize bootTwo.call (.processReads .none) = d at hr hf hmax ⊢
  exact newest_record_kept hr hf hmax .none

set_option maxRecDepth 4000 in
/-- After a scan that a read error cut short, the collection deletes the newer record. -/
theorem newest_record_lost : ∃ d c w', (calls twoSettings Booted).Reachable d ∧
    newer ∈ validRecords twoSettings d.world.items ∧
    (∀ g ∈ validRecords twoSettings d.world.items, g ≠ newer → g.key.get < newer.key.get) ∧
    processGarbage (d.world.withFaults .none) = .ok c w' ∧ ¬ Keeps newer d.world.items w'.items := by
  refine ⟨bootTwo.call (.processReads cutShort), _, _,
    .step (.init ⟨twoRecords, [settingA], rfl⟩) rfl, newer_mem, newer_greatest, rfl, ?_⟩
  intro hkeeps
  obtain ⟨pre, post, pre', post', _, _, hitems, _⟩ := hkeeps
  have hmem : stored twoSettings 1 (.start newer.key) ∈ pre' ++ newer.seg ++ post' := by
    simp [newer, recordItems, recordElems]
  rw [← hitems] at hmem
  revert hmem
  decide +kernel
end CfgNoodle

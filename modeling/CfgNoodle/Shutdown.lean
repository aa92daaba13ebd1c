import CfgNoodle.Store
import CfgNoodle.Transitions
import CfgNoodle.WorkerFlush

/-! # Shutting the worker down

In runs of the task in which no scan is cut short by a read error and no number
is used again, every clean node has its value in the newest record, wherever the
loop is dropped. What the shutdown stores then depends on the cache it finds. -/
namespace CfgNoodle
open Framing Outcome Runs
open scoped List
variable {E : Env}

/-! ## Runs -/

/-- None of these reads fails; the loop may be dropped at one of them. -/
def NoneFails {ε : Type} (reads : List (ReadAnswer ε)) : Prop := ∀ a ∈ reads, ∀ x, a ≠ .err x

/-- No stored record has the number that is next. -/
def NumberFree (w : World E) : Prop :=
  ∀ n, w.seqState.nextSeq = some n → ∀ f ∈ validRecords E w.items, f.key ≠ n

/-- What a call may meet: no read error in a scan, and no record with the next number
where it reads the nodes or pushes a record. The first pass of a collection, the
hydration, the pushes and the verification may fail. -/
def Worker.Serving.Meets (w : World E) (fs : Faults E.Err) : Worker.Serving → Prop
  | .processReads => NumberFree w ∧
      (w.seqState.nextSeq = none → NoneFails (fs.reads.take (w.items.length + 2)))
  | .processWrites => ∀ n, writeDue w = .ok (some n) → NumberFree w
  | .garbageBefore | .garbageAfter | .garbageAlone => NoneFails (fs.reads.drop (w.items.length + 2))

namespace WorkerTask

/-- Some section of another task does this to the nodes. -/
def ByTasks (s : WorkerTask E) (list : List E.Id) (cells : Cells E) : Prop :=
  ∃ (l : ListState E) (c : Section E), Linked l ∧ l.world = s.world ∧ ByNodes c ∧
    (l.next c).world = { s.world with list, cells }

/-- The steps of the runs. -/
def Steady (s : WorkerTask E) (e : TaskEvent E) (s' : WorkerTask E) : Prop :=
  match e with
  | .nodes list cells => s.ByTasks list cells
  | .call fs => (∀ c, s.loop.stage = .serve c → c.Meets s.world fs) ∧
      ∀ f ∈ validRecords E s'.world.items, f.key.get < NonZeroU32.MAX
  | _ => True

end WorkerTask

/-- The runs from a storage in which no number is used twice. -/
def steadyTask (E : Env) (bufLen : Nat) : System (WorkerTask E) (TaskEvent E) where
  init s := ∃ items, NumbersBelow E items ∧ s = ⟨.new, World.boot items, false, false⟩
  step s e s' := (workerTask E bufLen).step s e s' ∧ s.Steady e s'

theorem reachable_of_steady {bufLen : Nat} {s : WorkerTask E}
    (hs : (steadyTask E bufLen).Reachable s) : (workerTask E bufLen).Reachable s := by
  induction hs with
  | init h =>
    obtain ⟨items, _, h⟩ := h
    exact .init ⟨items, h⟩
  | step _ h ih => exact ih.step h.1

/-! ## Clean nodes -/

/-- What holds wherever the loop is, or was dropped. -/
structure Secure (w : World E) : Prop where
  keys : (w.list.map E.key).Nodup
  numbers : NumbersBelow E w.items
  clean : CleanHeld w

/-- What holds of the cache until the loop is dropped: unless a record was stored that
could not be verified, the cache has the newest one. -/
structure Live (w : World E) : Prop where
  cached : NumberFree w → Cached w.items w.seqState
  free : w.seqState.needsGc = true → NumberFree w

theorem Cached.numberFree {w : World E} (h : Cached w.items w.seqState) : NumberFree w :=
  fun n hn f hf hkey => Nat.lt_irrefl _ (hkey ▸ h.above n hn f hf)

/-- A cache with the newest record, whatever else is the case. -/
theorem live_of_cached {w : World E} (h : Cached w.items w.seqState) : Live w :=
  ⟨fun _ => h, fun _ => h.numberFree⟩

theorem NoneFails.cut_of_mem {reads : List (ReadAnswer E.Err)} (h : NoneFails reads)
    {a : ReadAnswer E.Err} (ha : a ∈ reads) {f : E.Err → LoadStoreError E.Err} {e : Stop E.Err}
    (he : a.stop f = some e) : e = .cut := by
  cases a with
  | ok => cases he
  | err x => exact absurd rfl (h _ ha x)
  | cut => exact (Option.some.inj he).symm

/-- The numbers are below the last one. -/
def Below (w : World E) : Prop := ∀ f ∈ validRecords E w.items, f.key.get < NonZeroU32.MAX

/-- A call from a live state, as long as the numbers do not run out: what it leaves if it
returns, and if the loop is dropped in it. -/
def Secures {α : Type} (x : M E α) (w : World E) : Prop :=
  Ends x w (fun _ w' => Below w' → Secure w' ∧ Live w')
    fun e w' => Below w' → Secure w' ∧ (e ≠ .cut → Live w')

theorem Secure.reads {w : World E} (h : Secure w) (hl : Live w) (hfree : NumberFree w)
    (hscan : w.seqState.nextSeq = none → NoneFails (w.faults.reads.take (w.items.length + 2))) :
    Secures processReads w := by
  have hcached := hl.cached hfree
  obtain ⟨hpop, hsome⟩ := hcached.populate h.numbers.below
  have hdatas := hpop.recordDatas h.numbers.distinct hsome
  -- hydration from the newest record, or from a first part of it
  have hread : ∀ ds, ds <+: recordDatas w.items (populate E w.items w.seqState) → ∀ i ∈ w.list,
      Holds (latestDatas E w.items) i (hydrateAll w.list ds w.cells i) := by
    intro ds hds i hi
    rw [hydrateAll_apply h.keys hi]
    exact Holds.offered (h.clean i hi) (hdatas ▸ hds)
  refine (processReads_spec hcached.fresh.covers.located).mono ?_ ?_
  · intro _ w' hx
    obtain ⟨r, _, rfl⟩ := hx
    refine fun _ => ⟨⟨h.keys, h.numbers, fun i hi => ?_⟩, live_of_cached hpop⟩
    show Holds _ i (readCells w _ i)
    rw [readCells_apply h.keys _ hi]
    exact (Holds.offered (h.clean i hi) (hdatas ▸ List.prefix_rfl)).settle
  · intro e w' hx
    obtain ⟨_, r, ⟨hinit, q, hq, ⟨a, hreads, ha⟩, rfl⟩ | ⟨ds, hds, _, rfl⟩⟩ := hx
    · refine fun _ => ⟨⟨h.keys, h.numbers, h.clean⟩, fun hcut => absurd ?_ hcut⟩
      have hnone : w.seqState.nextSeq = none := Option.not_isSome_iff_eq_none.mp (by
        simpa [SeqState.initialScanCompleted] using hinit)
      refine (hscan hnone).cut_of_mem (a := a) ?_ ha
      rw [hreads]
      refine List.mem_take_iff_getElem.mpr ⟨q, ?_, ?_⟩
      · simp only [List.length_append, List.length_replicate, List.length_cons]
        omega
      · rw [List.getElem_append_right (by simp)]
        simp
    · exact fun _ => ⟨⟨h.keys, h.numbers, hread ds hds⟩, fun _ => live_of_cached hpop⟩

/-- A record of which only a part was stored changes nothing. -/
theorem Secure.partly {w : World E} (h : Secure w) (hl : Live w) {n : NonZeroU32}
    (hn : w.seqState.nextSeq = some n) (hgc : w.seqState.needsGc = false) {part : List Item}
    (hv : validRecords E (w.items ++ part) = validRecords E w.items) (fs : Faults E.Err) :
    Secure ((w.withItems (w.items ++ part)).withFaults fs) ∧
      Live ((w.withItems (w.items ++ part)).withFaults fs) := by
  have hcont := contents_eq_of_validRecords hv
  refine ⟨⟨h.keys, ⟨?_, fun f hf => h.numbers.below f (hv ▸ hf)⟩, fun i hi => ?_⟩, fun hfree => ?_,
    fun hgc' => ?_⟩
  · exact h.numbers.distinct.of_contents (hcont ▸ List.Sublist.refl _)
  · show Holds (latestDatas E (w.items ++ part)) i (w.cells i)
    rw [latestDatas_of_validRecords h.numbers.distinct hv]
    exact h.clean i hi
  · refine (hl.cached fun m hm f hf => ?_).grown hn hgc hv
    exact hfree m hm f (show f ∈ validRecords E (w.items ++ part) from hv ▸ hf)
  · have hgc' : w.seqState.needsGc = true := hgc'
    rw [hgc] at hgc'
    cases hgc'

section Writes
variable (hk : ∀ i, E.cbor.Canonical (E.key i))
  (hcodec : ∀ i (t : E.T i), (E.vtable i).decode ((E.vtable i).encode t).flatten = some t)
include hk hcodec

/-- A complete record that could not be verified has the values of all nodes. -/
theorem Secure.unverified {w : World E} {bufLen : Nat} (h : Secure w)
    (hcached : Cached w.items w.seqState) {n : NonZeroU32} (hn : w.seqState.nextSeq = some n)
    (hgc : w.seqState.needsGc = false) (hw : (writeDatas bufLen w.cells w.list).2 = none)
    (fs : Faults E.Err)
    (hmax : Below ((w.withItems (w.items ++ recordItems E n (w.toWrite bufLen) w.call)).withFaults fs)) :
    Secure ((w.withItems (w.items ++ recordItems E n (w.toWrite bufLen) w.call)).withFaults fs) ∧
      Live ((w.withItems (w.items ++ recordItems E n (w.toWrite bufLen) w.call)).withFaults fs) := by
  have hlt := hcached.above n hn
  refine ⟨⟨h.keys, ⟨h.numbers.distinct.append hlt _ _, hmax⟩, ?_⟩, fun hfree => ?_, fun hgc' => ?_⟩
  · exact cleanHeld_pushed hk hcodec h.keys hw hlt _
  · -- the number is not free any more
    have hmem : (⟨n, w.items.length, recordItems E n (w.toWrite bufLen) w.call⟩ : Record) ∈
        validRecords E (w.items ++ recordItems E n (w.toWrite bufLen) w.call) := by
      rw [validRecords_append_record]
      simp
    exact absurd rfl (hfree n hn _ hmem)
  · have hgc' : w.seqState.needsGc = true := hgc'
    rw [hgc] at hgc'
    cases hgc'

theorem Secure.writes {w : World E} {bufLen : Nat} (h : Secure w) (hl : Live w)
    (hfree : ∀ n, writeDue w = .ok (some n) → NumberFree w) : Secures (processWrites bufLen) w := by
  refine (processWrites_spec bufLen w).mono ?_ ?_
  · intro _ w' hor hmax
    rcases hor with ⟨_, rfl⟩ | ⟨n, range, fs, hdue, _, hw, hv, rfl⟩
    · exact ⟨h, hl⟩
    · have hn := writeDue_nextSeq hdue
      have hcached := hl.cached (hfree n hdue)
      have hlt := hcached.above n hn
      refine ⟨⟨h.keys, ⟨h.numbers.distinct.append hlt _ _, hmax⟩, ?_⟩, live_of_cached ?_⟩
      · exact cleanHeld_written hk hcodec h.keys hw hlt _
      · exact hcached.written hn (writeDue_clean hdue) hv hmax
  · intro e w' hor hmax
    refine (?_ : Secure w' ∧ Live w').imp_right fun hlive _ => hlive
    rcases hor with ⟨_, _, _, rfl⟩ | ⟨n, fs, hdue, _, ⟨_, part, hp, hall, rfl⟩ | ⟨hw, _, rfl⟩⟩
    · exact ⟨h, hl⟩
    · have hn := writeDue_nextSeq hdue
      have hgc := writeDue_clean hdue
      rcases validRecords_append_partly w.items hp with hv | ⟨_, hwhole⟩
      · exact h.partly hl hn hgc hv fs
      · subst hwhole
        exact h.unverified hk hcodec (hl.cached (hfree n hdue)) hn hgc (hall rfl) fs hmax
    · exact h.unverified hk hcodec (hl.cached (hfree n hdue)) (writeDue_nextSeq hdue)
        (writeDue_clean hdue) hw fs hmax

end Writes

/-- A collection, or a part of it, keeps the newest record. -/
theorem Secure.collected {w : World E} (h : Secure w) (hcached : Cached w.items w.seqState)
    (hgc : w.seqState.needsGc = true) (p : Nat) {w' : World E} (hlist : w'.list = w.list)
    (hcells : w'.cells = w.cells) (hitems : w'.items = CfgNoodle.collected w.seqState p w.items) :
    Secure w' := by
  obtain ⟨hsub, hlatest⟩ := hcached.collected h.numbers.distinct hgc p
  refine ⟨hlist ▸ h.keys, ⟨?_, fun f hf => ?_⟩, fun i hi => ?_⟩
  · rw [hitems]
    exact h.numbers.distinct.of_contents hsub
  · rw [hitems] at hf
    obtain ⟨g, hg, heq⟩ := mem_contents.mp (hsub.subset (mem_contents.mpr ⟨f, hf, rfl⟩))
    have hkey : g.key = f.key := congrArg Prod.fst heq
    exact hkey ▸ h.numbers.below g hg
  · rw [hitems, hcells]
    unfold latestDatas
    rw [hlatest]
    exact h.clean i (hlist ▸ hi)

theorem Secure.garbage {w : World E} (h : Secure w) (hl : Live w)
    (hscan : NoneFails (w.faults.reads.drop (w.items.length + 2))) : Secures processGarbage w := by
  refine (processGarbage_spec w).mono ?_ ?_
  · intro _ w' hor _
    rcases hor with ⟨_, rfl⟩ | ⟨hgc, fs, _, rfl⟩
    · exact ⟨h, hl⟩
    · have hw : Secure (((w.withItems (survivors w.seqState w.items)).withSeq
          (SeqState.scan E (survivors w.seqState w.items)).clean).withFaults fs) :=
        h.collected (hl.cached (hl.free hgc)) hgc w.items.length rfl rfl (collected_length ..).symm
      exact ⟨hw, live_of_cached (cached_scan_clean hw.numbers.below)⟩
  · intro e w' hx _
    obtain ⟨hgc, _, fs, _, ⟨p, rfl⟩ | ⟨q, rest, _, ⟨a, hreads, ha⟩, rfl⟩⟩ := hx
    · exact ⟨h.collected (hl.cached (hl.free hgc)) hgc p rfl rfl rfl, fun _ => live_of_cached (cached_new _)⟩
    · -- only the stopper can cut the last scan short
      refine ⟨h.collected (hl.cached (hl.free hgc)) hgc w.items.length rfl rfl
        (collected_length ..).symm, fun hcut => absurd ?_ hcut⟩
      exact hscan.cut_of_mem (by rw [hreads]; simp) ha

/-! ## Every state of the task -/

/-- What holds in every state of a run. -/
structure TaskInv (s : WorkerTask E) : Prop where
  secure : Secure s.world
  live : s.dropped = false → Live s.world

/-- A call whose errors are logged drops the loop only if it does not return. -/
theorem logged_secures {α : Type} {x : M E α} {w : World E} (h : Secures x w) :
    Ends (logged x) w (fun _ w' => Below w' → Secure w' ∧ Live w') fun _ w' => Below w' → Secure w' := by
  simp only [Ends, logged]
  rcases h.cases with ⟨a, w', hx, hp⟩ | ⟨e, w', hx, hp⟩
  · rw [hx]
    exact hp
  · rw [hx]
    cases e with
    | error e => exact fun hmax => (hp hmax).imp_right fun hlive => hlive fun h => by cases h
    | cut | ub => exact fun hmax => (hp hmax).1

section Runs
variable (hk : ∀ i, E.cbor.Canonical (E.key i))
  (hcodec : ∀ i (t : E.T i), (E.vtable i).decode ((E.vtable i).encode t).flatten = some t)
include hk hcodec

theorem Secure.run {w : World E} (h : Secure w) (hl : Live w) (bufLen : Nat) {c : Worker.Serving}
    (hc : c.Meets w w.faults) :
    Ends (c.run bufLen) w (fun _ w' => Below w' → Secure w' ∧ Live w') fun _ w' => Below w' → Secure w' := by
  cases c with
  | processReads => exact logged_secures (h.reads hl hc.1 hc.2)
  | processWrites => exact logged_secures (h.writes hk hcodec hl hc)
  | garbageBefore | garbageAfter | garbageAlone => exact logged_secures (h.garbage hl hc)

theorem TaskInv.call {bufLen : Nat} {s : WorkerTask E} (h : TaskInv s) (hd : s.dropped = false)
    {c : Worker.Serving} {fs : Faults E.Err} (hc : c.Meets s.world fs)
    (hmax : Below (s.call bufLen c fs).world) : TaskInv (s.call bufLen c fs) := by
  have hend := Secure.run hk hcodec (w := s.world.withFaults fs)
    ⟨h.secure.keys, h.secure.numbers, h.secure.clean⟩ ⟨(h.live hd).cached, (h.live hd).free⟩ bufLen
    (c := c) hc
  unfold WorkerTask.call at hmax ⊢
  rcases hend.cases with ⟨ok, w', hx, hp⟩ | ⟨e, w', hx, hp⟩
  · rw [hx] at hmax ⊢
    exact ⟨(hp hmax).1, fun _ => (hp hmax).2⟩
  · rw [hx] at hmax ⊢
    exact ⟨hp hmax, nofun⟩

theorem taskInv_reachable {bufLen : Nat} {s : WorkerTask E} (hs : (steadyTask E bufLen).Reachable s) :
    TaskInv s := by
  refine hs.invariant ?_ ?_
  · intro s hx
    obtain ⟨items, hnum, rfl⟩ := hx
    exact ⟨⟨List.nodup_nil, hnum, fun _ hi => absurd hi List.not_mem_nil⟩,
      fun _ => live_of_cached (cached_new items)⟩
  · intro s e s' h hx
    obtain ⟨⟨hallow, rfl⟩, hsteady⟩ := hx
    cases e with
    | nodes list cells =>
      obtain ⟨l, c, hl, hw, hc, hnext⟩ := hsteady
      have honly := nodesOnly_next hl hc
      refine ⟨⟨hallow, h.secure.numbers, fun i hi hs => ?_⟩, fun hd => ⟨(h.live hd).cached, (h.live hd).free⟩⟩
      have hclean := honly.clean i (by rw [hnext]; exact hi) (by rw [hnext]; exact hs)
      rw [hnext, hw] at hclean
      have hcell : cells i = s.world.cells i := hclean.2
      have hold := h.secure.clean i hclean.1
      rw [← hcell] at hold
      exact hold hs
    | wake e => exact ⟨h.secure, h.live⟩
    | stop => exact ⟨h.secure, nofun⟩
    | call fs =>
      obtain ⟨hmeets, hmax⟩ := hsteady
      unfold WorkerTask.next at hmax ⊢
      cases hst : s.loop.stage with
      | select r w g => exact h
      | serve c =>
        simp only [hst] at hmax ⊢
        exact h.call hk hcodec hallow (hmeets c hst) hmax

end Runs

/-! ## What the shutdown stores -/

/-- Every node with a value has it in these data elements. -/
def Stores (ds : List SerData) (w : World E) : Prop :=
  ∀ i ∈ w.list, (w.state i).hasValue = true → HoldsValue ds i (w.cells i)

/-- The record that a fresh boot selects holds the value of every node that has one. -/
def Held (w : World E) (items : List Item) : Prop := Stores (latestDatas E items) w

/-- No stored record is newer than all that are cached. -/
def NewestCached (w : World E) : Prop :=
  ∀ f ∈ validRecords E w.items, ∃ r ∈ w.seqState.records, f.key.get ≤ r.seqKey

/-- The states in which a shutdown loses nothing: without a next number no node may need
a write; where a collection is due, one needs it or the newest record is cached; and a
record whose number would be used again has the values of all nodes. -/
def Flushes (w : World E) : Prop :=
  match w.seqState.nextSeq, w.seqState.needsGc with
  | none, _ => ¬ Unwritten w
  | some _, true => Unwritten w ∨ NewestCached w
  | some n, false => Due w → ∀ f ∈ validRecords E w.items, f.key = n → Stores (datas f.seg) w

/-- Where no node needs a write, all that have a value are clean. -/
theorem stores_of_clean {w : World E} {ds : List SerData} (hclean : ∀ i ∈ w.list, Holds ds i (w.cells i))
    (hno : ¬ Unwritten w) : Stores ds w := by
  intro i hi hv
  cases hs : w.state i with
  | needsWrite => exact absurd ⟨i, hi, hs⟩ hno
  | validNoWriteNeeded => exact hclean i hi hs
  | initial | nonResident =>
    rw [hs] at hv
    cases hv

/-- A scan selects a valid record with the greatest number. -/
theorem exists_latestRecord {items : List Item} (hne : validRecords E items ≠ []) :
    ∃ f ∈ validRecords E items, latestRecord E items = some (f.key, f.seg) ∧
      ∀ g ∈ validRecords E items, g.key.get ≤ f.key.get := by
  rcases scan_cases (E := E) items with ⟨hnil, _⟩ | ⟨r, hr⟩
  · exact absurd (goodRecords_eq_nil.mp hnil) hne
  · obtain ⟨f, hf, rfl⟩ := List.mem_map.mp hr.mem
    refine ⟨f, hf, ?_, fun g hg => hr.max (goodOf g) (List.mem_map_of_mem hg)⟩
    unfold latestRecord
    rw [hr.highest]
    exact congrArg some (congrArg (Prod.mk f.key) (slice_goodOf hf))

/-- A new record above all others, or tied with one that has the values, too: whichever of
the two a boot selects, it finds them. -/
theorem stores_append {w : World E} {ds : List SerData} {items : List Item} {n : NonZeroU32}
    (hle : ∀ f ∈ validRecords E items, f.key.get ≤ n.get)
    (htie : ∀ f ∈ validRecords E items, f.key = n → Stores (datas f.seg) w) (hds : Stores ds w)
    (call : Nat) : Held w (items ++ recordItems E n ds call) := by
  have hnew : (⟨n, items.length, recordItems E n ds call⟩ : Record) ∈
      validRecords E (items ++ recordItems E n ds call) := by
    rw [validRecords_append_record]
    simp
  obtain ⟨f, hf, hlatest, hmax⟩ := exists_latestRecord (List.ne_nil_of_mem hnew)
  have hdatas : latestDatas E (items ++ recordItems E n ds call) = datas f.seg := by
    unfold latestDatas
    rw [hlatest]
  unfold Held
  rw [hdatas]
  rw [validRecords_append_record, List.mem_append, List.mem_singleton] at hf
  rcases hf with hf | rfl
  · exact htie f hf (NonZeroU32.eq_of_get (Nat.le_antisymm (hle f hf) (hmax _ hnew)))
  · rw [datas_recordItems]
    exact hds

/-- A collection from a cache with the newest record leaves it. -/
theorem Sound.latestDatas_survivors {w : World E} (h : Sound w.items w.seqState)
    (hd : Distinct E w.items) (hnewest : NewestCached w) :
    latestDatas E (survivors w.seqState w.items) = latestDatas E w.items := by
  have hcont := contents_survivors h.snug
  have hlatest : latestRecord E (survivors w.seqState w.items) = latestRecord E w.items := by
    refine latestRecord_of_contents hd ?_ fun p hp => ?_
    · rw [hcont]
      exact (keptRecords_sublist _ _).map fun f => (f.key, f.seg)
    · obtain ⟨f, hf, rfl⟩ := mem_contents.mp hp
      obtain ⟨r, hr, hle⟩ := hnewest f hf
      obtain ⟨g, hg, hkey⟩ := h.exists_survivor hr
      exact ⟨(g.key, g.seg), mem_contents.mpr ⟨g, hg, rfl⟩, hle.trans (congrArg NonZeroU32.get hkey.symm).le⟩
  unfold latestDatas
  rw [hlatest]

section Flush
variable (hk : ∀ i, E.cbor.Canonical (E.key i))
  (hcodec : ∀ i (t : E.T i), (E.vtable i).decode ((E.vtable i).encode t).flatten = some t)
include hk hcodec

/-- A write where no collection is due: it ends without a need for one. -/
theorem flush_clean {w : World E} {bufLen : Nat} (h : Tended w) (hf : w.faults = .none)
    (hinit : ∀ i ∈ w.list, w.state i ≠ .initial) (hfits : Fits bufLen w) {n : NonZeroU32}
    (hn : w.seqState.nextSeq = some n) (hgc : w.seqState.needsGc = false)
    (htie : Due w → ∀ f ∈ validRecords E w.items, f.key = n → Stores (datas f.seg) w)
    (hidle : ¬ Due w → Held w w.items) :
    ∃ w', ((∃ c, processWrites bufLen w = .ok c w') ∨
        ∃ e, processWrites bufLen w = .error e w' ∧ VerifyError e) ∧ Held w w'.items := by
  rcases writeDue_cases hinit hn hgc with ⟨hdue, heq⟩ | ⟨hdue, heq⟩
  · obtain ⟨w', hitems, _, _, hrun⟩ := writes_due hf hfits heq
    refine ⟨w', ?_, ?_⟩
    · rcases hrun with ⟨c, _, hrun, _⟩ | ⟨e, hrun, hve, _⟩
      · exact Or.inl ⟨c, hrun⟩
      · exact Or.inr ⟨e, hrun, hve⟩
    · rw [hitems]
      refine stores_append (fun f hf => (h.sound.next n hn hgc f hf).1) (htie hdue) ?_ w.call
      exact fun i hi hv => body_toWrite hk hcodec h.keys (writeDatas_none_of_fits hfits) hi hv
  · obtain ⟨c, hrun⟩ := writes_not_due bufLen heq
    exact ⟨w, Or.inl ⟨c, hrun⟩, hidle hdue⟩

/-- **Shutting down stores everything where the cache was not lost with the loop and no
number is used again**: wherever the stopper completes in such a run of the task. -/
theorem shutdown_flushes {bufLen : Nat} {s : WorkerTask E}
    (hs : (steadyTask E bufLen).Reachable s) (hinit : ∀ i ∈ s.world.list, s.world.state i ≠ .initial)
    (hfits : Fits bufLen s.world) (hflush : Flushes s.world) :
    ∃ w', shutdown bufLen (s.world.withFaults .none) = .ok () w' ∧ Held s.world w'.items := by
  have hinv := (taskInv_reachable hk hcodec hs).secure
  have h : Tended (s.world.withFaults .none) :=
    ⟨(tended_reachable (reachable_of_steady hs)).sound, hinv.keys⟩
  have hclean : CleanHeld (s.world.withFaults .none) := hinv.clean
  have hd : Distinct E (s.world.withFaults .none).items := hinv.numbers.distinct
  change ∀ i ∈ (s.world.withFaults .none).list, (s.world.withFaults .none).state i ≠ .initial at hinit
  change Fits bufLen (s.world.withFaults .none) at hfits
  change Flushes (s.world.withFaults .none) at hflush
  have hf : (s.world.withFaults .none).faults = .none := rfl
  show ∃ w', shutdown bufLen (s.world.withFaults .none) = .ok () w' ∧
    Held (s.world.withFaults .none) w'.items
  generalize s.world.withFaults .none = w at h hinit hfits hf hflush hclean hd
  cases hn : w.seqState.nextSeq with
  | none =>
    have hdue : writeDue w = .error .needsFirstRead := by
      simp only [writeDue]
      rw [hn]
    simp only [Flushes] at hflush
    rw [hn] at hflush
    refine ⟨w, ?_, stores_of_clean hclean hflush⟩
    simp only [shutdown]
    rw [writes_refused bufLen hdue]
  | some n =>
    cases hgc : w.seqState.needsGc with
    | false =>
      simp only [Flushes] at hflush
      rw [hn, hgc] at hflush
      obtain ⟨w', hrun, hheld⟩ := flush_clean hk hcodec h hf hinit hfits hn hgc hflush
        fun hno => stores_of_clean hclean fun hu => hno (Or.inl hu)
      refine ⟨w', ?_, hheld⟩
      simp only [shutdown]
      rcases hrun with ⟨c, hrun⟩ | ⟨e, hrun, rfl | rfl⟩ <;> rw [hrun]
    | true =>
      simp only [Flushes] at hflush
      rw [hn, hgc] at hflush
      have hdue : writeDue w = .error .needsGarbageCollect := by
        simp only [writeDue]
        rw [hn, hgc]
        rfl
      obtain ⟨c, hgarbage⟩ := garbage_due hf hgc
      obtain ⟨m, hm, hno, hseen⟩ := h.sound.after_garbage hgc hn
      have hwanted : Due w.afterGarbage ↔ Unwritten w := or_iff_left hseen
      have hnew : ∀ f ∈ validRecords E (survivors w.seqState w.items), f.key ≠ m :=
        fun f hf hkey => Nat.lt_irrefl _ (hkey ▸ scan_nextSeq_above hm f hf)
      have hidle : ¬ Due w.afterGarbage → Held w.afterGarbage w.afterGarbage.items := by
        intro hno
        -- nothing is written, and the collection has left the newest record
        have hstores := stores_of_clean hclean (hwanted.not.mp hno)
        rw [← h.sound.latestDatas_survivors hd (hflush.resolve_left (hwanted.not.mp hno))] at hstores
        exact hstores
      obtain ⟨w', hrun', hheld⟩ := flush_clean hk hcodec h.afterGarbage hf hinit hfits
        (n := m) hm rfl (fun _ f hf hkey => absurd hkey (hnew f hf)) hidle
      refine ⟨w', ?_, hheld⟩
      simp only [shutdown]
      rw [writes_refused bufLen hdue]
      show (logged processGarbage >>= fun _ => logged (processWrites bufLen) >>= fun _ => pure ()) w =
        .ok () w'
      obtain ⟨b, hlogged⟩ : ∃ b, logged (processWrites bufLen) w.afterGarbage = .ok b w' := by
        rcases hrun' with ⟨c', hrun'⟩ | ⟨e, hrun', rfl | rfl⟩
        · exact ⟨_, logged_ok hrun'⟩
        · exact ⟨_, logged_error hrun'⟩
        · exact ⟨_, logged_error hrun'⟩
      simp only [bind, EStateM.bind, logged_ok hgarbage, hlogged]
      rfl

end Flush

/-! ## The loop dropped in a call -/

section Steps
variable {bufLen : Nat} {s : WorkerTask E} (hs : (steadyTask E bufLen).Reachable s)
include hs

theorem steady_nodes {l : ListState E} {c : Section E} (hl : Linked l) (hw : l.world = s.world)
    (hc : ByNodes c) {list : List E.Id} {cells : Cells E}
    (hnext : (l.next c).world = { s.world with list, cells }) (hnd : (list.map E.key).Nodup) :
    (steadyTask E bufLen).Reachable { s with world := { s.world with list, cells } } :=
  .step hs (l := .nodes list cells) ⟨⟨hnd, rfl⟩, l, c, hl, hw, hc, hnext⟩

omit hs in
/-- What wakes the loop changes nothing else. -/
theorem steady_wakes {s : WorkerTask E} (hs : (steadyTask E bufLen).Reachable s)
    (hd : s.dropped = false) : ∀ (es : List Worker.Event), (∀ e ∈ es, ∀ ok, e ≠ .returned ok) →
    (steadyTask E bufLen).Reachable { s with loop := es.foldl Worker.State.step s.loop }
  | [], _ => hs
  | e :: es, he =>
    steady_wakes (s := s.next bufLen (.wake e))
      (.step hs (l := .wake e) ⟨⟨⟨hd, he e List.mem_cons_self⟩, rfl⟩, trivial⟩) hd es
      fun e' h => he e' (List.mem_cons_of_mem _ h)

theorem steady_served (hd : s.dropped = false) {c : Worker.Serving} (h : s.loop.stage = .serve c)
    (fs : Faults E.Err) (hc : c.Meets s.world fs) (hmax : Below (s.call bufLen c fs).world) :
    (steadyTask E bufLen).Reachable (s.call bufLen c fs) := by
  have hnext : s.next bufLen (.call fs) = s.call bufLen c fs := by
    simp only [WorkerTask.next]
    rw [h]
  refine .step hs (l := .call fs) ⟨⟨hd, hnext.symm⟩, fun c' h' => ?_, hmax⟩
  obtain rfl := Worker.Stage.serve.inj (h.symm.trans h')
  exact hc

end Steps

theorem step_returned {s : Worker.State} {c : Worker.Serving} (h : s.stage = .serve c) (ok : Bool) :
    s.step (.returned ok) = s.returned ok c := by
  simp only [Worker.State.step]
  rw [h]

/-- The loop in the branch of a read signal, and after it in that of a write signal. -/
def readingLoop : Worker.State :=
  [Worker.Event.needsRead, .poll, .readTimer, .poll].foldl Worker.State.step .new

def writingLoop : Worker.State :=
  [Worker.Event.needsWrite, .poll, .writeTimer, .poll].foldl Worker.State.step
    (readingLoop.step (.returned true))

theorem readingLoop_stage : readingLoop.stage = .serve .processReads := by
  simp [readingLoop, Worker.State.step, Worker.State.new, Worker.Stage.fresh, Worker.State.poll,
    Worker.Phase.poll, Worker.Phase.expire, Worker.GcPhase.poll, Worker.debounce, Worker.WaitQueue.new,
    Worker.WaitQueue.wake, Worker.WaitQueue.poll]

theorem writingLoop_stage : writingLoop.stage = .serve .garbageBefore := by
  simp [writingLoop, readingLoop, Worker.State.step, Worker.State.new, Worker.Stage.fresh,
    Worker.State.poll, Worker.State.returned, Worker.Phase.poll, Worker.Phase.expire,
    Worker.GcPhase.poll, Worker.debounce, Worker.WaitQueue.new, Worker.WaitQueue.wake,
    Worker.WaitQueue.poll, Worker.WaitQueue.cancel]

/-- A storage with the value 1. -/
def storedOne : List Item := recordItems twoSettings NonZeroU32.one [dataA 1] 0

theorem below_storedOne {w : World twoSettings} (h : w.items = storedOne) : Below w := by
  unfold Below
  rw [h]
  exact (numbersBelow_record [dataA 1]).below

/-- The list that has read it into a node, which has a handle. -/
def readList : ListState twoSettings :=
  [.attach settingA, .processReads .none, .observe settingA].foldl ListState.step
    (ListState.boot 2 storedOne)

theorem linked_readList : Linked readList :=
  linked_reachable (System.reachable_foldl (fun _ _ _ => rfl) (.init ⟨storedOne, 2, rfl⟩))

/-- The worker is about to serve the signal of a handle that has written the value 7. -/
def editedTask : WorkerTask twoSettings :=
  ⟨writingLoop, (readList.next (.handleWrite settingA (7 : UInt8))).world, false, true⟩

/-- The node in the list, before it is read. -/
def attachedTask : WorkerTask twoSettings := ⟨.new, World.bootWith storedOne [settingA], false, false⟩

set_option maxRecDepth 4000 in
theorem steady_editedTask (bufLen : Nat) : (steadyTask twoSettings bufLen).Reachable editedTask := by
  have h1 : (steadyTask twoSettings bufLen).Reachable attachedTask :=
    steady_nodes (.init ⟨storedOne, numbersBelow_record _, rfl⟩) (l := ListState.boot 2 storedOne)
      (c := .attach settingA) (linked_boot 2 storedOne) rfl trivial rfl (List.nodup_singleton _)
  have h2 := steady_wakes h1 rfl [.needsRead, .poll, .readTimer, .poll] (by simp)
  have hbelow : Below readList.world := below_storedOne rfl
  have h3 : (steadyTask twoSettings bufLen).Reachable
      ⟨readingLoop.step (.returned true), readList.world, false, true⟩ :=
    steady_served h2 rfl readingLoop_stage .none
      ⟨nofun, fun _ _ ha => absurd ha List.not_mem_nil⟩ hbelow
  have h4 : (steadyTask twoSettings bufLen).Reachable
      ⟨readingLoop.step (.returned true), (readList.next (.handleWrite settingA (7 : UInt8))).world,
        false, true⟩ :=
    steady_nodes h3 (c := .handleWrite settingA (7 : UInt8)) linked_readList rfl trivial rfl
      (List.nodup_singleton _)
  exact steady_wakes h4 rfl [.needsWrite, .poll, .writeTimer, .poll] (by simp)

set_option maxRecDepth 4000 in
theorem editedTask_ready : (∀ i ∈ editedTask.world.list, editedTask.world.state i ≠ .initial) ∧
    Fits 64 editedTask.world := by
  constructor
  · intro i hi
    obtain rfl := List.mem_singleton.mp hi
    decide +kernel
  · intro i hi _
    obtain rfl := List.mem_singleton.mp hi
    exact ⟨(7 : UInt8), rfl, by decide +kernel⟩

/-- The stopper completes at the first read of the collection. -/
def droppedTask : WorkerTask twoSettings := editedTask.call 64 .garbageBefore ⟨[.cut], [], []⟩

set_option maxRecDepth 4000 in
theorem steady_droppedTask : (steadyTask twoSettings 64).Reachable droppedTask :=
  steady_served (steady_editedTask 64) rfl writingLoop_stage _
    (fun _ ha => absurd ha List.not_mem_nil) (below_storedOne rfl)

set_option maxRecDepth 4000 in
/-- The cache was in the collection: the shutdown finds no number to write with. -/
theorem shutdown_loses_value : ∃ s w', (steadyTask twoSettings 64).Reachable s ∧ s.read = true ∧
    s.dropped = true ∧ (∀ i ∈ s.world.list, s.world.state i ≠ .initial) ∧ Fits 64 s.world ∧
    shutdown 64 (s.world.withFaults .none) = .ok () w' ∧ ¬ Held s.world w'.items := by
  refine ⟨droppedTask, droppedTask.world.withFaults .none, steady_droppedTask, rfl, rfl,
    editedTask_ready.1, editedTask_ready.2, rfl, fun hheld => ?_⟩
  obtain ⟨body, t, hbody, hdec, ht⟩ := hheld settingA (List.mem_singleton_self _) (by decide +kernel)
  have hstored : bodyFor twoSettings.cbor (twoSettings.key settingA)
      (latestDatas twoSettings (droppedTask.world.withFaults .none).items) = some [1] := by decide +kernel
  obtain rfl := Option.some.inj (hstored.symm.trans hbody)
  have h7 : (some (7 : UInt8)) = some 1 := ht.trans hdec.symm
  exact absurd h7 (by decide)

/-- The collection before the write has returned. -/
def collectedTask : WorkerTask twoSettings := editedTask.call 64 .garbageBefore .none

/-- The stopper completes at the first read of the verification. -/
def verifyingTask : WorkerTask twoSettings := collectedTask.call 64 .processWrites ⟨[.cut], [], []⟩

set_option maxRecDepth 4000 in
theorem steady_verifyingTask : (steadyTask twoSettings 64).Reachable verifyingTask := by
  have h1 : (steadyTask twoSettings 64).Reachable collectedTask :=
    steady_served (steady_editedTask 64) rfl writingLoop_stage _
      (fun _ ha => absurd ha List.not_mem_nil) (below_storedOne rfl)
  have hstage : collectedTask.loop.stage = .serve .processWrites := by
    show (writingLoop.step (.returned true)).stage = _
    rw [step_returned writingLoop_stage]
    rfl
  refine steady_served h1 rfl hstage _ ?_ (by unfold Below; decide +kernel)
  intro n _ m hm
  obtain rfl : NonZeroU32.two = m := Option.some.inj hm
  decide +kernel

set_option maxRecDepth 4000 in
/-- The record that was stored is found again, with the number that is next. -/
theorem verifyingTask_flushes : Flushes verifyingTask.world := by
  have hstored : ∀ f ∈ validRecords twoSettings verifyingTask.world.items, f.key.get = 2 →
      datas f.seg = [dataA 7] := by decide +kernel
  show Due verifyingTask.world → ∀ f ∈ validRecords twoSettings verifyingTask.world.items,
    f.key = NonZeroU32.two → Stores (datas f.seg) verifyingTask.world
  intro _ f hf hkey i hi _
  obtain rfl := List.mem_singleton.mp hi
  rw [hstored f hf (congrArg NonZeroU32.get hkey)]
  exact ⟨[7], (7 : UInt8), by decide +kernel, rfl, rfl⟩

set_option maxRecDepth 4000 in
theorem shutdown_flushes_verifying : ∃ w', shutdown 64 (verifyingTask.world.withFaults .none) = .ok () w' ∧
    Held verifyingTask.world w'.items :=
  shutdown_flushes twoSettings_canonical settings_codec steady_verifyingTask editedTask_ready.1
    editedTask_ready.2 verifyingTask_flushes

end CfgNoodle

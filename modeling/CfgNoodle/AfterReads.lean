import CfgNoodle.Locations
import CfgNoodle.Scans

/-! # The list after a read

What `process_reads` makes of each node, from the data elements of the record that
the cache has as its highest, and when the list counts as scanned afterwards. -/
namespace CfgNoodle
open Framing Outcome Runs
open scoped List
variable {E : Env}

/-! ## What a node is given -/

/-- The first data element with this key that can be split carries this body. -/
def FirstBody (cbor : Minicbor) (key : String) (ds : List SerData) (body : List UInt8) : Prop :=
  ∃ pre d post, ds = pre ++ d :: post ∧ d.kvPair cbor = .ok ⟨key, body⟩ ∧
    ∀ d' ∈ pre, ∀ kv, d'.kvPair cbor = .ok kv → kv.key ≠ key

/-- What a read of these data elements does to a node. -/
structure Hydrated (E : Env) (ds : List SerData) (i : E.Id) (c c' : Cell (E.T i)) : Prop where
  found : c.state = .initial → ∀ body t, FirstBody E.cbor (E.key i) ds body →
    (E.vtable i).decode body = some t → c' = ⟨.validNoWriteNeeded, some t⟩
  absent : c.state = .initial → (∀ body t, FirstBody E.cbor (E.key i) ds body →
    (E.vtable i).decode body ≠ some t) → c' = ⟨.nonResident, c.t⟩
  kept : c.state ≠ .initial → c' = c

/-- The data elements of the record at which the last slot of a cache points. -/
inductive HighestDatas (items : List Item) (s : SeqState E.kept) : List SerData → Prop
  | empty (h : s.highestSeen = none) : HighestDatas items s []
  | record (r : GoodWriteRecord) (f : Record) (h : s.highestSeen = some r)
      (hf : Points (E := E) items r f) : HighestDatas items s (datas f.seg)

theorem bodyFor_eq_some {cbor : Minicbor} {key : String} {ds : List SerData} {body : List UInt8} :
    bodyFor cbor key ds = some body ↔ FirstBody cbor key ds body := by
  refine List.findSome?_eq_some_iff.trans ?_
  refine exists_congr fun pre => exists_congr fun d => exists_congr fun post => ?_
  refine and_congr Iff.rfl (and_congr ?_ (forall₂_congr fun d' _ => ?_))
  · -- the element that carries the body
    cases d.kvPair cbor with
    | error e => exact iff_of_false (fun h => by cases h) fun h => by cases h
    | ok kv => obtain ⟨k, b⟩ := kv; simp
  · -- one before it
    cases d'.kvPair cbor with
    | error e => exact iff_of_true rfl fun kv h => by cases h
    | ok kv => simp

theorem bodyFor_eq_none {cbor : Minicbor} {key : String} {ds : List SerData} :
    bodyFor cbor key ds = none ↔ ∀ body, ¬ FirstBody cbor key ds body := by
  simp only [← bodyFor_eq_some]
  exact Option.eq_none_iff_forall_ne_some

theorem highestDatas_recordDatas {items : List Item} {s : SeqState E.kept} (hl : Located items s) :
    HighestDatas items s (recordDatas items s) := by
  unfold recordDatas
  cases h : s.highestSeen with
  | none => exact .empty h
  | some r =>
    obtain ⟨f, hf⟩ := hl r (SeqState.mem_records_of_highestSeen h)
    dsimp only
    rw [hf.first, datasAt_start hf.mem]
    exact .record r f h hf

/-- The body offered, and `Initial` where nothing came of it. -/
theorem hydrated_settle (ds : List SerData) (i : E.Id) (c : Cell (E.T i)) :
    Hydrated E ds i c (offered (E.vtable i) (bodyFor E.cbor (E.key i) ds) c).settle := by
  cases hb : bodyFor E.cbor (E.key i) ds with
  | none =>
    have hno := bodyFor_eq_none.mp hb
    refine ⟨fun _ body _ h => absurd h (hno body), fun hc _ => ?_, fun hc => ?_⟩
    · exact if_pos hc
    · exact if_neg hc
  | some body =>
    have hfirst := bodyFor_eq_some.mp hb
    have hsame : ∀ body', FirstBody E.cbor (E.key i) ds body' → body' = body := fun body' h =>
      Option.some.inj ((bodyFor_eq_some.mpr h).symm.trans hb)
    by_cases hc : c.state = .initial
    · have hcell : (offered (E.vtable i) (some body) c).settle = deserialize (E.vtable i) body c := by
        rw [← settle_deserialize]
        exact congrArg Cell.settle (if_pos hc)
      rw [hcell]
      refine ⟨fun _ body' t h ht => ?_, fun _ hall => ?_, fun h => absurd hc h⟩
      · rw [hsame body' h] at ht
        unfold deserialize
        rw [ht]
      · unfold deserialize
        cases ht : (E.vtable i).decode body with
        | none => rfl
        | some t => exact absurd ht (hall body t hfirst)
    · have hcell : (offered (E.vtable i) (some body) c).settle = c := by
        rw [show offered (E.vtable i) (some body) c = c from if_neg hc]
        exact if_neg hc
      rw [hcell]
      exact ⟨fun h => absurd h hc, fun h => absurd h hc, fun _ => rfl⟩

theorem Hydrated.state_ne_initial {ds : List SerData} {i : E.Id} {c c' : Cell (E.T i)}
    (h : Hydrated E ds i c c') : c'.state ≠ .initial := by
  by_cases hc : c.state = .initial
  · by_cases hdec : ∃ body t, FirstBody E.cbor (E.key i) ds body ∧ (E.vtable i).decode body = some t
    · obtain ⟨body, t, hf, ht⟩ := hdec
      rw [h.found hc body t hf ht]
      nofun
    · rw [h.absent hc fun body t hf ht => hdec ⟨body, t, hf, ht⟩]
      nofun
  · rw [h.kept hc]
    exact hc

/-- In a sorted cache nothing is above the last slot. -/
theorem SeqState.Sorted.le_highestSeen {K : Nat} {s : SeqState K} (h : s.Sorted) :
    ∀ x ∈ s.records, ∃ r, s.highestSeen = some r ∧ x.seqKey ≤ r.seqKey := by
  intro x hx
  rcases h.highestSeen with ⟨_, hnil⟩ | ⟨r, hr, _, hmax⟩
  · rw [hnil] at hx
    cases hx
  · exact ⟨r, hr, hmax x hx⟩

theorem SeqState.Sorted.populate {items : List Item} {s : SeqState E.kept} (h : s.Sorted) :
    (CfgNoodle.populate E items s).Sorted := by
  unfold CfgNoodle.populate
  split
  · exact h
  · unfold SeqState.Sorted
    rw [finishScan_lastRecords]
    exact h.insertAll E.sorter _

/-- What a read that returns has made of every node, and that it returns where no
read of the storage fails. -/
theorem read_hydrates_nodes {w : World E} (hl : Located w.items w.seqState)
    (hnd : (w.list.map E.key).Nodup) :
    (∀ c w', processReads w = .ok c w' → w'.list = w.list ∧ w'.items = w.items ∧
      (∃ ds, HighestDatas w.items w'.seqState ds ∧
        ∀ i ∈ w.list, Hydrated E ds i (w.cells i) (w'.cells i) ∧ w'.state i ≠ .initial) ∧
      (w.seqState.Sorted → ∀ x ∈ w'.seqState.records,
        ∃ r, w'.seqState.highestSeen = some r ∧ x.seqKey ≤ r.seqKey)) ∧
    ((∀ a ∈ w.faults.reads, a = .ok) → ∃ c w', processReads w = .ok c w') := by
  have hloc := hl.populate
  constructor
  · intro c w' hrun
    obtain ⟨rest, _, rfl⟩ := (processReads_spec hl).ok hrun
    refine ⟨rfl, rfl, ⟨_, highestDatas_recordDatas hloc, fun i hi => ?_⟩,
      fun hs => hs.populate.le_highestSeen⟩
    have hcell : Hydrated E (recordDatas w.items (populate E w.items w.seqState)) i (w.cells i)
        (readCells w (populate E w.items w.seqState) i) := by
      rw [readCells_apply hnd _ hi]
      exact hydrated_settle _ i (w.cells i)
    exact ⟨hcell, hcell.state_ne_initial⟩
  · intro hok
    rcases (processReads_spec hl).cases with ⟨c, w', hrun, _⟩ | ⟨e, w', _, ⟨n, f, rest, hstop⟩, _⟩
    · exact ⟨c, w', hrun⟩
    · exact absurd hstop (not_readsStop_of_ok hok)

theorem read_hydrates_two_records : ∃ c w' ds,
    processReads (World.bootWith twoRecords [settingA] : World twoSettings) = .ok c w' ∧
      HighestDatas twoRecords w'.seqState ds ∧
      Hydrated twoSettings ds settingA Cell.new (w'.cells settingA) ∧
      w'.state settingA ≠ .initial := by
  obtain ⟨hspec, hrun⟩ := read_hydrates_nodes
    (w := (World.bootWith twoRecords [settingA] : World twoSettings)) (located_new twoRecords)
    (List.nodup_singleton _)
  obtain ⟨c, w', h⟩ := hrun fun _ ha => nomatch ha
  obtain ⟨_, _, ⟨ds, hds, hnodes⟩, _⟩ := hspec c w' h
  exact ⟨c, w', ds, h, hds, hnodes settingA List.mem_cons_self⟩

/-! ## When the list counts as scanned -/

theorem getOrPopulateLatest_of_completed {w : World E}
    (h : w.seqState.initialScanCompleted = true) (b : Nat) :
    getOrPopulateLatest b w = .ok (w.seqState.highestSeen, b) w := by
  show (if w.seqState.initialScanCompleted = true then _ else _ : M E _) w = _
  rw [if_pos h]
  rfl

/-- No operation of the storage fails with an error of the list. -/
theorem Faults.not_canStop_appError {ε : Type} (fs : Faults ε) (err : Error) :
    ¬ fs.CanStop (.error (.appError err)) := by
  intro h
  rcases h with ⟨a, _, ha⟩ | ⟨a, _, ha⟩ | ⟨a, _, ha⟩ <;> cases a <;> cases ha

/-- Why a node cannot be written. -/
theorem writeDatas_stop {bufLen : Nat} {cells : Cells E} {e : Stop E.Err} {list : List E.Id}
    (h : (writeDatas bufLen cells list).2 = some e) :
    e = .ub ∨ e = .error (.appError .serialization) := by
  induction list with
  | nil => cases h
  | cons i list ih =>
    rw [writeDatas] at h
    split at h
    · split at h
      · exact Or.inl (Option.some.inj h).symm
      · split at h
        · exact Or.inr (Option.some.inj h).symm
        · exact ih h
    · exact ih h

/-- `NeedsFirstRead` is returned for a cache that does not count as scanned and
for a node that waits for its data, and not otherwise. -/
theorem processWrites_ne_needsFirstRead {w w' : World E} {bufLen : Nat}
    (hscan : w.seqState.initialScanCompleted = true)
    (hinit : ∀ i ∈ w.list, w.state i ≠ .initial) :
    processWrites bufLen w ≠ .error (.error (.appError .needsFirstRead)) w' := by
  intro hrun
  rcases (processWrites_spec bufLen w).error hrun with ⟨err, hdue, he, _⟩ | ⟨s, fs, _, _, h⟩
  · obtain ⟨n, hn⟩ := Option.isSome_iff_exists.mp hscan
    obtain rfl : Error.needsFirstRead = err := by
      injection he with he
      injection he
    have hany : (w.list.any fun i => decide (w.state i = .initial)) = false := by
      simpa using hinit
    simp only [writeDue, needsWriting, hn, hany] at hdue
    split at hdue <;> cases hdue
  · rcases h with ⟨hc | hc, _⟩ | ⟨_, hc | ⟨hc | hc, _⟩, _⟩
    · exact w.faults.not_canStop_appError _ hc
    · rcases writeDatas_stop hc with h | h <;> cases h
    · exact w.faults.not_canStop_appError _ (Or.inl hc)
    · cases hc
    · cases hc

/-- What a read that returned `Ok` promises of the storage and the cache it leaves:
the cache counts as scanned, so that writing after a collection does not ask for a
first read, and no later read scans again or changes what is cached. -/
structure Scanned (items : List Item) (s : SeqState E.kept) : Prop where
  completed : s.initialScanCompleted = true
  writes : ∀ w : World E, w.items = items → w.seqState = s → w.faults = .none →
    ∃ c w2, processGarbage w = .ok c w2 ∧ ∀ (w3 : World E) (bufLen : Nat) (w4 : World E),
      w3.seqState = w2.seqState → (∀ i ∈ w3.list, w3.state i ≠ .initial) →
        processWrites bufLen w3 ≠ .error (.error (.appError .needsFirstRead)) w4
  reads : ∀ (w : World E) (cs : List (Call E)), w.items = items → w.seqState = s →
    (∀ c ∈ cs, (∃ list cells, c = .nodes list cells) ∨ ∃ fs, c = .processReads fs) →
    (cs.foldl World.serve w).seqState.lastRecords = s.lastRecords ∧
      ∀ b, getOrPopulateLatest b (cs.foldl World.serve w) =
        .ok ((cs.foldl World.serve w).seqState.highestSeen, b) (cs.foldl World.serve w)

/-- Reading again leaves a scanned cache as it is. -/
theorem serve_reads_completed {s : SeqState E.kept} (hscan : s.initialScanCompleted = true) :
    ∀ (cs : List (Call E)) (w : World E), Located w.items w.seqState → w.seqState = s →
      (∀ c ∈ cs, (∃ list cells, c = .nodes list cells) ∨ ∃ fs, c = .processReads fs) →
      (cs.foldl World.serve w).seqState = s
  | [], _, _, hs, _ => hs
  | c :: cs, w, hl, hs, hcs => by
    have hcs' := fun c hc => hcs c (List.mem_cons_of_mem _ hc)
    have hstep : (w.serve c).items = w.items ∧ (w.serve c).seqState = s := by
      rcases hcs c List.mem_cons_self with ⟨list, cells, rfl⟩ | ⟨fs, rfl⟩
      · exact ⟨rfl, hs⟩
      · have hpop : populate E w.items w.seqState = s := by
          rw [hs]
          exact populate_of_completed hscan
        refine endState_of_ends (P := fun w' => w'.items = w.items ∧ w'.seqState = s)
          ((processReads_spec (w := w.withFaults fs) hl).mono ?_ ?_)
        · intro _ w' h
          obtain ⟨_, _, rfl⟩ := h
          exact ⟨rfl, hpop⟩
        · intro _ w' h
          obtain ⟨_, _, ⟨hno, _⟩ | ⟨_, _, _, rfl⟩⟩ := h
          · rw [show (w.withFaults fs).seqState = s from hs, hscan] at hno
            cases hno
          · exact ⟨rfl, hpop⟩
    refine serve_reads_completed hscan cs (w.serve c) ?_ hstep.2 hcs'
    rw [hstep.1, hstep.2, ← hs]
    exact hl

/-- What a collection leaves is scanned again, if the cache it worked from was. -/
theorem Sound.scan_survivors {items : List Item} {s : SeqState E.kept} (h : Sound items s)
    {n : NonZeroU32} (hn : s.nextSeq = some n) :
    (SeqState.scan E (survivors s items)).initialScanCompleted = true := by
  refine Option.isSome_iff_ne_none.mpr fun hnone => ?_
  obtain ⟨f, hf, hmax⟩ := scan_nextSeq_eq_none.mp hnone
  have hmem := mem_contents.mpr ⟨f, hf, rfl⟩
  rw [contents_survivors h.snug] at hmem
  obtain ⟨g, hg, heq⟩ := List.mem_map.mp hmem
  have hkey : g.key = f.key := congrArg Prod.fst heq
  obtain ⟨x, hx, hpoints⟩ := (mem_keptRecords h.located).mp hg
  -- the record was cached, so the next number was above its own
  have hlt : x.seq.get < n.get := h.above n hn x hx
  rw [hpoints.seq, hkey, hmax] at hlt
  have hu32 := n.lt
  unfold NonZeroU32.MAX at hlt
  omega

theorem Sound.scanned_iff {items : List Item} {s : SeqState E.kept} (h : Sound items s) :
    Scanned items s ↔ s.nextSeq ≠ none := by
  constructor
  · intro hs
    exact Option.isSome_iff_ne_none.mp hs.completed
  · intro hne
    obtain ⟨n, hn⟩ := Option.ne_none_iff_exists'.mp hne
    have hscan : s.initialScanCompleted = true := Option.isSome_iff_ne_none.mpr hne
    refine ⟨hscan, fun w hi hs hf => ?_, fun w cs hi hs hcs => ?_⟩
    · obtain ⟨c, hrun⟩ := processGarbage_run hf
      refine ⟨c, _, hrun, fun w3 bufLen w4 hw3 hinit => ?_⟩
      refine processWrites_ne_needsFirstRead ?_ hinit
      rw [hw3, hs, hi]
      split
      · exact h.scan_survivors hn
      · rw [hs]
        exact hscan
    · have hl : Located w.items w.seqState := by
        rw [hi, hs]
        exact h.located
      have hkept := serve_reads_completed hscan cs w hl hs hcs
      refine ⟨congrArg SeqState.lastRecords hkept, fun b => ?_⟩
      exact getOrPopulateLatest_of_completed (by rw [hkept, hscan]) b

/-- A read leaves the list without a next number exactly where it had none and some
valid record has the last number. -/
theorem Sound.populate_nextSeq {items : List Item} {s : SeqState E.kept} (h : Sound items s) :
    (CfgNoodle.populate E items s).nextSeq ≠ none ↔
      s.nextSeq ≠ none ∨ ∀ f ∈ validRecords E items, f.key.get ≠ NonZeroU32.MAX := by
  by_cases hn : s.nextSeq = none
  · have hpop := h.populate
    have hscan : CfgNoodle.populate E items s =
        (s.insertAll E.sorter (goodRecords E items)).finishScan := populate_of_unset hn
    simp only [hn, ne_eq, not_true_eq_false, false_or]
    constructor
    · intro hne f hf hmax
      obtain ⟨n, hnext⟩ := Option.ne_none_iff_exists'.mp hne
      have hgood : goodOf f ∈ goodRecords E items := List.mem_map_of_mem hf
      obtain ⟨y, hy, hle⟩ := SeqState.exists_max_insertAll E.sorter E.kept_pos s
        (List.ne_nil_of_mem (List.mem_append_left s.records hgood))
      have hlt : y.seqKey < n.get := hpop.above n hnext y (by rwa [hscan, finishScan_records])
      have hkey : f.key.get ≤ y.seqKey := hle (goodOf f) (List.mem_append_left _ hgood)
      have hu32 := n.lt
      simp only [NonZeroU32.MAX] at hmax
      omega
    · intro hall hnone
      rcases hpop.unset hnone with hrec | ⟨r, hr, hmax⟩
      · have hempty : (s.insertAll E.sorter (goodRecords E items)).highestSeen = none := by
          rcases hpop.sorted.highestSeen with ⟨hno, _⟩ | ⟨r, _, hr, _⟩
          · rwa [hscan, finishScan_highestSeen] at hno
          · rw [hrec] at hr
            cases hr
        rw [hscan, SeqState.finishScan, hempty] at hnone
        cases hnone
      · obtain ⟨f, hf⟩ := hpop.located r hr
        exact hall f hf.mem (hf.seq ▸ hmax)
  · obtain ⟨n, hnext⟩ := Option.ne_none_iff_exists'.mp hn
    rw [populate_of_nextSeq hnext]
    exact iff_of_true hn (Or.inl hn)

/-- After a read without faults the list is scanned exactly where it was before or
no valid record has the last number. -/
theorem read_scans_iff {v : Service E} (hv : (service E).Reachable v) :
    ∃ c w, processReads (v.world.withFaults .none) = .ok c w ∧ (Scanned w.items w.seqState ↔
      v.world.seqState.nextSeq ≠ none ∨
        ∀ f ∈ validRecords E v.world.items, f.key.get ≠ NonZeroU32.MAX) := by
  have h := (sound_service hv).cache
  obtain ⟨c, hrun⟩ := processReads_run (w := v.world.withFaults .none) h.located rfl
  exact ⟨c, _, hrun, h.populate.scanned_iff.trans h.populate_nextSeq⟩

/-- A record of the first setting with the last number. -/
def lastNumber : List Item := recordItems twoSettings NonZeroU32.last [dataA 7] 0

theorem read_scans_iff_last : ∃ c w,
    processReads ((World.boot lastNumber : World twoSettings).withFaults .none) = .ok c w ∧
      (Scanned w.items w.seqState ↔ (World.boot lastNumber : World twoSettings).seqState.nextSeq ≠ none ∨
        ∀ f ∈ validRecords twoSettings lastNumber, f.key.get ≠ NonZeroU32.MAX) :=
  read_scans_iff (E := twoSettings) (v := ⟨World.boot lastNumber, .idle⟩) (.init ⟨lastNumber, rfl⟩)

set_option maxRecDepth 4000 in
/-- The list was read and its node is hydrated, and yet a first read is asked for. -/
theorem last_number_not_writable : ∃ c1 w1 c2 w2 w3,
    processReads (World.bootWith lastNumber [settingA] : World twoSettings) = .ok c1 w1 ∧
      w1.state settingA = .validNoWriteNeeded ∧ w1.seqState.nextSeq = none ∧
      processGarbage w1 = .ok c2 w2 ∧ (∀ i ∈ w2.list, w2.state i ≠ .initial) ∧
      processWrites 64 w2 = .error (.error (.appError .needsFirstRead)) w3 :=
  ⟨_, _, _, _, _, rfl, by decide +kernel, by decide +kernel, rfl, by decide +kernel, rfl⟩

end CfgNoodle

import CfgNoodle.CrashAtomic

/-! # The cache and a new scan

Runs of calls without faults, with a note of whether the cache comes from a scan
of what is stored now. Exactly then it is what a new scan finds: a write whose
record is complete is never cached as the scan would cache it, because the
verification takes the range of the record one item too far. -/
namespace CfgNoodle
open Framing Outcome Runs
open scoped List
variable {E : Env}

/-! ## Runs -/

/-- A device with the note that nothing was written since its list last scanned. -/
structure Tracked (E : Env) where
  device : Device E
  scanned : Bool

/-- A call of `process_writes` without faults stores a complete record. -/
def storesEnd (w : World E) (bufLen : Nat) : Bool :=
  match writeDue w with
  | .ok (some _) => (writeDatas bufLen w.cells w.list).2.isNone
  | _ => false

def Tracked.call (t : Tracked E) (c : Call E) : Tracked E where
  device := t.device.call c
  scanned :=
    match c with
    | .nodes _ _ => t.scanned
    | .processReads _ => t.scanned || t.device.world.seqState.nextSeq.isNone
    | .processWrites bufLen _ => t.scanned && !storesEnd t.device.world bufLen
    | .processGarbage _ => t.scanned || t.device.world.seqState.needsGc
    | .resetCache | .powerLoss => false

/-- The calls meet no faults, and all valid records keep numbers below the last one. -/
def Faultless (t' : Tracked E) : Call E → Prop
  | .processReads fs | .processWrites _ fs | .processGarbage fs =>
    fs = .none ∧ ∀ f ∈ validRecords E t'.device.world.items, f.key.get < NonZeroU32.MAX
  | _ => ∀ f ∈ validRecords E t'.device.world.items, f.key.get < NonZeroU32.MAX

/-- A list that has just booted on any such storage. -/
def trackedRuns (E : Env) : System (Tracked E) (Call E) where
  init t := Booted t.device ∧ t.scanned = false ∧
    ∀ f ∈ validRecords E t.device.world.items, f.key.get < NonZeroU32.MAX
  step t c t' := t' = t.call c ∧ Faultless t' c

theorem Faultless.below {t' : Tracked E} {c : Call E} (h : Faultless t' c) :
    ∀ f ∈ validRecords E t'.device.world.items, f.key.get < NonZeroU32.MAX := by
  cases c with
  | processReads fs | processWrites bufLen fs | processGarbage fs => exact h.2
  | nodes list cells | resetCache | powerLoss => exact h

/-! ## What is cached -/

/-- The same records with the same ranges, and the same next number. -/
def SameCache {K : Nat} (s s' : SeqState K) : Prop :=
  s.lastRecords = s'.lastRecords ∧ s.nextSeq = s'.nextSeq

/-- What a cache can be that differs from a new scan. -/
inductive Stale (items : List Item) (s : SeqState E.kept) : Prop
  | empty (h : s = .new)
  /-- A cached range ends one item after its record. -/
  | overrun (r : GoodWriteRecord) (f : Record) (hr : r ∈ s.records) (hf : f ∈ validRecords E items)
      (hrange : r.range = ⟨f.start, f.last + 1⟩) (hgc : s.needsGc = true)
  /-- A record was stored with the next number, and its verification failed. -/
  | unverified (n : NonZeroU32) (f : Record) (hn : s.nextSeq = some n) (hgc : s.needsGc = false)
      (hstuck : Stuck E items n) (hf : f ∈ validRecords E items) (hkey : f.key = n)

theorem Stale.not_same {items : List Item} {s : SeqState E.kept} (h : Stale items s)
    (hmax : ∀ f ∈ validRecords E items, f.key.get < NonZeroU32.MAX) :
    ¬ SameCache s (SeqState.scan E items) := by
  intro hx
  obtain ⟨hlast, hnext⟩ := hx
  cases h with
  | empty h => exact scan_nextSeq_ne_none hmax (hnext.symm.trans (congrArg SeqState.nextSeq h))
  | overrun r f hr hf hrange _ =>
    have hmem : r ∈ (SeqState.scan E items).records := by
      simp only [SeqState.records] at hr ⊢
      exact hlast ▸ hr
    obtain ⟨g, hg, rfl⟩ := List.mem_map.mp ((scan_isTop items).subset r hmem)
    obtain rfl := frames_start_inj _ hg hf (congrArg RangeInclusive.first hrange)
    have : g.last = g.last + 1 := congrArg RangeInclusive.last hrange
    omega
  | unverified n f hn _ _ hf hkey =>
    have := scan_nextSeq_above (hnext.symm.trans hn) f hf
    rw [hkey] at this
    exact Nat.lt_irrefl _ this

theorem scan_of_validRecords {items items' : List Item}
    (h : validRecords E items' = validRecords E items) :
    SeqState.scan E items' = SeqState.scan E items := by
  simp only [SeqState.scan, goodRecords]
  rw [h]

/-- The cache is as the note says. -/
structure Noted (items : List Item) (s : SeqState E.kept) (scanned : Bool) : Prop where
  below : ∀ f ∈ validRecords E items, f.key.get < NonZeroU32.MAX
  fresh : Fresh items s
  same : scanned = true → SameCache s (SeqState.scan E items)
  stale : scanned = false → Stale items s

def Tracked.Noted (t : Tracked E) : Prop :=
  CfgNoodle.Noted t.device.world.items t.device.world.seqState t.scanned

theorem noted_new {items : List Item} (hmax : ∀ f ∈ validRecords E items, f.key.get < NonZeroU32.MAX) :
    Noted (E := E) items .new false :=
  ⟨hmax, fresh_new items, nofun, fun _ => .empty rfl⟩

/-! ## Every call keeps the note true -/

theorem Tracked.Noted.processReads {t : Tracked E} (h : t.Noted) :
    (t.call (.processReads .none)).Noted := by
  obtain ⟨c, hrun⟩ := processReads_run (w := t.device.world.withFaults .none)
    h.fresh.covers.located rfl
  have hcall := Device.call_processReads hrun
  simp only [Tracked.Noted, Tracked.call]
  rw [hcall]
  show CfgNoodle.Noted t.device.world.items (populate E t.device.world.items t.device.world.seqState)
    (t.scanned || t.device.world.seqState.nextSeq.isNone)
  cases hn : t.device.world.seqState.nextSeq with
  | none =>
    rw [h.fresh.unset hn, populate_new]
    exact ⟨h.below, fresh_scan h.below, fun _ => ⟨rfl, rfl⟩, by simp⟩
  | some n =>
    rw [populate_of_nextSeq hn, Option.isNone_some, Bool.or_false]
    exact h

theorem Tracked.Noted.processGarbage {t : Tracked E} (h : t.Noted)
    (hmax : ∀ f ∈ validRecords E (t.call (.processGarbage .none)).device.world.items,
      f.key.get < NonZeroU32.MAX) : (t.call (.processGarbage .none)).Noted := by
  obtain ⟨c, hrun⟩ := processGarbage_run (w := t.device.world.withFaults .none) rfl
  have hcall := Device.call_processGarbage hrun
  simp only [Tracked.Noted, Tracked.call] at *
  rw [hcall] at hmax ⊢
  cases hgc : t.device.world.seqState.needsGc with
  | false =>
    rw [World.withFaults_seqState, hgc] at hmax ⊢
    rw [Bool.or_false]
    exact h
  | true =>
    rw [World.withFaults_seqState, hgc] at hmax ⊢
    exact ⟨hmax, fresh_scan_clean hmax, fun _ => ⟨rfl, rfl⟩, by simp⟩

/-- The number that the next write takes is above every valid record, or stuck. -/
theorem Noted.next {items : List Item} {s : SeqState E.kept} {scanned : Bool}
    (h : Noted items s scanned) {n : NonZeroU32} (hn : s.nextSeq = some n) (hgc : s.needsGc = false) :
    (scanned = true ∧ ∀ f ∈ validRecords E items, f.key.get < n.get) ∨
      (scanned = false ∧ Stuck E items n ∧ ∃ f ∈ validRecords E items, f.key = n) := by
  cases hscan : scanned with
  | true => exact Or.inl ⟨rfl, scan_nextSeq_above ((h.same hscan).2.symm.trans hn)⟩
  | false =>
    refine Or.inr ⟨rfl, ?_⟩
    cases h.stale hscan with
    | empty hs =>
      rw [hs] at hn
      cases hn
    | overrun r f _ _ _ hgc' =>
      rw [hgc] at hgc'
      cases hgc'
    | unverified n' f hn' _ hstuck hf hkey =>
      obtain rfl := Option.some.inj (hn.symm.trans hn')
      exact ⟨hstuck, f, hf, hkey⟩

/-- A part of a record changes nothing that a scan finds. -/
theorem Noted.part {items part : List Item} {s : SeqState E.kept} {scanned : Bool}
    (h : Noted items s scanned) {n : NonZeroU32} (hn : s.nextSeq = some n) (hgc : s.needsGc = false)
    (hv : validRecords E (items ++ part) = validRecords E items) : Noted (items ++ part) s scanned := by
  have hg : Grown E items n (items ++ part) := Or.inl hv
  have hbelow : ∀ f ∈ validRecords E (items ++ part), f.key.get < NonZeroU32.MAX := by
    rw [hv]
    exact h.below
  rcases h.next hn hgc with ⟨rfl, hlt⟩ | ⟨rfl, hstuck, f, hf, hkey⟩
  · refine ⟨hbelow, h.fresh.grown hn hgc hg (Or.inr (by rw [hv]; exact hlt)), fun _ => ?_, nofun⟩
    rw [scan_of_validRecords hv]
    exact h.same rfl
  · have hstuck' := hstuck.grown hg
    exact ⟨hbelow, h.fresh.grown hn hgc hg (Or.inl hstuck'), nofun,
      fun _ => .unverified n f hn hgc hstuck' (hg.subset hf) hkey⟩

section Record
variable {items : List Item} {s : SeqState E.kept} {scanned : Bool} (h : Noted items s scanned)
  {n : NonZeroU32} (hn : s.nextSeq = some n) (hgc : s.needsGc = false) {ds : List SerData} {call : Nat}
  (hmax : ∀ f ∈ validRecords E (items ++ recordItems E n ds call), f.key.get < NonZeroU32.MAX)
include h hn hgc hmax

/-- A record that was stored and not verified. -/
theorem Noted.unverified (hno : ∀ range, ¬ Verifies E ⟨n, E.crc (crcBytes ds), ds.length, 0⟩
      (items ++ recordItems E n ds call) range) :
    Noted (items ++ recordItems E n ds call) s false := by
  have hg := grown_record (E := E) items n ds call
  have hstuck : Stuck E (items ++ recordItems E n ds call) n := by
    rcases h.next hn hgc with ⟨_, hlt⟩ | ⟨_, hstuck, _⟩
    · exact stuck_of_not_verifies hlt hno
    · exact hstuck.grown hg
  have hmem : ⟨n, items.length, recordItems E n ds call⟩ ∈
      validRecords E (items ++ recordItems E n ds call) := by
    rw [validRecords_append_record]
    exact List.mem_append_right _ (List.mem_singleton_self _)
  exact ⟨hmax, h.fresh.grown hn hgc hg (Or.inl hstuck), nofun,
    fun _ => .unverified n _ hn hgc hstuck hmem rfl⟩

/-- A record that was stored and verified. -/
theorem Noted.verified {range : RangeInclusive}
    (hv : Verifies E ⟨n, E.crc (crcBytes ds), ds.length, 0⟩ (items ++ recordItems E n ds call) range) :
    Noted (items ++ recordItems E n ds call) (s.insertGood E.sorter ⟨n, range⟩) false := by
  obtain ⟨f, hf, _, _, rfl⟩ := hv.frame
  have hlt := (h.fresh.covers.above n hn).2
  refine ⟨hmax, (h.fresh.written hn hgc hv hmax).2, nofun, fun _ => ?_⟩
  exact .overrun ⟨n, ⟨f.start, f.last + 1⟩⟩ f (mem_insertGood_of_above hlt) hf rfl
    (inserted_of_above (r := ⟨n, ⟨f.start, f.last + 1⟩⟩) hlt).needsGc

end Record

theorem storesEnd_of_due {w : World E} {bufLen : Nat} {n : NonZeroU32}
    (hdue : writeDue w = .ok (some n)) :
    storesEnd w bufLen = (writeDatas bufLen w.cells w.list).2.isNone := by
  simp only [storesEnd]
  rw [hdue]

theorem storesEnd_of_not_due {w : World E} {bufLen : Nat} (hno : ∀ n, writeDue w ≠ .ok (some n)) :
    storesEnd w bufLen = false := by
  unfold storesEnd
  split
  · next n h => exact absurd h (hno n)
  · rfl

theorem Noted.write {w : World E} {scanned : Bool} (h : Noted w.items w.seqState scanned)
    (hf : w.faults = .none) {bufLen : Nat}
    (hmax : ∀ f ∈ validRecords E (World.after (processWrites bufLen w)).items,
      f.key.get < NonZeroU32.MAX) :
    Noted (World.after (processWrites bufLen w)).items
      (World.after (processWrites bufLen w)).seqState (scanned && !storesEnd w bufLen) := by
  have hnot : ∀ e, ¬ w.faults.CanStop e := by
    rw [hf]
    exact Faults.not_canStop_none
  have hidle : (∀ n, writeDue w ≠ .ok (some n)) →
      Noted w.items w.seqState (scanned && !storesEnd w bufLen) := by
    intro hno
    rw [storesEnd_of_not_due hno, Bool.not_false, Bool.and_true]
    exact h
  rcases (processWrites_spec bufLen w).cases with ⟨c, w', hrun, hq⟩ | ⟨e, w', hrun, hq⟩
  · rw [hrun] at hmax ⊢
    rcases hq with ⟨hno, rfl⟩ | ⟨n, range, fs, hdue, _, hall, hv, rfl⟩
    · exact hidle fun n hn => by rw [hno] at hn; cases hn
    · rw [storesEnd_of_due hdue, hall, Option.isNone_none, Bool.not_true, Bool.and_false]
      exact h.verified (writeDue_nextSeq hdue) (writeDue_clean hdue) hmax hv
  · rw [hrun] at hmax ⊢
    rcases hq with ⟨err, hno, rfl, rfl⟩ | ⟨n, fs, hdue, _, ⟨hc, part, hpart, hall, rfl⟩ | ⟨hall, hc, rfl⟩⟩
    · exact hidle fun n hn => by rw [hno] at hn; cases hn
    · -- a node does not fit
      have hsome : (writeDatas bufLen w.cells w.list).2 = some e := hc.resolve_left (hnot e)
      have hv : validRecords E (w.items ++ part) = validRecords E w.items := by
        refine (validRecords_append_partly w.items hpart).resolve_right fun hw => ?_
        rw [hall hw.2] at hsome
        cases hsome
      have hstopped : ∀ x : World E, x.stopped e = x := by
        intro x
        cases e with
        | cut => exact absurd hsome (writeDatas_ne_cut bufLen w.cells w.list)
        | error _ | ub => rfl
      rw [storesEnd_of_due hdue, hsome, Option.isNone_some, Bool.not_false, Bool.and_true]
      show Noted (World.stopped _ e).items (World.stopped _ e).seqState scanned
      rw [hstopped]
      exact h.part (writeDue_nextSeq hdue) (writeDue_clean hdue) hv
    · -- the verification fails
      obtain ⟨hve, hno⟩ := hc.resolve_left fun hs => hnot e (Or.inl hs)
      have hstopped : ∀ x : World E, x.stopped e = x := by
        intro x
        rcases hve with rfl | rfl <;> rfl
      rw [storesEnd_of_due hdue, hall, Option.isNone_none, Bool.not_true, Bool.and_false]
      change ∀ f ∈ validRecords E (World.stopped _ e).items, _ at hmax
      show Noted (World.stopped _ e).items (World.stopped _ e).seqState false
      rw [hstopped] at hmax ⊢
      exact h.unverified (writeDue_nextSeq hdue) (writeDue_clean hdue) hmax hno

theorem Tracked.Noted.call {t : Tracked E} (h : t.Noted) {c : Call E}
    (hc : Faultless (t.call c) c) : (t.call c).Noted := by
  have hmax := hc.below
  cases c with
  | nodes list cells => exact h
  | resetCache => exact noted_new h.below
  | powerLoss => exact noted_new h.below
  | processReads fs =>
    obtain rfl := hc.1
    exact h.processReads
  | processGarbage fs =>
    obtain rfl := hc.1
    exact h.processGarbage hmax
  | processWrites bufLen fs =>
    obtain rfl := hc.1
    exact Noted.write (w := t.device.writing .none) h rfl hmax

theorem noted_reachable {t : Tracked E} (ht : (trackedRuns E).Reachable t) : t.Noted := by
  refine ht.invariant ?_ ?_
  · intro hx hx1
    obtain ⟨d, scanned⟩ := hx
    obtain ⟨⟨items, list, rfl⟩, rfl, hmax⟩ := hx1
    exact noted_new hmax
  · intro t c _ hi hx
    obtain ⟨rfl, hc⟩ := hx
    exact hi.call hc

/-- **The cache is what a new scan finds exactly if it comes from a scan of what
is stored now**: in every state of such a run, so after every call that returned
`Ok`. -/
theorem cache_equals_rescan_iff {t : Tracked E} (ht : (trackedRuns E).Reachable t) :
    ∃ a w, getOrPopulateLatest 0 ((t.device.world.withSeq .new).withFaults .none) = .ok a w ∧
      (SameCache t.device.world.seqState w.seqState ↔ t.scanned = true) := by
  have h := noted_reachable ht
  rcases (getOrPopulateLatest_spec 0 ((t.device.world.withSeq .new).withFaults .none)).cases with
    ⟨a, w, hrun, _, n, rest, _, _, rfl⟩ | ⟨e, w, _, _, q, rest, _, hs, _⟩
  · refine ⟨a, _, hrun, fun hsame => ?_, fun hscan => h.same hscan⟩
    cases hscan : t.scanned with
    | true => rfl
    | false => exact absurd hsame ((h.stale hscan).not_same h.below)
  · exact absurd hs.canStop (Faults.not_canStop_none e)

/-- A list that has booted on an empty storage and scanned it, with one node that
needs a write. -/
def scannedEmpty : Tracked twoSettings :=
  (⟨waiting, false⟩ : Tracked twoSettings).call (.processReads .none)

theorem reachable_scannedEmpty : (trackedRuns twoSettings).Reachable scannedEmpty := by
  have h0 : (trackedRuns twoSettings).Reachable ⟨⟨World.bootWith [] [], []⟩, false⟩ :=
    .init ⟨⟨[], [], rfl⟩, rfl, fun _ hf => nomatch hf⟩
  have h1 : (trackedRuns twoSettings).Reachable ⟨waiting, false⟩ :=
    .step h0 (l := .nodes [settingA] fun _ => ⟨.needsWrite, some (7 : UInt8)⟩)
      ⟨rfl, fun _ hf => nomatch hf⟩
  exact .step h1 (l := .processReads .none) ⟨rfl, rfl, by decide +kernel⟩

/-- The same list after its first write and the collection that follows. -/
def rescannedFirst : Tracked twoSettings :=
  (scannedEmpty.call (.processWrites 64 .none)).call (.processGarbage .none)

theorem reachable_rescannedFirst : (trackedRuns twoSettings).Reachable rescannedFirst := by
  have h1 : (trackedRuns twoSettings).Reachable (scannedEmpty.call (.processWrites 64 .none)) :=
    .step reachable_scannedEmpty (l := .processWrites 64 .none) ⟨rfl, rfl, by decide +kernel⟩
  exact .step h1 (l := .processGarbage .none) ⟨rfl, rfl, by decide +kernel⟩

/-- The cache holds the record that was written. -/
theorem cache_equals_rescan_first :
    rescannedFirst.device.world.seqState.highestSeen = some ⟨NonZeroU32.one, ⟨0, 2⟩⟩ ∧
    ∃ a w, getOrPopulateLatest 0
      ((rescannedFirst.device.world.withSeq .new).withFaults .none) = .ok a w ∧
    (SameCache rescannedFirst.device.world.seqState w.seqState ↔ rescannedFirst.scanned = true) :=
  ⟨by decide +kernel, cache_equals_rescan_iff reachable_rescannedFirst⟩

set_option maxRecDepth 4000 in
/-- The first write is cached with the range 0 to 3, where a scan finds 0 to 2. -/
theorem written_range_overruns : ∃ c w a w', (trackedRuns twoSettings).Reachable scannedEmpty ∧
    processWrites 64 (scannedEmpty.device.writing .none) = .ok c w ∧
    getOrPopulateLatest 0 ((w.withSeq .new).withFaults .none) = .ok a w' ∧
    w.seqState.highestSeen = some ⟨NonZeroU32.one, ⟨0, 3⟩⟩ ∧
    w'.seqState.highestSeen = some ⟨NonZeroU32.one, ⟨0, 2⟩⟩ ∧ ¬ SameCache w.seqState w'.seqState := by
  refine ⟨_, _, _, _, reachable_scannedEmpty, rfl, rfl, by decide +kernel, by decide +kernel, ?_⟩
  intro hx
  obtain ⟨h, _⟩ := hx
  revert h
  decide +kernel

end CfgNoodle

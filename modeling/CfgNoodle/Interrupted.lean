import CfgNoodle.Persist

/-! # Calls that are cut short

A collection may stop after any of its invalidations: the next scan finds what
it would have found before. A read may fail at any item: what the next read
makes of that depends on what the scan had already taken into the cache. -/
namespace CfgNoodle
open Framing Outcome
open scoped List
variable {E : Env}

/-! ## An interrupted collection -/

/-- The cached records with their items. -/
def cachedContents (items : List Item) (s : SeqState E.kept) : List (NonZeroU32 × List Item) :=
  s.records.map fun r => (r.seq, r.range.slice items)

theorem cachedContents_subset {items : List Item} {cur : SeqState E.kept} (hl : Spanned items cur) :
    cachedContents items cur ⊆ (keptRecords cur items).map fun f => (f.key, f.seg) := by
  intro p hp
  obtain ⟨r, hr, rfl⟩ := List.mem_map.mp hp
  obtain ⟨f, hf⟩ := hl r hr
  refine List.mem_map.mpr ⟨f, (mem_keptRecords hl.located).mpr ⟨r, hr, hf.toPoints⟩, ?_⟩
  show (f.key, f.seg) = (r.seq, r.range.slice items)
  rw [hf.seq, hf.slice]

/-- A cache that holds the greatest valid records covers just them. -/
theorem spanned_of_isTop {items : List Item} {s : SeqState E.kept}
    (htop : TopK.IsTop E.kept GoodWriteRecord.seqKey (goodRecords E items) s.records) :
    Spanned items s := spanned_of_exact htop.subset

/-- Wherever a collection with such a cache stops, the next scan finds the same
records and the same next number. -/
theorem sameScan_collected {items : List Item} {cur : SeqState E.kept}
    (hd : ((validRecords E items).map Frame.key).Nodup)
    (htop : TopK.IsTop E.kept GoodWriteRecord.seqKey (goodRecords E items) cur.records) (p : Nat) :
    SameScan E items (collected cur p items) := by
  have hl := spanned_of_isTop htop
  obtain ⟨hsub, hkept⟩ := contents_collected hl p
  have hkeys : ((contents (recordGrammar E.crc) items).map contentKey).Nodup := by
    have hinj := hd.map (f := NonZeroU32.get) fun a b h => NonZeroU32.eq_of_get h
    simp only [contents]
    rw [List.map_map]
    rw [List.map_map] at hinj
    exact hinj
  have htop' : TopK.IsTop E.kept contentKey (contents (recordGrammar E.crc) items)
      (cachedContents items cur) := by
    rw [contents_eq_slices]
    exact htop.map _ fun _ _ => rfl
  refine SameScan.of_contents hkeys htop' ?_ hsub
  -- the cached records are distinct, so that being among the kept ones is enough
  obtain ⟨rest, hp, _⟩ := htop'
  have hnd := (hp.map contentKey).nodup_iff.mp hkeys
  rw [List.map_append] at hnd
  have hnd' : (cachedContents items cur).Nodup :=
    List.Nodup.of_map _ (List.nodup_append.mp hnd).1
  exact (List.subperm_of_subset hnd' (cachedContents_subset hl)).trans hkept.subperm

/-- **An interrupted collection is harmless**: however `process_garbage` ends, and
at whichever of its operations it is stopped, a fresh scan of what is left finds
the same records with the same items and hands out the same number, and every
record that is valid then was valid before. -/
theorem interrupted_collection_harmless {w : World E}
    (hd : ((validRecords E w.items).map Frame.key).Nodup)
    (htop : TopK.IsTop E.kept GoodWriteRecord.seqKey (goodRecords E w.items) w.seqState.records) :
    Ends processGarbage w
      (fun _ w' => SameScan E w.items w'.items ∧
        contents (recordGrammar E.crc) w'.items <+ contents (recordGrammar E.crc) w.items)
      (fun _ w' => SameScan E w.items w'.items ∧
        contents (recordGrammar E.crc) w'.items <+ contents (recordGrammar E.crc) w.items) := by
  have hl := spanned_of_isTop htop
  have hcollected := fun p => And.intro (sameScan_collected hd htop p) (contents_collected hl p).1
  have hsurvivors := hcollected w.items.length
  rw [collected_length] at hsurvivors
  refine (processGarbage_spec w).mono ?_ ?_
  · intro _ w' h
    rcases h with ⟨_, rfl⟩ | ⟨_, fs, _, rfl⟩
    · exact ⟨⟨rfl, rfl⟩, List.Sublist.refl _⟩
    · exact hsurvivors
  · intro _ w' h
    obtain ⟨_, _, fs, _, ⟨p, rfl⟩ | ⟨_, _, _, _, rfl⟩⟩ := h
    · exact hcollected p
    · exact hsurvivors

/-- Two records of the first setting, of which the second is the newer one. -/
def twoRecords : List Item :=
  recordItems twoSettings NonZeroU32.one [dataA 1] 0 ++
    recordItems twoSettings NonZeroU32.two [dataA 2] 1

/-- Two elements that belong to no record, before the two records. -/
def strayAndTwo : List Item :=
  ⟨none, 3, 0⟩ :: stored twoSettings 0 (.start NonZeroU32.two) :: twoRecords

/-- The collection is stopped when it has removed the first of them. -/
def collecting : World twoSettings :=
  (flushing strayAndTwo (SeqState.scan twoSettings strayAndTwo)).withFaults ⟨[], [], [.ok, .cut false]⟩

set_option maxRecDepth 4000 in
theorem interrupted_collection_stray : ∃ w', processGarbage collecting = .error .cut w' ∧
    w'.items = stored twoSettings 0 (.start NonZeroU32.two) :: twoRecords ∧
    SameScan twoSettings strayAndTwo w'.items ∧
      contents (recordGrammar cksum) w'.items <+ contents (recordGrammar cksum) strayAndTwo := by
  have hends := interrupted_collection_harmless (w := collecting) (by decide +kernel)
    (scan_isTop (E := twoSettings) strayAndTwo)
  exact ⟨_, rfl, by decide +kernel, hends.error rfl⟩

/-! ## A read that fails once -/

/-- The records that a scan had accepted when its read number `p` failed; the
first read creates the iterator. -/
def acceptedBefore (E : Env) (items : List Item) (p : Nat) : List GoodWriteRecord :=
  goodRecords E (items.take (p - 1))

/-- The valid records that end where the scan did not get. -/
def unseenAfter (E : Env) (items : List Item) (p : Nat) : List GoodWriteRecord :=
  (goodRecords E items).filter fun r => p - 1 ≤ r.range.last

theorem goodRecords_split (items : List Item) (p : Nat) :
    goodRecords E items = acceptedBefore E items p ++ unseenAfter E items p ∧
      (∀ r ∈ acceptedBefore E items p, r.range.last < p - 1) := by
  obtain ⟨late, heq, hlate⟩ := frames_append_eq (recordGrammar E.crc) (items.take (p - 1))
    (items.drop (p - 1))
  rw [List.take_append_drop] at heq
  have hsplit : goodRecords E items = acceptedBefore E items p ++ late.map goodOf := by
    unfold goodRecords validRecords acceptedBefore
    rw [heq, List.map_append]; rfl
  have hbefore : ∀ r ∈ acceptedBefore E items p, r.range.last < p - 1 := by
    intro r hr
    obtain ⟨f, hf, rfl⟩ := List.mem_map.mp hr
    obtain ⟨pre, post, hs, hk, he⟩ := (mem_frames _).mp hf
    have hlen := congrArg List.length he
    have h2 := hk.length
    simp only [List.length_take, List.length_append] at hlen
    simp only [goodOf_last, Frame.last]
    omega
  refine ⟨?_, hbefore⟩
  have hunseen : unseenAfter E items p = late.map goodOf := by
    unfold unseenAfter
    rw [hsplit, List.filter_append, List.filter_eq_nil_iff.mpr, List.nil_append,
      List.filter_eq_self.mpr]
    · intro r hr
      obtain ⟨f, hf, rfl⟩ := List.mem_map.mp hr
      have hend := hlate f hf
      -- no record ends beyond the storage
      have hle : f.start + f.seg.length ≤ items.length := by
        obtain ⟨pre, post, hs, _, he⟩ := (mem_frames _).mp
          (show f ∈ frames (recordGrammar E.crc) items by rw [heq]; simp [hf])
        have := congrArg List.length he
        simp only [List.length_append] at this
        omega
      rw [List.length_take] at hend
      refine decide_eq_true ?_
      show p - 1 ≤ f.start + f.seg.length - 1
      omega
    · intro r hr
      have := hbefore r hr
      simp only [decide_eq_true_eq]
      omega
  rw [hunseen, hsplit]

/-- The records with the last number. -/
def lastNumbered (recs : List GoodWriteRecord) : List GoodWriteRecord :=
  recs.filter (·.seqKey = NonZeroU32.MAX)

/-- When a failed read leaves no trace: nothing had been accepted; or no accepted
record has the last number, and every record that the scan did not reach is
outranked by `KEPT_RECORDS` accepted ones; or one has the last number, so that
the next call scans again, and only one record is kept. -/
def LeavesNoTrace (E : Env) (items : List Item) (p : Nat) : Prop :=
  acceptedBefore E items p = [] ∨
    ((∀ r ∈ acceptedBefore E items p, r.seqKey < NonZeroU32.MAX) ∧
      ∀ r ∈ unseenAfter E items p,
        E.kept ≤ ((acceptedBefore E items p).filter fun a => r.seqKey < a.seqKey).length) ∨
    ((∃ r ∈ acceptedBefore E items p, r.seqKey = NonZeroU32.MAX) ∧ E.kept = 1)

/-- The cache has no slot for a record below the last number, and the records with that
number, of which some had been accepted, are only told apart by the order in which the
sort leaves equal numbers. -/
def LastNumberTied (E : Env) (items : List Item) (p : Nat) : Prop :=
  (∃ r ∈ acceptedBefore E items p, r.seqKey = NonZeroU32.MAX) ∧ 1 < E.kept ∧
    E.kept ≤ (lastNumbered (goodRecords E items)).length

instance (E : Env) (items : List Item) (p : Nat) : Decidable (LastNumberTied E items p) :=
  inferInstanceAs (Decidable (_ ∧ _ ∧ _))

/-- The cache after a failed read, as far as it counts for the next one. -/
def AfterFailure (E : Env) (items : List Item) (p : Nat) (s : SeqState E.kept) : Prop :=
  s = SeqState.new.insertAll E.sorter (acceptedBefore E items p) ∨
    (acceptedBefore E items p = goodRecords E items ∧ s = SeqState.scan E items)

/-- The states that a failed `process_reads` on an empty cache can leave, and
what the next one makes of the cache. -/
theorem failed_read_leaves {w w1 : World E} {p : Nat} {x : E.Err} {e : Stop E.Err}
    (hnew : w.seqState = .new)
    (herr : processReads (w.withReads (List.replicate p .ok ++ [.err x])) = .error e w1) :
    w1.items = w.items ∧ w1.list = w.list ∧
      (∃ ds, ds <+: recordDatas w.items (SeqState.scan E w.items) ∧
        w1.cells = hydrateAll w.list ds w.cells) ∧
      AfterFailure E w.items p w1.seqState := by
  have hl : Located w.items w.seqState := by
    rw [hnew]
    exact located_new w.items
  have hspec := processReads_spec (w := w.withReads (List.replicate p .ok ++ [.err x])) hl
  rcases hspec.error herr with ⟨_, r, ⟨_, q, _, hq, rfl⟩ | ⟨ds, hds, hpass, rfl⟩⟩
  · obtain ⟨rfl, _, _⟩ := ReadsStop.at hq
    refine ⟨rfl, rfl, ⟨[], List.nil_prefix, rfl⟩, Or.inl ?_⟩
    show w.seqState.insertAll _ _ = _
    rw [hnew]; rfl
  · obtain ⟨rest, hrest⟩ := hpass (by
      show w.seqState.initialScanCompleted = false
      rw [hnew]; rfl)
    have hle := ReadsPass.le hrest
    have hpop : populate E w.items w.seqState = SeqState.scan E w.items := by rw [hnew]; rfl
    refine ⟨rfl, rfl, ⟨ds, by rw [← hpop]; exact hds, rfl⟩, Or.inr ⟨?_, hpop⟩⟩
    simp only [acceptedBefore]
    rw [List.take_of_length_le (by simp only [World.withReads_items] at hle; omega)]

section AfterFailure
variable {items : List Item} {p : Nat} {s : SeqState E.kept} (hs : AfterFailure E items p s)
include hs

/-- Where a record was accepted, both caches are runs of insertions. -/
theorem AfterFailure.inserted (hA : acceptedBefore E items p ≠ []) :
    SeqState.scan E items = SeqState.new.insertAll E.sorter (goodRecords E items) ∧
      s = SeqState.new.insertAll E.sorter (acceptedBefore E items p) := by
  have hscan : SeqState.scan E items = SeqState.new.insertAll E.sorter (goodRecords E items) := by
    have hne : goodRecords E items ≠ [] := by
      rw [(goodRecords_split (E := E) items p).1]; simp [hA]
    rcases scan_cases (E := E) items with ⟨h, _⟩ | ⟨r, hr⟩
    · exact absurd h hne
    · simp only [SeqState.scan] at hr ⊢
      have := hr.highest
      rw [finishScan_highestSeen] at this
      exact finishScan_eq_self this
  refine ⟨hscan, ?_⟩
  rcases hs with h | ⟨hall, h⟩
  · exact h
  · rw [h, hscan, hall]

/-- After the last number the next call scans again, on top of what is cached. -/
theorem AfterFailure.populate_of_last
    (hlast : ∃ r ∈ acceptedBefore E items p, r.seqKey = NonZeroU32.MAX) :
    populate E items s = SeqState.scan E items ↔
      (SeqState.new : SeqState E.kept).insertAll E.sorter
          (acceptedBefore E items p ++ (acceptedBefore E items p ++ unseenAfter E items p)) =
        SeqState.new.insertAll E.sorter (acceptedBefore E items p ++ unseenAfter E items p) := by
  obtain ⟨r, hrA, hrmax⟩ := hlast
  have hA := List.ne_nil_of_mem hrA
  obtain ⟨hscan, hs'⟩ := hs.inserted hA
  obtain ⟨r', _, hr', hle, hnext⟩ := SeqState.highest_insertAll_new E.sorter E.kept_pos hA
  rw [← hs'] at hr' hnext
  have hmax' : r'.seqKey = NonZeroU32.MAX := by
    have h1 := hle r hrA
    have h2 : r'.seqKey < 2 ^ 32 := r'.seq.lt
    unfold NonZeroU32.MAX at hrmax ⊢
    omega
  have hnone : s.nextSeq = none := hnext.trans (NonZeroU32.checkedAdd_one_eq_none.mpr hmax')
  have hpop : populate E items s = (SeqState.new : SeqState E.kept).insertAll E.sorter
      (acceptedBefore E items p ++ goodRecords E items) := by
    have hne : acceptedBefore E items p ++ goodRecords E items ≠ [] := by simp [hA]
    obtain ⟨y, _, hy, _⟩ := SeqState.highest_insertAll_new E.sorter E.kept_pos hne
    rw [SeqState.insertAll_append, ← hs'] at hy ⊢
    rw [populate_of_unset hnone, finishScan_eq_self hy]
  rw [hpop, hscan, (goodRecords_split (E := E) items p).1]

/-- With a stable sort the greatest records must fill the cache, and all but one slot of
it before the failure. -/
theorem AfterFailure.populate_stable_iff (hS : E.sorter.StableAt E.kept)
    (hlast : ∃ r ∈ acceptedBefore E items p, r.seqKey = NonZeroU32.MAX) :
    populate E items s = SeqState.scan E items ↔
      E.kept ≤ (lastNumbered (goodRecords E items)).length ∧
        E.kept ≤ (lastNumbered (acceptedBefore E items p)).length + 1 := by
  obtain ⟨hsplit, hbefore⟩ := goodRecords_split (E := E) items p
  rw [hs.populate_of_last hlast, hsplit]
  refine SeqState.insertAll_twice_iff E.kept_pos hS (fun r _ => ?_) hlast fun r hr hu => ?_
  · exact Nat.le_sub_one_of_lt r.seq.lt
  · have h1 := hbefore r hr
    have h2 := of_decide_eq_true (List.mem_filter.mp hu).2
    omega

/-- The cache the next call works with is that of a scan without faults exactly
if the failed one left no trace. -/
theorem AfterFailure.populate_iff (htied : ¬ LastNumberTied E items p) :
    populate E items s = SeqState.scan E items ↔ LeavesNoTrace E items p := by
  obtain ⟨hsplit, hbefore⟩ := goodRecords_split (E := E) items p
  by_cases hA : acceptedBefore E items p = []
  · refine iff_of_true ?_ (Or.inl hA)
    rcases hs with rfl | ⟨hall, rfl⟩
    · rw [hA]; rfl
    · rcases scan_cases (E := E) items with ⟨_, h⟩ | ⟨r, hr⟩
      · rw [h]; rfl
      · have := hr.mem
        rw [← hall, hA] at this; cases this
  · by_cases hlast : ∃ r ∈ acceptedBefore E items p, r.seqKey = NonZeroU32.MAX
    · by_cases hone : E.kept = 1
      · refine iff_of_true ?_ (Or.inr (Or.inr ⟨hlast, hone⟩))
        have hS : E.sorter.StableAt E.kept := hone ▸ E.sorter.stableAt_one
        refine (hs.populate_stable_iff hS hlast).mpr ⟨?_, hone ▸ Nat.le_add_left ..⟩
        obtain ⟨r, hr, hmax⟩ := hlast
        have hmem : r ∈ lastNumbered (goodRecords E items) :=
          List.mem_filter.mpr ⟨hsplit ▸ List.mem_append_left _ hr, decide_eq_true hmax⟩
        exact hone ▸ List.length_pos_of_mem hmem
      · refine iff_of_false (fun heq => htied ⟨hlast, ?_, ?_⟩) fun h => ?_
        · have := E.kept_pos
          omega
        · rw [hsplit]
          exact SeqState.count_of_insertAll_twice E.kept_pos
            (fun r _ => Nat.le_sub_one_of_lt r.seq.lt) hlast ((hs.populate_of_last hlast).mp heq)
        · obtain ⟨a, ha, hamax⟩ := hlast
          rcases h with h | ⟨h, _⟩ | ⟨_, h⟩
          · exact hA h
          · exact absurd (h a ha) (by rw [hamax]; exact Nat.lt_irrefl _)
          · exact hone h
    · obtain ⟨hscan, hs'⟩ := hs.inserted hA
      obtain ⟨r, hrA, hr, hle, hnext⟩ := SeqState.highest_insertAll_new E.sorter E.kept_pos hA
      rw [← hs'] at hr hnext
      have hlt : ∀ a ∈ acceptedBefore E items p, a.seqKey < NonZeroU32.MAX := by
        intro a ha
        have h2 : a.seqKey < 2 ^ 32 := a.seq.lt
        have h3 : a.seqKey ≠ NonZeroU32.MAX := fun heq => hlast ⟨a, ha, heq⟩
        unfold NonZeroU32.MAX at h3 ⊢
        omega
      obtain ⟨n, hn⟩ := Option.ne_none_iff_exists'.mp fun hnone : s.nextSeq = none =>
        hlast ⟨r, hrA, NonZeroU32.checkedAdd_one_eq_none.mp (hnext.symm.trans hnone)⟩
      rw [populate_of_nextSeq hn, hscan, hsplit, SeqState.insertAll_append, ← hs']
      have hmark : ∀ x ∈ s.records, ¬ p - 1 ≤ x.range.last := by
        intro x hx
        rw [hs'] at hx
        have htop := SeqState.isTop_insertAll_new E.sorter E.kept_pos (acceptedBefore E items p)
        exact Nat.not_le_of_lt (hbefore x (htop.subset x hx))
      constructor
      · intro h
        refine Or.inr (Or.inl ⟨hlt, fun b hb => ?_⟩)
        have hout := SeqState.outranks_of_insertAll_eq E.sorter E.kept_pos hmark
          (fun b hb => by simpa using (List.mem_filter.mp hb).2) h.symm b hb
        rw [hs', SeqState.outranks_iff_count E.sorter E.kept_pos] at hout
        exact hout
      · intro h
        rcases h with h | ⟨_, h⟩ | ⟨h, _⟩
        · exact absurd h hA
        · refine (SeqState.insertAll_of_outranks E.sorter E.kept_pos fun b hb => ?_).symm
          rw [hs', SeqState.outranks_iff_count E.sorter E.kept_pos]
          exact h b hb
        · exact absurd h hlast

end AfterFailure

/-- The next `process_reads`, without faults, leaves the nodes and the cache as one
call without faults would have. -/
def LoadsSame (w w1 : World E) : Prop :=
  ∃ c0 w0 c2 w2, processReads w = .ok c0 w0 ∧ processReads (w1.withFaults .none) = .ok c2 w2 ∧
    w2.cells = w0.cells ∧ w2.seqState = w0.seqState

/-- What the next call loads depends on the cache alone. -/
theorem loadsSame_iff {w w1 : World E} {p : Nat} {x : E.Err} {e : Stop E.Err}
    (hnew : w.seqState = .new) (hf : w.faults = .none)
    (herr : processReads (w.withReads (List.replicate p .ok ++ [.err x])) = .error e w1) :
    AfterFailure E w.items p w1.seqState ∧
      (LoadsSame w w1 ↔ populate E w.items w1.seqState = SeqState.scan E w.items) := by
  obtain ⟨hitems, hlist, ⟨ds, hds, hcells⟩, hs⟩ := failed_read_leaves hnew herr
  have hscan : populate E w.items w.seqState = SeqState.scan E w.items := by rw [hnew]; rfl
  have hl : Located w.items w.seqState := by
    rw [hnew]
    exact located_new w.items
  have hl1 : Located w1.items w1.seqState := by
    rw [hitems]
    rcases hs with h | ⟨_, h⟩
    · rw [h]
      refine (located_new w.items).insertAll fun r hr => ?_
      rw [(goodRecords_split (E := E) w.items p).1]
      exact List.mem_append_left _ hr
    · rw [h, ← hscan]
      exact hl.populate
  obtain ⟨c0, hrun0⟩ := processReads_run hl hf
  obtain ⟨c2, hrun2⟩ := processReads_run (w := w1.withFaults .none) hl1 rfl
  refine ⟨hs, ?_⟩
  constructor
  · intro h
    obtain ⟨_, w0', _, w2', h0, h2, _, hseq⟩ := h
    rw [hrun0] at h0
    rw [hrun2] at h2
    cases h0
    cases h2
    rw [← hscan, ← hitems]
    refine hseq.trans ?_
    show populate E w.items w.seqState = populate E w1.items w.seqState
    rw [hitems]
  · intro h
    refine ⟨c0, _, c2, _, hrun0, hrun2, ?_, ?_⟩
    · show readCells (w1.withFaults .none) (populate E w1.items w1.seqState) =
        readCells w (populate E w.items w.seqState)
      rw [hitems, h, hscan]
      show markInitialNonresident w1.list (hydrateAll w1.list (recordDatas w1.items _) w1.cells) = _
      rw [hlist, hitems, hcells, hydrateAll_resume hds]; rfl
    · show populate E w1.items w1.seqState = populate E w.items w.seqState
      rw [hitems, h, hscan]

/-- **A read error that goes away changes what is loaded exactly if the scan left
a trace**: where `process_reads` on an empty cache fails at its read number `p`,
the next one, without faults, leaves the nodes and the cache as one fault-free
call would have if and only if `LeavesNoTrace`. Where records with the last number
fill the cache, a stable sort leaves no trace exactly if those that had been accepted
fill all slots but one. -/
theorem transient_read_error_iff {w w1 : World E} {p : Nat} {x : E.Err} {e : Stop E.Err}
    (hnew : w.seqState = .new) (hf : w.faults = .none)
    (herr : processReads (w.withReads (List.replicate p .ok ++ [.err x])) = .error e w1) :
    (¬ LastNumberTied E w.items p → (LoadsSame w w1 ↔ LeavesNoTrace E w.items p)) ∧
      (LastNumberTied E w.items p → E.sorter.StableAt E.kept →
        (LoadsSame w w1 ↔ E.kept ≤ (lastNumbered (acceptedBefore E w.items p)).length + 1)) := by
  obtain ⟨hs, hloads⟩ := loadsSame_iff hnew hf herr
  refine ⟨fun htied => hloads.trans (hs.populate_iff htied), fun htied hS => ?_⟩
  obtain ⟨hlast, _, hfull⟩ := htied
  rw [hloads, hs.populate_stable_iff hS hlast]
  exact and_iff_right hfull

/-- The script in which the data element of the second record cannot be read. -/
def cutShort : Faults Unit := ⟨List.replicate 5 .ok ++ [.err ()], [], []⟩

/-- One setting, of which two records are kept. -/
def keptTwice : Env := settings 1 2 (fun _ => "a") Nat.two_pos

/-- Two records of the setting, both with the last number. -/
def lastRecordsTwice : List Item :=
  recordItems keptTwice NonZeroU32.last [dataA 1] 0 ++
    recordItems keptTwice NonZeroU32.last [dataA 2] 1

set_option maxRecDepth 4000 in
theorem cut_short_iff :
    (∃ e w1, processReads ((World.bootWith (E := twoSettings) twoRecords [settingA]).withReads
        (List.replicate 5 .ok ++ [.err ()])) = .error e w1 ∧
      (LoadsSame (World.bootWith twoRecords [settingA]) w1 ↔ LeavesNoTrace twoSettings twoRecords 5)) ∧
    ∃ e w1, processReads ((World.bootWith (E := keptTwice) lastRecordsTwice [(0 : Fin 1)]).withReads
        (List.replicate 5 .ok ++ [.err ()])) = .error e w1 ∧
      LoadsSame (World.bootWith lastRecordsTwice [(0 : Fin 1)]) w1 := by
  obtain ⟨e, w1, h1, _⟩ := (by decide +kernel : Ends processReads
    ((World.bootWith (E := twoSettings) twoRecords [settingA]).withReads
      (List.replicate 5 .ok ++ [.err ()])) (fun _ _ => False) fun _ _ => True).fails
  obtain ⟨e', w1', h1', _⟩ := (by decide +kernel : Ends processReads
    ((World.bootWith (E := keptTwice) lastRecordsTwice [(0 : Fin 1)]).withReads
      (List.replicate 5 .ok ++ [.err ()])) (fun _ _ => False) fun _ _ => True).fails
  refine ⟨⟨e, w1, h1, ?_⟩, e', w1', h1', ?_⟩
  · exact (transient_read_error_iff (w := World.bootWith twoRecords [settingA]) rfl rfl h1).1
      (by decide +kernel)
  · have hboth := transient_read_error_iff (E := keptTwice) rfl rfl h1'
    have htied : LastNumberTied keptTwice lastRecordsTwice 5 := by decide +kernel
    have hfill : keptTwice.kept ≤ (lastNumbered (acceptedBefore keptTwice lastRecordsTwice 5)).length + 1 := by
      decide +kernel
    exact (hboth.2 htied (insertionSorter_stableAt 2)).mpr hfill

set_option maxRecDepth 4000 in
/-- The next read takes the scan for a complete one and loads the older value. -/
theorem cut_short_loads_older : ∃ c0 w0 e w1 c2 w2,
    processReads (World.bootWith twoRecords [settingA]) = .ok c0 w0 ∧
      processReads ((World.bootWith twoRecords [settingA]).withFaults cutShort) = .error e w1 ∧
      processReads (w1.withFaults .none) = .ok c2 w2 ∧
      w0.cells settingA = ⟨.validNoWriteNeeded, some (2 : UInt8)⟩ ∧
      w2.cells settingA = ⟨.validNoWriteNeeded, some (1 : UInt8)⟩ := by
  -- the cells are compared as cells of a byte
  let holds (v : UInt8) (c : Cell UInt8) : Bool := decide (c = ⟨.validNoWriteNeeded, some v⟩)
  have hcell : ∀ v c, holds v c = true → c = ⟨.validNoWriteNeeded, some v⟩ :=
    fun _ _ h => of_decide_eq_true h
  obtain ⟨c0, w0, h0, hnew⟩ := (by decide +kernel : Ends processReads
    (World.bootWith (E := twoSettings) twoRecords [settingA])
    (fun _ w0 => holds 2 (w0.cells settingA) = true) fun _ _ => False).returns
  obtain ⟨e, w1, h1, hnext⟩ := (by decide +kernel : Ends processReads
    ((World.bootWith (E := twoSettings) twoRecords [settingA]).withFaults cutShort)
    (fun _ _ => False) fun _ w1 => Ends processReads (w1.withFaults .none)
      (fun _ w2 => holds 1 (w2.cells settingA) = true) fun _ _ => False).fails
  obtain ⟨c2, w2, h2, hold⟩ := hnext.returns
  exact ⟨c0, w0, e, w1, c2, w2, h0, h1, h2, hcell 2 _ hnew, hcell 1 _ hold⟩

end CfgNoodle

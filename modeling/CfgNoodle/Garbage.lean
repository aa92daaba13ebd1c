import CfgNoodle.Reads

/-! # What a collection does

The loop of `process_garbage` deletes the items outside the cached ranges. With
a cache whose entries point at valid records it keeps exactly those records,
and wherever it stops, what is left holds no valid record that was not valid
before. -/
namespace CfgNoodle
open Framing Outcome
open scoped List
variable {E : Env}

/-- The items a collection leaves alone. -/
def keepIdx {K : Nat} (cur : SeqState K) (items : List Item) (n : Nat) : Bool :=
  lastRecordsContain cur n && (items[n]?.any fun it => it.data.isSome)

theorem lastRecordsContain_iff {K : Nat} {s : SeqState K} {n : Nat} :
    lastRecordsContain s n = true ↔ ∃ r ∈ s.records, r.range.contains n = true := by
  simp only [lastRecordsContain, SeqState.records]
  rw [List.any_eq_true]
  constructor
  · intro h
    obtain ⟨o, ho, h⟩ := h
    cases o with
    | none => cases h
    | some r => exact ⟨r, TopK.mem_filled.mpr ho, h⟩
  · intro h
    obtain ⟨r, hr, h⟩ := h
    exact ⟨some r, TopK.mem_filled.mp hr, h⟩

/-! ## The loop -/

theorem invalidate_spec (pos : Nat) (w : World E) :
    Ends (invalidate pos) w
      (fun _ w' => ∃ fs, (Spent w.faults fs ∧ fs.reads = w.faults.reads) ∧
        w' = (w.withItems (w.items.eraseIdx pos)).withFaults fs)
      (fun e w' => w.faults.CanStop e ∧ ∃ fs, Spent w.faults fs ∧
        (w' = w.withFaults fs ∨ w' = (w.withItems (w.items.eraseIdx pos)).withFaults fs)) := by
  simp only [Ends, invalidate]
  cases h : w.faults.invalidates with
  | nil => exact ⟨w.faults, ⟨.refl _, rfl⟩, rfl⟩
  | cons a rest =>
    have hs : Spent w.faults { w.faults with invalidates := rest } :=
      ⟨List.suffix_rfl, List.suffix_rfl, h ▸ List.suffix_cons a rest⟩
    cases a with
    | ok => exact ⟨_, ⟨hs, rfl⟩, rfl⟩
    | err e done =>
      refine ⟨Or.inr (Or.inr ⟨_, by rw [h]; exact List.mem_cons_self, rfl⟩), _, hs, ?_⟩
      cases done
      · exact Or.inl rfl
      · exact Or.inr rfl
    | cut done =>
      refine ⟨Or.inr (Or.inr ⟨_, by rw [h]; exact List.mem_cons_self, rfl⟩), _, hs, ?_⟩
      cases done
      · exact Or.inl rfl
      · exact Or.inr rfl

/-- The loop over the rest of the storage, of which `kept` was left so far. -/
theorem gcLoop_spec (cur : SeqState E.kept) (all : List Item) : ∀ (items : List Item) (idx : Nat)
    (kept : List Item) (total popped : Nat) (w : World E), items = all.drop idx →
    w.items = kept ++ items →
    Ends (gcLoop cur idx kept.length total popped items) w
      (fun _ w' => ∃ fs, (Spent w.faults fs ∧
          ReadsPass w.faults.reads (items.length + 1) fs.reads) ∧
        w' = (w.withItems (kept ++ survive (keepIdx cur all) idx items)).withFaults fs)
      (fun e w' => w.faults.CanStop e ∧ ∃ p fs, Spent w.faults fs ∧
        w' = (w.withItems (kept ++ collect (keepIdx cur all) idx p items)).withFaults fs)
  | [], idx, kept, total, popped, w, _, hw => by
    simp only [gcLoop]
    refine ((nextOr_spec _ w).mono ?_ ?_).bind
    · intro _ w1 h
      obtain ⟨r, hp, rfl⟩ := h
      exact .pure ⟨_, ⟨hp.spent, hp⟩, by rw [survive, ← hw]; rfl⟩
    · intro e w1 h
      obtain ⟨r, hs, rfl⟩ := h
      exact ⟨hs.canStop, 0, _, hs.spent, by rw [collect_zero, ← hw]; rfl⟩
  | it :: items, idx, kept, total, popped, w, hall, hw => by
    have hat : all[idx]? = some it := by
      have := congrArg (fun l => l[0]?) hall
      simpa using this.symm
    have htail : items = all.drop (idx + 1) := by
      rw [← List.drop_drop, ← hall]; rfl
    have hkeep : keepIdx cur all idx = !(it.data.isNone || !lastRecordsContain cur idx) := by
      simp only [keepIdx]
      rw [hat, Option.any_some]
      cases it.data <;> cases lastRecordsContain cur idx <;> rfl
    simp only [gcLoop]
    refine ((nextOr_spec _ w).mono ?_ ?_).bind
    · intro _ w1 h
      obtain ⟨r1, hp, rfl⟩ := h
      by_cases hk : (it.data.isNone || !lastRecordsContain cur idx) = true
      · have hdrop : keepIdx cur all idx = false := by rw [hkeep, hk]; rfl
        have herase : w.items.eraseIdx kept.length = kept ++ items := by
          rw [hw, List.eraseIdx_append_of_length_le (Nat.le_refl _), Nat.sub_self]; rfl
        simp only [hk, if_true]
        refine ((invalidate_spec _ _).mono ?_ ?_).bind
        · intro _ w2 h
          obtain ⟨f2, ⟨hs2, hr2⟩, rfl⟩ := h
          refine (gcLoop_spec cur all items (idx + 1) kept _ _ _ htail herase).mono ?_ ?_
          · intro a w3 h
            obtain ⟨fs, ⟨hs3, hp3⟩, rfl⟩ := h
            rw [World.withFaults_faults, hr2] at hp3
            refine ⟨fs, ⟨(hp.spent.trans hs2).trans hs3, ?_⟩, ?_⟩
            · rw [List.length_cons, Nat.add_comm]; exact hp.add hp3
            · rw [survive, hdrop]; rfl
          · intro e w3 h
            obtain ⟨hc, p, fs, hs3, rfl⟩ := h
            refine ⟨(hp.spent.trans hs2).canStop hc, p + 1, fs, (hp.spent.trans hs2).trans hs3, ?_⟩
            rw [collect_succ_cons, hdrop]; rfl
        · intro e w2 h
          obtain ⟨hc, f2, hs2, h⟩ := h
          rcases h with rfl | rfl
          · refine ⟨hp.spent.canStop hc, 0, f2, hp.spent.trans hs2, ?_⟩
            rw [collect_zero, ← hw]; rfl
          · refine ⟨hp.spent.canStop hc, 1, f2, hp.spent.trans hs2, ?_⟩
            rw [collect_succ_cons, hdrop, collect_zero]
            exact congrArg (fun l => (w.withItems l).withFaults f2) herase
      · have hstay : keepIdx cur all idx = true := by
          rw [hkeep, Bool.eq_false_iff.mpr hk]; rfl
        simp only [hk]
        have hlen : kept.length + 1 = (kept ++ [it]).length := by simp
        rw [if_neg (by simp), hlen]
        refine (gcLoop_spec cur all items (idx + 1) (kept ++ [it]) _ _ _ htail
          (by rw [World.withReads_items, hw]; simp)).mono ?_ ?_
        · intro a w3 h
          obtain ⟨fs, ⟨hs3, hp3⟩, rfl⟩ := h
          refine ⟨fs, ⟨hp.spent.trans hs3, ?_⟩, ?_⟩
          · rw [List.length_cons, Nat.add_comm]; exact hp.add hp3
          · rw [survive, hstay]; simp [World.withItems, World.withFaults, World.withReads]
        · intro e w3 h
          obtain ⟨hc, p, fs, hs3, rfl⟩ := h
          refine ⟨hp.spent.canStop hc, p + 1, fs, hp.spent.trans hs3, ?_⟩
          rw [collect_succ_cons, hstay]; simp [World.withItems, World.withFaults, World.withReads]
    · intro e w1 h
      obtain ⟨r, hs, rfl⟩ := h
      exact ⟨hs.canStop, 0, _, hs.spent, by rw [collect_zero, ← hw]; rfl⟩

/-- The storage after a collection that has dealt with `p` items. -/
def collected (cur : SeqState E.kept) (p : Nat) (items : List Item) : List Item :=
  collect (keepIdx cur items) 0 p items

/-- The storage after a complete collection. -/
def survivors (cur : SeqState E.kept) (items : List Item) : List Item :=
  survive (keepIdx cur items) 0 items

theorem collected_length (cur : SeqState E.kept) (items : List Item) :
    collected cur items.length items = survivors cur items :=
  collect_length _ 0 items (Nat.le_refl _)

theorem gcCollect_spec (cur : SeqState E.kept) (w : World E) :
    Ends (gcCollect cur) w
      (fun _ w' => ∃ fs, (Spent w.faults fs ∧
          ReadsPass w.faults.reads (w.items.length + 2) fs.reads) ∧
        w' = (w.withItems (survivors cur w.items)).withFaults fs)
      (fun e w' => w.faults.CanStop e ∧ ∃ p fs, Spent w.faults fs ∧
        w' = (w.withItems (collected cur p w.items)).withFaults fs) := by
  simp only [gcCollect]
  refine ((iterElems_spec w).mono ?_ ?_).bind
  · intro items w1 h
    obtain ⟨rfl, r, hp, rfl⟩ := h
    refine (gcLoop_spec cur w.items w.items 0 [] 0 0 (w.withReads r) rfl rfl).mono ?_ ?_
    · intro a w2 h
      obtain ⟨fs, ⟨hs, hp2⟩, rfl⟩ := h
      refine ⟨fs, ⟨hp.spent.trans hs, ?_⟩, rfl⟩
      rw [Nat.add_comm w.items.length 2, Nat.add_assoc 1 1, Nat.add_comm 1 w.items.length]
      exact hp.add hp2
    · intro e w2 h
      obtain ⟨hc, p, fs, hs, rfl⟩ := h
      exact ⟨hp.spent.canStop hc, p, fs, hp.spent.trans hs, rfl⟩
  · intro e w1 h
    obtain ⟨r, hs, rfl⟩ := h
    exact ⟨hs.canStop, 0, _, hs.spent, by unfold collected; rw [collect_zero]; rfl⟩

/-- The cache with the collection marked as done. -/
def SeqState.clean {K : Nat} (s : SeqState K) : SeqState K := { s with needsGc := false }

@[simp] theorem clean_records {K : Nat} (s : SeqState K) : s.clean.records = s.records := rfl

@[simp] theorem clean_highestSeen {K : Nat} (s : SeqState K) : s.clean.highestSeen = s.highestSeen :=
  rfl

@[simp] theorem clean_nextSeq {K : Nat} (s : SeqState K) : s.clean.nextSeq = s.nextSeq := rfl

theorem gcFinish_spec (w : World E) :
    Ends gcFinish w
      (fun _ w' => ∃ fs, Spent w.faults fs ∧
        w' = (w.withSeq (populate E w.items w.seqState).clean).withFaults fs)
      (fun e w' => w.faults.CanStop e ∧ w.seqState.initialScanCompleted = false ∧
        ∃ q rest, q ≤ w.items.length + 1 ∧ ReadsStop w.faults.reads q .flashRead e rest ∧
          w' = (w.withSeq (w.seqState.insertAll E.sorter
            (goodRecords E (w.items.take (q - 1))))).withReads rest) := by
  simp only [gcFinish]
  refine ((getOrPopulateLatest_spec 0 w).mono ?_ ?_).bind
  · intro a w1 h
    obtain ⟨_, n, r, hp, _, rfl⟩ := h
    exact .bind (.modify (.pure ⟨_, hp.spent, rfl⟩))
  · intro e w1 h
    obtain ⟨hc, q, r, hq, hs, rfl⟩ := h
    exact ⟨hs.canStop, hc, q, r, hq, hs, rfl⟩

/-- The cache is taken where a collection is due. -/
theorem gcTake_spec (w : World E) :
    Ends gcTake w
      (fun a w' => (a = none ∧ w' = w) ∨
        (a = some w.seqState ∧ w.seqState.needsGc = true ∧ w' = w.withSeq .new))
      (fun _ _ => False) := by
  simp only [gcTake]
  refine .bind (.get ?_)
  by_cases hn : w.seqState.needsGc = true
  · simp only [hn, if_true]
    exact .bind (.modify (.pure (Or.inr ⟨rfl, trivial, rfl⟩)))
  · simp only [hn]
    exact .pure (Or.inl ⟨rfl, rfl⟩)

/-- All that `process_garbage` can do. -/
theorem processGarbage_spec (w : World E) :
    Ends processGarbage w
      (fun _ w' => (w.seqState.needsGc = false ∧ w' = w) ∨
        (w.seqState.needsGc = true ∧ ∃ fs, Spent w.faults fs ∧
          w' = ((w.withItems (survivors w.seqState w.items)).withSeq
            (SeqState.scan E (survivors w.seqState w.items)).clean).withFaults fs))
      (fun e w' => w.seqState.needsGc = true ∧ w.faults.CanStop e ∧ ∃ fs, Spent w.faults fs ∧
        ((∃ p, w' = ((w.withItems (collected w.seqState p w.items)).withSeq .new).withFaults fs) ∨
          ∃ q rest, q ≤ (survivors w.seqState w.items).length + 1 ∧
            ReadsStop (w.faults.reads.drop (w.items.length + 2)) q .flashRead e rest ∧
            w' = ((w.withItems (survivors w.seqState w.items)).withSeq
              (SeqState.new.insertAll E.sorter
                (goodRecords E ((survivors w.seqState w.items).take (q - 1))))).withFaults fs)) := by
  simp only [processGarbage, gcTake]
  refine .bind (.bind (.get ?_))
  by_cases hg : w.seqState.needsGc = true
  · simp only [hg, if_true]
    refine .bind (.modify (.pure ?_))
    simp only
    refine Ends.bind ((gcCollect_spec w.seqState (w.withSeq .new)).mono ?_ ?_)
    · intro a w1 h
      obtain ⟨f1, ⟨hs1, hp1⟩, rfl⟩ := h
      refine Ends.bind ((gcFinish_spec _).mono ?_ ?_)
      · intro a w2 h
        obtain ⟨fs, hs, rfl⟩ := h
        exact .pure (Or.inr ⟨trivial, fs, hs1.trans hs, rfl⟩)
      · intro e w2 h
        obtain ⟨hc, _, q, rest, hq, hs, rfl⟩ := h
        refine ⟨trivial, hs1.canStop hc, _, hs1.trans hs.spent, Or.inr ⟨q, rest, hq, ?_, rfl⟩⟩
        exact hp1.2 ▸ hs
    · intro e w1 h
      obtain ⟨hc, p, fs, hs, rfl⟩ := h
      exact ⟨trivial, hc, fs, hs, Or.inl ⟨p, rfl⟩⟩
  · have hg' : w.seqState.needsGc = false := Bool.eq_false_iff.mpr hg
    simp only [hg']
    exact .pure (.pure (Or.inl ⟨trivial, rfl⟩))

/-! ## Which records are kept -/

/-- The records that a cache points at. -/
def keptRecords (cur : SeqState E.kept) (items : List Item) : List Record :=
  (validRecords E items).filter fun f => cur.records.any fun r => r.range.first = f.start

theorem keptRecords_sublist (cur : SeqState E.kept) (items : List Item) :
    keptRecords cur items <+ validRecords E items := List.filter_sublist

theorem mem_keptRecords {cur : SeqState E.kept} {items : List Item} (hl : Located items cur)
    {f : Record} : f ∈ keptRecords cur items ↔ ∃ r ∈ cur.records, Points (E := E) items r f := by
  simp only [keptRecords]
  rw [List.mem_filter, List.any_eq_true]
  constructor
  · intro h
    obtain ⟨hf, r, hr, hfirst⟩ := h
    obtain ⟨g, hg⟩ := hl r hr
    have hgf : g = f := frames_start_inj _ hg.mem hf (hg.first.symm.trans (by simpa using hfirst))
    exact ⟨r, hr, hgf ▸ hg⟩
  · intro h
    obtain ⟨r, hr, hp⟩ := h
    exact ⟨hp.mem, r, hr, by simpa using hp.first⟩

theorem IsRecord.data_isSome {k : NonZeroU32} {seg : List Item} (h : IsRecord E k seg) :
    ∀ it ∈ seg, it.data.isSome = true := by
  obtain ⟨o, bs, c, rfl, ho, hb, hc, _⟩ := h.elim
  intro it hit
  simp only [List.mem_cons, List.mem_append, List.not_mem_nil, or_false] at hit
  rcases hit with rfl | hit | rfl
  · rw [ho]; rfl
  · obtain ⟨d, hd⟩ := hb it hit
    rw [hd]; rfl
  · rw [hc]; rfl

/-- An item within a valid record. -/
theorem getElem?_record {items : List Item} {f : Record} (hf : f ∈ validRecords E items) {i : Nat}
    (hi : f.start ≤ i) (hlt : i < f.start + f.seg.length) : items[i]? = f.seg[i - f.start]? := by
  obtain ⟨pre, post, hs, _, hitems⟩ := (mem_frames _).mp hf
  rw [hitems, List.append_assoc, List.getElem?_append_right (by omega),
    List.getElem?_append_left (by omega), hs]

/-- A collection keeps every item of a record that a cached entry points at. -/
theorem Points.keepIdx {cur : SeqState E.kept} {items : List Item} {r : GoodWriteRecord} {f : Record}
    (hp : Points (E := E) items r f) (hr : r ∈ cur.records) {i : Nat} (hi : f.start ≤ i)
    (hlt : i < f.start + f.seg.length) : CfgNoodle.keepIdx cur items i = true := by
  obtain ⟨_, _, _, hk, _⟩ := (mem_frames _).mp hp.mem
  simp only [CfgNoodle.keepIdx]
  rw [Bool.and_eq_true, lastRecordsContain_iff]
  constructor
  · refine ⟨r, hr, ?_⟩
    have hfirst := hp.first
    have hlast := hp.last_le
    simp only [RangeInclusive.contains]
    simp only [Bool.and_eq_true, decide_eq_true_eq, Frame.last] at hlast ⊢
    omega
  · rw [getElem?_record hp.mem hi hlt, List.getElem?_eq_getElem (by omega), Option.any_some]
    exact IsRecord.data_isSome hk _ (List.getElem_mem _)

/-- A collection whose cache covers just valid records keeps exactly those. -/
theorem keepsFrames {cur : SeqState E.kept} {items : List Item} (hl : Spanned items cur) :
    KeepsFrames (keepIdx cur items) 0 (0 + items.length) (keptRecords cur items) := by
  intro i _ hi
  rw [Nat.zero_add] at hi
  constructor
  · intro h
    simp only [keepIdx] at h
    rw [Bool.and_eq_true, lastRecordsContain_iff] at h
    obtain ⟨⟨r, hr, hin⟩, _⟩ := h
    obtain ⟨f, hf⟩ := hl r hr
    refine ⟨f, (mem_keptRecords hl.located).mpr ⟨r, hr, hf.toPoints⟩, ?_⟩
    have hlen : 2 ≤ f.seg.length := by
      obtain ⟨_, _, _, hk, _⟩ := (mem_frames _).mp hf.mem
      exact hk.length
    have hfirst := hf.first
    have hlast := hf.last
    simp only [RangeInclusive.contains] at hin
    simp only [Bool.and_eq_true, decide_eq_true_eq, Frame.last] at hin hlast
    omega
  · intro h
    obtain ⟨f, hf, hs, he⟩ := h
    obtain ⟨r, hr, hp⟩ := (mem_keptRecords hl.located).mp hf
    exact hp.keepIdx hr hs he

/-- A finished collection leaves the records the cache points at and nothing else. -/
theorem survivors_eq {cur : SeqState E.kept} {items : List Item} (hl : Spanned items cur) :
    survivors cur items = ((keptRecords cur items).map Frame.seg).flatten := by
  have hlaid := Laid.of_sublist (recordGrammar E.crc) items.length items 0 _ (Nat.le_refl _)
    (keptRecords_sublist cur items)
  exact hlaid.survive _ (keepsFrames hl)

/-- What a stopped collection leaves has no new valid record and still has the
kept ones. -/
theorem contents_collected {cur : SeqState E.kept} {items : List Item} (hl : Spanned items cur)
    (p : Nat) :
    contents (recordGrammar E.crc) (collected cur p items) <+ contents (recordGrammar E.crc) items ∧
      (keptRecords cur items).map (fun f => (f.key, f.seg)) <+
        contents (recordGrammar E.crc) (collected cur p items) := by
  have hlaid := Laid.of_sublist (recordGrammar E.crc) items.length items 0 _ (Nat.le_refl _)
    (keptRecords_sublist cur items)
  exact hlaid.contents_collect _ (keepsFrames hl) p

/-! ## What a fresh scan finds afterwards -/

/-- The records that a fresh scan keeps, slot by slot, with their items. -/
def keptSlots (E : Env) (items : List Item) : List (Option (NonZeroU32 × List Item)) :=
  (SeqState.scan E items).lastRecords.map (Option.map fun r => (r.seq, r.range.slice items))

def contentKey (p : NonZeroU32 × List Item) : Nat := p.1.get

theorem contentKey_pos (p : NonZeroU32 × List Item) : 0 < contentKey p := p.1.pos

theorem filled_keptSlots (items : List Item) : TopK.filled (keptSlots E items) =
    (SeqState.scan E items).records.map fun r => (r.seq, r.range.slice items) := by
  simp only [keptSlots, SeqState.records, TopK.filled]
  rw [List.filterMap_map, List.map_filterMap]
  refine List.filterMap_congr fun o _ => ?_
  cases o <;> rfl

/-- A fresh scan keeps the greatest of what the storage holds. -/
theorem isTop_keptSlots (items : List Item) : TopK.IsTop E.kept contentKey
    (contents (recordGrammar E.crc) items) (TopK.filled (keptSlots E items)) := by
  rw [filled_keptSlots, contents_eq_slices]
  exact (scan_isTop items).map _ fun _ _ => rfl

theorem keptSlots_length (items : List Item) : (keptSlots E items).length = E.kept := by
  simp only [keptSlots]
  rw [List.length_map, SeqState.len]

theorem keptSlots_sorted (items : List Item) :
    (keptSlots E items).Pairwise fun a b => TopK.slotKey contentKey a ≤ TopK.slotKey contentKey b := by
  have hkey : ∀ o : Option GoodWriteRecord,
      TopK.slotKey contentKey (o.map fun r => (r.seq, r.range.slice items)) =
        TopK.slotKey GoodWriteRecord.seqKey o := by
    intro o
    cases o <;> rfl
  refine List.pairwise_map.mpr ((scan_sorted items).imp fun {a b} hab => ?_)
  rw [hkey, hkey]
  exact hab

/-- The next number follows the last of these slots. -/
theorem scan_nextSeq (items : List Item) : (SeqState.scan E items).nextSeq =
    match (keptSlots E items).getLast?.join with
    | none => some NonZeroU32.one
    | some p => p.1.checkedAdd 1 := by
  have hlast : (keptSlots E items).getLast?.join =
      (SeqState.scan E items).highestSeen.map fun r => (r.seq, r.range.slice items) := by
    simp only [keptSlots, SeqState.highestSeen]
    rw [List.getLast?_map]
    cases (SeqState.scan E items).lastRecords.getLast? with
    | none => rfl
    | some o => cases o <;> rfl
  rw [hlast]
  rcases scan_cases (E := E) items with ⟨hnil, hs⟩ | ⟨r, hr⟩
  · have hnone : (SeqState.scan E items).highestSeen = none := by
      cases h : (SeqState.scan E items).highestSeen with
      | none => rfl
      | some r =>
        have := (scan_isTop items).subset r (SeqState.mem_records_of_highestSeen h)
        rw [hnil] at this; cases this
    rw [hnone, hs]; rfl
  · rw [hr.highest, hr.nextSeq]; rfl

/-- A fresh scan of both storages finds the same records and the same next number. -/
structure SameScan (E : Env) (items items' : List Item) : Prop where
  slots : keptSlots E items' = keptSlots E items
  nextSeq : (SeqState.scan E items').nextSeq = (SeqState.scan E items).nextSeq

/-- As long as a storage with distinct numbers keeps its greatest records and
gains none, a scan finds the same. -/
theorem SameScan.of_contents {items items' : List Item} {ks : List (NonZeroU32 × List Item)}
    (hd : ((contents (recordGrammar E.crc) items).map contentKey).Nodup)
    (htop : TopK.IsTop E.kept contentKey (contents (recordGrammar E.crc) items) ks)
    (hks : ks <+~ contents (recordGrammar E.crc) items')
    (hsub : contents (recordGrammar E.crc) items' <+ contents (recordGrammar E.crc) items) :
    SameScan E items items' := by
  have hd' := hd.sublist (hsub.map contentKey)
  have h1 : TopK.filled (keptSlots E items') ~ ks :=
    (isTop_keptSlots items').unique (htop.of_subperm hks hsub.subperm) hd'
  have h2 : ks ~ TopK.filled (keptSlots E items) := htop.unique (isTop_keptSlots items) hd
  have hslots : keptSlots E items' = keptSlots E items := by
    refine TopK.slots_eq_of_perm contentKey_pos (keptSlots_sorted _) (keptSlots_sorted _) ?_
      (h1.trans h2) ?_
    · rw [keptSlots_length, keptSlots_length]
    · exact (isTop_keptSlots items').nodup_map hd'
  exact ⟨hslots, by rw [scan_nextSeq, scan_nextSeq, hslots]⟩

end CfgNoodle

import CfgNoodle.Records

/-! # What the reading calls do

Specifications of `get_or_populate_latest` and `process_reads` for every script
of read errors: how far a call got, and the state it left behind. -/
namespace CfgNoodle
open Framing Outcome
open scoped List
variable {E : Env}

/-! ## Scripts of reads -/

/-- The stop that an answer is for a caller. -/
def ReadAnswer.stop {ε : Type} (f : ε → LoadStoreError ε) : ReadAnswer ε → Option (Stop ε)
  | ok => none
  | err e => some (.error (f e))
  | cut => some .cut

def PushAnswer.stop {ε : Type} : PushAnswer ε → Option (Stop ε)
  | ok => none
  | err e _ => some (.error (.flashWrite e))
  | cut _ => some .cut

def InvalidateAnswer.stop {ε : Type} : InvalidateAnswer ε → Option (Stop ε)
  | ok => none
  | err e _ => some (.error (.flashWrite e))
  | cut _ => some .cut

/-- Some read of the script is this stop. -/
def Faults.ReadStops {ε : Type} (fs : Faults ε) (e : Stop ε) : Prop :=
  ∃ a ∈ fs.reads, a.stop .flashRead = some e

/-- Some answer of the script is this stop. -/
def Faults.CanStop {ε : Type} (fs : Faults ε) (e : Stop ε) : Prop :=
  fs.ReadStops e ∨ (∃ a ∈ fs.pushes, a.stop = some e) ∨ ∃ a ∈ fs.invalidates, a.stop = some e

/-- `fs'` is what is left of `fs`. -/
structure Spent {ε : Type} (fs fs' : Faults ε) : Prop where
  reads : fs'.reads <:+ fs.reads
  pushes : fs'.pushes <:+ fs.pushes
  invalidates : fs'.invalidates <:+ fs.invalidates

/-- The script lets `n` reads pass; `rest` is what is left of it. -/
def ReadsPass {ε : Type} (reads : List (ReadAnswer ε)) (n : Nat) (rest : List (ReadAnswer ε)) : Prop :=
  (∀ a ∈ reads.take n, a = .ok) ∧ rest = reads.drop n

/-- The script lets `n` reads pass and stops the next one. -/
def ReadsStop {ε : Type} (reads : List (ReadAnswer ε)) (n : Nat) (f : ε → LoadStoreError ε)
    (e : Stop ε) (rest : List (ReadAnswer ε)) : Prop :=
  ∃ a, reads = List.replicate n .ok ++ a :: rest ∧ a.stop f = some e

section Scripts
variable {ε : Type} {reads r1 r2 : List (ReadAnswer ε)} {n m : Nat} {f : ε → LoadStoreError ε}
  {e : Stop ε}

theorem ReadsPass.zero : ReadsPass reads 0 reads := ⟨by simp, rfl⟩

theorem ReadsPass.nil : ReadsPass ([] : List (ReadAnswer ε)) n [] := ⟨by simp, by simp⟩

theorem ReadsPass.add (h1 : ReadsPass reads n r1) (h2 : ReadsPass r1 m r2) :
    ReadsPass reads (n + m) r2 := by
  obtain ⟨h1, rfl⟩ := h1
  obtain ⟨h2, rfl⟩ := h2
  refine ⟨?_, by rw [List.drop_drop]⟩
  intro a ha
  rw [List.take_add] at ha
  rcases List.mem_append.mp ha with ha | ha
  · exact h1 a ha
  · exact h2 a ha

theorem ReadsPass.stop (h1 : ReadsPass reads n r1) (h2 : ReadsStop r1 m f e r2) :
    ReadsStop reads (n + m) f e r2 := by
  obtain ⟨h1, hr⟩ := h1
  obtain ⟨a, ha, he⟩ := h2
  refine ⟨a, ?_, he⟩
  have hlen : n ≤ reads.length := by
    by_contra hlt
    rw [List.drop_eq_nil_of_le (by omega)] at hr
    rw [hr] at ha
    simp at ha
  have htake : reads.take n = List.replicate n .ok := by
    refine List.eq_replicate_iff.mpr ⟨?_, h1⟩
    rw [List.length_take]; omega
  rw [← List.take_append_drop n reads, htake, ← hr, ha, List.replicate_add, List.append_assoc]

/-- A script of successes followed by one error stops where the error is. -/
theorem ReadsStop.at {p : Nat} {x : ε} (h : ReadsStop (List.replicate p .ok ++ [.err x]) n f e r1) :
    n = p ∧ e = .error (f x) ∧ r1 = [] := by
  obtain ⟨a, ha, he⟩ := h
  have hne : a ≠ .ok := by rintro rfl; cases he
  rcases Nat.lt_trichotomy n p with hlt | rfl | hgt
  · obtain ⟨k, rfl⟩ := Nat.exists_eq_add_of_lt hlt
    rw [Nat.add_assoc, List.replicate_add, List.append_assoc, List.append_right_inj,
      Nat.add_comm k 1, List.replicate_add] at ha
    exact absurd (List.cons.inj ha).1.symm hne
  · rw [List.append_right_inj] at ha
    obtain ⟨rfl, rfl⟩ := List.cons.inj ha
    exact ⟨rfl, (Option.some.inj he).symm, rfl⟩
  · obtain ⟨k, rfl⟩ := Nat.exists_eq_add_of_lt hgt
    rw [Nat.add_assoc, List.replicate_add, List.append_assoc, List.append_right_inj,
      Nat.add_comm k 1, List.replicate_add] at ha
    cases (List.cons.inj ha).1

/-- ... and lets no more than its successes pass. -/
theorem ReadsPass.le {p : Nat} {x : ε}
    (h : ReadsPass (List.replicate p ReadAnswer.ok ++ [.err x]) n r1) : n ≤ p := by
  by_contra hlt
  have hmem : ReadAnswer.err x ∈ (List.replicate p ReadAnswer.ok ++ [ReadAnswer.err x]).take n := by
    rw [List.take_of_length_le (by simp; omega)]
    simp
  cases h.1 _ hmem

end Scripts

theorem Spent.refl {ε : Type} (fs : Faults ε) : Spent fs fs :=
  ⟨List.suffix_rfl, List.suffix_rfl, List.suffix_rfl⟩

theorem Spent.trans {ε : Type} {f1 f2 f3 : Faults ε} (h : Spent f1 f2) (h' : Spent f2 f3) :
    Spent f1 f3 :=
  ⟨h'.reads.trans h.reads, h'.pushes.trans h.pushes, h'.invalidates.trans h.invalidates⟩

theorem Spent.readStops {ε : Type} {fs fs' : Faults ε} (h : Spent fs fs') {e : Stop ε}
    (hc : fs'.ReadStops e) : fs.ReadStops e := by
  obtain ⟨a, ha, hs⟩ := hc
  exact ⟨a, h.reads.subset ha, hs⟩

theorem Spent.canStop {ε : Type} {fs fs' : Faults ε} (h : Spent fs fs') {e : Stop ε}
    (hc : fs'.CanStop e) : fs.CanStop e := by
  rcases hc with hc | ⟨a, ha, hs⟩ | ⟨a, ha, hs⟩
  · exact Or.inl (h.readStops hc)
  · exact Or.inr (Or.inl ⟨a, h.pushes.subset ha, hs⟩)
  · exact Or.inr (Or.inr ⟨a, h.invalidates.subset ha, hs⟩)

theorem Faults.not_canStop_none {ε : Type} (e : Stop ε) : ¬ (Faults.none : Faults ε).CanStop e := by
  simp only [CanStop, ReadStops, Faults.none]
  simp

theorem ReadsPass.spent {ε : Type} {fs : Faults ε} {n : Nat} {rest : List (ReadAnswer ε)}
    (h : ReadsPass fs.reads n rest) : Spent fs { fs with reads := rest } :=
  ⟨h.2 ▸ List.drop_suffix n _, List.suffix_rfl, List.suffix_rfl⟩

theorem ReadsStop.spent {ε : Type} {fs : Faults ε} {n : Nat} {f : ε → LoadStoreError ε}
    {e : Stop ε} {rest : List (ReadAnswer ε)} (h : ReadsStop fs.reads n f e rest) :
    Spent fs { fs with reads := rest } := by
  obtain ⟨a, ha, _⟩ := h
  refine ⟨?_, List.suffix_rfl, List.suffix_rfl⟩
  rw [ha]
  exact (List.suffix_cons a rest).trans (List.suffix_append _ _)

theorem ReadsStop.readStops {ε : Type} {fs : Faults ε} {n : Nat} {e : Stop ε}
    {rest : List (ReadAnswer ε)} (h : ReadsStop fs.reads n .flashRead e rest) : fs.ReadStops e := by
  obtain ⟨a, ha, he⟩ := h
  exact ⟨a, by rw [ha]; simp, he⟩

theorem ReadsStop.canStop {ε : Type} {fs : Faults ε} {n : Nat} {e : Stop ε}
    {rest : List (ReadAnswer ε)} (h : ReadsStop fs.reads n .flashRead e rest) : fs.CanStop e :=
  Or.inl h.readStops

theorem ReadsStop.ne_nil {ε : Type} {reads rest : List (ReadAnswer ε)} {n : Nat}
    {f : ε → LoadStoreError ε} {e : Stop ε} (h : ReadsStop reads n f e rest) : reads ≠ [] := by
  obtain ⟨a, ha, _⟩ := h
  rw [ha]
  simp

theorem not_readsStop_of_ok {ε : Type} {reads rest : List (ReadAnswer ε)}
    (h : ∀ a ∈ reads, a = .ok) {n : Nat} {f : ε → LoadStoreError ε} {e : Stop ε} :
    ¬ ReadsStop reads n f e rest := by
  intro hx
  obtain ⟨a, rfl, ha⟩ := hx
  rw [h a (by simp)] at ha
  cases ha

theorem nextOr_spec (f : E.Err → LoadStoreError E.Err) (w : World E) :
    Ends (nextOr f) w
      (fun _ w' => ∃ rest, ReadsPass w.faults.reads 1 rest ∧ w' = w.withReads rest)
      (fun e w' => ∃ rest, ReadsStop w.faults.reads 0 f e rest ∧ w' = w.withReads rest) := by
  simp only [Ends, nextOr]
  cases h : w.faults.reads with
  | nil => exact ⟨[], .nil, by rw [World.withReads, ← h]⟩
  | cons a rest =>
    cases a with
    | ok => exact ⟨rest, ⟨by simp, rfl⟩, rfl⟩
    | err e => exact ⟨rest, ⟨_, rfl, rfl⟩, rfl⟩
    | cut => exact ⟨rest, ⟨_, rfl, rfl⟩, rfl⟩

@[simp] theorem withReads_withReads (w : World E) (r r' : List (ReadAnswer E.Err)) :
    (w.withReads r).withReads r' = w.withReads r' := rfl

theorem iterElems_spec (w : World E) :
    Ends iterElems w
      (fun items w' => items = w.items ∧
        ∃ rest, ReadsPass w.faults.reads 1 rest ∧ w' = w.withReads rest)
      (fun e w' => ∃ rest, ReadsStop w.faults.reads 0 .flashRead e rest ∧ w' = w.withReads rest) := by
  simp only [iterElems]
  refine ((nextOr_spec _ w).mono ?_ fun _ _ h => h).bind
  intro _ w' h
  obtain ⟨rest, hp, rfl⟩ := h
  exact .bind (.get (.pure ⟨rfl, rest, hp, rfl⟩))

/-! ## The scan -/

theorem insertFound_run (w : World E) (good : Option GoodWriteRecord) :
    insertFound good w = .ok ⟨⟩ (w.withSeq (w.seqState.insertAll E.sorter good.toList)) := by
  cases good <;> rfl

/-- The loop from any local state: it inserts what it was handed so far. -/
theorem scanLoop_spec : ∀ (items : List Item) (l : ScanLocals) (w : World E),
    Ends (scanLoop l items) w
      (fun l' w' => l' = scanLocals E.crc l items ∧ ∃ rest,
        ReadsPass w.faults.reads (items.length + 1) rest ∧
        w' = (w.withSeq (w.seqState.insertAll E.sorter (scanGoods E.crc l items))).withReads rest)
      (fun e w' => ∃ i rest, i ≤ items.length ∧ ReadsStop w.faults.reads i .flashRead e rest ∧
        w' = (w.withSeq (w.seqState.insertAll E.sorter
          (scanGoods E.crc l (items.take i)))).withReads rest)
  | [], l, w => by
    simp only [scanLoop]
    refine ((nextOr_spec _ w).mono ?_ ?_).bind
    · intro _ w' h
      obtain ⟨rest, hp, rfl⟩ := h
      exact .pure ⟨rfl, rest, hp, rfl⟩
    · intro e w' h
      obtain ⟨rest, hs, rfl⟩ := h
      exact ⟨0, rest, Nat.le_refl _, hs, rfl⟩
  | it :: items, l, w => by
    simp only [scanLoop]
    refine ((nextOr_spec _ w).mono ?_ ?_).bind
    · intro _ w' h
      obtain ⟨r1, hp, rfl⟩ := h
      refine .bind ?_
      simp only [Ends]
      rw [insertFound_run]
      refine (scanLoop_spec items (scanStep E.crc l it).1 _).mono ?_ ?_
      · intro l' w' h
        obtain ⟨hl, rest, hp', rfl⟩ := h
        refine ⟨hl, rest, ?_, ?_⟩
        · rw [List.length_cons, Nat.add_comm]; exact hp.add hp'
        · rw [scanGoods, SeqState.insertAll_append]; rfl
      · intro e w' h
        obtain ⟨i, rest, hi, hs, rfl⟩ := h
        refine ⟨i + 1, rest, by simpa using hi, ?_, ?_⟩
        · rw [Nat.add_comm]; exact hp.stop hs
        · rw [List.take_succ_cons, scanGoods, SeqState.insertAll_append]; rfl
    · intro e w' h
      obtain ⟨rest, hs, rfl⟩ := h
      exact ⟨0, rest, Nat.zero_le _, hs, rfl⟩

/-- The cache that `get_or_populate_latest` leaves when it returns. -/
def populate (E : Env) (items : List Item) (s : SeqState E.kept) : SeqState E.kept :=
  if s.initialScanCompleted then s else (s.insertAll E.sorter (goodRecords E items)).finishScan

theorem populate_of_completed {items : List Item} {s : SeqState E.kept}
    (h : s.initialScanCompleted = true) : populate E items s = s := if_pos h

theorem populate_of_nextSeq {items : List Item} {s : SeqState E.kept} {n : NonZeroU32}
    (h : s.nextSeq = some n) : populate E items s = s :=
  populate_of_completed (by rw [SeqState.initialScanCompleted, h]; rfl)

theorem populate_of_unset {items : List Item} {s : SeqState E.kept} (h : s.nextSeq = none) :
    populate E items s = (s.insertAll E.sorter (goodRecords E items)).finishScan :=
  if_neg (by rw [SeqState.initialScanCompleted, h]; exact Bool.false_ne_true)

theorem populate_new (items : List Item) :
    populate E items SeqState.new = SeqState.scan E items := rfl

theorem getOrPopulateLatest_spec (b : Nat) (w : World E) :
    Ends (getOrPopulateLatest b) w
      (fun a w' => a.1 = (populate E w.items w.seqState).highestSeen ∧ ∃ n rest,
        ReadsPass w.faults.reads n rest ∧
        (w.seqState.initialScanCompleted = false → n = w.items.length + 2) ∧
        w' = (w.withSeq (populate E w.items w.seqState)).withReads rest)
      (fun e w' => w.seqState.initialScanCompleted = false ∧ ∃ q rest,
        q ≤ w.items.length + 1 ∧ ReadsStop w.faults.reads q .flashRead e rest ∧
        w' = (w.withSeq (w.seqState.insertAll E.sorter
          (goodRecords E (w.items.take (q - 1))))).withReads rest) := by
  unfold getOrPopulateLatest
  refine .bind (.get ?_)
  cases hc : w.seqState.initialScanCompleted with
  | true =>
    rw [populate_of_completed hc]
    show Ends (if w.seqState.initialScanCompleted = true then _ else _) w _ _
    rw [if_pos hc]
    exact .pure ⟨rfl, 0, w.faults.reads, .zero, nofun, rfl⟩
  | false =>
    have hp : populate E w.items w.seqState =
        (w.seqState.insertAll E.sorter (goodRecords E w.items)).finishScan := by
      unfold populate
      rw [hc]; rfl
    show Ends (if w.seqState.initialScanCompleted = true then _ else _) w _ _
    rw [if_neg (by rw [hc]; nofun)]
    refine ((iterElems_spec w).mono ?_ ?_).bind
    · intro items w1 h
      obtain ⟨rfl, r1, hp1, rfl⟩ := h
      refine ((scanLoop_spec _ _ _).mono ?_ ?_).bind
      · intro l w2 h
        obtain ⟨_, rest, hp2, rfl⟩ := h
        refine .bind (.get (.bind (.modify (.pure ⟨?_, _, rest, hp1.add hp2, fun _ => ?_, ?_⟩))))
        · rw [hp, finishScan_highestSeen, ← scanGoods_eq w.items b]; rfl
        · omega
        · rw [hp, ← scanGoods_eq w.items b]; rfl
      · intro e w2 h
        obtain ⟨i, rest, hi, hs, rfl⟩ := h
        refine ⟨rfl, i + 1, rest, by omega, ?_, ?_⟩
        · rw [Nat.add_comm]; exact hp1.stop hs
        · rw [Nat.add_sub_cancel, ← scanGoods_eq _ b]; rfl
    · intro e w1 h
      obtain ⟨rest, hs, rfl⟩ := h
      exact ⟨rfl, 0, rest, Nat.zero_le _, hs, rfl⟩

/-! ## What a cached range points at -/

/-- A cached entry points at a valid record and covers it. The range of an entry
made by the verifier ends one item past the record. -/
structure Points (items : List Item) (r : GoodWriteRecord) (f : Record) : Prop where
  mem : f ∈ validRecords E items
  seq : r.seq = f.key
  first : r.range.first = f.start
  last_le : f.last ≤ r.range.last

/-- Every cached entry points at a valid record. -/
def Located (items : List Item) (s : SeqState E.kept) : Prop :=
  ∀ r ∈ s.records, ∃ f, Points (E := E) items r f

theorem points_goodOf {items : List Item} {f : Record} (hf : f ∈ validRecords E items) :
    Points (E := E) items (goodOf f) f := ⟨hf, rfl, rfl, Nat.le_refl _⟩

/-- A cached entry that covers a valid record and no item of the storage beyond it. -/
structure Spans (items : List Item) (r : GoodWriteRecord) (f : Record) : Prop
    extends Points (E := E) items r f where
  last : r.range.last = f.last ∨ r.range.last = f.last + 1 ∧ items.length = f.last + 1

/-- Every cached entry covers just a valid record. -/
def Spanned (items : List Item) (s : SeqState E.kept) : Prop :=
  ∀ r ∈ s.records, ∃ f, Spans (E := E) items r f

theorem spans_goodOf {items : List Item} {f : Record} (hf : f ∈ validRecords E items) :
    Spans (E := E) items (goodOf f) f := ⟨points_goodOf hf, Or.inl rfl⟩

theorem spanned_of_exact {items : List Item} {s : SeqState E.kept}
    (h : s.records ⊆ goodRecords E items) : Spanned items s := by
  intro r hr
  obtain ⟨f, hf, rfl⟩ := List.mem_map.mp (h hr)
  exact ⟨f, spans_goodOf hf⟩

theorem Spanned.located {items : List Item} {s : SeqState E.kept} (h : Spanned items s) :
    Located items s := fun r hr => (h r hr).imp fun _ hf => hf.toPoints

theorem located_new (items : List Item) : Located (E := E) items SeqState.new := by
  intro r hr
  simp at hr

theorem spanned_new (items : List Item) : Spanned (E := E) items SeqState.new := by
  intro r hr
  simp at hr

/-- Whatever is in the slots was there before or has been offered. -/
theorem Located.insertAll {items : List Item} {s : SeqState E.kept} (h : Located items s)
    {recs : List GoodWriteRecord} (hr : recs ⊆ goodRecords E items) :
    Located items (s.insertAll E.sorter recs) := by
  intro r hmem
  rcases SeqState.mem_insertAll E.sorter recs hmem with hin | hin
  · obtain ⟨f, hf, rfl⟩ := List.mem_map.mp (hr hin)
    exact ⟨f, points_goodOf hf⟩
  · exact h r hin

theorem Spanned.insertAll {items : List Item} {s : SeqState E.kept} (h : Spanned items s)
    {recs : List GoodWriteRecord} (hr : recs ⊆ goodRecords E items) :
    Spanned items (s.insertAll E.sorter recs) := by
  intro r hmem
  rcases SeqState.mem_insertAll E.sorter recs hmem with hin | hin
  · obtain ⟨f, hf, rfl⟩ := List.mem_map.mp (hr hin)
    exact ⟨f, spans_goodOf hf⟩
  · exact h r hin

theorem Located.populate {items : List Item} {s : SeqState E.kept} (h : Located items s) :
    Located items (populate E items s) := by
  simp only [CfgNoodle.populate]
  split
  · exact h
  · intro r hr
    rw [finishScan_records] at hr
    exact h.insertAll (List.Subset.refl _) r hr

theorem Spanned.populate {items : List Item} {s : SeqState E.kept} (h : Spanned items s) :
    Spanned items (populate E items s) := by
  simp only [CfgNoodle.populate]
  split
  · exact h
  · intro r hr
    rw [finishScan_records] at hr
    exact h.insertAll (List.Subset.refl _) r hr

theorem spanned_scan (items : List Item) : Spanned items (SeqState.scan E items) := by
  rw [← populate_new]
  exact (spanned_new items).populate

theorem Spans.slice {items : List Item} {r : GoodWriteRecord} {f : Record}
    (h : Spans (E := E) items r f) : r.range.slice items = f.seg := by
  rw [← slice_goodOf h.mem]
  simp only [RangeInclusive.slice]
  rw [goodOf_first, goodOf_last, h.first]
  rcases h.last with hl | ⟨hl, hn⟩
  · rw [hl]
  · -- nothing follows the record
    rw [List.take_of_length_le (by rw [List.length_drop]; omega),
      List.take_of_length_le (by rw [List.length_drop]; omega)]

/-! ## Hydration -/

def Item.serData (it : Item) : Option SerData :=
  match it.data with
  | some (.data d) => some d
  | _ => none

/-- The data elements among some items. -/
def datas (items : List Item) : List SerData := items.filterMap Item.serData

/-- The data elements that follow the item at a position. -/
def datasAt (items : List Item) (n : Nat) : List SerData :=
  datas ((items.drop (n + 1)).takeWhile Item.isBody)

/-- The data elements of the record that a cache has as its latest. -/
def recordDatas (items : List Item) (s : SeqState E.kept) : List SerData :=
  match s.highestSeen with
  | none => []
  | some r => datasAt items r.range.first

/-- One data element after the other is offered to the nodes. -/
def hydrateAll (list : List E.Id) (ds : List SerData) (cells : Cells E) : Cells E :=
  ds.foldl (fun cells d => hydrateFrom d list cells) cells

theorem serData_of_isBody {it : Item} (h : it.isBody = true) : ∃ d, it.data = some (.data d) := by
  simp only [Item.isBody] at h
  split at h
  · next d hd => exact ⟨d, hd⟩
  · cases h

theorem Item.closes_eq {crc : List UInt8 → UInt32} {k : NonZeroU32} {bs : List Item} {it : Item}
    (h : it.closes crc k bs = true) : it.data = some (.end k (crc (keyVals bs))) := by
  simp only [Item.closes] at h
  split at h
  · next s c hd =>
    simp only [Bool.and_eq_true, decide_eq_true_eq] at h
    rw [hd, h.1, h.2]
  · cases h

theorem Item.opens_eq {k : NonZeroU32} {it : Item} (h : it.opens = some k) :
    it.data = some (.start k) := by
  simp only [Item.opens] at h
  split at h
  · next s hd => rw [hd, Option.some.inj h]
  · cases h

/-- The items of a record, spelled out. -/
theorem IsRecord.elim {k : NonZeroU32} {seg : List Item} (h : IsRecord E k seg) :
    ∃ o bs c, seg = o :: (bs ++ [c]) ∧ o.data = some (.start k) ∧
      (∀ b ∈ bs, ∃ d, b.data = some (.data d)) ∧
      c.data = some (.end k (E.crc (keyVals bs))) ∧ datas seg = datas bs := by
  obtain ⟨o, bs, c, rfl, ho, hb, hc⟩ := h
  have ho' := Item.opens_eq ho
  have hc' := Item.closes_eq hc
  refine ⟨o, bs, c, rfl, ho', fun b h => serData_of_isBody (hb b h), hc', ?_⟩
  simp [datas, Item.serData, ho', hc']

theorem datasAt_start {items : List Item} {f : Record} (hf : f ∈ validRecords E items) :
    datasAt items f.start = datas f.seg := by
  obtain ⟨pre, post, hs, hk, hitems⟩ := (mem_frames _).mp hf
  obtain ⟨o, bs, c, hseg, _, hb, hc, hdatas⟩ := IsRecord.elim hk
  have hdrop : items.drop (f.start + 1) = bs ++ c :: post := by
    rw [hitems, hseg, hs, show pre ++ o :: (bs ++ [c]) ++ post = (pre ++ [o]) ++ (bs ++ c :: post) by
      simp]
    exact List.drop_left' (by simp)
  have hbody : ∀ b ∈ bs, b.isBody = true := by
    intro b hb'
    obtain ⟨d, hd⟩ := hb b hb'
    simp only [Item.isBody]
    rw [hd]
  have hend : c.isBody = false := by
    simp only [Item.isBody]
    rw [hc]
  simp only [datasAt]
  rw [hdrop, hdatas, List.takeWhile_append_of_pos hbody, List.takeWhile_cons_of_neg (by simp [hend]),
    List.append_nil]

/-- A script that stopped a call. -/
def Broke {ε : Type} (reads : List (ReadAnswer ε)) (e : Stop ε) : Prop :=
  ∃ n f rest, ReadsStop reads n f e rest

theorem ReadsStop.broke {ε : Type} {reads : List (ReadAnswer ε)} {n : Nat}
    {f : ε → LoadStoreError ε} {e : Stop ε} {rest : List (ReadAnswer ε)}
    (h : ReadsStop reads n f e rest) : Broke reads e := ⟨n, f, rest, h⟩

theorem ReadsPass.broke {ε : Type} {reads rest : List (ReadAnswer ε)} {n : Nat} {e : Stop ε}
    (h : ReadsPass reads n rest) (hb : Broke rest e) : Broke reads e := by
  obtain ⟨m, f, r, hs⟩ := hb
  exact ⟨n + m, f, r, h.stop hs⟩

/-- The reads before a record succeed or one of them stops the call. -/
theorem skipLoop_spec (rest : List Item) : ∀ (pre : List Item) (total : Nat) (w : World E),
    Ends (skipLoop pre.length total (pre ++ rest)) w
      (fun a w' => a.1 = rest ∧ ∃ r, ReadsPass w.faults.reads pre.length r ∧ w' = w.withReads r)
      (fun e w' => ∃ r, Broke w.faults.reads e ∧ w' = w.withReads r)
  | [], total, w => .pure ⟨rfl, w.faults.reads, .zero, rfl⟩
  | it :: pre, total, w => by
    rw [List.length_cons, List.cons_append, skipLoop]
    refine ((nextOr_spec _ w).mono ?_ ?_).bind
    · intro _ w1 h
      obtain ⟨r1, hp, rfl⟩ := h
      refine (skipLoop_spec rest pre _ _).mono ?_ ?_
      · intro a w2 h
        obtain ⟨ha, r, hp', rfl⟩ := h
        exact ⟨ha, r, by rw [Nat.add_comm]; exact hp.add hp', rfl⟩
      · intro e w2 h
        obtain ⟨r, hb, rfl⟩ := h
        exact ⟨r, hp.broke hb, rfl⟩
    · intro e w1 h
      obtain ⟨r, hs, rfl⟩ := h
      exact ⟨r, hs.broke, rfl⟩

/-- Over the rest of a record: every data element is offered to the nodes, up to
the end or to the read that fails. -/
theorem extractLoop_spec {latest : GoodWriteRecord} {c : Item} {crc : UInt32}
    (hc : c.data = some (.end latest.seq crc)) (post : List Item) :
    ∀ (bs : List Item) (total current : Nat) (w : World E),
      (∀ b ∈ bs, ∃ d, b.data = some (.data d)) →
      Ends (extractLoop latest total current (bs ++ c :: post)) w
        (fun _ w' => ∃ r, ReadsPass w.faults.reads (bs.length + 1) r ∧
          w' = (w.withCells (hydrateAll w.list (datas bs) w.cells)).withReads r)
        (fun e w' => ∃ ds r, ds <+: datas bs ∧ Broke w.faults.reads e ∧
          w' = (w.withCells (hydrateAll w.list ds w.cells)).withReads r)
  | [], total, current, w, _ => by
    rw [List.nil_append, extractLoop]
    refine ((nextOr_spec _ w).mono ?_ ?_).bind
    · intro _ w1 h
      obtain ⟨r, hp, rfl⟩ := h
      simp only [hc, if_true]
      exact .pure ⟨r, hp, rfl⟩
    · intro e w1 h
      obtain ⟨r, hs, rfl⟩ := h
      exact ⟨[], r, List.nil_prefix, hs.broke, rfl⟩
  | b :: bs, total, current, w, hb => by
    obtain ⟨d, hd⟩ := hb b (by simp)
    have hdatas : datas (b :: bs) = d :: datas bs := by simp [datas, Item.serData, hd]
    rw [List.cons_append, extractLoop]
    refine ((nextOr_spec _ w).mono ?_ ?_).bind
    · intro _ w1 h
      obtain ⟨r1, hp, rfl⟩ := h
      simp only [hd]
      refine .bind (.modify ?_)
      refine (extractLoop_spec hc post bs _ _ _ fun b' h' => hb b' (by simp [h'])).mono ?_ ?_
      · intro a w2 h
        obtain ⟨r, hp', rfl⟩ := h
        refine ⟨r, ?_, by rw [hdatas]; rfl⟩
        rw [List.length_cons, Nat.add_comm]; exact hp.add hp'
      · intro e w2 h
        obtain ⟨ds, r, hds, hbr, rfl⟩ := h
        refine ⟨d :: ds, r, ?_, hp.broke hbr, rfl⟩
        rw [hdatas]; exact List.cons_prefix_cons.mpr ⟨rfl, hds⟩
    · intro e w1 h
      obtain ⟨r, hs, rfl⟩ := h
      exact ⟨[], r, List.nil_prefix, hs.broke, rfl⟩

/-- From the cached record every data element is offered to the nodes. -/
theorem extractAll_spec {latest : GoodWriteRecord} {w : World E} {f : Record}
    (hf : Points (E := E) w.items latest f) (total : Nat) :
    Ends (extractAll latest total) w
      (fun _ w' => ∃ r, (∃ n, ReadsPass w.faults.reads n r) ∧
        w' = (w.withCells (hydrateAll w.list (datas f.seg) w.cells)).withReads r)
      (fun e w' => ∃ ds r, ds <+: datas f.seg ∧ Broke w.faults.reads e ∧
        w' = (w.withCells (hydrateAll w.list ds w.cells)).withReads r) := by
  obtain ⟨pre, post, hs, hk, hitems⟩ := (mem_frames _).mp hf.mem
  obtain ⟨o, bs, c, hseg, ho, hb, hc, hdatas⟩ := IsRecord.elim hk
  have hsplit : w.items = pre ++ o :: (bs ++ c :: post) := by
    rw [hitems, hseg]; simp
  simp only [extractAll]
  refine ((iterElems_spec w).mono ?_ ?_).bind
  · intro items w1 h
    obtain ⟨rfl, r1, hp1, rfl⟩ := h
    have hskip := skipLoop_spec (o :: (bs ++ c :: post)) pre total (w.withReads r1)
    rw [← hsplit, ← hs, ← hf.first] at hskip
    refine (hskip.mono ?_ ?_).bind
    · intro a w2 h
      obtain ⟨ha, r2, hp2, rfl⟩ := h
      refine ((nextOr_spec _ _).mono ?_ ?_).bind
      · intro _ w3 h
        obtain ⟨r3, hp3, rfl⟩ := h
        rw [ha]
        simp only [ho, hf.seq]
        rw [if_neg (by simp)]
        have hpass := (hp1.add hp2).add hp3
        refine (extractLoop_spec (by rw [hc, hf.seq]) post bs _ _ _ hb).mono ?_ ?_
        · intro a w4 h
          obtain ⟨r, hp4, rfl⟩ := h
          exact ⟨r, ⟨_, hpass.add hp4⟩, by rw [hdatas]; rfl⟩
        · intro e w4 h
          obtain ⟨ds, r, hds, hbr, rfl⟩ := h
          exact ⟨ds, r, by rwa [hdatas], hpass.broke hbr, rfl⟩
      · intro e w3 h
        obtain ⟨r, hst, rfl⟩ := h
        exact ⟨[], r, List.nil_prefix, (hp1.add hp2).broke hst.broke, rfl⟩
    · intro e w2 h
      obtain ⟨r, hbr, rfl⟩ := h
      exact ⟨[], r, List.nil_prefix, hp1.broke hbr, rfl⟩
  · intro e w1 h
    obtain ⟨r, hst, rfl⟩ := h
    exact ⟨[], r, List.nil_prefix, hst.broke, rfl⟩

/-! ## `process_reads` -/

/-- The nodes after a `process_reads` with this cache has returned. -/
def readCells (w : World E) (s : SeqState E.kept) : Cells E :=
  markInitialNonresident w.list (hydrateAll w.list (recordDatas w.items s) w.cells)

theorem processReads_spec {w : World E} (hl : Located w.items w.seqState) :
    Ends processReads w
      (fun _ w' => ∃ r, (∃ n, ReadsPass w.faults.reads n r) ∧
        w' = ((w.withSeq (populate E w.items w.seqState)).withCells
          (readCells w (populate E w.items w.seqState))).withReads r)
      (fun e w' => Broke w.faults.reads e ∧ ∃ r,
        ((w.seqState.initialScanCompleted = false ∧ ∃ q, q ≤ w.items.length + 1 ∧
            ReadsStop w.faults.reads q .flashRead e r ∧
            w' = (w.withSeq (w.seqState.insertAll E.sorter
              (goodRecords E (w.items.take (q - 1))))).withReads r) ∨
          ∃ ds, ds <+: recordDatas w.items (populate E w.items w.seqState) ∧
            (w.seqState.initialScanCompleted = false →
              ∃ rest, ReadsPass w.faults.reads (w.items.length + 2) rest) ∧
            w' = ((w.withSeq (populate E w.items w.seqState)).withCells
              (hydrateAll w.list ds w.cells)).withReads r)) := by
  have hloc := hl.populate
  simp only [processReads]
  refine ((getOrPopulateLatest_spec 0 w).mono ?_ ?_).bind
  · intro a w1 h
    obtain ⟨res, total⟩ := a
    obtain ⟨ha, n, r1, hpass, hn, rfl⟩ := h
    simp only at ha
    cases hres : res with
    | none =>
      refine .bind (.pure (.bind (.modify (.pure ⟨r1, ⟨n, hpass⟩, ?_⟩))))
      simp only [readCells, recordDatas]
      rw [← ha, hres]; rfl
    | some latest =>
      rw [hres] at ha
      obtain ⟨f, hf⟩ := hloc latest (SeqState.mem_records_of_highestSeen ha.symm)
      have hdatas : recordDatas w.items (populate E w.items w.seqState) = datas f.seg := by
        simp only [recordDatas]
        rw [← ha]
        exact (congrArg (datasAt w.items) hf.first).trans (datasAt_start hf.mem)
      have hext := extractAll_spec (w := (w.withSeq (populate E w.items w.seqState)).withReads r1)
        hf total
      refine (hext.mono ?_ ?_).bind
      · intro a w2 h
        obtain ⟨r, ⟨m, hm⟩, rfl⟩ := h
        refine .bind (.modify (.pure ⟨r, ⟨n + m, hpass.add hm⟩, ?_⟩))
        simp only [readCells]
        rw [hdatas]; rfl
      · intro e w2 h
        obtain ⟨ds, r, hds, hbr, rfl⟩ := h
        refine ⟨hpass.broke hbr, r, Or.inr ⟨ds, by rwa [hdatas], fun hc => ?_, rfl⟩⟩
        exact ⟨r1, hn hc ▸ hpass⟩
  · intro e w1 h
    obtain ⟨hc, q, r, hq, hs, rfl⟩ := h
    exact ⟨hs.broke, r, Or.inl ⟨hc, q, hq, hs, rfl⟩⟩

end CfgNoodle

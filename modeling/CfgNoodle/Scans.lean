import CfgNoodle.Interrupted

/-! # What a scan accepts

The intervals of the storage that a scan takes for write records, read off the
items one by one. -/
namespace CfgNoodle
open Framing Outcome
open scoped List
variable {E : Env}

/-! ## The grammar, item by item -/

/-- The items strictly between the ends of a range. -/
def RangeInclusive.between (r : RangeInclusive) (items : List Item) : List Item :=
  (items.drop (r.first + 1)).take (r.last - r.first - 1)

/-- The interval is a write record: a `Start`, data elements only, and the `End`
with the same number and the checksum of what stands between. -/
structure Spells (crc : List UInt8 → UInt32) (items : List Item) (r : GoodWriteRecord) : Prop where
  lt : r.range.first < r.range.last
  start : ∃ it, items[r.range.first]? = some it ∧ it.data = some (.start r.seq)
  body : ∀ k, r.range.first < k → k < r.range.last →
    ∃ it d, items[k]? = some it ∧ it.data = some (.data d)
  stop : ∃ it, items[r.range.last]? = some it ∧
    it.data = some (.end r.seq (crc (keyVals (r.range.between items))))

/-- The storage cut at the ends of an interval. -/
theorem RangeInclusive.split {r : RangeInclusive} {items : List Item} {o c : Item}
    (hlt : r.first < r.last) (ho : items[r.first]? = some o) (hc : items[r.last]? = some c) :
    items = items.take r.first ++ o :: (r.between items ++ c :: items.drop (r.last + 1)) ∧
      (items.take r.first).length = r.first ∧ (r.between items).length = r.last - r.first - 1 := by
  have hlen : r.last < items.length := (List.getElem?_eq_some_iff.mp hc).1
  have hlast : (items.drop (r.first + 1)).drop (r.last - r.first - 1) = c :: items.drop (r.last + 1) := by
    rw [List.drop_drop, show r.first + 1 + (r.last - r.first - 1) = r.last by omega,
      List.drop_eq_getElem?_toList_append, hc]
    rfl
  have hfirst : items.drop r.first = o :: items.drop (r.first + 1) := by
    rw [List.drop_eq_getElem?_toList_append, ho]
    rfl
  refine ⟨?_, ?_, ?_⟩
  · rw [between, ← hlast, List.take_append_drop, ← hfirst, List.take_append_drop]
  · rw [List.length_take]
    omega
  · rw [between, List.length_take, List.length_drop]
    omega

/-- An interval that spells a record holds one, and the other way round. -/
theorem spells_iff {crc : List UInt8 → UInt32} {items : List Item} {r : GoodWriteRecord} :
    Spells crc items r ↔ ∃ pre o bs c post, items = pre ++ o :: (bs ++ c :: post) ∧
      r.range.first = pre.length ∧ r.range.last = pre.length + bs.length + 1 ∧
      o.data = some (.start r.seq) ∧ (∀ b ∈ bs, ∃ d, b.data = some (.data d)) ∧
      c.data = some (.end r.seq (crc (keyVals bs))) := by
  constructor
  · intro h
    obtain ⟨o, ho, hos⟩ := h.start
    obtain ⟨c, hc, hce⟩ := h.stop
    have hlt := h.lt
    obtain ⟨hitems, hpre, hbs⟩ := RangeInclusive.split hlt ho hc
    refine ⟨_, o, _, c, _, hitems, hpre.symm, by omega, hos, fun b hb => ?_, hce⟩
    obtain ⟨j, hj⟩ := List.mem_iff_getElem?.mp hb
    have hjlt : j < r.range.last - r.range.first - 1 := hbs ▸ (List.getElem?_eq_some_iff.mp hj).1
    obtain ⟨it, d, hit, hd⟩ := h.body (r.range.first + 1 + j) (by omega) (by omega)
    rw [RangeInclusive.between, List.getElem?_take_of_lt hjlt, List.getElem?_drop, hit] at hj
    exact ⟨d, Option.some.inj hj ▸ hd⟩
  · intro h
    obtain ⟨pre, o, bs, c, post, rfl, hfirst, hlast, ho, hb, hc⟩ := h
    have hat : ∀ n, (pre ++ o :: (bs ++ c :: post))[pre.length + 1 + n]? = (bs ++ c :: post)[n]? := by
      intro n
      rw [List.getElem?_append_right (by omega), show pre.length + 1 + n - pre.length = n + 1 by omega,
        List.getElem?_cons_succ]
    have hbetween : r.range.between (pre ++ o :: (bs ++ c :: post)) = bs := by
      rw [RangeInclusive.between, hfirst, hlast, ← List.drop_drop, List.drop_left,
        show pre.length + bs.length + 1 - pre.length - 1 = bs.length by omega]
      simp
    refine ⟨by omega, ⟨o, ?_, ho⟩, fun k hk1 hk2 => ?_, c, ?_, by rw [hbetween, hc]⟩
    · rw [hfirst, List.getElem?_append_right (Nat.le_refl _), Nat.sub_self]
      rfl
    · obtain ⟨n, rfl⟩ := Nat.exists_eq_add_of_le (show pre.length + 1 ≤ k by omega)
      have hn : n < bs.length := by omega
      obtain ⟨d, hd⟩ := hb bs[n] (List.getElem_mem hn)
      exact ⟨bs[n], d, by rw [hat, List.getElem?_append_left hn, List.getElem?_eq_getElem hn], hd⟩
    · rw [hlast, show pre.length + bs.length + 1 = pre.length + 1 + bs.length by omega, hat,
        List.getElem?_append_right (Nat.le_refl _), Nat.sub_self]
      rfl

/-- The scan takes for records exactly the intervals that spell one. -/
theorem mem_goodRecords_iff {items : List Item} {r : GoodWriteRecord} :
    r ∈ goodRecords E items ↔ Spells E.crc items r := by
  rw [spells_iff]
  constructor
  · intro h
    obtain ⟨f, hf, rfl⟩ := List.mem_map.mp h
    obtain ⟨pre, post, hs, hk, hitems⟩ := (mem_frames _).mp hf
    obtain ⟨o, bs, c, hseg, ho, hb, hc, _⟩ := IsRecord.elim hk
    refine ⟨pre, o, bs, c, post, ?_, hs, ?_, ho, hb, hc⟩
    · rw [hitems, hseg]
      simp
    · show f.start + f.seg.length - 1 = _
      rw [hs, hseg, List.length_cons, List.length_append, List.length_singleton]
      omega
  · intro h
    obtain ⟨pre, o, bs, c, post, hitems, hfirst, hlast, ho, hb, hc⟩ := h
    refine List.mem_map.mpr ⟨⟨r.seq, pre.length, o :: (bs ++ [c])⟩, (mem_frames _).mpr ?_, ?_⟩
    · refine ⟨pre, post, rfl, ⟨o, bs, c, rfl, ?_, fun b hb' => ?_, ?_⟩, by rw [hitems]; simp⟩
      · show o.opens = _
        simp only [Item.opens]
        rw [ho]
      · show b.isBody = true
        obtain ⟨d, hd⟩ := hb b hb'
        simp only [Item.isBody]
        rw [hd]
      · show c.closes E.crc r.seq bs = true
        simp only [Item.closes]
        rw [hc]
        simp
    · obtain ⟨seq, first, last⟩ := r
      simp only at hfirst hlast
      simp only [goodOf, Frame.last, hfirst, hlast, List.length_cons, List.length_append,
        List.length_nil, GoodWriteRecord.mk.injEq, RangeInclusive.mk.injEq, true_and]
      omega

/-- In the order in which they end. -/
theorem goodRecords_ordered (items : List Item) :
    (goodRecords E items).Pairwise fun a b => a.range.last < b.range.last := by
  refine List.pairwise_map.mpr ((frames_ordered _ items).imp_of_mem fun {f g} _ hg hfg => ?_)
  obtain ⟨_, _, _, hk, _⟩ := (mem_frames _).mp hg
  have hlen := hk.length
  simp only [goodOf_last, Frame.last]
  omega

/-- Where the storage holds a record, the end of a scan changes nothing. -/
theorem scan_of_ne_nil {items : List Item} (h : goodRecords E items ≠ []) :
    SeqState.scan E items = SeqState.new.insertAll E.sorter (goodRecords E items) := by
  rcases scan_cases (E := E) items with ⟨hnil, _⟩ | ⟨r, hr⟩
  · exact absurd hnil h
  · refine finishScan_eq_self (r := r) ?_
    rw [← hr.highest]
    exact (finishScan_highestSeen _).symm

/-- A scan that starts from an empty cache hands `insert_good` the intervals that
spell a record, all of them and no others, in the order in which they end. -/
theorem scan_accepts_records {w : World E} (hnew : w.seqState = .new)
    (hok : ∀ a ∈ w.faults.reads, a = .ok) (b : Nat) :
    ∃ recs, (∀ r, r ∈ recs ↔ Spells E.crc w.items r) ∧
      recs.Pairwise (fun r r' => r.range.last < r'.range.last) ∧
      scanGoods E.crc ⟨none, .new, 0, b⟩ w.items = recs ∧
      ∃ total w', getOrPopulateLatest b w = .ok (w'.seqState.highestSeen, total) w' ∧
        (recs ≠ [] → w'.seqState = SeqState.new.insertAll E.sorter recs) ∧
        (recs = [] → w'.seqState = { SeqState.new with nextSeq := some NonZeroU32.one }) := by
  refine ⟨goodRecords E w.items, fun r => mem_goodRecords_iff, goodRecords_ordered w.items,
    scanGoods_eq w.items b, ?_⟩
  rcases (getOrPopulateLatest_spec b w).cases with
    ⟨⟨highest, total⟩, w', hrun, ha, n, rest, _, _, rfl⟩ | ⟨e, w', _, _, q, rest, _, hstop, _⟩
  · rw [hnew, populate_new] at ha hrun
    obtain rfl : highest = (SeqState.scan E w.items).highestSeen := ha
    refine ⟨total, (w.withSeq (SeqState.scan E w.items)).withReads rest, hrun, fun hne => ?_,
      fun hnil => ?_⟩
    · exact scan_of_ne_nil hne
    · rcases scan_cases (E := E) w.items with ⟨_, hs⟩ | ⟨r, hr⟩
      · exact hs
      · have hmem := hr.mem
        rw [hnil] at hmem
        cases hmem
  · exact absurd hstop (not_readsStop_of_ok hok)

theorem scan_accepts_two_records :
    ∃ recs, (∀ r, r ∈ recs ↔ Spells cksum twoRecords r) ∧
      recs.Pairwise (fun r r' => r.range.last < r'.range.last) ∧
      scanGoods cksum ⟨none, .new, 0, 0⟩ twoRecords = recs ∧
      ∃ total w', getOrPopulateLatest 0 (World.boot twoRecords : World twoSettings) =
          .ok (w'.seqState.highestSeen, total) w' ∧
        (recs ≠ [] → w'.seqState = SeqState.new.insertAll insertionSorter recs) ∧
        (recs = [] → w'.seqState = { SeqState.new with nextSeq := some NonZeroU32.one }) :=
  scan_accepts_records (w := (World.boot twoRecords : World twoSettings)) rfl
    (fun _ ha => nomatch ha) 0

end CfgNoodle

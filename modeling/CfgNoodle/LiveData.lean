import CfgNoodle.CrashAtomic

/-! # What is left after a collection

Runs that start with a complete read of any storage, in which writes may fail at
any push. Whenever a collection is due the cache points at a choice of the greatest
valid records, so that exactly they are left; and what a failed write has left is
only collected once another write has made a collection due. -/
namespace CfgNoodle
open Framing Outcome Runs
open scoped List
variable {E : Env}

/-- The storage consists of these records. -/
def segments (fs : List Record) : List Item := (fs.map Frame.seg).flatten

def Record.number (f : Record) : Nat := f.key.get

/-- The storage consists of `KEPT_RECORDS` of the valid records that were there
with the greatest numbers, or of all of them, one after the other. -/
def OnlyLive (E : Env) (items items' : List Item) : Prop :=
  ∃ ks, ks <+ validRecords E items ∧ TopK.IsTop E.kept Record.number (validRecords E items) ks ∧
    items' = segments ks

/-! ## The cache -/

/-- Where a record stands, and its number. -/
def Record.place (f : Record) : Nat × Nat := (f.key.get, f.start)

def GoodWriteRecord.place (r : GoodWriteRecord) : Nat × Nat := (r.seqKey, r.range.first)

/-- The cache is what a scan finds, and the number it hands out is new. -/
structure Counted (items : List Item) (s : SeqState E.kept) : Prop where
  top : TopK.IsTop E.kept GoodWriteRecord.seqKey (goodRecords E items) s.records
  next : ∀ n, s.nextSeq = some n → ∀ f ∈ validRecords E items, f.key.get < n.get

/-- Nothing but a few valid records is stored, and the cache points at them. -/
structure Compact (items : List Item) (s : SeqState E.kept) : Prop extends Counted items s where
  stored : items = segments (validRecords E items)
  few : (validRecords E items).length ≤ E.kept

/-- The cache points at a choice of the greatest records, if a collection is due also
at one that has just been verified. -/
structure Current (items : List Item) (s : SeqState E.kept) : Prop where
  spanned : Spanned items s
  top : TopK.IsTop E.kept Prod.fst ((validRecords E items).map Record.place)
    (s.records.map GoodWriteRecord.place)
  counted : s.needsGc = false → Counted items s

/-- A collection is due unless only the records in the cache are stored. -/
structure Tidy (items : List Item) (s : SeqState E.kept) : Prop extends Current items s where
  compact : s.needsGc = false → Compact items s

theorem top_places {items : List Item} {s : SeqState E.kept}
    (h : TopK.IsTop E.kept GoodWriteRecord.seqKey (goodRecords E items) s.records) :
    TopK.IsTop E.kept Prod.fst ((validRecords E items).map Record.place)
      (s.records.map GoodWriteRecord.place) := by
  have := h.map (g := Prod.fst) GoodWriteRecord.place fun _ _ => rfl
  simp only [goodRecords] at this
  rwa [List.map_map] at this

theorem Compact.tidy {items : List Item} {s : SeqState E.kept} (h : Compact items s) :
    Tidy items s :=
  ⟨⟨spanned_of_isTop h.top, top_places h.top, fun _ => h.toCounted⟩, fun _ => h⟩

theorem Current.tidy {items : List Item} {s : SeqState E.kept} (h : Current items s)
    (hgc : s.needsGc = true) : Tidy items s :=
  ⟨h, fun hno => absurd (hgc.symm.trans hno) nofun⟩

theorem places_nodup (items : List Item) : ((validRecords E items).map Record.place).Nodup := by
  refine List.Nodup.of_map Prod.snd ?_
  rw [List.map_map]
  exact frames_starts_nodup _ items

/-- The records that a collection with such a cache keeps. -/
theorem Current.kept {items : List Item} {s : SeqState E.kept} (h : Current items s) :
    TopK.IsTop E.kept Record.number (validRecords E items) (keptRecords s items) := by
  refine h.top.filter (places_nodup items) fun f hf => ?_
  rw [List.any_eq_true, List.mem_map]
  constructor
  · intro hany
    obtain ⟨r, hr, hfirst⟩ := hany
    obtain ⟨g, hg⟩ := h.spanned r hr
    have hgf : g = f := frames_start_inj _ hg.mem hf (hg.first.symm.trans (by simpa using hfirst))
    refine ⟨r, hr, ?_⟩
    simp only [GoodWriteRecord.place, Record.place, GoodWriteRecord.seqKey]
    rw [hg.seq, hg.first, hgf]
  · intro hmap
    obtain ⟨r, hr, heq⟩ := hmap
    exact ⟨r, hr, decide_eq_true (congrArg Prod.snd heq)⟩

theorem compact_scan {items : List Item} (hs : items = segments (validRecords E items))
    (hf : (validRecords E items).length ≤ E.kept) :
    Compact items (SeqState.scan E items).clean :=
  ⟨⟨scan_isTop items, fun _ hn => scan_nextSeq_above hn⟩, hs, hf⟩

/-- The valid records of a storage that consists of some. -/
theorem segments_validRecords {items : List Item} {fs : List Record}
    (h : ∀ f ∈ fs, IsRecord E f.key f.seg) (hi : items = segments fs) :
    items = segments (validRecords E items) ∧ (validRecords E items).length = fs.length := by
  have hcont : (validRecords E items).map (fun f => (f.key, f.seg)) =
      fs.map fun f => (f.key, f.seg) := by
    have := framesFrom_flatten (recordGrammar E.crc) (fs.map fun f => (f.key, f.seg)) 0 (by simpa using h)
    rw [List.map_map] at this
    rw [hi]
    exact this
  have hsegs := congrArg (List.map Prod.snd) hcont
  have hlen := congrArg List.length hcont
  rw [List.map_map, List.map_map] at hsegs
  rw [List.length_map, List.length_map] at hlen
  refine ⟨?_, hlen⟩
  rw [hi] at hsegs ⊢
  exact congrArg List.flatten hsegs.symm

theorem Current.survivors {items : List Item} {s : SeqState E.kept} (h : Current items s) :
    Compact (CfgNoodle.survivors s items) (SeqState.scan E (CfgNoodle.survivors s items)).clean := by
  have hrec : ∀ f ∈ keptRecords s items, IsRecord E f.key f.seg := by
    intro f hf
    obtain ⟨_, _, _, hk, _⟩ := (mem_frames _).mp ((keptRecords_sublist s items).subset hf)
    exact hk
  obtain ⟨hs, hlen⟩ := segments_validRecords hrec (survivors_eq h.spanned)
  exact compact_scan hs (hlen ▸ h.kept.length_le)

/-- A verified write. -/
theorem Counted.written {items : List Item} {s : SeqState E.kept} {n : NonZeroU32}
    {ds : List SerData} {call : Nat} {range : RangeInclusive} (h : Counted items s)
    (hn : s.nextSeq = some n)
    (hv : Verifies E ⟨n, E.crc (crcBytes ds), ds.length, 0⟩ (items ++ recordItems E n ds call)
      range) :
    Current (items ++ recordItems E n ds call) (s.insertGood E.sorter ⟨n, range⟩) ∧
      (s.insertGood E.sorter ⟨n, range⟩).needsGc = true := by
  have hlt := h.next n hn
  have hsub := h.top.subset
  have hbelow : ∀ x ∈ s.records, x.seqKey < n.get := by
    intro x hx
    obtain ⟨f, hf, rfl⟩ := List.mem_map.mp (hsub x hx)
    exact hlt f hf
  obtain ⟨_, rfl⟩ := hv.new_record rfl fun f hf he => Nat.lt_irrefl _ (he ▸ hlt f hf)
  have hi := inserted_of_above
    (r := ⟨n, items.length, items.length + (recordItems E n ds call).length⟩) hbelow
  refine ⟨⟨spanned_written hsub n ds call, ?_, fun hgc => ?_⟩, hi.needsGc⟩
  · have htop := SeqState.isTop_insertAll E.sorter E.kept_pos h.top
      [⟨n, items.length, items.length + (recordItems E n ds call).length⟩]
    have hmap := htop.map (g := Prod.fst) GoodWriteRecord.place fun _ _ => rfl
    refine hmap.perm ?_ (List.Perm.refl _)
    rw [validRecords_append_record, List.map_append]
    refine (List.perm_append_singleton _ _).symm.trans (List.Perm.of_eq ?_)
    rw [List.map_append]
    simp only [goodRecords]
    rw [List.map_map]
    rfl
  · rw [hi.needsGc] at hgc; cases hgc

theorem not_broke_of_not_canStop {fs : Faults E.Err} (h : ∀ e, ¬ fs.CanStop e) {e : Stop E.Err} :
    ¬ Broke fs.reads e := by
  intro hb
  obtain ⟨n, f, rest, a, ha, he⟩ := hb
  have hmem : a ∈ fs.reads := by rw [ha]; simp
  cases a with
  | ok => cases he
  | err x => exact h _ (Or.inl ⟨_, hmem, rfl⟩)
  | cut => exact h _ (Or.inl ⟨_, hmem, rfl⟩)

/-- The cache after a scan. -/
theorem current_scan (items : List Item) : Current items (SeqState.scan E items) :=
  ⟨spanned_scan items, top_places (scan_isTop items),
    fun _ => ⟨scan_isTop items, fun _ hn => scan_nextSeq_above hn⟩⟩

/-- A scan after which no collection is due has found no record. -/
theorem validRecords_of_scan_clean {items : List Item} (hgc : (SeqState.scan E items).needsGc = false) :
    validRecords E items = [] := by
  rcases scan_cases (E := E) items with ⟨hnil, _⟩ | ⟨r, hr⟩
  · exact goodRecords_eq_nil.mp hnil
  · rw [hr.needsGc] at hgc
    cases hgc

/-! ## Runs in which writes fail -/

/-- A device, and whether what belongs to no record has been left in its storage. -/
structure Littered (E : Env) where
  device : Device E
  litter : Bool

/-- The write fails after it has pushed something. -/
def Device.litters (d : Device E) (bufLen : Nat) (fs : Faults E.Err) : Bool :=
  let r := processWrites bufLen (d.writing fs)
  !returnedOk r && (endState r).items.length != d.world.items.length

/-- Only a collection that is due removes what was left. -/
def Littered.call (t : Littered E) (c : Call E) : Littered E where
  device := t.device.call c
  litter := match c with
    | .processWrites bufLen fs => t.litter || t.device.litters bufLen fs
    | .processGarbage _ => t.litter && !t.device.world.seqState.needsGc
    | _ => t.litter

/-- Only pushes fail, and what a failing one leaves of its element is nothing or an
undecodable item. -/
structure OnlyPushesFail (fs : Faults E.Err) : Prop where
  reads : ∀ e, ¬ fs.ReadStops e
  returns : ¬ fs.CanStop .cut
  tear : PushesTear fs

theorem onlyPushesFail_none : OnlyPushesFail (E := E) .none :=
  ⟨fun e h => Faults.not_canStop_none e (Or.inl h), Faults.not_canStop_none .cut, crashFaults_none.pushes⟩

/-- Reads and invalidations without faults, and reads only while the next number is
known. -/
def PushesFail (d : Device E) : Call E → Prop
  | .nodes _ _ => True
  | .processReads fs => (∀ e, ¬ fs.CanStop e) ∧ d.world.seqState.nextSeq ≠ none
  | .processWrites _ fs => OnlyPushesFail fs
  | .processGarbage fs => ∀ e, ¬ fs.CanStop e
  | _ => False

/-- The runs from a successful `process_reads` with an empty cache on any storage, whose
items count as left. -/
def litteredRuns (E : Env) : System (Littered E) (Call E) where
  init t := ∃ w c, w.seqState = .new ∧ processReads w = .ok c t.device.world ∧
    t.litter = !w.items.isEmpty
  step t c t' := t' = t.call c ∧ PushesFail t.device c

/-- The storage and the cache of such a run. While no collection is due, what was left
may start with the next number: then no record is ever verified. -/
inductive Watched (items : List Item) (s : SeqState E.kept) : Bool → Prop
  | due {litter : Bool} (hgc : s.needsGc = true) (h : Current items s) : Watched items s litter
  | compact (hgc : s.needsGc = false) (h : Compact items s) : Watched items s false
  | littered (hgc : s.needsGc = false) (h : Counted items s)
      (more : (segments (validRecords E items)).length < items.length) : Watched items s true
  | stuck {n : NonZeroU32} (hgc : s.needsGc = false) (hn : s.nextSeq = some n) (h : Stuck E items n)
      (hsub : s.records ⊆ goodRecords E items)
      (more : (segments (validRecords E items)).length < items.length) : Watched items s true

theorem watched_scan (items : List Item) :
    Watched items (SeqState.scan E items) (!items.isEmpty) := by
  cases hgc : (SeqState.scan E items).needsGc with
  | true => exact .due hgc (current_scan items)
  | false =>
    have hnil := validRecords_of_scan_clean hgc
    have hcounted := (current_scan items).counted hgc
    cases items with
    | nil => exact .compact hgc ⟨hcounted, rfl, Nat.zero_le _⟩
    | cons it items =>
      refine .littered hgc hcounted ?_
      rw [hnil]
      exact Nat.succ_pos _

/-- A number above those of all records starts none of them. -/
theorem Compact.no_start {items : List Item} {s : SeqState E.kept} (h : Compact items s)
    {n : NonZeroU32} (hn : s.nextSeq = some n) : ∀ x ∈ items, x.data ≠ some (.start n) := by
  intro x hx hd
  rw [h.stored] at hx
  obtain ⟨seg, hseg, hx⟩ := List.mem_flatten.mp hx
  obtain ⟨f, hf, rfl⟩ := List.mem_map.mp hseg
  obtain ⟨_, _, _, hk, _⟩ := (mem_frames _).mp hf
  exact Nat.lt_irrefl _ (IsRecord.start_eq hk hx hd ▸ h.next n hn f hf)

section Write
variable {items : List Item} {s : SeqState E.kept} {litter : Bool} (h : Watched items s litter)
include h

theorem Watched.spanned : Spanned items s := by
  cases h with
  | due _ h => exact h.spanned
  | compact _ h => exact spanned_of_isTop h.top
  | littered _ h _ => exact spanned_of_isTop h.top
  | stuck _ _ _ hsub _ => exact spanned_of_exact hsub

variable (hgc : s.needsGc = false)
include hgc

/-- A part of a record, which is no record. -/
theorem Watched.partly {part : List Item}
    (hv : validRecords E (items ++ part) = validRecords E items) :
    Watched (items ++ part) s (litter || (items ++ part).length != items.length) := by
  have hgood : goodRecords E (items ++ part) = goodRecords E items := by
    unfold goodRecords
    rw [hv]
  have hcounted : Counted items s → Counted (items ++ part) s := by
    intro hc
    refine ⟨?_, fun n hn => ?_⟩
    · rw [hgood]
      exact hc.top
    · rw [hv]
      exact hc.next n hn
  have hle : items.length ≤ (items ++ part).length := by simp
  cases h with
  | due hdue _ => exact absurd (hgc.symm.trans hdue) Bool.false_ne_true
  | compact _ h =>
    rcases part.eq_nil_or_concat with rfl | ⟨init, it, rfl⟩
    · rw [List.append_nil, bne_self_eq_false]
      exact .compact hgc h
    · have hlt : items.length < (items ++ init.concat it).length := by simp
      rw [Bool.false_or, bne_iff_ne.mpr (Nat.ne_of_gt hlt)]
      refine .littered hgc (hcounted h.toCounted) ?_
      rw [hv, ← congrArg List.length h.stored]
      exact hlt
  | littered _ h more =>
    refine .littered hgc (hcounted h) ?_
    rw [hv]
    exact more.trans_le hle
  | stuck _ hn hst hsub more =>
    refine .stuck hgc hn (hst.grown (Or.inl hv)) (hgood ▸ hsub) ?_
    rw [hv]
    exact more.trans_le hle

variable {n : NonZeroU32} (hn : s.nextSeq = some n) {ds : List SerData} {call : Nat}
include hn

/-- A record that was verified. -/
theorem Watched.verified {range : RangeInclusive}
    (hv : Verifies E ⟨n, E.crc (crcBytes ds), ds.length, 0⟩ (items ++ recordItems E n ds call) range)
    (litter' : Bool) :
    Watched (items ++ recordItems E n ds call) (s.insertGood E.sorter ⟨n, range⟩) litter' := by
  have hcounted : Counted items s := by
    cases h with
    | due hdue _ => exact absurd (hgc.symm.trans hdue) Bool.false_ne_true
    | compact _ h => exact h.toCounted
    | littered _ h _ => exact h
    | stuck _ hm hst _ _ =>
      obtain rfl := Option.some.inj (hm.symm.trans hn)
      exact absurd hv (hst.grown (grown_record items _ ds call)).not_verifies
  obtain ⟨hcurrent, hdue⟩ := hcounted.written hn hv
  exact .due hdue hcurrent

/-- A record that could not be verified: something that was left starts with its number. -/
theorem Watched.unverified (hno : ∀ range, ¬ Verifies E ⟨n, E.crc (crcBytes ds), ds.length, 0⟩
    (items ++ recordItems E n ds call) range) : Watched (items ++ recordItems E n ds call) s
      (litter || (items ++ recordItems E n ds call).length != items.length) := by
  have hg := grown_record (E := E) items n ds call
  have hmore : (segments (validRecords E items)).length < items.length →
      (segments (validRecords E (items ++ recordItems E n ds call))).length <
        (items ++ recordItems E n ds call).length := by
    intro more
    rw [validRecords_append_record, segments, List.map_append, List.flatten_append, List.length_append,
      List.length_append]
    simpa [segments] using more
  cases h with
  | due hdue _ => exact absurd (hgc.symm.trans hdue) Bool.false_ne_true
  | compact _ h =>
    obtain ⟨range, hv⟩ := verifies_of_no_start (E := E) ds call (h.no_start hn)
    exact absurd hv (hno range)
  | littered _ h more =>
    exact .stuck hgc hn (stuck_of_not_verifies (h.next n hn) hno) (List.Subset.trans h.top.subset hg.good)
      (hmore more)
  | stuck _ hm hst hsub more =>
    obtain rfl := Option.some.inj (hm.symm.trans hn)
    exact .stuck hgc hn (hst.grown hg) (List.Subset.trans hsub hg.good) (hmore more)

end Write

theorem Watched.current {items : List Item} {s : SeqState E.kept} {litter : Bool}
    (h : Watched items s litter) (hgc : s.needsGc = true) : Current items s := by
  cases h with
  | due _ h => exact h
  | compact hno _ | littered hno _ _ | stuck hno _ _ _ _ =>
    exact absurd (hno.symm.trans hgc) Bool.false_ne_true

/-- More is stored than the records. -/
theorem not_onlyLive {items : List Item}
    (more : (segments (validRecords E items)).length < items.length) : ¬ OnlyLive E items items := by
  intro hlive
  obtain ⟨ks, hks, _, hitems⟩ := hlive
  have hle : (segments ks).length ≤ (segments (validRecords E items)).length :=
    (hks.map Frame.seg).flatten.length_le
  rw [← hitems] at hle
  omega

theorem Watched.onlyLive_iff {items : List Item} {s : SeqState E.kept} {litter : Bool}
    (h : Watched items s litter) (hgc : s.needsGc = false) :
    OnlyLive E items items ↔ litter = false := by
  cases h with
  | due hdue _ => exact absurd (hgc.symm.trans hdue) Bool.false_ne_true
  | compact _ h => exact iff_of_true ⟨_, List.Sublist.refl _, .self h.few, h.stored⟩ rfl
  | littered _ _ more | stuck _ _ _ _ more => exact iff_of_false (not_onlyLive more) Bool.noConfusion

/-- What is known of the storage and the cache. -/
def Littered.Watched (t : Littered E) : Prop :=
  CfgNoodle.Watched t.device.world.items t.device.world.seqState t.litter

theorem Littered.watched_write_iff {t : Littered E} {bufLen : Nat} {fs : Faults E.Err}
    {r : EStateM.Result (Stop E.Err) (World E) ProcessWriteCounters}
    (hx : processWrites bufLen (t.device.writing fs) = r) :
    (t.call (.processWrites bufLen fs)).Watched ↔
      CfgNoodle.Watched (World.after r).items (World.after r).seqState
        (t.litter || (!returnedOk r && (endState r).items.length != t.device.world.items.length)) := by
  subst hx
  rfl

/-- A call that returns an error is not cut off. -/
theorem World.after_error {α : Type} {w : World E} {e : Stop E.Err} (h : e ≠ .cut) :
    World.after (.error e w : EStateM.Result (Stop E.Err) (World E) α) = w := by
  cases e with
  | cut => exact absurd rfl h
  | error _ | ub => rfl

theorem Littered.Watched.write {t : Littered E} (h : t.Watched) {bufLen : Nat} {fs : Faults E.Err}
    (hc : OnlyPushesFail fs) : (t.call (.processWrites bufLen fs)).Watched := by
  rcases (processWrites_spec bufLen (t.device.writing fs)).cases with ⟨a, w', hx, hq⟩ | ⟨e, w', hx, hr⟩
  · rw [watched_write_iff hx]
    simp only [returnedOk, Bool.not_true, Bool.false_and, Bool.or_false]
    rcases hq with ⟨_, rfl⟩ | ⟨n, range, f, hdue, _, _, hv, rfl⟩
    · exact h
    · exact h.verified (writeDue_clean hdue) (writeDue_nextSeq hdue) hv t.litter
  · rw [watched_write_iff hx]
    simp only [returnedOk, endState, Bool.not_false, Bool.true_and]
    rcases hr with ⟨_, _, rfl, rfl⟩ | ⟨n, f, hdue, _, ⟨hstop, part, hpart, _, rfl⟩ | ⟨_, hstop, rfl⟩⟩
    · show CfgNoodle.Watched t.device.world.items t.device.world.seqState
        (t.litter || t.device.world.items.length != t.device.world.items.length)
      rw [bne_self_eq_false, Bool.or_false]
      exact h
    · have hne : e ≠ .cut := by
        rintro rfl
        exact hstop.elim hc.returns (writeDatas_ne_cut _ _ _)
      rw [World.after_error hne]
      refine h.partly (writeDue_clean hdue) ?_
      exact (validRecords_append_partly _ hpart).resolve_right fun hw => hc.tear _ hw.1 rfl
    · -- no read fails, so that the record was not found
      obtain ⟨hve, hno⟩ := hstop.resolve_left (hc.reads e)
      have hne : e ≠ .cut := by
        rintro rfl
        rcases hve with hve | hve <;> cases hve
      rw [World.after_error hne]
      exact h.unverified (writeDue_clean hdue) (writeDue_nextSeq hdue) hno

theorem Littered.Watched.call {t : Littered E} (h : t.Watched) {c : Call E}
    (hc : PushesFail t.device c) : (t.call c).Watched := by
  cases c with
  | nodes list cells => exact h
  | resetCache => exact hc.elim
  | powerLoss => exact hc.elim
  | processReads fs =>
    obtain ⟨hf, hn⟩ := hc
    rcases (processReads_spec (w := t.device.world.withFaults fs) h.spanned.located).cases with
      ⟨a, w', hx, _, _, rfl⟩ | ⟨e, w', _, hb, _⟩
    · unfold Littered.Watched Littered.call
      rw [Device.call_processReads hx]
      show CfgNoodle.Watched t.device.world.items
        (populate E t.device.world.items t.device.world.seqState) t.litter
      rw [populate_of_completed]
      · exact h
      · exact Option.isSome_iff_ne_none.mpr hn
    · exact absurd hb (not_broke_of_not_canStop hf)
  | processWrites bufLen fs => exact h.write hc
  | processGarbage fs =>
    rcases (processGarbage_spec (t.device.world.withFaults fs)).cases with
      ⟨a, w', hx, hq⟩ | ⟨e, w', _, _, hstop, _⟩
    · unfold Littered.Watched Littered.call
      rw [Device.call_processGarbage hx]
      rcases hq with ⟨hgc, rfl⟩ | ⟨hgc, f, _, rfl⟩
      · change t.device.world.seqState.needsGc = false at hgc
        dsimp only
        rw [hgc, Bool.not_false, Bool.and_true]
        exact h
      · change t.device.world.seqState.needsGc = true at hgc
        dsimp only
        rw [hgc, Bool.not_true, Bool.and_false]
        exact .compact rfl (h.current hgc).survivors
    · exact absurd hstop (hc e)

theorem watched_reachable {t : Littered E} (ht : (litteredRuns E).Reachable t) : t.Watched := by
  refine ht.invariant ?_ ?_
  · intro t hinit
    obtain ⟨w, c, hnew, hx, hlitter⟩ := hinit
    have hl : Located w.items w.seqState := by
      rw [hnew]
      exact located_new w.items
    obtain ⟨_, _, hw⟩ := (processReads_spec hl).ok hx
    unfold Littered.Watched
    rw [hw, hnew, hlitter]
    exact watched_scan w.items
  · intro t c _ hi hx
    obtain ⟨rfl, hc⟩ := hx
    exact hi.call hc

/-- **A collection leaves only live data exactly if one is due or nothing was left**: in
every state of a run from a complete read of any storage, in which writes may fail at
any push. -/
theorem garbage_leaves_live_data {t : Littered E} (ht : (litteredRuns E).Reachable t)
    {fs : Faults E.Err} (hf : ∀ e, ¬ fs.CanStop e) :
    ∃ c w', processGarbage (t.device.world.withFaults fs) = .ok c w' ∧
      (OnlyLive E t.device.world.items w'.items ↔
        t.device.world.seqState.needsGc = true ∨ t.litter = false) := by
  have h := watched_reachable ht
  rcases (processGarbage_spec (t.device.world.withFaults fs)).cases with
    ⟨c, w', hx, ⟨hgc, rfl⟩ | ⟨hgc, f, _, rfl⟩⟩ | ⟨e, w', _, _, hstop, _⟩
  · refine ⟨c, _, hx, ?_⟩
    change t.device.world.seqState.needsGc = false at hgc
    show OnlyLive E t.device.world.items t.device.world.items ↔ _
    rw [h.onlyLive_iff hgc, hgc, or_iff_right Bool.false_ne_true]
  · refine ⟨c, _, hx, ?_⟩
    change t.device.world.seqState.needsGc = true at hgc
    have hcurrent := h.current hgc
    exact iff_of_true ⟨keptRecords t.device.world.seqState t.device.world.items,
      keptRecords_sublist _ _, hcurrent.kept, survivors_eq hcurrent.spanned⟩ (Or.inl hgc)
  · exact absurd hstop (hf e)

/-- A list that has read an empty storage. -/
def readEmpty : Littered twoSettings :=
  ⟨⟨endState (processReads (World.bootWith (E := twoSettings) [] [settingA])), []⟩, false⟩

def tornPush : Faults Unit := ⟨[], [.err () (.torn 3)], []⟩

theorem onlyPushesFail_tornPush : OnlyPushesFail (E := twoSettings) tornPush := by
  refine ⟨fun e h => ?_, fun h => ?_, fun l h hl => ?_⟩
  · obtain ⟨a, ha, _⟩ := h
    cases ha
  · rcases h with ⟨a, ha, _⟩ | ⟨a, ha, hstop⟩ | ⟨a, ha, _⟩
    · cases ha
    · obtain rfl := List.mem_singleton.mp ha
      cases hstop
    · cases ha
  · obtain ⟨a, ha, hleft⟩ := h
    obtain rfl := List.mem_singleton.mp ha
    subst hl
    cases hleft

/-- The first write tears its `Start`. -/
def tornStart : Littered twoSettings :=
  (readEmpty.call (.nodes [settingA] (flushing [] .new).cells)).call (.processWrites 64 tornPush)

/-- The second one stores the record. -/
def retriedWrite : Littered twoSettings := tornStart.call (.processWrites 64 .none)

set_option maxRecDepth 4000 in
theorem reachable_retriedWrite : (litteredRuns twoSettings).Reachable retriedWrite := by
  have h0 : (litteredRuns twoSettings).Reachable readEmpty :=
    .init ⟨World.bootWith [] [settingA], _, rfl, rfl, rfl⟩
  have h1 : (litteredRuns twoSettings).Reachable
      (readEmpty.call (.nodes [settingA] (flushing [] .new).cells)) :=
    .step h0 (l := .nodes [settingA] (flushing [] .new).cells) ⟨rfl, trivial⟩
  have h2 : (litteredRuns twoSettings).Reachable tornStart :=
    .step h1 (l := .processWrites 64 tornPush) ⟨rfl, onlyPushesFail_tornPush⟩
  exact .step h2 (l := .processWrites 64 .none) ⟨rfl, onlyPushesFail_none⟩

/-- The torn element is collected with the record that was stored after it. -/
theorem garbage_leaves_retried : retriedWrite.litter = true ∧ ∃ c w',
    processGarbage (retriedWrite.device.world.withFaults .none) = .ok c w' ∧
      (OnlyLive twoSettings retriedWrite.device.world.items w'.items ↔
        retriedWrite.device.world.seqState.needsGc = true ∨ retriedWrite.litter = false) :=
  ⟨by decide +kernel, garbage_leaves_live_data reachable_retriedWrite Faults.not_canStop_none⟩

/-- The `Start` that a failed first write leaves is not collected. -/
theorem failed_write_not_collected : ∃ c w1 err w2 c' w3,
    processReads (World.bootWith (E := twoSettings) [] [settingA]) = .ok c w1 ∧
      processWrites 64 ((flushing w1.items w1.seqState).withFaults ⟨[], [.ok, .err () .nothing], []⟩) =
        .error (.error err) w2 ∧
      processGarbage (w2.withFaults .none) = .ok c' w3 ∧
      ¬ OnlyLive twoSettings w2.items w3.items := by
  refine ⟨_, _, _, _, _, _, rfl, rfl, rfl, ?_⟩
  intro hlive
  obtain ⟨ks, hks, _, hitems⟩ := hlive
  have hnil : ks = [] := List.sublist_nil.mp hks
  rw [hnil] at hitems
  cases hitems

end CfgNoodle

import CfgNoodle.Calls

/-! # Crash atomicity

Runs from an empty storage in which reads succeed, a failing push stores no
decodable item and power may be lost at any storage operation. A write that was
reported as done is never lost: what a scan then selects is one complete record
of that call or of a later one. -/
namespace CfgNoodle
open Framing Outcome Runs
open scoped List
variable {E : Env}

/-! ## Numbers that cannot be verified -/

/-- The first `Start` with the number begins no valid record, so that no
verification of the number succeeds. -/
def Stuck (E : Env) (items : List Item) (n : NonZeroU32) : Prop :=
  ∃ pre o rest, items = pre ++ o :: rest ∧ (∀ x ∈ pre, x.data ≠ some (.start n)) ∧
    o.data = some (.start n) ∧ ∀ f ∈ validRecords E items, f.start ≠ pre.length

theorem Stuck.grown {items more : List Item} {n : NonZeroU32} (h : Stuck E items n)
    (hg : Grown E items n (items ++ more)) : Stuck E (items ++ more) n := by
  obtain ⟨pre, o, rest, hitems, hpre, ho, hno⟩ := h
  refine ⟨pre, o, rest ++ more, by rw [hitems]; simp, hpre, ho, fun f hf => ?_⟩
  rcases hg with h | ⟨seg, h⟩
  · exact hno f (h ▸ hf)
  · rw [h, List.mem_append, List.mem_singleton] at hf
    rcases hf with hf | rfl
    · exact hno f hf
    · rw [hitems]
      simp

/-- A valid record is cut off where its `Start` stands. -/
theorem record_split {items : List Item} {f : Record} (hf : f ∈ validRecords E items) :
    ∃ o rest, items = items.take f.start ++ o :: rest ∧ o.data = some (.start f.key) := by
  obtain ⟨pre, post, hs, hk, hitems⟩ := (mem_frames _).mp hf
  obtain ⟨o, bs, c, hseg, ho, _⟩ := IsRecord.elim hk
  refine ⟨o, bs ++ [c] ++ post, ?_, ho⟩
  rw [hs, hitems, List.append_assoc, List.take_left, hseg]
  simp

theorem Stuck.not_verifies {items : List Item} {rpt : WriteReport} {range : RangeInclusive}
    (h : Stuck E items rpt.seq) : ¬ Verifies E rpt items range := by
  intro hv
  obtain ⟨f, hf, hkey, hno, _⟩ := hv.frame
  obtain ⟨o', rest', hsplit, ho'⟩ := record_split hf
  obtain ⟨pre, o, rest, hitems, hpre, ho, hstart⟩ := h
  have hpre' := (first_start_unique (hitems.symm.trans hsplit) hpre hno ho (hkey ▸ ho')).1
  refine hstart f hf ?_
  rw [hpre', List.length_take]
  obtain ⟨pre', post, hs, _, he⟩ := (mem_frames _).mp hf
  have := congrArg List.length he
  simp only [List.length_append] at this
  omega

/-- A verification that fails although every valid record has a lower number
leaves the number stuck. -/
theorem stuck_of_not_verifies {items : List Item} {n : NonZeroU32} {ds : List SerData} {call : Nat}
    (hlt : ∀ f ∈ validRecords E items, f.key.get < n.get)
    (hno : ∀ range, ¬ Verifies E ⟨n, E.crc (crcBytes ds), ds.length, 0⟩
      (items ++ recordItems E n ds call) range) :
    Stuck E (items ++ recordItems E n ds call) n := by
  have hsome : ∃ x ∈ items, x.data = some (.start n) := by
    by_contra hall
    obtain ⟨range, hv⟩ := verifies_of_no_start (E := E) ds call fun x hx h => hall ⟨x, hx, h⟩
    exact hno range hv
  obtain ⟨o, hfind⟩ : ∃ o, items.find? (fun x => x.data = some (.start n)) = some o := by
    obtain ⟨x, hx, hd⟩ := hsome
    exact Option.isSome_iff_exists.mp (List.find?_isSome.mpr ⟨x, hx, by simpa using hd⟩)
  obtain ⟨ho, pre, rest, hitems, hpre⟩ := List.find?_eq_some_iff_append.mp hfind
  have ho : o.data = some (.start n) := by simpa using ho
  have hpre : ∀ x ∈ pre, x.data ≠ some (.start n) := fun x hx => by simpa using hpre x hx
  refine Stuck.grown ⟨pre, o, rest, hitems, hpre, ho, fun f hf hs => ?_⟩ (grown_record _ _ _ _)
  -- a record that began there would have the number itself
  obtain ⟨o', rest', hsplit, ho'⟩ := record_split hf
  rw [hs, hitems, List.take_left] at hsplit
  obtain ⟨rfl, _⟩ := List.cons.inj (List.append_cancel_left hsplit)
  have hkey : n = f.key := Elem.start.inj (Option.some.inj (ho.symm.trans ho'))
  exact Nat.lt_irrefl _ (hkey ▸ hlt f hf)

/-! ## The cache in such runs -/

/-- Reads succeed or power is lost at them. -/
def NoReadError (fs : Faults E.Err) : Prop := ∀ a ∈ fs.reads, ∀ x, a ≠ .err x

/-- In addition, a push that does not return `Ok` leaves nothing or an
undecodable item. -/
structure CrashFaults (fs : Faults E.Err) : Prop where
  reads : NoReadError fs
  pushes : PushesTear fs

/-- The steps of the runs: all valid records keep numbers below the last one. -/
def Crashing (_ : Device E) (c : Call E) (d' : Device E) : Prop :=
  (match c with
    | .processReads fs | .processWrites _ fs | .processGarbage fs => CrashFaults fs
    | _ => True) ∧
  ∀ f ∈ validRecords E d'.world.items, f.key.get < NonZeroU32.MAX

/-- The cache covers just valid records, is empty unless it knows the next
number, and that number is new or stuck. -/
structure Fresh (items : List Item) (s : SeqState E.kept) : Prop where
  covers : Covers items s
  spanned : Spanned items s
  exact : s.needsGc = false → s.records ⊆ goodRecords E items
  unset : s.nextSeq = none → s = .new
  next : ∀ n, s.nextSeq = some n → Stuck E items n ∨ ∀ f ∈ validRecords E items, f.key.get < n.get

theorem fresh_new (items : List Item) : Fresh (E := E) items .new :=
  ⟨covers_new items, spanned_new items, fun _ => by simp, fun _ => rfl, nofun⟩

theorem fresh_scan {items : List Item}
    (hmax : ∀ f ∈ validRecords E items, f.key.get < NonZeroU32.MAX) :
    Fresh items (SeqState.scan E items) :=
  ⟨covers_scan items, spanned_scan items, fun _ => (scan_isTop items).subset,
    fun h => absurd h (scan_nextSeq_ne_none hmax), fun _ hn => Or.inr (scan_nextSeq_above hn)⟩

/-- The cache after a collection. -/
theorem fresh_scan_clean {items : List Item}
    (hmax : ∀ f ∈ validRecords E items, f.key.get < NonZeroU32.MAX) :
    Fresh items (SeqState.scan E items).clean := by
  have h := fresh_scan hmax
  have hn := scan_nextSeq_ne_none hmax
  exact ⟨⟨h.covers.located, h.covers.sorted, fun h => absurd h hn, h.covers.above, nofun⟩,
    h.spanned, fun _ => (scan_isTop items).subset, fun h => absurd h hn, h.next⟩

theorem Fresh.populate {items : List Item} {s : SeqState E.kept} (h : Fresh items s)
    (hmax : ∀ f ∈ validRecords E items, f.key.get < NonZeroU32.MAX) :
    Fresh items (CfgNoodle.populate E items s) := by
  cases hn : s.nextSeq with
  | none =>
    rw [h.unset hn, populate_new]
    exact fresh_scan hmax
  | some n =>
    rw [populate_of_nextSeq hn]
    exact h

theorem Grown.good {items items' : List Item} {n : NonZeroU32} (h : Grown E items n items') :
    goodRecords E items ⊆ goodRecords E items' := by
  intro r hr
  obtain ⟨f, hf, rfl⟩ := List.mem_map.mp hr
  exact List.mem_map_of_mem (h.subset hf)

/-- The cache after a write that failed. -/
theorem Fresh.grown {items more : List Item} {s : SeqState E.kept} {n : NonZeroU32}
    (h : Fresh items s) (hn : s.nextSeq = some n) (hgc : s.needsGc = false)
    (hg : Grown E items n (items ++ more))
    (hnext : Stuck E (items ++ more) n ∨ ∀ f ∈ validRecords E (items ++ more), f.key.get < n.get) :
    Fresh (items ++ more) s := by
  have hexact : s.records ⊆ goodRecords E (items ++ more) :=
    List.Subset.trans (h.exact hgc) hg.good
  refine ⟨h.covers.grown hn hgc hg, spanned_of_exact hexact, fun _ => hexact, h.unset, fun m hm => ?_⟩
  obtain rfl := Option.some.inj (hn.symm.trans hm)
  exact hnext

/-- The entry that a verification adds covers just the new record. -/
theorem spanned_written {items : List Item} {s : SeqState E.kept} (h : s.records ⊆ goodRecords E items)
    (n : NonZeroU32) (ds : List SerData) (call : Nat) :
    Spanned (items ++ recordItems E n ds call) (s.insertGood E.sorter
      ⟨n, items.length, items.length + (recordItems E n ds call).length⟩) := by
  intro r hr
  rcases SeqState.mem_insertGood E.sorter hr with rfl | hr
  · refine ⟨⟨n, items.length, recordItems E n ds call⟩, ⟨?_, rfl, rfl, Nat.le_succ _⟩,
      Or.inr ⟨rfl, by rw [List.length_append]; rfl⟩⟩
    rw [validRecords_append_record]
    simp
  · obtain ⟨f, hf, rfl⟩ := List.mem_map.mp (h hr)
    exact ⟨f, spans_goodOf ((grown_record items n ds call).subset hf)⟩

/-- The cache after a write that was verified. -/
theorem Fresh.written {items : List Item} {s : SeqState E.kept} {n : NonZeroU32} {ds : List SerData}
    {call : Nat} {range : RangeInclusive} (h : Fresh items s) (hn : s.nextSeq = some n)
    (hgc : s.needsGc = false)
    (hv : Verifies E ⟨n, E.crc (crcBytes ds), ds.length, 0⟩ (items ++ recordItems E n ds call) range)
    (hmax : ∀ f ∈ validRecords E (items ++ recordItems E n ds call), f.key.get < NonZeroU32.MAX) :
    (∀ f ∈ validRecords E items, f.key.get < n.get) ∧
      Fresh (items ++ recordItems E n ds call) (s.insertGood E.sorter ⟨n, range⟩) := by
  have hg := grown_record (E := E) items n ds call
  have hlt : ∀ f ∈ validRecords E items, f.key.get < n.get := by
    rcases h.next n hn with hst | hlt
    · exact absurd hv (hst.grown hg).not_verifies
    · exact hlt
  have hcov := h.covers.written (r := ⟨n, E.crc (crcBytes ds), ds.length, 0⟩) hn hg hv
  have hmem := mem_insertGood_of_above (r := ⟨n, range⟩) (h.covers.above n hn).2
  have hgc' := (inserted_of_above (r := ⟨n, range⟩) (h.covers.above n hn).2).needsGc
  obtain ⟨_, rfl⟩ := hv.new_record rfl fun f hf he => Nat.lt_irrefl _ (he ▸ hlt f hf)
  refine ⟨hlt, hcov, spanned_written (h.exact hgc) n ds call, fun hno => ?_, fun hnone => ?_,
    fun m hm => Or.inr fun f hf => ?_⟩
  · rw [hgc'] at hno; cases hno
  · rcases hcov.unset hnone with ⟨hnil, _⟩ | ⟨r, hr, hrmax⟩
    · rw [hnil] at hmem; cases hmem
    · obtain ⟨f, hf⟩ := hcov.located r hr
      have := hmax f hf.mem
      rw [← hf.seq] at this
      exact absurd hrmax (Nat.ne_of_lt this)
  · have h1 := hg.le (fun f hf => Nat.le_of_lt (hlt f hf)) f hf
    have h2 : n.get < m.get := (hcov.above m hm).2 _ hmem
    omega

/-! ## What the calls have pushed -/

/-- Every valid record was pushed by one call, and after a call that was reported
as done some record is above all that earlier calls had pushed. -/
structure Logged (E : Env) (items : List Item) (log : List WriteCall) : Prop where
  pushed : ∀ p ∈ contents (recordGrammar E.crc) items,
    ∃ c ok, (∀ x ∈ p.2, x.call = c) ∧ log[c]? = some ⟨p.2, ok⟩
  done : ∀ c seg, log[c]? = some ⟨seg, true⟩ → seg ≠ [] →
    ∃ n, (∀ p ∈ contents (recordGrammar E.crc) items, ∀ x ∈ p.2, x.call < c → contentKey p < n) ∧
      ∃ p ∈ contents (recordGrammar E.crc) items, n ≤ contentKey p

/-- A collection that keeps a greatest record. -/
theorem Logged.collected {items items' : List Item} {log : List WriteCall} (h : Logged E items log)
    (hsub : contents (recordGrammar E.crc) items' <+ contents (recordGrammar E.crc) items)
    (hmax : ∀ p ∈ contents (recordGrammar E.crc) items,
      ∃ q ∈ contents (recordGrammar E.crc) items', contentKey p ≤ contentKey q) :
    Logged E items' log := by
  refine ⟨fun p hp => h.pushed p (hsub.subset hp), fun c seg hc hne => ?_⟩
  obtain ⟨n, hlt, p, hp, hle⟩ := h.done c seg hc hne
  obtain ⟨q, hq, hpq⟩ := hmax p hp
  exact ⟨n, fun p hp => hlt p (hsub.subset hp), q, hq, hle.trans hpq⟩

theorem getElem?_concat {α : Type} {l : List α} {a b : α} {c : Nat} (h : (l ++ [a])[c]? = some b) :
    l[c]? = some b ∨ c = l.length ∧ b = a := by
  rcases Nat.lt_trichotomy c l.length with hlt | rfl | hgt
  · rw [List.getElem?_append_left hlt] at h
    exact Or.inl h
  · rw [List.getElem?_append_right (Nat.le_refl _), Nat.sub_self] at h
    exact Or.inr ⟨rfl, (Option.some.inj h).symm⟩
  · rw [List.getElem?_append_right (Nat.le_of_lt hgt), List.getElem?_eq_none (by simp; omega)] at h
    cases h

theorem getElem?_concat_of_some {α : Type} {l : List α} {a b : α} {c : Nat} (h : l[c]? = some b) :
    (l ++ [a])[c]? = some b := by
  rw [List.getElem?_append_left (List.getElem?_eq_some_iff.mp h).1, h]

theorem contents_eq_of_validRecords {items items' : List Item}
    (h : validRecords E items' = validRecords E items) :
    contents (recordGrammar E.crc) items' = contents (recordGrammar E.crc) items :=
  congrArg (List.map fun f : Record => (f.key, f.seg)) h

/-- A call that added no valid record and did not both push and return `Ok`. -/
theorem Logged.quiet {items items' : List Item} {log : List WriteCall} (h : Logged E items log)
    (hv : contents (recordGrammar E.crc) items' = contents (recordGrammar E.crc) items)
    {wc : WriteCall} (hwc : wc.ok = true → wc.pushed = []) : Logged E items' (log ++ [wc]) := by
  constructor
  · intro p hp
    obtain ⟨c, ok, hcall, hc⟩ := h.pushed p (hv ▸ hp)
    exact ⟨c, ok, hcall, getElem?_concat_of_some hc⟩
  · intro c seg hc hne
    rcases getElem?_concat hc with hc | ⟨_, rfl⟩
    · rw [hv]
      exact h.done c seg hc hne
    · exact absurd (hwc rfl) hne

/-- A call that pushed a record. -/
theorem Logged.record {items : List Item} {log : List WriteCall} (h : Logged E items log)
    {n : NonZeroU32} {ds : List SerData} {pushed : List Item} {ok : Bool}
    (hp : pushed = recordItems E n ds log.length)
    (hok : ok = true → ∀ f ∈ validRecords E items, f.key.get < n.get) :
    Logged E (items ++ recordItems E n ds log.length) (log ++ [⟨pushed, ok⟩]) := by
  subst hp
  have hcall : ∀ x ∈ recordItems E n ds log.length, x.call = log.length := by
    intro x hx
    obtain ⟨e, _, rfl⟩ := List.mem_map.mp hx
    rfl
  have hcont : contents (recordGrammar E.crc) (items ++ recordItems E n ds log.length) =
      contents (recordGrammar E.crc) items ++ [(n, recordItems E n ds log.length)] := by
    show (validRecords E _).map _ = _
    rw [validRecords_append_record, List.map_append]
    rfl
  constructor
  · intro p hp
    rw [hcont, List.mem_append, List.mem_singleton] at hp
    rcases hp with hp | rfl
    · obtain ⟨c, ok, hc, hl⟩ := h.pushed p hp
      exact ⟨c, ok, hc, getElem?_concat_of_some hl⟩
    · exact ⟨log.length, ok, hcall, List.getElem?_concat_length⟩
  · intro c seg hc hne
    rcases getElem?_concat hc with hc | ⟨rfl, heq⟩
    · obtain ⟨k, hlt, p, hp, hle⟩ := h.done c seg hc hne
      refine ⟨k, fun p hp x hx hxc => ?_, p, ?_, hle⟩
      · rw [hcont, List.mem_append, List.mem_singleton] at hp
        rcases hp with hp | rfl
        · exact hlt p hp x hx hxc
        · -- the new record belongs to no earlier call
          have := (List.getElem?_eq_some_iff.mp hc).1
          rw [hcall x hx] at hxc
          omega
      · rw [hcont]
        exact List.mem_append_left _ hp
    · obtain rfl : ok = true := (congrArg WriteCall.ok heq).symm
      refine ⟨n.get, fun p hp x hx hxc => ?_, (n, recordItems E n ds log.length), ?_, Nat.le_refl _⟩
      · rw [hcont, List.mem_append, List.mem_singleton] at hp
        rcases hp with hp | rfl
        · obtain ⟨f, hf, rfl⟩ := mem_contents.mp hp
          exact hok rfl f hf
        · rw [hcall x hx] at hxc
          exact absurd hxc (Nat.lt_irrefl _)
      · rw [hcont]; simp

/-! ## Every call preserves both -/

theorem NoReadError.cut_of_stop {fs : Faults E.Err} (h : NoReadError fs) {a : ReadAnswer E.Err}
    (ha : a ∈ fs.reads) {f : E.Err → LoadStoreError E.Err} {e : Stop E.Err} (he : a.stop f = some e) :
    e = .cut := by
  cases a with
  | ok => cases he
  | err x => exact absurd rfl (h _ ha x)
  | cut => exact (Option.some.inj he).symm

theorem NoReadError.cut_of_broke {fs : Faults E.Err} (h : NoReadError fs) {e : Stop E.Err}
    (hb : Broke fs.reads e) : e = .cut := by
  obtain ⟨n, f, rest, a, ha, he⟩ := hb
  exact h.cut_of_stop (by rw [ha]; simp) he

theorem NoReadError.cut_of_drop {fs : Faults E.Err} (h : NoReadError fs) {n q : Nat}
    {f : E.Err → LoadStoreError E.Err} {e : Stop E.Err} {rest : List (ReadAnswer E.Err)}
    (hs : ReadsStop (fs.reads.drop n) q f e rest) : e = .cut := by
  obtain ⟨a, ha, he⟩ := hs
  exact h.cut_of_stop (List.mem_of_mem_drop (i := n) (by rw [ha]; simp)) he

/-- What holds in every state of such a run. -/
structure CrashInv (d : Device E) : Prop where
  below : ∀ f ∈ validRecords E d.world.items, f.key.get < NonZeroU32.MAX
  fresh : Fresh d.world.items d.world.seqState
  logged : Logged E d.world.items d.log

theorem Fresh.stopped {w : World E} {e : Stop E.Err} (h : e ≠ .cut → Fresh w.items w.seqState) :
    Fresh (w.stopped e).items (w.stopped e).seqState := by
  cases e with
  | error e => exact h nofun
  | cut => exact fresh_new _
  | ub => exact h nofun

theorem CrashInv.processReads {d : Device E} (h : CrashInv d) {fs : Faults E.Err}
    (hf : CrashFaults fs) : CrashInv (d.call (.processReads fs)) := by
  rcases (processReads_spec (w := d.world.withFaults fs) h.fresh.covers.located).cases with
    ⟨a, w', hx, _, _, rfl⟩ | ⟨e, w', hx, hb, r, hr⟩
  · rw [Device.call_processReads hx]
    exact ⟨h.below, h.fresh.populate h.below, h.logged⟩
  · -- the reads succeed, so that only a power loss can stop the call
    obtain rfl := hf.reads.cut_of_broke hb
    have hitems : w'.items = d.world.items := by
      rcases hr with ⟨_, q, _, _, rfl⟩ | ⟨ds, _, _, rfl⟩
      · rfl
      · rfl
    rw [Device.call_processReads hx]
    refine ⟨?_, fresh_new _, ?_⟩
    · show ∀ f ∈ validRecords E w'.items, _
      rw [hitems]
      exact h.below
    · show Logged E w'.items _
      rw [hitems]
      exact h.logged

theorem CrashInv.processWrites {d : Device E} (h : CrashInv d) {bufLen : Nat} {fs : Faults E.Err}
    (hf : CrashFaults fs) (hmax : ∀ f ∈ validRecords E (d.call (.processWrites bufLen fs)).world.items,
      f.key.get < NonZeroU32.MAX) : CrashInv (d.call (.processWrites bufLen fs)) := by
  rcases (processWrites_spec bufLen (d.writing fs)).cases with ⟨a, w', hx, hq⟩ | ⟨e, w', hx, hr⟩
  · rw [Device.call_processWrites hx] at hmax ⊢
    rcases hq with ⟨_, rfl⟩ | ⟨n, range, f, hdue, _, _, hv, rfl⟩
    · exact ⟨hmax, h.fresh, h.logged.quiet rfl fun _ => List.drop_length⟩
    · obtain ⟨hlt, hfresh⟩ := h.fresh.written (writeDue_nextSeq hdue) (writeDue_clean hdue) hv hmax
      exact ⟨hmax, hfresh, h.logged.record List.drop_left fun _ => hlt⟩
  · rw [Device.call_processWrites hx] at hmax ⊢
    rcases hr with ⟨_, _, rfl, rfl⟩ | ⟨n, f, hdue, _, hr⟩
    · exact ⟨hmax, h.fresh, h.logged.quiet rfl nofun⟩
    · have hn := writeDue_nextSeq hdue
      have hgc := writeDue_clean hdue
      rcases hr with ⟨_, part, hpart, _, rfl⟩ | ⟨_, hc, rfl⟩
      · -- a part of the record is no valid record
        have hvalid : validRecords E (d.world.items ++ part) = validRecords E d.world.items := by
          rcases validRecords_append_partly d.world.items hpart with hv | ⟨hl, _⟩
          · exact hv
          · exact absurd rfl (hf.pushes _ hl)
        have hg : Grown E d.world.items n (d.world.items ++ part) := Or.inl hvalid
        refine ⟨hmax, Fresh.stopped fun _ => h.fresh.grown hn hgc hg ?_, ?_⟩
        · exact (h.fresh.next n hn).imp (fun hs => hs.grown hg) fun hlt => hvalid ▸ hlt
        · show Logged E (World.stopped _ e).items _
          rw [World.stopped_items]
          exact h.logged.quiet (contents_eq_of_validRecords hvalid) nofun
      · have hg := grown_record (E := E) d.world.items n ((d.writing fs).toWrite bufLen) d.log.length
        refine ⟨hmax, Fresh.stopped fun hne => h.fresh.grown hn hgc hg (Or.inl ?_), ?_⟩
        · rcases hc with ⟨a, ha, he⟩ | ⟨_, hno⟩
          · exact absurd (hf.reads.cut_of_stop ha he) hne
          · rcases h.fresh.next n hn with hs | hlt
            · exact hs.grown hg
            · exact stuck_of_not_verifies hlt hno
        · show Logged E (World.stopped _ e).items _
          rw [World.stopped_items]
          exact h.logged.record List.drop_left nofun

/-- What a collection leaves still has a greatest record. -/
theorem Fresh.keeps_greatest {items : List Item} {cur : SeqState E.kept} (h : Fresh items cur)
    (hgc : cur.needsGc = true) (p : Nat) : ∀ q ∈ contents (recordGrammar E.crc) items,
      ∃ q' ∈ contents (recordGrammar E.crc) (collected cur p items), contentKey q ≤ contentKey q' := by
  intro q hq
  obtain ⟨r, hr, hle⟩ := h.covers.greatest hgc
  obtain ⟨g, hg⟩ := h.spanned r hr
  obtain ⟨f, hf, rfl⟩ := mem_contents.mp hq
  refine ⟨(g.key, g.seg), (contents_collected h.spanned p).2.subset (List.mem_map.mpr ⟨g, ?_, rfl⟩), ?_⟩
  · exact (mem_keptRecords h.covers.located).mpr ⟨r, hr, hg.toPoints⟩
  · exact (hle f hf).trans (Nat.le_of_eq (congrArg NonZeroU32.get hg.seq))

theorem CrashInv.collected {d : Device E} (h : CrashInv d) (hgc : d.world.seqState.needsGc = true)
    (p : Nat) : (∀ f ∈ validRecords E (collected d.world.seqState p d.world.items),
        f.key.get < NonZeroU32.MAX) ∧
      Logged E (CfgNoodle.collected d.world.seqState p d.world.items) d.log := by
  have hsub := (contents_collected h.fresh.spanned p).1
  constructor
  · intro f hf
    obtain ⟨g, hg, heq⟩ := mem_contents.mp (hsub.subset (mem_contents.mpr ⟨f, hf, rfl⟩))
    have hkey : g.key = f.key := congrArg Prod.fst heq
    exact hkey ▸ h.below g hg
  · exact h.logged.collected hsub (h.fresh.keeps_greatest hgc p)

theorem CrashInv.processGarbage {d : Device E} (h : CrashInv d) {fs : Faults E.Err}
    (hf : CrashFaults fs) : CrashInv (d.call (.processGarbage fs)) := by
  rcases (processGarbage_spec (d.world.withFaults fs)).cases with ⟨a, w', hx, hq⟩ | ⟨e, w', hx, hr⟩
  · rw [Device.call_processGarbage hx]
    rcases hq with ⟨_, rfl⟩ | ⟨hgc, f, _, rfl⟩
    · exact ⟨h.below, h.fresh, h.logged⟩
    · obtain ⟨hbelow, hlog⟩ := h.collected hgc d.world.items.length
      rw [collected_length] at hbelow hlog
      exact ⟨hbelow, fresh_scan_clean hbelow, hlog⟩
  · rw [Device.call_processGarbage hx]
    obtain ⟨hgc, _, f, _, ⟨p, rfl⟩ | ⟨q, rest, _, hs, rfl⟩⟩ := hr
    · obtain ⟨hbelow, hlog⟩ := h.collected hgc p
      refine ⟨?_, Fresh.stopped fun _ => fresh_new _, ?_⟩
      · show ∀ f ∈ validRecords E (World.stopped _ e).items, _
        rw [World.stopped_items]
        exact hbelow
      · show Logged E (World.stopped _ e).items _
        rw [World.stopped_items]
        exact hlog
    · -- only a power loss can stop the second scan
      obtain rfl := hf.reads.cut_of_drop hs
      obtain ⟨hbelow, hlog⟩ := h.collected hgc d.world.items.length
      rw [collected_length] at hbelow hlog
      exact ⟨hbelow, fresh_new _, hlog⟩

theorem CrashInv.call {d : Device E} (h : CrashInv d) {c : Call E} (hc : Crashing d c (d.call c)) :
    CrashInv (d.call c) := by
  obtain ⟨hf, hmax⟩ := hc
  cases c with
  | nodes list cells => exact ⟨h.below, h.fresh, h.logged⟩
  | processReads fs => exact h.processReads hf
  | processWrites bufLen fs => exact h.processWrites hf hmax
  | processGarbage fs => exact h.processGarbage hf
  | resetCache => exact ⟨h.below, fresh_new _, h.logged⟩
  | powerLoss => exact ⟨h.below, fresh_new _, h.logged⟩

/-- A list that has just booted on an empty storage. -/
def BootedEmpty (d : Device E) : Prop := d = ⟨World.boot [], []⟩

theorem crashInv_reachable {d : Device E}
    (h : ((calls E BootedEmpty).restrict Crashing).Reachable d) : CrashInv d := by
  refine h.invariant ?_ ?_
  · intro d hd
    obtain rfl := hd
    exact ⟨by simp [World.boot, validRecords, frames, framesFrom], fresh_new _,
      by simp [World.boot, contents, frames, framesFrom], by simp⟩
  · intro d c d' hi hstep
    obtain ⟨rfl, hc⟩ := hstep
    exact hi.call hc

/-! ## The record that a scan selects -/

/-- **Crash atomicity**: once a call of `process_writes` has pushed something and
returned `Ok`, a fresh scan selects one complete record, which is all that one
call has pushed: that call or a later one. -/
theorem latest_record_not_older {d : Device E}
    (hd : ((calls E BootedEmpty).restrict Crashing).Reachable d) {c : Nat} {pushed : List Item}
    (hok : d.log[c]? = some ⟨pushed, true⟩) (hne : pushed ≠ []) :
    ∃ k seg c' ok, latestRecord E d.world.items = some (k, seg) ∧ IsRecord E k seg ∧ c ≤ c' ∧
      d.log[c']? = some ⟨seg, ok⟩ ∧ ∀ x ∈ seg, x.call = c' := by
  have hi := crashInv_reachable hd
  obtain ⟨n, hlt, p, hp, hle⟩ := hi.logged.done c pushed hok hne
  obtain ⟨g, hg, rfl⟩ := mem_contents.mp hp
  rcases scan_cases (E := E) d.world.items with ⟨hnil, _⟩ | ⟨r, hr⟩
  · have : goodOf g ∈ goodRecords E d.world.items := List.mem_map_of_mem hg
    rw [hnil] at this; cases this
  · obtain ⟨f, hf, rfl⟩ := List.mem_map.mp hr.mem
    have hmax : g.key.get ≤ f.key.get := hr.max (goodOf g) (List.mem_map_of_mem hg)
    have hfc := mem_contents.mpr ⟨f, hf, rfl⟩
    obtain ⟨c', ok, hcall, hl⟩ := hi.logged.pushed _ hfc
    obtain ⟨_, _, _, hk, _⟩ := (mem_frames _).mp hf
    refine ⟨f.key, f.seg, c', ok, ?_, hk, ?_, hl, hcall⟩
    · simp only [latestRecord]
      rw [hr.highest]
      exact congrArg some (congrArg (Prod.mk f.key) (slice_goodOf hf))
    · by_contra hcc
      obtain ⟨x, hx⟩ := List.exists_mem_of_ne_nil _ hk.ne_nil
      have h1 := hlt _ hfc x hx (by rw [hcall x hx]; omega)
      exact absurd (hle.trans hmax) (Nat.not_le_of_lt h1)

theorem crashFaults_none : CrashFaults (E := E) .none := by
  refine ⟨fun _ ha => absurd ha List.not_mem_nil, fun l hl => ?_⟩
  obtain ⟨_, ha, _⟩ := hl
  exact absurd ha List.not_mem_nil

/-- A list with one node that waits to be written. -/
def waiting : Device twoSettings :=
  (⟨World.boot [], []⟩ : Device twoSettings).call
    (.nodes [settingA] fun _ => ⟨.needsWrite, some (7 : UInt8)⟩)

/-- The same list after its first write. -/
def firstWrite : Device twoSettings :=
  (waiting.call (.processReads .none)).call (.processWrites 64 .none)

/-- The power is lost while the data element of the second write is pushed. -/
def lostPower : Faults Unit := ⟨[], [.ok, .cut (.torn 3)], []⟩

theorem crashFaults_lostPower : CrashFaults (E := twoSettings) lostPower := by
  refine ⟨fun _ ha => absurd ha List.not_mem_nil, fun l hl => ?_⟩
  obtain ⟨a, ha, hleft⟩ := hl
  rintro rfl
  rcases List.mem_cons.mp ha with rfl | ha
  · cases hleft
  · obtain rfl := List.mem_singleton.mp ha
    cases hleft

def writtenAgain : Device twoSettings :=
  (firstWrite.call (.processGarbage .none)).call
    (.nodes [settingA] fun _ => ⟨.needsWrite, some (9 : UInt8)⟩)

def crashedWrite : Device twoSettings := writtenAgain.call (.processWrites 64 lostPower)

/-- The boot after the crash finds the record of the first write. -/
theorem latest_record_crashed_write : crashedWrite.world.items.length = 5 ∧
    ∃ pushed, crashedWrite.log[0]? = some ⟨pushed, true⟩ ∧ pushed ≠ [] ∧
    ∃ k seg c' ok, latestRecord twoSettings crashedWrite.world.items = some (k, seg) ∧
      IsRecord twoSettings k seg ∧ 0 ≤ c' ∧ crashedWrite.log[c']? = some ⟨seg, ok⟩ ∧
      ∀ x ∈ seg, x.call = c' := by
  have hlog : crashedWrite.log[0]? =
      some ⟨recordItems twoSettings NonZeroU32.one [dataA 7] 0, true⟩ := by decide +kernel
  have h1 : ((calls twoSettings BootedEmpty).restrict Crashing).Reachable waiting :=
    .step (.init rfl) ⟨rfl, trivial, by decide +kernel⟩
  have h2 : ((calls twoSettings BootedEmpty).restrict Crashing).Reachable
      (waiting.call (.processReads .none)) := .step h1 ⟨rfl, crashFaults_none, by decide +kernel⟩
  have h3 : ((calls twoSettings BootedEmpty).restrict Crashing).Reachable firstWrite :=
    .step h2 (l := .processWrites 64 .none) ⟨rfl, crashFaults_none, by decide +kernel⟩
  have h4 : ((calls twoSettings BootedEmpty).restrict Crashing).Reachable
      (firstWrite.call (.processGarbage .none)) :=
    .step h3 (l := .processGarbage .none) ⟨rfl, crashFaults_none, by decide +kernel⟩
  have h5 : ((calls twoSettings BootedEmpty).restrict Crashing).Reachable writtenAgain :=
    .step h4 (l := .nodes [settingA] fun _ => ⟨.needsWrite, some (9 : UInt8)⟩)
      ⟨rfl, trivial, by decide +kernel⟩
  have h6 : ((calls twoSettings BootedEmpty).restrict Crashing).Reachable crashedWrite :=
    .step h5 (l := .processWrites 64 lostPower) ⟨rfl, crashFaults_lostPower, by decide +kernel⟩
  refine ⟨by decide +kernel, ?_⟩
  generalize crashedWrite = d at h6 hlog
  exact ⟨_, hlog, by decide, latest_record_not_older h6 hlog (by decide)⟩

end CfgNoodle

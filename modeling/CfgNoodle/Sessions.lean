import CfgNoodle.CleanNodes

/-! # Sessions

Runs in which a call that was stopped leaves the list as it is: its future was
dropped, and the program goes on. Sequence numbers identify the records that
such a session stores, unless a record is stored after one that was not
verified. -/
namespace CfgNoodle
open Framing Outcome Runs
open scoped List
variable {E : Env}

/-! ## The session -/

/-- A call in a session. Only a power loss boots. -/
def World.serve (w : World E) : Call E → World E
  | .nodes list cells => { w with list, cells }
  | .processReads fs => endState (processReads (w.withFaults fs))
  | .processWrites bufLen fs => endState (processWrites bufLen (w.withFaults fs))
  | .processGarbage fs => endState (processGarbage (w.withFaults fs))
  | .resetCache => w.withSeq .new
  | .powerLoss => World.boot w.items

def Item.isEnd (it : Item) : Bool :=
  match it.data with
  | some (.end _ _) => true
  | _ => false

/-- The call pushes the `End` of a record. -/
def pushesEnd (w : World E) : Call E → Bool
  | .processWrites bufLen fs =>
    ((endState (processWrites bufLen (w.withFaults fs))).items.drop w.items.length).any Item.isEnd
  | _ => false

def World.returnsOk (w : World E) : Call E → Bool
  | .processWrites bufLen fs => returnedOk (processWrites bufLen (w.withFaults fs))
  | _ => true

/-- A session with the note that, since the cache was last emptied, a write has
stored a whole record and not returned `Ok`. -/
structure Session (E : Env) where
  world : World E
  unverified : Bool

def Session.call (s : Session E) (c : Call E) : Session E where
  world := s.world.serve c
  unverified :=
    match c with
    | .nodes _ _ | .processReads _ => s.unverified
    | .processWrites _ _ => s.unverified || pushesEnd s.world c && !s.world.returnsOk c
    | .processGarbage _ => s.unverified && !s.world.seqState.needsGc
    | .resetCache | .powerLoss => false

/-- Reads succeed, except for those of the verification. -/
def ReadsSucceed : Call E → Prop
  | .processReads fs | .processGarbage fs => ∀ a ∈ fs.reads, a = .ok
  | _ => True

/-- Sessions that start on an empty storage. -/
def sessions (E : Env) : System (Session E) (Call E) where
  init s := s = ⟨World.boot [], false⟩
  step s c s' := s' = s.call c ∧ ReadsSucceed c

/-- The call stores a whole record after one that was not verified. -/
def Repeats (s : Session E) (c : Call E) : Prop :=
  s.unverified = true ∧ pushesEnd s.world c = true

/-! ## What a write pushes -/

/-- A part of a record that has an `End` is the whole record. -/
theorem isEnd_part {n : NonZeroU32} {ds : List SerData} {es rest : List Elem} {call : Nat}
    (h : es ++ rest = recordElems E n ds)
    (hend : (es.map (stored E call)).any Item.isEnd = true) : rest = [] := by
  rcases List.eq_nil_or_concat rest with hnil | ⟨rest', e, he⟩
  · exact hnil
  · -- the last element is missing, and no other one is an `End`
    exfalso
    rw [he, List.concat_eq_append, ← List.append_assoc] at h
    obtain ⟨hes, _⟩ := List.append_inj' (h.trans (List.cons_append ..).symm) rfl
    obtain ⟨it, hit, hdata⟩ := List.any_eq_true.mp hend
    obtain ⟨e', he', rfl⟩ := List.mem_map.mp hit
    have hmem : e' ∈ Elem.start n :: ds.map Elem.data := hes ▸ List.mem_append_left _ he'
    rcases List.mem_cons.mp hmem with rfl | hmem
    · cases hdata
    · obtain ⟨d, _, rfl⟩ := List.mem_map.mp hmem
      cases hdata

theorem isEnd_recordItems (n : NonZeroU32) (ds : List SerData) (call : Nat) :
    (recordItems E n ds call).any Item.isEnd = true := by
  simp only [recordItems, recordElems]
  simp [stored, Item.isEnd]

/-- What a write left that did not return `Ok` has an `End` only if it is a whole record. -/
theorem Partly.isEnd_iff {fs : Faults E.Err} {call : Nat} {n : NonZeroU32} {ds : List SerData}
    {part : List Item} (h : Partly fs call (recordElems E n ds) part) :
    part.any Item.isEnd = true ↔ part = recordItems E n ds call := by
  refine ⟨fun hend => ?_, fun h => h ▸ isEnd_recordItems n ds call⟩
  cases h with
  | some es rest hne h => exact absurd (isEnd_part h hend) hne
  | torn es rest len hne h =>
    rw [List.any_append, Bool.or_eq_true] at hend
    rcases hend with hend | hend
    · exact absurd (isEnd_part h hend) hne
    · cases hend
  | whole _ es rest h =>
    obtain rfl := isEnd_part h hend
    rw [List.append_nil] at h
    exact congrArg (List.map (stored E call)) h

/-- All that a write can do to the storage and the cache, whether it pushes an
`End` and whether it returns `Ok`. -/
inductive Wrote (w w' : World E) (pushed ok : Bool) : Prop
  | nothing (hi : w'.items = w.items) (hs : w'.seqState = w.seqState) (hp : pushed = false)
  | part {part : List Item} {n : NonZeroU32} (hdue : writeDue w = .ok (some n))
      (hi : w'.items = w.items ++ part) (hs : w'.seqState = w.seqState)
      (hv : validRecords E (w.items ++ part) = validRecords E w.items) (hp : pushed = false)
  | record {n : NonZeroU32} {ds : List SerData} {call : Nat} (hdue : writeDue w = .ok (some n))
      (hi : w'.items = w.items ++ recordItems E n ds call) (hs : w'.seqState = w.seqState)
      (hp : pushed = true) (hok : ok = false)
  | verified {n : NonZeroU32} {ds : List SerData} {call : Nat} {range : RangeInclusive}
      (hdue : writeDue w = .ok (some n)) (hi : w'.items = w.items ++ recordItems E n ds call)
      (hv : Verifies E ⟨n, E.crc (crcBytes ds), ds.length, 0⟩ (w.items ++ recordItems E n ds call) range)
      (hs : w'.seqState = w.seqState.insertGood E.sorter ⟨n, range⟩) (hp : pushed = true)
      (hok : ok = true)

theorem wrote_serve (w : World E) (bufLen : Nat) (fs : Faults E.Err) :
    Wrote w (w.serve (.processWrites bufLen fs)) (pushesEnd w (.processWrites bufLen fs))
      (w.returnsOk (.processWrites bufLen fs)) := by
  have hend : ∀ part : List Item, ((w.items ++ part).drop w.items.length).any Item.isEnd =
      part.any Item.isEnd := fun part => by rw [List.drop_left]
  have hnone : (w.items.drop w.items.length).any Item.isEnd = false := by
    rw [List.drop_length]
    rfl
  show Wrote w (endState (processWrites bufLen (w.withFaults fs)))
    (((endState (processWrites bufLen (w.withFaults fs))).items.drop w.items.length).any Item.isEnd)
    (returnedOk (processWrites bufLen (w.withFaults fs)))
  rcases (processWrites_spec bufLen (w.withFaults fs)).cases with ⟨c, w', hrun, hq⟩ | ⟨e, w', hrun, hq⟩
  · rw [hrun]
    rcases hq with ⟨_, rfl⟩ | ⟨n, range, fs', hdue, _, _, hv, rfl⟩
    · exact .nothing rfl rfl hnone
    · exact .verified hdue rfl hv rfl ((hend _).trans (isEnd_recordItems n _ _)) rfl
  · rw [hrun]
    rcases hq with ⟨_, _, _, rfl⟩ | ⟨n, fs', hdue, _, ⟨_, part, hp, _, rfl⟩ | ⟨_, _, rfl⟩⟩
    · exact .nothing rfl rfl hnone
    · cases hany : part.any Item.isEnd with
      | true =>
        exact .record hdue (congrArg (w.items ++ ·) (hp.isEnd_iff.mp hany)) rfl ((hend part).trans hany)
          rfl
      | false =>
        refine .part hdue rfl rfl ?_ ((hend part).trans hany)
        refine (validRecords_append_partly w.items hp).resolve_right fun h => ?_
        rw [hp.isEnd_iff.mpr h.2] at hany
        cases hany
    · exact .record hdue rfl rfl ((hend _).trans (isEnd_recordItems n _ _)) rfl

/-! ## What a session keeps -/

/-- No two valid records have the same number, and the next number is above them
all unless a record was stored with it and not verified. -/
structure Numbered (items : List Item) (s : SeqState E.kept) (unverified : Bool) : Prop where
  distinct : Distinct E items
  covers : Covers items s
  spanned : Spanned items s
  exact : s.needsGc = false → s.records ⊆ goodRecords E items
  above : unverified = false → ∀ n, s.nextSeq = some n → ∀ f ∈ validRecords E items, f.key.get < n.get
  stored : unverified = true → s.needsGc = false ∧ ∃ n f, s.nextSeq = some n ∧
    f ∈ validRecords E items ∧ f.key = n

theorem numbered_new {items : List Item} (hd : Distinct E items) : Numbered (E := E) items .new false :=
  ⟨hd, covers_new items, spanned_new items,
    fun _ => by rw [SeqState.records_new]; exact nofun, fun _ => nofun,
    nofun⟩

/-- Where a collection is due, a greatest record is cached and the next number is above it. -/
theorem Covers.lt_next {items : List Item} {s : SeqState E.kept} (h : Covers items s)
    (hgc : s.needsGc = true) {n : NonZeroU32} (hn : s.nextSeq = some n) :
    ∀ f ∈ validRecords E items, f.key.get < n.get := by
  intro f hf
  obtain ⟨r, hr, hle⟩ := h.greatest hgc
  exact (hle f hf).trans_lt ((h.above n hn).2 r hr)

theorem Covers.clean_scan (items : List Item) : Covers items (SeqState.scan E items).clean := by
  have hs := covers_scan (E := E) items
  exact ⟨hs.located, hs.sorted, fun hn => (hs.unset hn).imp_left fun h => ⟨h.1, rfl⟩, hs.above, nofun⟩

theorem numbered_scan_clean {items : List Item} (hd : Distinct E items) :
    Numbered items (SeqState.scan E items).clean false :=
  ⟨hd, .clean_scan items, spanned_scan items, fun _ => (scan_isTop items).subset,
    fun _ _ hn => scan_nextSeq_above hn, nofun⟩

/-- A scan that adds nothing to the cache and asks for no collection found nothing. -/
theorem scan_found_nothing {items : List Item} {s : SeqState E.kept} (h : Covers items s)
    (hn : s.nextSeq = none) (he : s.insertAll E.sorter (goodRecords E items) = s)
    {n : NonZeroU32} (hnext : s.finishScan.nextSeq = some n) : validRecords E items = [] := by
  have hrec : s.records = [] := by
    rcases h.sorted.highestSeen with ⟨_, hnil⟩ | ⟨r, hr, _⟩
    · exact hnil
    · rw [finishScan_eq_self hr, hn] at hnext
      cases hnext
  by_contra hne
  obtain ⟨y, hy, _⟩ := SeqState.exists_max_insertAll E.sorter E.kept_pos s
    (show goodRecords E items ++ s.records ≠ [] by
      rw [hrec, List.append_nil]
      exact fun h => hne (goodRecords_eq_nil.mp h))
  rw [he, hrec] at hy
  cases hy

theorem Numbered.populate {items : List Item} {s : SeqState E.kept} {unverified : Bool}
    (h : Numbered items s unverified) :
    Numbered items (CfgNoodle.populate E items s) unverified := by
  cases hn : s.nextSeq with
  | some n =>
    rw [populate_of_nextSeq hn]
    exact h
  | none =>
    have hfree : unverified = false := by
      cases hu : unverified with
      | false => rfl
      | true =>
        obtain ⟨_, n, _, hsome, _⟩ := h.stored hu
        rw [hn] at hsome
        cases hsome
    have hcov := h.covers.populate
    have heq : CfgNoodle.populate E items s =
        (s.insertAll E.sorter (goodRecords E items)).finishScan := populate_of_unset hn
    refine ⟨h.distinct, hcov, h.spanned.populate, fun hgc => ?_, fun _ n hnext => ?_, fun hu => ?_⟩
    · rw [heq, finishScan_needsGc] at hgc
      rw [heq, finishScan_records]
      rcases SeqState.insertAll_cases E.sorter (goodRecords E items) s with he | hi
      · rw [he] at hgc ⊢
        exact h.exact hgc
      · rw [hi.needsGc] at hgc
        cases hgc
    · cases hgc : (CfgNoodle.populate E items s).needsGc with
      | true => exact hcov.lt_next hgc hnext
      | false =>
        rw [heq, finishScan_needsGc] at hgc
        rcases SeqState.insertAll_cases E.sorter (goodRecords E items) s with he | hi
        · rw [heq, he] at hnext
          rw [scan_found_nothing h.covers hn he hnext]
          exact fun f hf => by cases hf
        · rw [hi.needsGc] at hgc
          cases hgc
    · rw [hfree] at hu
      cases hu

theorem Numbered.grown {items more : List Item} {s : SeqState E.kept} {unverified unverified' : Bool}
    (h : Numbered items s unverified) {n : NonZeroU32} (hn : s.nextSeq = some n)
    (hgc : s.needsGc = false) (hg : Grown E items n (items ++ more)) (hd : Distinct E (items ++ more))
    (habove : unverified' = false → ∀ f ∈ validRecords E (items ++ more), f.key.get < n.get)
    (hstored : unverified' = true → ∃ f ∈ validRecords E (items ++ more), f.key = n) :
    Numbered (items ++ more) s unverified' := by
  have hexact : s.records ⊆ goodRecords E (items ++ more) := fun r hr => hg.good (h.exact hgc hr)
  refine ⟨hd, h.covers.grown hn hgc hg, spanned_of_exact hexact, fun _ => hexact, fun hu m hm => ?_,
    fun hu => ⟨hgc, ?_⟩⟩
  · obtain rfl := Option.some.inj (hn.symm.trans hm)
    exact habove hu
  · obtain ⟨f, hf, hkey⟩ := hstored hu
    exact ⟨n, f, hn, hf, hkey⟩

/-- A write keeps the numbers apart, unless it stores a record after an unverified one. -/
theorem Numbered.write {w w' : World E} {unverified pushed ok : Bool}
    (h : Numbered w.items w.seqState unverified) (hw : Wrote w w' pushed ok)
    (hno : ¬ (unverified = true ∧ pushed = true)) :
    Numbered w'.items w'.seqState (unverified || pushed && !ok) := by
  cases hw with
  | nothing hi hs hp =>
    rw [hi, hs, hp, Bool.false_and, Bool.or_false]
    exact h
  | part hdue hi hs hv hp =>
    have hn := writeDue_nextSeq hdue
    rw [hi, hs, hp, Bool.false_and, Bool.or_false]
    refine h.grown hn (writeDue_clean hdue) (Or.inl hv) ?_ (fun hu => ?_) fun hu => ?_
    · simp only [Distinct]
      rw [hv]
      exact h.distinct
    · rw [hv]
      exact h.above hu _ hn
    · obtain ⟨_, m, f, hm, hf, hkey⟩ := h.stored hu
      obtain rfl := Option.some.inj (hn.symm.trans hm)
      exact ⟨f, hv ▸ hf, hkey⟩
  | @record n ds call hdue hi hs hp hok =>
    have hn := writeDue_nextSeq hdue
    have hlt := h.above (by simpa [hp] using hno) n hn
    rw [hi, hs, hp, hok, Bool.not_false, Bool.and_true, Bool.or_true]
    refine h.grown hn (writeDue_clean hdue) (grown_record _ _ _ _) (h.distinct.append hlt ds call) nofun
      fun _ => ⟨⟨n, w.items.length, recordItems E n ds call⟩, ?_, rfl⟩
    rw [validRecords_append_record]
    exact List.mem_append_right _ (List.mem_singleton_self _)
  | @verified n ds call range hdue hi hv hs hp hok =>
    have hn := writeDue_nextSeq hdue
    have hfree : unverified = false := by simpa [hp] using hno
    have hlt := h.above hfree n hn
    have hcov := h.covers.written (r := ⟨n, _, _, 0⟩) hn (grown_record _ _ _ _) hv
    have hgc : (w.seqState.insertGood E.sorter ⟨n, range⟩).needsGc = true :=
      (inserted_of_above (r := ⟨n, range⟩) (h.covers.above n hn).2).needsGc
    obtain ⟨_, rfl⟩ := hv.new_record rfl fun f hf hk => Nat.lt_irrefl _ (hk ▸ hlt f hf)
    rw [hi, hs, hp, hok, Bool.not_true, Bool.and_false, Bool.or_false, hfree]
    refine ⟨h.distinct.append hlt ds call, hcov, spanned_written (h.exact (writeDue_clean hdue)) n ds call,
      fun hc => ?_, fun _ m hm => hcov.lt_next hgc hm, nofun⟩
    rw [hgc] at hc
    cases hc

theorem Numbered.reads {w : World E} {unverified : Bool} (h : Numbered w.items w.seqState unverified)
    {fs : Faults E.Err} (hf : ∀ a ∈ fs.reads, a = .ok) :
    Numbered (w.serve (.processReads fs)).items (w.serve (.processReads fs)).seqState unverified := by
  show Numbered (endState (processReads (w.withFaults fs))).items
    (endState (processReads (w.withFaults fs))).seqState unverified
  rcases (processReads_spec (w := w.withFaults fs) h.covers.located).cases with
    ⟨a, w', hrun, r, _, rfl⟩ | ⟨e, w', _, ⟨_, _, _, hs⟩, _⟩
  · rw [hrun]
    exact h.populate
  · exact absurd hs (not_readsStop_of_ok hf)

theorem Numbered.garbage {w : World E} {unverified : Bool}
    (h : Numbered w.items w.seqState unverified) {fs : Faults E.Err} (hf : ∀ a ∈ fs.reads, a = .ok) :
    Numbered (w.serve (.processGarbage fs)).items (w.serve (.processGarbage fs)).seqState
      (unverified && !w.seqState.needsGc) := by
  have hcollected : ∀ p, Distinct E (collected w.seqState p w.items) := fun p =>
    h.distinct.of_contents (contents_collected h.spanned p).1
  show Numbered (endState (processGarbage (w.withFaults fs))).items
    (endState (processGarbage (w.withFaults fs))).seqState _
  rcases (processGarbage_spec (w.withFaults fs)).cases with
    ⟨c, w', hrun, ⟨hgc, rfl⟩ | ⟨hgc, f, _, rfl⟩⟩ | ⟨e, w', hrun, hgc, _, f, _, ⟨p, rfl⟩ | ⟨q, rest, _, hs, _⟩⟩
  · rw [hrun, show w.seqState.needsGc = false from hgc, Bool.not_false, Bool.and_true]
    exact h
  · rw [hrun, show w.seqState.needsGc = true from hgc, Bool.not_true, Bool.and_false]
    refine numbered_scan_clean ?_
    have hd := hcollected w.items.length
    rwa [collected_length] at hd
  · rw [hrun, show w.seqState.needsGc = true from hgc, Bool.not_true, Bool.and_false]
    exact numbered_new (hcollected p)
  · exact absurd hs (not_readsStop_of_ok fun a ha => hf a (List.mem_of_mem_drop ha))

def Session.Numbered (s : Session E) : Prop :=
  CfgNoodle.Numbered s.world.items s.world.seqState s.unverified

theorem Session.Numbered.call {s : Session E} (h : s.Numbered) {c : Call E} (hc : ReadsSucceed c)
    (hno : ¬ Repeats s c) : (s.call c).Numbered := by
  cases c with
  | nodes list cells => exact h
  | processReads fs => exact h.reads hc
  | processWrites bufLen fs => exact h.write (wrote_serve s.world bufLen fs) hno
  | processGarbage fs => exact h.garbage hc
  | resetCache => exact numbered_new h.distinct
  | powerLoss => exact numbered_new h.distinct

/-- A record stored after an unverified one has its number. -/
theorem Session.Numbered.repeats {s : Session E} (h : s.Numbered) {c : Call E} (hr : Repeats s c) :
    ¬ Distinct E (s.call c).world.items := by
  obtain ⟨hu, hp⟩ := hr
  obtain ⟨_, n, f, hn, hf, hkey⟩ := h.stored hu
  have htwice : ∀ (m : NonZeroU32) (ds : List SerData) (call : Nat),
      writeDue s.world = .ok (some m) →
      ¬ Distinct E (s.world.items ++ recordItems E m ds call) := by
    intro m ds call hdue hd
    obtain rfl := Option.some.inj (hn.symm.trans (writeDue_nextSeq hdue))
    simp only [Distinct] at hd
    rw [validRecords_append_record, List.map_append] at hd
    exact (List.nodup_append.mp hd).2.2 f.key (List.mem_map_of_mem hf) n (by simp) hkey
  cases c with
  | processWrites bufLen fs =>
    show ¬ Distinct E (s.world.serve (.processWrites bufLen fs)).items
    cases wrote_serve s.world bufLen fs with
    | nothing _ _ hp' =>
      rw [hp] at hp'
      cases hp'
    | part _ _ _ _ hp' =>
      rw [hp] at hp'
      cases hp'
    | record hdue hi _ _ _ =>
      rw [hi]
      exact htwice _ _ _ hdue
    | verified hdue hi _ _ _ _ =>
      rw [hi]
      exact htwice _ _ _ hdue
  | nodes _ _ | processReads _ | processGarbage _ | resetCache | powerLoss => cases hp

theorem numbered_reachable {s : Session E}
    (hs : ((sessions E).restrict fun s c _ => ¬ Repeats s c).Reachable s) : s.Numbered := by
  refine hs.invariant ?_ ?_
  · intro _ heq
    subst heq
    exact numbered_new List.nodup_nil
  · intro s c _ hi hx
    obtain ⟨⟨rfl, hc⟩, hno⟩ := hx
    exact hi.call hc hno

/-- **Sequence numbers identify records in a session in which no write stores a
whole record after one that was not verified**, and the first that does stores a
number twice. -/
theorem numbers_identify_iff {s : Session E}
    (hs : ((sessions E).restrict fun s c _ => ¬ Repeats s c).Reachable s) :
    Distinct E s.world.items ∧
      ∀ c, ReadsSucceed c → (Distinct E (s.call c).world.items ↔ ¬ Repeats s c) :=
  ⟨(numbered_reachable hs).distinct, fun _ hc =>
    ⟨fun hd hr => (numbered_reachable hs).repeats hr hd,
      fun hno => ((numbered_reachable hs).call hc hno).distinct⟩⟩

/-- A node needs a write, the list reads, and writes without faults. -/
def writingOnce : List (Call twoSettings) :=
  [.nodes [settingA] fun _ => ⟨.needsWrite, some (7 : UInt8)⟩, .processReads .none,
    .processWrites 64 .none]

/-- The verification of the first write fails to read, and the write is repeated. -/
def writingTwice : List (Call twoSettings) :=
  [.nodes [settingA] fun _ => ⟨.needsWrite, some (7 : UInt8)⟩, .processReads .none,
    .processWrites 64 ⟨[.err ()], [], []⟩, .processWrites 64 .none]

/-- The session after these calls. -/
def sessionAfter (cs : List (Call E)) : Session E := cs.foldl Session.call ⟨World.boot [], false⟩

theorem reachable_call {s : Session E} {c : Call E}
    (hs : ((sessions E).restrict fun s c _ => ¬ Repeats s c).Reachable s) (hc : ReadsSucceed c)
    (hu : s.unverified = false) :
    ((sessions E).restrict fun s c _ => ¬ Repeats s c).Reachable (s.call c) :=
  .step hs ⟨⟨rfl, hc⟩, fun hr => Bool.false_ne_true (hu.symm.trans hr.1)⟩

theorem numbers_identify_once : Distinct twoSettings (sessionAfter writingOnce).world.items ∧
    ∀ c, ReadsSucceed c → (Distinct twoSettings ((sessionAfter writingOnce).call c).world.items ↔
      ¬ Repeats (sessionAfter writingOnce) c) := by
  have h1 := reachable_call (E := twoSettings) (.init rfl)
    (c := .nodes [settingA] fun _ => ⟨.needsWrite, some (7 : UInt8)⟩)
    trivial rfl
  have h2 := reachable_call h1 (c := .processReads .none) (fun _ ha => absurd ha List.not_mem_nil) rfl
  have h3 := reachable_call h2 (c := .processWrites 64 .none) trivial rfl
  exact numbers_identify_iff h3

/-- Both records have the first number. -/
theorem number_stored_twice : (sessions twoSettings).Reachable (sessionAfter writingTwice) ∧
    ¬ Distinct twoSettings (sessionAfter writingTwice).world.items := by
  constructor
  · refine System.reachable_foldl (S := sessions twoSettings) (fun c hc s => ⟨rfl, ?_⟩) (.init rfl)
    simp only [writingTwice, List.mem_cons, List.not_mem_nil, or_false] at hc
    rcases hc with rfl | rfl | rfl | rfl
    · trivial
    · exact fun _ ha => absurd ha List.not_mem_nil
    · trivial
    · trivial
  · simp only [Distinct]
    decide +kernel

end CfgNoodle

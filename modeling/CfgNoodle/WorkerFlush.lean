import CfgNoodle.WorkerTask

/-! # Calls without faults

What a write and a collection of the worker do from a sound cache while all
operations of the storage succeed: the record that is stored and whether it is
verified, and what the collection leaves. -/
namespace CfgNoodle
open Framing Outcome Runs
open scoped List
variable {E : Env}

/-! ## Stored values -/

/-- The value of the node is what it reads from these data elements. -/
def HoldsValue (ds : List SerData) (i : E.Id) (c : Cell (E.T i)) : Prop :=
  ∃ body t, bodyFor E.cbor (E.key i) ds = some body ∧ (E.vtable i).decode body = some t ∧ c.t = some t

/-- Some node needs a write. -/
def Unwritten (w : World E) : Prop := ∃ i ∈ w.list, w.state i = .needsWrite

/-- The nodes are written if one of them needs it or nothing is cached. -/
def Due (w : World E) : Prop := Unwritten w ∨ w.seqState.highestSeen = none

/-! ## A write without faults -/

theorem needsWriting_iff {w : World E} (hinit : ∀ i ∈ w.list, w.state i ≠ .initial) :
    ∃ due, needsWriting w = .ok due ∧ (due = true ↔ Due w) := by
  have hany : (w.list.any fun i => w.state i = .initial) = false :=
    List.any_eq_false.mpr fun i hi => by simpa using hinit i hi
  refine ⟨_, by rw [needsWriting, hany]; rfl, ?_⟩
  simp only [Due, Unwritten]
  simp [List.any_eq_true]

theorem Spent.of_none {ε : Type} {fs : Faults ε} (h : Spent .none fs) : fs = .none := by
  obtain ⟨reads, pushes, invalidates⟩ := fs
  obtain rfl := List.suffix_nil.mp h.reads
  obtain rfl := List.suffix_nil.mp h.pushes
  obtain rfl := List.suffix_nil.mp h.invalidates
  rfl

/-- What the verification of a write looks for. -/
def Report (E : Env) (n : NonZeroU32) (ds : List SerData) : WriteReport :=
  ⟨n, E.crc (crcBytes ds), ds.length, 0⟩

/-- Without faults a write that is due stores its record. -/
theorem writes_due {w : World E} {bufLen : Nat} (hf : w.faults = .none) (hfits : Fits bufLen w)
    {n : NonZeroU32} (hdue : writeDue w = .ok (some n)) :
    ∃ w', w'.items = w.items ++ recordItems E n (w.toWrite bufLen) w.call ∧ w'.list = w.list ∧
      w'.faults = .none ∧
      ((∃ c range, processWrites bufLen w = .ok c w' ∧ w'.cells = markWritten w.list w.cells ∧
        w'.seqState = w.seqState.insertGood E.sorter ⟨n, range⟩ ∧
        Verifies E (Report E n (w.toWrite bufLen)) w'.items range) ∨
      ∃ e, processWrites bufLen w = .error e w' ∧ VerifyError e ∧ w'.cells = w.cells ∧
        w'.seqState = w.seqState ∧ ∀ range, ¬ Verifies E (Report E n (w.toWrite bufLen)) w'.items range) := by
  have hnot : ∀ e, ¬ w.faults.CanStop e := by
    rw [hf]
    exact Faults.not_canStop_none
  have hnone := writeDatas_none_of_fits hfits
  rcases (processWrites_spec bufLen w).cases with ⟨c, w', hrun, h⟩ | ⟨e, w', hrun, h⟩
  · rcases h with ⟨hno, _⟩ | ⟨s, range, fs, hdue', hs, _, hv, rfl⟩
    · rw [hdue] at hno; cases hno
    · obtain rfl := Option.some.inj (Except.ok.inj (hdue.symm.trans hdue'))
      rw [hf] at hs
      refine ⟨_, ?_, ?_, ?_, Or.inl ⟨c, range, hrun, ?_, ?_, hv⟩⟩
      · rfl
      · rfl
      · exact hs.of_none
      · rfl
      · rfl
  · rcases h with ⟨err, hno, _⟩ | ⟨s, fs, hdue', hs, h⟩
    · rw [hdue] at hno; cases hno
    · obtain rfl := Option.some.inj (Except.ok.inj (hdue.symm.trans hdue'))
      rw [hf] at hs
      rcases h with ⟨hc | hc, _⟩ | ⟨_, hc, rfl⟩
      · exact absurd hc (hnot e)
      · rw [hnone] at hc; cases hc
      · obtain ⟨hve, hno⟩ := hc.resolve_left fun h => hnot e (Or.inl h)
        refine ⟨_, ?_, ?_, ?_, Or.inr ⟨e, hrun, hve, ?_, ?_, hno⟩⟩
        · rfl
        · rfl
        · exact hs.of_none
        · rfl
        · rfl

/-- A write that is not due does nothing. -/
theorem writes_not_due {w : World E} (bufLen : Nat) (h : writeDue w = .ok none) :
    ∃ c, processWrites bufLen w = .ok c w := by
  rcases (processWrites_spec bufLen w).cases with ⟨c, w', hrun, hq⟩ | ⟨e, w', _, hq⟩
  · rcases hq with ⟨_, rfl⟩ | ⟨_, _, _, hdue, _⟩
    · exact ⟨c, hrun⟩
    · rw [h] at hdue; cases hdue
  · rcases hq with ⟨_, hdue, _⟩ | ⟨_, _, hdue, _⟩ <;> rw [h] at hdue <;> cases hdue

/-- A write that cannot start says why. -/
theorem writes_refused {w : World E} (bufLen : Nat) {err : Error} (h : writeDue w = .error err) :
    processWrites bufLen w = .error (.error (.appError err)) w := by
  rcases (processWrites_spec bufLen w).cases with ⟨c, w', _, hq⟩ | ⟨e, w', hrun, hq⟩
  · rcases hq with ⟨hdue, _⟩ | ⟨_, _, _, hdue, _⟩ <;> rw [h] at hdue <;> cases hdue
  · rcases hq with ⟨err', hdue, rfl, rfl⟩ | ⟨_, _, hdue, _⟩
    · obtain rfl := Except.error.inj (h.symm.trans hdue)
      exact hrun
    · rw [h] at hdue; cases hdue

/-- What a write does where the cache has a next number and needs no collection. -/
theorem writeDue_cases {w : World E} (hinit : ∀ i ∈ w.list, w.state i ≠ .initial) {n : NonZeroU32}
    (hn : w.seqState.nextSeq = some n) (hgc : w.seqState.needsGc = false) :
    (Due w ∧ writeDue w = .ok (some n)) ∨ (¬ Due w ∧ writeDue w = .ok none) := by
  obtain ⟨due, hneeds, hdue⟩ := needsWriting_iff hinit
  have heq : writeDue w = .ok (if due then some n else none) := by
    simp only [writeDue]
    rw [hn, hgc, hneeds]
    rfl
  cases due with
  | true => exact Or.inl ⟨hdue.mp rfl, heq⟩
  | false => exact Or.inr ⟨fun h => Bool.false_ne_true (hdue.mpr h), heq⟩

/-! ## A collection without faults -/

/-- The list after a collection. -/
def World.afterGarbage (w : World E) : World E :=
  (w.withItems (survivors w.seqState w.items)).withSeq
    (SeqState.scan E (survivors w.seqState w.items)).clean

theorem garbage_due {w : World E} (hf : w.faults = .none) (hgc : w.seqState.needsGc = true) :
    ∃ c, processGarbage w = .ok c w.afterGarbage := by
  obtain ⟨c, hrun⟩ := processGarbage_run hf
  rw [if_pos hgc] at hrun
  exact ⟨c, hrun⟩

theorem garbage_not_due {w : World E} (hf : w.faults = .none) (hgc : w.seqState.needsGc = false) :
    ∃ c, processGarbage w = .ok c w := by
  obtain ⟨c, hrun⟩ := processGarbage_run hf
  rw [hgc] at hrun
  exact ⟨c, hrun⟩

theorem Tended.afterGarbage {w : World E} (h : Tended w) : Tended w.afterGarbage :=
  ⟨sound_scan_clean _, h.keys⟩

section Collection
variable {items : List Item} {s : SeqState E.kept} (h : Sound items s)
include h

/-- A valid record among the survivors has a cached number. -/
theorem Sound.survivor_key {f : Record} (hf : f ∈ validRecords E (survivors s items)) :
    ∃ r ∈ s.records, r.seq = f.key := by
  have hmem : (f.key, f.seg) ∈ contents (recordGrammar E.crc) (survivors s items) :=
    mem_contents.mpr ⟨f, hf, rfl⟩
  rw [contents_survivors h.snug] at hmem
  obtain ⟨g, hg, heq⟩ := List.mem_map.mp hmem
  obtain ⟨r, hr, hp⟩ := (mem_keptRecords h.located).mp hg
  exact ⟨r, hr, hp.seq.trans (congrArg Prod.fst heq)⟩

/-- Every cached number is that of a valid record among the survivors. -/
theorem Sound.exists_survivor {r : GoodWriteRecord} (hr : r ∈ s.records) :
    ∃ f ∈ validRecords E (survivors s items), f.key = r.seq := by
  obtain ⟨g, hp⟩ := h.located r hr
  have hg : (g.key, g.seg) ∈ contents (recordGrammar E.crc) (survivors s items) := by
    rw [contents_survivors h.snug]
    exact List.mem_map_of_mem (f := fun f => (f.key, f.seg)) ((mem_keptRecords h.located).mpr ⟨r, hr, hp⟩)
  obtain ⟨f, hf, heq⟩ := mem_contents.mp hg
  exact ⟨f, hf, (congrArg Prod.fst heq).trans hp.seq.symm⟩

/-- After a collection the next number starts nothing, and a record is cached. -/
theorem Sound.after_garbage (hgc : s.needsGc = true) {n : NonZeroU32} (hn : s.nextSeq = some n) :
    ∃ m, (SeqState.scan E (survivors s items)).nextSeq = some m ∧
      (∀ x ∈ survivors s items, x.data ≠ some (.start m)) ∧
      (SeqState.scan E (survivors s items)).highestSeen ≠ none := by
  have hmax : ∀ f ∈ validRecords E (survivors s items), f.key.get < NonZeroU32.MAX := by
    intro f hf
    obtain ⟨r, hr, hkey⟩ := h.survivor_key hf
    have h1 := h.above n hn r hr
    have h2 := n.lt
    simp only [GoodWriteRecord.seqKey] at h1
    rw [hkey] at h1
    unfold NonZeroU32.MAX
    omega
  obtain ⟨m, hm⟩ := Option.ne_none_iff_exists'.mp (scan_nextSeq_ne_none hmax)
  refine ⟨m, hm, fun x hx hd => ?_, ?_⟩
  · obtain ⟨r, hr, hseq⟩ := survivors_start h.snug hx hd
    obtain ⟨f, hf, hkey⟩ := h.exists_survivor hr
    exact Nat.lt_irrefl _ ((hkey.trans hseq) ▸ scan_nextSeq_above hm f hf)
  · obtain ⟨r, hr⟩ := List.exists_mem_of_ne_nil _ (h.due hgc)
    obtain ⟨f, hf, _⟩ := h.exists_survivor hr
    obtain ⟨y, hy, _⟩ := scan_greatest (E := E) (List.ne_nil_of_mem hf)
    rcases (scan_sorted (E := E) (survivors s items)).highestSeen with ⟨_, hnil⟩ | ⟨r', hr', _⟩
    · rw [hnil] at hy
      cases hy
    · rw [hr']
      exact nofun

end Collection

end CfgNoodle

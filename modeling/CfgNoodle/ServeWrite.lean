import CfgNoodle.Shutdown

/-! # Serving a write signal

The branch of `needs_write` saves every node that needs it, as far as the cache
still has a next number and no record with that number is stored; what it loses
otherwise is stated exactly. -/
namespace CfgNoodle
open Framing Outcome Runs
open scoped List
variable {E : Env}

/-! ## Records taken for the new one -/

/-- A stored record that the verification of a write takes for the new one. -/
structure Mistaken (E : Env) (items : List Item) (n : NonZeroU32) (ds : List SerData) (f : Record) :
    Prop where
  mem : f ∈ validRecords E items
  key : f.key = n
  first : ∀ x ∈ items.take f.start, x.data ≠ some (.start n)
  crc : E.crc (crcBytes (datas f.seg)) = E.crc (crcBytes ds)
  ct : (datas f.seg).length = ds.length

theorem Mistaken.verifies {items : List Item} {n : NonZeroU32} {ds : List SerData} {f : Record}
    (h : Mistaken E items n ds f) (more : List Item) :
    ∃ range, Verifies E (Report E n ds) (items ++ more) range := by
  obtain ⟨pre, post, hs, hrec, hitems⟩ := (mem_frames _).mp h.mem
  obtain ⟨o, bs, c, hseg, ho, hb, hc, hdatas⟩ := IsRecord.elim hrec
  have hkeyVals : E.crc (keyVals bs) = E.crc (crcBytes ds) := by
    rw [keyVals_eq_crcBytes, ← hdatas]
    exact h.crc
  have hlen : bs.length = ds.length := by
    rw [← length_datas hb, ← hdatas]
    exact h.ct
  rw [h.key] at ho hc
  rw [hkeyVals] at hc
  have hfirst := h.first
  rw [hitems, hs, List.append_assoc, List.take_left] at hfirst
  exact ⟨_, pre, o, bs ++ c :: (post ++ more), bs.length, by rw [hitems, hseg]; simp, hfirst, ho,
    ⟨bs, c, post ++ more, rfl, hb, hc, hkeyVals, hlen, rfl⟩, rfl⟩

/-- Two records that the verification takes for the new one are the same. -/
theorem Mistaken.unique {items : List Item} {n : NonZeroU32} {ds ds' : List SerData} {f g : Record}
    (hf : Mistaken E items n ds f) (hg : Mistaken E items n ds' g) : f = g := by
  obtain ⟨o, rest, hsplit, ho⟩ := record_split hf.mem
  obtain ⟨o', rest', hsplit', ho'⟩ := record_split hg.mem
  have hpre := (first_start_unique (hsplit.symm.trans hsplit') hf.first hg.first (hf.key ▸ ho)
    (hg.key ▸ ho')).1
  have hlen : ∀ {f : Record}, f ∈ validRecords E items → (items.take f.start).length = f.start := by
    intro f hf
    obtain ⟨pre, post, hs, _, hitems⟩ := (mem_frames _).mp hf
    rw [hs, hitems, List.append_assoc, List.take_left]
  refine frames_start_inj _ hf.mem hg.mem ?_
  rw [← hlen hf.mem, hpre, hlen hg.mem]

/-- The record that a write's verification matched is the new one or an older one. -/
theorem verifies_cases {items : List Item} {n : NonZeroU32} {ds : List SerData} {call : Nat}
    {range : RangeInclusive} (hv : Verifies E (Report E n ds) (items ++ recordItems E n ds call) range) :
    ∃ f ∈ validRecords E (items ++ recordItems E n ds call), f.key = n ∧
      range = ⟨f.start, f.last + 1⟩ ∧
      ((f.seg = recordItems E n ds call ∧ ∀ x ∈ items, x.data ≠ some (.start n)) ∨
        Mistaken E items n ds f) := by
  obtain ⟨f, hf, hkey, hpre, rfl, hcrc, hct⟩ := hv.record
  refine ⟨f, hf, hkey, rfl, ?_⟩
  rw [validRecords_append_record, List.mem_append, List.mem_singleton] at hf
  rcases hf with hf | rfl
  · refine Or.inr ⟨hf, hkey, fun x hx => hpre x ?_, hcrc, hct⟩
    rw [List.take_append]
    exact List.mem_append_left _ hx
  · rw [List.take_left] at hpre
    exact Or.inl ⟨rfl, hpre⟩

/-- A storage whose records are those of a list with one that is above the others. -/
theorem latestRecord_of_contents_eq {items : List Item} {fs : List Record}
    (hc : contents (recordGrammar E.crc) items = fs.map fun f => (f.key, f.seg)) (hnd : fs.Nodup)
    {f : Record} (hf : f ∈ fs) (hmax : ∀ g ∈ fs, g ≠ f → g.key.get < f.key.get) :
    latestRecord E items = some (f.key, f.seg) := by
  obtain ⟨pre, post, rfl⟩ := List.append_of_mem hf
  rw [List.map_append, List.map_cons] at hc
  obtain ⟨vs, vs', hv, hpre, hpost⟩ := List.map_eq_append_iff.mp hc
  obtain ⟨g, ws, rfl, hg, hws⟩ := List.map_eq_cons_iff.mp hpost
  have hgm : g ∈ validRecords E items := by
    rw [validRecords, hv]
    simp
  have hother : ∀ {h : Record} {l : List Record} {vs : List Record},
      vs.map (fun f => (f.key, f.seg)) = l.map (fun f => (f.key, f.seg)) → h ∈ vs →
      (∀ x ∈ l, x.key.get < f.key.get) → h.key.get < f.key.get := by
    intro h l vs heq hh hlt
    have hmem := List.mem_map_of_mem (f := fun f : Record => (f.key, f.seg)) hh
    rw [heq] at hmem
    obtain ⟨x, hx, hxh⟩ := List.mem_map.mp hmem
    have hkey : x.key = h.key := congrArg Prod.fst hxh
    exact hkey ▸ hlt x hx
  have hkey : g.key = f.key := congrArg Prod.fst hg
  have hlt : ∀ x ∈ pre ++ post, x.key.get < f.key.get := by
    intro x hx
    have hne : x ≠ f := by
      intro heq
      subst heq
      have := (List.nodup_middle.mp hnd)
      exact (List.nodup_cons.mp this).1 hx
    exact hmax x (by simp only [List.mem_append, List.mem_cons] at hx ⊢; tauto) hne
  have hsel := scan_highest_of_greatest hgm fun h hh hne => by
    rw [validRecords, hv, List.mem_append, List.mem_cons] at hh
    rw [hkey]
    rcases hh with hh | rfl | hh
    · exact hother hpre hh fun x hx => hlt x (List.mem_append_left _ hx)
    · exact absurd rfl hne
    · exact hother hws hh fun x hx => hlt x (List.mem_append_right _ hx)
  simp only [latestRecord]
  rw [hsel, Option.map_some, slice_goodOf hgm, ← hg]
  rfl

/-- After the write and a collection a fresh boot selects the record that was verified. -/
theorem Sound.latest_written {items : List Item} {s : SeqState E.kept} (h : Sound items s)
    {n : NonZeroU32} (hn : s.nextSeq = some n) {ds : List SerData}
    {call : Nat} {f : Record} (hf : f ∈ validRecords E (items ++ recordItems E n ds call))
    (hkey : f.key = n)
    (hw : Sound (items ++ recordItems E n ds call)
      (s.insertGood E.sorter ⟨n, ⟨f.start, f.last + 1⟩⟩)) :
    latestRecord E (survivors (s.insertGood E.sorter ⟨n, ⟨f.start, f.last + 1⟩⟩)
      (items ++ recordItems E n ds call)) = some (n, f.seg) := by
  have hlt := h.above n hn
  have hmem := mem_insertGood_of_above (r := ⟨n, ⟨f.start, f.last + 1⟩⟩) hlt
  refine (latestRecord_of_contents_eq (f := f) (contents_survivors hw.snug) ?_ ?_ ?_).trans
    (congrArg (fun k => some (k, f.seg)) hkey)
  · exact (List.Nodup.of_map _ (frames_starts_nodup _ _)).sublist (keptRecords_sublist _ _)
  · exact (mem_keptRecords hw.located).mpr ⟨_, hmem, hf, hkey.symm, rfl, Nat.le_succ _⟩
  · intro g hg hne
    obtain ⟨r, hr, hp⟩ := (mem_keptRecords hw.located).mp hg
    rcases SeqState.mem_insertGood E.sorter hr with rfl | hr
    · exact absurd (frames_start_inj _ hp.mem hf hp.first.symm) hne
    · rw [hkey, ← hp.seq]
      exact hlt r hr

/-- A node that needed a write has been written, and a fresh boot finds its value. -/
def Saved (w w' : World E) : Prop := ∀ i ∈ w.list, w.state i = .needsWrite →
  w'.state i = .validNoWriteNeeded ∧ HoldsValue (latestDatas E w'.items) i (w.cells i)

/-- The next record will be verified: its number starts no item, or the first item
that it starts belongs to a record that is taken for it and holds the same values. -/
def Accepted (bufLen : Nat) (w : World E) (n : NonZeroU32) : Prop :=
  (∀ x ∈ w.items, x.data ≠ some (.start n)) ∨
    ∃ f, Mistaken E w.items n (w.toWrite bufLen) f ∧
      ∀ i ∈ w.list, w.state i = .needsWrite → HoldsValue (datas f.seg) i (w.cells i)

/-- The states in which a write signal is served as it should be. -/
def Serves (bufLen : Nat) (w : World E) : Prop :=
  ¬ Unwritten w ∨ ∃ n, w.seqState.nextSeq = some n ∧
    (w.seqState.needsGc = true ∨ Accepted bufLen w n)

theorem saved_of_not_unwritten {w : World E} (h : ¬ Unwritten w) (w' : World E) : Saved w w' :=
  fun i hi hs => absurd ⟨i, hi, hs⟩ h

/-- A node that is still waiting to be written is not saved. -/
theorem saved_iff_of_cells {w w' : World E} (h : w'.cells = w.cells) :
    Saved w w' ↔ ¬ Unwritten w := by
  refine ⟨fun hset hu => ?_, fun hno => saved_of_not_unwritten hno w'⟩
  obtain ⟨i, hi, hs⟩ := hu
  have hvnwn := (hset i hi hs).1
  simp only [World.state] at hvnwn hs
  rw [h, hs] at hvnwn
  cases hvnwn

theorem serveWrite_ok {bufLen : Nat} {w w1 w2 w3 : World E} {a b c : Bool}
    (h1 : logged processGarbage w = .ok a w1) (h2 : logged (processWrites bufLen) w1 = .ok b w2)
    (h3 : logged processGarbage w2 = .ok c w3) : serveWrite bufLen w = .ok () w3 := by
  simp only [serveWrite]
  simp only [bind, EStateM.bind, Worker.Serving.run, h1, h2, h3]
  rfl

/-- Where the cache has no next number, the branch writes nothing. -/
theorem serve_unset {w : World E} (bufLen : Nat) (hf : w.faults = .none)
    (hn : w.seqState.nextSeq = none) (hgc : w.seqState.needsGc = false) :
    ∃ a b, logged (processWrites bufLen) w = .ok a w ∧ logged processGarbage w = .ok b w := by
  have hdue : writeDue w = .error .needsFirstRead := by
    simp only [writeDue]
    rw [hn]
  obtain ⟨c, hrun'⟩ := garbage_not_due hf hgc
  exact ⟨_, _, logged_error (writes_refused bufLen hdue), logged_ok hrun'⟩

section Serve
variable (hk : ∀ i, E.cbor.Canonical (E.key i))
  (hcodec : ∀ i (t : E.T i), (E.vtable i).decode ((E.vtable i).encode t).flatten = some t)
include hk hcodec

/-- The write of the branch and the collection after it, where none is due before. -/
theorem serve_clean {w : World E} {bufLen : Nat} (h : Tended w) (hf : w.faults = .none)
    (hinit : ∀ i ∈ w.list, w.state i ≠ .initial) (hfits : Fits bufLen w) {n : NonZeroU32}
    (hn : w.seqState.nextSeq = some n) (hgc : w.seqState.needsGc = false) :
    ∃ a w1 b w2, logged (processWrites bufLen) w = .ok a w1 ∧ logged processGarbage w1 = .ok b w2 ∧
      (Saved w w2 ↔ ¬ Unwritten w ∨ Accepted bufLen w n) := by
  rcases writeDue_cases hinit hn hgc with ⟨_, heq⟩ | ⟨hdue, heq⟩
  · obtain ⟨w1, hitems, _, hf1, ⟨c, range, hrun, hcells, hseq, hv⟩ | ⟨e, hrun, hve, hcells, hseq, hno⟩⟩ :=
      writes_due hf hfits heq
    · -- the record is verified, or an older one is taken for it
      have hlt := h.sound.above n hn
      have hgc1 : w1.seqState.needsGc = true := by
        rw [hseq]
        exact (inserted_of_above (r := ⟨n, range⟩) hlt).needsGc
      obtain ⟨c', hrun'⟩ := garbage_due hf1 hgc1
      refine ⟨_, _, _, _, logged_ok hrun, logged_ok hrun', ?_⟩
      rw [hitems] at hv
      have hw := h.sound.written hn hgc rfl hv
      obtain ⟨f, hmem, hkey, rfl, hcase⟩ := verifies_cases hv
      have hlatest : latestDatas E w1.afterGarbage.items = datas f.seg := by
        show latestDatas E (survivors w1.seqState w1.items) = datas f.seg
        simp only [latestDatas]
        rw [hseq, hitems, h.sound.latest_written hn hmem hkey hw]
      have hstate : ∀ i ∈ w.list, w.state i = .needsWrite →
          w1.afterGarbage.state i = .validNoWriteNeeded := by
        intro i hi hs
        have hvalue : (w.cells i).state.hasValue = true := by
          simp only [World.state] at hs
          rw [hs]
          rfl
        show (w1.cells i).state = .validNoWriteNeeded
        rw [hcells, markWritten, if_pos ⟨hi, hvalue⟩]
      have hset : Saved w w1.afterGarbage ↔
          ∀ i ∈ w.list, w.state i = .needsWrite → HoldsValue (datas f.seg) i (w.cells i) := by
        simp only [Saved]
        rw [hlatest]
        exact ⟨fun h i hi hs => (h i hi hs).2, fun h i hi hs => ⟨hstate i hi hs, h i hi hs⟩⟩
      rw [hset]
      rcases hcase with ⟨hseg, hnone⟩ | hmist
      · refine iff_of_true (fun i hi hs => ?_) (Or.inr (Or.inl hnone))
        rw [hseg, datas_recordItems]
        refine body_toWrite hk hcodec h.keys (writeDatas_none_of_fits hfits) hi ?_
        rw [hs]
        rfl
      · constructor
        · exact fun hall => Or.inr (Or.inr ⟨f, hmist, hall⟩)
        · intro hor i hi hs
          rcases hor with hno | hnone | ⟨g, hg, hall⟩
          · exact absurd ⟨i, hi, hs⟩ hno
          · obtain ⟨o, rest, hsplit, ho⟩ := record_split hmist.mem
            refine absurd (hmist.key ▸ ho) (hnone o ?_)
            rw [hsplit]
            simp
          · exact hmist.unique hg ▸ hall i hi hs
    · -- the verification fails
      have hgc1 : w1.seqState.needsGc = false := hseq ▸ hgc
      obtain ⟨c', hrun'⟩ := garbage_not_due hf1 hgc1
      obtain ⟨err, rfl⟩ : ∃ err, e = .error err := by
        rcases hve with rfl | rfl <;> exact ⟨_, rfl⟩
      refine ⟨_, _, _, _, logged_error hrun, logged_ok hrun', ?_⟩
      rw [saved_iff_of_cells hcells]
      refine ⟨Or.inl, fun hor => hor.resolve_right ?_⟩
      rw [hitems] at hno
      intro hor
      rcases hor with hnone | ⟨f, hmist, _⟩
      · obtain ⟨range, hv⟩ := verifies_of_no_start (E := E) (w.toWrite bufLen) w.call hnone
        exact hno range hv
      · obtain ⟨range, hv⟩ := hmist.verifies (recordItems E n (w.toWrite bufLen) w.call)
        exact hno range hv
  · -- nothing is written
    obtain ⟨c, hrun⟩ := writes_not_due bufLen heq
    obtain ⟨c', hrun'⟩ := garbage_not_due hf hgc
    refine ⟨_, _, _, _, logged_ok hrun, logged_ok hrun', ?_⟩
    have hno : ¬ Unwritten w := fun hu => hdue (Or.inl hu)
    exact iff_of_true (saved_of_not_unwritten hno w) (Or.inl hno)

/-- **Serving a write signal saves every node that needs it exactly where the
cache has a next number that is still free**, or one that a collection replaces:
in every state of the task. -/
theorem serve_write_iff {bufLen : Nat} {s : WorkerTask E} (hs : (workerTask E bufLen).Reachable s)
    (hinit : ∀ i ∈ s.world.list, s.world.state i ≠ .initial) (hfits : Fits bufLen s.world) :
    ∃ w', serveWrite bufLen (s.world.withFaults .none) = .ok () w' ∧
      (Saved s.world w' ↔ Serves bufLen s.world) := by
  have h : Tended (s.world.withFaults .none) :=
    ⟨(tended_reachable hs).sound, (tended_reachable hs).keys⟩
  change ∀ i ∈ (s.world.withFaults .none).list, (s.world.withFaults .none).state i ≠ .initial at hinit
  change Fits bufLen (s.world.withFaults .none) at hfits
  have hf : (s.world.withFaults .none).faults = .none := rfl
  show ∃ w', serveWrite bufLen (s.world.withFaults .none) = .ok () w' ∧
    (Saved (s.world.withFaults .none) w' ↔ Serves bufLen (s.world.withFaults .none))
  generalize s.world.withFaults .none = w at h hinit hfits hf
  have hunset : w.seqState.nextSeq = none → (Serves bufLen w ↔ ¬ Unwritten w) := by
    intro hn
    simp only [Serves]
    rw [hn]
    simp
  cases hgc : w.seqState.needsGc with
  | false =>
    obtain ⟨c, hgarbage⟩ := garbage_not_due hf hgc
    cases hn : w.seqState.nextSeq with
    | none =>
      obtain ⟨a, b, h2, h3⟩ := serve_unset bufLen hf hn hgc
      exact ⟨w, serveWrite_ok (logged_ok hgarbage) h2 h3,
        (saved_iff_of_cells rfl).trans (hunset hn).symm⟩
    | some n =>
      obtain ⟨a, w1, b, w2, h2, h3, hiff⟩ := serve_clean hk hcodec h hf hinit hfits hn hgc
      refine ⟨w2, serveWrite_ok (logged_ok hgarbage) h2 h3, ?_⟩
      simp only [Serves]
      rw [hn, hgc]
      simpa using hiff
  | true =>
    obtain ⟨c, hgarbage⟩ := garbage_due hf hgc
    cases hn : w.seqState.nextSeq with
    | none =>
      -- the last number is cached, and the collection keeps its record
      obtain ⟨r, hr, hmax⟩ := (h.sound.unset hn).resolve_left (h.sound.due hgc)
      obtain ⟨f, hmem, hkey⟩ := h.sound.exists_survivor hr
      have hnone : w.afterGarbage.seqState.nextSeq = none :=
        scan_nextSeq_eq_none.mpr ⟨_, hmem, hkey ▸ hmax⟩
      obtain ⟨a, b, h2, h3⟩ := serve_unset (w := w.afterGarbage) bufLen hf hnone rfl
      have hsaved : Saved w w.afterGarbage ↔ ¬ Unwritten w := saved_iff_of_cells rfl
      exact ⟨w.afterGarbage, serveWrite_ok (logged_ok hgarbage) h2 h3, hsaved.trans (hunset hn).symm⟩
    | some n =>
      obtain ⟨m, hm, hno, _⟩ := h.sound.after_garbage hgc hn
      obtain ⟨a, w1, b, w2, h2, h3, hiff⟩ := serve_clean hk hcodec h.afterGarbage hf hinit hfits
        (n := m) hm rfl
      refine ⟨w2, serveWrite_ok (logged_ok hgarbage) h2 h3, iff_of_true ?_ ?_⟩
      · exact hiff.mpr (Or.inr (Or.inl hno))
      · exact Or.inr ⟨n, hn, Or.inl hgc⟩

end Serve

theorem serve_write_edited : ∃ w', serveWrite 64 (editedTask.world.withFaults .none) = .ok () w' ∧
    (Saved editedTask.world w' ↔ Serves 64 editedTask.world) :=
  serve_write_iff twoSettings_canonical settings_codec (reachable_of_steady (steady_editedTask 64))
    editedTask_ready.1 editedTask_ready.2

/-- The worker after the branch in which the first collection failed to read. -/
def failedTask : WorkerTask twoSettings :=
  ((editedTask.call 64 .garbageBefore ⟨[.err ()], [], []⟩).call 64 .processWrites .none).call 64
    .garbageAfter .none

set_option maxRecDepth 4000 in
theorem steady_failedTask : (steadyTask twoSettings 64).Reachable failedTask := by
  have hloop : (writingLoop.step (.returned false)).stage = .serve .processWrites := by
    rw [step_returned writingLoop_stage]
    rfl
  have hloop' : ((writingLoop.step (.returned false)).step (.returned false)).stage =
      .serve .garbageAfter := by
    rw [step_returned hloop]
    rfl
  have h1 := steady_served (steady_editedTask 64) rfl writingLoop_stage ⟨[.err ()], [], []⟩
    (fun _ ha => absurd ha List.not_mem_nil) (below_storedOne rfl)
  have hrefused : writeDue (editedTask.call 64 .garbageBefore ⟨[.err ()], [], []⟩).world =
      .error .needsFirstRead := rfl
  have h2 := steady_served h1 rfl (c := .processWrites) hloop .none
    (fun _ hdue => by rw [hrefused] at hdue; cases hdue) (below_storedOne rfl)
  exact steady_served h2 rfl (c := .garbageAfter) hloop' .none
    (fun _ ha => absurd ha List.not_mem_nil) (below_storedOne rfl)

set_option maxRecDepth 4000 in
/-- The failed collection has left no cache: later write signals find no number. -/
theorem serve_write_stuck : ∃ s w', (workerTask twoSettings 64).Reachable s ∧ s.read = true ∧
    s.dropped = false ∧ (∀ i ∈ s.world.list, s.world.state i ≠ .initial) ∧ Fits 64 s.world ∧
    serveWrite 64 (s.world.withFaults .none) = .ok () w' ∧ ¬ Saved s.world w' := by
  refine ⟨failedTask, failedTask.world.withFaults .none, reachable_of_steady steady_failedTask, rfl, rfl,
    editedTask_ready.1, editedTask_ready.2, rfl, fun hsaved => ?_⟩
  have hstill : failedTask.world.state settingA = .needsWrite := by decide +kernel
  have h := (hsaved settingA (List.mem_singleton_self _) hstill).1
  exact absurd (hstill.symm.trans h) (by decide)

end CfgNoodle

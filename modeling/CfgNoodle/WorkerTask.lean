import CfgNoodle.Sessions
import CfgNoodle.Worker

/-! # The task of the default worker

The loop of `default_worker_task` with the calls that its branches make, the
storage that these work on and the nodes that other tasks change meanwhile. The
loop may be dropped at any of its storage operations; the invariant of the cache
holds there too. -/
namespace CfgNoodle
open Framing Outcome Runs
open scoped List
variable {E : Env}

/-! ## Calls and branches -/

/-- A call whose errors are logged: the task goes on with whether it returned
`Ok`, unless its future is dropped. -/
def logged {α : Type} (x : M E α) : M E Bool := fun w =>
  match x w with
  | .ok _ w' => .ok true w'
  | .error (.error _) w' => .ok false w'
  | .error e w' => .error e w'

/-- What a branch calls. -/
def Worker.Serving.run (bufLen : Nat) : Worker.Serving → M E Bool
  | .processReads => logged CfgNoodle.processReads
  | .processWrites => logged (CfgNoodle.processWrites bufLen)
  | .garbageBefore | .garbageAfter | .garbageAlone => logged processGarbage

/-- The branch of `needs_write`. -/
def serveWrite (bufLen : Nat) : M E Unit := do
  let _ ← Worker.Serving.garbageBefore.run bufLen
  let _ ← Worker.Serving.processWrites.run bufLen
  let _ ← Worker.Serving.garbageAfter.run bufLen

/-- What follows when the stopper has completed. That no read has been made is
only warned about. -/
def shutdown (bufLen : Nat) : M E Unit := fun w =>
  match processWrites bufLen w with
  | .ok _ w' => .ok () w'
  | .error (.error (.appError .needsGarbageCollect)) w' =>
    (do
      let _ ← logged processGarbage
      let _ ← logged (processWrites bufLen)) w'
  | .error (.error _) w' => .ok () w'
  | .error e w' => .error e w'

/-! ## Runs -/

/-- The task: its loop, the list with its storage, whether the loop's future has
been dropped, and whether a call of `process_reads` has returned `Ok`. -/
structure WorkerTask (E : Env) where
  loop : Worker.State
  world : World E
  dropped : Bool
  read : Bool

inductive TaskEvent (E : Env) where
  /-- Other tasks attach, detach and write nodes. -/
  | nodes (list : List E.Id) (cells : Cells E)
  /-- A signal, a timer or a poll. -/
  | wake (e : Worker.Event)
  /-- The call that the loop is in ends. -/
  | call (fs : Faults E.Err)
  /-- The stopper completes. -/
  | stop

namespace WorkerTask

/-- A call that does not return is one in which the loop is dropped. -/
def call (s : WorkerTask E) (bufLen : Nat) (c : Worker.Serving) (fs : Faults E.Err) : WorkerTask E :=
  match c.run bufLen (s.world.withFaults fs) with
  | .ok ok w =>
    { s with loop := s.loop.step (.returned ok), world := w
             read := s.read || (ok && c = .processReads) }
  | .error _ w => { s with world := w, dropped := true }

def next (s : WorkerTask E) (bufLen : Nat) : TaskEvent E → WorkerTask E
  | .nodes list cells => { s with world := { s.world with list, cells } }
  | .wake e => { s with loop := s.loop.step e }
  | .call fs =>
    match s.loop.stage with
    | .select _ _ _ => s
    | .serve c => s.call bufLen c fs
  | .stop => { s with dropped := true }

/-- Attached nodes have different keys, and nothing happens to a loop that was dropped. -/
def Allows (s : WorkerTask E) : TaskEvent E → Prop
  | .nodes list _ => (list.map E.key).Nodup
  | .wake e => s.dropped = false ∧ ∀ ok, e ≠ .returned ok
  | .call _ => s.dropped = false
  | .stop => True

end WorkerTask

/-- The runs of the task on any storage. -/
def workerTask (E : Env) (bufLen : Nat) : System (WorkerTask E) (TaskEvent E) where
  init s := ∃ items, s = ⟨.new, World.boot items, false, false⟩
  step s e s' := s.Allows e ∧ s' = s.next bufLen e

/-! ## What a collection keeps -/

/-- A cached range that covers a valid record and, of what follows it, at most a
`Start` with the same number. -/
structure Snug (items : List Item) (r : GoodWriteRecord) (f : Record) : Prop
    extends Points (E := E) items r f where
  last : r.range.last ≤ f.last + 1
  next : r.range.last = f.last + 1 → ∀ it, items[f.last + 1]? = some it →
    it.data = none ∨ it.data = some (.start f.key)

theorem Spans.snug {items : List Item} {r : GoodWriteRecord} {f : Record}
    (h : Spans (E := E) items r f) : Snug (E := E) items r f := by
  refine ⟨h.toPoints, ?_, fun heq it hit => ?_⟩
  · rcases h.last with h | ⟨h, _⟩ <;> omega
  · rcases h.last with h | ⟨_, h⟩
    · omega
    · rw [List.getElem?_eq_none (by omega)] at hit
      cases hit

theorem snug_goodOf {items : List Item} {f : Record} (hf : f ∈ validRecords E items) :
    Snug (E := E) items (goodOf f) f := (spans_goodOf hf).snug

section Survivors
variable {items : List Item} {cur : SeqState E.kept}
  (h : ∀ r ∈ cur.records, ∃ f, Snug (E := E) items r f)
include h

theorem located_of_snug : Located items cur := fun r hr => (h r hr).imp fun _ hf => hf.toPoints

/-- What a collection keeps is in a cached record, or is a `Start` after one. -/
theorem kept_item {i : Nat} {it : Item} (hit : items[i]? = some it)
    (hk : keepIdx cur items i = true) : ∃ r ∈ cur.records, ∃ f, Points (E := E) items r f ∧
      (it ∈ f.seg ∧ f.start ≤ i ∧ i < f.start + f.seg.length ∨ it.data = some (.start f.key)) := by
  simp only [keepIdx] at hk
  rw [hit, Option.any_some, Bool.and_eq_true, lastRecordsContain_iff] at hk
  obtain ⟨⟨r, hr, hin⟩, hsome⟩ := hk
  obtain ⟨f, hf⟩ := h r hr
  refine ⟨r, hr, f, hf.toPoints, ?_⟩
  have hlen : 2 ≤ f.seg.length := by
    obtain ⟨_, _, _, hk, _⟩ := (mem_frames _).mp hf.mem
    exact hk.length
  have hfirst := hf.first
  have hlast := hf.last
  simp only [RangeInclusive.contains] at hin
  simp only [Bool.and_eq_true, decide_eq_true_eq] at hin
  have hdef : f.last = f.start + f.seg.length - 1 := rfl
  by_cases hi : i ≤ f.last
  · have hlt : i < f.start + f.seg.length := by omega
    have hat := getElem?_record hf.mem (hfirst ▸ hin.1) hlt
    rw [hit] at hat
    exact Or.inl ⟨List.mem_of_getElem? hat.symm, hfirst ▸ hin.1, hlt⟩
  · obtain rfl : i = f.last + 1 := by omega
    refine Or.inr ((hf.next (by omega) it hit).resolve_left fun hnone => ?_)
    rw [hnone] at hsome
    cases hsome

/-- Every `Start` that a collection leaves has a number that is cached. -/
theorem survivors_start {x : Item} (hx : x ∈ survivors cur items) {k : NonZeroU32}
    (hd : x.data = some (.start k)) : ∃ r ∈ cur.records, r.seq = k := by
  obtain ⟨i, hi, hk⟩ := exists_of_mem_survive _ hx
  rw [Nat.zero_add] at hk
  obtain ⟨r, hr, f, hf, ⟨hmem, _⟩ | hstart⟩ := kept_item h hi hk
  · obtain ⟨_, _, _, hrec, _⟩ := (mem_frames _).mp hf.mem
    exact ⟨r, hr, hf.seq.trans (IsRecord.start_eq hrec hmem hd)⟩
  · refine ⟨r, hr, hf.seq.trans ?_⟩
    rw [hstart] at hd
    exact Elem.start.inj (Option.some.inj hd)

/-- A collection leaves the records that the cache points at and no other. -/
theorem contents_survivors : contents (recordGrammar E.crc) (survivors cur items) =
    (keptRecords cur items).map fun f => (f.key, f.seg) := by
  have hloc := located_of_snug h
  have hlaid := Laid.of_sublist (recordGrammar E.crc) items.length items 0 _ (Nat.le_refl _)
    (keptRecords_sublist cur items)
  refine (hlaid.contents_survive _ (fun f hf i hi hlt => ?_) fun i x hx hk => ?_).1
  · obtain ⟨r, hr, hp⟩ := (mem_keptRecords hloc).mp hf
    exact hp.keepIdx hr hi hlt
  · rw [Nat.zero_add] at hk ⊢
    obtain ⟨r, hr, f, hf, ⟨_, hi, hlt⟩ | hstart⟩ := kept_item h hx hk
    · exact Or.inl ⟨f, (mem_keptRecords hloc).mpr ⟨r, hr, hf⟩, hi, hlt⟩
    · refine Or.inr fun hnone => ?_
      have hopens : x.opens = none := hnone
      simp only [Item.opens] at hopens
      rw [hstart] at hopens
      cases hopens

end Survivors

/-! ## What the cache keeps -/

/-- What holds of the cache wherever the loop is, or was dropped. -/
structure Sound (items : List Item) (s : SeqState E.kept) : Prop where
  snug : ∀ r ∈ s.records, ∃ f, Snug (E := E) items r f
  sorted : s.Sorted
  exact : s.needsGc = false → s.records ⊆ goodRecords E items
  due : s.needsGc = true → s.records ≠ []
  unset : s.nextSeq = none → s.records = [] ∨ ∃ r ∈ s.records, r.seqKey = NonZeroU32.MAX
  above : ∀ n, s.nextSeq = some n → ∀ r ∈ s.records, r.seqKey < n.get
  next : ∀ n, s.nextSeq = some n → s.needsGc = false → ∀ f ∈ validRecords E items,
    f.key.get ≤ n.get ∧ (f.key = n → ∀ it, items[f.last + 1]? = some it →
      it.data = none ∨ it.data = some (.start n))

theorem Sound.located {items : List Item} {s : SeqState E.kept} (h : Sound items s) :
    Located items s := located_of_snug h.snug

theorem sound_new (items : List Item) : Sound (E := E) items .new :=
  ⟨by simp, SeqState.sorted_new, fun _ => by simp, nofun,
    fun _ => Or.inl SeqState.records_new, nofun, nofun⟩

/-- A cache into which something was inserted. -/
theorem sound_of_inserted {items : List Item} {s : SeqState E.kept}
    (hsnug : ∀ r ∈ s.records, ∃ f, Snug (E := E) items r f) (hs : s.Sorted) (hi : s.Inserted)
    (hne : s.records ≠ []) : Sound items s := by
  obtain ⟨r, hmem, _, hle, hnext⟩ := hi.highest hs hne
  refine ⟨hsnug, hs, fun hgc => ?_, fun _ => hne, fun hn => Or.inr ⟨r, hmem, ?_⟩, fun n hn x hx => ?_,
    fun n _ hgc => ?_⟩
  · rw [hi.needsGc] at hgc
    cases hgc
  · exact NonZeroU32.checkedAdd_one_eq_none.mp (hnext.symm.trans hn)
  · have h1 : n.get = r.seqKey + 1 := NonZeroU32.checkedAdd_eq_some.mp (hnext.symm.trans hn)
    have h2 := hle x hx
    omega
  · rw [hi.needsGc] at hgc
    cases hgc

/-- A scan that has offered some of the valid records. -/
theorem Sound.insertAll {items : List Item} {s : SeqState E.kept} (h : Sound items s)
    {recs : List GoodWriteRecord} (hsub : recs ⊆ goodRecords E items) :
    Sound items (s.insertAll E.sorter recs) := by
  rcases SeqState.insertAll_cases E.sorter recs s with he | hi
  · rw [he]
    exact h
  · by_cases hne : recs ++ s.records = []
    · obtain ⟨rfl, _⟩ := List.append_eq_nil_iff.mp hne
      exact h
    · refine sound_of_inserted (fun r hr => ?_) (h.sorted.insertAll E.sorter recs) hi ?_
      · rcases SeqState.mem_insertAll E.sorter recs hr with hin | hin
        · obtain ⟨f, hf, rfl⟩ := List.mem_map.mp (hsub hin)
          exact ⟨f, snug_goodOf hf⟩
        · exact h.snug r hin
      · obtain ⟨y, hy, _⟩ := SeqState.exists_max_insertAll E.sorter E.kept_pos s hne
        exact List.ne_nil_of_mem hy

theorem Sound.populate {items : List Item} {s : SeqState E.kept} (h : Sound items s) :
    Sound items (CfgNoodle.populate E items s) := by
  cases hn : s.nextSeq with
  | some n =>
    rw [populate_of_nextSeq hn]
    exact h
  | none =>
    have heq : CfgNoodle.populate E items s =
        (s.insertAll E.sorter (goodRecords E items)).finishScan := populate_of_unset hn
    have hins := h.insertAll (List.Subset.refl (goodRecords E items))
    rw [heq]
    rcases hins.sorted.highestSeen with ⟨_, hnil⟩ | ⟨r, hr, _⟩
    · -- nothing was found: the first number is next
      have hrec : goodRecords E items ++ s.records = [] := by
        by_contra hne
        obtain ⟨y, hy, _⟩ := SeqState.exists_max_insertAll E.sorter E.kept_pos s hne
        rw [hnil] at hy
        cases hy
      obtain ⟨hgood, _⟩ := List.append_eq_nil_iff.mp hrec
      refine ⟨?_, ?_, ?_, ?_, ?_, ?_, ?_⟩
      · rw [finishScan_records]
        exact hins.snug
      · simp only [SeqState.Sorted]
        rw [finishScan_lastRecords]
        exact hins.sorted
      · rw [finishScan_records, hnil]
        exact fun _ => List.nil_subset _
      · rw [finishScan_needsGc, finishScan_records]
        exact hins.due
      · rw [finishScan_records]
        exact fun _ => Or.inl hnil
      · rw [finishScan_records, hnil]
        exact fun _ _ r hr => by cases hr
      · rw [goodRecords_eq_nil.mp hgood]
        exact fun _ _ _ f hf => by cases hf
    · rwa [finishScan_eq_self hr]

theorem sound_scan_clean (items : List Item) : Sound items (SeqState.scan E items).clean := by
  have h := (sound_new (E := E) items).populate
  rw [populate_new] at h
  exact ⟨h.snug, h.sorted, fun _ => (scan_isTop items).subset, nofun, h.unset, h.above,
    fun n hn _ f hf => ⟨(scan_nextSeq_above hn f hf).le, fun hkey =>
      absurd (scan_nextSeq_above hn f hf) (hkey ▸ Nat.lt_irrefl _)⟩⟩

/-! ## Every call keeps it -/

/-- A part of a record starts with its `Start`, or with an item that does not decode. -/
theorem partly_head {fs : Faults E.Err} {call : Nat} {n : NonZeroU32} {ds : List SerData}
    {part : List Item} (h : Partly fs call (recordElems E n ds) part) :
    ∀ it ∈ part.head?, it.data = none ∨ it.data = some (.start n) := by
  have hmap : ∀ es rest : List Elem, es ++ rest = recordElems E n ds →
      ∀ it ∈ (es.map (stored E call)).head?, it.data = some (.start n) := by
    intro es rest h it hit
    cases es with
    | nil => cases hit
    | cons e es =>
      obtain ⟨rfl, _⟩ := List.cons.inj h
      obtain rfl := Option.some.inj hit
      rfl
  cases h with
  | some es rest _ h => exact fun it hit => Or.inr (hmap es rest h it hit)
  | whole _ es rest h => exact fun it hit => Or.inr (hmap es rest h it hit)
  | torn es rest len _ h =>
    intro it hit
    cases es with
    | nil =>
      obtain rfl := Option.some.inj hit
      exact Or.inl rfl
    | cons e es => exact Or.inr (hmap (e :: es) rest h it hit)

theorem Sound.push {items more : List Item} {s : SeqState E.kept} {n : NonZeroU32}
    (h : Sound items s) (hn : s.nextSeq = some n) (hgc : s.needsGc = false)
    (hv : validRecords E (items ++ more) = validRecords E items ∨
      ∃ ds call, more = recordItems E n ds call)
    (hhead : ∀ it ∈ more.head?, it.data = none ∨ it.data = some (.start n)) :
    Sound (items ++ more) s := by
  have hg : Grown E items n (items ++ more) := by
    rcases hv with hv | ⟨ds, call, rfl⟩
    · exact Or.inl hv
    · exact grown_record items n ds call
  have hexact : s.records ⊆ goodRecords E (items ++ more) := fun r hr => hg.good (h.exact hgc hr)
  have hold : ∀ f ∈ validRecords E items, f.key.get ≤ n.get ∧ (f.key = n →
      ∀ it, (items ++ more)[f.last + 1]? = some it → it.data = none ∨ it.data = some (.start n)) := by
    intro f hf
    obtain ⟨hle, hnext⟩ := h.next n hn hgc f hf
    refine ⟨hle, fun hkey it hit => ?_⟩
    obtain ⟨pre, post, hs, hrec, hitems⟩ := (mem_frames _).mp hf
    have hlen : f.last + 1 ≤ items.length := by
      have := hrec.length
      rw [hitems]
      simp only [List.length_append, Frame.last]
      omega
    rcases Nat.lt_or_eq_of_le hlen with hlt | heq
    · rw [List.getElem?_append_left hlt] at hit
      exact hnext hkey it hit
    · rw [heq, List.getElem?_append_right (Nat.le_refl _), Nat.sub_self] at hit
      exact hhead it (by rwa [List.head?_eq_getElem?])
  refine ⟨fun r hr => ?_, h.sorted, fun _ => hexact, h.due, h.unset, h.above, fun m hm _ f hf => ?_⟩
  · obtain ⟨f, hf, rfl⟩ := List.mem_map.mp (hexact hr)
    exact ⟨f, snug_goodOf hf⟩
  · obtain rfl := Option.some.inj (hn.symm.trans hm)
    rcases hv with hv | ⟨ds, call, rfl⟩
    · exact hold f (hv ▸ hf)
    · rw [validRecords_append_record, List.mem_append, List.mem_singleton] at hf
      rcases hf with hf | rfl
      · exact hold f hf
      · refine ⟨Nat.le_refl _, fun _ it hit => ?_⟩
        have hlen := (isRecord_recordItems (E := E) n ds call).length
        rw [List.getElem?_eq_none (by simp only [List.length_append, Frame.last]; omega)] at hit
        cases hit

theorem head_recordItems (n : NonZeroU32) (ds : List SerData) (call : Nat) :
    ∀ it ∈ (recordItems E n ds call).head?, it.data = none ∨ it.data = some (.start n) := by
  intro it hit
  obtain rfl := Option.some.inj hit
  exact Or.inr rfl

theorem Sound.record {items : List Item} {s : SeqState E.kept} {n : NonZeroU32} (h : Sound items s)
    (hn : s.nextSeq = some n) (hgc : s.needsGc = false) (ds : List SerData) (call : Nat) :
    Sound (items ++ recordItems E n ds call) s :=
  h.push hn hgc (Or.inr ⟨ds, call, rfl⟩) (head_recordItems n ds call)

/-- The range that the verification takes is snug, whichever record it matched. -/
theorem Sound.written {items : List Item} {s : SeqState E.kept} {n : NonZeroU32} (h : Sound items s)
    (hn : s.nextSeq = some n) (hgc : s.needsGc = false) {ds : List SerData} {call : Nat}
    {rpt : WriteReport} {range : RangeInclusive} (hseq : rpt.seq = n)
    (hv : Verifies E rpt (items ++ recordItems E n ds call) range) :
    Sound (items ++ recordItems E n ds call) (s.insertGood E.sorter ⟨n, range⟩) := by
  have hp := h.record hn hgc ds call
  obtain ⟨f, hf, hkey, _, rfl⟩ := hv.frame
  rw [hseq] at hkey
  have hlt := h.above n hn
  have hmem := mem_insertGood_of_above (r := ⟨n, ⟨f.start, f.last + 1⟩⟩) hlt
  refine sound_of_inserted (fun r hr => ?_) (h.sorted.insertGood E.sorter _)
    (inserted_of_above (r := ⟨n, ⟨f.start, f.last + 1⟩⟩) hlt) (List.ne_nil_of_mem hmem)
  rcases SeqState.mem_insertGood E.sorter hr with rfl | hr
  · refine ⟨f, ⟨hf, hkey.symm, rfl, Nat.le_succ _⟩, Nat.le_refl _, fun _ it hit => ?_⟩
    rw [hkey]
    exact (hp.next n hn hgc f hf).2 hkey it hit
  · exact hp.snug r hr

/-- A scan that a read error cut short. -/
theorem Sound.stopped {items : List Item} {s : SeqState E.kept} (h : Sound items s) (q : Nat) :
    Sound items (s.insertAll E.sorter (acceptedBefore E items q)) := by
  refine h.insertAll fun r hr => ?_
  rw [(goodRecords_split (E := E) items q).1]
  exact List.mem_append_left _ hr

theorem Sound.reads {w : World E} (h : Sound w.items w.seqState) :
    Ends processReads w (fun _ w' => Sound w'.items w'.seqState ∧ w'.list = w.list)
      fun _ w' => Sound w'.items w'.seqState ∧ w'.list = w.list := by
  refine (processReads_spec h.located).mono ?_ ?_
  · intro _ w' hx
    obtain ⟨_, _, rfl⟩ := hx
    exact ⟨h.populate, rfl⟩
  · intro _ w' hx
    obtain ⟨_, _, ⟨_, q, _, _, rfl⟩ | ⟨_, _, _, rfl⟩⟩ := hx
    · exact ⟨h.stopped q, rfl⟩
    · exact ⟨h.populate, rfl⟩

theorem Sound.writes {w : World E} (h : Sound w.items w.seqState) (bufLen : Nat) :
    Ends (processWrites bufLen) w (fun _ w' => Sound w'.items w'.seqState ∧ w'.list = w.list)
      fun _ w' => Sound w'.items w'.seqState ∧ w'.list = w.list := by
  refine (processWrites_spec bufLen w).mono ?_ ?_
  · intro _ w' hor
    rcases hor with ⟨_, rfl⟩ | ⟨n, range, _, hdue, _, _, hv, rfl⟩
    · exact ⟨h, rfl⟩
    · exact ⟨h.written (writeDue_nextSeq hdue) (writeDue_clean hdue) rfl hv, rfl⟩
  · intro _ w' hor
    rcases hor with ⟨_, _, _, rfl⟩ | ⟨n, _, hdue, _, ⟨_, part, hp, _, rfl⟩ | ⟨_, _, rfl⟩⟩
    · exact ⟨h, rfl⟩
    · refine ⟨h.push (writeDue_nextSeq hdue) (writeDue_clean hdue) ?_ (partly_head hp), rfl⟩
      exact (validRecords_append_partly w.items hp).imp_right fun hwhole => ⟨_, _, hwhole.2⟩
    · exact ⟨h.record (writeDue_nextSeq hdue) (writeDue_clean hdue) _ _, rfl⟩

/-- A list on its storage, as it is in every state of the task. -/
structure Tended (w : World E) : Prop where
  sound : Sound w.items w.seqState
  keys : (w.list.map E.key).Nodup

theorem Tended.reads {w : World E} (h : Tended w) :
    Ends processReads w (fun _ => Tended) fun _ => Tended := by
  have hkeys : ∀ w' : World E, Sound w'.items w'.seqState ∧ w'.list = w.list → Tended w' :=
    fun w' hx => ⟨hx.1, hx.2 ▸ h.keys⟩
  exact h.sound.reads.mono (fun _ => hkeys) fun _ => hkeys

theorem Tended.writes {w : World E} (h : Tended w) (bufLen : Nat) :
    Ends (processWrites bufLen) w (fun _ => Tended) fun _ => Tended := by
  have hkeys : ∀ w' : World E, Sound w'.items w'.seqState ∧ w'.list = w.list → Tended w' :=
    fun w' hx => ⟨hx.1, hx.2 ▸ h.keys⟩
  exact (h.sound.writes bufLen).mono (fun _ => hkeys) fun _ => hkeys

theorem Tended.garbage {w : World E} (h : Tended w) :
    Ends processGarbage w (fun _ => Tended) fun _ => Tended := by
  refine (processGarbage_spec w).mono ?_ ?_
  · intro _ w' hor
    rcases hor with ⟨_, rfl⟩ | ⟨_, _, _, rfl⟩
    · exact h
    · exact ⟨sound_scan_clean _, h.keys⟩
  · intro _ w' hx
    obtain ⟨_, _, _, _, ⟨p, rfl⟩ | ⟨q, _, _, _, rfl⟩⟩ := hx
    · exact ⟨sound_new _, h.keys⟩
    · exact ⟨(sound_new (survivors w.seqState w.items)).stopped q, h.keys⟩

/-- A logged call ends in a state in which the call can end. -/
theorem logged_ends {α : Type} {x : M E α} {w : World E} {P : World E → Prop}
    (h : Ends x w (fun _ => P) fun _ => P) : Ends (logged x) w (fun _ => P) fun _ => P := by
  simp only [Ends, logged]
  rcases h.cases with ⟨a, w', hx, hp⟩ | ⟨e, w', hx, hp⟩
  · rw [hx]
    exact hp
  · rw [hx]
    cases e <;> exact hp

theorem logged_ok {α : Type} {x : M E α} {w w' : World E} {a : α} (h : x w = .ok a w') :
    logged x w = .ok true w' := by
  simp only [logged]
  rw [h]

theorem logged_error {α : Type} {x : M E α} {w w' : World E} {e : LoadStoreError E.Err}
    (h : x w = .error (.error e) w') : logged x w = .ok false w' := by
  simp only [logged]
  rw [h]

theorem Tended.run {w : World E} (h : Tended w) (bufLen : Nat) (c : Worker.Serving) :
    Ends (c.run bufLen) w (fun _ => Tended) fun _ => Tended := by
  cases c with
  | processReads => exact logged_ends h.reads
  | processWrites => exact logged_ends (h.writes bufLen)
  | garbageBefore | garbageAfter | garbageAlone => exact logged_ends h.garbage

/-- In every state of the task. -/
theorem tended_reachable {bufLen : Nat} {s : WorkerTask E}
    (hs : (workerTask E bufLen).Reachable s) : Tended s.world := by
  refine hs.invariant (I := fun s => Tended s.world) ?_ ?_
  · intro _ hx
    obtain ⟨items, rfl⟩ := hx
    exact ⟨sound_new items, List.nodup_nil⟩
  · intro s e _ hi hx
    obtain ⟨hallow, rfl⟩ := hx
    cases e with
    | nodes list cells => exact ⟨hi.sound, hallow⟩
    | wake e => exact hi
    | stop => exact hi
    | call fs =>
      show Tended (s.next bufLen (.call fs)).world
      simp only [WorkerTask.next]
      cases s.loop.stage with
      | select r w g => exact hi
      | serve c =>
        show Tended (s.call bufLen c fs).world
        simp only [WorkerTask.call]
        have hend : Ends (c.run bufLen) (s.world.withFaults fs) (fun _ => Tended) fun _ => Tended :=
          Tended.run (w := s.world.withFaults fs) ⟨hi.sound, hi.keys⟩ bufLen c
        rcases hend.cases with ⟨_, _, hx, h⟩ | ⟨_, _, hx, h⟩ <;> rwa [hx]

end CfgNoodle

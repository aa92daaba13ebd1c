import CfgNoodle.WorkerTask

/-! # Cached locations

A list whose calls may fail or be dropped at any of their storage operations, on a
storage that nothing else changes. Where a location is cached, a record is stored:
whatever moves the items of the storage has emptied the cache before. -/
namespace CfgNoodle
open Framing Outcome Runs
variable {E : Env}

/-! ## A list in service -/

/-- A list on its storage, and how far the collection under way has come. -/
structure Service (E : Env) where
  world : World E
  gc : Gc E

/-- What can happen next. The sections of `process_garbage` are apart: between
them the mutex is free. -/
inductive Visit (E : Env) where
  /-- The nodes are attached, detached and written. -/
  | nodes (list : List E.Id) (cells : Cells E)
  | processReads (fs : Faults E.Err)
  | processWrites (bufLen : Nat) (fs : Faults E.Err)
  | gcTake
  | gcCollect (fs : Faults E.Err)
  | gcFinish (fs : Faults E.Err)
  /-- `process_garbage` is dropped between two of its sections. -/
  | abandon
  | resetCache
  | powerLoss

namespace Service

/-- Where a section of `process_garbage` ended. -/
def ended {α : Type} (gc : α → Gc E) : EStateM.Result (Stop E.Err) (World E) α → Service E
  | .ok a w => ⟨w, gc a⟩
  | .error _ w => ⟨w, .idle⟩

/-- The storage is lent to one call at a time. -/
def next (s : Service E) : Visit E → Service E
  | .nodes list cells => { s with world := { s.world with list, cells } }
  | .processReads fs =>
    match s.gc with
    | .idle => { s with world := endState (CfgNoodle.processReads (s.world.withFaults fs)) }
    | _ => s
  | .processWrites bufLen fs =>
    match s.gc with
    | .idle =>
      { s with world := endState (CfgNoodle.processWrites bufLen (s.world.withFaults fs)) }
    | _ => s
  | .gcTake =>
    match s.gc with
    | .idle => ended (fun cur => cur.elim .idle .collecting) (CfgNoodle.gcTake s.world)
    | _ => s
  | .gcCollect fs =>
    match s.gc with
    | .collecting cur =>
      ended (fun _ => .finishing) (CfgNoodle.gcCollect cur (s.world.withFaults fs))
    | _ => s
  | .gcFinish fs =>
    match s.gc with
    | .finishing => ended (fun _ => .idle) (CfgNoodle.gcFinish (s.world.withFaults fs))
    | _ => s
  | .abandon => { s with gc := .idle }
  | .resetCache => { s with world := s.world.withSeq .new }
  | .powerLoss => ⟨World.boot s.world.items, .idle⟩

/-- The cache is sound, and the cache that a collection has taken is, too. -/
structure Sound (s : Service E) : Prop where
  cache : CfgNoodle.Sound s.world.items s.world.seqState
  taken : ∀ cur, s.gc = .collecting cur →
    CfgNoodle.Sound s.world.items cur ∧ s.world.seqState = .new
  empty : s.gc = .finishing → s.world.seqState = .new

end Service

/-- The runs that start on any storage. -/
def service (E : Env) : System (Service E) (Visit E) where
  init s := ∃ items, s = ⟨World.boot items, .idle⟩
  step s v s' := s' = s.next v

/-! ## Every visit keeps the cache sound -/

theorem Service.Sound.of_idle {w : World E} (h : CfgNoodle.Sound w.items w.seqState) :
    Service.Sound (⟨w, .idle⟩ : Service E) := ⟨h, nofun, nofun⟩

theorem Service.ended_sound {α : Type} {x : M E α} {w : World E} {gc : α → Gc E}
    {Q : α → World E → Prop} {R : Stop E.Err → World E → Prop} (h : Ends x w Q R)
    (hq : ∀ a w', Q a w' → Service.Sound ⟨w', gc a⟩)
    (hr : ∀ e w', R e w' → CfgNoodle.Sound w'.items w'.seqState) :
    (Service.ended gc (x w)).Sound := by
  rcases h.cases with ⟨a, w', hx, ha⟩ | ⟨e, w', hx, he⟩
  · rw [hx]
    exact hq a w' ha
  · rw [hx]
    exact .of_idle (hr e w' he)

theorem sound_endState {α : Type} {x : M E α} {w : World E} {l : List E.Id}
    (h : Ends x w (fun _ w' => Sound w'.items w'.seqState ∧ w'.list = l)
      fun _ w' => Sound w'.items w'.seqState ∧ w'.list = l) :
    Sound (endState (x w)).items (endState (x w)).seqState := (endState_of_ends h).1

theorem Service.Sound.next {s : Service E} (h : s.Sound) (v : Visit E) : (s.next v).Sound := by
  obtain ⟨w, gc⟩ := s
  have hc : CfgNoodle.Sound w.items w.seqState := h.cache
  cases v with
  | nodes list cells => exact ⟨hc, h.taken, h.empty⟩
  | processReads fs =>
    cases gc with
    | idle => exact .of_idle (sound_endState (Sound.reads (w := w.withFaults fs) hc))
    | collecting _ | finishing => exact h
  | processWrites bufLen fs =>
    cases gc with
    | idle => exact .of_idle (sound_endState (Sound.writes (w := w.withFaults fs) hc bufLen))
    | collecting _ | finishing => exact h
  | gcTake =>
    cases gc with
    | idle =>
      refine Service.ended_sound (gcTake_spec w) ?_ fun _ _ hx => hx.elim
      intro _ w' hx
      rcases hx with ⟨rfl, rfl⟩ | ⟨rfl, _, rfl⟩
      · exact .of_idle hc
      · refine ⟨sound_new _, fun cur hg => ?_, nofun⟩
        obtain rfl := Gc.collecting.inj hg
        exact ⟨hc, rfl⟩
    | collecting _ | finishing => exact h
  | gcCollect fs =>
    cases gc with
    | collecting cur =>
      obtain ⟨_, hnew⟩ := h.taken cur rfl
      have hnew' : w.seqState = .new := hnew
      refine Service.ended_sound (gcCollect_spec cur (w.withFaults fs)) ?_ ?_
      · intro _ w' hx
        obtain ⟨f, _, rfl⟩ := hx
        refine ⟨?_, nofun, fun _ => hnew'⟩
        show CfgNoodle.Sound _ w.seqState
        rw [hnew']
        exact sound_new _
      · intro _ w' hx
        obtain ⟨_, p, f, _, rfl⟩ := hx
        show CfgNoodle.Sound _ w.seqState
        rw [hnew']
        exact sound_new _
    | idle | finishing => exact h
  | gcFinish fs =>
    cases gc with
    | finishing =>
      have hnew : w.seqState = .new := h.empty rfl
      refine Service.ended_sound (gcFinish_spec (w.withFaults fs)) ?_ ?_
      · intro _ w' hx
        obtain ⟨f, _, rfl⟩ := hx
        show Service.Sound ⟨_, .idle⟩
        refine .of_idle ?_
        show CfgNoodle.Sound w.items (populate E w.items w.seqState).clean
        rw [hnew, populate_new]
        exact sound_scan_clean _
      · intro _ w' hx
        obtain ⟨_, _, q, r, _, _, rfl⟩ := hx
        exact hc.stopped q
    | idle | collecting _ => exact h
  | abandon => exact .of_idle hc
  | resetCache => exact ⟨sound_new _, fun cur hg => ⟨(h.taken cur hg).1, rfl⟩, fun _ => rfl⟩
  | powerLoss => exact .of_idle (sound_new _)

theorem sound_service {s : Service E} (hs : (service E).Reachable s) : s.Sound := by
  refine hs.invariant ?_ ?_
  · intro _ hx
    obtain ⟨items, rfl⟩ := hx
    exact .of_idle (sound_new items)
  · intro s v _ hi heq
    subst heq
    exact hi.next v

/-! ## The cached location -/

/-- What is stored from a cached location on: the `Start` with the cached number,
data elements and an `End` with that number. -/
def AtRecord (items : List Item) (r : GoodWriteRecord) : Prop :=
  ∃ o bs c crc post, items.drop r.range.first = o :: (bs ++ c :: post) ∧
    o.data = some (.start r.seq) ∧ (∀ b ∈ bs, ∃ d, b.data = some (.data d)) ∧
    c.data = some (.end r.seq crc)

theorem Points.atRecord {items : List Item} {r : GoodWriteRecord} {f : Record}
    (h : Points (E := E) items r f) : AtRecord items r := by
  obtain ⟨pre, post, hs, hk, hitems⟩ := (mem_frames _).mp h.mem
  obtain ⟨o, bs, c, hseg, ho, hb, hc, _⟩ := IsRecord.elim hk
  refine ⟨o, bs, c, _, post, ?_, h.seq ▸ ho, hb, h.seq ▸ hc⟩
  rw [hitems, h.first, hs, List.append_assoc, List.drop_left, hseg]
  simp

/-- In every state that a run reaches, a call of `process_reads` extracts from a
location with a record, and it returns `Ok` unless one of its own reads fails. -/
theorem cached_location_fresh {s : Service E} (hs : (service E).Reachable s) (fs : Faults E.Err) :
    (∀ r total w', getOrPopulateLatest 0 (s.world.withFaults fs) = .ok (some r, total) w' →
      AtRecord s.world.items r) ∧
      ((∀ a ∈ fs.reads, a = .ok) → ∃ c w', processReads (s.world.withFaults fs) = .ok c w') := by
  have hl : Located (s.world.withFaults fs).items (s.world.withFaults fs).seqState :=
    (sound_service hs).cache.located
  constructor
  · intro r total w' hrun
    obtain ⟨hr, _⟩ := (getOrPopulateLatest_spec 0 (s.world.withFaults fs)).ok hrun
    obtain ⟨f, hf⟩ := hl.populate r (SeqState.mem_records_of_highestSeen hr.symm)
    exact hf.atRecord
  · intro hok
    rcases (processReads_spec hl).cases with ⟨c, w', hrun, _⟩ | ⟨e, w', _, hbroke, _⟩
    · exact ⟨c, w', hrun⟩
    · obtain ⟨n, f, rest, hstop⟩ := hbroke
      exact absurd hstop (not_readsStop_of_ok hok)

/-- Two records, a scan that a read error cuts short, a collection that is dropped
after its first item, and a scan again. -/
def droppedCollection : List (Visit twoSettings) :=
  [.processReads cutShort, .gcTake, .gcCollect ⟨[.ok, .ok, .cut], [], []⟩, .processReads .none]

theorem cached_location_two_records :
    (∀ r total w', getOrPopulateLatest 0 ((droppedCollection.foldl Service.next
        ⟨World.boot twoRecords, .idle⟩).world.withFaults .none) = .ok (some r, total) w' →
      AtRecord (droppedCollection.foldl Service.next ⟨World.boot twoRecords, .idle⟩).world.items r) ∧
      ((∀ a ∈ (Faults.none : Faults Unit).reads, a = .ok) → ∃ c w', processReads
        ((droppedCollection.foldl Service.next
          ⟨World.boot twoRecords, .idle⟩).world.withFaults .none) = .ok c w') :=
  cached_location_fresh (E := twoSettings)
    (System.reachable_foldl (S := service twoSettings) (fun _ _ _ => rfl)
      (.init ⟨twoRecords, rfl⟩)) .none

end CfgNoodle

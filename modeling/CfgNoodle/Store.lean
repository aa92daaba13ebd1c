import CfgNoodle.Batches
import CfgNoodle.Lib.WriteBack

/-! # The list is a write-back store

The values of the nodes are the cells, and the newest record is the durable map.
Runs of sections in which no failing write completes its record are runs of a
store that is flushed as a whole: whatever is cut off where, the storage has the
values that all nodes had at one and the same write. -/
namespace CfgNoodle
open Framing Outcome Runs
variable {E : Env}

/-! ## The store -/

def layout (E : Env) : WriteBack.Layout where
  ι := E.Id
  κ := String
  β := List UInt8
  T := E.T
  key := E.key
  encode i t := ((E.vtable i).encode t).flatten
  decode i := (E.vtable i).decode

/-- What the newest record has for a key. -/
def durable (E : Env) (items : List Item) (key : String) : Option (List UInt8) :=
  bodyFor E.cbor key (latestDatas E items)

/-- The nodes and the newest record. -/
def ListState.store (s : ListState E) : WriteBack.State (layout E) where
  live i := (s.world.cells i).t
  durable := CfgNoodle.durable E s.world.items

/-- A record was added. -/
def Completed (E : Env) (items items' : List Item) : Prop :=
  (validRecords E items).length < (validRecords E items').length

instance (items items' : List Item) : Decidable (Completed E items items') :=
  inferInstanceAs (Decidable (_ < _))

/-- What a section is to the store. -/
def storeOp (s : ListState E) (c : Section E) (s' : ListState E) : WriteBack.Op (layout E) :=
  match s.halted, c with
  | _, .powerLoss => .crash
  | false, .writeDefault i t => if s.client i = .defaulting then .assign i t else .stay
  | false, .handleWrite i t =>
    if s.client i = .handle ∧ (s.world.state i).hasValue = true then .assign i t else .stay
  | false, .detach i => if s.taken i = .attached s.addr then .forget i else .stay
  | false, .processReads _ =>
    .load fun i => s.world.state i = .initial ∧ s'.world.state i ≠ .initial
  | false, .processWrites _ _ =>
    if Completed E s.world.items s'.world.items then .flush else .stay
  | _, _ => .stay

/-! ## The runs -/

/-- A call that returned an error has not completed a record. -/
def ErrIncomplete {α : Type} (items : List Item) : EStateM.Result (Stop E.Err) (World E) α → Prop
  | .error (.error _) w' => ¬ Completed E items w'.items
  | _ => True

instance {α : Type} (items : List Item) (r : EStateM.Result (Stop E.Err) (World E) α) :
    Decidable (ErrIncomplete items r) :=
  match r with
  | .ok _ _ | .error .cut _ | .error .ub _ => .isTrue trivial
  | .error (.error _) w' => inferInstanceAs (Decidable (¬ Completed E items w'.items))

/-- The steps of the runs: the reads of a scan succeed or are cut off, a write that
returns an error has left a part of a record, and the numbers do not run out. -/
def Storing (s : ListState E) (c : Section E) (s' : ListState E) : Prop :=
  (match c with
    | .processReads fs | .gcFinish fs => NoReadError fs
    | .processWrites bufLen fs =>
      ErrIncomplete s.world.items (CfgNoodle.processWrites bufLen (s.world.withFaults fs))
    | _ => True) ∧
  ∀ f ∈ validRecords E s'.world.items, f.key.get < NonZeroU32.MAX

/-- The valid records have different numbers below the last one. -/
structure NumbersBelow (E : Env) (items : List Item) : Prop where
  distinct : Distinct E items
  below : ∀ f ∈ validRecords E items, f.key.get < NonZeroU32.MAX

def storing (E : Env) (items : List Item) : System (ListState E) (Section E) :=
  (sections E (BootedOn items)).restrict Storing

/-! ## Writes that fail -/

theorem completed_record (items : List Item) (n : NonZeroU32) (ds : List SerData) (call : Nat) :
    Completed E items (items ++ recordItems E n ds call) := by
  unfold Completed
  rw [validRecords_append_record, List.length_append]
  exact Nat.lt_succ_self _

theorem latestDatas_of_validRecords {items items' : List Item} (hd : Distinct E items)
    (hv : validRecords E items' = validRecords E items) :
    latestDatas E items' = latestDatas E items := by
  have hcont := contents_eq_of_validRecords hv
  have hlatest : latestRecord E items' = latestRecord E items := by
    refine latestRecord_of_contents hd (hcont ▸ List.Sublist.refl _) fun p hp => ?_
    exact ⟨p, hcont ▸ hp, Nat.le_refl _⟩
  unfold latestDatas
  rw [hlatest]

theorem Cached.grown {items more : List Item} {s : SeqState E.kept} {n : NonZeroU32}
    (h : Cached items s) (hn : s.nextSeq = some n) (hgc : s.needsGc = false)
    (hv : validRecords E (items ++ more) = validRecords E items) : Cached (items ++ more) s := by
  refine ⟨h.fresh.grown hn hgc (Or.inl hv) (Or.inr fun f hf => ?_), fun m hm f hf => ?_, fun hs hne => ?_⟩
  · exact h.above n hn f (hv ▸ hf)
  · exact h.above m hm f (hv ▸ hf)
  · rw [hv] at hne ⊢
    exact h.greatest hs hne

/-- A call that failed and has pushed nothing, or a part of a record. -/
theorem SectionInv.writeFailed {s : ListState E} (h : SectionInv s) (hh : s.halted = false)
    (hgc : s.gc = .idle) {bufLen : Nat} {fs : Faults E.Err} {err : LoadStoreError E.Err} {w' : World E}
    (hx : CfgNoodle.processWrites bufLen (s.world.withFaults fs) = .error (.error err) w')
    (hno : ¬ Completed E s.world.items w'.items) : SectionInv { s with world := w', gc := .idle } := by
  have hcached := h.cached hh hgc
  have hpushed : ∀ (part : List Item) (f : Faults E.Err) (n : NonZeroU32),
      writeDue (s.world.withFaults fs) = .ok (some n) →
      validRecords E (s.world.items ++ part) = validRecords E s.world.items →
      SectionInv { s with
        world := ((s.world.withFaults fs).withItems (s.world.items ++ part)).withFaults f,
        gc := .idle } := by
    intro part f n hdue hv
    have hlatest := latestDatas_of_validRecords h.distinct hv
    refine ⟨h.linked.sameNodes _ _ rfl rfl, fun g hg => h.below g (hv ▸ hg), ?_, fun _ => ?_,
      fun i hi => ?_⟩
    · show ((validRecords E (s.world.items ++ part)).map Frame.key).Nodup
      rw [hv]
      exact h.distinct
    · exact hcached.grown (writeDue_nextSeq hdue) (writeDue_clean hdue) hv
    · show Holds (latestDatas E (s.world.items ++ part)) i (s.world.cells i)
      rw [hlatest]
      exact h.clean i hi
  rcases (processWrites_spec bufLen (s.world.withFaults fs)).error hx with
    ⟨_, _, _, rfl⟩ | ⟨n, f, hdue, _, ⟨_, part, hpart, _, rfl⟩ | ⟨_, _, rfl⟩⟩
  · exact h.nodes ⟨rfl, rfl, hgc.symm, rfl, fun i hi _ => ⟨hi, rfl⟩⟩
      (h.linked.sameNodes _ _ rfl rfl)
  · rcases validRecords_append_partly s.world.items hpart with hv | ⟨_, rfl⟩
    · exact hpushed part f n hdue hv
    · exact absurd (completed_record s.world.items n _ _) hno
  · exact absurd (completed_record s.world.items n _ _) hno

theorem SectionInv.storing {s : ListState E} (h : SectionInv s)
    (hk : ∀ i, E.cbor.Canonical (E.key i))
    (hcodec : ∀ i (t : E.T i), (E.vtable i).decode ((E.vtable i).encode t).flatten = some t)
    {c : Section E} (hc : Storing s c (s.step c)) : SectionInv (s.step c) := by
  obtain ⟨hok, hmax⟩ := hc
  cases c with
  | processWrites bufLen fs =>
    have hok : ErrIncomplete s.world.items
        (CfgNoodle.processWrites bufLen (s.world.withFaults fs)) := hok
    have hpersist : OkOrCut s.world.items (CfgNoodle.processWrites bufLen (s.world.withFaults fs)) →
        SectionInv (s.step (.processWrites bufLen fs)) :=
      fun hx => h.step hk hcodec ⟨hx, hmax⟩
    cases hx : CfgNoodle.processWrites bufLen (s.world.withFaults fs) with
    | ok a w' => exact hpersist (by rw [hx]; trivial)
    | error e w' =>
      rw [hx] at hpersist hok
      cases e with
      | cut => exact hpersist trivial
      | ub => exact hpersist trivial
      | error err =>
        unfold ListState.step
        cases hh : s.halted with
        | true => exact h
        | false =>
          show SectionInv (s.processWrites bufLen fs)
          unfold ListState.processWrites
          split
          · next hgc =>
            rw [hx]
            exact h.writeFailed hh hgc hx hok
          · exact h
  | _ => exact h.step hk hcodec ⟨hok, hmax⟩

theorem nodesOnly_next {s : ListState E} (h : Linked s) {c : Section E} (hc : ByNodes c) :
    NodesOnly s (s.next c) := by
  cases c with
  | attach i => exact nodesOnly_attach h i
  | observe i => exact nodesOnly_observe s i
  | writeDefault i t => exact nodesOnly_writeDefault s i t
  | handleWrite i t => exact nodesOnly_handleWrite s i t
  | dropHandle i => exact nodesOnly_dropHandle s i
  | detach i => exact nodesOnly_detach s i
  | processReads | processWrites | gcTake | gcCollect | gcFinish | resetCache | powerLoss =>
    exact hc.elim

theorem step_of_running {s : ListState E} (hh : s.halted = false) (c : Section E) :
    s.step c = s.next c := by
  unfold ListState.step
  rw [hh]

/-- In the runs above they may take every step. -/
theorem SectionInv.storing_nodes {s : ListState E} (h : SectionInv s) {c : Section E}
    (hc : ByNodes c) : Storing s c (s.step c) := by
  have hitems : (s.step c).world.items = s.world.items := by
    cases hh : s.halted with
    | true =>
      unfold ListState.step
      rw [hh]
      cases c with
      | powerLoss => rfl
      | _ => rfl
    | false =>
      rw [step_of_running hh]
      exact (nodesOnly_next h.linked hc).items
  refine ⟨?_, fun f hf => h.below f (hitems ▸ hf)⟩
  cases c with
  | processReads | processWrites | gcFinish => exact hc.elim
  | _ => trivial

theorem sectionInv_boot {items : List Item} (hn : NumbersBelow E items) (addr : Nat) :
    SectionInv (ListState.boot (E := E) addr items) :=
  ⟨linked_boot addr items, hn.below, hn.distinct, fun _ => cached_new items, fun _ hi => by cases hi⟩

theorem sectionInv_storing {items : List Item} (hn : NumbersBelow E items)
    (hk : ∀ i, E.cbor.Canonical (E.key i))
    (hcodec : ∀ i (t : E.T i), (E.vtable i).decode ((E.vtable i).encode t).flatten = some t)
    {s : ListState E} (h : (storing E items).Reachable s) : SectionInv s := by
  refine h.invariant ?_ ?_
  · intro s hs
    obtain ⟨addr, rfl⟩ := hs
    exact sectionInv_boot hn addr
  · intro s c s' hi hstep
    obtain ⟨rfl, hc⟩ := hstep
    exact hi.storing hk hcodec hc

/-! ## The sections as steps of the store -/

/-- The state of the store is that of the nodes' values and the newest record. -/
theorem store_eq {s s' : ListState E} (hcells : ∀ i, (s'.world.cells i).t = (s.world.cells i).t)
    (hd : latestDatas E s'.world.items = latestDatas E s.world.items) : s'.store = s.store := by
  unfold ListState.store durable
  rw [hd]
  exact congrArg (WriteBack.State.mk · _) (funext hcells)

theorem attach_store (s : ListState E) (i : E.Id) : (s.attach i).1.store = s.store := by
  unfold ListState.attach
  split
  · rfl
  · rfl
  · split <;> rfl

theorem observe_store (s : ListState E) (i : E.Id) : (s.observe i).store = s.store := by
  unfold ListState.observe
  split
  · split <;> rfl
  · rfl

theorem dropHandle_store (s : ListState E) (i : E.Id) : (s.dropHandle i).store = s.store := by
  unfold ListState.dropHandle
  split <;> rfl

theorem setCell_self (s : ListState E) (i : E.Id) (c : Cell (E.T i)) :
    (s.setCell i c).world.cells i = c := Function.update_self ..

theorem setCell_of_ne (s : ListState E) {i j : E.Id} (h : j ≠ i) (c : Cell (E.T i)) :
    (s.setCell i c).world.cells j = s.world.cells j := Function.update_of_ne h ..

/-- A value that is written to a node. -/
theorem step_setCell (s : ListState E) (i : E.Id) (t : E.T i) :
    WriteBack.Step s.store (.assign i t) (s.setCell i ⟨.needsWrite, some t⟩).store :=
  .assign (L := layout E) i t (congrArg Cell.t (setCell_self s i _))
    fun _ hj => congrArg Cell.t (setCell_of_ne s hj _)

theorem step_writeDefault (s : ListState E) (i : E.Id) (t : E.T i) :
    WriteBack.Step s.store (if s.client i = .defaulting then .assign i t else .stay)
      (s.writeDefault i t).store := by
  unfold ListState.writeDefault
  cases hc : s.client i with
  | defaulting =>
    rw [if_pos rfl]
    exact step_setCell s i t
  | _ => exact .stay _

theorem step_handleWrite (s : ListState E) (i : E.Id) (t : E.T i) :
    WriteBack.Step s.store
      (if s.client i = .handle ∧ (s.world.state i).hasValue = true then .assign i t else .stay)
      (s.handleWrite i t).1.store := by
  unfold ListState.handleWrite
  cases hc : s.client i with
  | handle =>
    by_cases hv : (s.world.state i).hasValue = true
    · rw [if_pos ⟨rfl, hv⟩]
      dsimp only
      rw [if_pos hv]
      exact step_setCell s i t
    · rw [if_neg fun h => hv h.2]
      dsimp only
      rw [if_neg hv]
      exact .stay _
  | _ => exact .stay _

theorem step_detach (s : ListState E) (i : E.Id) :
    WriteBack.Step s.store (if s.taken i = .attached s.addr then .forget i else .stay)
      (s.detach i).1.store := by
  unfold ListState.detach
  cases hr : (s.taken i).release s.addr with
  | error e =>
    have hne : s.taken i ≠ .attached s.addr := by
      intro ht
      rw [TakenForList.release_eq_ok.mpr (Or.inr ⟨ht, rfl⟩)] at hr
      cases hr
    rw [if_neg hne]
    exact .stay _
  | ok remove =>
    rcases TakenForList.release_eq_ok.mp hr with ⟨ht, rfl⟩ | ⟨ht, rfl⟩
    · rw [ht, if_neg (by simp)]
      exact .stay _
    · rw [if_pos ht]
      exact .forget (L := layout E) i (congrArg Cell.t (setCell_self s i Cell.new))
        fun _ hj => congrArg Cell.t (setCell_of_ne s hj Cell.new)

/-! ## Reads -/

/-- A cell that stops waiting is filled with what the record has for it, and any other
keeps what it has. -/
structure Fills {T : Type} (vtable : VTable T) (body : Option (List UInt8)) (c c' : Cell T) : Prop where
  filled : c.state = .initial → c'.state ≠ .initial → c'.t = body.bind vtable.decode
  kept : ¬ (c.state = .initial ∧ c'.state ≠ .initial) → c'.t = c.t

section
variable {T : Type} {vtable : VTable T} {body : Option (List UInt8)} {c : Cell T}

theorem t_of_no_value (hwf : c.Wf) (hv : c.state.hasValue = false) : c.t = none := by
  unfold Cell.Wf at hwf
  rw [hv] at hwf
  exact Option.isNone_iff_eq_none.mp (Option.isSome_eq_false_iff.mp hwf)

theorem t_of_initial (hwf : c.Wf) (hc : c.state = .initial) : c.t = none :=
  t_of_no_value hwf (congrArg State.hasValue hc)

theorem Fills.refl : Fills vtable body c c := ⟨fun hc hc' => absurd hc hc', fun _ => rfl⟩

theorem deserialize_t (hwf : c.Wf) (hc : c.state = .initial) (b : List UInt8) :
    (deserialize vtable b c).t = vtable.decode b := by
  unfold deserialize
  cases vtable.decode b with
  | some t => rfl
  | none =>
    have ht : c.t = none := t_of_initial hwf hc
    exact ht

theorem fills_offered (hwf : c.Wf) : Fills vtable body c (offered vtable body c) := by
  cases body with
  | none => exact .refl
  | some b =>
    unfold offered
    by_cases hc : c.state = .initial
    · dsimp only
      rw [if_pos hc]
      refine ⟨fun _ _ => deserialize_t hwf hc b, fun hn => absurd ⟨hc, ?_⟩ hn⟩
      exact deserialize_state vtable b c
    · dsimp only
      rw [if_neg hc]
      exact .refl

/-- A first part of a record fills as the whole does. -/
theorem fills_offered_of_prefix {cbor : Minicbor} {key : String} {ds all : List SerData}
    (hp : ds <+: all) (hwf : c.Wf) :
    Fills vtable (bodyFor cbor key all) c (offered vtable (bodyFor cbor key ds) c) := by
  cases hb : bodyFor cbor key ds with
  | none => exact .refl
  | some b =>
    rw [ bodyFor_of_prefix hp hb]
    exact fills_offered hwf

/-- Who was given nothing by the whole record stops waiting, too. -/
theorem fills_settle (hwf : c.Wf) : Fills vtable body c (offered vtable body c).settle := by
  have hf : Fills vtable body c (offered vtable body c) := fills_offered hwf
  have ht : (offered vtable body c).settle.t = (offered vtable body c).t := by
    unfold Cell.settle
    split <;> rfl
  refine ⟨fun hc _ => ?_, fun hn => ?_⟩
  · rw [ht]
    cases body with
    | none => exact t_of_initial hwf hc
    | some b =>
      unfold offered
      dsimp only
      rw [if_pos hc]
      exact deserialize_t hwf hc b
  · rw [ht]
    refine hf.kept fun hi => hn ⟨hi.1, ?_⟩
    unfold Cell.settle
    rw [if_neg hi.2]
    exact hi.2

end

/-- A section that only fills nodes from the newest record. -/
theorem step_load {s s' : ListState E} (hitems : s'.world.items = s.world.items)
    (hcells : ∀ i, Fills (E.vtable i) (durable E s.world.items (E.key i)) (s.world.cells i)
      (s'.world.cells i)) :
    WriteBack.Step s.store (.load fun i => s.world.state i = .initial ∧ s'.world.state i ≠ .initial)
      s'.store := by
  have hstore : s'.store = ⟨fun i => (s'.world.cells i).t, s.store.durable⟩ := by
    unfold ListState.store
    rw [hitems]
  rw [hstore]
  exact .load (L := layout E) (fun i hi => (hcells i).filled hi.1 hi.2) fun i hi => (hcells i).kept hi

theorem step_processReads {s : ListState E} (h : SectionInv s) (hh : s.halted = false)
    {fs : Faults E.Err} (hf : NoReadError fs) :
    WriteBack.Step s.store
      (.load fun i => s.world.state i = .initial ∧ (s.processReads fs).world.state i ≠ .initial)
      (s.processReads fs).store := by
  unfold ListState.processReads
  split
  · next hgc =>
    have hcached := h.cached hh hgc
    obtain ⟨hpop, hsome⟩ := hcached.populate h.below
    have hdatas := hpop.recordDatas h.distinct hsome
    rcases (processReads_spec (w := s.world.withFaults fs) hcached.fresh.covers.located).cases with
      ⟨a, w', hx, r, _, rfl⟩ | ⟨e, w', hx, hb, r, hr⟩
    · rw [hx]
      refine step_load rfl fun i => ?_
      show Fills _ _ _ (readCells (s.world.withFaults fs) (populate E s.world.items s.world.seqState) i)
      by_cases hi : i ∈ s.world.list
      · rw [readCells_apply (w := s.world.withFaults fs) h.linked.keys _ hi]
        unfold durable
        rw [← hdatas]
        exact fills_settle (h.linked.wf i)
      · rw [readCells_of_not_mem (w := s.world.withFaults fs) _ hi]
        exact .refl
    · obtain rfl := hf.cut_of_broke hb
      rw [hx]
      rcases hr with ⟨_, q, _, _, rfl⟩ | ⟨ds, hds, _, rfl⟩
      · exact step_load rfl fun i => .refl
      · refine step_load rfl fun i => ?_
        show Fills _ _ _ (hydrateAll s.world.list ds s.world.cells i)
        by_cases hi : i ∈ s.world.list
        · rw [hydrateAll_apply h.linked.keys hi]
          refine fills_offered_of_prefix ?_ (h.linked.wf i)
          rw [← hdatas]
          exact hds
        · rw [hydrateAll_of_not_mem hi]
          exact .refl
  · exact step_load rfl fun i => .refl

/-! ## Writes -/

/-- A record that was written has the values of all nodes and nothing else. -/
theorem snapshot_record {s : ListState E} (h : SectionInv s) (hk : ∀ i, E.cbor.Canonical (E.key i))
    {n : NonZeroU32} (hlt : ∀ f ∈ validRecords E s.world.items, f.key.get < n.get) {bufLen : Nat}
    (hw : (writeDatas bufLen s.world.cells s.world.list).2 = none) (call : Nat) :
    WriteBack.Snapshot s.store.live
      (durable E (s.world.items ++ recordItems E n (s.world.toWrite bufLen) call)) := by
  have hd : latestDatas E (s.world.items ++ recordItems E n (s.world.toWrite bufLen) call) =
      (writeDatas bufLen s.world.cells s.world.list).1 := latestDatas_append hlt _ _
  refine ⟨fun i t ht => ?_, fun key hkey => ?_⟩
  · have ht : (s.world.cells i).t = some t := ht
    have hi : i ∈ s.world.list := by
      by_contra hi
      rw [h.linked.out i hi] at ht
      cases ht
    have hv : (s.world.cells i).state.hasValue = true := by
      rw [← h.linked.wf i, ht]
      rfl
    unfold durable
    rw [hd]
    exact bodyFor_writeDatas hk h.linked.keys hw hi hv ht
  · unfold durable
    rw [hd]
    refine bodyFor_writeDatas_none bufLen hk fun j hj hv he => ?_
    obtain ⟨t, ht, _⟩ := writeDatas_isSome hw hj hv
    exact absurd (ht.symm.trans (hkey j he)) (Option.some_ne_none t)

theorem step_processWrites {s : ListState E} (h : SectionInv s) (hh : s.halted = false)
    (hk : ∀ i, E.cbor.Canonical (E.key i)) (bufLen : Nat) (fs : Faults E.Err) :
    WriteBack.Step s.store
      (if Completed E s.world.items (s.processWrites bufLen fs).world.items then .flush else .stay)
      (s.processWrites bufLen fs).store := by
  -- the storage has gained a record, or none
  have hflush : ∀ (s' : ListState E) (n : NonZeroU32) (call : Nat),
      (∀ f ∈ validRecords E s.world.items, f.key.get < n.get) →
      (writeDatas bufLen s.world.cells s.world.list).2 = none →
      s'.world.items = s.world.items ++ recordItems E n (s.world.toWrite bufLen) call →
      (∀ i, (s'.world.cells i).t = (s.world.cells i).t) →
      WriteBack.Step s.store
        (if Completed E s.world.items s'.world.items then .flush else .stay) s'.store := by
    intro s' n call hlt hw hitems hcells
    have hstore : s'.store = ⟨s.store.live, durable E s'.world.items⟩ :=
      congrArg (WriteBack.State.mk · _) (funext hcells)
    rw [hstore, hitems, if_pos (completed_record s.world.items n _ call)]
    exact .flush (snapshot_record h hk hlt hw call)
  have hstay : ∀ s' : ListState E, validRecords E s'.world.items = validRecords E s.world.items →
      (∀ i, (s'.world.cells i).t = (s.world.cells i).t) →
      WriteBack.Step s.store
        (if Completed E s.world.items s'.world.items then .flush else .stay) s'.store := by
    intro s' hv hcells
    rw [store_eq hcells (latestDatas_of_validRecords h.distinct hv), if_neg]
    · exact .stay _
    · unfold Completed
      rw [hv]
      exact Nat.lt_irrefl _
  unfold ListState.processWrites
  split
  · next hgc =>
    have hcached := h.cached hh hgc
    rcases (processWrites_spec bufLen (s.world.withFaults fs)).cases with
      ⟨a, w', hx, hq⟩ | ⟨e, w', hx, hr⟩
    · rw [hx]
      rcases hq with ⟨_, rfl⟩ | ⟨n, range, f, hdue, _, hw, _, rfl⟩
      · exact hstay _ rfl fun _ => rfl
      · exact hflush _ n _ (hcached.above n (writeDue_nextSeq hdue)) hw rfl fun i => markWritten_t _ _ i
    · rw [hx]
      obtain ⟨_, part, f, rfl, hp⟩ :=
        processWrites_pushed (w := s.world.withFaults fs) h.linked.wf hx
      have hends : ∀ s', s' = s.ended (fun _ => .idle) (.error e
            (((s.world.withFaults fs).withItems (s.world.items ++ part)).withFaults f) :
            EStateM.Result (Stop E.Err) (World E) ProcessWriteCounters) →
          s'.world.items = s.world.items ++ part ∧ s'.world.cells = s.world.cells := by
        intro s' hs'
        subst hs'
        cases e <;> exact ⟨rfl, rfl⟩
      obtain ⟨hitems, hcells⟩ := hends _ rfl
      rcases hp with hv | ⟨n, hdue, hw, rfl⟩
      · exact hstay _ ((congrArg (validRecords E) hitems).trans hv) fun i => by
          exact congrArg Cell.t (congrFun hcells i)
      · exact hflush _ n _ (hcached.above n (writeDue_nextSeq hdue)) hw hitems fun i => by
          exact congrArg Cell.t (congrFun hcells i)
  · exact hstay _ rfl fun _ => rfl

/-! ## Garbage collection -/

theorem gcTake_store (s : ListState E) : s.gcTake.store = s.store := by
  unfold ListState.gcTake
  split
  · obtain ⟨a, w', hx, ⟨rfl, rfl⟩ | ⟨rfl, _, rfl⟩⟩ := (gcTake_spec s.world).returns <;>
      rw [hx] <;> rfl
  · rfl

theorem gcFinish_store (s : ListState E) (fs : Faults E.Err) : (s.gcFinish fs).store = s.store := by
  unfold ListState.gcFinish
  split
  · rcases (gcFinish_spec (s.world.withFaults fs)).cases with
      ⟨a, w', hx, f, _, rfl⟩ | ⟨e, w', hx, _, _, q, r, _, _, rfl⟩
    · rw [hx]
      rfl
    · rw [hx]
      cases e <;> rfl
  · rfl

/-- A collection keeps the newest record, wherever it stops. -/
theorem gcCollect_store {s : ListState E} (h : SectionInv s) (hh : s.halted = false)
    (fs : Faults E.Err) : (s.gcCollect fs).store = s.store := by
  unfold ListState.gcCollect
  split
  · next cur hgc =>
    have hcache := h.cache hh
    unfold Collecting at hcache
    rw [hgc] at hcache
    obtain ⟨_, hcached, hn⟩ := hcache
    have hcollect : ∀ (s' : ListState E) (p : Nat), s'.world.cells = s.world.cells →
        s'.world.items = collected cur p s.world.items → s'.store = s.store := by
      intro s' p hcells hitems
      refine store_eq (fun i => by rw [hcells]) ?_
      unfold latestDatas
      rw [hitems, (hcached.collected h.distinct hn p).2]
    rcases (gcCollect_spec cur (s.world.withFaults fs)).cases with
      ⟨a, w', hx, f, _, rfl⟩ | ⟨e, w', hx, _, p, f, _, rfl⟩
    · rw [hx]
      exact hcollect _ s.world.items.length rfl (collected_length cur s.world.items).symm
    · rw [hx]
      cases e <;> exact hcollect _ p rfl rfl
  · rfl

/-! ## The refinement -/

theorem step_same {s s' : ListState E} (h : s'.store = s.store) :
    WriteBack.Step s.store .stay s'.store := by
  rw [h]
  exact .stay _

theorem storeOp_step_nodes {s : ListState E} (hh : s.halted = false) {c : Section E}
    (hc : ByNodes c) : WriteBack.Step s.store (storeOp s c (s.next c)) (s.next c).store := by
  unfold storeOp
  rw [hh]
  cases c with
  | attach i => exact step_same (attach_store s i)
  | observe i => exact step_same (observe_store s i)
  | writeDefault i t => exact step_writeDefault s i t
  | handleWrite i t => exact step_handleWrite s i t
  | dropHandle i => exact step_same (dropHandle_store s i)
  | detach i => exact step_detach s i
  | processReads | processWrites | gcTake | gcCollect | gcFinish | resetCache | powerLoss =>
    exact hc.elim

theorem storeOp_step {s : ListState E} (h : SectionInv s) (hk : ∀ i, E.cbor.Canonical (E.key i))
    {c : Section E} (hc : Storing s c (s.step c)) :
    WriteBack.Step s.store (storeOp s c (s.step c)) (s.step c).store := by
  cases hh : s.halted with
  | true =>
    unfold ListState.step storeOp
    rw [hh]
    cases c with
    | powerLoss => exact .crash s.store
    | _ => exact .stay s.store
  | false =>
    rw [step_of_running hh] at hc ⊢
    by_cases hn : ByNodes c
    · exact storeOp_step_nodes hh hn
    · unfold storeOp
      rw [hh]
      cases c with
      | processReads fs => exact step_processReads h hh hc.1
      | processWrites bufLen fs => exact step_processWrites h hh hk bufLen fs
      | gcTake => exact step_same (gcTake_store s)
      | gcCollect fs => exact step_same (gcCollect_store h hh fs)
      | gcFinish fs => exact step_same (gcFinish_store s fs)
      | resetCache => exact step_same rfl
      | powerLoss => exact .crash s.store
      | attach | observe | writeDefault | handleWrite | dropHandle | detach => exact absurd trivial hn

theorem run_nodes {items : List Item} (hn : NumbersBelow E items)
    (hk : ∀ i, E.cbor.Canonical (E.key i))
    (hcodec : ∀ i (t : E.T i), (E.vtable i).decode ((E.vtable i).encode t).flatten = some t)
    {steps : List (ListState E × Section E × ListState E)} {s : ListState E}
    (h : (storing E items).Run steps s) {c : Section E} (hc : ByNodes c) :
    (storing E items).Run ((s, c, s.step c) :: steps) (s.step c) :=
  h.step ⟨rfl, (sectionInv_storing hn hk hcodec h.reachable).storing_nodes hc⟩

/-- **The list refines a write-back store**: in such runs every section is the step
`storeOp` of the store, a write that completes its record a flush of all nodes,
and everything that is cut off or fails before that no step at all. -/
theorem list_refines_store {items : List Item} (hn : NumbersBelow E items)
    (hk : ∀ i, E.cbor.Canonical (E.key i))
    (hcodec : ∀ i (t : E.T i), (E.vtable i).decode ((E.vtable i).encode t).flatten = some t) :
    Refines (storing E items) (WriteBack.system (layout E) (durable E items)) ListState.store storeOp := by
  refine ⟨fun s hs => ?_, fun s c s' hr hs => ?_⟩
  · obtain ⟨addr, rfl⟩ := hs
    rfl
  · obtain ⟨rfl, hc⟩ := hs
    exact storeOp_step (sectionInv_storing hn hk hcodec hr) hk hc

/-- A storage with one record, from which a list may boot. -/
theorem numbersBelow_record (ds : List SerData) :
    NumbersBelow twoSettings (recordItems twoSettings NonZeroU32.one ds 0) := by
  have hv := validRecords_append_record (E := twoSettings) [] NonZeroU32.one ds 0
  have hnil : validRecords twoSettings [] = [] := rfl
  rw [List.nil_append, hnil, List.nil_append] at hv
  refine ⟨?_, fun f hf => ?_⟩
  · unfold Distinct
    rw [hv]
    exact List.nodup_singleton _
  · rw [hv] at hf
    obtain rfl := List.mem_singleton.mp hf
    show NonZeroU32.one.get < NonZeroU32.MAX
    decide

theorem settings_refine_store :
    Refines (storing twoSettings (recordItems twoSettings NonZeroU32.one [dataA 7] 0))
      (WriteBack.system (layout twoSettings)
        (durable twoSettings (recordItems twoSettings NonZeroU32.one [dataA 7] 0)))
      ListState.store storeOp :=
  list_refines_store (numbersBelow_record [dataA 7]) twoSettings_canonical settings_codec

end CfgNoodle

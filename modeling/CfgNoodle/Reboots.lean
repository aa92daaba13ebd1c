import CfgNoodle.Store

/-! # What reboots and readers find

Consequences of the refinement: at any time the storage has what one call of
`process_writes` wrote, all of it, for the next boot, and no value comes from
nowhere. -/
namespace CfgNoodle
open Framing Outcome Runs
variable {E : Env}

/-! ## What a reboot finds -/

/-- The step is a call of `process_writes` that added its record to the storage. -/
def Flushed (x : ListState E × Section E × ListState E) : Bool :=
  match x.2.1 with
  | .processWrites _ _ => !x.1.halted && decide (Completed E x.1.world.items x.2.2.world.items)
  | _ => false

theorem storeOp_eq_flush {x : ListState E × Section E × ListState E} :
    storeOp x.1 x.2.1 x.2.2 = .flush ↔ Flushed x = true := by
  obtain ⟨s, c, s'⟩ := x
  have hite : ∀ (p : Prop) [Decidable p] (op : WriteBack.Op (layout E)), op ≠ .flush →
      (if p then op else .stay) ≠ .flush := by
    intro p _ op hop
    split
    · exact hop
    · exact fun h => by cases h
  unfold storeOp Flushed
  cases s.halted with
  | true => cases c <;> simp
  | false =>
    cases c with
    | writeDefault i t | handleWrite i t => simpa using hite _ (.assign i t) (by simp)
    | detach i => simpa using hite _ (.forget i) (by simp)
    | processWrites bufLen fs =>
      by_cases hc : Completed E s.world.items s'.world.items <;> simp [hc]
    | _ => simp

theorem lastFlush_image (steps : List (ListState E × Section E × ListState E)) :
    WriteBack.lastFlush (steps.map (image ListState.store storeOp)) =
      (steps.find? Flushed).map fun x => x.1.store.live := by
  induction steps with
  | nil => rfl
  | cons x steps ih =>
    rw [List.map_cons]
    by_cases hx : Flushed x = true
    · have hop := storeOp_eq_flush.mpr hx
      rw [List.find?_cons_of_pos hx]
      unfold image
      rw [hop]
      rfl
    · have hop : storeOp x.1 x.2.1 x.2.2 ≠ .flush := fun h => hx (storeOp_eq_flush.mp h)
      rw [List.find?_cons_of_neg hx, ← ih]
      unfold image at hop ⊢
      cases hc : storeOp x.1 x.2.1 x.2.2 with
      | flush => exact absurd hc hop
      | _ => rfl

/-- What the newest record has is what the nodes had. -/
theorem restores_of_snapshot {s : ListState E} (h : SectionInv s) {items : List Item}
    (hcodec : ∀ i (t : E.T i), (E.vtable i).decode ((E.vtable i).encode t).flatten = some t)
    (hn : NumbersBelow E items) (hsnap : WriteBack.Snapshot s.store.live (durable E items)) :
    Restores s.world items := by
  intro list hlist
  obtain ⟨c, w', hrun, _, _, _, _, hcell⟩ := boot_hydrates hn.distinct hn.below hlist
  refine ⟨c, w', hrun, fun i hi => ?_⟩
  have hcell : w'.cells i = hydratedFrom E (latestDatas E items) i := hcell i hi
  have hsome : ∀ j t, (s.world.cells j).t = some t → E.key j = E.key i →
      w'.cells i = deserialize (E.vtable i) ((E.vtable j).encode t).flatten Cell.new := by
    intro j t ht hkey
    have hbody : bodyFor E.cbor (E.key j) (latestDatas E items) =
        some ((E.vtable j).encode t).flatten := hsnap.held j t ht
    rw [hcell]
    unfold hydratedFrom
    rw [← hkey, hbody]
  refine ⟨fun _ hv => ?_, fun j _ _ hkey t ht => hsome j t ht hkey, fun habs => ?_⟩
  · obtain ⟨t, ht⟩ := Option.isSome_iff_exists.mp ((h.linked.wf i).trans hv)
    rw [hsome i t ht rfl, ht]
    unfold deserialize
    rw [hcodec]
  · have hbody : bodyFor E.cbor (E.key i) (latestDatas E items) = none := by
      refine hsnap.rest (E.key i) fun j hj => ?_
      show (s.world.cells j).t = none
      by_cases hmem : j ∈ s.world.list
      · have hv : (s.world.cells j).state.hasValue ≠ true := fun hv => habs j hmem hv hj
        rw [← h.linked.wf j] at hv
        exact Option.not_isSome_iff_eq_none.mp hv
      · rw [h.linked.out j hmem]
        rfl
    rw [hcell]
    unfold hydratedFrom
    rw [hbody]

/-- What the storage has for the next boot, by the last step of the run that wrote to
it. -/
def LeftBy (items : List Item) (s : ListState E) :
    Option (ListState E × Section E × ListState E) → Prop
  | none => durable E s.world.items = durable E items
  | some x => Restores x.1.world s.world.items

/-- A call that had something to write and returned `Ok` has written it. -/
theorem flushed_of_ok {s : ListState E} (hh : s.halted = false) (hgc : s.gc = .idle) {bufLen : Nat}
    {fs : Faults E.Err} (hdue : needsWriting s.world = .ok true) {a : ProcessWriteCounters}
    {w' : World E} (hx : CfgNoodle.processWrites bufLen (s.world.withFaults fs) = .ok a w') :
    Flushed (s, .processWrites bufLen fs, s.step (.processWrites bufLen fs)) = true := by
  have hstep : (s.step (.processWrites bufLen fs)).world.items = w'.items := by
    unfold ListState.step
    rw [hh]
    show (s.processWrites bufLen fs).world.items = _
    unfold ListState.processWrites
    rw [hgc, hx]
    rfl
  have hitems : Completed E s.world.items w'.items := by
    rcases (processWrites_spec bufLen (s.world.withFaults fs)).ok hx with
      ⟨hno, _⟩ | ⟨n, _, _, _, _, _, _, rfl⟩
    · unfold writeDue at hno
      have hdue : needsWriting (s.world.withFaults fs) = .ok true := hdue
      rw [hdue] at hno
      split at hno
      · cases hno
      · split at hno <;> cases hno
    · exact completed_record s.world.items n _ _
  unfold Flushed
  dsimp only
  rw [hh, hstep]
  simpa using hitems

/-- **A reboot restores one write**: at any time, the storage has for the next boot the
values that all nodes of the list had together at the start of the last call of
`process_writes` that added its record. Each call that had something to write and
returned `Ok` is such a call; one that was cut off is, or has changed nothing. -/
theorem reboot_restores_write {items : List Item} (hn : NumbersBelow E items)
    (hk : ∀ i, E.cbor.Canonical (E.key i))
    (hcodec : ∀ i (t : E.T i), (E.vtable i).decode ((E.vtable i).encode t).flatten = some t)
    {steps : List (ListState E × Section E × ListState E)} {s : ListState E}
    (h : (storing E items).Run steps s) :
    LeftBy items s (steps.find? Flushed) ∧
      ∀ x ∈ steps, ∀ bufLen fs, x.2.1 = .processWrites bufLen fs → x.1.halted = false →
        x.1.gc = .idle → needsWriting x.1.world = .ok true →
        (∃ a w', CfgNoodle.processWrites bufLen (x.1.world.withFaults fs) = .ok a w') →
        Flushed x = true := by
  refine ⟨?_, fun x hx bufLen fs hc hh hgc hdue hok => ?_⟩
  · have hinv := sectionInv_storing hn hk hcodec h.reachable
    have hlast := WriteBack.durable_of_run ((list_refines_store hn hk hcodec).run h)
    rw [lastFlush_image] at hlast
    cases hf : steps.find? Flushed with
    | none =>
      rw [hf] at hlast
      exact hlast
    | some x =>
      rw [hf] at hlast
      have hx := h.reachable_of_mem x (List.mem_of_find?_eq_some hf)
      exact restores_of_snapshot (sectionInv_storing hn hk hcodec hx.1) hcodec
        ⟨hinv.distinct, hinv.below⟩ hlast
  · obtain ⟨a, w', hok⟩ := hok
    obtain ⟨s1, c, s2⟩ := x
    obtain rfl : c = .processWrites bufLen fs := hc
    obtain rfl : s2 = s1.step (.processWrites bufLen fs) := (h.reachable_of_mem _ hx).2.1
    exact flushed_of_ok hh hgc hdue hok

/-- A list along some sections and the steps it takes, the last one first. -/
def trace (s : ListState E) (cs : List (Section E)) :
    List (ListState E × Section E × ListState E) × ListState E :=
  cs.foldl (fun r c => ((r.2, c, r.2.step c) :: r.1, r.2.step c)) ([], s)

instance (i : twoSettings.Id) : DecidableEq (twoSettings.T i) := inferInstanceAs (DecidableEq UInt8)

/-- A default is written to the storage, and power is lost when it is to be replaced. -/
def overwriting : List (ListState twoSettings × Section twoSettings × ListState twoSettings) ×
    ListState twoSettings :=
  trace (ListState.boot 2 []) [.attach settingA, .processReads .none, .observe settingA,
    .writeDefault settingA (7 : UInt8), .processWrites 64 .none, .handleWrite settingA (9 : UInt8),
    .processWrites 64 { pushes := [.ok, .cut (.torn 3)] }]

theorem numbersBelow_nil : NumbersBelow E [] := ⟨List.nodup_nil, fun _ hf => absurd hf List.not_mem_nil⟩

set_option maxRecDepth 4000 in
theorem overwriting_run : (storing twoSettings []).Run overwriting.1 overwriting.2 := by
  have hnode : ∀ {steps s} {c : Section twoSettings}, (storing twoSettings []).Run steps s → ByNodes c →
      (storing twoSettings []).Run ((s, c, s.step c) :: steps) (s.step c) :=
    fun h hc => run_nodes numbersBelow_nil twoSettings_canonical settings_codec h hc
  have h0 : (storing twoSettings []).Run [] (ListState.boot (E := twoSettings) 2 []) := .init ⟨2, rfl⟩
  have h1 := hnode h0 (c := .attach settingA) trivial
  have h2 := h1.step (l := .processReads .none) ⟨rfl, noReadError_none, by decide +kernel⟩
  have h3 := hnode h2 (c := .observe settingA) trivial
  have h4 := hnode h3 (c := .writeDefault settingA (7 : UInt8)) trivial
  have h5 := h4.step (l := .processWrites 64 .none) ⟨rfl, by decide +kernel, by decide +kernel⟩
  have h6 := hnode h5 (c := .handleWrite settingA (9 : UInt8)) trivial
  exact h6.step (l := .processWrites 64 { pushes := [.ok, .cut (.torn 3)] })
    ⟨rfl, by decide +kernel, by decide +kernel⟩

set_option maxRecDepth 4000 in
theorem overwriting_restores : (overwriting.1.find? Flushed).isSome = true ∧
    LeftBy [] overwriting.2 (overwriting.1.find? Flushed) :=
  ⟨by decide +kernel, (reboot_restores_write numbersBelow_nil twoSettings_canonical settings_codec
    overwriting_run).1⟩

/-! ## Where values come from -/

/-- The value was written to the node in the run, or stood in the storage at its start. -/
def HasOrigin (items : List Item) (steps : List (ListState E × Section E × ListState E)) (i : E.Id)
    (t : E.T i) : Prop :=
  (∃ x ∈ steps, x.2.1 = .handleWrite i t ∨ x.2.1 = .writeDefault i t) ∨
    ∃ body, durable E items (E.key i) = some body ∧ (E.vtable i).decode body = some t

theorem storeOp_eq_assign {s s' : ListState E} {c : Section E} {i : E.Id} {t : E.T i}
    (h : storeOp s c s' = .assign i t) : c = .handleWrite i t ∨ c = .writeDefault i t := by
  have hite : ∀ (p : Prop) [Decidable p] (op : WriteBack.Op (layout E)),
      (if p then op else .stay) = .assign i t → op = .assign i t := by
    intro p _ op hop
    split at hop
    · exact hop
    · cases hop
  unfold storeOp at h
  cases hh : s.halted with
  | true =>
    rw [hh] at h
    cases c <;> cases h
  | false =>
    rw [hh] at h
    cases c with
    | handleWrite j u =>
      cases hite _ _ h
      exact Or.inl rfl
    | writeDefault j u =>
      cases hite _ _ h
      exact Or.inr rfl
    | detach j => cases hite _ _ h
    | processWrites bufLen fs => cases hite _ _ h
    | _ => cases h

theorem hasOrigin_of_origin {items : List Item} {steps : List (ListState E × Section E × ListState E)}
    {i : E.Id} {t : E.T i} (h : WriteBack.Origin (L := layout E) (durable E items)
      (steps.map (image ListState.store storeOp)) i t) : HasOrigin items steps i t := by
  rcases h with ⟨y, hy, hop⟩ | hb
  · obtain ⟨x, hx, rfl⟩ := List.mem_map.mp hy
    exact Or.inl ⟨x, hx, storeOp_eq_assign hop⟩
  · exact Or.inr hb

/-- **No value is made up**: where each key belongs to one node, every value of a node,
and everything the newest record has for a key, was written to the node with that
key in the run, or stood in the storage at its start. -/
theorem values_have_origin {items : List Item} (hn : NumbersBelow E items)
    (hk : ∀ i, E.cbor.Canonical (E.key i))
    (hcodec : ∀ i (t : E.T i), (E.vtable i).decode ((E.vtable i).encode t).flatten = some t)
    (hkey : ∀ i j, E.key i = E.key j → i = j)
    {steps : List (ListState E × Section E × ListState E)} {s : ListState E}
    (h : (storing E items).Run steps s) :
    (∀ i t, (s.world.cells i).t = some t → HasOrigin items steps i t) ∧
      ∀ key body, durable E s.world.items key = some body → durable E items key = some body ∨
        ∃ i t, E.key i = key ∧ ((E.vtable i).encode t).flatten = body ∧ HasOrigin items steps i t := by
  have hsourced := WriteBack.sourced_of_run (L := layout E) hkey hcodec
    ((list_refines_store hn hk hcodec).run h)
  refine ⟨fun i t ht => hasOrigin_of_origin (hsourced.live i t ht), fun key body hb => ?_⟩
  refine (hsourced.durable key body hb).imp_right fun hx => ?_
  obtain ⟨i, t, hi, ht, ho⟩ := hx
  exact ⟨i, t, hi, ht, hasOrigin_of_origin ho⟩

set_option maxRecDepth 4000 in
theorem overwriting_origin : HasOrigin [] overwriting.1 settingA (9 : UInt8) := by
  have hkey : ∀ i j : Fin 2, (if i = 0 then "a" else "b") = (if j = 0 then "a" else "b") → i = j := by
    decide
  exact (values_have_origin numbersBelow_nil twoSettings_canonical settings_codec hkey overwriting_run).1
    settingA (9 : UInt8) (by decide +kernel)

end CfgNoodle

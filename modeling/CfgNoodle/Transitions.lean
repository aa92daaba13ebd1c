import CfgNoodle.Batches

/-! # What the calls of a list do to its nodes

Whatever the storage holds, whatever is cached and wherever a call is stopped:
`process_reads` moves waiting nodes of the list out of `Initial`, `process_writes`
marks its nodes as written or leaves them alone, and `process_garbage` leaves
them alone. Nodes outside the list are never touched. -/
namespace CfgNoodle
open Outcome Runs
variable {E : Env}

/-! ## Reads -/

/-- A cell that was hydrated, found absent or left alone. -/
def Cell.Hydrates {T : Type} (c c' : Cell T) : Prop :=
  c' = c ∨ c.state = .initial ∧ (c' = ⟨.nonResident, c.t⟩ ∨ ∃ t, c' = ⟨.validNoWriteNeeded, some t⟩)

theorem Cell.Hydrates.trans {T : Type} {a b c : Cell T} (h : a.Hydrates b) (h' : b.Hydrates c) :
    a.Hydrates c := by
  rcases h with rfl | ⟨hs, h⟩
  · exact h'
  · -- a node that has left `Initial` is not hydrated again
    have hb : b.state ≠ .initial := by
      rcases h with rfl | ⟨t, rfl⟩ <;> nofun
    rcases h' with rfl | ⟨hs', _⟩
    · exact Or.inr ⟨hs, h⟩
    · exact absurd hs' hb

theorem Cell.Hydrates.wf {T : Type} {c c' : Cell T} (h : c.Hydrates c') (hc : c.Wf) : c'.Wf := by
  rcases h with rfl | ⟨hs, rfl | ⟨t, rfl⟩⟩
  · exact hc
  · simp only [Cell.Wf] at hc
    rw [hs] at hc
    exact hc
  · rfl

theorem hydrates_deserialize {T : Type} (vtable : VTable T) (body : List UInt8) {c : Cell T}
    (hs : c.state = .initial) : c.Hydrates (deserialize vtable body c) := by
  simp only [deserialize]
  cases vtable.decode body with
  | none => exact Or.inr ⟨hs, Or.inl rfl⟩
  | some t => exact Or.inr ⟨hs, Or.inr ⟨t, rfl⟩⟩

/-- The list and the storage are as they were, and its nodes have been hydrated,
found absent or left alone. -/
structure Hydrates (w w' : World E) : Prop where
  list : w'.list = w.list
  items : w'.items = w.items
  cells : ∀ i, (w.cells i).Hydrates (w'.cells i)
  out : ∀ i, i ∉ w.list → w'.cells i = w.cells i

theorem hydrates_of_cells {w w' : World E} (hl : w'.list = w.list) (hi : w'.items = w.items)
    (hc : w'.cells = w.cells) : Hydrates w w' :=
  ⟨hl, hi, fun i => Or.inl (by rw [hc]), fun i _ => by rw [hc]⟩

theorem Hydrates.refl (w : World E) : Hydrates w w := hydrates_of_cells rfl rfl rfl

theorem Hydrates.trans {w w' w'' : World E} (h : Hydrates w w') (h' : Hydrates w' w'') :
    Hydrates w w'' :=
  ⟨h'.list.trans h.list, h'.items.trans h.items, fun i => (h.cells i).trans (h'.cells i),
    fun i hi => (h'.out i (h.list ▸ hi)).trans (h.out i hi)⟩

theorem hydrates_hydrateFrom (d : SerData) (w : World E) :
    Hydrates w (w.withCells (hydrateFrom d w.list w.cells)) := by
  have hcell : ∀ i, (w.cells i).Hydrates (hydrateFrom d w.list w.cells i) := by
    intro i
    simp only [hydrateFrom]
    cases d.kvPair E.cbor with
    | error e => exact Or.inl rfl
    | ok kv =>
      dsimp only [hydrate]
      cases findNode w.list kv.key with
      | none => exact Or.inl rfl
      | some j =>
        dsimp only
        split
        · next hs =>
          by_cases hij : i = j
          · subst hij
            rw [Function.update_self]
            exact hydrates_deserialize _ _ hs
          · rw [Function.update_of_ne hij]
            exact Or.inl rfl
        · exact Or.inl rfl
  exact ⟨rfl, rfl, hcell, fun i hi => hydrateFrom_of_not_mem d w.cells hi⟩

theorem hydrates_markInitialNonresident (w : World E) :
    Hydrates w (w.withCells (markInitialNonresident w.list w.cells)) := by
  refine ⟨rfl, rfl, fun i => ?_, fun i hi => ?_⟩
  · show (w.cells i).Hydrates (markInitialNonresident w.list w.cells i)
    simp only [markInitialNonresident]
    split
    · next h => exact Or.inr ⟨h.2, Or.inl rfl⟩
    · exact Or.inl rfl
  · show markInitialNonresident w.list w.cells i = w.cells i
    simp only [markInitialNonresident]
    exact if_neg fun h => hi h.1

/-- The list and the storage are as they were, and data elements have been offered
to the nodes, one after the other. -/
structure Offers (w w' : World E) : Prop where
  list : w'.list = w.list
  items : w'.items = w.items
  cells : ∃ ds, w'.cells = hydrateAll w.list ds w.cells

theorem offers_of_cells {w w' : World E} (hl : w'.list = w.list) (hi : w'.items = w.items)
    (hc : w'.cells = w.cells) : Offers w w' := ⟨hl, hi, [], hc⟩

theorem Offers.refl (w : World E) : Offers w w := offers_of_cells rfl rfl rfl

theorem Offers.trans {w w' w'' : World E} (h : Offers w w') (h' : Offers w' w'') : Offers w w'' := by
  obtain ⟨ds, hds⟩ := h.cells
  obtain ⟨ds', hds'⟩ := h'.cells
  refine ⟨h'.list.trans h.list, h'.items.trans h.items, ds ++ ds', ?_⟩
  rw [hds', hds, h.list]
  exact (List.foldl_append ..).symm

theorem Offers.hydrates {w w' : World E} (h : Offers w w') : Hydrates w w' := by
  obtain ⟨ds, hds⟩ := h.cells
  have hall : ∀ (ds : List SerData) (w : World E),
      Hydrates w (w.withCells (hydrateAll w.list ds w.cells)) := by
    intro ds
    induction ds with
    | nil => exact fun w => .refl w
    | cons d ds ih => exact fun w => (hydrates_hydrateFrom d w).trans (ih _)
  have hw := hall ds w
  exact ⟨h.list, h.items, fun i => hds ▸ hw.cells i, fun i hi => hds ▸ hw.out i hi⟩

/-- A computation of the list that offers data elements to its nodes and does
nothing else to them. -/
abbrev Offering {α : Type} (x : M E α) : Prop := Moves Offers x

theorem Offering.bind {α β : Type} {x : M E α} {f : α → M E β} (hx : Offering x)
    (hf : ∀ a, Offering (f a)) : Offering (x >>= f) := Moves.bind (fun h h' => h.trans h') hx hf

theorem offering_fail {α : Type} (e : LoadStoreError E.Err) : Offering (fail e : M E α) :=
  .throw Offers.refl _

theorem offering_pure {α : Type} (a : α) : Offering (pure a : M E α) := .pure Offers.refl a

theorem offering_nextOr (f : E.Err → LoadStoreError E.Err) : Offering (nextOr f) := fun w =>
  (nextOr_spec f w).mono (fun _ _ ⟨_, _, h⟩ => h ▸ offers_of_cells rfl rfl rfl)
    fun _ _ ⟨_, _, h⟩ => h ▸ offers_of_cells rfl rfl rfl

theorem offering_iterElems : Offering (iterElems (E := E)) := fun w =>
  (iterElems_spec w).mono (fun _ _ ⟨_, _, _, h⟩ => h ▸ offers_of_cells rfl rfl rfl)
    fun _ _ ⟨_, _, h⟩ => h ▸ offers_of_cells rfl rfl rfl

theorem offering_getOrPopulateLatest (b : Nat) : Offering (getOrPopulateLatest (E := E) b) := fun w =>
  (getOrPopulateLatest_spec b w).mono
    (fun _ _ ⟨_, _, _, _, _, h⟩ => h ▸ offers_of_cells rfl rfl rfl)
    fun _ _ ⟨_, _, _, _, _, h⟩ => h ▸ offers_of_cells rfl rfl rfl

theorem offering_skipLoop : ∀ (n total : Nat) (items : List Item),
    Offering (skipLoop (E := E) n total items)
  | 0, _, _ => offering_pure _
  | _ + 1, _, [] => (offering_nextOr _).bind fun _ => offering_fail _
  | n + 1, total, item :: items =>
    (offering_nextOr _).bind fun _ => offering_skipLoop n (total + item.len) items

theorem offering_hydrateFrom (d : SerData) : Offering (modifyCells (E := E) (hydrateFrom d)) :=
  .modify fun _ => ⟨rfl, rfl, [d], rfl⟩

theorem offering_extractLoop (latest : GoodWriteRecord) : ∀ (items : List Item) (total current : Nat),
    Offering (extractLoop (E := E) latest total current items)
  | [], _, _ => (offering_nextOr _).bind fun _ => offering_fail _
  | item :: items, total, current => by
    simp only [extractLoop]
    refine (offering_nextOr _).bind fun _ => ?_
    cases item.data with
    | none => exact offering_fail _
    | some e =>
      cases e with
      | start s => exact offering_fail _
      | data d =>
        exact (offering_hydrateFrom d).bind fun _ => offering_extractLoop latest items _ _
      | «end» s c =>
        dsimp only
        split
        · exact offering_pure _
        · exact offering_fail _

theorem offering_extractAll (latest : GoodWriteRecord) (total : Nat) :
    Offering (extractAll (E := E) latest total) := by
  simp only [extractAll]
  refine offering_iterElems.bind fun items => (offering_skipLoop _ _ _).bind fun p =>
    (offering_nextOr _).bind fun _ => ?_
  cases p.1 with
  | nil => exact offering_fail _
  | cons item items =>
    dsimp only
    cases item.data with
    | none => exact offering_fail _
    | some e =>
      cases e with
      | data d => exact offering_fail _
      | «end» s c => exact offering_fail _
      | start s =>
        dsimp only
        split
        · exact offering_fail _
        · exact offering_extractLoop latest items _ _

/-- Whatever is cached, `process_reads` offers data elements to the nodes and, if it
returns, marks those that are still waiting. -/
theorem processReads_nodes (w : World E) : Ends processReads w
    (fun _ w' => ∃ w₁, Offers w w₁ ∧ w' = w₁.withCells (markInitialNonresident w₁.list w₁.cells))
    fun _ w' => Offers w w' := by
  simp only [processReads]
  refine .bind ((offering_getOrPopulateLatest 0 w).mono ?_ fun _ _ h => h)
  intro hx w₁ h₁
  obtain ⟨res, total⟩ := hx
  cases res with
  | none => exact .bind (.pure (.bind (.modify (.pure ⟨w₁, h₁, rfl⟩))))
  | some latest =>
    refine .bind ((offering_extractAll latest total w₁).mono ?_ fun _ _ h => h₁.trans h)
    exact fun _ w₂ h₂ => .bind (.modify (.pure ⟨w₂, h₁.trans h₂, rfl⟩))

/-- A computation of the list that hydrates nodes and does nothing else to them. -/
abbrev Reading {α : Type} (x : M E α) : Prop := Moves Hydrates x

/-- Whatever is cached, `process_reads` only hydrates nodes. -/
theorem reading_processReads : Reading (processReads (E := E)) := fun w =>
  (processReads_nodes w).mono
    (fun _ _ ⟨_, h, heq⟩ => heq ▸ h.hydrates.trans (hydrates_markInitialNonresident _))
    fun _ _ h => h.hydrates

/-! ## The other calls -/

theorem processWrites_nodes (bufLen : Nat) (w : World E) : Ends (processWrites bufLen) w
    (fun _ w' => w'.list = w.list ∧ (w'.cells = w.cells ∨ w'.cells = markWritten w.list w.cells))
    (fun _ w' => w'.list = w.list ∧ w'.cells = w.cells) := by
  refine (processWrites_spec bufLen w).mono ?_ ?_
  · intro _ w' hor
    rcases hor with ⟨_, rfl⟩ | ⟨_, _, _, _, _, _, _, rfl⟩
    · exact ⟨rfl, Or.inl rfl⟩
    · exact ⟨rfl, Or.inr rfl⟩
  · rintro _ w' (⟨_, _, _, rfl⟩ | ⟨_, _, _, _, ⟨_, _, _, _, rfl⟩ | ⟨_, _, rfl⟩⟩) <;> exact ⟨rfl, rfl⟩

/-- The nodes of a list are as they were. -/
def SameNodes (w w' : World E) : Prop := w'.list = w.list ∧ w'.cells = w.cells

theorem gcTake_nodes : Moves SameNodes (gcTake (E := E)) := by
  intro w
  refine (gcTake_spec w).mono ?_ fun _ _ h => h.elim
  intro _ w' hx
  rcases hx with ⟨_, rfl⟩ | ⟨_, _, rfl⟩ <;> exact ⟨rfl, rfl⟩

theorem gcCollect_nodes (cur : SeqState E.kept) : Moves SameNodes (gcCollect cur) := fun w =>
  (gcCollect_spec cur w).mono (fun _ _ ⟨_, _, h⟩ => h ▸ ⟨rfl, rfl⟩)
    fun _ _ ⟨_, _, _, _, h⟩ => h ▸ ⟨rfl, rfl⟩

theorem gcFinish_nodes : Moves SameNodes (gcFinish (E := E)) := fun w =>
  (gcFinish_spec w).mono (fun _ _ ⟨_, _, h⟩ => h ▸ ⟨rfl, rfl⟩)
    fun _ _ ⟨_, _, _, _, _, _, h⟩ => h ▸ ⟨rfl, rfl⟩

/-! ## Every run keeps its nodes linked -/

theorem ended_eq {α : Type} (s : ListState E) (gc : α → Gc E)
    (r : EStateM.Result (Stop E.Err) (World E) α) :
    ∃ g h, s.ended gc r = { s with world := endState r, gc := g, halted := h } := by
  rcases r with ⟨a, w⟩ | ⟨e, w⟩
  · exact ⟨_, _, rfl⟩
  · cases e <;> exact ⟨_, _, rfl⟩

/-- A section of a call that keeps the list and what is outside it. -/
theorem Linked.ended {α : Type} {s : ListState E} (h : Linked s) (gc : α → Gc E)
    {r : EStateM.Result (Stop E.Err) (World E) α} (hl : (endState r).list = s.world.list)
    (hout : ∀ i, i ∉ s.world.list → (endState r).cells i = s.world.cells i)
    (hwf : ∀ i, ((endState r).cells i).Wf) : Linked (s.ended gc r) := by
  obtain ⟨g, b, heq⟩ := ended_eq s gc r
  rw [heq]
  exact h.world g b hl hout hwf

theorem Linked.sectionReads {s : ListState E} (h : Linked s) (fs : Faults E.Err) :
    Linked (s.processReads fs) := by
  simp only [ListState.processReads]
  split
  · have hr := endState_of_ends (reading_processReads (s.world.withFaults fs))
    exact h.ended _ hr.list hr.out fun i => (hr.cells i).wf (h.wf i)
  · exact h

theorem Linked.sectionWrites {s : ListState E} (h : Linked s) (bufLen : Nat) (fs : Faults E.Err) :
    Linked (s.processWrites bufLen fs) := by
  simp only [ListState.processWrites]
  split
  · have hr : (endState (CfgNoodle.processWrites bufLen (s.world.withFaults fs))).list = s.world.list ∧
        ((endState (CfgNoodle.processWrites bufLen (s.world.withFaults fs))).cells = s.world.cells ∨
          (endState (CfgNoodle.processWrites bufLen (s.world.withFaults fs))).cells =
            markWritten s.world.list s.world.cells) :=
      endState_of_ends (P := fun w' => w'.list = s.world.list ∧
        (w'.cells = s.world.cells ∨ w'.cells = markWritten s.world.list s.world.cells))
        ((processWrites_nodes bufLen (s.world.withFaults fs)).mono (fun _ _ h => h)
          fun _ _ h => ⟨h.1, Or.inl h.2⟩)
    obtain ⟨hl, hc | hc⟩ := hr
    · exact h.ended _ hl (fun i _ => congrFun hc i) fun i => by
        rw [hc]
        exact h.wf i
    · exact h.ended _ hl (fun i hi => (congrFun hc i).trans (markWritten_of_not_mem hi)) fun i => by
        rw [hc]
        exact wf_markWritten (h.wf i)
  · exact h

/-- A section of `process_garbage`. -/
theorem Linked.sectionGarbage {α : Type} {s : ListState E} (h : Linked s) (gc : α → Gc E) {x : M E α}
    {w : World E} (hx : Moves SameNodes x) (hw : w.list = s.world.list ∧ w.cells = s.world.cells) :
    Linked (s.ended gc (x w)) := by
  obtain ⟨hl, hc⟩ := endState_of_ends (hx w)
  have hcells := hc.trans hw.2
  exact h.ended gc (hl.trans hw.1) (fun i _ => by rw [hcells]) fun i => by
    rw [hcells]
    exact h.wf i

theorem Linked.next {s : ListState E} (h : Linked s) (c : Section E) : Linked (s.next c) := by
  cases c with
  | attach i => exact h.attach i
  | observe i => exact h.observe i
  | writeDefault i t => exact h.writeDefault i t
  | handleWrite i t => exact h.handleWrite i t
  | dropHandle i => exact h.dropHandle i
  | detach i => exact h.detach i
  | processReads fs => exact h.sectionReads fs
  | processWrites bufLen fs => exact h.sectionWrites bufLen fs
  | gcTake =>
    show Linked s.gcTake
    simp only [ListState.gcTake]
    split
    · exact h.sectionGarbage _ gcTake_nodes ⟨rfl, rfl⟩
    · exact h
  | gcCollect fs =>
    show Linked (s.gcCollect fs)
    simp only [ListState.gcCollect]
    split
    · exact h.sectionGarbage (w := s.world.withFaults fs) _ (gcCollect_nodes _) ⟨rfl, rfl⟩
    · exact h
  | gcFinish fs =>
    show Linked (s.gcFinish fs)
    simp only [ListState.gcFinish]
    split
    · exact h.sectionGarbage (w := s.world.withFaults fs) _ gcFinish_nodes ⟨rfl, rfl⟩
    · exact h
  | resetCache => exact h.sameNodes s.gc s.halted rfl rfl
  | powerLoss => exact linked_boot s.addr s.world.items

theorem Linked.step {s : ListState E} (h : Linked s) (c : Section E) : Linked (s.step c) := by
  simp only [ListState.step]
  cases s.halted with
  | true =>
    cases c with
    | powerLoss => exact h.next .powerLoss
    | _ => exact h
  | false => exact h.next c

/-- In every run, whatever its storage holds and does. -/
theorem linked_reachable {s : ListState E}
    (hs : (sections E fun s => ∃ items, BootedOn items s).Reachable s) : Linked s := by
  refine hs.invariant ?_ ?_
  · intro _ hx
    obtain ⟨items, addr, rfl⟩ := hx
    exact linked_boot addr items
  · intro s c _ hi heq
    subst heq
    exact hi.step c

end CfgNoodle

import CfgNoodle.Store
import CfgNoodle.Transitions

/-! # What the clients of a list may rely on

Who has a handle has a value, and who is about to write a default has been told that
the node has none. The second stays true of the storage: until the default is written,
nothing that the node could read is stored under its key. -/
namespace CfgNoodle
open Outcome Runs
variable {E : Env}

/-! ## Clients and states -/

/-- What a client has been told of the state of its node. -/
def Client.Told : Client → State → Prop
  | .handle, state => state.hasValue = true
  | .defaulting, state => state = .nonResident
  | _, _ => True

/-- What the clients have been told still holds. -/
def Told (s : ListState E) : Prop := ∀ i, (s.client i).Told (s.world.state i)

theorem told_boot (addr : Nat) (items : List Item) : Told (ListState.boot (E := E) addr items) :=
  fun _ => trivial

namespace Told
variable {s : ListState E}

theorem of_same {s' : ListState E} (h : Told s) (hc : s'.client = s.client)
    (hw : s'.world.cells = s.world.cells) : Told s' := by
  intro i
  have hstate : s'.world.state i = s.world.state i := congrArg Cell.state (congrFun hw i)
  rw [hc, hstate]
  exact h i

theorem setClient (h : Told s) (i : E.Id) {c : Client} (hc : c.Told (s.world.state i)) :
    Told (s.setClient i c) := by
  intro j
  show (Function.update s.client i c j).Told (s.world.state j)
  by_cases hji : j = i
  · subst hji
    rw [Function.update_self]
    exact hc
  · rw [Function.update_of_ne hji]
    exact h j

theorem setCell (h : Told s) (i : E.Id) {c : Cell (E.T i)} (hc : (s.client i).Told c.state) :
    Told (s.setCell i c) := by
  intro j
  show (s.client j).Told ((s.setCell i c).world.cells j).state
  by_cases hji : j = i
  · subst hji
    rw [setCell_self]
    exact hc
  · rw [setCell_of_ne s hji]
    exact h j

/-- The users of the list keep it. -/
theorem nodes (h : Told s) (hl : Linked s) {c : Section E} (hc : ByNodes c) : Told (s.next c) := by
  cases c with
  | attach i =>
    show Told (s.attach i).1
    unfold ListState.attach
    split
    · exact h
    · exact (h.of_same rfl rfl).setClient i trivial
    · split
      · exact h.of_same rfl rfl
      · exact (h.of_same rfl rfl).setClient i trivial
  | observe i =>
    show Told (s.observe i)
    unfold ListState.observe
    split
    · split
      · exact h
      · next hs => exact h.setClient i hs
      · next hs =>
        refine h.setClient i ?_
        split
        · exact congrArg State.hasValue hs
        · trivial
      · next hs => exact h.setClient i (congrArg State.hasValue hs)
    · exact h
  | writeDefault i t =>
    show Told (s.writeDefault i t)
    unfold ListState.writeDefault
    split
    · intro j
      show (Function.update s.client i .handle j).Told ((s.setCell i ⟨.needsWrite, some t⟩).world.cells j).state
      by_cases hji : j = i
      · subst hji
        rw [Function.update_self, setCell_self]
        rfl
      · rw [Function.update_of_ne hji, setCell_of_ne s hji]
        exact h j
    · exact h
  | handleWrite i t =>
    show Told (s.handleWrite i t).1
    unfold ListState.handleWrite
    split
    · next hi =>
      split
      · refine h.setCell i ?_
        rw [hi]
        rfl
      · exact h
    · exact h
  | dropHandle i =>
    show Told (s.dropHandle i)
    unfold ListState.dropHandle
    split
    · exact (h.of_same rfl rfl).setClient i trivial
    · exact h
  | detach i =>
    show Told (s.detach i).1
    unfold ListState.detach
    split
    · exact h
    · exact h
    · next hr =>
      refine ((h.of_same rfl rfl).setCell i ?_).of_same rfl rfl
      -- a node with a client is not released
      have hnone : s.client i = .none := by
        by_contra hi
        rw [hl.client i hi] at hr
        rcases TakenForList.release_eq_ok.mp hr with ⟨hnull, _⟩ | ⟨hatt, _⟩
        · cases hnull
        · cases hatt
      show (s.client i).Told _
      rw [hnone]
      trivial
  | processReads | processWrites | gcTake | gcCollect | gcFinish | resetCache | powerLoss =>
    exact hc.elim

end Told

/-! ## Calls and states -/

/-- A call leaves the state of a node alone, takes it out of `Initial` by a read, or
marks the node as written. -/
def Section.Turns (c : Section E) (state state' : State) : Prop :=
  state' = state ∨ ((∃ fs, c = .processReads fs) ∧ state = .initial) ∨
    (state.hasValue = true ∧ state'.hasValue = true)

theorem Client.Told.turns {client : Client} {c : Section E} {state state' : State}
    (h : client.Told state) (ht : c.Turns state state') : client.Told state' := by
  rcases ht with rfl | ⟨_, rfl⟩ | ⟨hv, hv'⟩
  · exact h
  · -- nobody was told that a node waits
    cases client with
    | handle => cases h
    | defaulting => cases h
    | none | attaching | panicked => trivial
  · cases client with
    | handle => exact hv'
    | defaulting =>
      obtain rfl : state = .nonResident := h
      cases hv
    | none | attaching | panicked => trivial

/-- The world after a section of a call, and what it cannot change. -/
theorem ended_turns {α : Type} {s : ListState E} {gc : α → Gc E} {c : Section E}
    {r : EStateM.Result (Stop E.Err) (World E) α}
    (h : ∀ i, c.Turns (s.world.state i) ((endState r).state i)) :
    (s.ended gc r).client = s.client ∧
      ∀ i, c.Turns (s.world.state i) ((s.ended gc r).world.state i) := by
  obtain ⟨g, b, heq⟩ := ended_eq s gc r
  rw [heq]
  exact ⟨rfl, h⟩

theorem turns_refl {s : ListState E} (c : Section E) :
    s.client = s.client ∧ ∀ i, c.Turns (s.world.state i) (s.world.state i) :=
  ⟨rfl, fun _ => Or.inl rfl⟩

theorem turns_of_sameNodes {α : Type} {s : ListState E} {gc : α → Gc E} {c : Section E} {x : M E α}
    {w : World E} (hx : Moves SameNodes x) (hw : w.cells = s.world.cells) :
    (s.ended gc (x w)).client = s.client ∧
      ∀ i, c.Turns (s.world.state i) ((s.ended gc (x w)).world.state i) := by
  have hcells := (endState_of_ends (hx w)).2.trans hw
  exact ended_turns fun i => Or.inl (congrArg Cell.state (congrFun hcells i))

theorem turns_next {s : ListState E} {c : Section E} (hc : ¬ ByNodes c) (hp : c ≠ .powerLoss) :
    (s.next c).client = s.client ∧ ∀ i, c.Turns (s.world.state i) ((s.next c).world.state i) := by
  cases c with
  | attach | observe | writeDefault | handleWrite | dropHandle | detach => exact absurd trivial hc
  | powerLoss => exact absurd rfl hp
  | resetCache => exact ⟨rfl, fun _ => Or.inl rfl⟩
  | processReads fs =>
    unfold ListState.next ListState.processReads
    dsimp only
    split
    · refine ended_turns fun i => ?_
      have hr := endState_of_ends (reading_processReads (s.world.withFaults fs))
      rcases hr.cells i with h | ⟨h, _⟩
      · exact Or.inl (congrArg Cell.state h)
      · exact Or.inr (Or.inl ⟨⟨fs, rfl⟩, h⟩)
    · exact turns_refl _
  | processWrites bufLen fs =>
    unfold ListState.next ListState.processWrites
    dsimp only
    split
    · refine ended_turns fun i => ?_
      have hw := endState_of_ends (P := fun w' => w'.cells = s.world.cells ∨
        w'.cells = markWritten s.world.list s.world.cells)
        ((processWrites_nodes bufLen (s.world.withFaults fs)).mono (fun _ _ h => h.2)
          fun _ _ h => Or.inl h.2)
      rcases hw with h | h
      · exact Or.inl (congrArg Cell.state (congrFun h i))
      · have hi := congrFun h i
        unfold markWritten at hi
        split at hi
        · next hm => exact Or.inr (Or.inr ⟨hm.2, congrArg (State.hasValue ∘ Cell.state) hi⟩)
        · exact Or.inl (congrArg Cell.state hi)
    · exact turns_refl _
  | gcTake =>
    unfold ListState.next ListState.gcTake
    dsimp only
    split
    · exact turns_of_sameNodes gcTake_nodes rfl
    · exact turns_refl _
  | gcCollect fs =>
    unfold ListState.next ListState.gcCollect
    dsimp only
    split
    · exact turns_of_sameNodes (gcCollect_nodes _) rfl
    · exact turns_refl _
  | gcFinish fs =>
    unfold ListState.next ListState.gcFinish
    dsimp only
    split
    · exact turns_of_sameNodes gcFinish_nodes rfl
    · exact turns_refl _

/-- Every section keeps what the clients have been told. -/
theorem Told.step {s : ListState E} (h : Told s) (hl : Linked s) (c : Section E) : Told (s.step c) := by
  cases hh : s.halted with
  | true =>
    unfold ListState.step
    rw [hh]
    cases c with
    | powerLoss => exact told_boot s.addr s.world.items
    | _ => exact h
  | false =>
    rw [step_of_running hh]
    by_cases hn : ByNodes c
    · exact h.nodes hl hn
    · by_cases hp : c = .powerLoss
      · subst hp
        exact told_boot s.addr s.world.items
      · obtain ⟨hclient, hturns⟩ := turns_next (s := s) hn hp
        intro i
        rw [hclient]
        exact (h i).turns (hturns i)

theorem Told.value {s : ListState E} (h : Told s) (hl : Linked s) {i : E.Id}
    (hi : s.client i = .handle) : ∃ t, (s.world.cells i).t = some t := by
  have hv := h i
  rw [hi] at hv
  exact Option.isSome_iff_exists.mp ((hl.wf i).trans hv)

/-! ## Nodes without a value -/

/-- What a boot would give to the node. -/
def saved (s : ListState E) (i : E.Id) : Option (E.T i) :=
  (durable E s.world.items (E.key i)).bind (E.vtable i).decode

/-- Where a node was found to have no value, nothing has been stored for it since. -/
def Absent (s : ListState E) : Prop := ∀ i, s.world.state i = .nonResident → saved s i = none

/-- Only a read makes a node `NonResident`. -/
theorem nonResident_nodes {s : ListState E} {c : Section E} (hc : ByNodes c) {i : E.Id}
    (hi : (s.next c).world.state i = .nonResident) : s.world.state i = .nonResident := by
  have hset : ∀ (s' : ListState E) (j : E.Id) (c : Cell (E.T j)), c.state ≠ .nonResident →
      s'.world.cells = s.world.cells → (s'.setCell j c).world.state i = .nonResident →
        s.world.state i = .nonResident := by
    intro s' j c hne hcells h
    by_cases hij : i = j
    · subst hij
      exact absurd ((congrArg Cell.state (setCell_self s' i c)).symm.trans h) hne
    · have hcell := (setCell_of_ne s' hij c).trans (congrFun hcells i)
      exact (congrArg Cell.state hcell).symm.trans h
  cases c with
  | attach j =>
    unfold ListState.next ListState.attach at hi
    dsimp only at hi
    split at hi
    · exact hi
    · exact hi
    · split at hi
      · exact hi
      · exact hi
  | observe j =>
    have hsame : (s.next (.observe j)).world = s.world := (observe_same s j).2
    rwa [hsame] at hi
  | writeDefault j t =>
    unfold ListState.next ListState.writeDefault at hi
    dsimp only at hi
    split at hi
    · exact hset s j ⟨.needsWrite, some t⟩ nofun rfl hi
    · exact hi
  | handleWrite j t =>
    unfold ListState.next ListState.handleWrite at hi
    dsimp only at hi
    split at hi
    · split at hi
      · exact hset s j ⟨.needsWrite, some t⟩ nofun rfl hi
      · exact hi
    · exact hi
  | dropHandle j =>
    have hsame : (s.next (.dropHandle j)).world = s.world := (dropHandle_same s j).2
    rwa [hsame] at hi
  | detach j =>
    unfold ListState.next ListState.detach at hi
    dsimp only at hi
    split at hi
    · exact hi
    · exact hi
    · exact hset (s.setList (s.world.list.erase j)) j Cell.new nofun rfl hi
  | processReads | processWrites | gcTake | gcCollect | gcFinish | resetCache | powerLoss =>
    exact hc.elim

theorem nonResident_step {s : ListState E} {c : Section E} {i : E.Id}
    (hi : (s.step c).world.state i = .nonResident) : s.world.state i = .nonResident ∨
      (s.halted = false ∧ (∃ fs, c = .processReads fs) ∧ s.world.state i = .initial) := by
  cases hh : s.halted with
  | true =>
    unfold ListState.step at hi
    rw [hh] at hi
    cases c with
    | powerLoss => cases hi
    | _ => exact Or.inl hi
  | false =>
    rw [step_of_running hh] at hi
    by_cases hn : ByNodes c
    · exact Or.inl (nonResident_nodes hn hi)
    · by_cases hp : c = .powerLoss
      · subst hp
        cases hi
      · rcases (turns_next (s := s) hn hp).2 i with h | ⟨hread, h⟩ | ⟨_, h⟩
        · exact Or.inl (h.symm.trans hi)
        · exact Or.inr ⟨rfl, hread, h⟩
        · rw [hi] at h
          cases h

/-- A record that is written has nothing for a node without a value. -/
theorem Linked.unsaved {s : ListState E} (h : Linked s) {i : E.Id}
    (hi : s.world.state i = .nonResident) {d : String → Option (List UInt8)}
    (hd : WriteBack.Snapshot (L := layout E) s.store.live d) : d (E.key i) = none := by
  have hmem : ∀ j, (s.world.cells j) ≠ Cell.new → j ∈ s.world.list := by
    intro j hj
    by_contra hn
    exact hj (h.out j hn)
  refine hd.rest (E.key i) fun j hkey => ?_
  show (s.world.cells j).t = none
  by_contra hj
  have hmemj := hmem j fun hnew => hj (congrArg Cell.t hnew)
  have hmemi := hmem i fun hnew => by
    have hstate : s.world.state i = .initial := congrArg Cell.state hnew
    rw [hi] at hstate
    cases hstate
  obtain rfl := List.inj_on_of_nodup_map h.keys hmemj hmemi hkey
  exact hj (t_of_no_value (h.wf j) (congrArg State.hasValue hi))

theorem Absent.step {s : ListState E} {c : Section E} (h : Absent s) (hl : Linked s)
    (hl' : Linked (s.step c))
    (hs : WriteBack.Step s.store (storeOp s c (s.step c)) (s.step c).store) : Absent (s.step c) := by
  intro i hi
  have hnone : (s.step c).store.live i = none := t_of_no_value (hl'.wf i) (congrArg State.hasValue hi)
  rcases nonResident_step hi with hbefore | ⟨hh, ⟨fs, rfl⟩, hinit⟩
  · by_cases hflush : storeOp s c (s.step c) = .flush
    · rw [hflush] at hs
      have hkey : (s.step c).store.durable (E.key i) = none :=
        hl.unsaved hbefore (WriteBack.Step.snapshot hs)
      show ((s.step c).store.durable (E.key i)).bind _ = none
      rw [hkey]
      rfl
    · show ((s.step c).store.durable (E.key i)).bind _ = none
      rw [hs.durable_eq hflush]
      exact h i hbefore
  · -- the read has looked the node up
    have hop : storeOp s (.processReads fs) (s.step (.processReads fs)) =
        .load fun j => s.world.state j = .initial ∧
          (s.step (.processReads fs)).world.state j ≠ .initial := by
      unfold storeOp
      rw [hh]
    rw [hop] at hs
    have hfilled := hs.live_of_load (i := i) ⟨hinit, by rw [hi]; nofun⟩
    show ((s.step (.processReads fs)).store.durable (E.key i)).bind _ = none
    rw [hs.durable_eq nofun]
    exact hfilled.symm.trans hnone

/-! ## Runs -/

theorem told_absent {items : List Item} (hn : NumbersBelow E items)
    (hk : ∀ i, E.cbor.Canonical (E.key i))
    (hcodec : ∀ i (t : E.T i), (E.vtable i).decode ((E.vtable i).encode t).flatten = some t)
    {s : ListState E} (h : (storing E items).Reachable s) : SectionInv s ∧ Told s ∧ Absent s := by
  refine h.invariant (I := fun s => SectionInv s ∧ Told s ∧ Absent s) ?_ ?_
  · rintro s ⟨addr, rfl⟩
    exact ⟨sectionInv_boot hn addr, told_boot addr items, fun i hi => by cases hi⟩
  · rintro s c _ ⟨hinv, htold, habsent⟩ ⟨rfl, hc⟩
    have hnext := hinv.storing hk hcodec hc
    exact ⟨hnext, htold.step hinv.linked c,
      habsent.step hinv.linked hnext.linked (storeOp_step hinv hk hc)⟩

/-- **A default replaces nothing**: whenever a client is about to write the default of
its node, and wherever a node is `NonResident`, the node has no value, and a boot would
give it none. Whoever has a handle has a value. -/
theorem default_replaces_nothing {items : List Item} (hn : NumbersBelow E items)
    (hk : ∀ i, E.cbor.Canonical (E.key i))
    (hcodec : ∀ i (t : E.T i), (E.vtable i).decode ((E.vtable i).encode t).flatten = some t)
    {s : ListState E} (h : (storing E items).Reachable s) (i : E.Id) :
    (s.client i = .defaulting ∨ s.world.state i = .nonResident →
      (s.world.cells i).t = none ∧ saved s i = none) ∧
    (s.client i = .handle → ∃ t, (s.world.cells i).t = some t) := by
  obtain ⟨hinv, htold, habsent⟩ := told_absent hn hk hcodec h
  refine ⟨fun hor => ?_, htold.value hinv.linked⟩
  have hstate : s.world.state i = .nonResident := by
    rcases hor with hd | hs
    · have htoldi := htold i
      rw [hd] at htoldi
      exact htoldi
    · exact hs
  exact ⟨t_of_no_value (hinv.linked.wf i) (congrArg State.hasValue hstate), habsent i hstate⟩

/-- A storage with a value for the first of two nodes. -/
def firstStored : List Item := recordItems twoSettings NonZeroU32.one [dataA 7] 0

/-- Both are attached and read. -/
def halfStored : ListState twoSettings :=
  [.attach settingA, .attach settingB, .processReads .none, .observe settingA,
    .observe settingB].foldl ListState.step (.boot 2 firstStored)

theorem reachable_halfStored : (storing twoSettings firstStored).Reachable halfStored := by
  have hn : NumbersBelow twoSettings firstStored := numbersBelow_record [dataA 7]
  have hnodes : ∀ {s : ListState twoSettings} {c : Section twoSettings}, ByNodes c →
      (storing twoSettings firstStored).Reachable s →
        (storing twoSettings firstStored).Reachable (s.step c) := fun hc h =>
    .step h ⟨rfl, (sectionInv_storing hn twoSettings_canonical settings_codec h).storing_nodes hc⟩
  let linked : ListState twoSettings :=
    ((ListState.boot 2 firstStored).step (.attach settingA)).step (.attach settingB)
  have hlinked : (storing twoSettings firstStored).Reachable linked :=
    hnodes trivial (hnodes trivial (.init ⟨2, rfl⟩))
  have hread : (storing twoSettings firstStored).Reachable (linked.step (.processReads .none)) :=
    .step hlinked ⟨rfl, noReadError_none, by decide +kernel⟩
  have hobserved := hnodes (c := .observe settingB) trivial
    (hnodes (c := .observe settingA) trivial hread)
  -- the list of sections is followed to its end, and no section is run
  have hhalf : halfStored = (((linked.step (.processReads .none)).step (.observe settingA)).step
      (.observe settingB)) := by
    simp only [halfStored, List.foldl_cons, List.foldl_nil, linked]
  rw [hhalf]
  exact hobserved

theorem default_replaces_nothing_half : halfStored.client settingB = .defaulting ∧
    ((halfStored.world.cells settingB).t = none ∧ saved halfStored settingB = none) ∧
    ∃ t, (halfStored.world.cells settingA).t = some t := by
  have hdefaulting : halfStored.client settingB = .defaulting := by decide +kernel
  have hhandle : halfStored.client settingA = .handle := by decide +kernel
  have hall := default_replaces_nothing (numbersBelow_record [dataA 7]) twoSettings_canonical
    settings_codec reachable_halfStored
  exact ⟨hdefaulting, (hall settingB).1 (Or.inl hdefaulting), (hall settingA).2 hhandle⟩

end CfgNoodle

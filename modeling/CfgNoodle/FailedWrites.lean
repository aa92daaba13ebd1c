import CfgNoodle.Persist

/-! # What a failed write leaves

A `process_writes` that does not return `Ok` leaves the list, its nodes and its
cache alone, and the storage with a first part of the one record that stood to be
written. -/
namespace CfgNoodle
open Outcome
open scoped List
variable {E : Env}

/-! ## The record to be written -/

/-- The data element of a node: header byte, key and value. -/
def nodeData (E : Env) (i : E.Id) (t : E.T i) : SerData :=
  ⟨SerData.V0_DATA :: nodeBytes E i t, List.cons_ne_nil _ _⟩

/-- The data elements of the nodes with a value, in list order. -/
def heldDatas (cells : Cells E) (list : List E.Id) : List SerData :=
  list.filterMap fun i =>
    if (cells i).state.hasValue then (cells i).t.map (nodeData E i) else none

/-- The record under this number with one data element for each node with a value. -/
def World.record (w : World E) (s : NonZeroU32) : List Elem :=
  recordElems E s (heldDatas w.cells w.list)

theorem nodeElem_eq_nodeData {bufLen : Nat} {i : E.Id} {t : E.T i} {d : SerData}
    (h : nodeElem E bufLen i t = some d) : d = nodeData E i t := by
  rw [nodeElem_eq] at h
  split at h
  · exact (Option.some.inj h).symm
  · cases h

/-- The nodes up to the first that cannot be written, or all of them. -/
theorem writeDatas_part (bufLen : Nat) (cells : Cells E) : ∀ list : List E.Id,
    (writeDatas bufLen cells list).1 <+: heldDatas cells list ∧
      ((writeDatas bufLen cells list).2 = none →
        (writeDatas bufLen cells list).1 = heldDatas cells list)
  | [] => ⟨List.prefix_rfl, fun _ => rfl⟩
  | i :: list => by
    obtain ⟨hpre, hall⟩ := writeDatas_part bufLen cells list
    unfold heldDatas at hpre hall ⊢
    rw [writeDatas, List.filterMap_cons]
    by_cases hv : (cells i).state.hasValue = true
    · rw [if_pos hv, if_pos hv]
      cases ht : (cells i).t with
      | none => exact ⟨List.nil_prefix, fun h => by cases h⟩
      | some t =>
        cases hd : nodeElem E bufLen i t with
        | none =>
          dsimp only
          rw [hd]
          exact ⟨List.nil_prefix, fun h => by cases h⟩
        | some d =>
          dsimp only [Option.map_some]
          rw [hd, nodeElem_eq_nodeData hd]
          exact ⟨List.cons_prefix_cons.mpr ⟨rfl, hpre⟩, fun h => congrArg _ (hall h)⟩
    · rw [if_neg hv, if_neg hv]
      exact ⟨hpre, hall⟩

/-- A proper first part of what a call pushes is one of the record. -/
theorem prefix_record {w : World E} {bufLen : Nat} {s : NonZeroU32} {es rest : List Elem}
    (hne : rest ≠ []) (h : es ++ rest = recordElems E s (w.toWrite bufLen)) :
    es <+: w.record s ∧ es ≠ w.record s := by
  have hheld := (writeDatas_part bufLen w.cells w.list).1
  have hlen : es.length ≤ (w.toWrite bufLen).length + 1 := by
    have hsum := congrArg List.length h
    have hpos := List.length_pos_of_ne_nil hne
    simp only [recordElems, List.length_append, List.length_cons, List.length_map,
      List.length_nil] at hsum
    omega
  constructor
  · -- without the last element of what is pushed, the `End` is not reached
    have hstart : es <+: .start s :: (w.toWrite bufLen).map .data :=
      List.prefix_of_prefix_length_le ⟨rest, h⟩ ⟨_, rfl⟩ (by simpa using hlen)
    obtain ⟨more, hmore⟩ := hheld
    refine hstart.trans ?_
    simp only [World.record, recordElems]
    rw [← hmore, List.map_append, List.append_assoc]
    exact List.cons_prefix_cons.mpr ⟨rfl, List.prefix_append _ _⟩
  · intro heq
    have hle : (w.toWrite bufLen).length ≤ (heldDatas w.cells w.list).length := hheld.length_le
    have hall := congrArg List.length heq
    simp only [World.record, recordElems, List.length_append, List.length_cons, List.length_map,
      List.length_nil] at hall
    omega

theorem record_eq {w : World E} {bufLen : Nat} (hw : (writeDatas bufLen w.cells w.list).2 = none)
    (s : NonZeroU32) : recordElems E s (w.toWrite bufLen) = w.record s :=
  congrArg (recordElems E s) ((writeDatas_part bufLen w.cells w.list).2 hw)

/-! ## What pushes add -/

/-- Items were added to the storage, and where one of them does not decode, a push
was torn. -/
structure Adds (w w' : World E) : Prop where
  spent : Spent w.faults w'.faults
  items : ∃ added, w'.items = w.items ++ added ∧
    ∀ it ∈ added, it.data = none → w.faults.CanLeave (.torn it.len)

theorem adds_of_items {w w' : World E} (hs : Spent w.faults w'.faults) (hi : w'.items = w.items) :
    Adds w w' := ⟨hs, [], by rw [hi, List.append_nil], nofun⟩

theorem Adds.refl (w : World E) : Adds w w := adds_of_items (.refl _) rfl

theorem Adds.trans {w w' w'' : World E} (h : Adds w w') (h' : Adds w' w'') : Adds w w'' := by
  obtain ⟨a, ha, hta⟩ := h.items
  obtain ⟨b, hb, htb⟩ := h'.items
  refine ⟨h.spent.trans h'.spent, a ++ b, by rw [hb, ha, List.append_assoc], fun it hit hd => ?_⟩
  rcases List.mem_append.mp hit with hit | hit
  · exact hta it hit hd
  · exact h.spent.canLeave (htb it hit hd)

abbrev Adding {α : Type} (x : M E α) : Prop := Moves Adds x

theorem Adding.bind {α β : Type} {x : M E α} {f : α → M E β} (hx : Adding x)
    (hf : ∀ a, Adding (f a)) : Adding (x >>= f) := Moves.bind (fun h h' => h.trans h') hx hf

theorem adding_pure {α : Type} (a : α) : Adding (pure a : M E α) := .pure Adds.refl a

theorem adding_throw {α : Type} (e : Stop E.Err) : Adding (throw e : M E α) := .throw Adds.refl e

theorem adding_get : Adding (get : M E (World E)) := fun w => .get (.refl w)

theorem adding_push (elem : Elem) : Adding (push (E := E) elem) := by
  intro w
  refine (push_spec elem w).mono ?_ ?_
  · intro _ w' h
    obtain ⟨fs, hs, rfl⟩ := h
    refine ⟨hs, _, rfl, fun it hit hd => ?_⟩
    obtain rfl := List.mem_singleton.mp hit
    cases hd
  · intro _ w' h
    obtain ⟨_, l, fs, hl, hs, rfl⟩ := h
    refine ⟨hs, _, rfl, fun it hit hd => ?_⟩
    cases l with
    | nothing => cases hit
    | torn n =>
      obtain rfl := List.mem_singleton.mp hit
      exact hl
    | whole =>
      obtain rfl := List.mem_singleton.mp hit
      cases hd

theorem adding_writeLoop (bufLen : Nat) : ∀ (list : List E.Id) (crc : Crc32) (bytes ctr : Nat),
    Adding (writeLoop bufLen crc bytes ctr list)
  | [], _, _, _ => adding_pure _
  | i :: list, crc, bytes, ctr => by
    simp only [writeLoop]
    refine adding_get.bind fun w => ?_
    split
    · split
      · exact adding_throw _
      · split
        · exact adding_throw _
        · exact (adding_push _).bind fun _ => adding_writeLoop bufLen list _ _ _
    · exact adding_writeLoop bufLen list _ _ _

theorem adding_writeToFlash (bufLen : Nat) (s : NonZeroU32) : Adding (writeToFlash (E := E) bufLen s) :=
  (adding_push _).bind fun _ => adding_get.bind fun _ => (adding_writeLoop bufLen _ _ _ _).bind
    fun _ => (adding_push _).bind fun _ => adding_pure _

theorem adding_verifyListInFlash (rpt : WriteReport) : Adding (verifyListInFlash (E := E) rpt 0) :=
  fun w => (verifyListInFlash_spec rpt w).mono (fun _ _ ⟨_, _, hs, h⟩ => h ▸ adds_of_items hs rfl)
    fun _ _ ⟨_, _, hs, h⟩ => h ▸ adds_of_items hs rfl

theorem adding_processWrites (bufLen : Nat) : Adding (processWrites (E := E) bufLen) := by
  simp only [processWrites]
  refine adding_get.bind fun w => ?_
  cases w.seqState.nextSeq with
  | none => exact adding_throw _
  | some s =>
    dsimp only
    split
    · exact adding_throw _
    · cases needsWriting w with
      | error err => exact adding_throw _
      | ok due =>
        cases due with
        | false => exact adding_pure _
        | true =>
          dsimp only
          refine (adding_writeToFlash bufLen s).bind fun rpt =>
            (adding_verifyListInFlash rpt).bind fun p => ?_
          refine Adding.bind (.modify fun w => adds_of_items (.refl _) rfl) fun _ => ?_
          exact Adding.bind (.modify fun w => adds_of_items (.refl _) rfl) fun _ => adding_pure _

/-! ## A failed write -/

/-- What a write that did not return `Ok` has changed: a first part of the record
was added to the storage, and after that one undecodable item where a push was torn. -/
inductive LeftPart (w w' : World E) : Prop
  | nothing (h : w'.items = w.items)
  | part (s : NonZeroU32) (es : List Elem) (hs : w.seqState.nextSeq = some s)
      (hpre : es <+: w.record s) (h : w'.items = w.items ++ es.map (stored E w.call))
  | torn (s : NonZeroU32) (es : List Elem) (n : Nat) (hs : w.seqState.nextSeq = some s)
      (hpre : es <+: w.record s) (hne : es ≠ w.record s) (ht : w.faults.CanLeave (.torn n))
      (h : w'.items = w.items ++ es.map (stored E w.call) ++ [⟨none, n, w.call⟩])

/-- A call of `process_writes` that does not return `Ok`, whatever made it fail,
leaves the list, every node and the cache as they were, and in the storage a first
part of the record. -/
theorem failed_write_leaves_part {w w' : World E} {bufLen : Nat} {e : Stop E.Err}
    (hrun : processWrites bufLen w = .error e w') :
    w'.list = w.list ∧ w'.cells = w.cells ∧ w'.seqState = w.seqState ∧ LeftPart w w' := by
  have hadds := (adding_processWrites bufLen w).error hrun
  rcases (processWrites_spec bufLen w).error hrun with ⟨_, _, _, rfl⟩ | ⟨s, fs, hdue, _, h⟩
  · exact ⟨rfl, rfl, rfl, .nothing rfl⟩
  · have hs := writeDue_nextSeq hdue
    rcases h with ⟨_, items, hpart, hwhole, rfl⟩ | ⟨hw, _, rfl⟩
    · refine ⟨rfl, rfl, rfl, ?_⟩
      cases hpart with
      | some es rest hne h => exact .part s es hs (prefix_record hne h).1 rfl
      | torn es rest n hne h =>
        obtain ⟨hpre, hproper⟩ := prefix_record hne h
        refine .torn s es n hs hpre hproper ?_ (List.append_assoc ..).symm
        obtain ⟨added, heq, htorn⟩ := hadds.items
        have hadded := List.append_cancel_left (show w.items ++ _ = _ from heq)
        exact htorn ⟨none, n, w.call⟩ (hadded ▸ by simp) rfl
      | whole hl es rest h =>
        by_cases hne : rest = []
        · rw [hne, List.append_nil] at h
          have hrec := record_eq (hwhole (congrArg _ h)) s
          exact .part s es hs (h ▸ hrec ▸ List.prefix_rfl) rfl
        · exact .part s es hs (prefix_record hne h).1 rfl
    · exact ⟨rfl, rfl, rfl, .part s _ hs (record_eq hw s ▸ List.prefix_rfl) rfl⟩

theorem failed_push_leaves_part : ∃ e w', processWrites 64 failingPush = .error e w' ∧
    w'.list = failingPush.list ∧ w'.cells = failingPush.cells ∧
      w'.seqState = failingPush.seqState ∧ LeftPart failingPush w' :=
  ⟨_, _, rfl, @failed_write_leaves_part twoSettings failingPush _ 64 _ rfl⟩

end CfgNoodle

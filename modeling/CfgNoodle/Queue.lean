import CfgNoodle.Flash
import CfgNoodle.Locations
import CfgNoodle.Transitions
import CfgNoodle.Wire

/-! # The bytes of a flash queue

What the list does to a storage of elements is done by pushes and pops on a queue
of bytes: whatever fails, the elements of the storage are those that the bytes of
the queue are read as. -/
namespace CfgNoodle
open Framing Outcome Runs
open scoped List
variable {E : Env}

/-! ## Queues -/

/-- What `sequential-storage` adds to an item, and the words of the flash. -/
structure Geometry where
  itemOverheadSize : Nat
  writeSize : Nat
  readSize : Nat

def nextMultipleOf (n m : Nat) : Nat := if n % m = 0 then n else n + (m - n % m)

def sizeWithOverhead (g : Geometry) (len : Nat) : Nat :=
  g.itemOverheadSize + nextMultipleOf len (max g.writeSize g.readSize)

/-- What a visit does to the queue: a write appends the bytes of its record, or, if it
does not return `Ok`, the first of them and what is left of a torn push, a collection
pops items, and where no item changes no bytes do. -/
inductive QueueStep (s : Service E) : Visit E → List (List UInt8) → List (List UInt8) → Prop
  | same {v : Visit E} (q : List (List UInt8)) (h : (s.next v).world.items = s.world.items) :
      QueueStep s v q q
  | record {bufLen : Nat} {fs : Faults E.Err} {n : NonZeroU32} (q : List (List UInt8))
      (hn : s.world.seqState.nextSeq = some n) : QueueStep s (.processWrites bufLen fs) q
        (q ++ (recordElems E n (s.world.toWrite bufLen)).map Flash.push)
  | part {bufLen : Nat} {fs : Faults E.Err} {n : NonZeroU32} {es : List Elem} {torn : List (List UInt8)}
      (q : List (List UInt8)) (hn : s.world.seqState.nextSeq = some n)
      (hes : es <+: recordElems E n (s.world.toWrite bufLen))
      (htorn : torn.length ≤ 1 ∧ ∀ bs ∈ torn, Flash.read bs = none)
      (hfail : returnedOk (processWrites bufLen (s.world.withFaults fs)) = false) :
      QueueStep s (.processWrites bufLen fs) q (q ++ (es.map Flash.push ++ torn))
  | pops {fs : Faults E.Err} {q q' : List (List UInt8)} (h : q' <+ q) : QueueStep s (.gcCollect fs) q q'

/-- A service and its queue. -/
def onFlash (E : Env) (items : List Item) (q₀ : List (List UInt8)) :
    System (Service E × List (List UInt8)) (Visit E) where
  init p := p = (⟨World.boot items, .idle⟩, q₀)
  step p v p' := p'.1 = p.1.next v ∧ QueueStep p.1 v p.2 p'.2

/-- The item is what is read from these bytes, and has their size if it is an element. -/
structure ReadFrom (g : Geometry) (it : Item) (bs : List UInt8) : Prop where
  data : it.data = Flash.read bs
  len : it.data ≠ none → it.len = sizeWithOverhead g bs.length

/-- The items of the storage are those of the queue. -/
abbrev Shows (g : Geometry) : List Item → List (List UInt8) → Prop := List.Forall₂ (ReadFrom g)

theorem Shows.sublist {g : Geometry} {items items' : List Item} (h : items' <+ items) :
    ∀ {q}, Shows g items q → ∃ q', q' <+ q ∧ Shows g items' q' := by
  induction h with
  | slnil => exact fun hq => ⟨_, List.Sublist.refl _, hq⟩
  | cons it _ ih =>
    intro q hq
    cases hq with
    | cons _ hq =>
      obtain ⟨q', hsub, hq'⟩ := ih hq
      exact ⟨q', hsub.cons _, hq'⟩
  | cons_cons it _ ih =>
    intro q hq
    cases hq with
    | cons hit hq =>
      obtain ⟨q', hsub, hq'⟩ := ih hq
      exact ⟨_ :: q', hsub.cons_cons _, .cons hit hq'⟩

/-! ## Pushes -/

section
variable {g : Geometry} (hsize : ∀ e, E.size e = sizeWithOverhead g (Flash.push e).length)
include hsize

theorem shows_pushes (call : Nat) : ∀ (es : List Elem), (∀ e ∈ es, e.WellFormed) →
    Shows g (es.map (stored E call)) (es.map Flash.push)
  | [], _ => .nil
  | e :: es, h =>
    .cons ⟨(Flash.read_eq_some.mpr ⟨h e List.mem_cons_self, rfl⟩).symm, fun _ => hsize e⟩
      (shows_pushes call es fun e' he => h e' (List.mem_cons_of_mem e he))

/-- A part of a record is that of a prefix of its elements, and of a torn push. -/
theorem Partly.shows {fs : Faults E.Err} {call : Nat} {elems : List Elem} {part : List Item}
    (h : Partly fs call elems part) (hwf : ∀ e ∈ elems, e.WellFormed) :
    ∃ es torn, es <+: elems ∧ (torn.length ≤ 1 ∧ ∀ bs ∈ torn, Flash.read bs = none) ∧
      Shows g part (es.map Flash.push ++ torn) := by
  cases h with
  | some es rest _ h | whole _ es rest h =>
    have hes := shows_pushes hsize call es fun e he => hwf e (h ▸ List.mem_append_left rest he)
    refine ⟨es, [], ⟨rest, h⟩, ⟨Nat.zero_le 1, fun _ hbs => absurd hbs List.not_mem_nil⟩, ?_⟩
    rwa [List.append_nil]
  | torn es rest n _ h =>
    have hes := shows_pushes hsize call es fun e he => hwf e (h ▸ List.mem_append_left rest he)
    have htorn : Shows g [⟨none, n, call⟩] [[]] := .cons ⟨rfl, fun h => absurd rfl h⟩ .nil
    refine ⟨es, [[]], ⟨rest, h⟩, ⟨Nat.le_refl 1, fun bs hbs => ?_⟩, List.rel_append hes htorn⟩
    rw [List.mem_singleton.mp hbs]
    rfl

end

/-- The elements that a write pushes have their headers and keys. -/
theorem wellFormed_toWrite {w : World E} {bufLen : Nat} (hne : ∀ i t, nodeBytes E i t ≠ [])
    (s : NonZeroU32) : ∀ e ∈ recordElems E s (w.toWrite bufLen), e.WellFormed := by
  intro e he
  unfold recordElems at he
  rw [List.mem_cons, List.mem_append, List.mem_map, List.mem_singleton] at he
  rcases he with rfl | ⟨d, hd, rfl⟩ | rfl
  · trivial
  · have hd : d ∈ heldDatas w.cells w.list := (writeDatas_part bufLen w.cells w.list).1.subset hd
    obtain ⟨i, _, hdata⟩ := List.mem_filterMap.mp hd
    split at hdata
    · obtain ⟨t, _, rfl⟩ := Option.map_eq_some_iff.mp hdata
      exact wellFormed_nodeData (hne i t)
    · cases hdata
  · trivial

/-! ## Visits -/

/-- The visit can be made on every queue that shows the items. -/
def OnQueue (g : Geometry) (s : Service E) (v : Visit E) : Prop :=
  ∀ q, Shows g s.world.items q → ∃ q', QueueStep s v q q' ∧ Shows g (s.next v).world.items q'

theorem onQueue_same {g : Geometry} {s : Service E} {v : Visit E}
    (h : (s.next v).world.items = s.world.items) : OnQueue g s v := fun q hq =>
  ⟨q, .same q h, h ▸ hq⟩

theorem onQueue_pops {g : Geometry} {s : Service E} {fs : Faults E.Err}
    (h : (s.next (.gcCollect fs)).world.items <+ s.world.items) : OnQueue g s (.gcCollect fs) := by
  intro q hq
  obtain ⟨q', hsub, hq'⟩ := Shows.sublist h hq
  exact ⟨q', .pops hsub, hq'⟩

theorem ended_items {α : Type} {w : World E} {gc : α → Gc E} {x : M E α} {P : World E → Prop}
    (h : Ends x w (fun _ w' => P w') fun _ w' => P w') : P (Service.ended gc (x w)).world := by
  rcases h.cases with ⟨_, _, hx, hp⟩ | ⟨_, _, hx, hp⟩ <;> rwa [hx]

section
variable {g : Geometry} (hsize : ∀ e, E.size e = sizeWithOverhead g (Flash.push e).length)
  (hne : ∀ i t, nodeBytes E i t ≠ [])
include hsize hne

theorem onQueue_processWrites (w : World E) (bufLen : Nat) (fs : Faults E.Err) :
    OnQueue g (⟨w, .idle⟩ : Service E) (.processWrites bufLen fs) := by
  intro q hq
  let s : Service E := ⟨w, .idle⟩
  have hwf : ∀ n, ∀ e ∈ recordElems E n ((w.withFaults fs).toWrite bufLen), e.WellFormed := fun n =>
    wellFormed_toWrite hne n
  have hrecord : ∀ n, Shows g (w.items ++ recordItems E n ((w.withFaults fs).toWrite bufLen) w.call)
      (q ++ (recordElems E n ((w.withFaults fs).toWrite bufLen)).map Flash.push) := fun n =>
    List.rel_append hq (shows_pushes hsize w.call _ (hwf n))
  have hsame : ∀ r, processWrites bufLen (w.withFaults fs) = r → (endState r).items = w.items →
      ∃ q', QueueStep s (.processWrites bufLen fs) q q' ∧
        Shows g (s.next (.processWrites bufLen fs)).world.items q' := by
    rintro _ rfl h
    have hitems : (s.next (.processWrites bufLen fs)).world.items = s.world.items := h
    exact onQueue_same hitems q hq
  rcases (processWrites_spec bufLen (w.withFaults fs)).cases with
    ⟨c, w', hrun, ⟨_, rfl⟩ | ⟨n, range, f, hdue, _, _, _, rfl⟩⟩ |
    ⟨e, w', hrun, ⟨_, _, _, rfl⟩ | ⟨n, f, hdue, _, ⟨_, part, hpart, _, rfl⟩ | ⟨_, _, rfl⟩⟩⟩
  · exact hsame _ hrun rfl
  · refine ⟨_, .record q (writeDue_nextSeq hdue), ?_⟩
    show Shows g (endState (processWrites bufLen (w.withFaults fs))).items _
    rw [hrun]
    exact hrecord n
  · exact hsame _ hrun rfl
  · obtain ⟨es, torn, hes, htorn, hshows⟩ := Partly.shows hsize hpart (hwf n)
    have hfail : returnedOk (processWrites bufLen (w.withFaults fs)) = false := by
      rw [hrun]
      rfl
    refine ⟨_, .part q (writeDue_nextSeq hdue) hes htorn hfail, ?_⟩
    show Shows g (endState (processWrites bufLen (w.withFaults fs))).items _
    rw [hrun]
    exact List.rel_append hq hshows
  · refine ⟨_, .record q (writeDue_nextSeq hdue), ?_⟩
    show Shows g (endState (processWrites bufLen (w.withFaults fs))).items _
    rw [hrun]
    exact hrecord n

theorem onQueue_next (s : Service E) (v : Visit E) : OnQueue g s v := by
  obtain ⟨w, gc⟩ := s
  cases v with
  | nodes list cells => exact onQueue_same rfl
  | abandon | resetCache | powerLoss => exact onQueue_same rfl
  | processReads fs =>
    cases gc with
    | idle => exact onQueue_same (endState_of_ends (reading_processReads (w.withFaults fs))).items
    | collecting _ | finishing => exact onQueue_same rfl
  | processWrites bufLen fs =>
    cases gc with
    | idle => exact onQueue_processWrites hsize hne w bufLen fs
    | collecting _ | finishing => exact onQueue_same rfl
  | gcTake =>
    cases gc with
    | idle =>
      refine onQueue_same (ended_items (P := fun w' => w'.items = w.items)
        ((gcTake_spec w).mono ?_ fun _ _ h => h.elim))
      rintro _ w' (⟨_, rfl⟩ | ⟨_, _, rfl⟩)
      · rfl
      · rfl
    | collecting _ | finishing => exact onQueue_same rfl
  | gcCollect fs =>
    cases gc with
    | collecting cur =>
      refine onQueue_pops (ended_items (P := fun w' => w'.items <+ w.items)
        ((gcCollect_spec cur (w.withFaults fs)).mono ?_ ?_))
      · rintro _ w' ⟨_, _, rfl⟩
        exact survive_sublist _ _ _
      · rintro _ w' ⟨_, p, _, _, rfl⟩
        exact collect_sublist _ _ p _
    | idle | finishing => exact onQueue_same rfl
  | gcFinish fs =>
    cases gc with
    | finishing =>
      refine onQueue_same (ended_items (P := fun w' => w'.items = w.items)
        ((gcFinish_spec (w.withFaults fs)).mono ?_ ?_))
      · rintro _ w' ⟨_, _, rfl⟩
        rfl
      · rintro _ w' ⟨_, _, _, _, _, _, rfl⟩
        rfl
    | idle | collecting _ => exact onQueue_same rfl

end

/-! ## Runs -/

/-- **The bytes are kept**: in every run on a flash whose bytes are read as the items at
the start, however often it is cut off or rebooted, the bytes are changed by the pushes
of records and by pops only, and are read as the items. -/
theorem flash_keeps_items {g : Geometry}
    (hsize : ∀ e, E.size e = sizeWithOverhead g (Flash.push e).length)
    (hne : ∀ i t, nodeBytes E i t ≠ []) {items : List Item} {q₀ : List (List UInt8)}
    (h₀ : Shows g items q₀) {s : Service E}
    (hs : ((service E).after ⟨World.boot items, .idle⟩).Reachable s) :
    ∃ q, (onFlash E items q₀).Reachable (s, q) ∧ Shows g s.world.items q := by
  refine hs.invariant (I := fun s => ∃ q, (onFlash E items q₀).Reachable (s, q) ∧
    Shows g s.world.items q) ?_ ?_
  · rintro s rfl
    exact ⟨q₀, .init rfl, h₀⟩
  · rintro s v _ ⟨q, hr, hq⟩ rfl
    obtain ⟨q', hstep, hq'⟩ := onQueue_next hsize hne s v q hq
    exact ⟨q', hr.step ⟨rfl, hstep⟩, hq'⟩

/-- A flash with words of four bytes. -/
def words : Geometry := ⟨8, 4, 1⟩

def onWords : Env := { twoSettings with size := fun e => sizeWithOverhead words (Flash.push e).length }

/-- The power fails during the second push. -/
def cutPush : Faults onWords.Err := { pushes := [.ok, .cut (.torn 5)] }

/-- A first write that is cut off, and one after the reboot. -/
def cutVisits : List (Visit onWords) :=
  [.nodes [settingA] fun _ => ⟨.needsWrite, some (7 : UInt8)⟩, .processReads .none,
    .processWrites 64 cutPush, .powerLoss, .nodes [settingA] fun _ => ⟨.needsWrite, some (7 : UInt8)⟩,
    .processReads .none, .processWrites 64 .none]

def afterCut : Service onWords := cutVisits.foldl Service.next ⟨World.boot [], .idle⟩

theorem flash_keeps_items_cut : afterCut.world.items.length = 5 ∧
    ∃ q, (onFlash onWords [] []).Reachable (afterCut, q) ∧ Shows words afterCut.world.items q := by
  have hkey : ∀ i, (onWords.cbor.encodeStr (onWords.key i)).flatten ≠ [] := by
    show ∀ i : Fin 2, (onWords.cbor.encodeStr (onWords.key i)).flatten ≠ []
    decide +kernel
  refine ⟨by decide +kernel, flash_keeps_items (fun _ => rfl)
    (fun i _ => List.append_ne_nil_of_left_ne_nil (hkey i) _) .nil ?_⟩
  exact System.reachable_foldl (S := (service onWords).after ⟨World.boot [], .idle⟩)
    (fun _ _ _ => rfl) (.init rfl)

end CfgNoodle

import CfgNoodle.Exclusivity

/-! # The states of a node

Every turn keeps the invariant of the tasks. So no call panics, no data cell is
read that is not initialised, and a node's state changes along the documented
transitions only. -/
namespace CfgNoodle
open Outcome Runs
variable {E : Env} {L τ : Type}

/-! ## The list pointer and its owner -/

theorem Relies.word_of_node {s : Tasks E L τ} {p : Pc E L} {i : E.Id} (h : Relies s p)
    (hi : p.node = some i) : (s.word i).lowBit = true := by
  cases p with
  | attachLink l j | attachWait l j _ | attachRelock l j | attachDefault l j | writeLock l j
  | writing l j | detachUnlink l j | detachReset l j | detachStore l j =>
    cases hi
    rw [h.1]
    rfl
  | handle j =>
    cases hi
    obtain ⟨l, hw, _⟩ := h
    rw [hw]
    rfl
  | _ => cases hi

namespace Exclusive
variable {s : Tasks E L τ} (h : Exclusive s)
include h

theorem sole {t : τ} {i : E.Id} (ht : (s.pc t).node = some i) :
    ∀ t', t' ≠ t → (s.pc t').node ≠ some i := fun t' hne ht' => hne (h.unique t' t i ht' ht)

theorem nobody {i : E.Id} (hw : (s.word i).lowBit = false) (t : τ) : (s.pc t).node ≠ some i := by
  intro ht
  have := (h.relies t).word_of_node ht
  rw [hw] at this
  cases this

theorem fresh_of_null {i : E.Id} (hw : s.word i = .null) : s.Unlinked i ∧ s.cells i = Cell.new := by
  rcases h.rests i (h.nobody (by rw [hw]; rfl)) with ⟨_, hu, hc⟩ | ⟨l, hw' | hw', _⟩
  · exact ⟨hu, hc⟩
  · rw [hw] at hw'
    cases hw'
  · rw [hw] at hw'
    cases hw'

theorem mem_of_attached {i : E.Id} {l : L} (hw : s.word i = .attached l) : i ∈ s.links l := by
  rcases h.rests i (h.nobody (by rw [hw]; rfl)) with ⟨hw', _⟩ | ⟨l', hw' | hw', hi⟩
  · rw [hw] at hw'
    cases hw'
  · rw [hw] at hw'
    cases hw'
    exact hi
  · rw [hw] at hw'
    cases hw'

/-- A node that one task holds the mutex for is not deserialized by another. -/
theorem no_deserializer {t : τ} {l : L} {i : E.Id} (ht : (s.pc t).holds = some l)
    (hi : i ∈ s.links l) (t' : τ) (k : L) (hne : t' ≠ t) (hk : (s.pc t').holds = some k) :
    i ∉ s.links k := fun hik => hne (h.holder (h.only i k l hik hi ▸ hk) ht)

theorem isSome_of_hasValue {i : E.Id} (hv : (s.state i).hasValue = true) :
    (s.cells i).t.isSome = true := (h.wf i).trans hv

theorem not_uninitialised (i : E.Id) : ¬((s.state i).hasValue && (s.cells i).t.isNone) = true := by
  intro hv
  rw [Bool.and_eq_true] at hv
  have hsome := h.isSome_of_hasValue hv.1
  rw [Option.isNone_iff_eq_none.mp hv.2] at hsome
  cases hsome

end Exclusive

/-! ## Calls that start, lock and are abandoned -/

theorem Pc.Starts.idle {p : Pc E L} (h : p.Starts) : p.holds = none ∧ p.node = none ∧
    ∀ s : Tasks E L τ, Relies s p := by
  cases h with
  | attach l i | detach l i | processReads l | processWrites l | onCache l =>
    exact ⟨rfl, rfl, fun _ => trivial⟩

theorem Pc.locked_spec {p q : Pc E L} {l : L} (h : p.locked = some (l, q)) :
    p.holds = none ∧ q.holds = some l ∧ q.node = p.node ∧
      ∀ s : Tasks E L τ, Relies s p → Relies s q := by
  cases p with
  | attachLock k i | attachRelock k i | writeLock k i | detachLock k i | readLock k | storeLock k
  | cacheLock k =>
    cases h
    exact ⟨rfl, rfl, rfl, fun _ hr => hr⟩
  | _ => cases h

theorem Pc.abandoned_spec {p q : Pc E L} (h : p.abandoned = some q) :
    p.holds = none ∧ q.holds = none ∧ (∀ i, q.node = some i → p.node = some i) ∧
      ∀ s : Tasks E L τ, Relies s p → Relies s q ∧ ∀ i, p.node = some i → q.node = none → Rests s i := by
  cases p with
  | attachWait k i already =>
    cases h
    refine ⟨rfl, rfl, nofun, fun s hr => ⟨trivial, fun j hj _ => ?_⟩⟩
    cases hj
    exact Or.inr ⟨k, Or.inr hr.1, hr.2.1⟩
  | attachRelock k i =>
    cases h
    refine ⟨rfl, rfl, nofun, fun s hr => ⟨trivial, fun j hj _ => ?_⟩⟩
    cases hj
    exact Or.inr ⟨k, Or.inr hr.1, hr.2.1⟩
  | writeLock k i =>
    cases h
    exact ⟨rfl, rfl, fun _ hi => hi, fun s hr => ⟨⟨k, hr⟩, fun _ _ hn => nomatch hn⟩⟩
  | attachLock k i | detachLock k i | readLock k | storeLock k | cacheLock k =>
    cases h
    exact ⟨rfl, rfl, nofun, fun _ _ => ⟨trivial, nofun⟩⟩
  | _ => cases h

/-! ## Turns -/

variable [DecidableEq L]

theorem ListPointer.check_ne_invalidState {list : L} {w : ListPointer L} {e : Error}
    (h : w.check list = .error e) (key : String) (state : State) : e ≠ .invalidState key state := by
  intro heq
  subst heq
  cases w with
  | null => cases h
  | attached l | taken l =>
    by_cases hl : l = list
    · simp [ListPointer.check, hl] at h
    · simp [ListPointer.check, hl] at h
  | detaching => cases h

theorem Tasks.mem_setLinks {s : Tasks E L τ} {l k : L} {list : List E.Id} {i : E.Id} :
    i ∈ (s.setLinks l list).links k ↔ k = l ∧ i ∈ list ∨ k ≠ l ∧ i ∈ s.links k := by
  show i ∈ Function.update s.links l list k ↔ _
  by_cases hk : k = l
  · subst hk
    simp
  · simp [hk]

variable [DecidableEq τ]

namespace Exclusive
variable {s : Tasks E L τ} {t : τ} (h : Exclusive s)
include h

/-- A task goes on without changing anything. -/
theorem goto {p : Pc E L} (hh : p.holds = (s.pc t).holds)
    (hown : ∀ j, p.node = some j → (s.pc t).node = some j) (hrelies : Relies s p)
    (hrest : ∀ j, (s.pc t).node = some j → p.node = none → Rests s j) : Exclusive (s.goto t p) :=
  h.move rfl (.keep rfl hh) (fun _ => ⟨rfl, rfl, fun _ => Iff.rfl⟩) rfl hown hrelies hrest

/-- A call that holds nothing but the mutex fails. -/
theorem fail {l : L} {p : Pc E L} (hl : (s.pc t).holds = some l) (hn : (s.pc t).node = none)
    (hp : p.holds = none) (hpn : p.node = none) (hrelies : Relies s p) :
    Exclusive ((s.unlock l).goto t p) :=
  h.move rfl (.unlock l rfl hl hp) (fun _ => ⟨rfl, rfl, fun _ => Iff.rfl⟩) rfl
    (fun j hj => by rw [hpn] at hj; cases hj) hrelies fun j hj => by rw [hn] at hj; cases hj

theorem start {p : Pc E L} (hi : s.pc t = .idle ∨ ∃ e, s.pc t = .failed e) (hp : p.Starts) :
    Exclusive (s.goto t p) := by
  have hidle : (s.pc t).holds = none ∧ (s.pc t).node = none := by
    rcases hi with hi | ⟨e, hi⟩ <;> rw [hi] <;> exact ⟨rfl, rfl⟩
  obtain ⟨hh, hn, hr⟩ := hp.idle (τ := τ)
  refine h.goto (hh.trans hidle.1.symm) (fun j hj => ?_) (hr s) fun j hj => ?_
  · rw [hn] at hj
    cases hj
  · rw [hidle.2] at hj
    cases hj

theorem lock {l : L} {p : Pc E L} (hp : (s.pc t).locked = some (l, p)) (hm : s.mutex l = none) :
    Exclusive ((s.lock l t).goto t p) := by
  obtain ⟨hh, hl, hn, hr⟩ := Pc.locked_spec (τ := τ) hp
  refine h.move rfl (.lock l rfl hm hh hl) (fun _ => ⟨rfl, rfl, fun _ => Iff.rfl⟩) rfl
    (fun j hj => hn ▸ hj) (hr s (h.relies t)) fun j hj hpn => ?_
  rw [← hn, hpn] at hj
  cases hj

theorem abandon {p : Pc E L} (hp : (s.pc t).abandoned = some p) : Exclusive (s.goto t p) := by
  obtain ⟨hh, hl, hn, hr⟩ := Pc.abandoned_spec (τ := τ) hp
  obtain ⟨hrelies, hrest⟩ := hr s (h.relies t)
  exact h.goto (hl.trans hh.symm) hn hrelies hrest

/-- The list pointer is claimed or given back. -/
theorem setWord {s' : Tasks E L τ} {i : E.Id} {w : ListPointer L} {p : Pc E L}
    (hpc : s'.pc = Function.update s.pc t p) (hm : Hands s s' t p)
    (hw : s'.word = Function.update s.word i w) (hl : s'.links = s.links) (hc : s'.cells = s.cells)
    (hown : ∀ j, (s.pc t).node = some j → j = i) (hown' : ∀ j, p.node = some j → j = i)
    (hnobody : ∀ t', t' ≠ t → (s.pc t').node ≠ some i)
    (hrelies : Relies s' p) (hrest : p.node = none → Rests s' i) : Exclusive s' := by
  have hsi : s'.state i = s.state i := by rw [Tasks.state, hc, Tasks.state]
  refine h.act hpc hm (i := i) (fun j hj => ⟨?_, by rw [hc], fun l => by rw [hl]⟩) hown hown' hnobody
    (fun l => by rw [hl]; exact h.keys l) (by rw [hc]; exact h.wf i)
    (fun l l' hi hi' => ?_) hrelies hrest fun _ _ _ _ hi hs => ?_
  · rw [hw, Function.update_of_ne hj]
  · rw [hl] at hi hi'
    exact h.only i l l' hi hi'
  · rw [hl, hsi]
    exact ⟨hi, hs⟩

/-- The task that owns a node changes its cell, and no other call is at it. -/
theorem setCell {s' : Tasks E L τ} {i : E.Id} {c : Cell (E.T i)} {p : Pc E L}
    (hpc : s'.pc = Function.update s.pc t p) (hm : Hands s s' t p)
    (hc : s'.cells = Function.update s.cells i c) (hw : s'.word = s.word) (hl : s'.links = s.links)
    (hn : (s.pc t).node = some i) (hn' : p.node = some i) (hwf : c.Wf) (hrelies : Relies s' p)
    (hnone : ∀ t' k, t' ≠ t → (s.pc t').holds = some k → i ∉ s.links k) : Exclusive s' := by
  refine h.act hpc hm (i := i) (fun j hj => ⟨by rw [hw], ?_, fun k => by rw [hl]⟩)
    (fun _ => Pc.eq_of_node hn) (fun _ => Pc.eq_of_node hn') (h.sole hn)
    (fun k => by rw [hl]; exact h.keys k) ?_ (fun k k' hk hk' => ?_) hrelies
    (fun hp => nomatch hp.symm.trans hn') fun t' k ht hk hi _ => absurd hi (hnone t' k ht hk)
  · rw [hc, Function.update_of_ne hj]
  · rw [hc, Function.update_self]
    exact hwf
  · rw [hl] at hk hk'
    exact h.only i k k' hk hk'

/-- The task that owns a node links or unlinks it, and no other call is at it. -/
theorem setLinks {s' : Tasks E L τ} {i : E.Id} {l : L} {list : List E.Id} {p : Pc E L}
    (hpc : s'.pc = Function.update s.pc t p) (hm : Hands s s' t p)
    (hl : s'.links = Function.update s.links l list) (hw : s'.word = s.word) (hc : s'.cells = s.cells)
    (hn : (s.pc t).node = some i) (hn' : p.node = some i)
    (hlist : ∀ j, j ≠ i → (j ∈ list ↔ j ∈ s.links l)) (hkeys : (list.map E.key).Nodup)
    (honly : ∀ k, k ≠ l → i ∉ s.links k) (hrelies : Relies s' p)
    (hnone : ∀ t' k, t' ≠ t → (s.pc t').holds = some k → i ∉ s.links k) : Exclusive s' := by
  have hin : ∀ k, i ∈ s'.links k → k = l := fun k hk => by
    by_contra hkl
    rw [hl, Function.update_of_ne hkl] at hk
    exact honly k hkl hk
  refine h.act hpc hm (i := i) (fun j hj => ⟨by rw [hw], by rw [hc], fun k => ?_⟩)
    (fun _ => Pc.eq_of_node hn) (fun _ => Pc.eq_of_node hn') (h.sole hn) (fun k => ?_)
    (by rw [hc]; exact h.wf i) (fun k k' hk hk' => (hin k hk).trans (hin k' hk').symm) hrelies
    (fun hp => nomatch hp.symm.trans hn') fun t' k ht hk hi _ => absurd hi (hnone t' k ht hk)
  · rw [hl]
    by_cases hk : k = l
    · subst hk
      rw [Function.update_self]
      exact hlist j hj
    · rw [Function.update_of_ne hk]
  · rw [hl]
    by_cases hk : k = l
    · subst hk
      rw [Function.update_self]
      exact hkeys
    · rw [Function.update_of_ne hk]
      exact h.keys k

theorem attachTake {l : L} {i : E.Id} (ht : s.pc t = .attachTake l i) :
    Exclusive (s.attachTake t l i) := by
  have hn : (s.pc t).node = none := by rw [ht]; rfl
  have hl : (s.pc t).holds = some l := by rw [ht]; rfl
  simp only [Tasks.attachTake]
  cases hc : (s.word i).check l with
  | error e => exact h.fail hl hn rfl rfl (ListPointer.check_ne_invalidState hc)
  | ok linked =>
    rcases ListPointer.check_eq_ok.mp hc with ⟨hw, rfl⟩ | ⟨hw, rfl⟩
    · obtain ⟨hu, hcell⟩ := h.fresh_of_null hw
      exact h.setWord rfl (.keep rfl hl.symm) rfl rfl rfl (fun _ => Pc.eq_of_no_node hn)
        (fun _ => Pc.eq_of_node rfl) (fun t' _ => h.nobody (by rw [hw]; rfl) t')
        ⟨Function.update_self .., hu, hcell⟩ fun hp => by cases hp
    · exact h.setWord rfl (.unlock l rfl hl rfl) rfl rfl rfl (fun _ => Pc.eq_of_no_node hn)
        (fun _ => Pc.eq_of_node rfl) (fun t' _ => h.nobody (by rw [hw]; rfl) t')
        ⟨Function.update_self .., h.mem_of_attached hw, fun hp => by cases hp⟩ fun hp => by cases hp

theorem attachLink {l : L} {i : E.Id} (ht : s.pc t = .attachLink l i) :
    Exclusive (s.attachLink t l i) := by
  have hn : (s.pc t).node = some i := by rw [ht]; rfl
  have hl : (s.pc t).holds = some l := by rw [ht]; rfl
  have hr := h.relies t
  rw [ht] at hr
  obtain ⟨hw, hu, hcell⟩ := hr
  simp only [Tasks.attachLink]
  split
  · exact h.setWord rfl (.unlock l rfl hl rfl) rfl rfl rfl (fun _ => Pc.eq_of_node hn)
      (fun _ => Pc.eq_of_no_node rfl) (h.sole hn) (fun _ _ he => by cases he)
      fun _ => Or.inl ⟨Function.update_self .., hu, hcell⟩
  · next hkey =>
    have hmem : i ∈ (s.setLinks l (i :: s.links l)).links l :=
      Tasks.mem_setLinks.mpr (Or.inl ⟨rfl, List.mem_cons_self⟩)
    have hstate : s.state i ≠ .needsWrite := by
      rw [Tasks.state, hcell]
      exact fun hs => by cases hs
    refine h.setLinks rfl (.unlock l rfl hl rfl) rfl rfl rfl hn rfl (fun j hj => by simp [hj]) ?_
      (fun k _ => hu k) ⟨hw, hmem, fun _ => hstate⟩ fun _ k _ _ => hu k
    rw [List.map_cons, List.nodup_cons]
    exact ⟨fun hin => hkey (findNode_isSome.mpr hin), h.keys l⟩

theorem attachWait {l : L} {i : E.Id} {already : Bool} (ht : s.pc t = .attachWait l i already) :
    Exclusive (s.attachWait t l i already) := by
  have hr := h.relies t
  rw [ht] at hr
  obtain ⟨hw, hi, hs⟩ := hr
  -- the node stays the task's
  have hgoto : ∀ p : Pc E L, p.holds = none → p.node = some i → Relies s p → Exclusive (s.goto t p) :=
    fun p hp hn hr => by
      refine h.goto (by rw [ht, hp]; rfl) (fun j hj => ?_) hr fun j _ hpn => ?_
      · rw [ht, ← hj, hn]
        rfl
      · rw [hn] at hpn
        cases hpn
  simp only [Tasks.attachWait]
  cases hst : s.state i with
  | initial => exact h
  | nonResident => exact hgoto _ rfl rfl ⟨hw, hi, hst⟩
  | needsWrite =>
    cases already with
    | true => exact hgoto _ rfl rfl ⟨l, hw, hi, by rw [hst]; rfl⟩
    | false => exact absurd hst (hs rfl)
  | validNoWriteNeeded => exact hgoto _ rfl rfl ⟨l, hw, hi, by rw [hst]; rfl⟩

/-- The owner of a node, which holds the mutex, gives it a value. -/
theorem store {l : L} {i : E.Id} (hl : (s.pc t).holds = some l) (hn : (s.pc t).node = some i)
    (hw : s.word i = .taken l) (hi : i ∈ s.links l) (v : E.T i) :
    Exclusive (((s.setCell i ⟨.needsWrite, some v⟩).unlock l).goto t (.handle i)) := by
  have hcell : (s.setCell i ⟨.needsWrite, some v⟩).cells i = ⟨.needsWrite, some v⟩ :=
    Function.update_self ..
  exact h.setCell rfl (.unlock l rfl hl rfl) rfl rfl rfl hn rfl (Cell.wf_needsWrite v)
    ⟨l, hw, hi, congrArg (fun c => c.state.hasValue) hcell⟩ fun t' k => h.no_deserializer hl hi t' k

theorem attachDefault {l : L} {i : E.Id} (ht : s.pc t = .attachDefault l i) (v : E.T i) :
    Exclusive (s.attachDefault t l i v) := by
  have hr := h.relies t
  rw [ht] at hr
  exact h.store (by rw [ht]; rfl) (by rw [ht]; rfl) hr.1 hr.2.1 v

omit [DecidableEq L] in
theorem load {i : E.Id} (ht : s.pc t = .handle i) : s.load t i = s := by
  have hr := h.relies t
  rw [ht] at hr
  obtain ⟨l, _, _, hv⟩ := hr
  simp only [Tasks.load]
  rw [if_pos hv, if_pos (h.isSome_of_hasValue hv)]

theorem write {i : E.Id} (ht : s.pc t = .handle i) : Exclusive (s.write t i) := by
  have hr := h.relies t
  rw [ht] at hr
  obtain ⟨l, hw, hi, hv⟩ := hr
  simp only [Tasks.write]
  rw [hw]
  refine h.goto (by rw [ht]; rfl) (fun j hj => ?_) ⟨hw, hi, hv⟩ fun j _ hp => by cases hp
  rw [ht]
  exact hj

theorem writing {l : L} {i : E.Id} (ht : s.pc t = .writing l i) (v : E.T i) :
    Exclusive (s.writing t l i v) := by
  have hr := h.relies t
  rw [ht] at hr
  obtain ⟨hw, hi, hv⟩ := hr
  simp only [Tasks.writing]
  rw [if_pos hv, if_pos (h.isSome_of_hasValue hv), hw]
  exact h.store (by rw [ht]; rfl) (by rw [ht]; rfl) hw hi v

theorem dropHandle {i : E.Id} (ht : s.pc t = .handle i) : Exclusive (s.dropHandle t i) := by
  have hn : (s.pc t).node = some i := by rw [ht]; rfl
  have hr := h.relies t
  rw [ht] at hr
  obtain ⟨l, hw, hi, hv⟩ := hr
  simp only [Tasks.dropHandle]
  rw [hw]
  exact h.setWord rfl (.keep rfl (by rw [ht]; rfl)) rfl rfl rfl (fun _ => Pc.eq_of_node hn)
    (fun _ => Pc.eq_of_no_node rfl) (h.sole hn) trivial
    fun _ => Or.inr ⟨l, Or.inl (Function.update_self ..), hi⟩

theorem detachCas {l : L} {i : E.Id} (ht : s.pc t = .detachCas l i) :
    Exclusive (s.detachCas t l i) := by
  have hn : (s.pc t).node = none := by rw [ht]; rfl
  have hl : (s.pc t).holds = some l := by rw [ht]; rfl
  simp only [Tasks.detachCas]
  cases hc : (s.word i).check l with
  | error e => exact h.fail hl hn rfl rfl (ListPointer.check_ne_invalidState hc)
  | ok linked =>
    rcases ListPointer.check_eq_ok.mp hc with ⟨hw, rfl⟩ | ⟨hw, rfl⟩
    · exact h.fail hl hn rfl rfl trivial
    · exact h.setWord rfl (.keep rfl hl.symm) rfl rfl rfl (fun _ => Pc.eq_of_no_node hn)
        (fun _ => Pc.eq_of_node rfl) (fun t' _ => h.nobody (by rw [hw]; rfl) t')
        ⟨Function.update_self .., h.mem_of_attached hw⟩ fun hp => by cases hp

theorem detachUnlink {l : L} {i : E.Id} (ht : s.pc t = .detachUnlink l i) :
    Exclusive (s.detachUnlink t l i) := by
  have hn : (s.pc t).node = some i := by rw [ht]; rfl
  have hl : (s.pc t).holds = some l := by rw [ht]; rfl
  have hr := h.relies t
  rw [ht] at hr
  obtain ⟨hw, hi⟩ := hr
  simp only [Tasks.detachUnlink]
  rw [if_pos hi]
  have hgone : ∀ k, i ∉ ((s.setLinks l ((s.links l).erase i))).links k := fun k hk => by
    rcases Tasks.mem_setLinks.mp hk with ⟨rfl, hk⟩ | ⟨hkl, hk⟩
    · exact (h.keys k).of_map.not_mem_erase hk
    · exact hkl (h.only i k l hk hi)
  exact h.setLinks rfl (.keep rfl hl.symm) rfl rfl rfl hn rfl (fun j hj => List.mem_erase_of_ne hj)
    ((h.keys l).sublist (List.erase_sublist.map E.key)) (fun k hk hik => hk (h.only i k l hik hi))
    ⟨hw, hgone⟩ fun t' k => h.no_deserializer hl hi t' k

theorem detachReset {l : L} {i : E.Id} (ht : s.pc t = .detachReset l i) :
    Exclusive (s.detachReset t l i) := by
  have hn : (s.pc t).node = some i := by rw [ht]; rfl
  have hl : (s.pc t).holds = some l := by rw [ht]; rfl
  have hr := h.relies t
  rw [ht] at hr
  obtain ⟨hw, hu⟩ := hr
  simp only [Tasks.detachReset]
  rw [if_neg (h.not_uninitialised i)]
  exact h.setCell rfl (.keep rfl hl.symm) rfl rfl rfl hn rfl Cell.wf_new
    ⟨hw, hu, Function.update_self ..⟩ fun _ k _ _ => hu k

theorem detachStore {l : L} {i : E.Id} (ht : s.pc t = .detachStore l i) :
    Exclusive (s.detachStore t l i) := by
  have hn : (s.pc t).node = some i := by rw [ht]; rfl
  have hl : (s.pc t).holds = some l := by rw [ht]; rfl
  have hr := h.relies t
  rw [ht] at hr
  obtain ⟨hw, hu, hcell⟩ := hr
  exact h.setWord rfl (.unlock l rfl hl rfl) rfl rfl rfl (fun _ => Pc.eq_of_node hn) nofun (h.sole hn)
    trivial fun _ => Or.inl ⟨Function.update_self .., hu, hcell⟩

theorem readData {l : L} (ht : s.pc t = .reading l) (d : SerData) : Exclusive (s.readData t l d) := by
  simp only [Tasks.readData]
  cases d.kvPair E.cbor with
  | error e => exact h
  | ok kv =>
    dsimp only
    cases hf : findNode (s.links l) kv.key with
    | none => exact h
    | some i =>
      dsimp only
      split
      · next hs =>
        exact h.goto (by rw [ht]; rfl) (fun j hj => by cases hj) ⟨List.mem_of_find?_eq_some hf, hs⟩
          fun j hj => by rw [ht] at hj; cases hj
      · exact h

theorem deserializing {l : L} {i : E.Id} {body : List UInt8} (ht : s.pc t = .deserializing l i body) :
    Exclusive (s.deserializing t l i body) := by
  have hr := h.relies t
  rw [ht] at hr
  obtain ⟨hi, hs⟩ := hr
  simp only [Tasks.deserializing]
  have hassert : ¬(((E.vtable i).decode body).isSome && s.state i ≠ .initial) = true := by simp [hs]
  rw [if_neg hassert]
  refine h.sweep rfl (.keep rfl (by rw [ht]; rfl)) (l := l) (by rw [ht]; rfl) (by rw [ht]; rfl) rfl rfl
    rfl (fun j => ?_) (fun j hj => ?_) trivial
  · show (s.cells j).Worked (Function.update s.cells i (deserialize (E.vtable i) body (s.cells i)) j)
    by_cases hji : j = i
    · subst hji
      rw [Function.update_self]
      exact Or.inl (hydrates_deserialize _ body hs)
    · rw [Function.update_of_ne hji]
      exact .refl _
  · refine Function.update_of_ne ?_ ..
    intro heq
    subst heq
    exact hj hi

omit [DecidableEq L] in
theorem serialize (i : E.Id) : s.serialize t i = s := by
  simp only [Tasks.serialize]
  rw [if_neg (h.not_uninitialised i)]

/-- A call of the list ends. -/
theorem finish {l : L} {cells : Cells E} (hl : (s.pc t).holds = some l) (hn : (s.pc t).node = none)
    (hcells : ∀ i, (s.cells i).Worked (cells i)) (hout : ∀ i, i ∉ s.links l → cells i = s.cells i) :
    Exclusive (s.finish t l cells) :=
  h.sweep rfl (.unlock l rfl hl rfl) hl hn rfl rfl rfl hcells hout trivial

theorem step {s' : Tasks E L τ} {u : Turn τ} (hstep : Step s u s') : Exclusive s' := by
  cases hstep with
  | start hi hp => exact h.start hi hp
  | lock hp hm => exact h.lock hp hm
  | abandon hp => exact h.abandon hp
  | attachTake ht => exact h.attachTake ht
  | attachLink ht => exact h.attachLink ht
  | attachWait ht => exact h.attachWait ht
  | attachDefault ht v => exact h.attachDefault ht v
  | load ht =>
    rw [h.load ht]
    exact h
  | write ht => exact h.write ht
  | writing ht v => exact h.writing ht v
  | dropHandle ht => exact h.dropHandle ht
  | detachCas ht => exact h.detachCas ht
  | detachUnlink ht => exact h.detachUnlink ht
  | detachReset ht => exact h.detachReset ht
  | detachStore ht => exact h.detachStore ht
  | readData ht d => exact h.readData ht d
  | deserializing ht => exact h.deserializing ht
  | serialize ht hi =>
    rw [h.serialize]
    exact h
  | @readDone t l ht =>
    exact h.finish (by rw [ht]; rfl) (by rw [ht]; rfl)
      (worked_markInitialNonresident (s.links l) s.cells) fun i hi => if_neg fun hp => hi hp.1
  | @storeDone t l ht =>
    exact h.finish (by rw [ht]; rfl) (by rw [ht]; rfl) (worked_markWritten (s.links l) s.cells)
      fun i hi => markWritten_of_not_mem hi
  | @ended t l ht =>
    have hp : (s.pc t).holds = some l ∧ (s.pc t).node = none := by
      rcases ht with ht | ht | ht <;> rw [ht] <;> exact ⟨rfl, rfl⟩
    exact h.finish hp.1 hp.2 (fun i => .refl _) fun _ _ => rfl

end Exclusive

/-- In every run, whatever is abandoned in it. -/
theorem exclusive_reachable {s : Tasks E L τ} (hs : (tasks E L τ).Reachable s) : Exclusive s :=
  hs.invariant (fun _ h0 => h0 ▸ exclusive_new) fun _ _ _ hi hstep => hi.step hstep

/-! ## Transitions -/

section Documented
omit [DecidableEq L] [DecidableEq τ]

/-- The transitions of the safety guide, and the task that makes each of them. -/
inductive Documented : Pc E L → E.Id → State → State → Prop
  | nonResident (l : L) (i : E.Id) : Documented (.reading l) i .initial .nonResident
  | undecodable (l : L) (i : E.Id) (body : List UInt8) :
      Documented (.deserializing l i body) i .initial .nonResident
  | hydrated (l : L) (i : E.Id) (body : List UInt8) :
      Documented (.deserializing l i body) i .initial .validNoWriteNeeded
  | default (l : L) (i : E.Id) : Documented (.attachDefault l i) i .nonResident .needsWrite
  | written (l : L) (i : E.Id) : Documented (.storing l) i .needsWrite .validNoWriteNeeded
  | changed (l : L) (i : E.Id) : Documented (.writing l i) i .validNoWriteNeeded .needsWrite
  | detached (l : L) (i : E.Id) (a : State) : Documented (.detachReset l i) i a .initial

/-- A transition is made with the mutex of a list held. -/
theorem Documented.holds {p : Pc E L} {i : E.Id} {a b : State} (h : Documented p i a b) :
    ∃ l, p.holds = some l := by
  cases h with
  | nonResident l | undecodable l _ _ | hydrated l _ _ | default l _ | written l _ | changed l _
  | detached l _ _ => exact ⟨l, rfl⟩

theorem Tasks.state_of_cells {s s' : Tasks E L τ} (h : s'.cells = s.cells) (i : E.Id) :
    s'.state i = s.state i := by rw [Tasks.state, h, Tasks.state]

/-- One cell is stored. -/
theorem Documented.update {s : Tasks E L τ} {i : E.Id} {c : Cell (E.T i)} {p : Pc E L}
    (h : s.state i = c.state ∨ Documented p i (s.state i) c.state) {s' : Tasks E L τ}
    (hs : s'.cells = Function.update s.cells i c) (j : E.Id) :
    s'.state j = s.state j ∨ Documented p j (s.state j) (s'.state j) := by
  simp only [Tasks.state] at *
  rw [hs]
  by_cases hj : j = i
  · subst hj
    rw [Function.update_self]
    exact h.imp_left Eq.symm
  · rw [Function.update_of_ne hj]
    exact Or.inl rfl

theorem Documented.needsWrite {a : State} (l : L) (i : E.Id) (h : a.hasValue = true) :
    a = .needsWrite ∨ Documented (.writing l i) i a .needsWrite := by
  cases a with
  | initial | nonResident => cases h
  | validNoWriteNeeded => exact Or.inr (.changed l i)
  | needsWrite => exact Or.inl rfl

end Documented

/-- A node's state changes along a documented transition, made by the task whose
turn it is, or not at all. -/
theorem Exclusive.documented {s s' : Tasks E L τ} {u : Turn τ} (h : Exclusive s)
    (hstep : Step s u s') (i : E.Id) :
    s'.state i = s.state i ∨
      ∃ t, u = .run t ∧ Documented (s.pc t) i (s.state i) (s'.state i) := by
  suffices hcells : s'.cells = s.cells ∨ ∃ t, u = .run t ∧ ∀ i, s'.state i = s.state i ∨
      Documented (s.pc t) i (s.state i) (s'.state i) by
    rcases hcells with hc | ⟨t, hu, hd⟩
    · exact Or.inl (Tasks.state_of_cells hc i)
    · exact (hd i).imp_right fun hd => ⟨t, hu, hd⟩
  cases hstep with
  | start _ _ | lock _ _ | abandon _ | detachStore _ | ended _ => exact Or.inl rfl
  | attachTake _ | attachLink _ | attachWait _ | load _ | write _ | dropHandle _ | detachCas _
  | detachUnlink _ | readData _ _ | serialize _ _ => exact Or.inl (by simp)
  | @attachDefault t l i ht v =>
    have hr := h.relies t
    rw [ht] at hr
    refine Or.inr ⟨t, rfl, fun j => ?_⟩
    rw [ht]
    refine Documented.update (i := i) (Or.inr ?_) rfl j
    rw [hr.2.2]
    exact .default l i
  | @writing t l i ht v =>
    have hr := h.relies t
    rw [ht] at hr
    obtain ⟨hw, _, hv⟩ := hr
    refine Or.inr ⟨t, rfl, fun j => ?_⟩
    simp only [Tasks.writing]
    rw [if_pos hv, if_pos (h.isSome_of_hasValue hv), hw, ht]
    exact Documented.update (i := i) (Documented.needsWrite l i hv) rfl j
  | @detachReset t l i ht =>
    refine Or.inr ⟨t, rfl, fun j => ?_⟩
    simp only [Tasks.detachReset]
    split
    · exact Or.inl rfl
    · rw [ht]
      exact Documented.update (i := i) (Or.inr (.detached l i _)) rfl j
  | @deserializing t l i body ht =>
    have hr := h.relies t
    rw [ht] at hr
    obtain ⟨_, hs⟩ := hr
    refine Or.inr ⟨t, rfl, fun j => ?_⟩
    simp only [Tasks.deserializing]
    split
    · exact Or.inl rfl
    · rw [ht]
      refine Documented.update (i := i) (Or.inr ?_) rfl j
      rw [hs]
      simp only [deserialize]
      cases (E.vtable i).decode body with
      | none => exact .undecodable l i body
      | some v => exact .hydrated l i body
  | @readDone t l ht =>
    refine Or.inr ⟨t, rfl, fun j => ?_⟩
    rw [ht]
    show (markInitialNonresident _ _ j).state = _ ∨
      Documented _ j _ (markInitialNonresident _ _ j).state
    simp only [markInitialNonresident]
    split
    · next hj =>
      have hs : s.state j = .initial := hj.2
      rw [hs]
      exact Or.inr (.nonResident l j)
    · exact Or.inl rfl
  | @storeDone t l ht =>
    refine Or.inr ⟨t, rfl, fun j => ?_⟩
    rw [ht]
    show (markWritten _ _ j).state = _ ∨ Documented _ j _ (markWritten _ _ j).state
    simp only [markWritten]
    split
    · next hj =>
      have hv : (s.state j).hasValue = true := hj.2
      cases hs : s.state j with
      | initial | nonResident =>
        rw [hs] at hv
        cases hv
      | validNoWriteNeeded => exact Or.inl rfl
      | needsWrite => exact Or.inr (.written l j)
    · exact Or.inl rfl

/-! ## Typestate safety -/

theorem Cell.wf_iff {T : Type} (c : Cell T) :
    c.Wf ↔ (c.t.isSome = true ↔ c.state = .validNoWriteNeeded ∨ c.state = .needsWrite) := by
  obtain ⟨state, t⟩ := c
  cases state <;> cases t <;> simp [Cell.Wf, State.hasValue]

/-- In every state that a run reaches, a cell holds a value exactly if the node's
state says so, every turn changes states along the documented transitions, and no
task has come to what must not happen. -/
theorem typestate_safe {s : Tasks E L τ} (hs : (tasks E L τ).Reachable s) :
    (∀ i, (s.cells i).t.isSome = true ↔ s.state i = .validNoWriteNeeded ∨ s.state i = .needsWrite) ∧
      (∀ u s' i, Step s u s' → s'.state i = s.state i ∨
        ∃ t, u = .run t ∧ Documented (s.pc t) i (s.state i) (s'.state i)) ∧
      (∀ t p, s.pc t ≠ .panicked p) ∧ ∀ t key state, s.pc t ≠ .failed (.invalidState key state) := by
  have h := exclusive_reachable hs
  refine ⟨fun i => (s.cells i).wf_iff.mp (h.wf i), fun u s' i hstep => h.documented hstep i,
    fun t p hp => ?_, fun t key state hp => ?_⟩
  · have hr := h.relies t
    rw [hp] at hr
    exact hr
  · have hr := h.relies t
    rw [hp] at hr
    exact hr key state rfl

/-- One task has linked one node and waits for it to be hydrated. -/
def Tasks.waiting (t : τ) (l : L) (i : E.Id) : Tasks E L τ :=
  ((((Tasks.new.goto t (.attachLock l i)).lock l t).goto t (.attachTake l i)).attachTake t l
    i).attachLink t l i

theorem completing_waiting (t : τ) (l : L) (i : E.Id) :
    (completing E L τ).Reachable (Tasks.waiting t l i) := by
  have h0 : (completing E L τ).Reachable Tasks.new := .init rfl
  have hrun : ∀ {s s' : Tasks E L τ}, (completing E L τ).Reachable s → Step s (.run t) s' →
      (completing E L τ).Reachable s' := fun hs hstep => hs.step ⟨hstep, id⟩
  have h1 := hrun h0 (.start (Or.inl rfl) (.attach l i))
  have hlocked : ((Tasks.new.goto t (.attachLock l i) : Tasks E L τ).pc t).locked =
      some (l, .attachTake l i) := by
    rw [Tasks.goto_pc]
    rfl
  have h2 := hrun h1 (.lock hlocked rfl)
  have h3 := hrun h2 (.attachTake (Function.update_self ..))
  exact hrun h3 (.attachLink (Function.update_self ..))

/-- One of two tasks and one of two lists. -/
def oneWaiting : Tasks twoSettings Bool Bool := .waiting true false settingA

theorem completing_oneWaiting : (completing twoSettings Bool Bool).Reachable oneWaiting :=
  completing_waiting true false settingA

theorem typestate_safe_waiting :
    (∀ i, (oneWaiting.cells i).t.isSome = true ↔
      oneWaiting.state i = .validNoWriteNeeded ∨ oneWaiting.state i = .needsWrite) ∧
      (∀ u s' i, Step oneWaiting u s' → s'.state i = oneWaiting.state i ∨
        ∃ t, u = .run t ∧ Documented (oneWaiting.pc t) i (oneWaiting.state i) (s'.state i)) ∧
      (∀ t p, oneWaiting.pc t ≠ .panicked p) ∧
      ∀ t key state, oneWaiting.pc t ≠ .failed (.invalidState key state) :=
  typestate_safe completing_oneWaiting.of_restrict

end CfgNoodle

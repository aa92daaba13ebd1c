import CfgNoodle.Typestate

/-! # List membership and the handle bit

Between the sections that link or unlink it, a node is in a list exactly if its
list pointer says so. The lowest bit of the pointer is set exactly while there is
an attach or a handle, unless an attach is dropped once it has set it: then the
bit stays, and no later call gets the node. -/
namespace CfgNoodle
open Outcome Runs
variable {E : Env} {L τ : Type}

/-- The node that the task links or unlinks, in a section of the mutex. -/
def Pc.changing : Pc E L → Option E.Id
  | attachLink _ i | detachUnlink _ i | detachReset _ i | detachStore _ i => some i
  | _ => none

/-- No task links or unlinks the node. -/
def Tasks.Settled (s : Tasks E L τ) (i : E.Id) : Prop := ∀ t, (s.pc t).changing ≠ some i

/-- The lowest bit is set for a client of the node only. While a node is detached,
its pointer is that of no list. -/
def HandleBit (s : Tasks E L τ) : Prop :=
  ∀ i, (∀ t, (s.pc t).detaches ≠ some i) → (s.word i).lowBit = true → ∃ t, (s.pc t).client = some i

/-! ## The owner of the bit -/

theorem Pc.node_eq_some {p : Pc E L} {i : E.Id} :
    p.node = some i ↔ p.client = some i ∨ p.detaches = some i := by
  cases p <;> simp [Pc.node, Pc.client, Pc.detaches]

/-- Every bit that is set has an owner. -/
theorem handleBit_iff {s : Tasks E L τ} :
    HandleBit s ↔ ∀ i, (s.word i).lowBit = true → ∃ t, (s.pc t).node = some i := by
  constructor
  · intro h i hi
    by_cases hd : ∃ t, (s.pc t).detaches = some i
    · obtain ⟨t, ht⟩ := hd
      exact ⟨t, Pc.node_eq_some.mpr (Or.inr ht)⟩
    · obtain ⟨t, ht⟩ := h i (fun t ht => hd ⟨t, ht⟩) hi
      exact ⟨t, Pc.node_eq_some.mpr (Or.inl ht)⟩
  · intro h i hd hi
    obtain ⟨t, ht⟩ := h i hi
    exact ⟨t, (Pc.node_eq_some.mp ht).resolve_right (hd t)⟩

/-! ## Membership -/

theorem Pc.node_of_changing {p : Pc E L} {i : E.Id} (h : p.changing = some i) :
    p.node = some i ∧ ∃ l, p.holds = some l := by
  cases p with
  | attachLink l j | detachUnlink l j | detachReset l j | detachStore l j =>
    cases h
    exact ⟨rfl, l, rfl⟩
  | _ => cases h

/-- Where no mutex is held, no node is being linked or unlinked. -/
theorem Exclusive.settled {s : Tasks E L τ} (h : Exclusive s) (hm : ∀ l, s.mutex l = none) (i : E.Id) :
    s.Settled i := by
  intro t ht
  obtain ⟨_, l, hl⟩ := Pc.node_of_changing ht
  have := (h.mutex t l).mp hl
  rw [hm l] at this
  cases this

/-- A node that is settled is nowhere or in one list. -/
theorem Exclusive.placed {s : Tasks E L τ} (h : Exclusive s) {i : E.Id} (hi : s.Settled i) :
    s.word i = .null ∧ s.Unlinked i ∨
      ∃ l, (s.word i = .attached l ∨ s.word i = .taken l) ∧ i ∈ s.links l := by
  by_cases hn : ∃ t, (s.pc t).node = some i
  · obtain ⟨t, ht⟩ := hn
    have hr := h.relies t
    have hch := hi t
    cases hpc : s.pc t with
    | attachLink l j | detachUnlink l j | detachReset l j | detachStore l j =>
      rw [hpc] at ht hch
      cases ht
      exact absurd rfl hch
    | attachWait l j _ | attachRelock l j | attachDefault l j | writeLock l j | writing l j =>
      rw [hpc] at ht hr
      cases ht
      exact Or.inr ⟨l, Or.inr hr.1, hr.2.1⟩
    | handle j =>
      rw [hpc] at ht hr
      cases ht
      obtain ⟨l, hw, hl, _⟩ := hr
      exact Or.inr ⟨l, Or.inr hw, hl⟩
    | _ =>
      rw [hpc] at ht
      cases ht
  · exact (h.rests i fun t ht => hn ⟨t, ht⟩).imp_left fun ⟨hw, hu, _⟩ => ⟨hw, hu⟩

theorem Exclusive.linked_iff {s : Tasks E L τ} (h : Exclusive s) {i : E.Id} (hi : s.Settled i) (l : L) :
    i ∈ s.links l ↔ s.word i = .attached l ∨ s.word i = .taken l := by
  rcases h.placed hi with ⟨hw, hu⟩ | ⟨k, hw, hk⟩
  · rw [hw]
    simpa using hu l
  · constructor
    · intro hl
      exact h.only i k l hk hl ▸ hw
    · intro hl
      have hkl : k = l := by
        rcases hw with hw | hw <;> rw [hw] at hl <;> simpa using hl
      exact hkl ▸ hk

/-- The same for the nodes of a list whose mutex is free. -/
theorem Exclusive.linked_iff_of_free {s : Tasks E L τ} (h : Exclusive s) {l : L}
    (hl : s.mutex l = none) (i : E.Id) :
    i ∈ s.links l ↔ s.word i = .attached l ∨ s.word i = .taken l := by
  by_cases hi : s.Settled i
  · exact h.linked_iff hi l
  · -- the node is being linked to another list or unlinked from one
    obtain ⟨t, ht⟩ := not_forall_not.mp hi
    have hr := h.relies t
    have hne : ∀ k, (s.pc t).holds = some k → k ≠ l := by
      intro k hk heq
      subst heq
      have := (h.mutex t k).mp hk
      rw [hl] at this
      cases this
    cases hpc : s.pc t with
    | attachLink k j =>
      rw [hpc] at ht hr hne
      cases ht
      simpa [hr.1, hr.2.1 l] using hne k rfl
    | detachUnlink k j =>
      rw [hpc] at ht hr hne
      cases ht
      simpa [hr.1] using fun hil => hne k rfl (h.only i k l hr.2 hil)
    | detachReset k j =>
      rw [hpc] at ht hr
      cases ht
      simpa [hr.1] using hr.2 l
    | detachStore k j =>
      rw [hpc] at ht hr
      cases ht
      simpa [hr.1] using hr.2.1 l
    | _ =>
      rw [hpc] at ht
      cases ht

theorem Exclusive.bit_iff {s : Tasks E L τ} (h : Exclusive s) (hb : HandleBit s) {i : E.Id}
    (hi : s.Settled i) : (s.word i).lowBit = true ↔ ∃ t, (s.pc t).client = some i := by
  constructor
  · refine hb i fun t ht => hi t ?_
    cases hpc : s.pc t with
    | detachUnlink l j | detachReset l j | detachStore l j =>
      rw [hpc] at ht
      exact ht
    | _ =>
      rw [hpc] at ht
      cases ht
  · intro hx
    obtain ⟨t, ht⟩ := hx
    exact (h.relies t).word_of_node (Pc.node_eq_some.mpr (Or.inl ht))

/-! ## What a turn does to the bits -/

/-- What a turn of a task does to the lowest bit of a node's list pointer. -/
inductive Bit (s s' : Tasks E L τ) (t : τ) (i : E.Id) : Prop
  | same (hw : s'.word i = s.word i) (hn : (s'.pc t).node = some i ↔ (s.pc t).node = some i)
  | claim (hw : (s.word i).lowBit = false) (hn : (s'.pc t).node = some i)
  | release (hw : (s'.word i).lowBit = false) (hn : (s.pc t).node = some i)

/-- One task's turn does nothing else to the lowest bits and to who owns them. -/
def Bits (s s' : Tasks E L τ) : Prop := ∃ t, (∀ t', t' ≠ t → s'.pc t' = s.pc t') ∧ ∀ i, Bit s s' t i

theorem Bits.refl (t : τ) (s : Tasks E L τ) : Bits s s :=
  ⟨t, fun _ _ => rfl, fun _ => .same rfl Iff.rfl⟩

section Bits
variable [DecidableEq τ] {s s' : Tasks E L τ} {t : τ} {p : Pc E L}
  (hpc : s'.pc = Function.update s.pc t p)
include hpc

theorem Bits.same (hw : s'.word = s.word) (hn : p.node = (s.pc t).node) : Bits s s' := by
  refine ⟨t, fun t' ht => by rw [hpc, Function.update_of_ne ht], fun i => .same (congrFun hw i) ?_⟩
  rw [hpc, Function.update_self, hn]

/-- One list pointer is stored. -/
theorem Bits.store {i : E.Id} {w : ListPointer L} (hw : s'.word = Function.update s.word i w)
    (hn : ∀ j, (s.pc t).node = some j → j = i) (hn' : ∀ j, p.node = some j → j = i)
    (h : (s.word i).lowBit = false ∧ p.node = some i ∨ w.lowBit = false ∧ (s.pc t).node = some i) :
    Bits s s' := by
  refine ⟨t, fun t' ht => by rw [hpc, Function.update_of_ne ht], fun j => ?_⟩
  by_cases hj : j = i
  · subst hj
    rcases h with ⟨hb, hp⟩ | ⟨hb, hp⟩
    · exact .claim hb (by rw [hpc, Function.update_self]; exact hp)
    · exact .release (by rw [hw, Function.update_self]; exact hb) hp
  · refine .same (by rw [hw, Function.update_of_ne hj]) ?_
    rw [hpc, Function.update_self]
    exact ⟨fun h => absurd (hn' j h) hj, fun h => absurd (hn j h) hj⟩

end Bits

variable [DecidableEq L] [DecidableEq τ]

theorem Exclusive.bits {s s' : Tasks E L τ} {u : Turn τ} (h : Exclusive s) (hstep : Step s u s')
    (hlate : ¬ Late s u) : Bits s s' := by
  cases hstep with
  | @start t p hi hp =>
    refine .same rfl rfl ?_
    rw [(hp.idle (τ := τ)).2.1]
    rcases hi with hi | ⟨e, hi⟩ <;> rw [hi] <;> rfl
  | lock hp _ => exact .same rfl rfl (Pc.locked_spec (τ := τ) hp).2.2.1
  | @abandon t p hp =>
    refine .same rfl rfl ?_
    cases hpc : s.pc t with
    | attachWait l i already => exact absurd ⟨l, i, Or.inr ⟨already, hpc⟩⟩ hlate
    | attachRelock l i => exact absurd ⟨l, i, Or.inl hpc⟩ hlate
    | _ =>
      rw [hpc] at hp
      cases hp <;> rfl
  | @attachTake t l i ht =>
    have hn : (s.pc t).node = none := by rw [ht]; rfl
    simp only [Tasks.attachTake]
    cases hc : (s.word i).check l with
    | error e => exact .same rfl rfl hn.symm
    | ok linked =>
      rcases ListPointer.check_eq_ok.mp hc with ⟨hw, rfl⟩ | ⟨hw, rfl⟩ <;>
        exact .store rfl rfl (fun _ => Pc.eq_of_no_node hn) (fun _ => Pc.eq_of_node rfl)
          (Or.inl ⟨by rw [hw]; rfl, rfl⟩)
  | @attachLink t l i ht =>
    have hn : (s.pc t).node = some i := by rw [ht]; rfl
    simp only [Tasks.attachLink]
    split
    · exact .store rfl rfl (fun _ => Pc.eq_of_node hn) (fun _ => Pc.eq_of_no_node rfl)
        (Or.inr ⟨rfl, hn⟩)
    · exact .same rfl rfl hn.symm
  | @attachWait t l i already ht =>
    have hn : (s.pc t).node = some i := by rw [ht]; rfl
    have hr := h.relies t
    rw [ht] at hr
    simp only [Tasks.attachWait]
    cases hs : s.state i with
    | initial => exact .refl t s
    | nonResident | validNoWriteNeeded => exact .same rfl rfl hn.symm
    | needsWrite =>
      cases already with
      | true => exact .same rfl rfl hn.symm
      | false => exact absurd hs (hr.2.2 rfl)
  | attachDefault ht v => exact .same rfl rfl (by rw [ht]; rfl)
  | @load t i ht =>
    rw [h.load ht]
    exact .refl t s
  | @write t i ht =>
    have hr := h.relies t
    rw [ht] at hr
    obtain ⟨l, hw, _⟩ := hr
    simp only [Tasks.write]
    rw [hw]
    exact .same rfl rfl (by rw [ht]; rfl)
  | @writing t l i ht v =>
    have hr := h.relies t
    rw [ht] at hr
    simp only [Tasks.writing]
    rw [if_pos hr.2.2, if_pos (h.isSome_of_hasValue hr.2.2), hr.1]
    exact .same rfl rfl (by rw [ht]; rfl)
  | @dropHandle t i ht =>
    have hn : (s.pc t).node = some i := by rw [ht]; rfl
    have hr := h.relies t
    rw [ht] at hr
    obtain ⟨l, hw, _⟩ := hr
    simp only [Tasks.dropHandle]
    rw [hw]
    exact .store rfl rfl (fun _ => Pc.eq_of_node hn) (fun _ => Pc.eq_of_no_node rfl)
      (Or.inr ⟨rfl, hn⟩)
  | @detachCas t l i ht =>
    have hn : (s.pc t).node = none := by rw [ht]; rfl
    simp only [Tasks.detachCas]
    cases hc : (s.word i).check l with
    | error e => exact .same rfl rfl hn.symm
    | ok linked =>
      rcases ListPointer.check_eq_ok.mp hc with ⟨hw, rfl⟩ | ⟨hw, rfl⟩
      · exact .same rfl rfl hn.symm
      · exact .store rfl rfl (fun _ => Pc.eq_of_no_node hn) (fun _ => Pc.eq_of_node rfl)
          (Or.inl ⟨by rw [hw]; rfl, rfl⟩)
  | @detachUnlink t l i ht =>
    have hr := h.relies t
    rw [ht] at hr
    simp only [Tasks.detachUnlink]
    rw [if_pos hr.2]
    exact .same rfl rfl (by rw [ht]; rfl)
  | @detachReset t l i ht =>
    simp only [Tasks.detachReset]
    rw [if_neg (h.not_uninitialised i)]
    exact .same rfl rfl (by rw [ht]; rfl)
  | @detachStore t l i ht =>
    have hn : (s.pc t).node = some i := by rw [ht]; rfl
    exact .store rfl rfl (fun _ => Pc.eq_of_node hn) (fun _ => Pc.eq_of_no_node rfl)
      (Or.inr ⟨rfl, hn⟩)
  | @readData t l ht d =>
    simp only [Tasks.readData]
    split
    · exact .refl t s
    · split
      · exact .refl t s
      · split
        · exact .same rfl rfl (by rw [ht]; rfl)
        · exact .refl t s
  | @deserializing t l i body ht =>
    have hr := h.relies t
    rw [ht] at hr
    simp only [Tasks.deserializing]
    rw [if_neg (by simp [hr.2])]
    exact .same rfl rfl (by rw [ht]; rfl)
  | @serialize t l ht i hi =>
    rw [h.serialize]
    exact .refl t s
  | readDone ht | storeDone ht => exact .same rfl rfl (by rw [ht]; rfl)
  | ended ht =>
    refine .same rfl rfl ?_
    rcases ht with ht | ht | ht <;> rw [ht] <;> rfl

theorem HandleBit.step {s s' : Tasks E L τ} {u : Turn τ} (hb : HandleBit s) (h : Exclusive s)
    (hstep : Step s u s') (hlate : ¬ Late s u) : HandleBit s' := by
  rw [handleBit_iff] at hb ⊢
  obtain ⟨t, hother, hbit⟩ := h.bits hstep hlate
  intro i hi
  cases hbit i with
  | same hw hn =>
    obtain ⟨t', ht'⟩ := hb i (hw ▸ hi)
    by_cases ht : t' = t
    · subst ht
      exact ⟨t', hn.mpr ht'⟩
    · exact ⟨t', (hother t' ht).symm ▸ ht'⟩
  | claim _ hn => exact ⟨t, hn⟩
  | release hw _ =>
    rw [hw] at hi
    cases hi

theorem completing_reachable {s : Tasks E L τ} (hs : (completing E L τ).Reachable s) :
    Exclusive s ∧ HandleBit s := by
  refine hs.invariant (I := fun s => Exclusive s ∧ HandleBit s) ?_ ?_
  · intro _ heq
    subst heq
    exact ⟨exclusive_new, fun _ _ hi => nomatch hi⟩
  · intro s u s' hx hx4
    obtain ⟨h, hb⟩ := hx
    obtain ⟨hstep, hlate⟩ := hx4
    exact ⟨h.step hstep, hb.step h hstep hlate⟩

/-! ## Calls that fail -/

section View
omit [DecidableEq L] [DecidableEq τ]

/-- The list pointer, without the claim of an attach that may still find the key of
the node in use. -/
def Tasks.committed (s : Tasks E L τ) (i : E.Id) : ListPointer L :=
  match s.word i with
  | .taken l =>
    match (s.mutex l).map s.pc with
    | some (.attachLink _ j) => if j = i then .null else .taken l
    | _ => .taken l
  | w => w

/-- What a call finds: the lists, the list pointers, and the nodes' states and values. -/
def Tasks.view (s : Tasks E L τ) : (L → List E.Id) × (E.Id → ListPointer L) × Cells E :=
  (s.links, s.committed, s.cells)

/-- A call of `attach` or `detach` that is not decided yet, or that has failed. -/
def Pc.undecided : Pc E L → Bool
  | attachLock _ _ | attachTake _ _ | attachLink _ _ | detachLock _ _ | detachCas _ _ | failed _ => true
  | _ => false

/-- The task is about to link the node. -/
def Claims (s : Tasks E L τ) (t : τ) (i : E.Id) : Prop := ∃ l, s.pc t = .attachLink l i

theorem Exclusive.committed_of_claims {s : Tasks E L τ} (h : Exclusive s) {t : τ} {i : E.Id}
    (ht : Claims s t i) : s.committed i = .null := by
  obtain ⟨l, hl⟩ := ht
  have hr := h.relies t
  rw [hl] at hr
  have hm : s.mutex l = some t := (h.mutex t l).mp (by rw [hl]; rfl)
  simp [Tasks.committed, hr.1, hm, hl]

theorem Tasks.committed_eq {s : Tasks E L τ} {i : E.Id} (hi : ∀ t, ¬ Claims s t i) :
    s.committed i = s.word i := by
  simp only [Tasks.committed]
  split
  · next l hw =>
    rw [hw]
    split
    · next k j hm =>
      obtain ⟨t, _, ht⟩ := Option.map_eq_some_iff.mp hm
      refine if_neg ?_
      intro heq
      subst heq
      exact hi t ⟨k, ht⟩
    · rfl
  · rfl

/-- The call of one task has not been decided, and has not claimed or given back a node. -/
theorem Exclusive.committed_same {s s' : Tasks E L τ} (h : Exclusive s) (h' : Exclusive s') {t : τ}
    {i : E.Id} (hother : ∀ t', t' ≠ t → s'.pc t' = s.pc t') (hw : s'.word i = s.word i)
    (hc : Claims s' t i ↔ Claims s t i) : s'.committed i = s.committed i := by
  have hclaims : ∀ t', Claims s' t' i ↔ Claims s t' i := by
    intro t'
    by_cases ht : t' = t
    · exact ht ▸ hc
    · simp only [Claims]
      rw [hother t' ht]
  by_cases hi : ∃ t', Claims s t' i
  · obtain ⟨t', ht'⟩ := hi
    rw [h.committed_of_claims ht', h'.committed_of_claims ((hclaims t').mpr ht')]
  · rw [Tasks.committed_eq fun t' ht' => hi ⟨t', ht'⟩,
      Tasks.committed_eq fun t' ht' => hi ⟨t', (hclaims t').mp ht'⟩, hw]

theorem Exclusive.view_eq {s s' : Tasks E L τ} (h : Exclusive s) (h' : Exclusive s') {t : τ}
    (hother : ∀ t', t' ≠ t → s'.pc t' = s.pc t') (hl : s'.links = s.links) (hc : s'.cells = s.cells)
    (hw : ∀ i, s'.word i = s.word i ∧ (Claims s' t i ↔ Claims s t i) ∨
      s'.committed i = s.committed i) : s'.view = s.view := by
  have hcommitted : s'.committed = s.committed := by
    funext i
    rcases hw i with ⟨hi, hclaims⟩ | hi
    · exact h.committed_same h' hother hi hclaims
    · exact hi
  rw [Tasks.view, hl, hc, hcommitted, Tasks.view]

end View

/-- Whatever is found stays as it is until a call has been decided, and if it fails. -/
theorem Exclusive.unseen {s s' : Tasks E L τ} {t : τ} (h : Exclusive s) (hstep : Step s (.run t) s')
    (hp : (s'.pc t).undecided = true) : s'.view = s.view := by
  have h' := h.step hstep
  have hother : ∀ (s : Tasks E L τ) (t : τ) (p : Pc E L) (t' : τ), t' ≠ t →
      (s.goto t p).pc t' = s.pc t' := fun s _ p _ => s.goto_pc_of_ne p
  cases hstep with
  | @start _ p hi hs =>
    refine h.view_eq h' (hother s t p) rfl rfl fun i => Or.inl ⟨rfl, ?_⟩
    rcases hi with hi | ⟨e, hi⟩ <;> cases hs <;> simp [Claims, hi]
  | @lock _ l p hl hm =>
    refine h.view_eq h' (hother (s.lock l t) t p) rfl rfl fun i => Or.inl ⟨rfl, ?_⟩
    cases hpc : s.pc t <;> rw [hpc] at hl <;> cases hl <;> simp [Claims, hpc]
  | @attachTake _ l i ht =>
    simp only [Tasks.attachTake] at h' hp ⊢
    cases hc : (s.word i).check l with
    | error e =>
      simp only [hc] at h' hp ⊢
      exact h.view_eq h' (hother (s.unlock l) t _) rfl rfl fun j => Or.inl ⟨rfl, by simp [Claims, ht]⟩
    | ok linked =>
      rcases ListPointer.check_eq_ok.mp hc with ⟨hw, rfl⟩ | ⟨hw, rfl⟩
      · simp only [hc] at h' hp ⊢
        refine h.view_eq h' (hother (s.setWord i _) t _) rfl rfl fun j => ?_
        by_cases hj : j = i
        · -- the claim is not seen
          subst hj
          right
          rw [h'.committed_of_claims (t := t) ⟨l, by simp⟩, Tasks.committed_eq, hw]
          intro t' hx
          obtain ⟨k, hk⟩ := hx
          exact h.nobody (i := j) (by rw [hw]; rfl) t' (by rw [hk]; rfl)
        · refine Or.inl ⟨Function.update_of_ne hj .., ?_⟩
          simp [Claims, ht, Ne.symm hj]
      · simp [hc, Pc.undecided] at hp
  | @attachLink _ l i ht =>
    have hr := h.relies t
    rw [ht] at hr
    simp only [Tasks.attachLink] at h' hp ⊢
    split at h' <;> rename_i hk
    · rw [if_pos hk] at hp ⊢
      refine h.view_eq h' (hother ((s.setWord i .null).unlock l) t _) rfl rfl fun j => ?_
      by_cases hj : j = i
      · -- the claim has been given back
        subst hj
        right
        rw [h.committed_of_claims (t := t) ⟨l, ht⟩, Tasks.committed_eq]
        · exact Function.update_self ..
        · intro t' hx
          obtain ⟨k, hk'⟩ := hx
          have hn := h'.relies t'
          rw [hk'] at hn
          simp [Tasks.goto, Tasks.unlock, Tasks.setWord, Relies] at hn
      · refine Or.inl ⟨Function.update_of_ne hj .., ?_⟩
        simp [Claims, ht, Ne.symm hj]
    · rw [if_neg hk] at hp
      simp [Pc.undecided] at hp
  | @attachWait _ l i already ht =>
    simp only [Tasks.attachWait] at hp
    split at hp
    · rw [ht] at hp
      cases hp
    · simp [Pc.undecided] at hp
    · cases already <;> simp [Pc.undecided] at hp
    · simp [Pc.undecided] at hp
  | attachDefault ht v => simp [Tasks.attachDefault, Pc.undecided] at hp
  | @load _ i ht =>
    rw [h.load ht, ht] at hp
    cases hp
  | @write _ i ht =>
    simp only [Tasks.write] at hp
    split at hp <;> simp [Pc.undecided] at hp
  | @writing _ l i ht v =>
    have hr := h.relies t
    rw [ht] at hr
    simp only [Tasks.writing] at hp
    rw [if_pos hr.2.2, if_pos (h.isSome_of_hasValue hr.2.2), hr.1] at hp
    simp [ListPointer.handleList, Pc.undecided] at hp
  | @dropHandle _ i ht =>
    simp only [Tasks.dropHandle] at hp
    split at hp <;> simp [Pc.undecided] at hp
  | @detachCas _ l i ht =>
    simp only [Tasks.detachCas] at h' hp ⊢
    cases hc : (s.word i).check l with
    | error e =>
      simp only [hc] at h' hp ⊢
      exact h.view_eq h' (hother (s.unlock l) t _) rfl rfl fun j => Or.inl ⟨rfl, by simp [Claims, ht]⟩
    | ok linked => cases linked <;> simp [hc, Pc.undecided] at hp
  | @detachUnlink _ l i ht =>
    simp only [Tasks.detachUnlink] at hp
    split at hp <;> simp [Pc.undecided] at hp
  | @detachReset _ l i ht =>
    simp only [Tasks.detachReset] at hp
    split at hp <;> simp [Pc.undecided] at hp
  | @detachStore _ l i ht => simp [Tasks.detachStore, Pc.undecided] at hp
  | @readData _ l ht d =>
    have hread : (s.pc t).undecided = false := by rw [ht]; rfl
    simp only [Tasks.readData] at hp
    split at hp
    · simp [hread] at hp
    · split at hp
      · simp [hread] at hp
      · split at hp
        · simp [Pc.undecided] at hp
        · simp [hread] at hp
  | @deserializing _ l i body ht =>
    simp only [Tasks.deserializing] at hp
    split at hp <;> simp [Pc.undecided] at hp
  | @serialize _ l ht i hi =>
    rw [h.serialize, ht] at hp
    cases hp
  | readDone ht | storeDone ht | ended ht => simp [Tasks.finish, Pc.undecided] at hp

/-! ## Exclusivity -/

/-- In the runs in which no attach is dropped late: who is linked where, by which
keys and for whom, and that calls which fail leave everything as it was. -/
theorem membership {s : Tasks E L τ} (hs : (completing E L τ).Reachable s) :
    (∀ l, s.mutex l = none → ∀ i, i ∈ s.links l ↔ s.word i = .attached l ∨ s.word i = .taken l) ∧
      (∀ i l l', i ∈ s.links l → i ∈ s.links l' → l = l') ∧
      (∀ l, (s.links l).Nodup ∧ ((s.links l).map E.key).Nodup) ∧
      (∀ i t t', (s.pc t).client = some i → (s.pc t').client = some i → t = t') ∧
      (∀ i, s.Settled i → s.committed i = s.word i ∧
        ((s.word i).lowBit = true ↔ ∃ t, (s.pc t).client = some i)) ∧
      ((∀ l, s.mutex l = none) → ∀ i, s.Settled i) ∧
      ∀ t s', Step s (.run t) s' → (s'.pc t).undecided = true → s'.view = s.view := by
  obtain ⟨h, hb⟩ := completing_reachable hs
  have hclient : ∀ {t : τ} {i}, (s.pc t).client = some i → (s.pc t).node = some i := fun ht =>
    Pc.node_eq_some.mpr (Or.inl ht)
  refine ⟨fun l hl i => h.linked_iff_of_free hl i, h.only, fun l => ⟨(h.keys l).of_map, h.keys l⟩,
    fun i t t' ht ht' => h.unique t t' i (hclient ht) (hclient ht'), fun i hi => ⟨?_, h.bit_iff hb hi⟩,
    fun hm i => h.settled hm i, fun t s' hstep hp => h.unseen hstep hp⟩
  refine Tasks.committed_eq fun t ht => hi t ?_
  obtain ⟨l, hl⟩ := ht
  rw [hl]
  rfl

theorem membership_waiting :
    (∀ l, oneWaiting.mutex l = none →
      ∀ i, i ∈ oneWaiting.links l ↔ oneWaiting.word i = .attached l ∨ oneWaiting.word i = .taken l) ∧
      (∀ i l l', i ∈ oneWaiting.links l → i ∈ oneWaiting.links l' → l = l') ∧
      (∀ l, (oneWaiting.links l).Nodup ∧ ((oneWaiting.links l).map twoSettings.key).Nodup) ∧
      (∀ i t t', (oneWaiting.pc t).client = some i → (oneWaiting.pc t').client = some i → t = t') ∧
      (∀ i, oneWaiting.Settled i → oneWaiting.committed i = oneWaiting.word i ∧
        ((oneWaiting.word i).lowBit = true ↔ ∃ t, (oneWaiting.pc t).client = some i)) ∧
      ((∀ l, oneWaiting.mutex l = none) → ∀ i, oneWaiting.Settled i) ∧
      ∀ t s', Step oneWaiting (.run t) s' → (s'.pc t).undecided = true → s'.view = oneWaiting.view :=
  membership completing_oneWaiting

/-! ## An attach that is dropped late -/

theorem Late.step {s s' : Tasks E L τ} {u : Turn τ} (hlate : Late s u) (hstep : Step s u s') :
    ∃ t l i, s' = s.goto t .idle ∧ (s.pc t).node = some i ∧
      (Relies s (s.pc t) → s.word i = .taken l) := by
  cases hstep with
  | @abandon t p hp =>
    obtain ⟨l, i, hpc | ⟨already, hpc⟩⟩ := hlate
    · rw [hpc] at hp
      cases hp
      exact ⟨t, l, i, rfl, by rw [hpc]; rfl, fun hr => by rw [hpc] at hr; exact hr.1⟩
    · rw [hpc] at hp
      cases hp
      exact ⟨t, l, i, rfl, by rw [hpc]; rfl, fun hr => by rw [hpc] at hr; exact hr.1⟩
  | _ => exact hlate.elim

/-- The lowest bit is set for nobody. -/
def Orphaned (s : Tasks E L τ) (l : L) (i : E.Id) : Prop :=
  s.word i = .taken l ∧ ∀ t, (s.pc t).node ≠ some i

namespace Orphaned
variable {s s' : Tasks E L τ} {u : Turn τ} {l : L} {i : E.Id}

omit [DecidableEq L] [DecidableEq τ] in
theorem not_handleBit (hst : Orphaned s l i) : ¬ HandleBit s := by
  rw [handleBit_iff]
  intro hb
  obtain ⟨t, ht⟩ := hb i (by rw [hst.1]; rfl)
  exact hst.2 t ht

theorem of_late (h : Exclusive s) (hstep : Step s u s') (hlate : Late s u) : ∃ l i, Orphaned s' l i := by
  obtain ⟨t, l, i, rfl, hn, hw⟩ := hlate.step hstep
  refine ⟨l, i, hw (h.relies t), fun t' ht' => ?_⟩
  by_cases ht : t' = t
  · subst ht
    rw [Tasks.goto_pc] at ht'
    cases ht'
  · rw [Tasks.goto_pc_of_ne s .idle ht] at ht'
    exact ht (h.unique t' t i ht' hn)

theorem step (hst : Orphaned s l i) (h : Exclusive s) (hstep : Step s u s') : Orphaned s' l i := by
  by_cases hlate : Late s u
  · obtain ⟨t, _, _, rfl, _⟩ := hlate.step hstep
    refine ⟨hst.1, fun t' ht' => ?_⟩
    by_cases ht : t' = t
    · subst ht
      rw [Tasks.goto_pc] at ht'
      cases ht'
    · rw [Tasks.goto_pc_of_ne s .idle ht] at ht'
      exact hst.2 t' ht'
  · obtain ⟨t, hother, hbit⟩ := h.bits hstep hlate
    cases hbit i with
    | same hw hn =>
      refine ⟨hw.trans hst.1, fun t' ht' => ?_⟩
      by_cases ht : t' = t
      · subst ht
        exact hst.2 t' (hn.mp ht')
      · exact hst.2 t' (hother t' ht ▸ ht')
    | claim hw _ =>
      rw [hst.1] at hw
      cases hw
    | release _ hn => exact absurd hn (hst.2 t)

/-- No later call gets the node. -/
theorem forever (hst : Orphaned s l i) (h : Exclusive s) {s' : Tasks E L τ}
    (hs : ((tasks E L τ).after s).Reachable s') : Orphaned s' l i := by
  have hboth : Orphaned s' l i ∧ Exclusive s' := by
    induction hs with
    | init h0 =>
      subst h0
      exact ⟨hst, h⟩
    | step _ hstep ih => exact ⟨ih.1.step ih.2 hstep, ih.2.step hstep⟩
  exact hboth.1

end Orphaned

omit [DecidableEq τ] in
theorem HandleBit.owned {s : Tasks E L τ} (hb : HandleBit s) (h : Exclusive s) {l : L} {i : E.Id}
    (hc : (s.word i).check l = .error .alreadyTaken) : ∃ t, (s.pc t).client = some i := by
  have hw := ListPointer.check_eq_alreadyTaken.mp hc
  refine hb i (fun t ht => ?_) (by rw [hw]; rfl)
  have hr := h.relies t
  cases hpc : s.pc t with
  | detachUnlink k j | detachReset k j | detachStore k j =>
    rw [hpc] at ht hr
    cases ht
    cases hw.symm.trans hr.1
  | _ =>
    rw [hpc] at ht
    cases ht

/-- In every run: the lowest bit is set for clients only in all its states exactly if
no attach is dropped late in it. Then a node that is refused has a client. -/
theorem handle_bit_iff {steps : List (Tasks E L τ × Turn τ × Tasks E L τ)} {s : Tasks E L τ}
    (h : (tasks E L τ).Run steps s) :
    ((HandleBit s ∧ ∀ x ∈ steps, HandleBit x.1) ↔ ∀ x ∈ steps, ¬ Late x.1 x.2.1) ∧
      ((∀ x ∈ steps, ¬ Late x.1 x.2.1) → ∀ l i, (s.word i).check l = .error .alreadyTaken →
        ∃ t, (s.pc t).client = some i) := by
  have hiff : (HandleBit s ∧ ∀ x ∈ steps, HandleBit x.1) ↔ ∀ x ∈ steps, ¬ Late x.1 x.2.1 := by
    refine h.forall_iff (P := fun s u _ => ¬ Late s u) ?_ ?_
    · intro _ heq
      subst heq
      exact fun _ _ hi => nomatch hi
    · intro s u s' hr hb hstep
      have he := exclusive_reachable hr
      refine ⟨fun hb' hlate => ?_, hb.step he hstep⟩
      obtain ⟨l, i, hst⟩ := Orphaned.of_late he hstep hlate
      exact hst.not_handleBit hb'
  exact ⟨hiff, fun hlate l i hc => (hiff.mpr hlate).1.owned (exclusive_reachable h.reachable) hc⟩

/-- The attach of the one task is dropped. -/
def oneAbandoned : Tasks twoSettings Bool Bool := oneWaiting.goto true .idle

theorem step_oneAbandoned : Step oneWaiting (.abandon true) oneAbandoned :=
  .abandon rfl

theorem handle_bit_abandoned :
    ∃ steps, (tasks twoSettings Bool Bool).Run steps oneAbandoned ∧
      ((HandleBit oneAbandoned ∧ ∀ x ∈ steps, HandleBit x.1) ↔ ∀ x ∈ steps, ¬ Late x.1 x.2.1) ∧
      ((∀ x ∈ steps, ¬ Late x.1 x.2.1) → ∀ l i,
        (oneAbandoned.word i).check l = .error .alreadyTaken →
          ∃ t, (oneAbandoned.pc t).client = some i) := by
  obtain ⟨steps, h⟩ := (completing_oneWaiting.of_restrict.step step_oneAbandoned).exists_run
  exact ⟨steps, h, handle_bit_iff h⟩

/-- Every later `attach` or `detach` of the node finds it taken, and nobody has it. -/
theorem attach_abandoned : (tasks twoSettings Bool Bool).Reachable oneAbandoned ∧
    ¬ (∀ i, (oneAbandoned.word i).lowBit = true → ∃ t, (oneAbandoned.pc t).client = some i) ∧
    ∀ s, ((tasks twoSettings Bool Bool).after oneAbandoned).Reachable s →
      (s.word (0 : Fin 2)).check false = .error .alreadyTaken ∧
        ∀ t, (s.pc t).client ≠ some (0 : Fin 2) := by
  have hr := completing_oneWaiting.of_restrict.step step_oneAbandoned
  have hst : Orphaned oneAbandoned false (0 : Fin 2) := ⟨rfl, by decide⟩
  refine ⟨hr, fun hb => ?_, fun s hs => ?_⟩
  · obtain ⟨t, ht⟩ := hb (0 : Fin 2) rfl
    exact hst.2 t (Pc.node_eq_some.mpr (Or.inl ht))
  · have hst' := hst.forever (exclusive_reachable hr) hs
    exact ⟨ListPointer.check_eq_alreadyTaken.mpr hst'.1, fun t ht =>
      hst'.2 t (Pc.node_eq_some.mpr (Or.inl ht))⟩

end CfgNoodle

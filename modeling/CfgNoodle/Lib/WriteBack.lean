import CfgNoodle.Lib.Simulation

/-! # A write-back store

Cells hold values in memory, and a map from keys to encoded values is durable.
A flush replaces the whole map by what the cells hold, a load fills cells from
it, and a crash empties the cells. Which cells a load fills is left open. -/
namespace WriteBack
open Runs

/-- Cells with their types and keys, and what values look like in the map. -/
structure Layout where
  ι : Type
  κ : Type
  β : Type
  T : ι → Type
  key : ι → κ
  encode : (i : ι) → T i → β
  decode : (i : ι) → β → Option (T i)

variable {L : Layout}

/-- What the cells hold. -/
abbrev Live (L : Layout) : Type := (i : L.ι) → Option (L.T i)

structure State (L : Layout) where
  live : Live L
  durable : L.κ → Option L.β

inductive Op (L : Layout) where
  | stay
  | assign (i : L.ι) (t : L.T i)
  | forget (i : L.ι)
  | load (filled : L.ι → Prop)
  | flush
  | crash

/-- The map has the values of the cells under their keys, and nothing else. -/
structure Snapshot (live : Live L) (d : L.κ → Option L.β) : Prop where
  held : ∀ i t, live i = some t → d (L.key i) = some (L.encode i t)
  rest : ∀ k, (∀ i, L.key i = k → live i = none) → d k = none

/-- The cells change only where the step says so. -/
inductive Step : State L → Op L → State L → Prop
  | stay (a : State L) : Step a .stay a
  | assign {a : State L} {live : Live L} (i : L.ι) (t : L.T i) (hi : live i = some t)
      (hne : ∀ j, j ≠ i → live j = a.live j) : Step a (.assign i t) ⟨live, a.durable⟩
  | forget {a : State L} {live : Live L} (i : L.ι) (hi : live i = none)
      (hne : ∀ j, j ≠ i → live j = a.live j) : Step a (.forget i) ⟨live, a.durable⟩
  | load {a : State L} {live : Live L} {filled : L.ι → Prop}
      (hin : ∀ i, filled i → live i = (a.durable (L.key i)).bind (L.decode i))
      (hout : ∀ i, ¬ filled i → live i = a.live i) : Step a (.load filled) ⟨live, a.durable⟩
  | flush {a : State L} {d : L.κ → Option L.β} (h : Snapshot a.live d) : Step a .flush ⟨a.live, d⟩
  | crash (a : State L) : Step a .crash ⟨fun _ => none, a.durable⟩

/-- The runs that start with empty cells and this map. -/
def system (L : Layout) (d0 : L.κ → Option L.β) : System (State L) (Op L) where
  init a := a = ⟨fun _ => none, d0⟩
  step := Step

/-! ## What was assigned last -/

/-- What a step assigns to the cells, or takes from them. -/
def remember [DecidableEq L.ι] (last : Live L) : Op L → Live L
  | .assign i t => Function.update last i (some t)
  | .forget i => Function.update last i none
  | .stay | .load _ | .flush | .crash => last

/-- A step that neither loads nor crashes only assigns. -/
theorem Step.live_eq_remember [DecidableEq L.ι] {a a' : State L} {op : Op L} (h : Step a op a')
    (hload : ∀ filled, op ≠ .load filled) (hc : op ≠ .crash) : a'.live = remember a.live op := by
  cases h with
  | stay | flush => rfl
  | @assign live i t hi hne =>
    show live = Function.update a.live i (some t)
    exact Function.eq_update_iff.mpr ⟨hi, hne⟩
  | @forget live i hi hne =>
    show live = Function.update a.live i none
    exact Function.eq_update_iff.mpr ⟨hi, hne⟩
  | load => exact absurd rfl (hload _)
  | crash => exact absurd rfl hc

/-- A cell that is filled has what the map has for it. -/
theorem Step.live_of_load {a a' : State L} {filled : L.ι → Prop} (h : Step a (.load filled) a')
    {i : L.ι} (hi : filled i) : a'.live i = (a.durable (L.key i)).bind (L.decode i) := by
  cases h with
  | load hin hout => exact hin i hi

/-! ## The map is a snapshot -/

/-- Only a flush changes the map. -/
theorem Step.durable_eq {a a' : State L} {op : Op L} (h : Step a op a') (hop : op ≠ .flush) :
    a'.durable = a.durable := by
  cases h with
  | flush => exact absurd rfl hop
  | stay | assign | forget | load | crash => rfl

theorem Step.snapshot {a a' : State L} (h : Step a .flush a') : Snapshot a.live a'.durable := by
  cases h with
  | flush hs => exact hs

/-- Two snapshots of the same cells are the same map. -/
theorem Snapshot.unique {live : Live L} {d d' : L.κ → Option L.β} (h : Snapshot live d)
    (h' : Snapshot live d') : d = d' := by
  funext k
  by_cases hk : ∀ i, L.key i = k → live i = none
  · rw [h.rest k hk, h'.rest k hk]
  · obtain ⟨i, hi⟩ := not_forall.mp hk
    obtain ⟨rfl, hne⟩ := Classical.not_imp.mp hi
    obtain ⟨t, ht⟩ := Option.ne_none_iff_exists'.mp hne
    rw [h.held i t ht, h'.held i t ht]

/-- The cells at the last flush of a run. -/
def lastFlush : List (State L × Op L × State L) → Option (Live L)
  | [] => none
  | (a, .flush, _) :: _ => some a.live
  | _ :: steps => lastFlush steps

/-- What the map has to be after a run: the snapshot of the last flush, or the map
of the start. -/
def Durable (d0 d : L.κ → Option L.β) : Option (Live L) → Prop
  | none => d = d0
  | some live => Snapshot live d

theorem durable_of_run {d0 : L.κ → Option L.β} {steps : List (State L × Op L × State L)} {a : State L}
    (h : (system L d0).Run steps a) : Durable d0 a.durable (lastFlush steps) := by
  induction h with
  | init h => exact congrArg State.durable h
  | step _ h ih =>
    cases h with
    | flush hs => exact hs
    | stay | assign | forget | load | crash => exact ih

/-! ## Where values come from -/

/-- A value of a cell was assigned to it in the run, or decoded from the map of
the start. -/
def Origin (d0 : L.κ → Option L.β) (steps : List (State L × Op L × State L)) (i : L.ι) (t : L.T i) :
    Prop :=
  (∃ x ∈ steps, x.2.1 = .assign i t) ∨ ∃ b, d0 (L.key i) = some b ∧ L.decode i b = some t

theorem Origin.cons {d0 : L.κ → Option L.β} {steps : List (State L × Op L × State L)} {i : L.ι}
    {t : L.T i} (h : Origin d0 steps i t) (x : State L × Op L × State L) :
    Origin d0 (x :: steps) i t :=
  h.imp_left fun ⟨y, hy, he⟩ => ⟨y, List.mem_cons_of_mem x hy, he⟩

/-- All values of the cells have an origin, and the map has nothing but the
encodings of such values and what it had at the start. -/
structure Sourced (d0 : L.κ → Option L.β) (steps : List (State L × Op L × State L)) (a : State L) :
    Prop where
  live : ∀ i t, a.live i = some t → Origin d0 steps i t
  durable : ∀ k b, a.durable k = some b →
    d0 k = some b ∨ ∃ i t, L.key i = k ∧ L.encode i t = b ∧ Origin d0 steps i t

section
variable (hkey : ∀ i j, L.key i = L.key j → i = j)
  (hcodec : ∀ i t, L.decode i (L.encode i t) = some t)
include hkey hcodec

/-- A value that is read from the map has an origin. -/
theorem Sourced.decoded {d0 : L.κ → Option L.β} {steps : List (State L × Op L × State L)}
    {a : State L} (h : Sourced d0 steps a) {i : L.ι} {t : L.T i}
    (ht : (a.durable (L.key i)).bind (L.decode i) = some t) : Origin d0 steps i t := by
  obtain ⟨b, hb, ht⟩ := Option.bind_eq_some_iff.mp ht
  rcases h.durable _ b hb with hd | ⟨j, u, hj, rfl, hu⟩
  · exact Or.inr ⟨b, hd, ht⟩
  · obtain rfl := hkey j i hj
    rw [hcodec j u] at ht
    exact Option.some.inj ht ▸ hu

/-- A step makes no value up. -/
theorem Sourced.step {d0 : L.κ → Option L.β} {steps : List (State L × Op L × State L)}
    {a a' : State L} {op : Op L} (h : Sourced d0 steps a) (hs : Step a op a') :
    Sourced d0 ((a, op, a') :: steps) a' := by
  have hdurable : ∀ k b, a.durable k = some b → d0 k = some b ∨
      ∃ i t, L.key i = k ∧ L.encode i t = b ∧ Origin d0 ((a, op, a') :: steps) i t := by
    intro k b hb
    exact (h.durable k b hb).imp_right fun ⟨i, t, hi, ht, ho⟩ => ⟨i, t, hi, ht, ho.cons _⟩
  cases hs with
  | stay => exact ⟨fun i t ht => (h.live i t ht).cons _, hdurable⟩
  | assign i u hi hne =>
    refine ⟨fun j t ht => ?_, hdurable⟩
    by_cases hj : j = i
    · subst hj
      have hut : u = t := Option.some.inj (hi.symm.trans ht)
      exact Or.inl ⟨_, List.mem_cons_self, by rw [hut]⟩
    · exact (h.live j t ((hne j hj).symm.trans ht)).cons _
  | forget i hi hne =>
    refine ⟨fun j t ht => ?_, hdurable⟩
    by_cases hj : j = i
    · subst hj
      exact absurd (hi.symm.trans ht) (Option.some_ne_none t).symm
    · exact (h.live j t ((hne j hj).symm.trans ht)).cons _
  | @load _ filled hin hout =>
    refine ⟨fun j t ht => ?_, hdurable⟩
    by_cases hj : filled j
    · exact (h.decoded hkey hcodec ((hin j hj).symm.trans ht)).cons _
    · exact (h.live j t ((hout j hj).symm.trans ht)).cons _
  | flush hsnap =>
    refine ⟨fun i t ht => (h.live i t ht).cons _, fun k b hb => ?_⟩
    by_cases hk : ∀ i, L.key i = k → a.live i = none
    · exact absurd ((hsnap.rest k hk).symm.trans hb) (Option.some_ne_none b).symm
    · obtain ⟨i, hi⟩ := not_forall.mp hk
      obtain ⟨rfl, hne⟩ := Classical.not_imp.mp hi
      obtain ⟨t, ht⟩ := Option.ne_none_iff_exists'.mp hne
      have henc : L.encode i t = b := Option.some.inj ((hsnap.held i t ht).symm.trans hb)
      exact Or.inr ⟨i, t, rfl, henc, (h.live i t ht).cons _⟩
  | crash => exact ⟨fun i t ht => absurd ht (Option.some_ne_none t).symm, hdurable⟩

theorem sourced_of_run {d0 : L.κ → Option L.β} {steps : List (State L × Op L × State L)} {a : State L}
    (h : (system L d0).Run steps a) : Sourced d0 steps a := by
  induction h with
  | init h =>
    obtain rfl := h
    exact ⟨fun i t ht => absurd ht (Option.some_ne_none t).symm, fun k b hb => Or.inl hb⟩
  | step _ hs ih => exact ih.step hkey hcodec hs

end

end WriteBack

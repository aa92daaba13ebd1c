import Mathlib.Data.List.Perm.Subperm
import Mathlib.Data.List.Sort
import Mathlib.Data.Set.Finite.Lemmas
import Mathlib.Tactic.Common

/-! # Keeping the greatest `K` of a stream

A fixed number of slots, empty at first, and a stream of items with positive
keys. Each item replaces the first slot with the least key, unless that key is
greater than its own, and the slots are then sorted by a routine that need not
be stable. Whatever the order of the stream, the filled slots are `K` of the
items with the greatest keys (`isTop_foldl_put`); with distinct keys they are
determined (`IsTop.unique`). -/
namespace TopK
open scoped List

/-- `kept` is a choice of `K` items of `all` with the greatest keys, or all of
them when there are fewer. -/
def IsTop {α : Type} (K : Nat) (key : α → Nat) (all kept : List α) : Prop :=
  ∃ rest, all ~ kept ++ rest ∧ kept.length = min K all.length ∧
    ∀ x ∈ rest, ∀ y ∈ kept, key x ≤ key y

section IsTop
variable {α : Type} {K : Nat} {key : α → Nat} {all all' kept kept' : List α}

/-- What fits is all kept. -/
theorem IsTop.self (h : all.length ≤ K) : IsTop K key all all :=
  ⟨[], by simp, by omega, by simp⟩

theorem IsTop.nil : IsTop K key [] [] := .self (Nat.zero_le K)

theorem IsTop.perm (h : IsTop K key all kept) (ha : all ~ all') (hk : kept ~ kept') :
    IsTop K key all' kept' := by
  obtain ⟨rest, hp, hl, hle⟩ := h
  refine ⟨rest, ?_, by rw [← hk.length_eq, hl, ha.length_eq], ?_⟩
  · exact ha.symm.trans (hp.trans (hk.append_right rest))
  · exact fun x hx y hy => hle x hx y (hk.mem_iff.mpr hy)

theorem IsTop.subset (h : IsTop K key all kept) : ∀ x ∈ kept, x ∈ all := by
  obtain ⟨rest, hp, _⟩ := h
  exact fun x hx => hp.mem_iff.mpr (List.mem_append_left _ hx)

theorem IsTop.length_le (h : IsTop K key all kept) : kept.length ≤ K := by
  obtain ⟨rest, _, hl, _⟩ := h
  omega

theorem IsTop.nodup_map {β : Type} {f : α → β} (h : IsTop K key all kept)
    (hd : (all.map f).Nodup) : (kept.map f).Nodup := by
  obtain ⟨rest, hp, _⟩ := h
  exact ((hp.map f).nodup_iff.mp hd).sublist ((List.sublist_append_left kept rest).map f)

/-- With distinct keys what is left out is below all that is kept. -/
theorem IsTop.lt_of_not_mem (h : IsTop K key all kept) (hd : (all.map key).Nodup) {x y : α}
    (hx : x ∈ all) (hout : x ∉ kept) (hy : y ∈ kept) : key x < key y := by
  have hya := h.subset y hy
  obtain ⟨rest, hp, _, hle⟩ := h
  have hrest : x ∈ rest := (List.mem_append.mp (hp.mem_iff.mp hx)).resolve_left hout
  refine Nat.lt_of_le_of_ne (hle x hrest y hy) fun heq => ?_
  exact hout (List.inj_on_of_nodup_map hd hx hya heq ▸ hy)

/-- A choice of the greatest is one under any map that keeps the keys. -/
theorem IsTop.map {β : Type} {g : β → Nat} (f : α → β) (hf : ∀ a ∈ all, g (f a) = key a)
    (h : IsTop K key all kept) : IsTop K g (all.map f) (kept.map f) := by
  have hsub := h.subset
  obtain ⟨rest, hp, hl, hle⟩ := h
  refine ⟨rest.map f, by simpa using hp.map f, by simpa using hl, fun x hx y hy => ?_⟩
  obtain ⟨a, ha, rfl⟩ := List.mem_map.mp hx
  obtain ⟨b, hb, rfl⟩ := List.mem_map.mp hy
  rw [hf a (hp.mem_iff.mpr (List.mem_append_right _ ha)), hf b (hsub b hb)]
  exact hle a ha b hb

/-- A choice made on the images of distinct items is one on the items. -/
theorem IsTop.filter {β : Type} {key' : β → Nat} {f : α → β} {kept' : List β}
    (h : IsTop K key' (all.map f) kept') (hnd : (all.map f).Nodup) {p : α → Bool}
    (hp : ∀ a ∈ all, p a = true ↔ f a ∈ kept') :
    IsTop K (fun a => key' (f a)) all (all.filter p) := by
  have hsub := h.subset
  obtain ⟨rest, hperm, hl, hle⟩ := h
  have hnd' := hperm.nodup_iff.mp hnd
  have hkept : (all.filter p).map f ~ kept' := by
    refine (List.perm_ext_iff_of_nodup (hnd.sublist (List.filter_sublist.map f))
      (List.nodup_append.mp hnd').1).mpr fun y => ?_
    constructor
    · intro hy
      obtain ⟨a, ha, rfl⟩ := List.mem_map.mp hy
      obtain ⟨ha, hpa⟩ := List.mem_filter.mp ha
      exact (hp a ha).mp hpa
    · intro hy
      obtain ⟨a, ha, rfl⟩ := List.mem_map.mp (hsub y hy)
      exact List.mem_map_of_mem (List.mem_filter.mpr ⟨ha, (hp a ha).mpr hy⟩)
  refine ⟨all.filter fun a => !p a, (List.filter_append_perm p all).symm, ?_, fun x hx y hy => ?_⟩
  · have h1 := hkept.length_eq
    rw [List.length_map] at h1 hl
    rw [h1, hl]
  · obtain ⟨hx, hpx⟩ := List.mem_filter.mp hx
    obtain ⟨hy, hpy⟩ := List.mem_filter.mp hy
    refine hle (f x) ?_ (f y) ((hp y hy).mp hpy)
    rcases List.mem_append.mp (hperm.mem_iff.mp (List.mem_map_of_mem hx)) with hin | hin
    · rw [(hp x hx).mpr hin] at hpx; cases hpx
    · exact hin

/-- With room left, a new item is kept. -/
theorem IsTop.cons_of_room (h : IsTop K key all kept) (hr : kept.length < K) (x : α) :
    IsTop K key (x :: all) (x :: kept) := by
  obtain ⟨rest, hp, hl, hle⟩ := h
  have hlen := hp.length_eq
  rw [List.length_append] at hlen
  have hrest : rest = [] := List.length_eq_zero_iff.mp (by omega)
  subst hrest
  exact ⟨[], by simpa using hp, by simp; omega, by simp⟩

/-- An item below everything that fills the slots is not kept. -/
theorem IsTop.cons_skip (h : IsTop K key all kept) (hf : kept.length = K) {x : α}
    (hx : ∀ y ∈ kept, key x ≤ key y) : IsTop K key (x :: all) kept := by
  obtain ⟨rest, hp, hl, hle⟩ := h
  refine ⟨x :: rest, ?_, by simp; omega, ?_⟩
  · exact (hp.cons x).trans List.perm_middle.symm
  · intro z hz y hy
    rcases List.mem_cons.mp hz with rfl | hz
    · exact hx y hy
    · exact hle z hz y hy

/-- An item takes the place of the least one kept. -/
theorem IsTop.cons_replace {m x : α} (h : IsTop K key all (m :: kept)) (hf : kept.length + 1 = K)
    (hm : ∀ y ∈ kept, key m ≤ key y) (hx : key m ≤ key x) :
    IsTop K key (x :: all) (x :: kept) := by
  obtain ⟨rest, hp, hl, hle⟩ := h
  refine ⟨m :: rest, ?_, by simp at hl ⊢; omega, ?_⟩
  · refine (hp.cons x).trans (List.Perm.cons x ?_)
    exact List.perm_middle.symm
  · intro z hz y hy
    have hzm : key z ≤ key m := by
      rcases List.mem_cons.mp hz with rfl | hz
      · exact Nat.le_refl _
      · exact hle z hz m (by simp)
    rcases List.mem_cons.mp hy with rfl | hy
    · exact hzm.trans hx
    · exact hzm.trans (hm y hy)

/-- Some kept item has the greatest key. -/
theorem IsTop.exists_max (h : IsTop K key all kept) (hK : 0 < K) (hne : all ≠ []) :
    ∃ y ∈ kept, ∀ x ∈ all, key x ≤ key y := by
  obtain ⟨rest, hp, hl, hle⟩ := h
  have hpos : 0 < kept.length := by
    have := List.length_pos_iff.mpr hne
    omega
  obtain ⟨y, hy, hmax⟩ := Set.exists_max_image {x | x ∈ kept} key (List.finite_toSet kept)
    (List.exists_mem_of_length_pos hpos)
  refine ⟨y, hy, fun x hx => ?_⟩
  rcases List.mem_append.mp (hp.mem_iff.mp hx) with hx | hx
  · exact hmax x hx
  · exact hle x hx y hy

/-- What is kept of a list is also what is kept of any part of it that still
has those items. -/
theorem IsTop.of_subperm (h : IsTop K key all kept) (h1 : kept <+~ all') (h2 : all' <+~ all) :
    IsTop K key all' kept := by
  obtain ⟨rest, hp, hl, hle⟩ := h
  obtain ⟨l, hl', hs⟩ := h1
  obtain ⟨rest', hp'⟩ := hs.exists_perm_append
  replace hp' : all' ~ kept ++ rest' := hp'.trans (hl'.append_right rest')
  have hsub : rest' <+~ rest :=
    (List.subperm_append_left kept).mp (hp'.symm.subperm.trans (h2.trans hp.subperm))
  have hlen := hs.length_le
  rw [hl'.length_eq] at hlen
  have hlen' := h2.length_le
  refine ⟨rest', hp', by omega, fun x hx y hy => hle x (hsub.subset hx) y hy⟩

/-- If `K` items are greater than a bound, so is everything kept. -/
theorem IsTop.gt_of_count (h : IsTop K key all kept) {n : Nat}
    (hc : K ≤ (all.filter fun a => n < key a).length) :
    kept.length = K ∧ ∀ y ∈ kept, n < key y := by
  obtain ⟨rest, hp, hl, hle⟩ := h
  have hfilter := List.length_filter_le (fun a => decide (n < key a)) all
  refine ⟨by omega, fun y hy => ?_⟩
  by_contra hlt
  -- nothing outside is greater than the bound, and `y` is not
  have hrest : rest.filter (fun a => n < key a) = [] := by
    refine List.filter_eq_nil_iff.mpr fun x hx => ?_
    have := hle x hx y hy
    simp only [decide_eq_true_eq]
    omega
  have hlen := (hp.filter fun a => decide (n < key a)).length_eq
  rw [List.filter_append, hrest, List.append_nil] at hlen
  have hfew : (kept.filter fun a => decide (n < key a)).length < kept.length :=
    List.length_filter_lt_length_iff_exists.mpr ⟨y, hy, by simpa using hlt⟩
  omega

/-- If the slots are full of items greater than a bound, `K` items are. -/
theorem IsTop.count_of_gt (h : IsTop K key all kept) {n : Nat} (hl : kept.length = K)
    (hgt : ∀ y ∈ kept, n < key y) : K ≤ (all.filter fun a => n < key a).length := by
  obtain ⟨rest, hp, _, _⟩ := h
  have hlen := (hp.filter fun a => decide (n < key a)).length_eq
  rw [List.filter_append, List.length_append,
    List.filter_eq_self.mpr fun y hy => decide_eq_true (hgt y hy)] at hlen
  omega

/-- Of the items with the greatest key as many are kept as fit. -/
theorem IsTop.count_greatest (h : IsTop K key all kept) {M : Nat} (hM : ∀ x ∈ all, key x ≤ M) :
    (kept.filter (key · = M)).length = min K (all.filter (key · = M)).length := by
  have hsub := h.subset
  obtain ⟨rest, hp, hl, hle⟩ := h
  have hlen := (hp.filter (key · = M)).length_eq
  rw [List.filter_append, List.length_append] at hlen
  have hkept := List.length_filter_le (key · = M) kept
  by_cases hrest : rest.filter (key · = M) = []
  · rw [hrest] at hlen
    simp only [List.length_nil] at hlen
    omega
  · -- one is left out, so that all that is kept has the greatest key
    obtain ⟨x, hx⟩ := List.exists_mem_of_ne_nil _ hrest
    obtain ⟨hx, hxM⟩ := List.mem_filter.mp hx
    have hall : kept.filter (key · = M) = kept := by
      refine List.filter_eq_self.mpr fun y hy => decide_eq_true ?_
      have := hle x hx y hy
      have := hM y (hsub y hy)
      have := of_decide_eq_true hxM
      omega
    have hpos := List.length_pos_of_mem hx
    have hall' := hp.length_eq
    rw [List.length_append] at hall'
    rw [hall] at hlen ⊢
    omega

/-- With distinct keys the kept items are determined up to their order. -/
theorem IsTop.unique (h : IsTop K key all kept) (h' : IsTop K key all kept')
    (hd : (all.map key).Nodup) : kept ~ kept' := by
  have hn : all.Nodup := List.Nodup.of_map _ hd
  have hinj : ∀ x ∈ all, ∀ y ∈ all, key x = key y → x = y :=
    List.inj_on_of_nodup_map hd
  obtain ⟨rest, hp, hl, hle⟩ := h
  obtain ⟨rest', hp', hl', hle'⟩ := h'
  have hk : kept.Nodup := (List.nodup_append.mp (hp.nodup_iff.mp hn)).1
  have hk' : kept'.Nodup := (List.nodup_append.mp (hp'.nodup_iff.mp hn)).1
  -- an item kept here and not there would be no greater than one kept there and not here
  have hsub : kept ⊆ kept' := by
    intro x hx
    by_contra hx'
    have hxa : x ∈ all := hp.mem_iff.mpr (List.mem_append_left _ hx)
    have hxr : x ∈ rest' := (List.mem_append.mp (hp'.mem_iff.mp hxa)).resolve_left hx'
    have hns : ¬ kept' ⊆ kept := by
      intro hs
      have hperm := (List.subperm_of_subset hk' hs).perm_of_length_le (by omega)
      exact hx' (hperm.mem_iff.mpr hx)
    obtain ⟨y, hy, hyk⟩ := Set.not_subset.mp hns
    have hya : y ∈ all := hp'.mem_iff.mpr (List.mem_append_left _ hy)
    have hyr : y ∈ rest := (List.mem_append.mp (hp.mem_iff.mp hya)).resolve_left hyk
    have heq : x = y := hinj x hxa y hya
      (Nat.le_antisymm (hle' x hxr y hy) (hle y hyr x hx))
    exact hx' (heq ▸ hy)
  exact (List.subperm_of_subset hk hsub).perm_of_length_le (by omega)

end IsTop

/-! ## The slots -/

/-- A sorting routine: any function that returns its argument in increasing
order of the key, in whatever order where keys are equal. -/
structure Sorter (β : Type) (key : β → Nat) where
  sort : List β → List β
  perm : ∀ l, sort l ~ l
  sorted : ∀ l, (sort l).Pairwise fun a b => key a ≤ key b

/-- The key of a slot; an empty slot comes before every filled one. -/
def slotKey {α : Type} (key : α → Nat) : Option α → Nat
  | none => 0
  | some a => key a

/-- The index of the first item with the least key. -/
def minIdx {β : Type} (f : β → Nat) : List β → Nat
  | [] => 0
  | x :: xs => if xs.all fun y => f x ≤ f y then 0 else minIdx f xs + 1

theorem minIdx_spec {β : Type} (f : β → Nat) : ∀ {l : List β}, l ≠ [] →
    ∃ a m b, l = a ++ m :: b ∧ minIdx f l = a.length ∧ ∀ y ∈ l, f m ≤ f y
  | x :: xs, _ => by
    by_cases h : (xs.all fun y => f x ≤ f y) = true
    · refine ⟨[], x, xs, rfl, by simp [minIdx, h], ?_⟩
      simpa using h
    · have hne : xs ≠ [] := by rintro rfl; simp at h
      obtain ⟨a, m, b, he, hi, hm⟩ := minIdx_spec f hne
      refine ⟨x :: a, m, b, by rw [he]; rfl, by rw [minIdx, if_neg h, hi]; rfl, ?_⟩
      intro y hy
      rcases List.mem_cons.mp hy with rfl | hy
      · simp only [List.all_eq_true, decide_eq_true_eq, not_forall] at h
        obtain ⟨z, hz, hlt⟩ := h
        have := hm z hz
        omega
      · exact hm y hy

section Slots
variable {α : Type} {key : α → Nat}

/-- Offer an item to the slots. -/
def put (S : Sorter (Option α) (slotKey key)) (slots : List (Option α)) (x : α) :
    List (Option α) :=
  match slots[minIdx (slotKey key) slots]? with
  | some (some lowest) =>
    if key lowest > key x then slots
    else S.sort (slots.set (minIdx (slotKey key) slots) (some x))
  | _ => S.sort (slots.set (minIdx (slotKey key) slots) (some x))

/-- The items in the slots. -/
def filled (slots : List (Option α)) : List α := slots.filterMap id

/-- Slots are a permutation of the empty ones followed by the filled ones. -/
theorem slots_perm : ∀ slots : List (Option α),
    slots ~ List.replicate (slots.length - (filled slots).length) none ++ (filled slots).map some
  | [] => List.Perm.refl _
  | none :: slots => by
    have hle : (filled slots).length ≤ slots.length := List.length_filterMap_le _ _
    have hlen : (none :: slots).length - (filled (none :: slots)).length =
        slots.length - (filled slots).length + 1 := by
      simp only [filled, List.filterMap_cons_none, id, List.length_cons] at *
      omega
    rw [hlen]
    exact (slots_perm slots).cons none
  | some a :: slots => by
    have hlen : (some a :: slots).length - (filled (some a :: slots)).length =
        slots.length - (filled slots).length := by
      simp [filled]
    rw [hlen]
    exact ((slots_perm slots).cons (some a)).trans List.perm_middle.symm

/-- Sorted slots with positive keys are the empty ones followed by the filled ones. -/
theorem slots_eq_append (hpos : ∀ y, 0 < key y) : ∀ {slots : List (Option α)},
    (slots.Pairwise fun a b => slotKey key a ≤ slotKey key b) →
      slots = List.replicate (slots.length - (filled slots).length) none ++ (filled slots).map some
  | [], _ => rfl
  | none :: slots, hs => by
    have ih := slots_eq_append hpos (List.pairwise_cons.mp hs).2
    have hle : (filled slots).length ≤ slots.length := List.length_filterMap_le _ _
    have hfilled : filled (none :: slots) = filled slots := rfl
    rw [hfilled, List.length_cons, Nat.succ_sub hle, List.replicate_succ, List.cons_append, ← ih]
  | some a :: slots, hs => by
    obtain ⟨hle, hs⟩ := List.pairwise_cons.mp hs
    have ih := slots_eq_append hpos hs
    -- after a filled slot no slot is empty
    have hsome : ∀ o ∈ slots, (id o).isSome = true := by
      intro o ho
      have hk := hle o ho
      cases o with
      | none =>
        have := hpos a
        simp only [slotKey] at hk
        omega
      | some b => rfl
    have hlen : (filled slots).length = slots.length :=
      List.filterMap_length_eq_length.mpr hsome
    have hfilled : filled (some a :: slots) = a :: filled slots := rfl
    rw [hlen, Nat.sub_self, List.replicate_zero, List.nil_append] at ih
    rw [hfilled, List.length_cons, List.length_cons, hlen, Nat.sub_self, List.map_cons, ← ih]
    rfl

/-- What fills sorted slots is in order. -/
theorem filled_sorted {slots : List (Option α)}
    (hs : slots.Pairwise fun a b => slotKey key a ≤ slotKey key b) :
    (filled slots).Pairwise fun a b => key a ≤ key b := by
  refine List.Pairwise.filterMap id (fun o o' hle a ha a' ha' => ?_) hs
  simp only [id] at ha ha'
  subst ha ha'
  exact hle

/-- Sorted slots with distinct positive keys are determined by what fills them. -/
theorem slots_eq_of_perm {slots slots' : List (Option α)} (hpos : ∀ y, 0 < key y)
    (hs : slots.Pairwise fun a b => slotKey key a ≤ slotKey key b)
    (hs' : slots'.Pairwise fun a b => slotKey key a ≤ slotKey key b)
    (hlen : slots.length = slots'.length) (hp : filled slots ~ filled slots')
    (hd : ((filled slots).map key).Nodup) : slots = slots' := by
  have hperm : slots ~ slots' := by
    refine (slots_perm slots).trans (List.Perm.trans ?_ (slots_perm slots').symm)
    rw [hlen, hp.length_eq]
    exact (hp.map some).append_left _
  refine hperm.eq_of_pairwise (fun a b ha hb hab hba => ?_) hs hs'
  have heq := Nat.le_antisymm hab hba
  cases a with
  | none =>
    cases b with
    | none => rfl
    | some y => have := hpos y; simp only [slotKey] at heq; omega
  | some x =>
    cases b with
    | none => have := hpos x; simp only [slotKey] at heq; omega
    | some y =>
      have hx : x ∈ filled slots := by simpa [filled, List.mem_filterMap] using ha
      have hy : y ∈ filled slots := hp.mem_iff.mpr (by simpa [filled, List.mem_filterMap] using hb)
      exact congrArg some (List.inj_on_of_nodup_map hd hx hy heq)

variable (S : Sorter (Option α) (slotKey key)) {slots : List (Option α)} {x : α}

@[simp] theorem mem_filled {y : α} : y ∈ filled slots ↔ some y ∈ slots := by
  simp [filled, List.mem_filterMap]

theorem filled_length_le : (filled slots).length ≤ slots.length :=
  List.length_filterMap_le _ _

theorem filled_append_cons (m : Option α) (a b : List (Option α)) :
    filled (a ++ m :: b) ~ m.toList ++ filled (a ++ b) := by
  cases m with
  | none => simp [filled]
  | some m => simp [filled, List.filterMap_append]

/-- All that offering an item can do. -/
theorem put_cases (hne : slots ≠ []) (x : α) :
    (put S slots x = slots ∧ ∀ s ∈ slots, ∃ y, s = some y ∧ key x < key y) ∨
    ∃ a m b, slots = a ++ m :: b ∧ (∀ s ∈ slots, slotKey key m ≤ slotKey key s) ∧
      slotKey key m ≤ key x ∧ put S slots x = S.sort (a ++ some x :: b) := by
  obtain ⟨a, m, b, he, hi, hm⟩ := minIdx_spec (slotKey key) hne
  have hget : slots[minIdx (slotKey key) slots]? = some m := by rw [hi, he]; simp
  have hset : slots.set (minIdx (slotKey key) slots) (some x) = a ++ some x :: b := by
    rw [hi, he]; simp
  simp only [put]
  rw [hget, hset]
  cases m with
  | none => exact Or.inr ⟨a, none, b, he, hm, Nat.zero_le _, rfl⟩
  | some y =>
    by_cases hlt : key y > key x
    · refine Or.inl ⟨if_pos hlt, fun s hs => ?_⟩
      have := hm s hs
      cases s with
      | none => simp only [slotKey] at this; omega
      | some z => exact ⟨z, rfl, by simp only [slotKey] at this; omega⟩
    · exact Or.inr ⟨a, some y, b, he, hm, by simpa [slotKey] using hlt, if_neg hlt⟩

theorem mem_put {o : Option α} (h : o ∈ put S slots x) : o = some x ∨ o ∈ slots := by
  have hset : ∀ n, o ∈ S.sort (slots.set n (some x)) → o = some x ∨ o ∈ slots := by
    intro n hs
    rcases List.mem_or_eq_of_mem_set ((S.perm _).mem_iff.mp hs) with hs | hs
    · exact Or.inr hs
    · exact Or.inl hs
  simp only [put] at h
  split at h
  · split at h
    · exact Or.inr h
    · exact hset _ h
  · exact hset _ h

@[simp] theorem put_length : (put S slots x).length = slots.length := by
  simp only [put]
  split
  · split
    · rfl
    · rw [(S.perm _).length_eq, List.length_set]
  · rw [(S.perm _).length_eq, List.length_set]

theorem put_sorted (h : slots.Pairwise fun a b => slotKey key a ≤ slotKey key b) :
    (put S slots x).Pairwise fun a b => slotKey key a ≤ slotKey key b := by
  simp only [put]
  split
  · split
    · exact h
    · exact S.sorted _
  · exact S.sorted _

/-- **Offering an item keeps the choice of the greatest.** -/
theorem isTop_put (hpos : ∀ y, 0 < key y) (hne : slots ≠ []) {all : List α}
    (h : IsTop slots.length key all (filled slots)) (x : α) :
    IsTop slots.length key (x :: all) (filled (put S slots x)) := by
  rcases put_cases S hne x with ⟨hp, hall⟩ | ⟨a, m, b, he, hm, hx, hp⟩
  · rw [hp]
    refine h.cons_skip ?_ fun y hy => ?_
    · -- no slot is empty
      have hsome : ∀ s ∈ slots, (id s).isSome = true := by
        intro s hs
        obtain ⟨y, rfl, _⟩ := hall s hs
        rfl
      exact List.filterMap_length_eq_length.mpr hsome
    · obtain ⟨z, hz, hlt⟩ := hall _ (mem_filled.mp hy)
      exact Option.some.inj hz ▸ hlt.le
  · have hperm : filled (put S slots x) ~ x :: filled (a ++ b) := by
      rw [hp]
      exact ((S.perm _).filterMap id).trans (filled_append_cons (some x) a b)
    have hold : filled slots ~ m.toList ++ filled (a ++ b) := he ▸ filled_append_cons m a b
    refine IsTop.perm ?_ (List.Perm.refl _) hperm.symm
    have hlen : slots.length = (a ++ b).length + 1 := by rw [he]; simp; omega
    cases m with
    | none =>
      refine (h.perm (List.Perm.refl _) hold).cons_of_room ?_ x
      have : (filled (a ++ b)).length ≤ (a ++ b).length := filled_length_le
      simpa [hlen] using Nat.lt_succ_of_le this
    | some m =>
      have hk : IsTop slots.length key all (m :: filled (a ++ b)) :=
        h.perm (List.Perm.refl _) hold
      refine hk.cons_replace ?_ (fun y hy => ?_) hx
      · -- a least slot that is filled leaves none empty
        have hsome : ∀ s ∈ a ++ b, (id s).isSome = true := by
          intro s hs
          have hle := hm s (by rw [he]; simp only [List.mem_append, List.mem_cons] at hs ⊢; tauto)
          cases s with
          | none => have := hpos m; simp only [slotKey] at hle; omega
          | some z => rfl
        rw [hlen, filled, List.filterMap_length_eq_length.mpr hsome]
      · have hmem : some y ∈ slots := by
          have := mem_filled.mp hy
          rw [he]; simp only [List.mem_append, List.mem_cons] at this ⊢; tauto
        exact hm _ hmem

/-- **The slots hold the greatest of the stream, in any order of it.** -/
theorem isTop_foldl_put (hpos : ∀ y, 0 < key y) : ∀ (xs : List α) {slots : List (Option α)}
    {all : List α}, slots ≠ [] → IsTop slots.length key all (filled slots) →
      IsTop slots.length key (xs ++ all) (filled (xs.foldl (put S) slots))
  | [], _, _, _, h => h
  | x :: xs, slots, all, hne, h => by
    have hput := isTop_put S hpos hne h x
    have hne' : put S slots x ≠ [] := by
      intro he
      have := congrArg List.length he
      rw [put_length] at this
      exact hne (List.length_eq_zero_iff.mp this)
    have ih := isTop_foldl_put hpos xs hne' (by rw [put_length]; exact hput)
    rw [put_length] at ih
    exact ih.perm List.perm_middle (List.Perm.refl _)

end Slots

/-! ## Ties -/

/-- The routine keeps the order of the items of a list of `n` that have the same key. -/
def Sorter.StableAt {β : Type} {key : β → Nat} (S : Sorter β key) (n : Nat) : Prop :=
  ∀ l : List β, l.length = n → ∀ k, (S.sort l).filter (key · = k) = l.filter (key · = k)

/-- One item has no order. -/
theorem Sorter.stableAt_one {β : Type} {key : β → Nat} (S : Sorter β key) : S.StableAt 1 := by
  intro l hl k
  obtain ⟨a, rfl⟩ := List.length_eq_one_iff.mp hl
  rw [List.perm_singleton.mp (S.perm [a])]

/-- What `K` slots hold of a stream of ties under a stable routine: the latest of them,
and the first ones, the earlier the further behind. -/
def newest {β : Type} (K : Nat) (ms : List β) : List β :=
  if ms.length < K then ms.reverse else ms.getLast?.toList ++ (ms.take (K - 1)).reverse

section Newest
variable {β : Type} {K : Nat}

theorem newest_length (hK : 0 < K) (ms : List β) : (newest K ms).length = min ms.length K := by
  unfold newest
  split
  · rw [List.length_reverse]
    omega
  · next hlen =>
    have hne : ms ≠ [] := List.ne_nil_of_length_pos (by omega)
    rw [List.getLast?_eq_some_getLast hne]
    simp only [Option.toList_some, List.cons_append, List.nil_append, List.length_cons,
      List.length_reverse, List.length_take]
    omega

/-- One more item takes a free slot, or that of the latest. -/
theorem newest_concat (hK : 0 < K) (ms : List β) (x : β) : newest K (ms ++ [x]) =
    x :: if ms.length < K then newest K ms else (newest K ms).tail := by
  unfold newest
  simp only [List.length_append, List.length_singleton, List.getLast?_concat, Option.toList_some]
  by_cases hlt : ms.length < K
  · rw [if_pos hlt, if_pos hlt]
    split
    · rw [List.reverse_append]
      rfl
    · rw [List.take_append_of_le_length (by omega), List.take_of_length_le (by omega)]
      rfl
  · have hne : ms ≠ [] := List.ne_nil_of_length_pos (by omega)
    rw [if_neg hlt, if_neg hlt, if_neg (by omega), List.take_append_of_le_length (by omega),
      List.getLast?_eq_some_getLast hne]
    rfl

/-- Ties that are offered twice leave what they leave at once exactly where all but one
of the slots are theirs. -/
theorem newest_twice_iff {a u : List β} (ha : a ≠ []) (hau : ∀ x ∈ a, x ∉ u)
    (hfull : K ≤ (a ++ u).length) :
    newest K (a ++ (a ++ u)) = newest K (a ++ u) ↔ K ≤ a.length + 1 := by
  have hlen : (a ++ u).length = a.length + u.length := List.length_append
  have hpos := List.length_pos_iff.mpr ha
  have hlast : (a ++ (a ++ u)).getLast? = (a ++ u).getLast? :=
    List.getLast?_append_of_ne_nil a (by simp [ha])
  have hlong : ¬ (a ++ (a ++ u)).length < K := by
    rw [List.length_append]
    omega
  unfold newest
  rw [if_neg hlong, if_neg (by omega), hlast, List.append_cancel_left_eq, List.reverse_inj]
  constructor
  · intro heq
    by_contra hlt
    -- the first of what came later has the place of one that came again
    have hu : a.length < (a ++ u).length := by omega
    have h1 := congrArg (·[a.length]?) heq
    simp only [List.getElem?_take_of_lt (show a.length < K - 1 by omega)] at h1
    rw [List.getElem?_append_right (Nat.le_refl _), List.getElem?_append_right (Nat.le_refl _),
      Nat.sub_self, List.getElem?_append_left hpos] at h1
    have hx : a[0] ∈ u := List.mem_of_getElem? (h1.symm.trans (List.getElem?_eq_getElem hpos))
    exact hau _ (List.getElem_mem hpos) hx
  · intro hle
    rw [List.take_append_of_le_length (by omega), List.take_append_of_le_length (by omega)]

end Newest

section Ties
variable {α : Type} {key : α → Nat} {M : Nat}

/-- The slots with a certain key. -/
def tied (key : α → Nat) (M : Nat) (slots : List (Option α)) : List (Option α) :=
  slots.filter (slotKey key · = M)

/-- Sorted slots offer the first of them. -/
theorem put_cons (S : Sorter (Option α) (slotKey key)) {m : Option α} {slots : List (Option α)}
    (hs : (m :: slots).Pairwise fun a b => slotKey key a ≤ slotKey key b) {x : α}
    (hx : slotKey key m ≤ key x) : put S (m :: slots) x = S.sort (some x :: slots) := by
  have hmin : minIdx (slotKey key) (m :: slots) = 0 := by
    refine if_pos ?_
    simpa using (List.pairwise_cons.mp hs).1
  unfold put
  rw [hmin]
  cases m with
  | none => rfl
  | some y => exact if_neg (Nat.not_lt.mpr hx)

/-- Offering an item to sorted slots in which nothing is greater than `M`: an item
with that key takes a slot with a lower one, or that of the first tie. -/
theorem tied_put {S : Sorter (Option α) (slotKey key)} {slots : List (Option α)} (hne : slots ≠ [])
    (hS : S.StableAt slots.length)
    (hs : slots.Pairwise fun a b => slotKey key a ≤ slotKey key b)
    (hM : ∀ o ∈ slots, slotKey key o ≤ M) {x : α} (hx : key x ≤ M) :
    tied key M (put S slots x) = if key x = M then
      some x :: (if (tied key M slots).length < slots.length then tied key M slots
        else (tied key M slots).tail) else tied key M slots := by
  obtain ⟨m, slots, rfl⟩ := List.exists_cons_of_ne_nil hne
  have hstable : tied key M (S.sort (some x :: slots)) = tied key M (some x :: slots) :=
    hS (some x :: slots) rfl M
  have hm : slotKey key m ≤ M := hM m List.mem_cons_self
  have htied : ∀ o : Option α, tied key M (o :: slots) =
      if slotKey key o = M then o :: tied key M slots else tied key M slots := by
    intro o
    unfold tied
    rw [List.filter_cons]
    simp only [decide_eq_true_eq]
  have hlen : (tied key M slots).length ≤ slots.length := List.length_filter_le _ _
  by_cases hmx : slotKey key m ≤ key x
  · rw [put_cons S hs hmx, hstable, htied (some x), htied m]
    show (if key x = M then _ else _) = _
    by_cases hxM : key x = M
    · rw [if_pos hxM, if_pos hxM]
      by_cases hmM : slotKey key m = M
      · -- all slots are ties
        have hall : tied key M slots = slots := by
          refine List.filter_eq_self.mpr fun o ho => decide_eq_true ?_
          have := (List.pairwise_cons.mp hs).1 o ho
          exact Nat.le_antisymm (hM o (List.mem_cons_of_mem _ ho)) (hmM ▸ this)
        rw [if_pos hmM, hall, if_neg (Nat.lt_irrefl _)]
        rfl
      · rw [if_neg hmM, if_pos (show _ < (m :: slots).length from Nat.lt_succ_of_le hlen)]
    · have hmM : slotKey key m ≠ M := fun heq => hxM (Nat.le_antisymm hx (heq ▸ hmx))
      rw [if_neg hxM, if_neg hxM, if_neg hmM]
  · -- no slot is low enough
    have hput : put S (m :: slots) x = m :: slots := by
      rcases put_cases S hne x with ⟨hput, _⟩ | ⟨a, m', b, heq, hle, hm'x, _⟩
      · exact hput
      · have := hle m List.mem_cons_self
        have hm' : m' ∈ m :: slots := by
          rw [heq]
          simp
        rcases List.mem_cons.mp hm' with rfl | hin
        · exact absurd hm'x hmx
        · exact absurd (((List.pairwise_cons.mp hs).1 m' hin).trans hm'x) hmx
    have hxM : key x ≠ M := fun heq => hmx (heq ▸ hm)
    rw [hput, if_neg hxM]

/-- **The slots keep the newest of the greatest items**, and the first ones of them,
if the routine is stable. -/
theorem tied_foldl_put {S : Sorter (Option α) (slotKey key)} {K : Nat} (hK : 0 < K)
    (hS : S.StableAt K) (hpos : 0 < M) (xs : List α) (hM : ∀ x ∈ xs, key x ≤ M) :
    tied key M (xs.foldl (put S) (List.replicate K none)) =
      (newest K (xs.filter (key · = M))).map some := by
  induction xs using List.reverseRecOn with
  | nil =>
    have hnone : tied key M (List.replicate K none) = [] := by
      refine List.filter_eq_nil_iff.mpr fun o ho => ?_
      rw [List.eq_of_mem_replicate ho, decide_eq_true_eq]
      exact hpos.ne
    rw [List.foldl_nil, hnone]
    unfold newest
    rw [List.filter_nil, if_pos (show ([] : List α).length < K from hK)]
    rfl
  | append_singleton xs x ih =>
    have ih := ih fun y hy => hM y (List.mem_append_left _ hy)
    have hlen : (xs.foldl (put S) (List.replicate K none)).length = K :=
      List.foldlRecOn (motive := fun slots : List (Option α) => slots.length = K) xs _ List.length_replicate
        fun _ hl _ _ => put_length S |>.trans hl
    have hsorted : (xs.foldl (put S) (List.replicate K none)).Pairwise fun a b =>
        slotKey key a ≤ slotKey key b :=
      List.foldlRecOn (motive := List.Pairwise fun a b => slotKey key a ≤ slotKey key b) xs _
        (List.pairwise_replicate.mpr (Or.inr (Nat.le_refl _))) fun _ hl _ _ => put_sorted S hl
    have hle : ∀ o ∈ xs.foldl (put S) (List.replicate K none), slotKey key o ≤ M := by
      refine List.foldlRecOn (motive := fun slots : List (Option α) => ∀ o ∈ slots, slotKey key o ≤ M) xs _
        (fun o ho => ?_) fun slots hl y hy o ho => ?_
      · rw [List.eq_of_mem_replicate ho]
        exact Nat.zero_le M
      · rcases mem_put S ho with rfl | ho
        · exact hM y (List.mem_append_left _ hy)
        · exact hl o ho
    rw [List.foldl_append, List.foldl_cons, List.foldl_nil,
      tied_put (List.ne_nil_of_length_pos (hlen.symm ▸ hK)) (hlen.symm ▸ hS) hsorted hle
        (hM x (by simp)), ih, hlen, List.length_map, newest_length hK, List.filter_append]
    have hone : [x].filter (key · = M) = if key x = M then [x] else [] := by
      rw [List.filter_cons, List.filter_nil]
      simp only [decide_eq_true_eq]
    rw [hone]
    by_cases hx : key x = M
    · rw [if_pos hx, if_pos hx, newest_concat hK, List.map_cons]
      by_cases hlt : (xs.filter (key · = M)).length < K
      · rw [if_pos (by omega), if_pos hlt]
      · rw [if_neg (by omega), if_neg hlt, List.map_tail]
    · rw [if_neg hx, if_neg hx, List.append_nil]

end Ties

end TopK
